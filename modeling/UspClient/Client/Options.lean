import Mathlib.Logic.Basic
import Mathlib.Tactic.SplitIfs
import UspClient.Lib.Checks

/-!
# The options of a client and their two validators (client.go, protocol/mapping.go)

`ClientOptions.Validate` is called by the users of the package, and `NewClient` checks the mappings
again, for callers that did not call it. The fields are those that one of the two reads. What the
standard packages and go-grok accept, and how they word their errors, is a parameter. A map of grok
patterns is the list of its entries.
-/

namespace UspClient

open Checks

abbrev GrokPatterns := List (String × String)

/-- The packages that the validators call. Each of them answers nothing or its error. -/
structure Packages where
  /-- `regexp.Compile` -/
  compile : String → Except String Unit
  /-- `grok.NewComplete` -/
  newComplete : GrokPatterns → Except String Unit
  /-- `grok.New().AddPatterns` -/
  addPatterns : GrokPatterns → Except String Unit
  /-- `time.LoadLocation` -/
  loadLocation : String → Except String Unit
  /-- `url.Parse`; the answer says if the URL has user information -/
  parseURL : String → Except String Bool
  /-- The verb `%q` -/
  quote : String → String

structure MappingDescriptor where
  parsingRE : String := ""
  parsingGrok : GrokPatterns := []
  sensorIdentityType : String := ""
  eventTimeTimezone : String := ""
deriving DecidableEq, Repr

structure IndexDescriptor where
  regexp : String := ""
deriving DecidableEq, Repr

structure Identity where
  oid : String := ""
  installationKey : String := ""
deriving DecidableEq, Repr

/-- The timeouts are in nanoseconds. -/
structure ProxyOptions where
  url : String := ""
  username : String := ""
  password : String := ""
  handshakeTimeout : Int := 0
  connectTimeout : Int := 0
  readWriteTimeout : Int := 0
deriving DecidableEq, Repr

structure ClientOptions where
  identity : Identity := {}
  platform : String := ""
  mapping : MappingDescriptor := {}
  mappings : List MappingDescriptor := []
  indexing : List IndexDescriptor := []
  proxy : ProxyOptions := {}
deriving DecidableEq, Repr

/-! ## Validate -/

def validSensorIdentityType (t : String) : Bool :=
  t ∈ ["", "email", "username", "github_login", "device"]

def MappingDescriptor.validate (P : Packages) (d : MappingDescriptor) : Except String Unit := do
  refuseIf (¬ validSensorIdentityType d.sensorIdentityType) "invalid sensor_identity_type"
  checkIf (d.parsingRE ≠ "") (P.compile d.parsingRE)
  checkIf (d.parsingGrok ≠ []) (P.newComplete d.parsingGrok)
  checkIf (d.eventTimeTimezone ≠ "") <|
    let timezone := P.quote d.eventTimeTimezone
    (P.loadLocation d.eventTimeTimezone).mapError fun err => s!"invalid timezone {timezone}: {err}"

def IndexDescriptor.validate (P : Packages) (d : IndexDescriptor) : Except String Unit :=
  checkIf (d.regexp ≠ "") (P.compile d.regexp)

/-- The proxy part of `Validate`. -/
def ProxyOptions.validate (P : Packages) (proxy : ProxyOptions) : Except String Unit := do
  let user ← (P.parseURL proxy.url).mapError fun err => s!"invalid proxy URL: {err}"
  refuseIf user
    "proxy URL must not contain credentials - use proxy.username and proxy.password fields instead"
  refuseIf ((proxy.username ≠ "" ∧ proxy.password = "") ∨
      (proxy.username = "" ∧ proxy.password ≠ ""))
    "proxy authentication requires both username and password"

/-- The mapping part of `Validate`: `Mapping` counts only without `Mappings`. -/
def ClientOptions.validateMappings (P : Packages) (o : ClientOptions) : Except String Unit :=
  if o.mappings ≠ [] then
    each o.mappings fun i m =>
      (m.validate P).mapError fun err => s!"mapping descriptor {i} invalid: {err}"
  else (o.mapping.validate P).mapError fun err => s!"mapping descriptor invalid: {err}"

def ClientOptions.validate (P : Packages) (o : ClientOptions) : Except String Unit := do
  refuseIf (o.identity.oid = "") "missing oid"
  refuseIf (o.identity.installationKey = "") "missing installation_key"
  refuseIf (o.platform = "") "missing platform"
  checkIf (o.proxy.url ≠ "") (o.proxy.validate P)
  each o.indexing fun i desc =>
    (desc.validate P).mapError fun err => s!"index descriptor {i} invalid: {err}"
  o.validateMappings P

/-! ## NewClient -/

def second : Int := 1000000000

def ClientOptions.normalizeProxyConfig (o : ClientOptions) : ClientOptions :=
  { o with proxy := { o.proxy with
      handshakeTimeout :=
        if o.proxy.handshakeTimeout = 0 then 45 * second else o.proxy.handshakeTimeout
      connectTimeout := if o.proxy.connectTimeout = 0 then 10 * second else o.proxy.connectTimeout
      readWriteTimeout :=
        if o.proxy.readWriteTimeout = 0 then 30 * second else o.proxy.readWriteTimeout } }

/-- The parsing rules of a descriptor under the name of its field. -/
def MappingDescriptor.checkRules (P : Packages) (field : String) (m : MappingDescriptor) :
    Except String Unit := do
  checkIf (m.parsingRE ≠ "") <|
    (P.compile m.parsingRE).mapError fun err => s!"invalid {field}.parsing_re: {err}"
  checkIf (m.parsingGrok ≠ []) <|
    (P.addPatterns m.parsingGrok).mapError fun err => s!"invalid {field}.parsing_grok: {err}"

/-- The checks of `Mappings[i]`. -/
def MappingDescriptor.checkEntry (P : Packages) (i : Nat) (m : MappingDescriptor) :
    Except String Unit := do
  refuseIf (m.parsingRE = "" ∧ m.parsingGrok = []) <|
    s!"mappings[{i}].parsing_re or parsing_grok not set, one is required for multiple mappings"
  m.checkRules P s!"mappings[{i}]"

/-- `NewClient` up to the return for `TestSinkMode`; the answer are the options the client keeps. -/
def newClientChecks (P : Packages) (o : ClientOptions) : Except String ClientOptions := do
  let o := o.normalizeProxyConfig
  refuseIf (¬ validSensorIdentityType o.mapping.sensorIdentityType)
    "invalid mapping.sensor_identity_type"
  each o.mappings fun _ m =>
    refuseIf (¬ validSensorIdentityType m.sensorIdentityType) "invalid mappings.sensor_identity_type"
  each o.mappings fun i m => m.checkEntry P i
  o.mapping.checkRules P "mapping"
  return o

/-! ## What they accept -/

variable {P : Packages} {o : ClientOptions}

/-- What both validators ask of a descriptor. -/
structure MappingDescriptor.Sound (P : Packages) (m : MappingDescriptor) : Prop where
  identity : validSensorIdentityType m.sensorIdentityType = true
  parsingRE : m.parsingRE ≠ "" → P.compile m.parsingRE = .ok ()
  parsingGrok : m.parsingGrok ≠ [] → P.addPatterns m.parsingGrok = .ok ()

theorem MappingDescriptor.sound_of_validate {m : MappingDescriptor}
    (hgrok : ∀ g, P.newComplete g = .ok () → P.addPatterns g = .ok ())
    (h : m.validate P = .ok ()) : m.Sound P := by
  unfold MappingDescriptor.validate at h
  rw [seq_ok, refuseIf_ok, seq_ok, checkIf_ok, seq_ok, checkIf_ok] at h
  rcases h with ⟨hidentity, hre, hcomplete, -⟩
  exact ⟨not_not.1 hidentity, hre, fun hne => hgrok _ (hcomplete hne)⟩

theorem MappingDescriptor.checkRules_ok {m : MappingDescriptor} {field : String} :
    m.checkRules P field = .ok () ↔ (m.parsingRE ≠ "" → P.compile m.parsingRE = .ok ()) ∧
      (m.parsingGrok ≠ [] → P.addPatterns m.parsingGrok = .ok ()) := by
  unfold MappingDescriptor.checkRules
  rw [seq_ok, checkIf_ok, checkIf_ok, mapError_ok, mapError_ok]

theorem MappingDescriptor.checkEntry_ok (i : Nat) (m : MappingDescriptor) :
    m.checkEntry P i = .ok () ↔ (m.parsingRE ≠ "" ∨ m.parsingGrok ≠ []) ∧
      (m.parsingRE ≠ "" → P.compile m.parsingRE = .ok ()) ∧
        (m.parsingGrok ≠ [] → P.addPatterns m.parsingGrok = .ok ()) := by
  unfold MappingDescriptor.checkEntry
  rw [seq_ok, refuseIf_ok, not_and_or, MappingDescriptor.checkRules_ok]

/-- `Validate` looks at the descriptors it uses. -/
theorem sound_of_validate (hgrok : ∀ g, P.newComplete g = .ok () → P.addPatterns g = .ok ())
    (h : o.validate P = .ok ()) :
    (∀ m ∈ o.mappings, m.Sound P) ∧ (o.mappings = [] → o.mapping.Sound P) := by
  unfold ClientOptions.validate at h
  iterate 5 rw [seq_ok] at h
  rcases h with ⟨-, -, -, -, -, hmappings⟩
  unfold ClientOptions.validateMappings at hmappings
  split_ifs at hmappings with hne
  · rw [each_ok (fun m => m.validate P = .ok ()) fun _ _ => mapError_ok] at hmappings
    exact ⟨fun m hm => MappingDescriptor.sound_of_validate hgrok (hmappings m hm),
      fun hempty => absurd hempty hne⟩
  · rw [mapError_ok] at hmappings
    have hempty := not_not.1 hne
    rw [hempty]
    exact ⟨nofun, fun _ => MappingDescriptor.sound_of_validate hgrok hmappings⟩

/-- `NewClient` asks for a parsing rule in each of `Mappings`, and looks at `Mapping` in any case. -/
theorem newClientChecks_ok {o' : ClientOptions} :
    newClientChecks P o = .ok o' ↔ (o.mapping.Sound P ∧
      ∀ m ∈ o.mappings, m.Sound P ∧ (m.parsingRE ≠ "" ∨ m.parsingGrok ≠ [])) ∧
        o.normalizeProxyConfig = o' := by
  have hidentities : ∀ l : List MappingDescriptor, each l (fun _ m =>
      refuseIf (¬ validSensorIdentityType m.sensorIdentityType)
        "invalid mappings.sensor_identity_type") = .ok () ↔
      ∀ m ∈ l, validSensorIdentityType m.sensorIdentityType = true :=
    fun l => each_ok _ fun _ _ => refuseIf_ok.trans not_not
  unfold newClientChecks
  simp only
  rw [seq_ok, seq_ok, seq_ok, seq_ok, refuseIf_ok, not_not, hidentities,
    each_ok _ fun i m => MappingDescriptor.checkEntry_ok i m, MappingDescriptor.checkRules_ok]
  constructor
  · rintro ⟨hidentity, hall, hentries, hmapping, hsame⟩
    refine ⟨⟨⟨hidentity, hmapping.1, hmapping.2⟩, fun m hm => ?_⟩, Except.ok.inj hsame⟩
    rcases hentries m hm with ⟨hset, hre, hgrok⟩
    exact ⟨⟨hall m hm, hre, hgrok⟩, hset⟩
  · rintro ⟨⟨hmapping, hmappings⟩, rfl⟩
    refine ⟨hmapping.identity, fun m hm => (hmappings m hm).1.identity, fun m hm => ?_,
      ⟨hmapping.parsingRE, hmapping.parsingGrok⟩, rfl⟩
    rcases hmappings m hm with ⟨hsound, hset⟩
    exact ⟨hset, hsound.parsingRE, hsound.parsingGrok⟩

/-- What `NewClient` asks for and `Validate` does not look at. -/
structure ClientOptions.Constructible (P : Packages) (o : ClientOptions) : Prop where
  /-- Each of `Mappings` has a parsing rule. -/
  rules : ∀ m ∈ o.mappings, m.parsingRE ≠ "" ∨ m.parsingGrok ≠ []
  /-- `Mapping` is sound also when `Mappings` replaces it. -/
  mapping : o.mappings ≠ [] → o.mapping.Sound P

/-- **The two validators.** Of the options that `Validate` accepts, `NewClient` rejects exactly
those that are not constructible. -/
theorem validators_agree (P : Packages)
    (hgrok : ∀ g, P.newComplete g = .ok () → P.addPatterns g = .ok ()) (o : ClientOptions)
    (h : o.validate P = .ok ()) :
    newClientChecks P o = .ok o.normalizeProxyConfig ↔ o.Constructible P := by
  rcases sound_of_validate hgrok h with ⟨hmappings, hmapping⟩
  rw [newClientChecks_ok]
  constructor
  · rintro ⟨⟨hsound, hall⟩, -⟩
    exact ⟨fun m hm => (hall m hm).2, fun _ => hsound⟩
  · intro hc
    refine ⟨⟨?_, fun m hm => ⟨hmappings m hm, hc.rules m hm⟩⟩, rfl⟩
    by_cases hempty : o.mappings = []
    · exact hmapping hempty
    · exact hc.mapping hempty

/-- Packages that refuse one regular expression. -/
def onePattern : Packages where
  compile re := if re = "[unclosed" then .error "missing closing ]" else .ok ()
  newComplete _ := .ok ()
  addPatterns _ := .ok ()
  loadLocation _ := .ok ()
  parseURL _ := .ok false
  quote s := "\"" ++ s ++ "\""

def namedOptions : ClientOptions where
  identity := { oid := "test-oid", installationKey := "test-key" }
  platform := "test"

theorem mixed_mappings_agree :
    ClientOptions.validate onePattern { namedOptions with mappings :=
        [{ parsingRE := "(?P<key>\\w+)" }, { parsingGrok := [("message", "%IP")] }] } = .ok () ∧
      ∃ o, newClientChecks onePattern { namedOptions with mappings :=
        [{ parsingRE := "(?P<key>\\w+)" }, { parsingGrok := [("message", "%IP")] }] } = .ok o := by
  refine ⟨rfl, _, (validators_agree onePattern (fun _ _ => rfl) _ rfl).2 ⟨?_, fun _ => ?_⟩⟩
  · decide
  · exact ⟨rfl, fun h => absurd rfl h, fun h => absurd rfl h⟩

/-- A descriptor without a parsing rule, and a `Mapping` that `Mappings` replaces. -/
theorem validated_options_rejected :
    ClientOptions.validate onePattern { namedOptions with mappings := [{}] } = .ok () ∧
      newClientChecks onePattern { namedOptions with mappings := [{}] } =
        .error ("mappings[0].parsing_re or parsing_grok not set, " ++
          "one is required for multiple mappings") ∧
      ClientOptions.validate onePattern { namedOptions with
        mapping := { parsingRE := "[unclosed" }, mappings := [{ parsingRE := "a" }] } = .ok () ∧
      newClientChecks onePattern { namedOptions with
        mapping := { parsingRE := "[unclosed" }, mappings := [{ parsingRE := "a" }] } =
        .error "invalid mapping.parsing_re: missing closing ]" := by
  exact ⟨rfl, rfl, rfl, rfl⟩

end UspClient
