import UspClient.Client.Steps
import UspClient.Buffer.Order

/-!
# What an observation of a receipt means

`ObserveReceipt` makes up to five loads, and a `Close` may change the cells between any two
of them. What makes the result meaningful is that nothing it reads is ever taken back
(`Later`): a cell changes at most once, the lifetime of the owner and `isClosing` only grow,
and once the lifetime is closed the receipts are detached and no cell changes any more
(`Lifetime`). So every load of a call that has not returned stays a lower bound
(`Observing`).

* `observations_sound`: what the returned observations say, and how they are ordered.
-/

namespace UspClient

open Function Replay ClientState

variable {encodes : DataMessage → Bool} {c c' c₀ : ClientState} {a : ClientAct} {t : Nat}
variable {q q' : Queue Admission} {r : ReceiptId} {tr : List ClientStep}

namespace ClientState

variable {state : ReceiptFrameState} {lifetime : ReceiptLifetime}

/-- The state in the cell of a receipt. -/
def cell (c : ClientState) (r : ReceiptId) : ReceiptFrameState := c.buffer.buf.receiptAt r

/-! ## Nothing is taken back -/

/-- What a step can do to the things `ObserveReceipt` reads. -/
structure Later (c c' : ClientState) : Prop where
  receipt : ∀ k r, c.buffer.receiptOf k = some r → c'.buffer.receiptOf k = some r
  cell : ∀ k r, c.buffer.receiptOf k = some r → c'.cell r = c.cell r ∨
    (c.cell r = .retained ∧ (c'.cell r = .acknowledged ∨ c'.cell r = .retired) ∧
      ¬ c.buffer.buf.Released)
  closing : c.proto.isClosing = true → c'.proto.isClosing = true
  owner : ∀ l, c.receiptOwner = some l → ∃ l', c'.receiptOwner = some l' ∧ l.rank ≤ l'.rank
  receipts : ∀ r ∈ c.receipts, r ∈ c'.receipts

/-- The lifetime cells and the release of the receipts. -/
structure Lifetime (c : ClientState) : Prop where
  detached : ∀ t, (c.proto.pc t).detached = true → c.buffer.buf.Released
  closed : c.receiptLifetime = .closed → c.buffer.buf.Released
  owner : ∀ l, c.receiptOwner = some l → l ≠ .unknown ∧ l.rank ≤ max c.receiptLifetime.rank 2 ∧
    (l = .closed → c.receiptLifetime = .closed)
  bound : ∀ r ∈ c.receipts, c.receiptOwner ≠ none ∧ ∃ k, c.buffer.receiptOf k = some r

theorem receiptOf_append {s s' : BufferState} {l : List Admission} (hlog : s'.log = s.log ++ l)
    {k : Nat} (h : s.receiptOf k = some r) : s'.receiptOf k = some r := by
  cases k with
  | zero => cases h
  | succ k =>
    have h' : s.log[k]?.bind Admission.receipt = some r := h
    show s'.log[k]?.bind Admission.receipt = some r
    obtain ⟨adm, hadm, hr⟩ := Option.bind_eq_some_iff.1 h'
    rw [hlog, List.getElem?_append_left (List.getElem?_eq_some_iff.1 hadm).1, hadm]
    exact hr

theorem log_of_move {s s' : BufferState} {x : LifeAct}
    (hmove : BufferState.LifeMove s q x s' q') : ∃ l, s'.log = s.log ++ l := by
  have hsame : s'.log = s.log → ∃ l, s'.log = s.log ++ l := fun h =>
    ⟨[], by rw [h, List.append_nil]⟩
  cases hmove with
  | call op q' _ hstep =>
    cases hstep with
    | same hlog | deliver hlog | ack _ hlog | reset hlog => exact hsame hlog
    | push adm hlog => exact ⟨_, hlog⟩
  | rewind _ hlog | release _ hlog => exact hsame hlog

/-- What a step can do to the buffer, as far as receipts are concerned. -/
theorem Calls.receipts (h : Calls c q a c' q') :
    (∀ k r, c.buffer.receiptOf k = some r → c'.buffer.receiptOf k = some r) ∧
    (∀ k r, c.buffer.receiptOf k = some r → c'.cell r = c.cell r ∨
      (c.cell r = .retained ∧ (c'.cell r = .acknowledged ∨ c'.cell r = .retired) ∧
        ¬ c.buffer.buf.Released)) ∧
    (c.buffer.buf.Released → c'.buffer.buf.Released) := by
  cases h with
  | silent _ hbuf =>
    unfold cell
    rw [hbuf]
    exact ⟨fun _ _ => id, fun _ _ _ => .inl rfl, id⟩
  | called x q' _ hbuf hkept =>
    unfold cell
    rw [hbuf]
    obtain ⟨l, hl⟩ := log_of_move hkept.move
    refine ⟨fun k r => receiptOf_append hl, fun k r hr => ?_, fun hrel => (hkept.released hrel).1⟩
    by_cases hrel : c.buffer.buf.Released
    · exact .inl (congrFun (hkept.released hrel).2 r)
    · rcases hkept.cells k r hr with hsame | ⟨hret, ⟨-, hack⟩ | ⟨-, hretired⟩⟩
      · exact .inl hsame
      · exact .inr ⟨hret, .inl hack, hrel⟩
      · exact .inr ⟨hret, .inr hretired, hrel⟩

/-- A `Close` raises the lifetime. -/
theorem Lifetime.set (h : Lifetime c) {lifetime : ReceiptLifetime} (htwo : 2 ≤ lifetime.rank)
    (hrel : lifetime = .closed → c.buffer.buf.Released) :
    Lifetime (c.setReceiptLifetime lifetime) ∧
      ∀ l, c.receiptOwner = some l → ∃ l', (c.setReceiptLifetime lifetime).receiptOwner = some l' ∧
        l.rank ≤ l'.rank := by
  obtain ⟨new, hnew⟩ : ∃ new, new =
      if c.receiptLifetime.rank < lifetime.rank then lifetime else c.receiptLifetime := ⟨_, rfl⟩
  have hlife : (c.setReceiptLifetime lifetime).receiptLifetime = new := hnew.symm
  have howner : (c.setReceiptLifetime lifetime).receiptOwner = c.receiptOwner.map fun _ => new := by
    rw [hnew]
    rfl
  have hle : lifetime.rank ≤ new.rank ∧ c.receiptLifetime.rank ≤ new.rank := by
    rw [hnew]
    split_ifs <;> omega
  refine ⟨⟨h.detached, ?_, ?_, ?_⟩, ?_⟩
  · rw [hlife, hnew]
    split_ifs
    · exact hrel
    · exact h.closed
  · rw [hlife, howner]
    intro l hl
    obtain ⟨-, -, rfl⟩ := Option.map_eq_some_iff.1 hl
    refine ⟨?_, Nat.le_max_left _ _, id⟩
    intro hunknown
    have hrank : new.rank = 0 := by rw [hunknown]; rfl
    omega
  · intro r hr
    obtain ⟨hne, hk⟩ := h.bound r hr
    refine ⟨?_, hk⟩
    rw [howner]
    exact fun hnone => hne (Option.map_eq_none_iff.1 hnone)
  · intro l hl
    refine ⟨new, by rw [howner, hl]; rfl, ?_⟩
    have hbound := (h.owner l hl).2.1
    omega

/-- An owner that is made while the client closes is not live. -/
theorem newOwner_spec (c : ClientState) : c.newOwner ≠ .unknown ∧
    c.newOwner.rank ≤ max c.receiptLifetime.rank 2 ∧
    (c.newOwner = .closed → c.receiptLifetime = .closed) := by
  unfold newOwner
  cases c.receiptLifetime <;> cases c.proto.isClosing <;> decide

theorem Lifetime.stores (h : Lifetime c) (t : Nat) :
    Lifetime (c.stores t) ∧
      ∀ l, c.receiptOwner = some l → ∃ l', (c.stores t).receiptOwner = some l' ∧
        l.rank ≤ l'.rank := by
  unfold ClientState.stores
  split
  case h_1 => exact h.set le_rfl fun hc => ReceiptLifetime.noConfusion hc
  case h_2 hpc => exact h.set (by decide) fun _ => h.detached t (by rw [hpc]; rfl)
  case h_3 => exact ⟨⟨h.detached, h.closed, h.owner, h.bound⟩, fun l hl => ⟨l, hl, le_rfl⟩⟩
  case h_4 => exact ⟨h, fun l hl => ⟨l, hl, le_rfl⟩⟩

theorem stores_buffer (t : Nat) : (c.stores t).buffer = c.buffer ∧
    (c.stores t).receipts = c.receipts := by
  unfold stores
  split <;> exact ⟨rfl, rfl⟩

/-- The protocol and the buffer move, the lifetimes and the receipts stay. -/
theorem Lifetime.move (h : Lifetime c)
    (hreceipt : ∀ k r, c.buffer.receiptOf k = some r → c'.buffer.receiptOf k = some r)
    (hrel : c.buffer.buf.Released → c'.buffer.buf.Released)
    (hdet : ∀ t, (c'.proto.pc t).detached = true → c'.buffer.buf.Released)
    (h₁ : c'.receiptLifetime = c.receiptLifetime) (h₂ : c'.receiptOwner = c.receiptOwner)
    (h₃ : c'.receipts = c.receipts) : Lifetime c' := by
  constructor
  · exact hdet
  · rw [h₁]
    exact fun hc => hrel (h.closed hc)
  · rw [h₁, h₂]
    exact h.owner
  · rw [h₂, h₃]
    intro r hr
    obtain ⟨hne, k, hk⟩ := h.bound r hr
    exact ⟨hne, k, hreceipt k r hk⟩

/-- The receipts are released when a `Close` detaches them, and stay so. -/
theorem Lifetime.release (h : Lifetime c) (hs : Sound c q) (hmove : Moved encodes c a c')
    (hcalls : Calls c q a c' q') (t : Nat) (ht : (c'.proto.pc t).detached = true) :
    c'.buffer.buf.Released := by
  rcases hmove.class (f := Pc.detached) (e := .closeDetach) (fun t p₁ b heff => heff.detached)
    ⟨rfl, fun _ => rfl, rfl, rfl⟩ rfl ht with hold | ⟨bb, rfl, hpc⟩
  · exact hcalls.receipts.2.2 (h.detached t hold)
  · have hcall : ClientAct.call c (.step t .go bb) = some ⟨bb, .releaseReceiptTracking⟩ := by
      rw [ClientAct.call, hpc]
      rfl
    rw [(hcalls.moved hcall).1]
    show (none, none, none, c.buffer.buf.isRunning) = _
    rw [hs.sealed t (by rw [hpc]; rfl)]

theorem Moved.isClosing (hmove : Moved encodes c a c') (h : c.proto.isClosing = true) :
    c'.proto.isClosing = true := by
  rcases hmove.proto with hsame | ⟨pa, hpa⟩
  · rw [hsame]
    exact h
  · cases pa with
    | callClose | callReconnect =>
      rw [← Option.some.inj hpa]
      exact h
    | step t choice => exact Protocol.step_isClosing hpa h

/-- Every step keeps the lifetimes, and takes nothing back. -/
theorem Lifetime.step (h : Lifetime c) (hs : Sound c q) (hmove : Moved encodes c a c')
    (hcalls : Calls c q a c' q') : Lifetime c' ∧ Later c c' := by
  obtain ⟨hreceipt, hcell, hrel⟩ := hcalls.receipts
  have hdet := h.release hs hmove hcalls
  have hclosing := hmove.isClosing
  -- steps that leave the owner and the receipts alone
  have hquiet : c'.receiptLifetime = c.receiptLifetime → c'.receiptOwner = c.receiptOwner →
      c'.receipts = c.receipts → Lifetime c' ∧ Later c c' := by
    intro h₁ h₂ h₃
    refine ⟨h.move hreceipt hrel hdet h₁ h₂ h₃, hreceipt, hcell, hclosing, ?_, ?_⟩
    · exact fun l hl => ⟨l, h₂.trans hl, le_rfl⟩
    · intro r hr
      rw [h₃]
      exact hr
  cases hmove with
  | step t choice bb p _ _ =>
    obtain ⟨hlife, howner⟩ := h.stores t
    obtain ⟨hbuf, hreceipts⟩ := stores_buffer (c := c) t
    refine ⟨hlife.move ?_ ?_ hdet rfl rfl rfl, hreceipt, hcell, hclosing, howner, ?_⟩
    · rw [hbuf]
      exact hreceipt
    · rw [hbuf]
      exact hrel
    · intro r hr
      show r ∈ (c.stores t).receipts
      rw [hreceipts]
      exact hr
  | owner r hadm =>
    obtain ⟨hne, hle, hclosed⟩ := newOwner_spec c
    -- an owner that exists is kept
    have howner : ∀ l, c.receiptOwner = some l → c.receiptOwner.getD c.newOwner = l := by
      intro l hl
      rw [hl]
      rfl
    refine ⟨⟨h.detached, h.closed, ?_, ?_⟩, fun _ _ => id, fun _ _ _ => .inl rfl, id, ?_, ?_⟩
    · intro l hl
      have hl' : c.receiptOwner.getD c.newOwner = l := Option.some.inj hl
      cases ho : c.receiptOwner with
      | none =>
        rw [ho] at hl'
        rw [← hl']
        exact ⟨hne, hle, hclosed⟩
      | some l' =>
        rw [howner l' ho] at hl'
        exact h.owner l (ho.trans (congrArg some hl'))
    · intro r' hr'
      refine ⟨Option.some_ne_none _, ?_⟩
      rcases List.mem_cons.1 hr' with rfl | hold
      · obtain ⟨x, hx, hxr⟩ := hadm
        obtain ⟨k, hk⟩ := List.mem_iff_getElem?.1 hx
        refine ⟨k + 1, ?_⟩
        show c.buffer.log[k]?.bind Admission.receipt = some r'
        rw [hk]
        exact hxr
      · exact (h.bound r' hold).2
    · exact fun l hl => ⟨l, congrArg some (howner l hl), le_rfl⟩
    · exact fun r' hr' => List.mem_cons_of_mem _ hr'
  | observe i o _ =>
    obtain ⟨-, -, h₁, h₂, h₃, -⟩ := advance_rest (c := c) i o
    exact hquiet h₃ h₂ h₁
  | _ => exact hquiet rfl rfl rfl

/-! ## Observations -/

/-- The highest lifetime an observation can have returned. -/
def reached (c : ClientState) : Nat :=
  max (c.receiptOwner.getD .unknown).rank (if c.proto.isClosing then 2 else 0)

/-- An earlier observation returned `frame`, and a later load finds `state`. -/
def After (frame state : ReceiptFrameState) : Prop :=
  frame = .retained ∨ frame = state ∨ (frame = .closedUnconfirmed ∧ state = .retained)

/-- The frame was loaded from the cell of the receipt. -/
structure Loaded (c : ClientState) (r : ReceiptId) (state : ReceiptFrameState) : Prop where
  valid : state = .retained ∨ state = .acknowledged ∨ state = .retired
  cell : state ≠ .retained → c.cell r = state

/-- A returned observation is still true. -/
structure Result (c : ClientState) (r : ReceiptId) (o : ReceiptObservation) : Prop where
  valid : o.frame ≠ .invalid ∧ o.lifetime ≠ .unknown
  final : o.frame = .acknowledged ∨ o.frame = .retired → c.cell r = o.frame
  closed : o.frame = .closedUnconfirmed → c.cell r = .retained ∧ c.receiptOwner = some .closed
  lifetime : o.lifetime.rank ≤ c.reached
  ended : o.lifetime = .closed → o.frame ≠ .retained

/-- The observations of the same receipt that had returned when the call began. -/
def Before (c : ClientState) (o : Observer) (p : Observed) : Prop :=
  p ∈ c.observed.take o.start ∧ p.receipt = o.receipt

/-- What a call of `ObserveReceipt` has loaded. -/
def Observing (c : ClientState) (o : Observer) : Prop :=
  match o.look with
  | .loadOwner => True
  | .loadFrame => True
  | .loadLifetime state => Loaded c o.receipt state ∧ ∀ p, c.Before o p → After p.result.frame state
  | .reloadFrame => c.receiptOwner = some .closed
  | .loadClosing state lifetime =>
    Loaded c o.receipt state ∧ lifetime ≠ .unknown ∧
    (∃ l, c.receiptOwner = some l ∧ lifetime.rank ≤ l.rank) ∧
    (lifetime = .closed → c.cell o.receipt = state) ∧
    ∀ p, c.Before o p → After p.result.frame state ∧
      (p.result.frame = .closedUnconfirmed → lifetime = .closed) ∧
      p.result.lifetime.rank ≤ max lifetime.rank (if c.proto.isClosing then 2 else 0)

/-- The order of two observations of one receipt. -/
def Precedes (o o' : ReceiptObservation) : Prop :=
  o.lifetime.rank ≤ o'.lifetime.rank ∧ (o.frame = o'.frame ∨ o.frame = .retained)

structure Observes (c : ClientState) : Prop where
  start : ∀ i o, c.observers i = some o → o.start ≤ c.observed.length ∧ o.receipt ∈ c.receipts
  observing : ∀ i o, c.observers i = some o → c.Observing o
  results : ∀ p ∈ c.observed, p.start ≤ c.observed.length ∧ p.receipt ∈ c.receipts ∧
    Result c p.receipt p.result
  order : ∀ (i j : Nat) (p p' : Observed), c.observed[i]? = some p → c.observed[j]? = some p' →
    p.receipt = p'.receipt → i < p'.start → Precedes p.result p'.result

/-! ### What is observed stays true -/

theorem Lifetime.released (h : Lifetime c) (ho : c.receiptOwner = some .closed) :
    c.buffer.buf.Released := h.closed ((h.owner _ ho).2.2 rfl)

/-- A final state of a cell stays. -/
theorem Later.final (h : Later c c') (hl : Lifetime c) (hr : r ∈ c.receipts)
    (hfinal : c.cell r ≠ .retained) : c'.cell r = c.cell r := by
  obtain ⟨-, k, hk⟩ := hl.bound r hr
  exact (h.cell k r hk).resolve_right fun hret => hfinal hret.1

/-- After the release every state stays. -/
theorem Later.frozen (h : Later c c') (hl : Lifetime c) (hr : r ∈ c.receipts)
    (hrel : c.buffer.buf.Released) : c'.cell r = c.cell r := by
  obtain ⟨-, k, hk⟩ := hl.bound r hr
  exact (h.cell k r hk).resolve_right fun hret => hret.2.2 hrel

theorem Later.owner_closed (h : Later c c') (ho : c.receiptOwner = some .closed) :
    c'.receiptOwner = some .closed := by
  obtain ⟨l, hl, hle⟩ := h.owner _ ho
  cases l with
  | closed => exact hl
  | _ => exact absurd hle (by decide)

theorem Later.flag (h : Later c c') : (if c.proto.isClosing then 2 else 0) ≤
    (if c'.proto.isClosing then 2 else 0) := by
  by_cases hc : c.proto.isClosing = true
  · rw [if_pos hc, if_pos (h.closing hc)]
  · rw [if_neg hc]
    exact Nat.zero_le _

theorem Later.reached (h : Later c c') : c.reached ≤ c'.reached := by
  refine max_le_max ?_ h.flag
  cases ho : c.receiptOwner with
  | none => exact Nat.zero_le _
  | some l =>
    obtain ⟨l', hl', hle⟩ := h.owner l ho
    rw [hl']
    exact hle

theorem Loaded.later (h : Loaded c r state) (hlat : Later c c') (hl : Lifetime c)
    (hr : r ∈ c.receipts) : Loaded c' r state := by
  refine ⟨h.valid, fun hne => ?_⟩
  have hcell := h.cell hne
  rw [hlat.final hl hr (by rw [hcell]; exact hne), hcell]

theorem Result.later {o : ReceiptObservation} (h : Result c r o) (hlat : Later c c')
    (hl : Lifetime c) (hr : r ∈ c.receipts) : Result c' r o := by
  refine ⟨h.valid, ?_, ?_, le_trans h.lifetime hlat.reached, h.ended⟩
  · intro hfin
    have hcell := h.final hfin
    rw [hlat.final hl hr, hcell]
    rw [hcell]
    rcases hfin with hf | hf
    · rw [hf]
      exact ReceiptFrameState.noConfusion
    · rw [hf]
      exact ReceiptFrameState.noConfusion
  · intro hf
    obtain ⟨hcell, howner⟩ := h.closed hf
    rw [hlat.frozen hl hr (hl.released howner)]
    exact ⟨hcell, hlat.owner_closed howner⟩

theorem Observing.later {o : Observer} (h : c.Observing o) (hlat : Later c c') (hl : Lifetime c)
    (hr : o.receipt ∈ c.receipts)
    (hbefore : ∀ p, c'.Before o p → c.Before o p) : c'.Observing o := by
  unfold Observing at h ⊢
  split at h
  · trivial
  · trivial
  · exact ⟨h.1.later hlat hl hr, fun p hp => h.2 p (hbefore p hp)⟩
  · exact hlat.owner_closed h
  · rename_i state lifetime _
    obtain ⟨hload, hne, ⟨l, ho, hle⟩, hclosed, hord⟩ := h
    obtain ⟨l', ho', hle'⟩ := hlat.owner l ho
    refine ⟨hload.later hlat hl hr, hne, ⟨l', ho', le_trans hle hle'⟩, ?_, ?_⟩
    · intro hc
      have hreleased : c.buffer.buf.Released := by
        refine hl.released ?_
        rw [hc] at hle
        cases l with
        | closed => exact ho
        | _ => exact absurd hle (by decide)
      rw [hlat.frozen hl hr hreleased]
      exact hclosed hc
    · intro p hp
      obtain ⟨h₁, h₂, h₃⟩ := hord p (hbefore p hp)
      exact ⟨h₁, h₂, le_trans h₃ (max_le_max le_rfl hlat.flag)⟩

/-- Calls in flight and returned results stay true, when the calls and results a step adds
are true. -/
theorem Observes.later (h : Observes c) (hlat : Later c c') (hl : Lifetime c)
    {added : List Observed} (hadded : c'.observed = c.observed ++ added)
    (hnew : ∀ p ∈ added, (p.start ≤ c.observed.length ∧ p.receipt ∈ c.receipts) ∧
      Result c p.receipt p.result ∧ ∀ p' ∈ c.observed.take p.start, p'.receipt = p.receipt →
        Precedes p'.result p.result)
    (hobs : ∀ i o, c'.observers i = some o →
      (o.start ≤ c.observed.length ∧ o.receipt ∈ c.receipts) ∧ c.Observing o) : Observes c' := by
  have hlen : c.observed.length ≤ c'.observed.length := by
    rw [hadded, List.length_append]
    exact Nat.le_add_right _ _
  have htake : ∀ {n}, n ≤ c.observed.length → c'.observed.take n = c.observed.take n := by
    intro n hn
    rw [hadded, List.take_append_of_le_length hn]
  constructor
  · intro i o ho
    obtain ⟨⟨hstart, hr⟩, -⟩ := hobs i o ho
    exact ⟨le_trans hstart hlen, hlat.receipts _ hr⟩
  · intro i o ho
    obtain ⟨⟨hstart, hr⟩, hin⟩ := hobs i o ho
    refine hin.later hlat hl hr fun p hp => ⟨?_, hp.2⟩
    rw [← htake hstart]
    exact hp.1
  · intro p hp
    rw [hadded] at hp
    rcases List.mem_append.1 hp with hold | hp
    · obtain ⟨hstart, hr, hres⟩ := h.results p hold
      exact ⟨le_trans hstart hlen, hlat.receipts _ hr, hres.later hlat hl hr⟩
    · obtain ⟨⟨hstart, hr⟩, hres, -⟩ := hnew p hp
      exact ⟨le_trans hstart hlen, hlat.receipts _ hr, hres.later hlat hl hr⟩
  · intro i j p p' hi hj hsame hlt
    rw [hadded] at hi hj
    -- an earlier result is one of the old ones: its call returned before the later began
    have hold : p'.start ≤ c.observed.length := by
      rcases List.mem_append.1 (List.mem_of_getElem? hj) with hp' | hp'
      · exact (h.results p' hp').1
      · exact (hnew p' hp').1.1
    have hi' : c.observed[i]? = some p := by
      rwa [List.getElem?_append_left (by omega)] at hi
    by_cases hjlt : j < c.observed.length
    · rw [List.getElem?_append_left hjlt] at hj
      exact h.order i j p p' hi' hj hsame hlt
    · rw [List.getElem?_append_right (by omega)] at hj
      refine (hnew p' (List.mem_of_getElem? hj)).2.2 p ?_ hsame
      refine List.mem_of_getElem? (i := i) ?_
      rw [List.getElem?_take_of_lt hlt, hi']

/-! ### A call and its loads -/

/-- The cell of a receipt that was returned is in one of three states. -/
theorem Lifetime.cell_valid (hl : Lifetime c) (hs : Sound c q) (hr : r ∈ c.receipts) :
    c.cell r = .retained ∨ c.cell r = .acknowledged ∨ c.cell r = .retired := by
  obtain ⟨-, k, hk⟩ := hl.bound r hr
  obtain ⟨i, f, -, -, -, hcell⟩ := hs.kept.cell_at hk
  have hcell' : c.cell r = AckBuffer.cell f.fate ∨
      (c.cell r = .retained ∧ f.fate = .confirmed) := hcell
  rcases hcell' with heq | ⟨heq, -⟩
  · rw [heq]
    cases f.fate
    · exact .inl rfl
    · exact .inr (.inl rfl)
    · exact .inr (.inr rfl)
  · exact .inl heq

/-- A load finds what the observations before it returned, or something later. -/
theorem Result.after {o : ReceiptObservation} (h : Result c r o) : After o.frame (c.cell r) := by
  cases hf : o.frame with
  | invalid => exact absurd hf h.valid.1
  | retained => exact .inl rfl
  | acknowledged =>
    have hcell := h.final (.inl hf)
    rw [hf] at hcell
    exact .inr (.inl hcell.symm)
  | closedUnconfirmed => exact .inr (.inr ⟨rfl, (h.closed hf).1⟩)
  | retired =>
    have hcell := h.final (.inr hf)
    rw [hf] at hcell
    exact .inr (.inl hcell.symm)

theorem Observes.before (h : Observes c) {o : Observer} {p : Observed} (hp : c.Before o p) :
    Result c o.receipt p.result := by
  have hres := (h.results p (List.mem_of_mem_take hp.1)).2.2
  rwa [hp.2] at hres

/-- A load of the frame. -/
theorem Observes.loaded (h : Observes c) (hl : Lifetime c) (hs : Sound c q) {o : Observer}
    (hr : o.receipt ∈ c.receipts) : Loaded c o.receipt (c.cell o.receipt) ∧
      ∀ p, c.Before o p → After p.result.frame (c.cell o.receipt) :=
  ⟨⟨hl.cell_valid hs hr, fun _ => rfl⟩, fun _ hp => (h.before hp).after⟩

/-- A load that does not end the call. -/
theorem Observing.next (h : Observes c) (hl : Lifetime c) (hs : Sound c q) {o : Observer}
    (ho : c.Observing o) (hr : o.receipt ∈ c.receipts) {look : Look}
    (hload : c.load o = .inl look) : c.Observing { o with look := look } := by
  obtain ⟨r, start, look'⟩ := o
  obtain ⟨l, howner⟩ := Option.ne_none_iff_exists'.1 (hl.bound r hr).1
  obtain ⟨hloaded, hafter⟩ := h.loaded hl hs hr
  unfold load at hload
  cases look' with
  | loadOwner =>
    simp only [howner, reduceCtorEq, if_false, Sum.inl.injEq] at hload
    subst hload
    trivial
  | loadFrame =>
    simp only at hload
    split_ifs at hload
    obtain rfl := Sum.inl.inj hload
    exact ⟨hloaded, hafter⟩
  -- the second load decides whether the frame has to be read again
  | loadLifetime state =>
    obtain ⟨hstate, hord⟩ := ho
    simp only [howner, Option.getD_some] at hload
    split_ifs at hload with hclosed
    · obtain rfl := Sum.inl.inj hload
      rw [hclosed] at howner
      exact howner
    · obtain rfl := Sum.inl.inj hload
      refine ⟨hstate, (hl.owner l howner).1, ⟨l, howner, le_rfl⟩, fun hc => absurd hc hclosed, ?_⟩
      intro p hp
      have hres := h.before hp
      refine ⟨hord p hp, fun hf => ?_, ?_⟩
      · exact Option.some.inj (howner.symm.trans (hres.closed hf).2)
      · have hle := hres.lifetime
        unfold reached at hle
        rw [howner] at hle
        exact hle
  | reloadFrame =>
    obtain rfl := Sum.inl.inj hload
    -- closed is final, so what is read now stays
    have hclosed : c.receiptOwner = some .closed := ho
    refine ⟨hloaded, ReceiptLifetime.noConfusion, ⟨_, hclosed, le_rfl⟩, fun _ => rfl, ?_⟩
    intro p hp
    refine ⟨hafter p hp, fun _ => rfl, ?_⟩
    have hle := (h.before hp).lifetime
    unfold reached at hle
    rw [hclosed] at hle
    exact hle
  | loadClosing state lifetime => exact absurd hload (by simp)

theorem conclude_rank (closing : Bool) (state : ReceiptFrameState) (lifetime : ReceiptLifetime) :
    (conclude closing state lifetime).lifetime.rank =
      max lifetime.rank (if closing then 2 else 0) := by
  cases closing <;> cases lifetime <;> rfl

/-- Only the lifetime the call loaded can be closed: the flag gives at most `closing`. -/
theorem conclude_frame (closing : Bool) (state : ReceiptFrameState) (lifetime : ReceiptLifetime) :
    (conclude closing state lifetime).frame =
      if lifetime = .closed ∧ state = .retained then .closedUnconfirmed else state := by
  cases closing <;> cases lifetime <;> rfl

theorem conclude_known {closing : Bool} (h : lifetime ≠ .unknown) :
    (conclude closing state lifetime).lifetime ≠ .unknown := by
  cases closing <;> cases lifetime <;> first | exact absurd rfl h | exact ReceiptLifetime.noConfusion

theorem conclude_ended {closing : Bool}
    (h : (conclude closing state lifetime).lifetime = .closed) :
    (conclude closing state lifetime).frame ≠ .retained := by
  have hclosed : lifetime = .closed := by
    cases closing <;> cases lifetime <;> first | rfl | cases h
  rw [conclude_frame]
  split_ifs with hboth
  · exact ReceiptFrameState.noConfusion
  · exact fun hret => hboth ⟨hclosed, hret⟩

/-- The last load ends the call with a true result, which is ordered after the earlier
ones. -/
theorem Observing.result (hl : Lifetime c) (hs : Sound c q) {o : Observer}
    (ho : c.Observing o) (hr : o.receipt ∈ c.receipts) {res : ReceiptObservation}
    (hload : c.load o = .inr res) :
    Result c o.receipt res ∧ ∀ p, c.Before o p → Precedes p.result res := by
  obtain ⟨r, start, look⟩ := o
  obtain ⟨l, howner⟩ := Option.ne_none_iff_exists'.1 (hl.bound r hr).1
  unfold load at hload
  cases look with
  | loadOwner => simp [howner] at hload
  | loadFrame =>
    have hvalid : c.cell r = .retained ∨ c.cell r = .acknowledged ∨ c.cell r = .retired :=
      hl.cell_valid hs hr
    unfold cell at hvalid
    simp only at hload
    split_ifs at hload with hinvalid
    obtain ⟨h₁, h₂, h₃⟩ := hinvalid
    rcases hvalid with hv | hv | hv
    · exact absurd hv h₁
    · exact absurd hv h₂
    · exact absurd hv h₃
  | loadLifetime state =>
    simp only at hload
    split_ifs at hload
  | reloadFrame => exact absurd hload (by simp)
  | loadClosing state lifetime =>
    obtain ⟨hstate, hne, ⟨l', howner', hle⟩, hclosed, hord⟩ := ho
    obtain rfl := Sum.inr.inj hload
    -- the result is `closedUnconfirmed` only after the second load of the frame
    have hframe := conclude_frame c.proto.isClosing state lifetime
    have hrank := conclude_rank c.proto.isClosing state lifetime
    refine ⟨⟨⟨?_, conclude_known hne⟩, ?_, ?_, ?_, conclude_ended⟩, ?_⟩
    · rw [hframe]
      split_ifs with hboth
      · exact ReceiptFrameState.noConfusion
      · rcases hstate.valid with rfl | rfl | rfl <;> exact ReceiptFrameState.noConfusion
    · rw [hframe]
      split_ifs with hboth
      · rintro (hf | hf) <;> cases hf
      · rintro (rfl | rfl)
        · exact hstate.cell ReceiptFrameState.noConfusion
        · exact hstate.cell ReceiptFrameState.noConfusion
    · rw [hframe]
      split_ifs with hboth
      · intro _
        obtain ⟨rfl, rfl⟩ := hboth
        refine ⟨hclosed rfl, ?_⟩
        cases l' with
        | closed => exact howner'
        | _ => exact absurd hle (by decide)
      · rintro rfl
        rcases hstate.valid with hv | hv | hv <;> cases hv
    · rw [hrank]
      unfold reached
      rw [howner']
      exact max_le_max hle le_rfl
    · intro p hp
      obtain ⟨hafter, hunconfirmed, hlife⟩ := hord p hp
      refine ⟨le_of_le_of_eq hlife hrank.symm, ?_⟩
      rw [hframe]
      rcases hafter with hf | hf | ⟨hf, hret⟩
      · exact .inr hf
      · by_cases hret : state = .retained
        · exact .inr (hf.trans hret)
        · rw [if_neg fun hboth => hret hboth.2]
          exact .inl hf
      · rw [if_pos ⟨hunconfirmed hf, hret⟩]
        exact .inl hf

theorem observer_of_update {f : Nat → Option Observer} {i j : Nat} {x : Option Observer}
    {o : Observer} (h : update f i x j = some o) : x = some o ∨ f j = some o := by
  rcases eq_or_ne j i with rfl | hji
  · rw [update_self] at h
    exact .inl h
  · rw [update_of_ne hji] at h
    exact .inr h

theorem Observes.step (h : Observes c) (hl : Lifetime c) (hs : Sound c q)
    (hmove : Moved encodes c a c') (hlat : Later c c') : Observes c' := by
  have hkeep : ∀ i o, c.observers i = some o →
      (o.start ≤ c.observed.length ∧ o.receipt ∈ c.receipts) ∧ c.Observing o :=
    fun i o ho => ⟨h.start i o ho, h.observing i o ho⟩
  -- most steps neither start nor end a call
  have hquiet : c'.observers = c.observers → c'.observed = c.observed → Observes c' := by
    intro h₁ h₂
    refine h.later hlat hl (h₂.trans (List.append_nil _).symm)
      (fun p hp => absurd hp List.not_mem_nil) ?_
    rw [h₁]
    exact hkeep
  cases hmove with
  | step t choice bb p _ _ =>
    refine hquiet ?_ ?_
    · show (c.stores t).observers = _
      unfold stores
      split <;> rfl
    · show (c.stores t).observed = _
      unfold stores
      split <;> rfl
  | callObserve i r _ hr =>
    refine h.later hlat hl (List.append_nil _).symm (fun p hp => absurd hp List.not_mem_nil) ?_
    intro j o ho
    rcases observer_of_update ho with hnew | hold
    · cases hnew
      exact ⟨⟨le_rfl, hr⟩, trivial⟩
    · exact hkeep j o hold
  | observe i o ho =>
    obtain ⟨hstart, hin⟩ := hkeep i o ho
    unfold advance at hlat ⊢
    cases hload : c.load o with
    | inl look =>
      rw [hload] at hlat
      refine h.later hlat hl (List.append_nil _).symm (fun p hp => absurd hp List.not_mem_nil) ?_
      intro j o' ho'
      rcases observer_of_update ho' with hnew | hold
      · cases hnew
        exact ⟨hstart, hin.next h hl hs hstart.2 hload⟩
      · exact hkeep j o' hold
    -- the last load: the answer is added to the record
    | inr res =>
      rw [hload] at hlat
      obtain ⟨hres, hord⟩ := hin.result hl hs hstart.2 hload
      refine h.later hlat hl rfl ?_ ?_
      · intro p hp
        obtain rfl := List.mem_singleton.1 hp
        exact ⟨hstart, hres, fun p' hp' hsame => hord p' ⟨hp', hsame⟩⟩
      · intro j o' ho'
        rcases observer_of_update ho' with hnew | hold
        · cases hnew
        · exact hkeep j o' hold
  | _ => exact hquiet rfl rfl

/-! ## The ACK behind an observation -/

/-- The step applied an ACK to the cell, before any `Close` stored `isClosing`. -/
def Acknowledges (st : ClientStep) (r : ReceiptId) : Prop :=
  (∃ bb seq, st.act.call st.pre = some ⟨bb, .call (.ack seq)⟩) ∧
  st.pre.cell r = .retained ∧ st.post.cell r = .acknowledged ∧ st.post.proto.isClosing = false

structure AckHistory (tr : List ClientStep) (c : ClientState) : Prop where
  applied : ∀ k r, c.buffer.receiptOf k = some r → c.cell r = .acknowledged →
    c.proto.isClosing = false → ∃ st ∈ tr, Acknowledges st r
  live : ∀ p ∈ c.observed, p.result = ⟨.acknowledged, .live⟩ → ∃ st ∈ tr, Acknowledges st p.receipt

/-- A call that returns the lifetime `live` found `isClosing` unset. -/
theorem live_load {o : Observer} {res : ReceiptObservation} (h : c.load o = .inr res)
    (hlive : res.lifetime = .live) : c.proto.isClosing = false := by
  obtain ⟨r, start, look⟩ := o
  unfold load at h
  cases look with
  | loadOwner | loadFrame =>
    simp only at h
    split_ifs at h
    obtain rfl := Sum.inr.inj h
    cases hlive
  | loadLifetime state =>
    simp only at h
    split_ifs at h
  | reloadFrame => exact absurd h (by simp)
  | loadClosing state lifetime =>
    obtain rfl := Sum.inr.inj h
    have hrank := conclude_rank c.proto.isClosing state lifetime
    rw [hlive] at hrank
    cases hc : c.proto.isClosing with
    | false => rfl
    | true =>
      rw [hc] at hrank
      have hone : 1 = max lifetime.rank 2 := hrank
      omega

/-- A frame is admitted with a retained cell. -/
theorem Calls.admitted (h : Calls c q a c' q') (hs : Sound c q) (hs' : Sound c' q') {k : Nat}
    (hr : c'.buffer.receiptOf k = some r) (hnew : c.buffer.receiptOf k ≠ some r) :
    c'.cell r = .retained := by
  cases h with
  | silent _ hbuf =>
    rw [hbuf] at hr
    exact absurd hr hnew
  | called x q' _ hbuf hkept =>
    obtain ⟨i, f, rfl, hf, -, hcell⟩ := hs'.kept.cell_at hr
    obtain ⟨l, hlog⟩ := log_of_move hkept.move
    rw [← hbuf] at hlog
    obtain ⟨adm, hadm, hrec⟩ := Option.bind_eq_some_iff.1 hr
    have hle : i + 1 ≤ c'.buffer.log.length := (List.getElem?_eq_some_iff.1 hadm).1
    have hgt : c.buffer.log.length < i + 1 := by
      by_contra hlt
      rw [hlog, List.getElem?_append_left (by omega)] at hadm
      refine hnew ?_
      show c.buffer.log[i]?.bind Admission.receipt = some r
      rw [hadm]
      exact hrec
    have hmove := hkept.move
    rw [← hbuf] at hmove
    have hlive := (hs'.kept.held.live_iff hf).1
      (hmove.admits hs.kept.held hs'.kept.held hgt hle)
    rw [hlive] at hcell
    rcases hcell with hcell | ⟨hcell, -⟩
    · exact hcell
    · exact hcell

theorem AckHistory.step (h : AckHistory tr c) (hs : Sound c q) (hs' : Sound c' q')
    (hmove : Moved encodes c a c') (hcalls : Calls c q a c' q') (hl : Lifetime c')
    (hobs : Observes c') : AckHistory (tr ++ [⟨c, a, c'⟩]) c' := by
  have hmem : (⟨c, a, c'⟩ : ClientStep) ∈ tr ++ [⟨c, a, c'⟩] :=
    List.mem_append_right _ List.mem_cons_self
  have hmore : ∀ {r}, (∃ st ∈ tr, Acknowledges st r) →
      ∃ st ∈ tr ++ [⟨c, a, c'⟩], Acknowledges st r :=
    fun ⟨st, hst, hack⟩ => ⟨st, List.mem_append_left _ hst, hack⟩
  have happlied : ∀ k r, c'.buffer.receiptOf k = some r → c'.cell r = .acknowledged →
      c'.proto.isClosing = false → ∃ st ∈ tr ++ [⟨c, a, c'⟩], Acknowledges st r := by
    intro k r hr hcell hopen
    have hopen₀ : c.proto.isClosing = false := by
      cases hc : c.proto.isClosing with
      | false => rfl
      | true => rw [hmove.isClosing hc] at hopen; cases hopen
    by_cases hold : c.buffer.receiptOf k = some r
    · by_cases hsame : c.cell r = .acknowledged
      · exact hmore (h.applied k r hold hsame hopen₀)
      · -- the cell changed in this step, so the step called `Ack`
        refine ⟨_, hmem, ?_⟩
        cases hcalls with
        | silent _ hbuf =>
          unfold cell at hcell hsame
          rw [hbuf] at hcell
          exact absurd hcell hsame
        | called x q' hx hbuf hkept =>
          unfold cell at hcell hsame
          rw [hbuf] at hcell
          rcases hkept.cells k r hold with heq | ⟨hret, ⟨⟨seq, hop⟩, -⟩ | ⟨-, hretired⟩⟩
          · exact absurd (heq.symm.trans hcell) hsame
          · refine ⟨⟨x.bb, seq, ?_⟩, hret, ?_, hopen⟩
            · rw [hx, ← hop]
            · show c'.buffer.buf.receiptAt r = _
              rw [hbuf]
              exact hcell
          · rw [hretired] at hcell
            cases hcell
    · rw [hcalls.admitted hs hs' hr hold] at hcell
      cases hcell
  refine ⟨happlied, fun p hp hres => ?_⟩
  -- a result the call returns now was concluded with `isClosing` still unset
  have hnow : p ∈ c.observed ∨ c'.proto.isClosing = false := by
    cases hmove with
    | step t choice bb p' _ _ =>
      refine .inl ?_
      have hsame : (c.stores t).observed = c.observed := by
        unfold stores
        split <;> rfl
      rw [← hsame]
      exact hp
    | observe i o _ =>
      unfold advance at hp ⊢
      cases hload : c.load o with
      | inl look =>
        rw [hload] at hp
        exact .inl hp
      | inr res =>
        rw [hload] at hp
        rcases List.mem_append.1 hp with hold | hlast
        · exact .inl hold
        · obtain rfl := List.mem_singleton.1 hlast
          exact .inr (live_load hload (congrArg ReceiptObservation.lifetime hres))
    | _ => exact .inl hp
  rcases hnow with hold | hopen
  · exact hmore (h.live p hold hres)
  · obtain ⟨-, hr, hresult⟩ := hobs.results p hp
    rw [hres] at hresult
    obtain ⟨-, k, hk⟩ := hl.bound p.receipt hr
    exact happlied k p.receipt hk (hresult.final (.inl rfl)) hopen

/-! ## Every run -/

/-- What holds of a client and of the run that led to it. -/
structure Witnessed (tr : List ClientStep) (c : ClientState) : Prop where
  sound : ∃ q, Sound c q
  lifetime : Lifetime c
  observes : Observes c
  history : AckHistory tr c

theorem Witnessed.step (h : Witnessed tr c) (hmove : Moved encodes c a c') :
    Witnessed (tr ++ [⟨c, a, c'⟩]) c' ∧ Later c c' := by
  obtain ⟨q, hs⟩ := h.sound
  obtain ⟨q', hcalls, hs'⟩ := hs.step hmove
  obtain ⟨hlife, hlater⟩ := h.lifetime.step hs hmove hcalls
  have hobs := h.observes.step h.lifetime hs hmove hlater
  exact ⟨⟨⟨q', hs'⟩, hlife, hobs, h.history.step hs hs' hmove hcalls hlife hobs⟩, hlater⟩

theorem Witnessed.stable (h : Witnessed tr c) (hr : r ∈ c.receipts) (hcell : c.cell r = .retained)
    (howner : c.receiptOwner = some .closed) {tr' : List ClientStep}
    (hrun : Machine.Run (clientMachine encodes) c tr' c') : c'.cell r = .retained := by
  have hinv := hrun.history (fun tr'' x => Witnessed (tr ++ tr'') x ∧ r ∈ x.receipts ∧
    x.cell r = .retained ∧ x.receiptOwner = some .closed)
    ⟨by rwa [List.append_nil], hr, hcell, howner⟩ ?_
  · exact hinv.2.2.1
  · intro tr'' x a hg ⟨hx, hr, hcell, howner⟩
    obtain ⟨hnext, hlater⟩ := hx.step (moved_of_guard hg)
    rw [List.append_assoc] at hnext
    refine ⟨hnext, hlater.receipts r hr, ?_, hlater.owner_closed howner⟩
    rw [hlater.frozen hx.lifetime hr (hx.lifetime.released howner)]
    exact hcell

end ClientState

theorem NewClient.witnessed (h : NewClient c) : Witnessed [] c := by
  have hlog := h.log_eq
  refine ⟨h.sound, ?_, ?_, ?_⟩
  · constructor
    · intro t ht
      rw [h.proto_eq, newClient_class (f := Pc.detached) rfl (fun _ => rfl)] at ht
      cases ht
    all_goals rw [h.fresh]
    · exact fun hc => ReceiptLifetime.noConfusion hc
    · exact fun l hl => absurd hl (Option.some_ne_none l).symm
    · exact fun r hr => absurd hr List.not_mem_nil
  · rw [h.fresh]
    constructor
    · exact fun i o ho => absurd ho (Option.some_ne_none o).symm
    · exact fun i o ho => absurd ho (Option.some_ne_none o).symm
    · exact fun p hp => absurd hp List.not_mem_nil
    · exact fun i j p p' hi => absurd hi (by simp)
  · constructor
    · intro k r hr
      cases k with
      | zero => cases hr
      | succ k =>
        have hr' : c.buffer.log[k]?.bind Admission.receipt = some r := hr
        rw [hlog] at hr'
        exact absurd hr' (by simp)
    · rw [h.fresh]
      exact fun p hp => absurd hp List.not_mem_nil

theorem witnessed_of_run (h₀ : NewClient c₀) (h : Machine.Run (clientMachine encodes) c₀ tr c) :
    Witnessed tr c :=
  h.history Witnessed h₀.witnessed fun _ _ _ hg ih =>
    (ih.step (moved_of_guard hg)).1

/-- What `ObserveReceipt` returns, whatever the other goroutines do between its loads. An
acknowledgement observed with a live client was applied before `isClosing` was stored. An
unconfirmed end is an end: the cell is retained and stays so. Of two calls for one receipt,
the one that began after the other returned is not behind it. -/
theorem observations_sound (h₀ : NewClient c₀)
    (h : Machine.Run (clientMachine encodes) c₀ tr c) :
    (∀ p ∈ c.observed, p.result.frame ≠ .invalid ∧ p.result.lifetime ≠ .unknown) ∧
    (∀ p ∈ c.observed, p.result = ⟨.acknowledged, .live⟩ →
      ∃ st ∈ tr, Acknowledges st p.receipt) ∧
    (∀ p ∈ c.observed, p.result.frame = .closedUnconfirmed → c.cell p.receipt = .retained ∧
      ∀ tr' c', Machine.Run (clientMachine encodes) c tr' c' → c'.cell p.receipt = .retained) ∧
    (∀ (i j : Nat) (p p' : Observed), c.observed[i]? = some p → c.observed[j]? = some p' →
      p.receipt = p'.receipt → i < p'.start → Precedes p.result p'.result) := by
  have hw := witnessed_of_run h₀ h
  refine ⟨?_, hw.history.live, ?_, hw.observes.order⟩
  · exact fun p hp => (hw.observes.results p hp).2.2.valid
  · intro p hp hframe
    obtain ⟨-, hr, hres⟩ := hw.observes.results p hp
    obtain ⟨hcell, howner⟩ := hres.closed hframe
    exact ⟨hcell, fun tr' c' hrun => hw.stable hr hcell howner hrun⟩

/-- Two messages with receipts 0 and 1. The first receipt is observed before and after its
ACK, the client is closed, and the second receipt is observed. -/
def watchTwo : List ClientAct :=
  let bb := newByteBudget 0
  let call (r : ReceiptId) (loads : Nat) : List ClientAct :=
    .callObserve 0 r :: List.replicate loads (.observe 0)
  [.ship bb {} none (some 0) 0, .ship bb {} none (some 1) 0, .admissionReceiptOwner 0,
    .admissionReceiptOwner 1] ++ call 0 4 ++
  [.step 0 .go bb, .step 1 .go bb, .step 2 .go bb, .deliver 1 bb, .encode 1, .write 1 true true,
    .step 0 (.message (.ack 1)) bb] ++ call 0 4 ++
  [.callClose] ++ List.replicate 5 (.step 3 .go bb) ++
  [.step 0 .stop bb, .step 1 .stop bb, .step 2 .stop bb] ++ List.replicate 5 (.step 3 .go bb) ++
  call 1 5

theorem two_watched :
    let c := (clientMachine fun _ => true).exec wideClient watchTwo
    c.observed.map Observed.result = [⟨.retained, .live⟩, ⟨.acknowledged, .live⟩,
      ⟨.closedUnconfirmed, .closed⟩] ∧
    (∃ st ∈ (clientMachine fun _ => true).trace wideClient watchTwo,
      Acknowledges st 0) ∧
    (∀ tr c', Machine.Run (clientMachine fun _ => true) c tr c' → c'.cell 1 = .retained) ∧
    Precedes ⟨.retained, .live⟩ ⟨.acknowledged, .live⟩ := by
  intro c
  have hrun : Machine.Run (clientMachine fun _ => true) wideClient
      ((clientMachine fun _ => true).trace wideClient watchTwo) c :=
    Machine.run_exec _ (by decide +kernel)
  have hobserved : c.observed = [⟨0, 0, ⟨.retained, .live⟩⟩, ⟨0, 1, ⟨.acknowledged, .live⟩⟩,
      ⟨1, 2, ⟨.closedUnconfirmed, .closed⟩⟩] := by decide +kernel
  obtain ⟨-, hlive, hclosed, horder⟩ := observations_sound wideClient_new hrun
  rw [hobserved] at hlive hclosed horder ⊢
  refine ⟨rfl, hlive ⟨0, 1, ⟨.acknowledged, .live⟩⟩ (by decide) rfl,
    (hclosed ⟨1, 2, ⟨.closedUnconfirmed, .closed⟩⟩ (by decide) rfl).2, ?_⟩
  exact horder 0 1 ⟨0, 0, ⟨.retained, .live⟩⟩ ⟨0, 1, ⟨.acknowledged, .live⟩⟩ rfl rfl rfl (by decide)

end UspClient
