import UspClient.Lib.Slice
import UspClient.Client.Reconnect

/-!
# The crew of a connection

What an open client can count on between its goroutines. A worker that has not started yet is
released by the goroutine that launches it. While the client is not closing, a stop request
belongs to an owner of the reconnect that will withdraw it; every worker of the current
connection is there unless an owner has still to launch it; and the connection is installed
unless an owner has still to install one.
-/

namespace UspClient

namespace Pc

/-- The owner has requested the stop and not withdrawn the request. -/
@[simp] def halting : Pc → Bool
  | .lockDisconnect | .join | .updateCapacity | .resetDelivery | .lockConnect | .checkClosing
  | .clearStart | .handshake | .loadClosing .handshake | .swapReconnecting .handshake
  | .recheckClosing | .clearStop | .unlock false | .loopClosing | .sleep => true
  | _ => false

/-- The owner has dropped the connection and not installed the next one. -/
@[simp] def unconnected : Pc → Bool
  | .updateCapacity | .resetDelivery | .lockConnect | .checkClosing | .clearStart | .handshake
  | .loadClosing .handshake | .swapReconnecting .handshake | .recheckClosing | .clearStop
  | .setConn | .unlock false | .loopClosing | .sleep => true
  | _ => false

/-- The owner has started the worker `k` of its connection. -/
@[simp] def launched (k : WorkerKind) : Pc → Bool
  | .launch .sender => decide (k = .listener)
  | .launch .keepAliveSender => decide (k ≠ .keepAliveSender)
  | .handBack => true
  | _ => false

/-- A sender before or in its loop. -/
@[simp] def mayWrite : Pc → Bool
  | .waitStart w | .work w | .loadClosing (.asked w) | .swapReconnecting (.asked w) =>
    decide (w.kind = .sender)
  | _ => false

/-- A `Close` has cancelled `closeCtx`. -/
@[simp] def cancelled : Pc → Bool
  | .closeBuffer => true
  | a => a.sealed

/-- Steps that are left when the client is closing. -/
@[simp] def toClose : Pc → Nat
  | .idle | .done | .closed | .exited _ _ => 0
  -- the reconnect goroutine gives up at its next check
  | .giveBack => 1
  | .loopClosing => 2
  | .unlock _ => 3
  | .checkClosing => 4
  | .lockConnect => 5
  | .sleep | .resetDelivery => 6
  | .updateCapacity => 7
  | .join => 8
  | .lockDisconnect => 9
  | .setStop => 10
  | .recheckClosing => 4
  | .handshake => 5
  | .clearStart => 6
  -- past the last check it starts three workers first
  | .setStart => 4
  | .handBack => 5
  | .launch .keepAliveSender => 9
  | .launch .sender => 13
  | .launch .listener => 17
  | .setConn => 18
  | .clearStop => 19
  | .work _ => 2
  | .waitStart _ => 3
  | .loadClosing .user => 1
  | .loadClosing (.failed _) => 1
  | .loadClosing (.asked _) => 3
  | .loadClosing .handshake => 4
  -- past the check in `Reconnect` it may start an owner
  | .swapReconnecting .user => 11
  | .swapReconnecting (.failed _) => 11
  | .swapReconnecting (.asked _) => 13
  | .swapReconnecting .handshake => 14
  | .closeFinish => 1
  | .closeDetach => 2
  | .closeCollect => 3
  | .closeJoin => 4
  | .closeLock => 5
  | .closeSetStop => 6
  | .closeBuffer => 7
  | .closeCancel => 8
  | .closeAnnounce => 9
  | .closeStore => 10

/-- Steps that are left to an open client until it is connected. -/
@[simp] def toConnect : Pc → Nat
  | .work _ => 1
  | .waitStart _ => 2
  | .unlock true => 1
  | .setStart => 2
  | .handBack => 3
  | .launch .keepAliveSender => 6
  | .launch .sender => 9
  | .launch .listener => 12
  | .setConn => 13
  | .clearStop => 14
  | .recheckClosing => 15
  | .handshake => 16
  | .clearStart => 17
  | .checkClosing => 18
  | .lockConnect => 19
  | .sleep => 20
  | .loopClosing => 21
  | .unlock false => 22
  | .resetDelivery => 20
  | .updateCapacity => 21
  | .join => 22
  | .lockDisconnect => 23
  | .setStop => 24
  | .swapReconnecting .user => 25
  | .swapReconnecting (.failed _) => 25
  | .swapReconnecting (.asked _) => 26
  | .swapReconnecting .handshake => 47
  | .loadClosing .user => 26
  | .loadClosing (.failed _) => 26
  | .loadClosing (.asked _) => 27
  | .loadClosing .handshake => 48
  | .giveBack => 1
  | _ => 0

variable {a : Pc}

theorem owns_of_halting (h : a.halting = true) : a.owns = true ∧ ∀ k, a.launched k = false := by
  revert h
  unfold halting
  split <;> simp

theorem owns_of_unconnected (h : a.unconnected = true) : a.owns = true := by
  revert h
  unfold unconnected
  split <;> simp

theorem launched_of_not_replaced (h : a.replaced = false) (k : WorkerKind) :
    a.launched k = false := by
  revert h
  unfold launched
  split <;> simp

theorem worker_of_mayWrite (h : a.mayWrite = true) : ∃ n, a.worker = some ⟨n, .sender⟩ := by
  unfold mayWrite at h
  split at h
  case h_5 => cases h
  all_goals
    rename_i w
    rcases w with ⟨n, kind⟩
    cases of_decide_eq_true h
    exact ⟨n, rfl⟩

theorem worker_of_owns (h : a.owns = true) : a.worker = none := by
  revert h
  unfold owns
  split <;> simp

end Pc

namespace Protocol

variable {p p₁ p' : Protocol} {t u : Nat} {a b : Pc}

theorem Inv.not_closing (h : Inv p) (hopen : p.isClosing = false) (t : Nat) :
    (p.pc t).closing = false := by
  refine Bool.eq_false_of_not_eq_true fun hc => ?_
  rw [h.closing t hc] at hopen
  cases hopen

structure Crew (p : Protocol) : Prop where
  armed : ∀ u w, (p.pc u).worker = some w → p.isStart = true ∨ ∃ t, (p.pc t).launching = true
  stops : p.isClosing = false → Stopped p
  withdrawn : p.isClosing = false → p.isStop = true → ∃ t, (p.pc t).halting = true
  staff : p.isClosing = false → ∀ k, (∃ t, (p.pc t).worker = some ⟨p.latest, k⟩) ∨
    ∃ u, (p.pc u).owns = true ∧ (p.pc u).launched k = false
  attached : p.isClosing = false → p.conn = some p.latest ∨ ∃ u, (p.pc u).unconnected = true

/-- What a step of a goroutine from `a` to `b` does to the crew, and how many steps it leaves to
the goroutine and to the one it starts, `d`. -/
structure Shift (p p₁ : Protocol) (c : Choice) (a b : Pc) (d : Option Pc) : Prop where
  isClosing : p₁.isClosing = p.isClosing ∨ (a = .closeStore ∧ p₁.isClosing = true)
  start : p₁.isStart = p.isStart ∨ p₁.isStart = true ∨ a.cleared = true
  launching : a.launching = true → b.launching = true ∨ p₁.isStart = true
  crew : ∀ w, b.worker = some w → a.worker = some w
  isStop : p₁.isStop = p.isStop ∨ p₁.isStop = false ∨ b.halting = true ∨ a.closing = true
  halting : a.halting = true → b.halting = true ∨ p₁.isStop = false ∨ b.closing = true
  owner : ∀ k, a.owns = true → a.launched k = false →
    (b.owns = true ∧ b.launched k = false) ∨ a = .launch k ∨ a.closing = true ∨ b.closing = true
  worker : ∀ w, a.worker = some w → b.worker = some w ∨ p₁.isClosing = true ∨
    p.isStop = true ∨ p.closeDone = true ∨ (a.running = true ∧ p₁.isReconnecting = true)
  latest : p₁.latest = p.latest ∨ (b.owns = true ∧ ∀ k, b.launched k = false)
  conn : (p₁.conn = p.conn ∧ p₁.latest = p.latest) ∨ p₁.conn = some p₁.latest ∨
    b.unconnected = true ∨ b.closing = true
  unconnected : a.unconnected = true → b.unconnected = true ∨ p₁.conn = some p₁.latest ∨
    b.closing = true
  writes : b.mayWrite = true → a.mayWrite = true
  /-- In a closing client, unless a listener gets a message. -/
  toClose : p.isClosing = true → (∀ m, c = .message m → a.worker = none) →
    b.toClose + d.elim 0 Pc.toClose < a.toClose
  /-- In an open client, if nothing fails and no `Close` begins. -/
  toConnect : p.isClosing = false → p.closeDone = false → a.closing = false →
    (a = .handshake → c = .message .ready) → (∀ w, a = .work w → c = .stop) → a ≠ .closeStore →
    b.toConnect + d.elim 0 Pc.toConnect < a.toConnect
  cancelled : b.cancelled = true → a.cancelled = true ∨ p₁.closeDone = true
  closeDone : p.closeDone = true → p₁.closeDone = true
  clearStop : b = .clearStop → p₁.isClosing = false

theorem Shift.open {c : Choice} {d : Option Pc} (h : Shift p p' c a b d)
    (ho : p'.isClosing = false) : p.isClosing = false := by
  rcases h.isClosing with heq | ⟨_, hcl⟩
  · rw [← heq]
    exact ho
  · rw [hcl] at ho
    cases ho

/-- The goroutine that a step from `a` to `b` starts, if any. -/
inductive Spawns (p p₁ : Protocol) (a b : Pc) : Option Pc → Prop where
  | nobody (ha : ∀ k, a ≠ .launch k)
      (hrec : a.running = true → p₁.isReconnecting = p.isReconnecting) : Spawns p p₁ a b none
  | owner (ha : ∀ k, a ≠ .launch k) : Spawns p p₁ a b (some .setStop)
  | worker (k : WorkerKind) (ha : a = .launch k) (hb : b.launching = true)
      (hl : p₁.latest = p.latest) : Spawns p p₁ a b (some (.waitStart ⟨p.latest, k⟩))

/-- The measure of all goroutines. -/
def total (r : Pc → Nat) (p : Protocol) : Nat := ∑ t ∈ Finset.range p.spawned, r (p.pc t)

theorem total_goto (hpc : p₁.pc = p.pc) (hspawned : p₁.spawned = p.spawned) (ht : t < p.spawned) :
    total r (p₁.goto t b) + r (p.pc t) = total r p + r b := by
  have hfun : (fun u => r ((p₁.goto t b).pc u)) = Function.update (fun u => r (p.pc u)) t (r b) := by
    funext u
    rw [← hpc]
    exact Function.apply_update (fun _ => r) p₁.pc t b u
  have hnew : (p₁.goto t b).spawned = p.spawned := hspawned
  unfold total
  rw [hnew, hfun]
  exact Slice.sum_update_add ht _ _

theorem total_spawn (q : Protocol) (d : Pc) : total r (q.spawn d) = total r q + r d := by
  have hrest : ∑ u ∈ Finset.range q.spawned, r ((q.spawn d).pc u) = total r q := by
    refine Finset.sum_congr rfl fun u hu => ?_
    rw [spawn_pc, if_neg (Finset.mem_range.1 hu).ne]
  have hlast : (q.spawn d).pc q.spawned = d := by rw [spawn_pc, if_pos rfl]
  show ∑ u ∈ Finset.range (q.spawned + 1), r ((q.spawn d).pc u) = _
  rw [Finset.sum_range_succ, hrest, hlast]

/-- Goroutine `t` is at `b` now, `d` is new, and nobody else has moved. -/
structure Moved (p p' : Protocol) (t : Nat) (b : Pc) (d : Option Pc) : Prop where
  self : p'.pc t = b
  keeps : ∀ u, u ≠ t → p.pc u ≠ .idle → p'.pc u = p.pc u
  others : ∀ u, u ≠ t → p'.pc u = p.pc u ∨ d = some (p'.pc u)
  started : ∀ x, d = some x → ∃ u, p'.pc u = x
  total : ∀ r : Pc → Nat, total r p' + r (p.pc t) = total r p + r b + d.elim 0 r

/-- What a step of goroutine `t` does. -/
def Goes (p : Protocol) (t : Nat) (c : Choice) (p' : Protocol) : Prop :=
  ∃ b d, Shift p p' c (p.pc t) b d ∧ Spawns p p' (p.pc t) b d ∧ Moved p p' t b d

theorem goes_goto (hinv : Inv p) {c : Choice} (ha : p.pc t = a)
    (hs : some (p₁.goto t b) = some p') (hpc : p₁.pc = p.pc) (hspawned : p₁.spawned = p.spawned)
    (hidle : a ≠ .idle) (hl : ∀ k, a ≠ .launch k)
    (hrec : a.running = true → p₁.isReconnecting = p.isReconnecting)
    (h : Shift p p₁ c a b none) : Goes p t c p' := by
  cases hs
  subst ha
  refine ⟨b, none, { h with }, .nobody hl hrec, by simp, fun u hu _ => by simp [hu, hpc],
    fun u hu => .inl (by simp [hu, hpc]), ?_, fun r => ?_⟩
  · rintro x ⟨⟩
  · exact total_goto hpc hspawned (hinv.lt_spawned hidle)

theorem goes_spawn (hinv : Inv p) {c : Choice} {d : Pc} (ha : p.pc t = a)
    (hs : some ((p₁.goto t b).spawn d) = some p') (hpc : p₁.pc = p.pc)
    (hspawned : p₁.spawned = p.spawned) (hbusy : a ≠ .idle) (h : Shift p p₁ c a b (some d))
    (hd : Spawns p p₁ a b (some d)) : Goes p t c p' := by
  cases hs
  subst ha
  have hidle := hinv.idle_spawned
  have hnew : (p₁.goto t b).spawned = p.spawned := hspawned
  have hne : t ≠ p.spawned := fun heq => hbusy (heq ▸ hidle)
  have hd' : Spawns p ((p₁.goto t b).spawn d) (p.pc t) b (some d) := by
    cases hd with
    | owner hl => exact .owner hl
    | worker k hk hb hl => exact .worker k hk hb hl
  refine ⟨b, some d, { h with }, hd', by simp [hnew, hne], ?_, ?_, ?_, fun r => ?_⟩
  · intro u hu hu'
    have hus : u ≠ p.spawned := fun heq => hu' (heq ▸ hidle)
    simp [hnew, hus, hu, hpc]
  · intro u hu
    by_cases hus : u = p.spawned
    · exact .inr (by simp [hnew, hus])
    · exact .inl (by simp [hnew, hus, hu, hpc])
  · rintro x ⟨⟩
    exact ⟨p.spawned, by simp [hnew]⟩
  · have hgoto := total_goto (r := r) (b := b) hpc hspawned (hinv.lt_spawned hbusy)
    rw [total_spawn]
    show _ = total r p + r b + r d
    omega

theorem step_goes {c : Choice} (hinv : Inv p) (hs : p.step t c = some p') : Goes p t c p' := by
  unfold Protocol.step at hs
  split at hs
  case h_1 k hpc =>
    -- `Reconnect` loads `isClosing`
    refine goes_goto hinv hpc hs rfl rfl (by simp) (by simp) (fun _ => rfl) ?_
    cases k <;> split_ifs with hcl <;> constructor <;> simp [Caller.back, hcl]
  case h_2 k hpc =>
    split_ifs at hs with hrec
    · refine goes_goto hinv hpc hs rfl rfl (by simp) (by simp) (fun _ => rfl) ?_
      cases k <;> constructor <;> simp [Caller.back, hrec]
    · -- the flag was clear: the owner is started
      refine goes_spawn hinv hpc hs rfl rfl (by simp) ?_ (.owner (by simp))
      cases k <;> constructor <;> simp [Caller.back]
  case h_16 k hpc =>
    -- a worker is started
    refine goes_spawn hinv hpc hs rfl rfl (by simp) ?_ (.worker k rfl (by cases k <;> rfl) rfl)
    cases k <;> constructor <;> simp [afterLaunch]
    all_goals intro j; cases j <;> decide
  -- the locks
  case h_4 hpc | h_8 hpc | h_29 hpc =>
    unfold lock at hs
    split_ifs at hs
    refine goes_goto hinv hpc hs rfl rfl (by simp) (by simp) (fun _ => rfl) ?_
    constructor <;> simp
  -- the joins
  case h_5 hpc | h_30 hpc =>
    unfold finishDisconnect at hs
    split_ifs at hs
    refine goes_goto hinv hpc hs rfl rfl (by simp) (by simp) (fun _ => rfl) ?_
    constructor <;> simp
  -- the loads of `isClosing`
  case h_9 hpc | h_13 hpc | h_20 hpc =>
    refine goes_goto hinv hpc hs rfl rfl (by simp) (by simp) (fun _ => rfl) ?_
    split_ifs with hcl <;> constructor <;> simp [hcl]
  case h_12 m hpc =>
    refine goes_goto hinv hpc hs rfl rfl (by simp) (by simp) (fun _ => rfl) ?_
    cases m <;> constructor <;> simp [afterHandshake]
  case h_19 connected hpc =>
    refine goes_goto hinv hpc hs rfl rfl (by simp) (by simp) (fun _ => rfl) ?_
    cases connected <;> constructor <;> simp
  -- the waits
  case h_22 hpc | h_34 hpc =>
    split_ifs at hs with hwait
    refine goes_goto hinv hpc hs rfl rfl (by simp) (by simp) (fun _ => rfl) ?_
    constructor <;> simp [hwait]
  case h_36 w hpc =>
    split_ifs at hs with hstop
    refine goes_goto hinv hpc hs rfl rfl (by simp) (by simp) (fun _ => rfl) ?_
    simp only [Bool.or_eq_true, Bool.and_eq_true] at hstop
    constructor <;> simp
    tauto
  case h_37 m hpc =>
    split_ifs at hs
    refine goes_goto hinv hpc hs rfl rfl (by simp) (by simp) (fun _ => rfl) ?_
    cases m <;> constructor <;> simp [afterMessage]
  case h_38 => cases hs
  all_goals
    rename_i hpc
    refine goes_goto hinv hpc hs rfl rfl (by simp) (by simp) (by simp) ?_
    constructor <;> simp

/-- Nobody goes back to writing. -/
theorem mayWrite_of_step {c : Choice} (hinv : Inv p) (hs : p.step t c = some p')
    (hbusy : p.pc u ≠ .idle) (hu : (p'.pc u).mayWrite = true) : (p.pc u).mayWrite = true := by
  rcases step_goes hinv hs with ⟨b, d, hshift, _, hmoved⟩
  by_cases hut : u = t
  · subst hut
    rw [hmoved.self] at hu
    exact hshift.writes hu
  · rw [hmoved.keeps u hut hbusy] at hu
    exact hu

/-! ## The crew stays complete -/

section Keep

variable {d : Option Pc}

/-- A class of program counters that the moving goroutine does not leave has a member left. -/
theorem Moved.exists {P : Pc → Prop} {X : Prop} (hm : Moved p p' t b d) (hidle : ¬P .idle)
    (h : ∃ u, P (p.pc u)) (ht : P (p.pc t) → P b ∨ X) : (∃ u, P (p'.pc u)) ∨ X := by
  rcases h with ⟨u, hu⟩
  by_cases hut : u = t
  · subst hut
    exact (ht hu).imp_left fun hb => ⟨u, by rw [hm.self]; exact hb⟩
  · have hbusy : p.pc u ≠ .idle := fun heq => hidle (heq ▸ hu)
    exact .inl ⟨u, by rw [hm.keeps u hut hbusy]; exact hu⟩

/-- What holds of the moved goroutine, of a new one and of all others holds of everybody. -/
theorem Moved.forall {P : Pc → Prop} (hm : Moved p p' t b d) (hb : P b)
    (hd : ∀ x, d = some x → P x) (h : ∀ u, u ≠ t → P (p.pc u)) (u : Nat) : P (p'.pc u) := by
  by_cases hut : u = t
  · rw [hut, hm.self]
    exact hb
  · rcases hm.others u hut with heq | hnew
    · rw [heq]
      exact h u hut
    · exact hd _ hnew

theorem Crew.armed_moved (h : Crew p) (hinv : Inv p) (hs : Shift p p' c (p.pc t) b d)
    (hd : Spawns p p' (p.pc t) b d) (hm : Moved p p' t b d) {u : Nat} {w : Worker}
    (hw : (p'.pc u).worker = some w) : p'.isStart = true ∨ ∃ t, (p'.pc t).launching = true := by
  -- a worker that was there before
  have hold : ∀ v, (p.pc v).worker = some w →
      p'.isStart = true ∨ ∃ t, (p'.pc t).launching = true := by
    intro v hv
    rcases h.armed v w hv with hstart | hlaunch
    · rcases hs.start with heq | hset | hcleared
      · exact .inl (heq.trans hstart)
      · exact .inl hset
      · rw [hinv.cleared t v hcleared] at hv
        cases hv
    · exact (hm.exists (P := fun a => a.launching = true) (by simp) hlaunch hs.launching).symm
  by_cases hut : u = t
  · subst hut
    rw [hm.self] at hw
    exact hold u (hs.crew w hw)
  · rcases hm.others u hut with heq | hnew
    · exact hold u (heq ▸ hw)
    · -- a worker that is started now: its launcher goes on
      cases hd with
      | nobody => cases hnew
      | owner =>
        rw [← Option.some.inj hnew] at hw
        cases hw
      | worker k ha hb hl => exact .inr ⟨t, by rw [hm.self]; exact hb⟩

theorem Crew.staff_moved (h : Crew p) (hinv : Inv p) (hs : Shift p p' c (p.pc t) b d)
    (hd : Spawns p p' (p.pc t) b d) (hm : Moved p p' t b d) (hopen : p.isClosing = false)
    (hopen' : p'.isClosing = false) (hab : (p.pc t).closing = false ∧ b.closing = false)
    (k : WorkerKind) : (∃ t, (p'.pc t).worker = some ⟨p'.latest, k⟩) ∨
      ∃ u, (p'.pc u).owns = true ∧ (p'.pc u).launched k = false := by
  -- an owner that is not the moving goroutine is still there
  have hother : (p.pc t).worker ≠ none → (∃ u, (p.pc u).owns = true ∧ (p.pc u).launched k = false) →
      ∃ u, (p'.pc u).owns = true ∧ (p'.pc u).launched k = false := by
    rintro hwork ⟨u, hu, hl⟩
    have hut : u ≠ t := fun heq => hwork (Pc.worker_of_owns (heq ▸ hu))
    have hbusy : p.pc u ≠ .idle := fun heq => by rw [heq] at hu; cases hu
    exact ⟨u, by rw [hm.keeps u hut hbusy]; exact ⟨hu, hl⟩⟩
  rcases hs.latest with hlatest | ⟨hown, hnone⟩
  swap
  · exact .inr ⟨t, by rw [hm.self]; exact ⟨hown, hnone k⟩⟩
  rw [hlatest]
  rcases h.staff hopen k with ⟨v, hv⟩ | howner
  · by_cases hvt : v = t
    · subst hvt
      have hwork : (p.pc v).worker ≠ none := by rw [hv]; exact Option.some_ne_none _
      rcases hs.worker _ hv with hstay | hcl | hstop | hdone | ⟨hrun, hrec⟩
      · exact .inl ⟨v, by rw [hm.self]; exact hstay⟩
      · rw [hopen'] at hcl
        cases hcl
      · -- the worker obeys a stop request: an owner made it
        rcases h.withdrawn hopen hstop with ⟨u, hu⟩
        have howns := Pc.owns_of_halting hu
        exact .inr (hother hwork ⟨u, howns.1, howns.2 k⟩)
      · rw [hinv.cancelled hdone] at hopen
        cases hopen
      · -- the worker fails: somebody owns the reconnect
        cases hd with
        | nobody ha hsame =>
          rcases hinv.owner_of_running hrun ((hsame hrun).symm.trans hrec) with ⟨u, hu, hrep⟩
          exact .inr (hother hwork ⟨u, hu, Pc.launched_of_not_replaced hrep k⟩)
        | owner ha =>
          rcases hm.started _ rfl with ⟨u, hu⟩
          exact .inr ⟨u, by rw [hu]; exact ⟨rfl, rfl⟩⟩
        | worker j ha =>
          rw [ha] at hrun
          cases hrun
    · have hbusy : p.pc v ≠ .idle := fun heq => by rw [heq] at hv; cases hv
      exact .inl ⟨v, by rw [hm.keeps v hvt hbusy]; exact hv⟩
  · have hidle : ¬((Pc.idle).owns = true ∧ (Pc.idle).launched k = false) := fun hh => nomatch hh.1
    have hkeep := hm.exists (P := fun a => a.owns = true ∧ a.launched k = false)
      (X := p.pc t = .launch k) hidle howner fun ⟨hown, hl⟩ => by
        rcases hs.owner k hown hl with hb | hlaunch | hcl | hcl
        · exact .inl hb
        · exact .inr hlaunch
        · rw [hab.1] at hcl; cases hcl
        · rw [hab.2] at hcl; cases hcl
    rcases hkeep with hb | hlaunch
    · exact .inr hb
    · -- the owner starts the worker in this step
      cases hd with
      | nobody ha | owner ha => exact absurd hlaunch (ha k)
      | worker j ha hb hl =>
        rw [hlaunch] at ha
        cases ha
        rcases hm.started _ rfl with ⟨u, hu⟩
        exact .inl ⟨u, by rw [hu]; rfl⟩

theorem Crew.moved (h : Crew p) (hinv : Inv p) (hinv' : Inv p') (hs : Shift p p' c (p.pc t) b d)
    (hd : Spawns p p' (p.pc t) b d) (hm : Moved p p' t b d)
    (hstops : p'.isClosing = false → Stopped p') : Crew p' := by
  have hopen : p'.isClosing = false → p.isClosing = false := hs.open
  have hab : p'.isClosing = false → (p.pc t).closing = false ∧ b.closing = false := by
    intro ho
    exact ⟨hinv.not_closing (hopen ho) t, hm.self ▸ hinv'.not_closing ho t⟩
  refine ⟨fun u w hw => h.armed_moved hinv hs hd hm hw, hstops, ?_, ?_, ?_⟩
  · intro ho hstop
    rcases hs.isStop with hsame | hclear | hhalt | hcl
    · have hkeep := hm.exists (P := fun a => a.halting = true) (X := False) (fun hh => nomatch hh)
        (h.withdrawn (hopen ho) (hsame.symm.trans hstop)) fun ha => by
          rcases hs.halting ha with hb | hclear | hcl
          · exact .inl hb
          · rw [hclear] at hstop; cases hstop
          · rw [(hab ho).2] at hcl; cases hcl
      exact hkeep.resolve_right id
    · rw [hclear] at hstop; cases hstop
    · exact ⟨t, by rw [hm.self]; exact hhalt⟩
    · rw [(hab ho).1] at hcl; cases hcl
  · intro ho k
    exact h.staff_moved hinv hs hd hm (hopen ho) ho (hab ho) k
  · intro ho
    have hkeep : (∃ u, (p.pc u).unconnected = true) →
        p'.conn = some p'.latest ∨ ∃ u, (p'.pc u).unconnected = true := fun hun => by
      have hex := hm.exists (P := fun a => a.unconnected = true)
        (X := p'.conn = some p'.latest) (fun hh => nomatch hh) hun fun ha => by
          rcases hs.unconnected ha with hb | hconn | hcl
          · exact .inl hb
          · exact .inr hconn
          · rw [(hab ho).2] at hcl; cases hcl
      exact hex.symm
    rcases hs.conn with ⟨hconn, hlatest⟩ | hconn | hb | hcl
    · rcases h.attached (hopen ho) with hatt | hun
      · exact .inl (by rw [hconn, hlatest, hatt])
      · exact hkeep hun
    · exact .inl hconn
    · exact .inr ⟨t, by rw [hm.self]; exact hb⟩
    · rw [(hab ho).2] at hcl; cases hcl

end Keep

/-- A call of `Close` or `Reconnect` begins. -/
theorem Crew.spawn (h : Crew p) (hinv : Inv p) (hb : b.worker = none) (hst : b.stopping = false) :
    Crew (p.spawn b) := by
  have hidle := hinv.idle_spawned
  have hkeep : ∀ u, p.pc u ≠ .idle → (p.spawn b).pc u = p.pc u := by
    intro u hu
    have hne : u ≠ p.spawned := fun heq => hu (heq ▸ hidle)
    rw [spawn_pc, if_neg hne]
  have hex : ∀ P : Pc → Prop, ¬P .idle → (∃ u, P (p.pc u)) → ∃ u, P ((p.spawn b).pc u) := by
    rintro P hno ⟨u, hu⟩
    exact ⟨u, by rw [hkeep u fun heq => hno (heq ▸ hu)]; exact hu⟩
  refine ⟨?_, fun ho => (h.stops ho).spawn hst, ?_, ?_, ?_⟩
  · intro u w hw
    rw [spawn_pc] at hw
    split_ifs at hw with hus
    · rw [hb] at hw; cases hw
    · exact (h.armed u w hw).imp_right (hex (fun a => a.launching = true) fun hh => nomatch hh)
  · exact fun ho hstop => hex (fun a => a.halting = true) (fun hh => nomatch hh) (h.withdrawn ho hstop)
  · intro ho k
    rcases h.staff ho k with hw | hown
    · exact .inl (hex (fun a => a.worker = some ⟨p.latest, k⟩) (fun hh => nomatch hh) hw)
    · exact .inr (hex (fun a => a.owns = true ∧ a.launched k = false) (fun hh => nomatch hh.1) hown)
  · exact fun ho => (h.attached ho).imp_right
      (hex (fun a => a.unconnected = true) fun hh => nomatch hh)

theorem Crew.act (h : Crew p) (hinv : Inv p) {a : ProtocolAct} (ha : p.act a = some p') :
    Crew p' := by
  cases a with
  | callClose | callReconnect => cases ha; exact h.spawn hinv rfl rfl
  | step t c =>
    rcases step_goes hinv ha with ⟨b, d, hs, hd, hm⟩
    refine h.moved hinv (hinv.act (a := .step t c) ha) hs hd hm fun ho => ?_
    have hopen := hs.open ho
    refine (h.stops hopen).act hinv (a := .step t c) ha ?_
    rintro ⟨_, hc⟩
    rw [hopen] at hc
    cases hc

theorem crew_newClient : Crew newClient := by
  have hworkers : ∀ k, ∃ t, (newClient.pc t).worker = some ⟨newClient.latest, k⟩ := by
    intro k
    cases k with
    | listener => exact ⟨0, by decide⟩
    | sender => exact ⟨1, by decide⟩
    | keepAliveSender => exact ⟨2, by decide⟩
  refine ⟨fun _ _ _ => .inl rfl, ?_, ?_, fun _ k => .inl (hworkers k), fun _ => .inl rfl⟩
  · have hidle : Stopped { isStart := true, conn := some 1, latest := 1 } :=
      fun _ h => absurd h Bool.false_ne_true
    exact fun _ => ((hidle.spawn rfl).spawn rfl).spawn rfl
  · intro _ hstop
    cases hstop

theorem crew_of_run {tr : List ProtocolStep} (hrun : protocolMachine.Run newClient tr p) :
    Inv p ∧ Crew p := by
  refine hrun.invariant (fun p => Inv p ∧ Crew p) ⟨inv_newClient, crew_newClient⟩ ?_
  rintro q a hg ⟨hinv, hcrew⟩
  have hact := next_of_guard hg
  exact ⟨hinv.act hact, hcrew.act hinv hact⟩

end Protocol

end UspClient
