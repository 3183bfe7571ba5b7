import UspClient.Client.Protocol

/-!
# Who reconnects

`isReconnecting` is a lock without a queue: the goroutine that swaps it from 0 to 1 owns the
reconnect until it stores 0, which it does before the new workers may run. The invariant
`Inv` says for every interleaving what the owner, the holder of `connMutex`, the workers and
a closing client can be doing at the same time. It is stated over classes of program
counters, so that a step is described by the classes it enters and leaves (`Change`).

* `reconnect_ownership`: one owner at a time, workers of one connection at a time, a failed
  connection is being replaced, and a closed client stays closed.
* `stop_survives`: a stop request is not cleared before the workers are joined, as long as
  no `Close` begins between the last check of `isClosing` and the clearing of `isStop`.
  `stop_cleared` is the run in which one does.
-/

namespace UspClient

open Function Protocol

/-! ## Classes of program counters -/

namespace Pc

/-- The goroutine owns `isReconnecting`. -/
@[simp] def owns : Pc → Bool
  | .setStop | .lockDisconnect | .join | .updateCapacity | .resetDelivery | .lockConnect
  | .checkClosing | .clearStart | .handshake | .loadClosing .handshake
  | .swapReconnecting .handshake | .recheckClosing | .clearStop | .setConn | .launch _ | .handBack
  | .unlock false | .loopClosing | .sleep | .giveBack => true
  | _ => false

/-- The owner has installed the new connection. -/
@[simp] def replaced : Pc → Bool
  | .launch _ | .handBack => true
  | _ => false

/-- The goroutine holds `connMutex`. -/
@[simp] def holds : Pc → Bool
  | .join | .checkClosing | .clearStart | .handshake | .loadClosing .handshake
  | .swapReconnecting .handshake | .recheckClosing | .clearStop | .setConn | .launch _ | .handBack
  | .setStart | .unlock _ | .closeJoin => true
  | _ => false

/-- The goroutine cleared `isStart` and will set it. -/
@[simp] def starting : Pc → Bool
  | .handshake | .loadClosing .handshake | .swapReconnecting .handshake | .recheckClosing
  | .clearStop | .setConn | .launch _ | .handBack | .setStart => true
  | _ => false

/-- The owner joined the workers and has started none. -/
@[simp] def cleared : Pc → Bool
  | .updateCapacity | .resetDelivery | .lockConnect | .checkClosing | .clearStart | .handshake
  | .loadClosing .handshake | .swapReconnecting .handshake | .recheckClosing | .clearStop
  | .setConn | .launch .listener | .unlock false | .loopClosing | .sleep | .giveBack => true
  | _ => false

/-- The goroutine has started workers that may not run yet. -/
@[simp] def launching : Pc → Bool
  | .launch .sender | .launch .keepAliveSender | .handBack | .setStart => true
  | _ => false

/-- The goroutine connects and found the client not closing. -/
@[simp] def connecting : Pc → Bool
  | .clearStart | .handshake | .loadClosing .handshake | .swapReconnecting .handshake
  | .recheckClosing | .clearStop | .setConn | .launch _ | .handBack | .setStart => true
  | _ => false

/-- A `Close` has set `isClosing`, or an owner gives up because of it. -/
@[simp] def closing : Pc → Bool
  | .closeAnnounce | .closeCancel | .closeBuffer | .closeSetStop | .closeLock | .closeJoin
  | .closeCollect | .closeDetach | .closeFinish | .closed | .giveBack => true
  | _ => false

/-- A `Close` has joined the workers. -/
@[simp] def collected : Pc → Bool
  | .closeCollect | .closeDetach | .closeFinish | .closed => true
  | _ => false

/-- The worker is past `isStart.Wait`. -/
@[simp] def running : Pc → Bool
  | .waitStart _ => false
  | a => a.worker.isSome

/-- A `disconnect` has set `isStop` and not yet joined the workers. -/
@[simp] def stopping : Pc → Bool
  | .lockDisconnect | .join | .closeLock | .closeJoin => true
  | _ => false

/-- The worker a goroutine is or was. -/
@[simp] def role : Pc → Option Worker
  | .exited w _ => some w
  | a => a.worker

/-- The owner has rewound the delivery for the next connection. -/
@[simp] def rewound : Pc → Bool
  | .lockConnect | .checkClosing | .clearStart | .handshake | .loadClosing .handshake
  | .swapReconnecting .handshake | .recheckClosing | .clearStop | .setConn | .unlock false
  | .loopClosing | .sleep => true
  | _ => false

/-- A `Close` has closed the buffer. -/
@[simp] def sealed : Pc → Bool
  | .closeSetStop | .closeLock | .closeJoin | .closeCollect | .closeDetach | .closeFinish
  | .closed => true
  | _ => false

/-- A `Close` has collected the messages it returns. -/
@[simp] def taken : Pc → Bool
  | .closeDetach | .closeFinish | .closed => true
  | _ => false

/-- A `Close` has detached the receipts. -/
@[simp] def detached : Pc → Bool
  | .closeFinish | .closed => true
  | _ => false

variable {a : Pc}

theorem owns_of_cleared (h : a.cleared = true) : a.owns = true := by
  revert h
  unfold cleared
  split <;> simp [owns]

theorem holds_of_starting (h : a.starting = true) : a.holds = true := by
  revert h
  unfold starting
  split <;> simp [holds]

theorem starting_of_launching (h : a.launching = true) : a.starting = true := by
  revert h
  unfold launching
  split <;> simp [starting]

theorem holds_of_connecting (h : a.connecting = true) : a.holds = true := by
  revert h
  unfold connecting
  split <;> simp [holds]

theorem closing_of_collected (h : a.collected = true) : a.closing = true := by
  revert h
  unfold collected
  split <;> simp [closing]

theorem cleared_of_rewound (h : a.rewound = true) : a.cleared = true := by
  revert h
  unfold rewound
  split <;> simp [cleared]

theorem connecting_of_collected (h : a.collected = true) : a.connecting = false := by
  revert h
  unfold collected
  split <;> simp [connecting]

theorem worker_of_running (h : a.running = true) : ∃ w, a.worker = some w := by
  unfold running at h
  split at h
  · cases h
  · exact Option.isSome_iff_exists.1 h

/-- An owner that installed its connection has no running worker beside it. -/
theorem launching_or_cleared (h : a.replaced = true) : a.launching = true ∨ a.cleared = true := by
  revert h
  unfold replaced
  split
  · rename_i k
    cases k <;> simp [launching, cleared]
  · simp [launching]
  · simp

end Pc

namespace Protocol

variable {p p₁ p' : Protocol} {t u : Nat} {a b : Pc}

@[simp] theorem goto_pc (p : Protocol) (t : Nat) (b : Pc) (u : Nat) :
    (p.goto t b).pc u = if u = t then b else p.pc u := update_apply _ _ _ _

@[simp] theorem spawn_pc (p : Protocol) (b : Pc) (u : Nat) :
    (p.spawn b).pc u = if u = p.spawned then b else p.pc u := update_apply _ _ _ _

/-! ## The invariant -/

structure Inv (p : Protocol) : Prop where
  idle : ∀ t, p.spawned ≤ t → p.pc t = .idle
  flag : p.isReconnecting = true ↔ ∃ t, (p.pc t).owns = true
  owner : ∀ t u, (p.pc t).owns = true → (p.pc u).owns = true → t = u
  mutex : ∀ t, (p.pc t).holds = true ↔ p.connMutex = some t
  start : ∀ t, (p.pc t).starting = true → p.isStart = false
  closing : ∀ t, (p.pc t).closing = true → p.isClosing = true
  cancelled : p.closeDone = true → p.isClosing = true
  current : ∀ t w, (p.pc t).worker = some w → w.conn = p.latest
  past : ∀ t w f, p.pc t = .exited w f → w.conn ≤ p.latest
  /-- After the join of the owner there is no worker. -/
  cleared : ∀ t u, (p.pc t).cleared = true → (p.pc u).worker = none
  /-- New workers wait until the owner has handed back the flag. -/
  launching : ∀ t u, (p.pc t).launching = true → (p.pc u).running = false
  /-- After the join of a `Close` nobody connects, and there is no worker. -/
  collected : ∀ t u, (p.pc t).collected = true →
    (p.pc u).connecting = false ∧ (p.pc u).worker = none
  /-- A lost connection has an owner that will replace it. -/
  lost : ∀ t w, p.pc t = .exited w true → w.conn = p.latest → p.isClosing = false →
    ∃ u, (p.pc u).owns = true ∧ (p.pc u).replaced = false

/-- The worker group is empty. -/
def NoWorkers (p : Protocol) : Prop := ∀ u, (p.pc u).worker = none

/-- A goroutine at `a` changes the shared fields from `p` to `p₁` and goes to `b`. -/
structure Change (p p₁ : Protocol) (t : Nat) (a b : Pc) : Prop where
  pc : p₁.pc = p.pc
  spawned : p₁.spawned = p.spawned
  busy : a ≠ .idle
  flag : (p₁.isReconnecting = p.isReconnecting ∧ b.owns = a.owns) ∨
    (p₁.isReconnecting = false ∧ a.owns = true ∧ b.owns = false)
  mutex : (p₁.connMutex = p.connMutex ∧ b.holds = a.holds) ∨
    (p.connMutex = none ∧ p₁.connMutex = some t ∧ b.holds = true) ∨
    (p₁.connMutex = none ∧ a.holds = true ∧ b.holds = false)
  start : (p₁.isStart = p.isStart ∧ (b.starting = true → a.starting = true)) ∨
    p₁.isStart = false ∨ (a.holds = true ∧ b.starting = false)
  isClosing : p.isClosing = true → p₁.isClosing = true
  closing : b.closing = true → a.closing = true ∨ p₁.isClosing = true
  cancelled : p₁.closeDone = p.closeDone ∨ p₁.isClosing = true
  latest : (p₁.latest = p.latest ∧ (b.worker = none ∨ b.worker = a.worker)) ∨
    (p₁.latest = p.latest + 1 ∧ a.cleared = true ∧ b.worker = none)
  running : b.running = true → a.running = true ∨ p.isStart = true
  cleared : b.cleared = true → a.cleared = true ∨ NoWorkers p
  launching : b.launching = true → a.launching = true ∨ a.cleared = true
  collected : b.collected = true → a.collected = true ∨
    (a.holds = true ∧ NoWorkers p)
  connecting : b.connecting = true → a.connecting = true ∨ p.isClosing = false
  exited : ∀ w f, b = .exited w f → a.worker = some w ∧
    (f = true → p₁.isClosing = true ∨ (a.running = true ∧ p.isReconnecting = true))
  lost : a.owns = true → a.replaced = false → (b.owns = true ∧ b.replaced = false) ∨
    p₁.isClosing = true ∨ p₁.latest = p.latest + 1

theorem Inv.lt_spawned (h : Inv p) (ha : p.pc t ≠ .idle) : t < p.spawned := by
  by_contra hge
  exact ha (h.idle t (by omega))

/-- The owner of a flag that a running worker finds set has not replaced its connection. -/
theorem Inv.owner_of_running (h : Inv p) (hrun : (p.pc t).running = true)
    (hflag : p.isReconnecting = true) : ∃ u, (p.pc u).owns = true ∧ (p.pc u).replaced = false := by
  obtain ⟨u, hu⟩ := h.flag.1 hflag
  refine ⟨u, hu, ?_⟩
  by_contra hrep
  rw [Bool.not_eq_false] at hrep
  rcases Pc.launching_or_cleared hrep with hl | hc
  · rw [h.launching u t hl] at hrun
    cases hrun
  · obtain ⟨w, hw⟩ := Pc.worker_of_running hrun
    rw [h.cleared u t hc] at hw
    cases hw

/-- The classes of the other goroutines do not change. -/
theorem Change.other (hc : Change p p₁ t a b) (hu : u ≠ t) : (p₁.goto t b).pc u = p.pc u := by
  rw [goto_pc, if_neg hu, hc.pc]

theorem Change.self (p₁ : Protocol) (t : Nat) (b : Pc) : (p₁.goto t b).pc t = b := by
  rw [goto_pc, if_pos rfl]

theorem Inv.goto_flag (h : Inv p) (ha : p.pc t = a) (hc : Change p p₁ t a b) :
    (p₁.isReconnecting = true ↔ ∃ u, ((p₁.goto t b).pc u).owns = true) ∧
      ∀ u v, ((p₁.goto t b).pc u).owns = true → ((p₁.goto t b).pc v).owns = true → u = v := by
  rcases hc.flag with ⟨hflag, hown⟩ | ⟨hflag, hown, hnot⟩
  · -- nobody becomes an owner or stops being one
    have hsame : ∀ u, ((p₁.goto t b).pc u).owns = (p.pc u).owns := by
      intro u
      by_cases hu : u = t
      · rw [hu, Change.self, ha, hown]
      · rw [hc.other hu]
    simp only [hsame, hflag]
    exact ⟨h.flag, h.owner⟩
  · -- the only owner hands back the flag
    have hnone : ∀ u, ((p₁.goto t b).pc u).owns = false := by
      intro u
      by_cases hu : u = t
      · rw [hu, Change.self, hnot]
      · rw [hc.other hu]
        by_contra hne
        rw [Bool.not_eq_false] at hne
        exact hu (h.owner u t hne (by rw [ha, hown]))
    refine ⟨?_, ?_⟩
    · rw [hflag]
      refine iff_of_false Bool.false_ne_true ?_
      rintro ⟨u, hu⟩
      rw [hnone] at hu
      cases hu
    · intro u v hu
      rw [hnone] at hu
      cases hu

theorem Inv.goto_mutex (h : Inv p) (ha : p.pc t = a) (hc : Change p p₁ t a b) (u : Nat) :
    ((p₁.goto t b).pc u).holds = true ↔ p₁.connMutex = some u := by
  have hself := h.mutex t
  rw [ha] at hself
  rcases hc.mutex with ⟨hm, hsame⟩ | ⟨hfree, hm, hnew⟩ | ⟨hm, hold, hnot⟩
  · rw [hm]
    by_cases hu : u = t
    · rw [hu, Change.self, hsame, hself]
    · rw [hc.other hu]
      exact h.mutex u
  · -- lock
    rw [hm]
    by_cases hu : u = t
    · rw [hu, Change.self]
      exact iff_of_true hnew rfl
    · rw [hc.other hu, h.mutex u, hfree]
      simp [Ne.symm hu]
  · -- unlock
    rw [hm]
    by_cases hu : u = t
    · rw [hu, Change.self, hnot]
      simp
    · rw [hc.other hu, h.mutex u, hself.1 hold]
      simp [Ne.symm hu]

/-- Two goroutines of a class that holds `connMutex` are one. -/
theorem Inv.holder (h : Inv p) (ht : (p.pc t).holds = true) (hu : (p.pc u).holds = true) : u = t := by
  have h₁ := (h.mutex t).1 ht
  have h₂ := (h.mutex u).1 hu
  rw [h₁] at h₂
  exact (Option.some.inj h₂).symm

theorem Inv.goto_start (h : Inv p) (ha : p.pc t = a) (hc : Change p p₁ t a b) (u : Nat)
    (hu : ((p₁.goto t b).pc u).starting = true) : p₁.isStart = false := by
  rcases hc.start with ⟨hsame, hst⟩ | hfalse | ⟨hhold, hnot⟩
  · rw [hsame]
    by_cases hut : u = t
    · rw [hut, Change.self] at hu
      exact h.start t (by rw [ha]; exact hst hu)
    · rw [hc.other hut] at hu
      exact h.start u hu
  · exact hfalse
  · -- the one that sets `isStart` is the only one that had cleared it
    by_cases hut : u = t
    · rw [hut, Change.self, hnot] at hu
      cases hu
    · rw [hc.other hut] at hu
      exact absurd (h.holder (by rw [ha]; exact hhold) (Pc.holds_of_starting hu)) hut

theorem Inv.goto_worker (h : Inv p) (ha : p.pc t = a) (hc : Change p p₁ t a b) {w : Worker}
    (hw : ((p₁.goto t b).pc u).worker = some w) :
    (p.pc u).worker = some w ∧ p₁.latest = p.latest := by
  rcases hc.latest with ⟨hlat, hwork⟩ | ⟨-, hcl, hnone⟩
  · refine ⟨?_, hlat⟩
    by_cases hu : u = t
    · rw [hu, Change.self] at hw
      rw [hu, ha]
      rcases hwork with hn | hsame
      · rw [hn] at hw
        cases hw
      · rw [← hsame, hw]
    · rwa [hc.other hu] at hw
  · -- a connection is installed only after all workers are joined
    by_cases hu : u = t
    · rw [hu, Change.self, hnone] at hw
      cases hw
    · rw [hc.other hu, h.cleared t u (by rw [ha]; exact hcl)] at hw
      cases hw

theorem Change.latest_le (hc : Change p p₁ t a b) : p.latest ≤ p₁.latest := by
  rcases hc.latest with ⟨hlat, -⟩ | ⟨hlat, -, -⟩ <;> omega

theorem Inv.goto_past (h : Inv p) (ha : p.pc t = a) (hc : Change p p₁ t a b) {w : Worker} {f : Bool}
    (hu : (p₁.goto t b).pc u = .exited w f) : w.conn ≤ p₁.latest := by
  have hle := hc.latest_le
  by_cases hut : u = t
  · rw [hut, Change.self] at hu
    have hw := h.current t w (by rw [ha]; exact (hc.exited w f hu).1)
    omega
  · rw [hc.other hut] at hu
    exact le_trans (h.past u w f hu) hle

theorem Inv.goto_no_worker (h : Inv p) (ha : p.pc t = a) (hc : Change p p₁ t a b)
    (hnone : (p.pc u).worker = none) : ((p₁.goto t b).pc u).worker = none := by
  by_contra hne
  obtain ⟨w, hw⟩ := Option.ne_none_iff_exists'.1 hne
  rw [(h.goto_worker ha hc hw).1] at hnone
  cases hnone

theorem Inv.goto_cleared (h : Inv p) (ha : p.pc t = a) (hc : Change p p₁ t a b) (u v : Nat)
    (hu : ((p₁.goto t b).pc u).cleared = true) : ((p₁.goto t b).pc v).worker = none := by
  refine h.goto_no_worker ha hc ?_
  by_cases hut : u = t
  · rw [hut, Change.self] at hu
    rcases hc.cleared hu with hcl | hall
    · exact h.cleared t v (by rw [ha]; exact hcl)
    · exact hall v
  · rw [hc.other hut] at hu
    exact h.cleared u v hu

theorem Inv.goto_launching (h : Inv p) (ha : p.pc t = a) (hc : Change p p₁ t a b) (u v : Nat)
    (hu : ((p₁.goto t b).pc u).launching = true) : ((p₁.goto t b).pc v).running = false := by
  by_contra hv
  rw [Bool.not_eq_false] at hv
  -- the goroutine was launching before, or had just joined the workers
  have hold : (p.pc u).launching = true ∨ (p.pc u).cleared = true := by
    by_cases hut : u = t
    · rw [hut, Change.self] at hu
      rw [hut, ha]
      exact hc.launching hu
    · rw [hc.other hut] at hu
      exact .inl hu
  have hrun : (p.pc v).running = true ∨ p.isStart = true := by
    by_cases hvt : v = t
    · rw [hvt, Change.self] at hv
      rw [hvt, ha]
      exact hc.running hv
    · rw [hc.other hvt] at hv
      exact .inl hv
  obtain ⟨w, hw⟩ := Pc.worker_of_running hv
  have hw' := (h.goto_worker ha hc hw).1
  rcases hold with hl | hcl
  · rcases hrun with hr | hs
    · rw [h.launching u v hl] at hr
      cases hr
    · rw [h.start u (Pc.starting_of_launching hl)] at hs
      cases hs
  · rw [h.cleared u v hcl] at hw'
    cases hw'

theorem Inv.goto_collected (h : Inv p) (ha : p.pc t = a) (hc : Change p p₁ t a b) (u v : Nat)
    (hu : ((p₁.goto t b).pc u).collected = true) :
    ((p₁.goto t b).pc v).connecting = false ∧ ((p₁.goto t b).pc v).worker = none := by
  have hold : (p.pc u).collected = true ∨
      (u = t ∧ (p.pc t).holds = true ∧ NoWorkers p) := by
    by_cases hut : u = t
    · rw [hut, Change.self] at hu
      rw [hut, ha]
      rcases hc.collected hu with hcol | hjoin
      · exact .inl hcol
      · exact .inr ⟨rfl, hjoin⟩
    · rw [hc.other hut] at hu
      exact .inl hu
  have hv : (p.pc v).worker = none ∧ (v ≠ t → (p.pc v).connecting = false) := by
    rcases hold with hcol | ⟨-, hhold, hall⟩
    · exact ⟨(h.collected u v hcol).2, fun _ => (h.collected u v hcol).1⟩
    · refine ⟨hall v, fun hvt => ?_⟩
      by_contra hne
      rw [Bool.not_eq_false] at hne
      exact hvt (h.holder hhold (Pc.holds_of_connecting hne))
  refine ⟨?_, h.goto_no_worker ha hc hv.1⟩
  by_cases hvt : v = t
  · rw [hvt, Change.self]
    by_contra hne
    rw [Bool.not_eq_false] at hne
    rcases hold with hcol | ⟨hut, -⟩
    · rcases hc.connecting hne with hcon | hopen
      · rw [← ha, (h.collected u t hcol).1] at hcon
        cases hcon
      · rw [h.closing u (Pc.closing_of_collected hcol)] at hopen
        cases hopen
    · rw [hut, Change.self] at hu
      rw [Pc.connecting_of_collected hu] at hne
      cases hne
  · rw [hc.other hvt]
    exact hv.2 hvt

theorem Inv.goto_lost (h : Inv p) (ha : p.pc t = a) (hc : Change p p₁ t a b) {w : Worker}
    (hu : (p₁.goto t b).pc u = .exited w true) (hw : w.conn = p₁.latest)
    (hopen : p₁.isClosing = false) :
    ∃ v, ((p₁.goto t b).pc v).owns = true ∧ ((p₁.goto t b).pc v).replaced = false := by
  have hopen' : p.isClosing = false := by
    by_contra hne
    rw [Bool.not_eq_false] at hne
    rw [hc.isClosing hne] at hopen
    cases hopen
  have hle := hc.latest_le
  -- an owner before the step that has not replaced the connection
  obtain ⟨v, hv, hrep⟩ : ∃ v, (p.pc v).owns = true ∧ (p.pc v).replaced = false := by
    by_cases hut : u = t
    · rw [hut, Change.self] at hu
      rcases (hc.exited w true hu).2 rfl with hcl | ⟨hrun, hflag⟩
      · rw [hcl] at hopen
        cases hopen
      · exact h.owner_of_running (t := t) (by rw [ha]; exact hrun) hflag
    · rw [hc.other hut] at hu
      have hpast := h.past u w true hu
      exact h.lost u w hu (by omega) hopen'
  by_cases hvt : v = t
  · rw [hvt, ha] at hv hrep
    rcases hc.lost hv hrep with hb | hcl | hnew
    · exact ⟨t, by rw [Change.self]; exact hb.1, by rw [Change.self]; exact hb.2⟩
    · rw [hcl] at hopen
      cases hopen
    · -- the connection that was lost is not the current one any more
      by_cases hut : u = t
      · rw [hut, Change.self] at hu
        have hcur := h.current t w (by rw [ha]; exact (hc.exited w true hu).1)
        omega
      · rw [hc.other hut] at hu
        have hpast := h.past u w true hu
        omega
  · exact ⟨v, by rw [hc.other hvt]; exact hv, by rw [hc.other hvt]; exact hrep⟩

/-- A step of one goroutine keeps the invariant. -/
theorem Inv.goto (h : Inv p) (ha : p.pc t = a) (hc : Change p p₁ t a b) : Inv (p₁.goto t b) := by
  constructor
  · intro u hu
    have hlt := h.lt_spawned (t := t) (by rw [ha]; exact hc.busy)
    have hsp : p.spawned ≤ u := by
      rw [← hc.spawned]
      exact hu
    rw [hc.other (by omega)]
    exact h.idle u hsp
  · exact (h.goto_flag ha hc).1
  · exact (h.goto_flag ha hc).2
  · exact h.goto_mutex ha hc
  · exact h.goto_start ha hc
  · intro u hu
    by_cases hut : u = t
    · rw [hut, Change.self] at hu
      rcases hc.closing hu with hcl | hcl
      · exact hc.isClosing (h.closing t (by rw [ha]; exact hcl))
      · exact hcl
    · rw [hc.other hut] at hu
      exact hc.isClosing (h.closing u hu)
  · intro hdone
    rcases hc.cancelled with hsame | hcl
    · exact hc.isClosing (h.cancelled (hsame ▸ hdone))
    · exact hcl
  · intro u w hw
    obtain ⟨hw', hlat⟩ := h.goto_worker ha hc hw
    rw [h.current u w hw']
    exact hlat.symm
  · exact fun u w f hu => h.goto_past ha hc hu
  · exact h.goto_cleared ha hc
  · exact h.goto_launching ha hc
  · exact h.goto_collected ha hc
  · exact fun u w hu hw hopen => h.goto_lost ha hc hu hw hopen

/-! ## New goroutines -/

/-- A goroutine at `b` can be started. -/
structure Startable (p : Protocol) (b : Pc) : Prop where
  holds : b.holds = false
  starting : b.starting = false
  closing : b.closing = false
  cleared : b.cleared = false
  launching : b.launching = false
  connecting : b.connecting = false
  collected : b.collected = false
  running : b.running = false
  exited : ∀ w f, b ≠ .exited w f
  worker : ∀ w, b.worker = some w → w.conn = p.latest ∧
    ∀ u, (p.pc u).cleared = false ∧ (p.pc u).collected = false

theorem Inv.idle_spawned (h : Inv p) : p.pc p.spawned = .idle := h.idle _ le_rfl

theorem Inv.spawn_flag (h : Inv p) {f : Bool} (hf : (f = p.isReconnecting ∧ b.owns = false) ∨
      (p.isReconnecting = false ∧ f = true ∧ b.owns = true)) :
    (f = true ↔ ∃ u, ((p.spawn b).pc u).owns = true) ∧
      ∀ u v, ((p.spawn b).pc u).owns = true → ((p.spawn b).pc v).owns = true → u = v := by
  have hidle := h.idle_spawned
  rcases hf with ⟨rfl, hnot⟩ | ⟨hfree, rfl, hown⟩
  · have hsame : ∀ u, ((p.spawn b).pc u).owns = (p.pc u).owns := by
      intro u
      rw [spawn_pc]
      split_ifs with hu
      · rw [hu, hidle, hnot]
        rfl
      · rfl
    simp only [hsame]
    exact ⟨h.flag, h.owner⟩
  · -- the flag was free, so the new goroutine is the only owner
    have hnone : ∀ u, (p.pc u).owns = false := by
      intro u
      by_contra hne
      rw [Bool.not_eq_false] at hne
      rw [h.flag.2 ⟨u, hne⟩] at hfree
      cases hfree
    have honly : ∀ u, ((p.spawn b).pc u).owns = true → u = p.spawned := by
      intro u hu
      rw [spawn_pc] at hu
      split_ifs at hu with heq
      · exact heq
      · rw [hnone] at hu
        cases hu
    refine ⟨iff_of_true rfl ⟨p.spawned, ?_⟩, ?_⟩
    · rw [spawn_pc, if_pos rfl, hown]
    · intro u v hu hv
      rw [honly u hu, honly v hv]

/-- A started goroutine keeps the invariant. -/
theorem Inv.spawn (h : Inv p) (hb : Startable p b) {f : Bool}
    (hf : (f = p.isReconnecting ∧ b.owns = false) ∨
      (p.isReconnecting = false ∧ f = true ∧ b.owns = true)) :
    Inv { p.spawn b with isReconnecting := f } := by
  have hidle := h.idle_spawned
  have hself : (p.spawn b).pc p.spawned = b := by rw [spawn_pc, if_pos rfl]
  have hother : ∀ u, u ≠ p.spawned → (p.spawn b).pc u = p.pc u := by
    intro u hu
    rw [spawn_pc, if_neg hu]
  -- a class that neither `b` nor `idle` belongs to has the members it had
  have hclass : ∀ cls : Pc → Bool, cls b = false → ∀ u, cls ((p.spawn b).pc u) = true →
      cls (p.pc u) = true ∧ u ≠ p.spawned := by
    intro cls hcls u hu
    by_cases heq : u = p.spawned
    · rw [heq, hself, hcls] at hu
      cases hu
    · rw [hother u heq] at hu
      exact ⟨hu, heq⟩
  have hworker : ∀ u, (∀ v, (p.pc v).cleared = true ∨ (p.pc v).collected = true →
      (p.pc u).worker = none) → ∀ v, (p.pc v).cleared = true ∨ (p.pc v).collected = true →
      ((p.spawn b).pc u).worker = none := by
    intro u hall v hv
    by_cases hu : u = p.spawned
    · rw [hu, hself]
      by_contra hne
      obtain ⟨w, hw⟩ := Option.ne_none_iff_exists'.1 hne
      obtain ⟨hcl, hcol⟩ := (hb.worker w hw).2 v
      rcases hv with hv | hv
      · rw [hcl] at hv
        cases hv
      · rw [hcol] at hv
        cases hv
    · rw [hother u hu]
      exact hall v hv
  constructor
  · intro u hu
    have hlt : p.spawned + 1 ≤ u := hu
    show (p.spawn b).pc u = .idle
    rw [hother u (by omega)]
    exact h.idle u (by omega)
  · exact (h.spawn_flag hf).1
  · exact (h.spawn_flag hf).2
  · intro u
    show ((p.spawn b).pc u).holds = true ↔ p.connMutex = some u
    by_cases hu : u = p.spawned
    · have hm := h.mutex u
      rw [hu, hidle] at hm
      rw [hu, hself, hb.holds, ← hm]
      rfl
    · rw [hother u hu]
      exact h.mutex u
  · exact fun u hu => h.start u (hclass Pc.starting hb.starting u hu).1
  · exact fun u hu => h.closing u (hclass Pc.closing hb.closing u hu).1
  · exact h.cancelled
  · intro u w hw
    show w.conn = p.latest
    have hw' : ((p.spawn b).pc u).worker = some w := hw
    by_cases hu : u = p.spawned
    · rw [hu, hself] at hw'
      exact (hb.worker w hw').1
    · rw [hother u hu] at hw'
      exact h.current u w hw'
  · intro u w f hu
    have hu' : (p.spawn b).pc u = .exited w f := hu
    by_cases heq : u = p.spawned
    · rw [heq, hself] at hu'
      exact absurd hu' (hb.exited w f)
    · rw [hother u heq] at hu'
      exact h.past u w f hu'
  · intro u v hu
    have hcl := (hclass Pc.cleared hb.cleared u hu).1
    refine hworker v (fun x hx => ?_) u (.inl hcl)
    rcases hx with hx | hx
    · exact h.cleared x v hx
    · exact (h.collected x v hx).2
  · intro u v hu
    have hl := (hclass Pc.launching hb.launching u hu).1
    by_contra hv
    rw [Bool.not_eq_false] at hv
    have hr := (hclass Pc.running hb.running v hv).1
    rw [h.launching u v hl] at hr
    cases hr
  · intro u v hu
    have hcol := (hclass Pc.collected hb.collected u hu).1
    refine ⟨?_, ?_⟩
    · by_contra hv
      rw [Bool.not_eq_false] at hv
      have hcon := (hclass Pc.connecting hb.connecting v hv).1
      rw [(h.collected u v hcol).1] at hcon
      cases hcon
    · refine hworker v (fun x hx => ?_) u (.inr hcol)
      rcases hx with hx | hx
      · exact h.cleared x v hx
      · exact (h.collected x v hx).2
  · intro u w hu hw hopen
    have hu' : (p.spawn b).pc u = .exited w true := hu
    have hne : u ≠ p.spawned := by
      rintro rfl
      rw [hself] at hu'
      exact hb.exited w true hu'
    rw [hother u hne] at hu'
    obtain ⟨v, hv, hrep⟩ := h.lost u w hu' hw hopen
    have hvne : v ≠ p.spawned := by
      rintro rfl
      rw [hidle] at hv
      cases hv
    refine ⟨v, ?_, ?_⟩
    · show ((p.spawn b).pc v).owns = true
      rw [hother v hvne, hv]
    · show ((p.spawn b).pc v).replaced = false
      rw [hother v hvne, hrep]

/-! ## Every step keeps the invariant -/

/-- The fields the invariant speaks about. -/
def view (p : Protocol) :
    (Bool × Bool × Bool × Bool) × Option Nat × Nat × (Nat → Pc) × Nat :=
  ((p.isReconnecting, p.isClosing, p.isStart, p.closeDone), p.connMutex, p.latest, p.pc, p.spawned)

/-- A goroutine goes from `a` to `b` and changes no field of the view. -/
structure Calm (p : Protocol) (a b : Pc) : Prop where
  busy : a ≠ .idle
  owns : b.owns = a.owns
  holds : b.holds = a.holds
  starting : b.starting = true → a.starting = true
  closing : b.closing = true → a.closing = true ∨ p.isClosing = true
  worker : b.worker = none ∨ b.worker = a.worker
  running : b.running = true → a.running = true ∨ p.isStart = true
  cleared : b.cleared = true → a.cleared = true
  launching : b.launching = true → a.launching = true
  collected : b.collected = true → a.collected = true
  connecting : b.connecting = true → a.connecting = true ∨ p.isClosing = false
  exited : ∀ w f, b = .exited w f → a.worker = some w ∧
    (f = true → p.isClosing = true ∨ (a.running = true ∧ p.isReconnecting = true))
  replaced : b.replaced = a.replaced

theorem Calm.change (hc : Calm p a b) (hv : p₁.view = p.view) : Change p p₁ t a b := by
  simp only [view, Prod.mk.injEq] at hv
  obtain ⟨⟨hrec, hclos, hstart, hdone⟩, hmutex, hlatest, hpc, hsp⟩ := hv
  exact
    { pc := hpc
      spawned := hsp
      busy := hc.busy
      flag := .inl ⟨hrec, hc.owns⟩
      mutex := .inl ⟨hmutex, hc.holds⟩
      start := .inl ⟨hstart, hc.starting⟩
      isClosing := fun h => hclos.trans h
      closing := fun h => (hc.closing h).imp id hclos.trans
      cancelled := .inl hdone
      latest := .inl ⟨hlatest, hc.worker⟩
      running := hc.running
      cleared := fun h => .inl (hc.cleared h)
      launching := fun h => .inl (hc.launching h)
      collected := fun h => .inl (hc.collected h)
      connecting := hc.connecting
      exited := fun w f h => ⟨(hc.exited w f h).1, fun hf => ((hc.exited w f h).2 hf).imp
        hclos.trans id⟩
      lost := fun h₁ h₂ => .inl ⟨hc.owns.trans h₁, hc.replaced.trans h₂⟩ }

theorem Inv.calm (h : Inv p) (ha : p.pc t = a) (hc : Calm p a b) (hv : p₁.view = p.view) :
    Inv (p₁.goto t b) := h.goto ha (hc.change hv)

/-- A call of `Reconnect` that finds an owner, or a closing client, just returns. -/
theorem calm_back (k : Caller) (hp : p.isClosing = true ∨ p.isReconnecting = true) :
    Calm p (.loadClosing k) k.back ∧ Calm p (.swapReconnecting k) k.back := by
  constructor <;> cases k <;> constructor <;> simp [Caller.back] <;> simp_all

theorem Inv.joined (h : Inv p) (hj : p.joined = true) : NoWorkers p := by
  intro u
  by_cases hu : u < p.spawned
  · unfold Protocol.joined at hj
    rw [List.all_eq_true] at hj
    exact Option.isNone_iff_eq_none.1 (hj u (List.mem_range.2 hu))
  · rw [h.idle u (by omega)]
    rfl

/-- `connMutex.Lock` in `disconnect` and in `connectBeforeWorkers`. -/
theorem Inv.lock (h : Inv p) (ha : p.pc t = a) (hs : p.lock t b = some p')
    (hab : (a = .lockDisconnect ∧ b = .join) ∨ (a = .lockConnect ∧ b = .checkClosing) ∨
      (a = .closeLock ∧ b = .closeJoin)) : Inv p' := by
  unfold Protocol.lock at hs
  split_ifs at hs with hfree
  cases hs
  refine h.goto ha ?_
  rcases hab with ⟨rfl, rfl⟩ | ⟨rfl, rfl⟩ | ⟨rfl, rfl⟩ <;> constructor <;> simp [hfree]

/-- The join of the workers at the end of `disconnect`. -/
theorem Inv.finishDisconnect (h : Inv p) (ha : p.pc t = a) (hs : p.finishDisconnect t b = some p')
    (hab : (a = .join ∧ b = .updateCapacity) ∨ (a = .closeJoin ∧ b = .closeCollect)) : Inv p' := by
  unfold Protocol.finishDisconnect at hs
  split_ifs at hs with hj
  cases hs
  have hnone := h.joined hj
  refine h.goto ha ?_
  rcases hab with ⟨rfl, rfl⟩ | ⟨rfl, rfl⟩ <;> constructor <;> simp [hnone]

/-- A `Reconnect` that wins the swap starts the goroutine that owns the flag. -/
theorem Inv.acquire (h : Inv p) {k : Caller} (ha : p.pc t = .swapReconnecting k)
    (hfree : p.isReconnecting = false) :
    Inv ((({ p with isReconnecting := true } : Protocol).goto t k.back).spawn .setStop) := by
  have hlt := h.lt_spawned (t := t) (by rw [ha]; exact Pc.noConfusion)
  have hspawn : Inv { p.spawn .setStop with isReconnecting := true } :=
    h.spawn (by constructor <;> simp) (.inr ⟨hfree, rfl, rfl⟩)
  have hpc : (p.spawn .setStop).pc t = .swapReconnecting k := by
    rw [spawn_pc, if_neg (by omega), ha]
  -- the order of the two updates does not matter
  have heq : (({ p with isReconnecting := true } : Protocol).goto t k.back).spawn .setStop =
      ({ p.spawn .setStop with isReconnecting := true } : Protocol).goto t k.back := by
    simp only [Protocol.spawn, Protocol.goto]
    rw [update_comm hlt.ne]
  rw [heq]
  exact hspawn.calm hpc (calm_back k (.inr rfl)).2 rfl

/-- The start of a worker. -/
theorem Inv.launch (h : Inv p) {k : WorkerKind} (ha : p.pc t = .launch k) :
    Inv ((p.goto t (afterLaunch k)).spawn (.waitStart ⟨p.latest, k⟩)) := by
  have hgoto : Inv (p.goto t (afterLaunch k)) := by
    refine h.goto ha ?_
    cases k <;> constructor <;> simp [afterLaunch]
  have hself : (p.goto t (afterLaunch k)).pc t = afterLaunch k := Change.self p t _
  have hown : (afterLaunch k).owns = true := by cases k <;> rfl
  have hcon : (afterLaunch k).connecting = true := by cases k <;> rfl
  have hcl : (afterLaunch k).cleared = false := by cases k <;> rfl
  refine hgoto.spawn (f := p.isReconnecting) ?_ (.inl ⟨rfl, rfl⟩)
  refine ⟨rfl, rfl, rfl, rfl, rfl, rfl, rfl, rfl, fun _ _ => Pc.noConfusion, ?_⟩
  intro w hw
  obtain rfl : ⟨p.latest, k⟩ = w := Option.some.inj hw
  refine ⟨rfl, fun u => ⟨?_, ?_⟩⟩
  · -- the owner is the one that launches
    by_contra hu
    rw [Bool.not_eq_false] at hu
    have hut := hgoto.owner u t (Pc.owns_of_cleared hu) (by rw [hself, hown])
    rw [hut, hself, hcl] at hu
    cases hu
  · by_contra hu
    rw [Bool.not_eq_false] at hu
    have hnot := (hgoto.collected u t hu).1
    rw [hself, hcon] at hnot
    cases hnot

/-- An access of one goroutine keeps the invariant. -/
theorem Inv.step (h : Inv p) {c : Choice} (hs : p.step t c = some p') : Inv p' := by
  unfold Protocol.step at hs
  split at hs
  case h_1 k hpc =>
    -- `Reconnect` loads `isClosing`
    cases hs
    split_ifs with hcl
    · exact h.calm hpc (calm_back k (.inl hcl)).1 rfl
    · exact h.calm hpc (by cases k <;> constructor <;> simp) rfl
  case h_2 k hpc =>
    -- it swaps `isReconnecting`: a goroutine that found it clear becomes the owner
    split_ifs at hs with hrec
    · cases hs
      exact h.calm hpc (calm_back k (.inr hrec)).2 rfl
    · cases hs
      exact h.acquire hpc (by simpa using hrec)
  -- the lock and the join of `disconnect`, here and in `Close`, and the lock of a connection
  case h_4 hpc => exact h.lock hpc hs (.inl ⟨rfl, rfl⟩)
  case h_5 hpc => exact h.finishDisconnect hpc hs (.inl ⟨rfl, rfl⟩)
  case h_8 hpc => exact h.lock hpc hs (.inr (.inl ⟨rfl, rfl⟩))
  case h_16 k hpc =>
    -- a worker is started while the owner holds the lock
    cases hs
    exact h.launch hpc
  case h_29 hpc => exact h.lock hpc hs (.inr (.inr ⟨rfl, rfl⟩))
  case h_30 hpc => exact h.finishDisconnect hpc hs (.inr ⟨rfl, rfl⟩)
  case h_9 hpc =>
    -- the first load of `isClosing` before a connection
    cases hs
    split_ifs with hcl
    · exact h.calm hpc (by constructor <;> simp) rfl
    · exact h.calm hpc (by constructor <;> simp [hcl]) rfl
  case h_12 m hpc =>
    -- the handshake ends with a control message
    cases hs
    exact h.calm hpc (by cases m <;> constructor <;> simp [afterHandshake]) rfl
  case h_13 hpc =>
    cases hs
    split_ifs
    · exact h.calm hpc (by constructor <;> simp) rfl
    · exact h.calm hpc (by constructor <;> simp) rfl
  case h_19 connected hpc =>
    -- the owner leaves the lock, connected or not
    cases hs
    refine h.goto hpc ?_
    cases connected <;> constructor <;> simp
  case h_20 hpc =>
    -- the loop of the owner loads `isClosing`
    cases hs
    split_ifs with hcl
    · exact h.calm hpc (by constructor <;> simp [hcl]) rfl
    · exact h.calm hpc (by constructor <;> simp) rfl
  case h_22 hpc =>
    -- the sleep is cut short by the cancellation, which `Close` makes after its store
    split_ifs at hs with hdone
    cases hs
    have hcl := h.cancelled hdone
    exact h.calm hpc (by constructor <;> simp [hcl]) rfl
  case h_23 hpc =>
    -- a goroutine gives `isReconnecting` back only if it has seen `isClosing`
    cases hs
    have hcl : p.isClosing = true := h.closing t (by rw [hpc]; rfl)
    exact h.goto hpc (by constructor <;> simp [hcl])
  case h_26 hpc =>
    cases hs
    have hcl : p.isClosing = true := h.closing t (by rw [hpc]; rfl)
    exact h.goto hpc (by constructor <;> simp [hcl])
  case h_34 w hpc =>
    -- a worker waits for the start event
    split_ifs at hs with hst
    cases hs
    exact h.calm hpc (by constructor <;> simp [hst]) rfl
  case h_36 w hpc =>
    -- it stops, or the listener reads a message
    split_ifs at hs
    cases hs
    exact h.calm hpc (by constructor <;> simp) rfl
  case h_37 w m hpc =>
    split_ifs at hs
    cases hs
    exact h.calm hpc (by cases m <;> constructor <;> simp [afterMessage]) rfl
  case h_38 => cases hs
  -- the accesses that change a flag the invariant mentions
  case h_10 hpc | h_15 hpc | h_17 hpc | h_18 hpc | h_24 hpc =>
    cases hs
    exact h.goto hpc (by constructor <;> simp)
  -- every other access only moves the goroutine on
  all_goals
    cases hs
    rename_i hpc
    exact h.calm hpc (by constructor <;> simp) rfl

theorem Inv.act (h : Inv p) {a : ProtocolAct} (hs : p.act a = some p') : Inv p' := by
  cases a with
  | callClose | callReconnect =>
    cases hs
    exact h.spawn (f := p.isReconnecting) (by constructor <;> simp) (.inl ⟨rfl, rfl⟩)
  | step t c => exact h.step hs

/-- Before the first worker is started nothing runs. -/
theorem inv_of_idle (hpc : ∀ t, p.pc t = .idle) (hrec : p.isReconnecting = false)
    (hmutex : p.connMutex = none) (hdone : p.closeDone = false) : Inv p := by
  constructor <;> simp [hpc, hrec, hmutex, hdone]

theorem inv_newClient : Inv newClient := by
  have hstart : ∀ (p : Protocol) (k : WorkerKind), (∀ u, (p.pc u).cleared = false ∧
      (p.pc u).collected = false) → Startable p (.waitStart ⟨p.latest, k⟩) := by
    intro p k hnone
    refine ⟨rfl, rfl, rfl, rfl, rfl, rfl, rfl, rfl, fun _ _ => Pc.noConfusion, ?_⟩
    intro w hw
    obtain rfl : ⟨p.latest, k⟩ = w := Option.some.inj hw
    exact ⟨rfl, hnone⟩
  have hkeep : ∀ (p : Protocol) (w : Worker), (∀ u, (p.pc u).cleared = false ∧
      (p.pc u).collected = false) → ∀ u, ((p.spawn (.waitStart w)).pc u).cleared = false ∧
      ((p.spawn (.waitStart w)).pc u).collected = false := by
    intro p w hnone u
    rw [spawn_pc]
    split_ifs
    · exact ⟨rfl, rfl⟩
    · exact hnone u
  have h₀ : Inv { isStart := true, conn := some 1, latest := 1 } :=
    inv_of_idle (fun _ => rfl) rfl rfl rfl
  have h₁ := h₀.spawn (hstart _ .listener fun _ => ⟨rfl, rfl⟩) (.inl ⟨rfl, rfl⟩)
  have h₂ := h₁.spawn (hstart _ .sender (hkeep _ _ fun _ => ⟨rfl, rfl⟩)) (.inl ⟨rfl, rfl⟩)
  exact h₂.spawn (hstart _ .keepAliveSender (hkeep _ _ (hkeep _ _ fun _ => ⟨rfl, rfl⟩)))
    (.inl ⟨rfl, rfl⟩)

theorem next_of_guard {a : ProtocolAct} (hg : protocolMachine.guard p a) :
    p.act a = some (protocolMachine.next p a) := by
  obtain ⟨p', hp'⟩ := Option.isSome_iff_exists.1 hg
  show p.act a = some ((p.act a).getD p)
  rw [hp']
  rfl

theorem inv_of_run {tr : List ProtocolStep} (hrun : Machine.Run protocolMachine newClient tr p) :
    Inv p :=
  hrun.invariant Inv inv_newClient fun _ _ hg h => h.act (next_of_guard hg)

/-! ## What a step leaves alone -/

/-- What a goroutine that goes from `a` to `b` does to the shared fields, and which classes
it may enter. -/
structure Effect (p p₁ : Protocol) (a b : Pc) : Prop where
  pc : p₁.pc = p.pc
  spawned : p₁.spawned = p.spawned
  conn : (p₁.conn = p.conn ∧ p₁.latest = p.latest) ∨ p₁.conn = none ∨ p₁.conn = some p₁.latest
  latest : p₁.latest = p.latest ∨ (a = .setConn ∧ p₁.latest = p.latest + 1)
  isStop : (p₁.isStop = p.isStop ∧ (b.stopping = true → a.stopping = true)) ∨ p₁.isStop = true ∨
    (a = .clearStop ∧ b.stopping = false)
  isClosing : p.isClosing = true → p₁.isClosing = true
  role : b.role = a.role
  worker : b.worker = a.worker ∨ b.worker = none
  launch : ∀ k, b = .launch k → (a = .setConn ∧ p₁.latest = p.latest + 1) ∨
    ∃ k', a = .launch k' ∧ b = afterLaunch k'
  rewound : b.rewound = true → a.rewound = true ∨ a = .resetDelivery
  sealed : b.sealed = true → a.sealed = true ∨ a = .closeBuffer
  taken : b.taken = true → a.taken = true ∨ a = .closeCollect
  detached : b.detached = true → a.detached = true ∨ a = .closeDetach
  closed : b = .closed → a = .closeFinish

/-- The goroutine that a step from `a` to `b` starts. -/
inductive Starts (p : Protocol) (a b : Pc) : Pc → Prop where
  | owner : (∀ k, a ≠ .launch k) → Starts p a b .setStop
  | worker (k : WorkerKind) : a = .launch k → b = afterLaunch k →
      Starts p a b (.waitStart ⟨p.latest, k⟩)

/-- A goroutine moves only itself, and may start a new one. -/
theorem step_effect {c : Choice} (hs : p.step t c = some p') : ∃ p₁ b, Effect p p₁ (p.pc t) b ∧
    (p' = p₁.goto t b ∧ (∀ k, p.pc t ≠ .launch k) ∨
      ∃ d, Starts p (p.pc t) b d ∧ p' = (p₁.goto t b).spawn d) := by
  unfold step at hs
  split at hs
  case h_1 k hpc =>
    -- `Reconnect` loads `isClosing`
    cases hs
    refine ⟨_, _, ?_, .inl ⟨rfl, by simp [hpc]⟩⟩
    rw [hpc]
    cases k <;> split_ifs <;> constructor <;> simp [Caller.back]
  case h_2 k hpc =>
    split_ifs at hs
    · cases hs
      refine ⟨_, _, ?_, .inl ⟨rfl, by simp [hpc]⟩⟩
      rw [hpc]
      cases k <;> constructor <;> simp [Caller.back]
    · -- the flag was clear: the owner is started
      cases hs
      refine ⟨_, _, ?_, .inr ⟨_, .owner (by simp [hpc]), rfl⟩⟩
      rw [hpc]
      cases k <;> constructor <;> simp [Caller.back]
  case h_16 k hpc =>
    -- a worker is started
    cases hs
    refine ⟨p, afterLaunch k, ?_, .inr ⟨_, .worker k hpc rfl, rfl⟩⟩
    rw [hpc]
    cases k <;> constructor <;> simp [afterLaunch]
  -- the locks
  case h_4 hpc | h_8 hpc | h_29 hpc =>
    unfold lock at hs
    split_ifs at hs
    cases hs
    refine ⟨_, _, ?_, .inl ⟨rfl, by simp [hpc]⟩⟩
    rw [hpc]
    constructor <;> simp
  -- the joins
  case h_5 hpc | h_30 hpc =>
    unfold finishDisconnect at hs
    split_ifs at hs
    cases hs
    refine ⟨_, _, ?_, .inl ⟨rfl, by simp [hpc]⟩⟩
    rw [hpc]
    constructor <;> simp
  -- the loads of `isClosing`
  case h_9 hpc | h_13 hpc | h_20 hpc =>
    cases hs
    refine ⟨_, _, ?_, .inl ⟨rfl, by simp [hpc]⟩⟩
    rw [hpc]
    split_ifs <;> constructor <;> simp
  case h_12 m hpc =>
    cases hs
    refine ⟨_, _, ?_, .inl ⟨rfl, by simp [hpc]⟩⟩
    rw [hpc]
    cases m <;> constructor <;> simp [afterHandshake]
  case h_19 connected hpc =>
    cases hs
    refine ⟨_, _, ?_, .inl ⟨rfl, by simp [hpc]⟩⟩
    rw [hpc]
    cases connected <;> constructor <;> simp
  -- the waits
  case h_22 hpc | h_34 hpc | h_36 hpc =>
    split_ifs at hs
    cases hs
    refine ⟨_, _, ?_, .inl ⟨rfl, by simp [hpc]⟩⟩
    rw [hpc]
    constructor <;> simp
  case h_37 m hpc =>
    split_ifs at hs
    cases hs
    refine ⟨_, _, ?_, .inl ⟨rfl, by simp [hpc]⟩⟩
    rw [hpc]
    cases m <;> constructor <;> simp [afterMessage]
  case h_38 => cases hs
  all_goals
    cases hs
    rename_i hpc
    refine ⟨_, _, ?_, .inl ⟨rfl, by simp [hpc]⟩⟩
    rw [hpc]
    constructor <;> simp

theorem act_other {a : ProtocolAct} (hs : p.act a = some p') (hu : ∀ c, a ≠ .step u c)
    (hlt : u < p.spawned) : p'.pc u = p.pc u := by
  cases a with
  | callClose | callReconnect =>
    cases hs
    rw [spawn_pc, if_neg hlt.ne]
  | step t c =>
    have hut : u ≠ t := by
      rintro rfl
      exact hu c rfl
    obtain ⟨p₁, b, heff, hp⟩ := step_effect hs
    have hgoto : (p₁.goto t b).pc u = p.pc u := by rw [goto_pc, if_neg hut, heff.pc]
    rcases hp with ⟨rfl, -⟩ | ⟨d, -, rfl⟩
    · exact hgoto
    · have hne : u ≠ (p₁.goto t b).spawned := by
        show u ≠ p₁.spawned
        rw [heff.spawned]
        exact hlt.ne
      rw [spawn_pc, if_neg hne, hgoto]

/-- The connection that is installed is the latest one. -/
theorem act_conn {a : ProtocolAct} (hs : p.act a = some p')
    (h : ∀ c, p.conn = some c → c = p.latest) : ∀ c, p'.conn = some c → c = p'.latest := by
  cases a with
  | callClose | callReconnect =>
    cases hs
    exact h
  | step t c =>
    obtain ⟨p₁, b, heff, hp⟩ := step_effect hs
    have hconn : ∀ c, p₁.conn = some c → c = p₁.latest := by
      intro c hc
      rcases heff.conn with ⟨hsame, hlat⟩ | hnone | hnew
      · rw [hlat]
        exact h c (hsame ▸ hc)
      · rw [hnone] at hc
        cases hc
      · rw [hnew] at hc
        exact (Option.some.inj hc).symm
    rcases hp with ⟨rfl, -⟩ | ⟨d, -, rfl⟩
    · exact hconn
    · exact hconn

end Protocol

/-! ## Ownership -/

/-- What holds of the reconnects of a client in a state `p` that a run `tr` reached. -/
structure Ownership (tr : List ProtocolStep) (p : Protocol) : Prop where
  /-- The flag is set exactly while a goroutine owns it. -/
  flag : p.isReconnecting = true ↔ ∃ t, (p.pc t).owns = true
  owner : ∀ t u, (p.pc t).owns = true → (p.pc u).owns = true → t = u
  /-- Only the owner clears it. -/
  hands_back : ∀ st ∈ tr, st.pre.isReconnecting = true → st.post.isReconnecting = false →
    ∃ t c, st.act = .step t c ∧ (st.pre.pc t).owns = true
  /-- Workers that run at the same time belong to one connection. -/
  connection : ∀ t u w v, (p.pc t).worker = some w → (p.pc u).worker = some v → w.conn = v.conn
  /-- If a worker of the current connection exited after a transport failure, an owner is
  active that has not replaced the connection. -/
  failure : ∀ t w, p.pc t = .exited w true → p.conn = some w.conn ∨ w.conn = p.latest →
    p.isClosing = false → ∃ u, (p.pc u).owns = true ∧ (p.pc u).replaced = false
  /-- After a `Close` has returned there is no worker, and none is started. -/
  closed : ∀ t u, p.pc t = .closed → (p.pc u).worker = none
  stays_closed : ∀ st ∈ tr, ∀ t, st.pre.pc t = .closed → ∀ u, (st.post.pc u).worker = none

/-- In every interleaving after a successful `NewClient`, reconnects have one owner. -/
theorem reconnect_ownership {tr : List ProtocolStep} {p : Protocol}
    (hrun : Machine.Run protocolMachine newClient tr p) : Ownership tr p := by
  have hinv := inv_of_run hrun
  have hconn : ∀ c, p.conn = some c → c = p.latest := by
    refine hrun.invariant (fun p => ∀ c, p.conn = some c → c = p.latest) ?_ ?_
    · rintro c hc
      exact (Option.some.inj hc).symm
    · exact fun q a hg h => act_conn (next_of_guard hg) h
  -- the invariant before and after a step of the run
  have hsteps : ∀ st ∈ tr, Inv st.pre ∧ Inv st.post ∧
      st.pre.act st.act = some st.post := by
    rintro ⟨pre, act, post⟩ hst
    obtain ⟨tr', hrun', hg, hpost, -⟩ := hrun.step_of_mem hst
    simp only at hpost hg
    have hact := next_of_guard hg
    have hpre := inv_of_run hrun'
    rw [← hpost] at hact
    exact ⟨hpre, hpre.act hact, hact⟩
  constructor
  · exact hinv.flag
  · exact hinv.owner
  · intro st hst hset hclear
    obtain ⟨hpre, hpost, hact⟩ := hsteps st hst
    obtain ⟨t, ht⟩ := hpre.flag.1 hset
    by_contra hnone
    -- an owner that does not move keeps the flag
    have hstay : st.post.pc t = st.pre.pc t := by
      refine act_other hact (fun c hc => hnone ⟨t, c, hc, ht⟩) (hpre.lt_spawned ?_)
      intro hidle
      rw [hidle] at ht
      cases ht
    rw [hpost.flag.2 ⟨t, by rw [hstay]; exact ht⟩] at hclear
    cases hclear
  · intro t u w v hw hv
    rw [hinv.current t w hw, hinv.current u v hv]
  · intro t w ht hcur hopen
    refine hinv.lost t w ht ?_ hopen
    rcases hcur with hc | hl
    · exact hconn w.conn hc
    · exact hl
  · intro t u ht
    exact (hinv.collected t u (by rw [ht]; rfl)).2
  · intro st hst t ht u
    obtain ⟨hpre, hpost, hact⟩ := hsteps st hst
    have hlt := hpre.lt_spawned (t := t) (by rw [ht]; exact Pc.noConfusion)
    have hstay : st.post.pc t = .closed := by
      rw [← ht]
      refine act_other hact (fun c hc => ?_) hlt
      -- a `Close` that returned makes no further step
      rw [hc] at hact
      simp [act, step, ht] at hact
    exact (hpost.collected t u (by rw [hstay]; rfl)).2

/-- A worker fails, and its reconnect installs a second connection; then the client is
closed. -/
def replaceAndClose : List ProtocolAct :=
  [.step 0 .go, .step 0 .fail, .step 0 .go, .step 0 .go, .step 3 .go, .step 3 .go, .step 1 .go,
    .step 1 .stop, .step 2 .go, .step 2 .stop, .step 3 .go, .step 3 .go, .step 3 .go, .step 3 .go,
    .step 3 .go, .step 3 .go, .step 3 (.message .ready), .step 3 .go, .step 3 .go, .step 3 .go,
    .step 3 .go, .step 3 .go, .step 3 .go, .step 3 .go, .step 3 .go, .step 3 .go, .callClose,
    .step 7 .go, .step 7 .go, .step 7 .go, .step 7 .go, .step 7 .go, .step 7 .go, .step 4 .go,
    .step 4 .stop, .step 5 .go, .step 5 .stop, .step 6 .go, .step 6 .stop, .step 7 .go, .step 7 .go,
    .step 7 .go, .step 7 .go]

/-- The workers of the second connection are gone. -/
theorem replaced_and_closed :
    (protocolMachine.exec newClient replaceAndClose).pc 7 = .closed ∧
      ∀ u, ((protocolMachine.exec newClient replaceAndClose).pc u).worker = none := by
  have hrun : Machine.Run protocolMachine newClient _
      (protocolMachine.exec newClient replaceAndClose) := Machine.run_exec _ (by decide +kernel)
  have hclosed : (protocolMachine.exec newClient replaceAndClose).pc 7 = .closed := by
    decide +kernel
  exact ⟨hclosed, fun u => (reconnect_ownership hrun).closed 7 u hclosed⟩

/-! ## The stop request -/

/-- The step clears `isStop` only while the client is not closing. -/
def ClearsOpen (p : Protocol) : ProtocolAct → Prop
  | .step t _ => ¬ (p.pc t = .clearStop ∧ p.isClosing = true)
  | _ => True

instance (p : Protocol) (a : ProtocolAct) : Decidable (ClearsOpen p a) := by
  cases a <;> unfold ClearsOpen <;> infer_instance

namespace Protocol

variable {p p₁ p' : Protocol} {t u : Nat} {a b : Pc}

/-- A `disconnect` that has set `isStop` finds it set. -/
def Stopped (p : Protocol) : Prop := ∀ t, (p.pc t).stopping = true → p.isStop = true

theorem Stopped.spawn (h : Stopped p) (hb : b.stopping = false) : Stopped (p.spawn b) := by
  intro u hu
  rw [spawn_pc] at hu
  split_ifs at hu
  · rw [hb] at hu
    cases hu
  · exact h u hu

/-- A `disconnect` is one of the owner or one of a closing client. -/
theorem owns_or_closing (h : a.stopping = true) : a.owns = true ∨ a.closing = true := by
  revert h
  unfold Pc.stopping
  split <;> simp

theorem Stopped.act (h : Stopped p) (hinv : Inv p) {a : ProtocolAct} (hs : p.act a = some p')
    (hclear : ClearsOpen p a) : Stopped p' := by
  cases a with
  | callClose | callReconnect =>
    cases hs
    exact h.spawn rfl
  | step t c =>
    obtain ⟨p₁, b, heff, hp⟩ := step_effect hs
    have hgoto : Stopped (p₁.goto t b) := by
      intro u hu
      show p₁.isStop = true
      rw [goto_pc, heff.pc] at hu
      rcases heff.isStop with ⟨hsame, hst⟩ | hset | ⟨hpc, hnot⟩
      · rw [hsame]
        split_ifs at hu
        · exact h t (hst hu)
        · exact h u hu
      · exact hset
      · -- the owner clears it: no other owner, and the client is not closing
        exfalso
        split_ifs at hu with hut
        · rw [hnot] at hu
          cases hu
        · rcases owns_or_closing hu with hown | hcl
          · exact hut (hinv.owner u t hown (by rw [hpc]; rfl))
          · exact hclear ⟨hpc, hinv.closing u hcl⟩
    rcases hp with ⟨rfl, -⟩ | ⟨d, hd, rfl⟩
    · exact hgoto
    · refine hgoto.spawn ?_
      cases hd <;> rfl

end Protocol

/-- In every interleaving in which no `Close` begins between the last check of `isClosing`
and the clearing of `isStop`, a stop request lasts until the workers are joined. -/
theorem stop_survives {tr : List ProtocolStep} {p : Protocol}
    (hrun : Machine.Run protocolMachine newClient tr p)
    (hclear : ∀ st ∈ tr, ClearsOpen st.pre st.act) :
    ∀ t, (p.pc t).stopping = true → p.isStop = true := by
  have hall := hrun.invariant_of ClearsOpen (fun p => Inv p ∧ Stopped p) ?_ ?_
    hclear
  · exact hall.2
  · refine ⟨inv_newClient, ?_⟩
    have hidle : Stopped { isStart := true, conn := some 1, latest := 1 } :=
      fun _ h => absurd h Bool.false_ne_true
    exact ((hidle.spawn rfl).spawn rfl).spawn rfl
  · rintro q a hg hc ⟨hinv, hst⟩
    have hact := next_of_guard hg
    exact ⟨hinv.act hact, hst.act hinv hact hc⟩

/-- A reconnect goroutine has passed its last check of `isClosing`. -/
def aboutToClear : List ProtocolAct :=
  [.callReconnect, .step 3 .go, .step 3 .go, .step 4 .go, .step 4 .go, .step 0 .go, .step 0 .stop,
    .step 1 .go, .step 1 .stop, .step 2 .go, .step 2 .stop, .step 4 .go, .step 4 .go, .step 4 .go,
    .step 4 .go, .step 4 .go, .step 4 .go, .step 4 (.message .ready), .step 4 .go]

/-- `Close` up to its wait for `connMutex`. -/
def closeUntilLock : List ProtocolAct :=
  [.callClose, .step 5 .go, .step 5 .go, .step 5 .go, .step 5 .go, .step 5 .go]

/-- If it clears `isStop` first, the stop request of `Close` is still there. -/
theorem stop_kept :
    let p := protocolMachine.exec newClient (aboutToClear ++ [.step 4 .go] ++ closeUntilLock)
    (p.pc 5).stopping = true ∧ p.isStop = true := by
  intro p
  have hrun : Machine.Run protocolMachine newClient _ p := Machine.run_exec _ (by decide +kernel)
  have hstop : (p.pc 5).stopping = true := by decide +kernel
  exact ⟨hstop, stop_survives hrun (by decide +kernel) 5 hstop⟩

/-- `Close` sets `isStop` and waits for the mutex; then the reconnect goroutine clears it. -/
theorem stop_cleared : ∃ tr p, Machine.Run protocolMachine newClient tr p ∧
    p.pc 5 = .closeLock ∧ p.isStop = false := by
  refine ⟨_, _, Machine.run_exec (aboutToClear ++ closeUntilLock ++ [.step 4 .go])
    (by decide +kernel), ?_⟩
  decide +kernel

end UspClient
