import UspClient.Budget.Model
import UspClient.Lib.Word

/-!
# A budget without groups (byte_budget.go)

`NewByteBudget` keeps one counter. A reservation adds to it when it fits or is forced, a
release takes off, and registration and `cancel` do nothing.
-/

namespace UspClient

open Function Word64

namespace ByteBudget

variable {bb : ByteBudget} {total m n x : Nat} {og : Option GroupId} {w : Option WaiterId}
variable {force : Bool}

/-- An ungrouped budget with its limit and its counter. -/
structure Legacy (bb : ByteBudget) (total used : Nat) : Prop where
  fair : bb.fair = false
  total : bb.total = total
  used : bb.used = used

theorem newByteBudget_legacy (total : Nat) : Legacy (newByteBudget total) total 0 := ⟨rfl, rfl, rfl⟩

theorem Legacy.register (h : Legacy bb total m) (key : String) :
    bb.register key = (bb, .ok none) := by
  unfold ByteBudget.register
  rw [h.fair]
  rfl

theorem Legacy.unregister (h : Legacy bb total m) (og : Option GroupId) : bb.unregister og = bb := by
  unfold ByteBudget.unregister unregisterLocked
  rw [h.fair]
  cases og <;> rfl

theorem Legacy.cancel (h : Legacy bb total m) (w : Option WaiterId) : bb.cancel w = bb := by
  unfold ByteBudget.cancel
  rw [h.fair]
  cases w <;> rfl

theorem wakeLegacy_legacy (h : Legacy bb total m) : Legacy bb.wakeLegacy total m := by
  unfold wakeLegacy
  cases bb.legacyWake with
  | none => exact h
  | some c => exact ⟨h.fair, h.total, h.used⟩

/-- A release of nothing returns at once, any other one wakes the waiters. -/
theorem releaseFor_legacy (hf : bb.fair = false) (n x : Nat) (og : Option GroupId) :
    bb.releaseFor n x og =
      if n = 0 then bb else (bb.setCounters (bb.used - min n bb.used) bb.escape).wakeLegacy := by
  have heq : bb.releaseLocked n x (group og) =
      bb.setCounters (bb.used - min n bb.used) bb.escape := by
    unfold releaseLocked
    rw [hf]
    rfl
  unfold releaseFor
  simp only [heq, setCounters_fair, hf, Bool.not_false, if_true]

theorem Legacy.release (h : Legacy bb total m) (hn : n ≤ m) (x : Nat) (og : Option GroupId) :
    Legacy (bb.releaseFor n x og) total (m - n) := by
  rw [releaseFor_legacy h.fair]
  split_ifs with hzero
  · rw [hzero, Nat.sub_zero]
    exact h
  · rw [h.used, min_eq_left hn]
    exact wakeLegacy_legacy ⟨h.fair, h.total, rfl⟩

theorem reserveFor_legacy (hf : bb.fair = false) (n : Nat) (force : Bool) (og : Option GroupId)
    (w : Option WaiterId) : bb.reserveFor n force og w = bb.reserveLegacy n force w := by
  unfold reserveFor
  rw [hf]
  rfl

/-- What a reservation does to the counter, and when it is an overshoot. -/
structure LegacyReserve (total m n : Nat) (force : Bool) (r : ByteBudget × Reservation) : Prop where
  counter : Legacy r.1 total (if r.2.ok then m + n else m)
  forced : r.2.overshot = true → force = true
  fits : r.2.ok = true → r.2.overshot = false → total ≠ 0 → m + n ≤ total

theorem Legacy.reserve (h : Legacy bb total m) (hsum : m + n < 2 ^ 64) (force : Bool)
    (og : Option GroupId) (w : Option WaiterId) :
    LegacyReserve total m n force (bb.reserveFor n force og w) := by
  rw [reserveFor_legacy h.fair]
  unfold reserveLegacy
  simp only
  split_ifs with hroom
  · -- charged, whether it fits or is forced
    refine ⟨⟨h.fair, h.total, ?_⟩, fun hover => ?_, fun _ hfits htotal => ?_⟩
    · show add64 bb.used n = m + n
      rw [h.used, add64_eq hsum]
    · have hno : decide (bb.total = 0 ∨ n ≤ bb.total ∧ bb.used ≤ bb.total - n) = false := by
        rw [← Bool.not_eq_true']
        exact hover
      rw [hno, Bool.false_or] at hroom
      exact hroom
    · have hyes : decide (bb.total = 0 ∨ n ≤ bb.total ∧ bb.used ≤ bb.total - n) = true := by
        rw [← Bool.not_eq_false']
        exact hfits
      rw [decide_eq_true_eq, h.total, h.used] at hyes
      omega
  · -- refused: only a channel and a waiter are made
    cases bb.legacyWake <;> cases w <;>
      exact ⟨⟨h.fair, h.total, h.used⟩, fun hover => absurd hover Bool.false_ne_true,
        fun hok => absurd hok Bool.false_ne_true⟩

/-- No waiter of an ungrouped budget is ever credited. -/
structure Uncredited (bb : ByteBudget) : Prop where
  fair : bb.fair = false
  credit : ∀ w, (bb.waiterAt w).credit = 0

theorem newByteBudget_uncredited (total : Nat) : Uncredited (newByteBudget total) :=
  ⟨rfl, fun _ => rfl⟩

/-- A release of an ungrouped budget writes to no waiter and to no group. -/
theorem releaseFor_legacy_same (hf : bb.fair = false) (n x : Nat) (og : Option GroupId) :
    (bb.releaseFor n x og).fair = false ∧ (bb.releaseFor n x og).waiterAt = bb.waiterAt ∧
      (bb.releaseFor n x og).groupAt = bb.groupAt := by
  rw [releaseFor_legacy hf]
  split_ifs with hzero
  · exact ⟨hf, rfl, rfl⟩
  unfold wakeLegacy
  rw [setCounters_legacyWake]
  cases bb.legacyWake with
  | none | some => exact ⟨hf, rfl, rfl⟩

theorem Uncredited.release (h : Uncredited bb) (n x : Nat) (og : Option GroupId) :
    Uncredited (bb.releaseFor n x og) := by
  rcases releaseFor_legacy_same h.fair n x og with ⟨hfair, hat, -⟩
  exact ⟨hfair, fun w => by rw [hat]; exact h.credit w⟩

theorem Uncredited.setWaiter (h : Uncredited bb) {v : WaiterId} {f : BudgetWaiter → BudgetWaiter}
    (hf : (f (bb.waiterAt v)).credit = 0) : Uncredited (bb.setWaiter v f) := by
  refine ⟨h.fair, fun u => ?_⟩
  rw [setWaiter_waiterAt]
  rcases eq_or_ne u v with rfl | hu
  · rw [update_self]
    exact hf
  · rw [update_of_ne hu]
    exact h.credit u

theorem Uncredited.reserve (h : Uncredited bb) (n : Nat) (force : Bool) (og : Option GroupId)
    (w : Option WaiterId) : Uncredited (bb.reserveFor n force og w).1 := by
  rw [reserveFor_legacy h.fair]
  unfold reserveLegacy
  simp only
  split_ifs
  · exact ⟨h.fair, h.credit⟩
  · -- a channel may be made, and a waiter without credit
    have hmake : ∀ x : ByteBudget, Uncredited x → ∀ m, Uncredited
        { (x.setWaiter x.nextWaiter fun _ => {}) with nextWaiter := m } := fun x hx m => by
      have hset := hx.setWaiter (v := x.nextWaiter) (f := fun _ => {}) rfl
      exact ⟨hset.fair, hset.credit⟩
    have hwake : ∀ x : ByteBudget, Uncredited x → ∀ v c, Uncredited
        (x.setWaiter v fun y => { y with wake := some c }) := fun x hx v c =>
      hx.setWaiter (hx.credit v)
    have hchan : Uncredited { bb.makeChan with legacyWake := some bb.nextChan } :=
      ⟨h.fair, h.credit⟩
    cases bb.legacyWake <;> cases w
    · exact hwake _ (hmake _ hchan _) _ _
    · exact hwake _ hchan _ _
    · exact hwake _ (hmake _ h _) _ _
    · exact hwake _ h _ _

/-- An ungrouped budget queues no one. -/
structure Queueless (bb : ByteBudget) : Prop where
  fair : bb.fair = false
  queue : ∀ g, (bb.groupAt g).waiters = []

theorem newByteBudget_queueless (total : Nat) : Queueless (newByteBudget total) :=
  ⟨rfl, fun _ => rfl⟩

theorem Queueless.release (h : Queueless bb) (n x : Nat) (og : Option GroupId) :
    Queueless (bb.releaseFor n x og) := by
  rcases releaseFor_legacy_same h.fair n x og with ⟨hfair, -, hgroups⟩
  exact ⟨hfair, fun g => by rw [hgroups]; exact h.queue g⟩

theorem Queueless.reserve (h : Queueless bb) (n : Nat) (force : Bool) (og : Option GroupId)
    (w : Option WaiterId) : Queueless (bb.reserveFor n force og w).1 := by
  rw [reserveFor_legacy h.fair]
  unfold reserveLegacy
  simp only
  split_ifs
  · exact ⟨h.fair, h.queue⟩
  · cases bb.legacyWake <;> cases w <;> exact ⟨h.fair, h.queue⟩

/-! ## Waiting -/

/-- `n` bytes fit. -/
def LegacyRoom (bb : ByteBudget) (n : Nat) : Prop :=
  bb.total = 0 ∨ (n ≤ bb.total ∧ bb.used ≤ bb.total - n)

/-- What a call means to those who wait: their channel is closed, or there is no more room than
before. -/
structure Heard (bb s : ByteBudget) : Prop where
  fair : s.fair = bb.fair
  total : s.total = bb.total
  closed : ∀ c, bb.closed c = true → s.closed c = true
  wake : ∀ c, bb.legacyWake = some c →
    s.closed c = true ∨ (s.legacyWake = some c ∧ bb.used ≤ s.used)

theorem Heard.refl (bb : ByteBudget) : Heard bb bb :=
  ⟨rfl, rfl, fun _ hc => hc, fun _ hc => .inr ⟨hc, le_rfl⟩⟩

theorem Heard.trans {s t : ByteBudget} (h₁ : Heard bb s) (h₂ : Heard s t) : Heard bb t := by
  refine ⟨h₂.fair.trans h₁.fair, h₂.total.trans h₁.total, fun c hc => h₂.closed c (h₁.closed c hc),
    fun c hc => ?_⟩
  rcases h₁.wake c hc with hclosed | ⟨hwake, hle⟩
  · exact .inl (h₂.closed c hclosed)
  · exact (h₂.wake c hwake).imp_right fun ⟨hwake', hle'⟩ => ⟨hwake', hle.trans hle'⟩

/-- A release wakes everybody. -/
theorem heard_release (hf : bb.fair = false) (n x : Nat) (og : Option GroupId) :
    Heard bb (bb.releaseFor n x og) := by
  rw [releaseFor_legacy hf]
  split_ifs
  · exact Heard.refl bb
  unfold wakeLegacy
  rw [setCounters_legacyWake]
  cases hw : bb.legacyWake with
  | none =>
    exact ⟨rfl, rfl, fun _ hc => hc, fun c hc => absurd (hw.symm.trans hc).symm (Option.some_ne_none c)⟩
  | some k =>
    refine ⟨rfl, rfl, fun c hc => ?_, fun c hc => .inl ?_⟩
    · show update bb.closed k true c = true
      rw [update_apply, hc, ite_self]
    · obtain rfl := Option.some.inj (hw.symm.trans hc)
      exact update_self _ _ _

/-- A reservation adds to the counter, and a refusal keeps the channel. -/
theorem heard_reserve (hf : bb.fair = false) (hsum : bb.used + n < 2 ^ 64) (force : Bool)
    (og : Option GroupId) (w : Option WaiterId) : Heard bb (bb.reserveFor n force og w).1 := by
  rw [reserveFor_legacy hf]
  unfold reserveLegacy
  simp only
  split_ifs
  · refine ⟨rfl, rfl, fun _ hc => hc, fun c hc => .inr ⟨hc, ?_⟩⟩
    show bb.used ≤ add64 bb.used n
    rw [add64_eq hsum]
    exact Nat.le_add_right _ _
  · cases hw : bb.legacyWake with
    | none =>
      have hno : ∀ c, bb.legacyWake ≠ some c := fun c hc => Option.some_ne_none c (hc.symm.trans hw)
      cases w <;> exact ⟨rfl, rfl, fun _ hc => hc, fun c hc => absurd hc (hno c)⟩
    | some k => cases w <;> exact ⟨rfl, rfl, fun _ hc => hc, fun c hc => .inr ⟨hc, le_rfl⟩⟩

/-- A refused request does not fit, and waits on the channel of the budget. -/
theorem legacy_refused (hf : bb.fair = false)
    (hno : (bb.reserveFor n force og w).2.ok = false) : ∃ v c,
      (bb.reserveFor n force og w).2.waiter = some v ∧
      ((bb.reserveFor n force og w).1.waiterAt v).wake = some c ∧
      (bb.reserveFor n force og w).1.legacyWake = some c ∧
      ¬ (bb.reserveFor n force og w).1.LegacyRoom n := by
  rw [reserveFor_legacy hf] at hno ⊢
  unfold reserveLegacy at hno ⊢
  simp only at hno ⊢
  split_ifs at hno ⊢ with hroom
  rw [Bool.or_eq_true, decide_eq_true_eq, not_or] at hroom
  have hset : ∀ (x : ByteBudget) (v : WaiterId) (c : ChanId),
      ((x.setWaiter v fun y => { y with wake := some c }).waiterAt v).wake = some c := by
    intro x v c
    rw [setWaiter_waiterAt, update_self]
  cases hw : bb.legacyWake with
  | none => cases w <;> exact ⟨_, _, rfl, hset _ _ _, rfl, hroom.1⟩
  | some c => cases w <;> exact ⟨_, _, rfl, hset _ _ _, hw, hroom.1⟩

/-- A request that does not fit is refused. -/
theorem legacy_refuses (hf : bb.fair = false) (hno : ¬ bb.LegacyRoom n) (og : Option GroupId)
    (w : Option WaiterId) : (bb.reserveFor n false og w).2.ok = false := by
  rw [reserveFor_legacy hf]
  unfold reserveLegacy
  simp only
  rw [if_neg]
  rw [Bool.or_false, decide_eq_true_eq]
  exact hno

end ByteBudget

end UspClient
