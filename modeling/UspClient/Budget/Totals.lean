import Mathlib.Algebra.BigOperators.Group.Finset.Basic
import Mathlib.Algebra.Order.BigOperators.Group.Finset
import UspClient.Budget.Index

/-!
# The byte counters of a fair budget

`Totals bb bal pend` says that the counters of the budget are exactly those of a
ledger: group `g` holds `bal g` bytes and has `pend g` pending waiters, the
budget's `used` is the sum, and `active` counts the groups that hold or wait.
`Escapes bb esc` is the same for the escape bytes. The two are separate on
purpose: the byte ledger does not depend on the escape ledger being right.
-/

namespace UspClient

open Function Word64

namespace ByteBudget

variable {bb s t : ByteBudget} {g h : GroupId} {n : Nat} {bal pend esc : GroupId → Nat}

/-! ## What the counter operations touch -/

/-- `s` differs from `bb` only in counters and in the counters of group `g`. -/
structure Touches (bb s : ByteBudget) (g : GroupId) : Prop where
  index : SameIndex bb s
  other : ∀ h, h ≠ g → s.groupAt h = bb.groupAt h
  queue : (s.groupAt g).waiters = (bb.groupAt g).waiters
  waiterAt : s.waiterAt = bb.waiterAt
  fair : s.fair = bb.fair
  total : s.total = bb.total
  reserve : s.reserve = bb.reserve
  minGroup : s.minGroup = bb.minGroup
  nextGroup : s.nextGroup = bb.nextGroup
  nextWaiter : s.nextWaiter = bb.nextWaiter
  closed : s.closed = bb.closed
  nextChan : s.nextChan = bb.nextChan
  legacyWake : s.legacyWake = bb.legacyWake

theorem Touches.refl (bb : ByteBudget) (g : GroupId) : Touches bb bb g :=
  ⟨⟨rfl, rfl, rfl, fun _ => ⟨rfl, rfl, rfl⟩⟩, fun _ _ => rfl, rfl, rfl, rfl, rfl, rfl, rfl, rfl, rfl,
    rfl, rfl, rfl⟩

/-- Neither of two changes of counters moves the index. -/
theorem SameIndex.trans (h₁ : SameIndex bb s) (h₂ : SameIndex s t) : SameIndex bb t := by
  refine ⟨h₂.waiting.trans h₁.waiting, h₂.reserveReady.trans h₁.reserveReady,
    h₂.blocked.trans h₁.blocked, ?_⟩
  intro h
  obtain ⟨a₁, b₁, c₁⟩ := h₁.flags h
  obtain ⟨a₂, b₂, c₂⟩ := h₂.flags h
  exact ⟨a₂.trans a₁, b₂.trans b₁, c₂.trans c₁⟩

theorem Touches.trans (h₁ : Touches bb s g) (h₂ : Touches s t g) : Touches bb t g :=
  ⟨h₁.index.trans h₂.index, fun h hh => (h₂.other h hh).trans (h₁.other h hh),
    h₂.queue.trans h₁.queue, h₂.waiterAt.trans h₁.waiterAt, h₂.fair.trans h₁.fair,
    h₂.total.trans h₁.total, h₂.reserve.trans h₁.reserve, h₂.minGroup.trans h₁.minGroup,
    h₂.nextGroup.trans h₁.nextGroup, h₂.nextWaiter.trans h₁.nextWaiter, h₂.closed.trans h₁.closed,
    h₂.nextChan.trans h₁.nextChan, h₂.legacyWake.trans h₁.legacyWake⟩

/-- A write to the counters of one group. -/
theorem touches_setGroup {f : BudgetGroup → BudgetGroup}
    (hw : ∀ x, (f x).waiters = x.waiters)
    (hf : ∀ x, (f x).allElem = x.allElem ∧ (f x).reserveElem = x.reserveElem ∧
      (f x).heapIndex = x.heapIndex) : Touches bb (bb.setGroup g f) g := by
  refine ⟨⟨rfl, rfl, rfl, ?_⟩, ?_, ?_, rfl, rfl, rfl, rfl, rfl, rfl, rfl, rfl, rfl, rfl⟩
  · intro h
    simp only [setGroup_groupAt, update_apply]
    split_ifs with hh
    · rw [hh]
      exact hf _
    · exact ⟨rfl, rfl, rfl⟩
  · intro h hh
    simp [hh]
  · simp [hw]

/-- `s` is `bb` with other budget-wide counters. -/
theorem touches_of_eq (hat : s.groupAt = bb.groupAt) (hw : s.waiting = bb.waiting)
    (hr : s.reserveReady = bb.reserveReady) (hb : s.blocked = bb.blocked)
    (hwa : s.waiterAt = bb.waiterAt) (hf : s.fair = bb.fair) (ht : s.total = bb.total)
    (hres : s.reserve = bb.reserve) (hm : s.minGroup = bb.minGroup)
    (hng : s.nextGroup = bb.nextGroup) (hnw : s.nextWaiter = bb.nextWaiter)
    (hc : s.closed = bb.closed) (hnc : s.nextChan = bb.nextChan)
    (hl : s.legacyWake = bb.legacyWake) : Touches bb s g :=
  ⟨⟨hw, hr, hb, fun h => by rw [hat]; exact ⟨rfl, rfl, rfl⟩⟩, fun h _ => by rw [hat],
    by rw [hat], hwa, hf, ht, hres, hm, hng, hnw, hc, hnc, hl⟩

theorem touches_setCounters (bb : ByteBudget) (g : GroupId) (used escape : Nat) :
    Touches bb (bb.setCounters used escape) g := by
  apply touches_of_eq <;> rfl

theorem touches_setActive (bb : ByteBudget) (g : GroupId) (active : Nat) :
    Touches bb (bb.setActive active) g := by
  apply touches_of_eq <;> rfl

theorem touches_setGroups (bb : ByteBudget) (g : GroupId) (groups : String → Option GroupId) :
    Touches bb (bb.setGroups groups) g := by
  apply touches_of_eq <;> rfl

theorem touches_pushCharge (bb : ByteBudget) (g : GroupId) (c : Charge) :
    Touches bb (bb.pushCharge c) g := by
  apply touches_of_eq <;> rfl

theorem activateLocked_touches (bb : ByteBudget) (g : GroupId) :
    Touches bb (bb.activateLocked g) g := by
  unfold activateLocked
  simp only
  split_ifs
  · exact Touches.refl bb g
  · exact Touches.refl bb g
  all_goals
    refine Touches.trans ?_ (touches_setActive _ g _)
    exact touches_setGroup (by intro x; rfl) (by intro x; exact ⟨rfl, rfl, rfl⟩)

theorem unregisterLocked_touches (bb : ByteBudget) (g : GroupId) :
    Touches bb (bb.unregisterLocked g) g := by
  have hset : Touches bb (bb.setGroup g fun x => { x with refs := sub64 x.refs 1 }) g :=
    touches_setGroup (by intro x; rfl) (by intro x; exact ⟨rfl, rfl, rfl⟩)
  unfold unregisterLocked
  simp only
  split_ifs
  · exact Touches.refl bb g
  · exact hset.trans (touches_setGroups _ g _)
  · exact hset

theorem addCharge_touches (bb : ByteBudget) (n : Nat) (g : GroupId) (escape : Bool) :
    Touches bb (bb.addCharge n g escape) g := by
  refine Touches.trans ?_ (touches_setCounters _ g _ _)
  exact touches_setGroup (by intro x; rfl) (by intro x; exact ⟨rfl, rfl, rfl⟩)

/-- A charge touches the counters of its group. -/
theorem charge_touches (bb : ByteBudget) (n : Nat) (g : GroupId) (escape : Bool) :
    Touches bb (bb.charge n g escape) g := by
  unfold charge
  split_ifs
  · exact touches_setCounters bb g _ _
  · refine Touches.trans ?_ (activateLocked_touches _ g)
    exact (addCharge_touches bb n g escape).trans (touches_pushCharge _ g _)

theorem subCharge_touches (bb : ByteBudget) (n escape : Nat) (g : GroupId) :
    Touches bb (bb.subCharge n escape g) g := by
  refine Touches.trans ?_ (touches_setCounters _ g _ _)
  exact touches_setGroup (by intro x; rfl) (by intro x; exact ⟨rfl, rfl, rfl⟩)

/-- So does a release. -/
theorem releaseLocked_touches (bb : ByteBudget) (n escape : Nat) (g : GroupId) :
    Touches bb (bb.releaseLocked n escape g) g := by
  unfold releaseLocked
  split_ifs
  · exact touches_setCounters bb g _ _
  · exact (subCharge_touches bb _ escape g).trans (activateLocked_touches _ g)

theorem settle_touches (bb : ByteBudget) (g : GroupId) : Touches bb (bb.settle g) g := by
  unfold settle
  refine Touches.trans ?_ (unregisterLocked_touches _ g)
  refine Touches.trans ?_ (activateLocked_touches _ g)
  exact touches_setGroup (by intro x; rfl) (by intro x; exact ⟨rfl, rfl, rfl⟩)

/-- The need of another group stays. -/
theorem Touches.groupNeed (ht : Touches bb s g) (hh : h ≠ g) : s.groupNeed h = bb.groupNeed h := by
  unfold ByteBudget.groupNeed
  rw [ht.other h hh, ht.waiterAt]

theorem Touches.waiters (ht : Touches bb s g) (h : GroupId) :
    (s.groupAt h).waiters = (bb.groupAt h).waiters := by
  by_cases hh : h = g
  · rw [hh]
    exact ht.queue
  · rw [ht.other h hh]

/-- A counter operation on `g` leaves the index off at most at `g`. -/
theorem Index.off_touches (hi : Index bb) (ht : Touches bb s g) : IndexOff s g :=
  hi.off ht.index (fun h _ => ht.waiters h) (fun _ hh _ => ht.groupNeed hh)

/-- A counter operation on a group without a queue keeps the index. -/
theorem Index.of_touches (hi : Index bb) (ht : Touches bb s g)
    (hq : (bb.groupAt g).waiters = []) : Index s := by
  refine hi.of_same ht.index ht.waiters ?_
  intro h hh
  refine ht.groupNeed ?_
  rintro rfl
  rw [ht.queue] at hh
  exact hh hq

/-! ## Totals -/

/-- The groups that hold bytes or have pending waiters. -/
def busy (bb : ByteBudget) (bal pend : GroupId → Nat) : Finset GroupId :=
  (Finset.range bb.nextGroup).filter fun g => bal g ≠ 0 ∨ pend g ≠ 0

/-- The byte counters agree with the ledger, except for the activity of groups
outside `clean`. -/
structure TotalsOff (bb : ByteBudget) (bal pend : GroupId → Nat) (clean : GroupId → Prop) :
    Prop where
  group_used : ∀ g, (bb.groupAt g).used = bal g
  group_pending : ∀ g, (bb.groupAt g).pending = pend g
  used : bb.used = ∑ g ∈ Finset.range bb.nextGroup, bal g
  bound : bb.used < 2 ^ 64
  support : ∀ g, bb.nextGroup ≤ g → bal g = 0 ∧ pend g = 0
  flag : ∀ g, clean g → (bb.groupAt g).active = decide (bal g ≠ 0 ∨ pend g ≠ 0)
  active : bb.active = ((Finset.range bb.nextGroup).filter fun g => (bb.groupAt g).active).card
  small : (bb.busy bal pend).card < 2 ^ 64
  pend_bound : ∀ g, pend g < 2 ^ 64

/-- The byte counters agree with the ledger. -/
def Totals (bb : ByteBudget) (bal pend : GroupId → Nat) : Prop :=
  TotalsOff bb bal pend fun _ => True

/-- The active groups are those that hold or wait. -/
theorem Totals.active_eq (ht : Totals bb bal pend) : bb.active = (bb.busy bal pend).card := by
  rw [TotalsOff.active ht]
  congr 1
  unfold busy
  refine Finset.filter_congr ?_
  intro g _
  rw [TotalsOff.flag ht g trivial]
  simp

theorem TotalsOff.congr {clean : GroupId → Prop} (ht : TotalsOff bb bal pend clean)
    (hu : s.used = bb.used) (ha : s.active = bb.active) (hn : s.nextGroup = bb.nextGroup)
    (hg : ∀ g, (s.groupAt g).used = (bb.groupAt g).used ∧
      (s.groupAt g).pending = (bb.groupAt g).pending ∧
      (s.groupAt g).active = (bb.groupAt g).active) : TotalsOff s bal pend clean := by
  refine ⟨?_, ?_, ?_, ?_, ?_, ?_, ?_, ?_, ht.pend_bound⟩
  · intro g
    rw [(hg g).1]
    exact ht.group_used g
  · intro g
    rw [(hg g).2.1]
    exact ht.group_pending g
  · rw [hu, hn]
    exact ht.used
  · rw [hu]
    exact ht.bound
  · rw [hn]
    exact ht.support
  · intro g hc
    rw [(hg g).2.2]
    exact ht.flag g hc
  · rw [ha, hn, ht.active]
    congr 1
    refine Finset.filter_congr ?_
    intro g _
    rw [(hg g).2.2]
  · unfold busy
    rw [hn]
    exact ht.small

/-- The first index that no group has becomes a group without bytes. -/
theorem Totals.fresh (ht : Totals bb bal pend) (hu : s.used = bb.used) (ha : s.active = bb.active)
    (hn : s.nextGroup = bb.nextGroup + 1)
    (hg : ∀ g, (s.groupAt g).used = (bb.groupAt g).used ∧
      (s.groupAt g).pending = (bb.groupAt g).pending ∧
      (s.groupAt g).active = (bb.groupAt g).active) : Totals s bal pend := by
  rcases TotalsOff.support ht bb.nextGroup le_rfl with ⟨hb0, hp0⟩
  have hidle : (bb.groupAt bb.nextGroup).active = false := by
    rw [TotalsOff.flag ht bb.nextGroup trivial, hb0, hp0]
    rfl
  refine ⟨?_, ?_, ?_, ?_, ?_, ?_, ?_, ?_, TotalsOff.pend_bound ht⟩
  · intro g
    rw [(hg g).1]
    exact TotalsOff.group_used ht g
  · intro g
    rw [(hg g).2.1]
    exact TotalsOff.group_pending ht g
  · rw [hu, hn, Finset.sum_range_succ, hb0, Nat.add_zero]
    exact TotalsOff.used ht
  · rw [hu]
    exact TotalsOff.bound ht
  · intro g hle
    rw [hn] at hle
    exact TotalsOff.support ht g (le_trans (Nat.le_succ _) hle)
  · intro g _
    rw [(hg g).2.2]
    exact TotalsOff.flag ht g trivial
  · rw [ha, hn, TotalsOff.active ht, Finset.range_add_one, Finset.filter_insert]
    rw [if_neg (by rw [(hg _).2.2, hidle]; exact Bool.false_ne_true)]
    congr 1
    refine Finset.filter_congr ?_
    intro g _
    rw [(hg g).2.2]
  · unfold busy
    rw [hn, Finset.range_add_one, Finset.filter_insert, if_neg (by simp [hb0, hp0])]
    exact TotalsOff.small ht

theorem Totals.of_core (ht : Totals bb bal pend) (hc : s.core = bb.core) : Totals s bal pend := by
  have h₁ := congrArg (fun x : ByteBudget => x.used) hc
  have h₂ := congrArg (fun x : ByteBudget => x.active) hc
  have h₃ := congrArg (fun x : ByteBudget => x.nextGroup) hc
  refine TotalsOff.congr ht h₁ h₂ h₃ ?_
  intro g
  have h₄ := congrArg (fun x : ByteBudget => (x.groupAt g).used) hc
  have h₅ := congrArg (fun x : ByteBudget => (x.groupAt g).pending) hc
  have h₆ := congrArg (fun x : ByteBudget => (x.groupAt g).active) hc
  exact ⟨h₄, h₅, h₆⟩

/-- `activateLocked g` recounts the activity of `g`. -/
theorem activateLocked_totals (hf : bb.fair = true) (hg : g < bb.nextGroup)
    (ht : TotalsOff bb bal pend (· ≠ g)) : Totals (bb.activateLocked g) bal pend := by
  have hu := ht.group_used g
  have hp := ht.group_pending g
  obtain ⟨a, hadef⟩ : ∃ a, a = decide (bal g ≠ 0 ∨ pend g ≠ 0) := ⟨_, rfl⟩
  obtain ⟨k, hk⟩ : ∃ k, ((Finset.range bb.nextGroup).filter fun h =>
      h ≠ g ∧ (bb.groupAt h).active = true).card = k := ⟨_, rfl⟩
  have hmem : g ∈ Finset.range bb.nextGroup := Finset.mem_range.2 hg
  -- the count without `g`, plus one if `g` is flagged
  have hcount : ∀ f : GroupId → Bool, (∀ h, h ≠ g → f h = (bb.groupAt h).active) →
      ((Finset.range bb.nextGroup).filter fun h => f h).card = k + if f g then 1 else 0 := by
    intro f hf'
    have hsplit : ((Finset.range bb.nextGroup).filter fun h => f h) =
        ((Finset.range bb.nextGroup).filter fun h => h ≠ g ∧ (bb.groupAt h).active = true) ∪
          (if f g then {g} else ∅) := by
      ext h
      by_cases hh : h = g
      · subst hh
        by_cases hfg : f h <;> simp [hfg, hg]
      · by_cases hfg : f g <;> simp [hfg, hh, hf' h hh]
    have hdisj : Disjoint ((Finset.range bb.nextGroup).filter fun h =>
        h ≠ g ∧ (bb.groupAt h).active = true) (if f g then {g} else ∅) := by
      rw [Finset.disjoint_left]
      intro h hh
      have := (Finset.mem_filter.1 hh).2.1
      split_ifs <;> simp [this]
    rw [hsplit, Finset.card_union_of_disjoint hdisj, hk]
    split_ifs <;> simp
  have hold : bb.active = k + if (bb.groupAt g).active then 1 else 0 := by
    rw [ht.active]
    exact hcount _ fun _ _ => rfl
  have hbusy : (bb.busy bal pend).card = k + if a then 1 else 0 := by
    have := hcount (fun h => decide (bal h ≠ 0 ∨ pend h ≠ 0)) fun h hh => (ht.flag h hh).symm
    rw [hadef]
    rw [← this]
    unfold busy
    congr 1
    refine Finset.filter_congr ?_
    intro h _
    simp
  have hsmall := ht.small
  have hgoal : ∀ act : Nat, act = k + (if a then 1 else 0) →
      Totals ((bb.setGroup g fun x => { x with active := a }).setActive act) bal pend := by
    intro act hact
    refine ⟨?_, ?_, ht.used, ht.bound, ht.support, ?_, ?_, ht.small, ht.pend_bound⟩
    · intro h
      by_cases hh : h = g
      · rw [hh]
        simpa using hu
      · simpa [hh] using ht.group_used h
    · intro h
      by_cases hh : h = g
      · rw [hh]
        simpa using hp
      · simpa [hh] using ht.group_pending h
    · intro h _
      by_cases hh : h = g
      · rw [hh, ← hadef]
        simp
      · simpa [hh] using ht.flag h hh
    · have := hcount (fun h => (update bb.groupAt g
        { bb.groupAt g with active := a } h).active) (by intro h hh; simp [hh])
      rw [update_self] at this
      simp only [hact]
      exact this.symm
  unfold activateLocked
  simp only [hf, hu, hp, ← hadef]
  rw [if_neg (by simp)]
  split_ifs with hsame ha
  · -- nothing to recount
    have hid : (bb.setGroup g fun x => { x with active := a }).setActive bb.active = bb := by
      unfold setGroup setActive
      rw [hsame, update_eq_self]
    have := hgoal bb.active (by rw [hold, hsame])
    rwa [hid] at this
  · refine hgoal _ ?_
    have hflag : (bb.groupAt g).active = false := by
      rw [ha] at hsame
      simpa using Ne.symm hsame
    rw [hbusy, if_pos ha] at hsmall
    rw [hflag] at hold
    simp only [Bool.false_eq_true, if_false, Nat.add_zero] at hold
    rw [if_pos ha, hold, add64_eq hsmall]
  · refine hgoal _ ?_
    have hflag : (bb.groupAt g).active = true := by
      rw [Bool.not_eq_true] at ha
      rw [ha] at hsame
      simpa using Ne.symm hsame
    rw [hbusy, if_neg ha] at hsmall
    rw [hflag] at hold
    simp only [if_true] at hold
    rw [if_neg ha, hold]
    unfold sub64
    omega

/-- A group uses no more than all do. -/
theorem Totals.le_used (ht : Totals bb bal pend) (g : GroupId) : bal g ≤ bb.used := by
  rcases Nat.lt_or_ge g bb.nextGroup with hg | hg
  · rw [TotalsOff.used ht]
    exact Finset.single_le_sum (f := bal) (fun _ _ => Nat.zero_le _) (Finset.mem_range.2 hg)
  · rw [(TotalsOff.support ht g hg).1]
    exact Nat.zero_le _

theorem busy_mono {bal' pend' : GroupId → Nat} (hn : s.nextGroup = bb.nextGroup)
    (h : ∀ g, (bal' g ≠ 0 ∨ pend' g ≠ 0) → bal g ≠ 0 ∨ pend g ≠ 0) :
    (s.busy bal' pend').card ≤ (bb.busy bal pend).card := by
  refine Finset.card_le_card ?_
  intro g hg
  rw [busy, Finset.mem_filter, hn] at hg
  rw [busy, Finset.mem_filter]
  exact ⟨hg.1, h g hg.2⟩

/-- A change at `g` makes at most `g` busy. -/
theorem busy_off_subset {bal' pend' : GroupId → Nat} (hb : ∀ h, h ≠ g → bal' h = bal h)
    (hp : ∀ h, h ≠ g → pend' h = pend h) : bb.busy bal' pend' ⊆ insert g (bb.busy bal pend) := by
  intro h hh
  rw [busy, Finset.mem_filter] at hh
  rw [Finset.mem_insert, busy, Finset.mem_filter]
  rcases eq_or_ne h g with rfl | hne
  · exact Or.inl rfl
  · rw [hb h hne, hp h hne] at hh
    exact Or.inr hh

/-- Changing the counters of group `g` before its activity is recounted. -/
theorem Totals.off_set (ht : Totals bb bal pend) (hg : g < bb.nextGroup) {b p : Nat}
    (hn : s.nextGroup = bb.nextGroup) (ha : s.active = bb.active)
    (hother : ∀ h, h ≠ g → s.groupAt h = bb.groupAt h)
    (hu : (s.groupAt g).used = b) (hp : (s.groupAt g).pending = p)
    (hact : (s.groupAt g).active = (bb.groupAt g).active)
    (hused : s.used + bal g = bb.used + b) (hbound : s.used < 2 ^ 64) (hpb : p < 2 ^ 64)
    (hsmall : (bb.busy (update bal g b) (update pend g p)).card < 2 ^ 64) :
    TotalsOff s (update bal g b) (update pend g p) (· ≠ g) := by
  refine ⟨?_, ?_, ?_, hbound, ?_, ?_, ?_, ?_, ?_⟩
  · intro h
    by_cases hh : h = g
    · rw [hh, update_self, hu]
    · rw [update_of_ne hh, hother h hh]
      exact TotalsOff.group_used ht h
  · intro h
    by_cases hh : h = g
    · rw [hh, update_self, hp]
    · rw [update_of_ne hh, hother h hh]
      exact TotalsOff.group_pending ht h
  · -- the sum moves by what the group moved by
    have hsum := Slice.sum_update_add hg bal b
    rw [← TotalsOff.used ht] at hsum
    rw [hn]
    omega
  · intro h hh
    rw [hn] at hh
    have hne : h ≠ g := (lt_of_lt_of_le hg hh).ne'
    rw [update_of_ne hne, update_of_ne hne]
    exact TotalsOff.support ht h hh
  · intro h hh
    rw [update_of_ne hh, update_of_ne hh, hother h hh]
    exact TotalsOff.flag ht h trivial
  · rw [ha, hn, TotalsOff.active ht]
    congr 1
    refine Finset.filter_congr ?_
    intro h _
    by_cases hh : h = g
    · rw [hh, hact]
    · rw [hother h hh]
  · unfold busy at hsmall ⊢
    rw [hn]
    exact hsmall
  · intro h
    by_cases hh : h = g
    · rw [hh, update_self]
      exact hpb
    · rw [update_of_ne hh]
      exact TotalsOff.pend_bound ht h

/-- A charge is counted for the group and in total. -/
theorem charge_totals (hf : bb.fair = true) (hg : g < bb.nextGroup) (ht : Totals bb bal pend)
    (hsum : bb.used + n < 2 ^ 64) (escape : Bool)
    (hsmall : (bb.busy (update bal g (bal g + n)) pend).card < 2 ^ 64) :
    Totals (bb.charge n g escape) (update bal g (bal g + n)) pend := by
  have hle := ht.le_used g
  have hgu := TotalsOff.group_used ht g
  have hgp := TotalsOff.group_pending ht g
  have hcharge : bb.charge n g escape =
      ((bb.addCharge n g escape).pushCharge (bb.chargeRecord n g escape)).activateLocked g := by
    unfold charge
    simp [hf]
  rw [hcharge]
  refine activateLocked_totals hf hg ?_
  have hpend : pend = update pend g (pend g) := (update_eq_self g pend).symm
  have hu : ((bb.addCharge n g escape).groupAt g).used = bal g + n := by
    unfold addCharge
    simp only [setCounters_groupAt, setGroup_groupAt, update_self]
    rw [hgu, add64_eq (by omega)]
  have hus : (bb.addCharge n g escape).used = bb.used + n := by
    unfold addCharge
    rw [setCounters_used, add64_eq hsum]
  rw [hpend]
  refine ht.off_set (s := (bb.addCharge n g escape).pushCharge _) hg rfl rfl ?_ hu ?_ ?_ ?_ ?_ ?_ ?_
  · intro h hh
    simp [addCharge, hh]
  · simp [addCharge, hgp]
  · simp [addCharge]
  · rw [pushCharge_used, hus]
    omega
  · rw [pushCharge_used, hus]
    exact hsum
  · exact TotalsOff.pend_bound ht g
  · rw [← hpend]
    exact hsmall

/-- A release is counted twice as well. -/
theorem releaseLocked_totals (hf : bb.fair = true) (hg : g < bb.nextGroup)
    (ht : Totals bb bal pend) (hn : n ≤ bal g) (escape : Nat) :
    Totals (bb.releaseLocked n escape g) (update bal g (bal g - n)) pend := by
  have hle := ht.le_used g
  have hgu := TotalsOff.group_used ht g
  have hgp := TotalsOff.group_pending ht g
  have hb := TotalsOff.bound ht
  have hrel : bb.releaseLocked n escape g = (bb.subCharge n escape g).activateLocked g := by
    unfold releaseLocked
    rw [if_neg (by simp [hf]), hgu, min_eq_left hn, min_eq_left (by omega)]
  rw [hrel]
  refine activateLocked_totals hf hg ?_
  have hpend : pend = update pend g (pend g) := (update_eq_self g pend).symm
  rw [hpend]
  refine ht.off_set (s := bb.subCharge n escape g) hg rfl rfl ?_ ?_ ?_ ?_ ?_ ?_ ?_ ?_
  · intro h hh
    simp [subCharge, hh]
  · simp [subCharge, hgu]
  · simp [subCharge, hgp]
  · simp [subCharge]
  · simp only [subCharge, setCounters_used]
    omega
  · simp only [subCharge, setCounters_used]
    omega
  · exact TotalsOff.pend_bound ht g
  · rw [← hpend]
    refine lt_of_le_of_lt (busy_mono rfl ?_) (TotalsOff.small ht)
    intro h
    by_cases hh : h = g
    · rw [hh, update_self]
      omega
    · rw [update_of_ne hh]
      exact id

theorem unregisterLocked_totals (ht : Totals bb bal pend) :
    Totals (bb.unregisterLocked g) bal pend := by
  have hset : Totals (bb.setGroup g fun x => { x with refs := sub64 x.refs 1 }) bal pend := by
    refine TotalsOff.congr ht rfl rfl rfl ?_
    intro h
    by_cases hh : h = g
    · rw [hh]
      simp
    · simp [hh]
  unfold unregisterLocked
  simp only
  split_ifs
  · exact ht
  · exact TotalsOff.congr hset rfl rfl rfl fun _ => ⟨rfl, rfl, rfl⟩
  · exact hset

/-- One pending waiter less. -/
theorem settle_totals (hf : bb.fair = true) (hg : g < bb.nextGroup) (ht : Totals bb bal pend)
    (hp : 0 < pend g) :
    Totals (bb.settle g) bal (update pend g (pend g - 1)) := by
  have hgu := TotalsOff.group_used ht g
  have hgp := TotalsOff.group_pending ht g
  have hpb := TotalsOff.pend_bound ht g
  unfold settle
  refine unregisterLocked_totals ?_
  refine activateLocked_totals (by simpa using hf) (by simpa using hg) ?_
  have hbal : bal = update bal g (bal g) := (update_eq_self g bal).symm
  rw [hbal]
  refine ht.off_set (s := bb.setGroup g fun x => { x with pending := sub64 x.pending 1 })
    hg rfl rfl ?_ ?_ ?_ ?_ rfl ?_ ?_ ?_
  · intro h hh
    simp [hh]
  · simp [hgu]
  · simp only [setGroup_groupAt, update_self]
    rw [hgp]
    exact sub64_eq (by omega) hpb
  · simp
  · have hb := TotalsOff.bound ht
    exact hb
  · omega
  · rw [← hbal]
    refine lt_of_le_of_lt (busy_mono rfl ?_) (TotalsOff.small ht)
    intro h
    by_cases hh : h = g
    · rw [hh, update_self]
      omega
    · rw [update_of_ne hh]
      exact id

/-! ## Escapes -/

/-- The escape counters agree with the ledger `esc`. -/
structure Escapes (bb : ByteBudget) (esc : GroupId → Nat) : Prop where
  group_escape : ∀ g, (bb.groupAt g).escape = esc g
  escape : bb.escape = ∑ g ∈ Finset.range bb.nextGroup, esc g
  bound : bb.escape < 2 ^ 64
  support : ∀ g, bb.nextGroup ≤ g → esc g = 0

theorem Escapes.congr (he : Escapes bb esc) (h₁ : s.escape = bb.escape)
    (h₂ : s.nextGroup = bb.nextGroup)
    (h₃ : ∀ g, (s.groupAt g).escape = (bb.groupAt g).escape) : Escapes s esc := by
  refine ⟨?_, ?_, ?_, ?_⟩
  · intro g
    rw [h₃ g]
    exact he.group_escape g
  · rw [h₁, h₂]
    exact he.escape
  · rw [h₁]
    exact he.bound
  · rw [h₂]
    exact he.support

theorem Escapes.of_core (he : Escapes bb esc) (hc : s.core = bb.core) : Escapes s esc := by
  have h₁ := congrArg (fun x : ByteBudget => x.escape) hc
  have h₂ := congrArg (fun x : ByteBudget => x.nextGroup) hc
  refine he.congr h₁ h₂ ?_
  intro g
  have h₃ := congrArg (fun x : ByteBudget => (x.groupAt g).escape) hc
  exact h₃

/-- A write to a group that keeps its escape bytes. -/
theorem Escapes.setGroup (he : Escapes bb esc) {f : BudgetGroup → BudgetGroup}
    (hf : (f (bb.groupAt g)).escape = (bb.groupAt g).escape) : Escapes (bb.setGroup g f) esc := by
  refine he.congr rfl rfl fun h => ?_
  rw [setGroup_groupAt]
  rcases eq_or_ne h g with rfl | hh
  · rw [update_self]
    exact hf
  · rw [update_of_ne hh]

theorem activateLocked_escapes (he : Escapes bb esc) : Escapes (bb.activateLocked g) esc := by
  have hset : ∀ (a : Bool) (k : Nat),
      Escapes ((bb.setGroup g fun x => { x with active := a }).setActive k) esc := by
    intro a k
    have hset := he.setGroup (g := g) (f := fun x => { x with active := a }) rfl
    exact hset.congr rfl rfl fun _ => rfl
  unfold activateLocked
  simp only
  split_ifs
  · exact he
  · exact he
  · exact hset _ _
  · exact hset _ _

theorem unregisterLocked_escapes (he : Escapes bb esc) : Escapes (bb.unregisterLocked g) esc := by
  have hset : Escapes (bb.setGroup g fun x => { x with refs := sub64 x.refs 1 }) esc :=
    he.setGroup rfl
  unfold unregisterLocked
  simp only
  split_ifs
  · exact he
  · exact hset.congr rfl rfl fun _ => rfl
  · exact hset

theorem settle_escapes (he : Escapes bb esc) : Escapes (bb.settle g) esc := by
  unfold settle
  exact unregisterLocked_escapes (activateLocked_escapes (he.setGroup rfl))

/-- A normal charge leaves the escapes alone. -/
theorem charge_escapes (he : Escapes bb esc) : Escapes (bb.charge n g false) esc := by
  unfold charge
  split_ifs
  · exact he.congr rfl rfl fun _ => rfl
  · refine activateLocked_escapes (he.congr ?_ rfl ?_)
    · simp [addCharge]
    · intro h
      by_cases hh : h = g
      · rw [hh]
        simp [addCharge]
      · simp [addCharge, hh]

theorem Escapes.le_escape (he : Escapes bb esc) (g : GroupId) : esc g ≤ bb.escape := by
  rcases Nat.lt_or_ge g bb.nextGroup with hg | hg
  · rw [he.escape]
    exact Finset.single_le_sum (f := esc) (fun _ _ => Nat.zero_le _) (Finset.mem_range.2 hg)
  · rw [he.support g hg]
    exact Nat.zero_le _

/-- Replacing the escape bytes of one group. -/
theorem Escapes.set (he : Escapes bb esc) (hg : g < bb.nextGroup) {e : Nat}
    (hn : s.nextGroup = bb.nextGroup)
    (hother : ∀ h, h ≠ g → (s.groupAt h).escape = (bb.groupAt h).escape)
    (hge : (s.groupAt g).escape = e) (hsum : s.escape + esc g = bb.escape + e)
    (hb : s.escape < 2 ^ 64) : Escapes s (update esc g e) := by
  refine ⟨?_, ?_, hb, ?_⟩
  · intro h
    by_cases hh : h = g
    · rw [hh, update_self, hge]
    · rw [update_of_ne hh, hother h hh]
      exact he.group_escape h
  · have hup := Slice.sum_update_add hg esc e
    rw [← he.escape] at hup
    rw [hn]
    omega
  · intro h hh
    rw [hn] at hh
    have hne : h ≠ g := (lt_of_lt_of_le hg hh).ne'
    rw [update_of_ne hne]
    exact he.support h hh

/-- An escape is counted for the group and in total. -/
theorem charge_escapes_true (hf : bb.fair = true) (hg : g < bb.nextGroup) (he : Escapes bb esc)
    (hsum : bb.escape + n < 2 ^ 64) :
    Escapes (bb.charge n g true) (update esc g (esc g + n)) := by
  have hge := he.group_escape g
  have hle := he.le_escape g
  unfold charge
  rw [if_neg (by simp [hf])]
  refine activateLocked_escapes ?_
  refine he.set hg rfl ?_ ?_ ?_ ?_
  · intro h hh
    simp [addCharge, hh]
  · simp only [addCharge, pushCharge_groupAt, setCounters_groupAt, setGroup_groupAt,
      update_self, if_true]
    rw [hge, add64_eq (by omega)]
  · simp only [addCharge, pushCharge_escape, setCounters_escape, if_true]
    rw [add64_eq hsum]
    omega
  · simp only [addCharge, pushCharge_escape, setCounters_escape, if_true]
    exact add64_lt _ _

/-- Released escapes are taken off both. -/
theorem releaseLocked_escapes (hf : bb.fair = true) (hg : g < bb.nextGroup) (he : Escapes bb esc)
    {e : Nat} (hle : e ≤ esc g) :
    Escapes (bb.releaseLocked n e g) (update esc g (esc g - e)) := by
  have hge := he.group_escape g
  have hle' := he.le_escape g
  have hb := he.bound
  unfold releaseLocked
  rw [if_neg (by simp [hf])]
  refine activateLocked_escapes ?_
  refine he.set hg rfl ?_ ?_ ?_ ?_
  · intro h hh
    simp [subCharge, hh]
  · simp only [subCharge, setCounters_groupAt, setGroup_groupAt, update_self]
    rw [hge, sub64_eq hle (by omega)]
  · simp only [subCharge, setCounters_escape]
    rw [sub64_eq (by omega) hb]
    omega
  · simp only [subCharge, setCounters_escape]
    exact sub64_lt _ _

end ByteBudget

end UspClient
