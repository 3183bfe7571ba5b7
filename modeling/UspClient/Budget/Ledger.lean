import UspClient.Budget.Schedule

/-!
# The ledger of a fair budget, operation by operation

Each operation of `ByteBudget` is shown to keep `Accounts` for a ledger it changes
by exactly what it charged, credited, returned or released. The escape counters
have their own ledger (`Escapes`), which no lemma about `Accounts` uses.
-/

namespace UspClient

open Function Word64

namespace ByteBudget

variable {bb s t : ByteBudget} {g h : GroupId} {w v : WaiterId} {n : Nat}
variable {out : Finset WaiterId} {held esc : GroupId → Nat}

/-! ## What an operation leaves alone -/

/-- The configuration is fixed, arenas only grow, and the request of a waiter never
changes. -/
structure Frame (bb s : ByteBudget) : Prop where
  total : s.total = bb.total
  fair : s.fair = bb.fair
  reserve : s.reserve = bb.reserve
  minGroup : s.minGroup = bb.minGroup
  nextGroup : bb.nextGroup ≤ s.nextGroup
  nextWaiter : bb.nextWaiter ≤ s.nextWaiter
  nextChan : bb.nextChan ≤ s.nextChan
  waiter : ∀ v, v < bb.nextWaiter → (s.waiterAt v).n = (bb.waiterAt v).n ∧
    (s.waiterAt v).group = (bb.waiterAt v).group ∧ (s.waiterAt v).wake = (bb.waiterAt v).wake

theorem Frame.trans (h₁ : Frame bb s) (h₂ : Frame s t) : Frame bb t := by
  refine ⟨h₂.total.trans h₁.total, h₂.fair.trans h₁.fair, h₂.reserve.trans h₁.reserve,
    h₂.minGroup.trans h₁.minGroup, h₁.nextGroup.trans h₂.nextGroup,
    h₁.nextWaiter.trans h₂.nextWaiter, h₁.nextChan.trans h₂.nextChan, ?_⟩
  intro v hv
  obtain ⟨a₁, b₁, c₁⟩ := h₁.waiter v hv
  obtain ⟨a₂, b₂, c₂⟩ := h₂.waiter v (lt_of_lt_of_le hv h₁.nextWaiter)
  exact ⟨a₂.trans a₁, b₂.trans b₁, c₂.trans c₁⟩

theorem Rigid.frame (hr : Rigid bb s) : Frame bb s :=
  ⟨hr.total, hr.fair, hr.reserve, hr.minGroup, hr.nextGroup.ge, hr.nextWaiter.ge, hr.nextChan.ge,
    fun v _ => ⟨hr.waiter_n v, hr.waiter_group v, hr.waiter_wake v⟩⟩

theorem Touches.frame (ht : Touches bb s g) : Frame bb s :=
  ⟨ht.total, ht.fair, ht.reserve, ht.minGroup, ht.nextGroup.ge, ht.nextWaiter.ge, ht.nextChan.ge,
    fun v _ => by rw [ht.waiterAt]; exact ⟨rfl, rfl, rfl⟩⟩

/-! ## Ledgers over one arena of waiters -/

theorem demand_erase (bb : ByteBudget) (held : GroupId → Nat)
    (hw : w ∈ out) : bb.demand held (out.erase w) + (bb.waiterAt w).n =
    bb.demand held out := by
  unfold demand requested
  rw [← Finset.add_sum_erase out (fun w => (bb.waiterAt w).n) hw]
  omega

theorem demand_update (out : Finset WaiterId) (held : GroupId → Nat)
    (hg : g < bb.nextGroup) (k : Nat) :
    bb.demand (update held g k) out + held g = bb.demand held out + k := by
  have hsum := Slice.sum_update_add hg held k
  unfold demand
  omega

theorem requested_congr (bb : ByteBudget)
    (h : ∀ v ∈ out, (s.waiterAt v).n = (bb.waiterAt v).n) :
    s.requested out = bb.requested out :=
  Finset.sum_congr rfl h

/-! ## Removing a waiter -/

theorem unqueue_cases (bb : ByteBudget) (w : WaiterId) :
    ((bb.waiterAt w).elem = false ∧ bb.unqueue w = bb) ∨
    ((bb.waiterAt w).elem = true ∧ bb.unqueue w =
      (bb.setGroup (bb.waiterAt w).group fun x => { x with waiters := x.waiters.erase w }).setWaiter
        w fun x => { x with elem := false }) := by
  unfold unqueue
  cases (bb.waiterAt w).elem with
  | false => exact Or.inl ⟨rfl, rfl⟩
  | true => exact Or.inr ⟨rfl, rfl⟩

/-- `s` is `bb` with the waiter `w` of group `g` taken out of its queue. -/
structure Unqueued (bb s : ByteBudget) (g : GroupId) (w : WaiterId) : Prop where
  index : SameIndex bb s
  rigid : Rigid bb s
  other : ∀ h, h ≠ g → s.groupAt h = bb.groupAt h
  queue : ∀ h, (s.groupAt h).waiters = (bb.groupAt h).waiters.erase w
  counters : ∀ h, (s.groupAt h).used = (bb.groupAt h).used ∧
    (s.groupAt h).active = (bb.groupAt h).active
  rest : ∀ v, v ≠ w → s.waiterAt v = bb.waiterAt v
  credit : (s.waiterAt w).credit = (bb.waiterAt w).credit
  used : s.used = bb.used
  active : s.active = bb.active
  closed : s.closed = bb.closed

theorem Unqueued.totals {bal pend : GroupId → Nat} (hu : Unqueued bb s g w)
    (ht : Totals bb bal pend) : Totals s bal pend :=
  TotalsOff.congr ht hu.used hu.active hu.rigid.nextGroup fun h =>
    ⟨(hu.counters h).1, hu.rigid.pending h, (hu.counters h).2⟩

theorem unqueue_spec (hq : Queues bb out) (hw : w ∈ out) (hgrp : (bb.waiterAt w).group = g) :
    Unqueued bb (bb.unqueue w) g w := by
  rcases unqueue_cases bb w with ⟨hel, heq⟩ | ⟨hel, heq⟩
  · -- a waiter without an element is granted, so it is in no queue
    rw [hq.elem w hw, Bool.not_eq_false'] at hel
    rw [heq]
    refine ⟨⟨rfl, rfl, rfl, fun _ => ⟨rfl, rfl, rfl⟩⟩, Rigid.refl bb, fun _ _ => rfl, ?_,
      fun _ => ⟨rfl, rfl⟩, fun _ _ => rfl, rfl, rfl, rfl, rfl⟩
    intro h
    refine (List.erase_of_not_mem ?_).symm
    intro hm
    have hgr := ((hq.mem h w).1 hm).2.2
    rw [hel] at hgr
    exact absurd hgr (by decide)
  · rw [heq, hgrp]
    have hset : ∀ h, h ≠ g → ((bb.setGroup g fun x => { x with waiters := x.waiters.erase w }).groupAt
        h) = bb.groupAt h := fun h hh => by simp [hh]
    have hself : (bb.setGroup g fun x => { x with waiters := x.waiters.erase w }).groupAt g =
        { bb.groupAt g with waiters := (bb.groupAt g).waiters.erase w } := by simp
    refine ⟨⟨rfl, rfl, rfl, ?_⟩, ?_, hset, ?_, ?_, ?_, ?_, rfl, rfl, rfl⟩
    · intro h
      by_cases hh : h = g
      · subst hh
        exact hself ▸ ⟨rfl, rfl, rfl⟩
      · exact (hset h hh) ▸ ⟨rfl, rfl, rfl⟩
    · exact Rigid.trans (rigid_setGroup (by intro x; exact ⟨rfl, rfl, rfl, rfl⟩))
        (rigid_setWaiter (by intro x; exact ⟨rfl, rfl, rfl⟩))
    · intro h
      by_cases hh : h = g
      · subst hh
        rw [setWaiter_groupAt, hself]
      · -- no other queue holds the waiter
        rw [setWaiter_groupAt, hset h hh, List.erase_of_not_mem (hq.not_mem_of_ne hgrp hh)]
    · intro h
      by_cases hh : h = g
      · subst hh
        rw [setWaiter_groupAt, hself]
        exact ⟨rfl, rfl⟩
      · rw [setWaiter_groupAt, hset h hh]
        exact ⟨rfl, rfl⟩
    · intro v hv
      simp [hv]
    · simp

theorem refund_cases (bb : ByteBudget) (w : WaiterId) :
    ((bb.waiterAt w).credit = 0 ∧ bb.refund w = bb) ∨
    ((bb.waiterAt w).credit ≠ 0 ∧ bb.refund w =
      (bb.releaseLocked (bb.waiterAt w).credit 0 (bb.waiterAt w).group).setWaiter w
        fun x => { x with credit := 0 }) := by
  unfold refund
  split_ifs with h
  · exact Or.inr ⟨h, rfl⟩
  · exact Or.inl ⟨not_not.1 h, rfl⟩

/-- `s` is `bb` with the waiter `w` of group `g` out of its queue and settled, whatever became
of the counters. -/
structure Removed (bb s : ByteBudget) (g : GroupId) (w : WaiterId) : Prop where
  index : SameIndex bb s
  frame : Frame bb s
  nextGroup : s.nextGroup = bb.nextGroup
  nextWaiter : s.nextWaiter = bb.nextWaiter
  nextChan : s.nextChan = bb.nextChan
  closed : s.closed = bb.closed
  other : ∀ h, h ≠ g → s.groupAt h = bb.groupAt h
  queue : ∀ h, (s.groupAt h).waiters = (bb.groupAt h).waiters.erase w
  rest : ∀ v, v ≠ w → s.waiterAt v = bb.waiterAt v

theorem remove_spec (hq : Queues bb out) (hw : w ∈ out) (hgrp : (bb.waiterAt w).group = g) :
    Removed bb (((bb.unqueue w).refund w).settle g) g w := by
  have hu := unqueue_spec hq hw hgrp
  obtain ⟨s, hs⟩ : ∃ s, bb.unqueue w = s := ⟨_, rfl⟩
  rw [hs] at hu ⊢
  have hsgrp : (s.waiterAt w).group = g := (hu.rigid.waiter_group w).trans hgrp
  -- the refund writes to the counters of `g` and to the cell of `w`
  obtain ⟨r, hrt, hrefund⟩ : ∃ r, Touches s r g ∧ (s.refund w = r ∨ s.refund w =
      r.setWaiter w fun x => { x with credit := 0 }) := by
    rcases refund_cases s w with ⟨-, heq⟩ | ⟨-, heq⟩
    · exact ⟨s, Touches.refl s g, .inl heq⟩
    · rw [hsgrp] at heq
      exact ⟨_, releaseLocked_touches s (s.waiterAt w).credit 0 g, .inr heq⟩
  have hcell : ∀ t, (t = r ∨ t = r.setWaiter w fun x => { x with credit := 0 }) →
      t.groupAt = r.groupAt ∧ Frame r t ∧ SameIndex r t ∧ t.closed = r.closed ∧
        t.nextWaiter = r.nextWaiter ∧ t.nextGroup = r.nextGroup ∧ t.nextChan = r.nextChan ∧
        ∀ v, v ≠ w → t.waiterAt v = r.waiterAt v := by
    rintro t (rfl | rfl)
    · exact ⟨rfl, (Rigid.refl t).frame, (Touches.refl t g).index, rfl, rfl, rfl, rfl,
        fun _ _ => rfl⟩
    · exact ⟨rfl, (rigid_setWaiter (by intro x; exact ⟨rfl, rfl, rfl⟩)).frame,
        ⟨rfl, rfl, rfl, fun _ => ⟨rfl, rfl, rfl⟩⟩, rfl, rfl, rfl, rfl,
        fun v hv => update_of_ne hv _ _⟩
  obtain ⟨t, ht⟩ : ∃ t, s.refund w = t := ⟨_, rfl⟩
  rw [ht] at hrefund ⊢
  obtain ⟨hat, hframe, hindex, hclosed, hnw, hng, hnc, hrest⟩ := hcell t hrefund
  have hst := settle_touches t g
  constructor
  · exact ((hu.index.trans hrt.index).trans hindex).trans hst.index
  · exact ((hu.rigid.frame.trans hrt.frame).trans hframe).trans hst.frame
  · rw [hst.nextGroup, hng, hrt.nextGroup, hu.rigid.nextGroup]
  · rw [hst.nextWaiter, hnw, hrt.nextWaiter, hu.rigid.nextWaiter]
  · rw [hst.nextChan, hnc, hrt.nextChan, hu.rigid.nextChan]
  · rw [hst.closed, hclosed, hrt.closed, hu.closed]
  · intro h hh
    rw [hst.other h hh, hat, hrt.other h hh, hu.other h hh]
  · intro h
    rw [hst.waiters, hat, hrt.waiters, hu.queue]
  · intro v hv
    rw [hst.waiterAt, hrest v hv, hrt.waiterAt, hu.rest v hv]

theorem Queues.remove (hq : Queues bb out) (hr : Removed bb s g w) : Queues s (out.erase w) :=
  hq.erase hr.rest hr.queue hr.nextWaiter hr.nextGroup hr.closed hr.nextChan

/-- Removing a waiter leaves the indexes off at most at its group. -/
theorem Index.off_removed (hi : Index bb) (hq : Queues bb out) (hr : Removed bb s g w)
    (hgrp : (bb.waiterAt w).group = g) : IndexOff s g := by
  refine hi.off hr.index (fun h hh => by rw [hr.other h hh]) ?_
  intro h hh hne
  exact groupNeed_of_not_mem (hq.not_mem_of_ne hgrp hh) hne (hr.other h hh) hr.rest

/-- The totals after the refund: what the waiter was credited is free again. -/
theorem refund_totals (hb : Books bb held out) (hw : w ∈ out) (hgrp : (bb.waiterAt w).group = g) :
    Totals ((bb.unqueue w).refund w) (update (bb.balance held out) g
        (bb.balance held out g - (bb.waiterAt w).credit)) (bb.pendings out) ∧
      ((bb.unqueue w).refund w).fair = true ∧
      ((bb.unqueue w).refund w).nextGroup = bb.nextGroup := by
  have hu := unqueue_spec hb.queues hw hgrp
  obtain ⟨s, hs⟩ : ∃ s, bb.unqueue w = s := ⟨_, rfl⟩
  rw [hs] at hu ⊢
  have hglt : g < bb.nextGroup := hgrp ▸ hb.queues.group_lt w hw
  have hfair : s.fair = true := hu.rigid.fair.trans hb.fair
  have htot : Totals s (bb.balance held out) (bb.pendings out) := hu.totals hb.totals
  have hcle := credit_le_credits bb hw hgrp
  rcases refund_cases s w with ⟨hz, heq⟩ | ⟨-, heq⟩
  · rw [heq, ← hu.credit, hz, Nat.sub_zero, update_eq_self]
    exact ⟨htot, hfair, hu.rigid.nextGroup⟩
  · rw [(hu.rigid.waiter_group w).trans hgrp] at heq
    have htouch := releaseLocked_touches s (s.waiterAt w).credit 0 g
    have hrel := releaseLocked_totals hfair (hu.rigid.nextGroup ▸ hglt) htot
      (show (s.waiterAt w).credit ≤ bb.balance held out g by
        rw [hu.credit]
        unfold balance
        omega) 0
    rw [heq, ← hu.credit]
    exact ⟨TotalsOff.congr hrel rfl rfl rfl fun _ => ⟨rfl, rfl, rfl⟩, htouch.fair.trans hfair,
      htouch.nextGroup.trans hu.rigid.nextGroup⟩

/-- The waiter after `unqueue`, `refund` and `settle`: out of its queue, out of the
ledger, its credit free. -/
theorem remove_books (hb : Books bb held out) (hw : w ∈ out) (hgrp : (bb.waiterAt w).group = g) :
    Books (((bb.unqueue w).refund w).settle g) held (out.erase w) := by
  have hrem := remove_spec hb.queues hw hgrp
  obtain ⟨htot, hfair, hnext⟩ := refund_totals hb hw hgrp
  have hglt : g < bb.nextGroup := hgrp ▸ hb.queues.group_lt w hw
  have hcle := credit_le_credits bb hw hgrp
  have hcongr : ∀ v ∈ out.erase w, (((bb.unqueue w).refund w).settle g).waiterAt v =
      bb.waiterAt v := fun v hv => hrem.rest v (Finset.ne_of_mem_erase hv)
  refine ⟨hrem.frame.fair.trans hb.fair, hb.queues.remove hrem, ?_, ?_⟩
  · have hset := settle_totals hfair (hnext ▸ hglt) htot (pendings_pos hw hgrp)
    rw [← pendings_erase hw hgrp] at hset
    have hbal : update (bb.balance held out) g
        (bb.balance held out g - (bb.waiterAt w).credit) = bb.balance held (out.erase w) := by
      funext h
      unfold balance
      rw [credits_erase _ hw hgrp]
      by_cases hh : h = g
      · subst hh
        rw [update_self, update_self, Nat.add_sub_assoc hcle]
      · rw [update_of_ne hh, update_of_ne hh]
    rw [hbal] at hset
    unfold balance
    rw [credits_congr bb fun v hv => by rw [hcongr v hv]; exact ⟨rfl, rfl⟩,
      pendings_congr bb fun v hv => by rw [hcongr v hv]]
    exact hset
  · have hd := demand_erase bb held hw
    have hlt := hb.demand
    unfold demand
    rw [requested_congr bb fun v hv => by rw [hcongr v hv], hrem.nextGroup]
    show bb.demand held (out.erase w) < 2 ^ 64
    omega

theorem remove_off (ha : Accounts bb held out) (hw : w ∈ out) :
    IndexOff (((bb.unqueue w).refund w).settle (bb.waiterAt w).group) (bb.waiterAt w).group := by
  exact ha.index.off_removed ha.queues (remove_spec ha.queues hw rfl) rfl

/-- `removeWaiterLocked` takes an outstanding waiter out of the ledger. -/
theorem removeWaiterLocked_accounts (ha : Accounts bb held out) (hw : w ∈ out) :
    Accounts (bb.removeWaiterLocked w) held (out.erase w) ∧ Frame bb (bb.removeWaiterLocked w) ∧
      (bb.removeWaiterLocked w).nextGroup = bb.nextGroup ∧
      ∀ v, v ≠ w → (bb.removeWaiterLocked w).waiterAt v = bb.waiterAt v := by
  have hrem := remove_spec ha.queues hw rfl
  have hoff := remove_off ha hw
  have hr := Rigid.of_core (refreshLocked_core hoff)
  refine ⟨(remove_books ha.toBooks hw rfl).refresh hoff, hrem.frame.trans hr.frame,
    hr.nextGroup.trans hrem.nextGroup, ?_⟩
  intro v hv
  have hat := waiterAt_of_core (refreshLocked_core hoff)
  exact (congrFun hat v).trans (hrem.rest v hv)

/-! ## Consuming a grant -/

/-- Unregistering changes no counter. -/
theorem unregisterLocked_used (bb : ByteBudget) (g h : GroupId) :
    ((bb.unregisterLocked g).groupAt h).used = (bb.groupAt h).used := by
  unfold unregisterLocked
  simp only
  split_ifs
  · rfl
  all_goals
    by_cases hh : h = g
    · subst hh
      simp
    · simp [hh]

theorem activateLocked_used (bb : ByteBudget) (g h : GroupId) :
    ((bb.activateLocked g).groupAt h).used = (bb.groupAt h).used := by
  unfold activateLocked
  simp only
  split_ifs
  · rfl
  · rfl
  all_goals
    by_cases hh : h = g
    · subst hh
      simp
    · simp [hh]

theorem settle_used (bb : ByteBudget) (g h : GroupId) :
    ((bb.settle g).groupAt h).used = (bb.groupAt h).used := by
  unfold settle
  rw [unregisterLocked_used, activateLocked_used]
  by_cases hh : h = g
  · subst hh
    simp
  · simp [hh]

/-- Settling a group changes no need, so the indexes stand. -/
theorem settle_index (hi : Index bb) (g : GroupId) : Index (bb.settle g) := by
  have ht := settle_touches bb g
  refine hi.of_same ht.index ht.waiters ?_
  intro h _
  unfold groupNeed
  rw [ht.waiters, ht.waiterAt, settle_used]

/-- A granted waiter is in no queue: settling its group removes it. -/
theorem settle_removed (hq : Queues bb out) (hgr : (bb.waiterAt w).granted = true) :
    Removed bb (bb.settle g) g w := by
  have ht := settle_touches bb g
  refine ⟨ht.index, ht.frame, ht.nextGroup, ht.nextWaiter, ht.nextChan, ht.closed, ht.other, ?_,
    fun v _ => by rw [ht.waiterAt]⟩
  intro h
  rw [ht.waiters, List.erase_of_not_mem]
  intro hm
  have hng := ((hq.mem h w).1 hm).2.2
  rw [hgr] at hng
  cases hng

/-- A granted waiter is consumed: its credit is now held by the caller. -/
theorem consume_accounts (ha : Accounts bb held out) (hw : w ∈ out)
    (hgrp : (bb.waiterAt w).group = g) (hgr : (bb.waiterAt w).granted = true) :
    Accounts (bb.settle g) (update held g (held g + (bb.waiterAt w).n)) (out.erase w) := by
  have ht := settle_touches bb g
  have hglt : g < bb.nextGroup := hgrp ▸ ha.queues.group_lt w hw
  have hfull := ha.queues.full w hw hgr
  have hcle := credit_le_credits bb hw hgrp
  have hcong : ∀ v, (bb.settle g).waiterAt v = bb.waiterAt v := fun v => by rw [ht.waiterAt]
  refine ⟨⟨ht.fair.trans ha.fair, ha.queues.remove (settle_removed ha.queues hgr), ?_, ?_⟩,
    settle_index ha.index g⟩
  · have hset := settle_totals ha.fair hglt ha.totals (pendings_pos hw hgrp)
    rw [← pendings_erase hw hgrp] at hset
    have hbal : bb.balance held out =
        bb.balance (update held g (held g + (bb.waiterAt w).n)) (out.erase w) := by
      funext h
      unfold balance
      rw [credits_erase _ hw hgrp]
      by_cases hh : h = g
      · subst hh
        rw [update_self, update_self]
        omega
      · rw [update_of_ne hh, update_of_ne hh]
    rw [hbal] at hset
    unfold balance
    rw [credits_congr bb fun v _ => by rw [hcong v]; exact ⟨rfl, rfl⟩,
      pendings_congr bb fun v _ => by rw [hcong v]]
    exact hset
  · have hd := demand_erase bb (update held g (held g + (bb.waiterAt w).n)) hw
    have hu := demand_update out held hglt (held g + (bb.waiterAt w).n)
    have hlt := ha.demand
    unfold demand
    rw [requested_congr bb fun v _ => by rw [hcong v], ht.nextGroup]
    show bb.demand _ (out.erase w) < 2 ^ 64
    omega

/-! ## Charges and releases of the callers -/

/-- The indexes after an operation on the counters of `g` and its refresh. -/
theorem Accounts.touch_refresh {held' : GroupId → Nat} (ha : Accounts bb held out)
    (ht : Touches bb s g) (hb : Books s held' out) :
    Accounts (if (s.groupAt g).waiters = [] then s else s.refreshLocked g) held' out := by
  split_ifs with hempty
  · exact ⟨hb, ha.index.of_touches ht (ht.queue ▸ hempty)⟩
  · exact hb.refresh (ha.index.off_touches ht)

/-- The books after an operation on counters, which leaves the waiters alone. -/
theorem Books.of_touches {held' : GroupId → Nat} (hb : Books bb held out) (ht : Touches bb s g)
    (htot : Totals s (bb.balance held' out) (bb.pendings out))
    (hdem : bb.demand held' out < 2 ^ 64) : Books s held' out := by
  refine ⟨ht.fair.trans hb.fair, hb.queues.of_touches ht, ?_, ?_⟩
  · unfold balance
    rw [credits_congr bb fun v _ => by rw [ht.waiterAt]; exact ⟨rfl, rfl⟩,
      pendings_congr bb fun v _ => by rw [ht.waiterAt]]
    exact htot
  · unfold ByteBudget.demand
    rw [requested_congr bb fun v _ => by rw [ht.waiterAt], ht.nextGroup]
    exact hdem

/-- Changing what one group holds changes its balance by as much. -/
theorem balance_update (k : Nat) :
    update (bb.balance held out) g (k + bb.credits out g) =
      bb.balance (update held g k) out := by
  funext h
  unfold balance
  by_cases hh : h = g
  · subst hh
    rw [update_self, update_self]
  · rw [update_of_ne hh, update_of_ne hh]

/-- One more request of `n` bytes by group `g` overflows no counter. -/
structure Room (bb : ByteBudget) (held : GroupId → Nat) (out : Finset WaiterId) (n : Nat)
    (g : GroupId) : Prop where
  group_lt : g < bb.nextGroup
  demand : bb.demand held out + n < 2 ^ 64
  card : out.card + 1 < 2 ^ 64
  busy : (insert g (bb.busy (bb.balance held out) (bb.pendings out))).card < 2 ^ 64

theorem charge_books (ha : Books bb held out) (hroom : Room bb held out n g) (escape : Bool) :
    Books (bb.charge n g escape) (update held g (held g + n)) out := by
  have hdem := hroom.demand
  have hsum := ha.used_add
  have hu := demand_update out held hroom.group_lt (held g + n)
  refine ha.of_touches (charge_touches bb n g escape) ?_ (by omega)
  rw [← balance_update]
  have hbal : held g + n + bb.credits out g = bb.balance held out g + n := by
    unfold balance
    omega
  rw [hbal]
  refine charge_totals ha.fair hroom.group_lt ha.totals (by omega) escape ?_
  exact lt_of_le_of_lt (Finset.card_le_card (busy_off_subset
    (fun h hh => update_of_ne hh _ _) fun _ _ => rfl)) hroom.busy

theorem releaseLocked_books (ha : Books bb held out) (hg : g < bb.nextGroup) (hn : n ≤ held g)
    (escape : Nat) :
    Books (bb.releaseLocked n escape g) (update held g (held g - n)) out := by
  have hlt := ha.demand
  have hu := demand_update out held hg (held g - n)
  refine ha.of_touches (releaseLocked_touches bb n escape g) ?_ (by omega)
  rw [← balance_update]
  have hbal : held g - n + bb.credits out g = bb.balance held out g - n := by
    unfold balance
    omega
  rw [hbal]
  exact releaseLocked_totals ha.fair hg ha.totals (by unfold balance; omega) escape

/-! ## Queueing a request -/

/-- What `enqueue` does: a new waiter at the end of the queue of `g`. -/
structure Enqueued (bb s : ByteBudget) (n : Nat) (g : GroupId) : Prop where
  index : SameIndex bb s
  frame : Frame bb s
  other : ∀ h, h ≠ g → s.groupAt h = bb.groupAt h
  queue : (s.groupAt g).waiters = (bb.groupAt g).waiters ++ [bb.nextWaiter]
  group_used : (s.groupAt g).used = (bb.groupAt g).used
  group_pending : (s.groupAt g).pending = add64 (bb.groupAt g).pending 1
  group_active : (s.groupAt g).active = (bb.groupAt g).active
  waiter : s.waiterAt bb.nextWaiter =
    { n := n, group := g, wake := some bb.nextChan, elem := true }
  rest : ∀ v, v ≠ bb.nextWaiter → s.waiterAt v = bb.waiterAt v

theorem enqueue_spec (bb : ByteBudget) (n : Nat) (g : GroupId) : Enqueued bb (bb.enqueue n g) n g := by
  have hat : ∀ h, h ≠ g → (bb.enqueue n g).groupAt h = bb.groupAt h := by
    intro h hh
    simp [enqueue, hh]
  have hrest : ∀ v, v ≠ bb.nextWaiter → (bb.enqueue n g).waiterAt v = bb.waiterAt v := by
    intro v hv
    simp [enqueue, hv]
  refine ⟨⟨rfl, rfl, rfl, ?_⟩, ⟨rfl, rfl, rfl, rfl, le_rfl, Nat.le_succ _, Nat.le_succ _, ?_⟩, hat,
    ?_, ?_, ?_, ?_, ?_, hrest⟩
  · intro h
    by_cases hh : h = g
    · subst hh
      simp [enqueue]
    · rw [hat h hh]
      exact ⟨rfl, rfl, rfl⟩
  · intro v hv
    rw [hrest v hv.ne]
    exact ⟨rfl, rfl, rfl⟩
  all_goals simp [enqueue]

theorem Queues.insert (hq : Queues bb out) (hg : g < bb.nextGroup) (he : Enqueued bb s n g)
    (hng : s.nextGroup = bb.nextGroup) (hnw : s.nextWaiter = bb.nextWaiter + 1)
    (hnc : s.nextChan = bb.nextChan + 1) (hc : s.closed = bb.closed) :
    Queues s (insert bb.nextWaiter out) := by
  have hfresh : bb.nextWaiter ∉ out := fun hm => absurd (hq.fresh _ hm) (lt_irrefl _)
  have hold : ∀ v ∈ out, s.waiterAt v = bb.waiterAt v := by
    intro v hv
    refine he.rest v ?_
    rintro rfl
    exact hfresh hv
  have hnotq : ∀ h, bb.nextWaiter ∉ (bb.groupAt h).waiters := fun h hm =>
    hfresh ((hq.mem h _).1 hm).1
  -- each condition for the new waiter, then for the old ones
  refine ⟨?_, ?_, ?_, ?_, ?_, ?_, ?_, ?_, ?_, ?_⟩
  · rw [Finset.forall_mem_insert, hnw]
    exact ⟨Nat.lt_succ_self _, fun v hv => Nat.lt_succ_of_lt (hq.fresh v hv)⟩
  · rw [Finset.forall_mem_insert, he.waiter, hng]
    refine ⟨hg, fun v hv => ?_⟩
    rw [hold v hv]
    exact hq.group_lt v hv
  · intro h
    by_cases hh : h = g
    · subst hh
      rw [he.queue]
      exact Slice.nodup_concat (hq.nodup h) (hnotq h)
    · rw [he.other h hh]
      exact hq.nodup h
  · intro h v
    rw [Finset.mem_insert]
    by_cases hv : v = bb.nextWaiter
    · subst hv
      rw [he.waiter]
      simp only [true_or, true_and, and_true]
      by_cases hh : h = g
      · subst hh
        rw [he.queue]
        simp
      · rw [he.other h hh]
        exact ⟨fun hm => absurd hm (hnotq h), fun hgh => absurd hgh.symm hh⟩
    · rw [he.rest v hv, or_iff_right hv, ← hq.mem]
      by_cases hh : h = g
      · subst hh
        rw [he.queue, List.mem_append, List.mem_singleton, or_iff_left hv]
      · rw [he.other h hh]
  · rw [Finset.forall_mem_insert, he.waiter]
    refine ⟨rfl, fun v hv => ?_⟩
    rw [hold v hv]
    exact hq.elem v hv
  · rw [Finset.forall_mem_insert, he.waiter]
    refine ⟨fun _ => Or.inl rfl, fun v hv => ?_⟩
    rw [hold v hv]
    exact hq.short v hv
  · rw [Finset.forall_mem_insert, he.waiter]
    refine ⟨fun hgr => absurd hgr Bool.false_ne_true, fun v hv => ?_⟩
    rw [hold v hv]
    exact hq.full v hv
  · rw [Finset.forall_mem_insert, he.waiter, hnc, hc]
    refine ⟨⟨bb.nextChan, rfl, Nat.lt_succ_self _, hq.open_fresh _ le_rfl⟩, fun v hv => ?_⟩
    obtain ⟨c, h₁, h₂, h₃⟩ := hq.wake v hv
    rw [hold v hv]
    exact ⟨c, h₁, Nat.lt_succ_of_lt h₂, h₃⟩
  · -- the new channel is not the wake of an older waiter
    have hnew : ∀ v ∈ out, (bb.waiterAt v).wake ≠ some bb.nextChan := by
      intro v hv heq
      obtain ⟨c, h₁, h₂, -⟩ := hq.wake v hv
      rw [h₁, Option.some.injEq] at heq
      exact absurd h₂ (by rw [heq]; exact lt_irrefl _)
    rw [Finset.forall_mem_insert]
    refine ⟨?_, fun v hv => ?_⟩
    · rw [Finset.forall_mem_insert]
      refine ⟨fun _ => rfl, fun v hv hwake => ?_⟩
      rw [he.waiter, hold v hv] at hwake
      exact absurd hwake.symm (hnew v hv)
    · rw [Finset.forall_mem_insert]
      refine ⟨fun hwake => ?_, fun u hu => ?_⟩
      · rw [he.waiter, hold v hv] at hwake
        exact absurd hwake (hnew v hv)
      · rw [hold v hv, hold u hu]
        exact hq.wake_inj v hv u hu
  · intro c hle
    rw [hc]
    exact hq.open_fresh c (by rw [hnc] at hle; exact le_trans (Nat.le_succ _) hle)

theorem enqueue_off (hi : Index bb) (hq : Queues bb out) (n : Nat) (g : GroupId) :
    IndexOff ((bb.enqueue n g).activateLocked g) g := by
  have he := enqueue_spec bb n g
  have ht := activateLocked_touches (bb.enqueue n g) g
  refine hi.off (he.index.trans ht.index) ?_ ?_
  · intro h hh
    rw [ht.waiters, he.other h hh]
  · intro h hh hne
    refine groupNeed_of_not_mem (w := bb.nextWaiter) ?_ hne ?_ ?_
    · intro hm
      exact absurd (hq.fresh _ ((hq.mem h _).1 hm).1) (lt_irrefl _)
    · rw [ht.other h hh, he.other h hh]
    · intro v hv
      rw [ht.waiterAt, he.rest v hv]

/-- One more pending request of the group. -/
theorem enqueue_totals (ha : Accounts bb held out) (hroom : Room bb held out n g) :
    Totals ((bb.enqueue n g).activateLocked g) (bb.balance held out)
      (update (bb.pendings out) g (bb.pendings out g + 1)) := by
  have he := enqueue_spec bb n g
  have hcard := hroom.card
  have hle := pendings_le bb out g
  have hself : bb.balance held out =
      update (bb.balance held out) g (bb.balance held out g) :=
    (update_eq_self g _).symm
  refine activateLocked_totals (he.frame.fair.trans ha.fair) hroom.group_lt ?_
  rw [hself]
  have hbound : bb.used < 2 ^ 64 := TotalsOff.bound ha.totals
  refine Totals.off_set ha.totals hroom.group_lt rfl rfl he.other ?_ ?_ he.group_active rfl hbound
    (by omega) ?_
  · rw [he.group_used]
    exact TotalsOff.group_used ha.totals g
  · rw [he.group_pending, TotalsOff.group_pending ha.totals, add64_eq (by omega)]
  · rw [← hself]
    exact lt_of_le_of_lt (Finset.card_le_card (busy_off_subset (fun _ _ => rfl)
      fun h hh => update_of_ne hh _ _)) hroom.busy

theorem enqueue_books (ha : Accounts bb held out) (hroom : Room bb held out n g) :
    Books ((bb.enqueue n g).activateLocked g) held (insert bb.nextWaiter out) := by
  have he := enqueue_spec bb n g
  have ht := activateLocked_touches (bb.enqueue n g) g
  have hfresh : bb.nextWaiter ∉ out := fun hm => absurd (ha.queues.fresh _ hm) (lt_irrefl _)
  have hold : ∀ v ∈ out, (bb.enqueue n g).waiterAt v = bb.waiterAt v := fun v hv =>
    he.rest v (ne_of_mem_of_not_mem hv hfresh)
  refine ⟨ht.fair.trans (he.frame.fair.trans ha.fair),
    (ha.queues.insert hroom.group_lt he rfl rfl rfl rfl).of_touches ht, ?_, ?_⟩
  · -- the new waiter has no credit, and is pending
    have hcred : (bb.enqueue n g).credits (insert bb.nextWaiter out) = bb.credits out := by
      rw [credits_insert hfresh (by rw [he.waiter])]
      exact credits_congr _ fun v hv => by rw [hold v hv]; exact ⟨rfl, rfl⟩
    have hpend : (bb.enqueue n g).pendings (insert bb.nextWaiter out) =
        update (bb.pendings out) g (bb.pendings out g + 1) := by
      rw [pendings_insert (g := g) hfresh (by rw [he.waiter]),
        pendings_congr bb fun v hv => by rw [hold v hv]]
    unfold balance
    rw [credits_congr (bb.enqueue n g) fun v _ => by rw [ht.waiterAt]; exact ⟨rfl, rfl⟩, hcred,
      pendings_congr (bb.enqueue n g) fun v _ => by rw [ht.waiterAt], hpend]
    exact enqueue_totals ha hroom
  · have hdem := hroom.demand
    have hsame : ∑ v ∈ out, ((bb.enqueue n g).waiterAt v).n = ∑ v ∈ out, (bb.waiterAt v).n :=
      Finset.sum_congr rfl fun v hv => by rw [hold v hv]
    have hnext : ((bb.enqueue n g).activateLocked g).nextGroup = bb.nextGroup := ht.nextGroup
    unfold demand requested at hdem ⊢
    rw [hnext, Finset.sum_insert hfresh, ht.waiterAt, he.waiter, hsame]
    show ∑ g ∈ Finset.range bb.nextGroup, held g + (n + ∑ v ∈ out, (bb.waiterAt v).n) < 2 ^ 64
    omega

/-- A request is queued: a new outstanding waiter without credit. -/
theorem enqueue_accounts (ha : Accounts bb held out) (hroom : Room bb held out n g) :
    Accounts (((bb.enqueue n g).activateLocked g).refreshLocked g) held (insert bb.nextWaiter out) ∧
      Frame bb (((bb.enqueue n g).activateLocked g).refreshLocked g) := by
  have hoff := enqueue_off ha.index ha.queues n g
  have hframe := (enqueue_spec bb n g).frame.trans (activateLocked_touches (bb.enqueue n g) g).frame
  exact ⟨(enqueue_books ha hroom).refresh hoff,
    hframe.trans (Rigid.of_core (refreshLocked_core hoff)).frame⟩

/-! ## reserveFor, cancel, releaseFor, register -/

theorem Touches.frame_refresh (hi : Index bb) (ht : Touches bb s g) :
    Frame bb (if (s.groupAt g).waiters = [] then s else s.refreshLocked g) := by
  split_ifs
  · exact ht.frame
  · exact ht.frame.trans (Rigid.of_core (refreshLocked_core (hi.off_touches ht))).frame

/-- The caller is charged `n` bytes. -/
theorem admit_accounts (ha : Accounts bb held out) (hroom : Room bb held out n g)
    (escape removed : Bool) :
    Accounts (bb.admitted n g escape removed) (update held g (held g + n)) out ∧
      Frame bb (bb.admitted n g escape removed) := by
  have ht := charge_touches bb n g escape
  have hacc := ha.touch_refresh ht (charge_books ha.toBooks hroom escape)
  have hframe := ht.frame_refresh ha.index
  unfold admitted
  cases removed with
  | false => exact ⟨hacc, hframe⟩
  | true =>
    obtain ⟨hs, hr⟩ := scheduleLocked_accounts hacc
    exact ⟨hs, hframe.trans hr.frame⟩

/-- The two outcomes of `reserveFor` without a waiter. -/
theorem admitOrQueue_cases (bb : ByteBudget) (n : Nat) (force : Bool) (g : GroupId)
    (removed : Bool) :
    ((bb.fits n g = true ∧ (bb.groupAt g).waiters = [] ∨ force = true) ∧
      ∃ escaped, (escaped = false ↔ bb.fits n g = true ∧ (bb.groupAt g).waiters = []) ∧
        bb.admitOrQueue n force g removed = (bb.admitted n g escaped removed,
          ⟨true, escaped, (bb.admitted n g escaped removed).used, none⟩)) ∨
    (¬ (bb.fits n g = true ∧ (bb.groupAt g).waiters = []) ∧ force = false ∧
      bb.admitOrQueue n force g removed =
        ((((bb.enqueue n g).activateLocked g).refreshLocked g).scheduleLocked,
          ⟨false, false, (((bb.enqueue n g).activateLocked g).refreshLocked g).scheduleLocked.used,
            some bb.nextWaiter⟩)) := by
  unfold admitOrQueue
  by_cases hq : (bb.groupAt g).waiters = []
  · cases hf : bb.fits n g with
    | true => exact Or.inl ⟨Or.inl ⟨rfl, hq⟩, false, by simp [hq], by simp [hq]⟩
    | false =>
      cases force with
      | true => exact Or.inl ⟨Or.inr rfl, true, by simp, by simp⟩
      | false => exact Or.inr ⟨by simp, rfl, by simp⟩
  · cases force with
    | true => exact Or.inl ⟨Or.inr rfl, true, by simp [hq], by simp [hq]⟩
    | false => exact Or.inr ⟨by simp [hq], rfl, by simp [hq]⟩

/-- Everything `reserveFor` of a fair budget can do. -/
inductive ReserveStep (bb : ByteBudget) (n : Nat) (force : Bool) (g : GroupId) :
    Option WaiterId → ByteBudget × Reservation → Prop where
  /-- The waiter was granted: its bytes are the caller's. -/
  | consume (v : WaiterId) : (bb.waiterAt v).granted = true →
      ReserveStep bb n force g (some v)
        (bb.settle g, ⟨true, false, (bb.settle g).used, none⟩)
  /-- Still queued. -/
  | wait (v : WaiterId) : (bb.waiterAt v).granted = false → force = false →
      ReserveStep bb n force g (some v) (bb, ⟨false, false, bb.used, some v⟩)
  /-- A forced admission gives the waiter up first. -/
  | replace (v : WaiterId) (escaped : Bool) : (bb.waiterAt v).granted = false → force = true →
      (escaped = false ↔ (bb.removeWaiterLocked v).fits n g = true ∧
        ((bb.removeWaiterLocked v).groupAt g).waiters = []) →
      ReserveStep bb n force g (some v)
        ((bb.removeWaiterLocked v).admitted n g escaped true,
          ⟨true, escaped, ((bb.removeWaiterLocked v).admitted n g escaped true).used, none⟩)
  | admitted (escaped : Bool) : (bb.fits n g = true ∧ (bb.groupAt g).waiters = [] ∨ force = true) →
      (escaped = false ↔ bb.fits n g = true ∧ (bb.groupAt g).waiters = []) →
      ReserveStep bb n force g none
        (bb.admitted n g escaped false, ⟨true, escaped, (bb.admitted n g escaped false).used, none⟩)
  | queue : ¬ (bb.fits n g = true ∧ (bb.groupAt g).waiters = []) → force = false →
      ReserveStep bb n force g none
        ((((bb.enqueue n g).activateLocked g).refreshLocked g).scheduleLocked,
          ⟨false, false, (((bb.enqueue n g).activateLocked g).refreshLocked g).scheduleLocked.used,
            some bb.nextWaiter⟩)

theorem reserveFor_step (hf : bb.fair = true) (n : Nat) (force : Bool) (og : Option GroupId)
    (w : Option WaiterId) :
    ReserveStep bb n force (group og) w (bb.reserveFor n force og w) := by
  unfold reserveFor
  rw [if_neg (by simp [hf])]
  cases w with
  | none =>
    show ReserveStep bb n force (group og) none (bb.admitOrQueue n force (group og) false)
    rcases admitOrQueue_cases bb n force (group og) false with
      ⟨hwhy, escaped, hesc, heq⟩ | ⟨hwhy, hforce, heq⟩
    · rw [heq]
      exact ReserveStep.admitted escaped hwhy hesc
    · rw [heq]
      exact ReserveStep.queue hwhy hforce
  | some v =>
    cases hgr : (bb.waiterAt v).granted with
    | true =>
      simp only [hgr, if_true]
      exact ReserveStep.consume v hgr
    | false =>
      simp only [hgr, Bool.false_eq_true, if_false]
      cases force with
      | false => exact ReserveStep.wait v hgr rfl
      | true =>
        rcases admitOrQueue_cases (bb.removeWaiterLocked v) n true (group og) true with
          ⟨-, escaped, hesc, heq⟩ | ⟨-, hforce, -⟩
        · rw [if_pos rfl, heq]
          exact ReserveStep.replace v escaped hgr rfl hesc
        · exact absurd hforce (by decide)

/-- The waiter of a request that was just queued. -/
theorem enqueue_waiter (ha : Accounts bb held out) (n : Nat) (g : GroupId) :
    (((bb.enqueue n g).activateLocked g).refreshLocked g).waiterAt bb.nextWaiter =
      { n := n, group := g, wake := some bb.nextChan, elem := true } := by
  rw [waiterAt_of_core (refreshLocked_core (enqueue_off ha.index ha.queues n g)),
    (activateLocked_touches _ g).waiterAt]
  exact (enqueue_spec bb n g).waiter

/-- A request by the group of an outstanding waiter makes no new group busy. -/
theorem Accounts.busy_insert (ha : Accounts bb held out) (hw : w ∈ out)
    (hgrp : (bb.waiterAt w).group = g) :
    insert g (bb.busy (bb.balance held out) (bb.pendings out)) =
      bb.busy (bb.balance held out) (bb.pendings out) := by
  refine Finset.insert_eq_of_mem ?_
  rw [busy, Finset.mem_filter, Finset.mem_range]
  have hp := pendings_pos hw hgrp
  exact ⟨hgrp ▸ ha.queues.group_lt w hw, Or.inr (by omega)⟩

/-- Room for a forced request once the waiter it replaces is gone. -/
theorem Accounts.room_of_waiter (ha : Accounts bb held out) (hw : w ∈ out)
    (hgrp : (bb.waiterAt w).group = g)
    (hdem : bb.demand held (out.erase w) + n < 2 ^ 64) (hcard : out.card < 2 ^ 64)
    (hr : ∀ v ∈ out.erase w, s.waiterAt v = bb.waiterAt v) (hng : s.nextGroup = bb.nextGroup) :
    Room s held (out.erase w) n g := by
  have hreq : s.requested (out.erase w) = bb.requested (out.erase w) :=
    requested_congr _ fun v hv => by rw [hr v hv]
  refine ⟨hng ▸ hgrp ▸ ha.queues.group_lt w hw, ?_, ?_, ?_⟩
  · unfold demand at hdem ⊢
    rw [hng, hreq]
    exact hdem
  · have hc := Finset.card_erase_of_mem hw
    have hpos := Finset.card_pos.2 ⟨w, hw⟩
    omega
  · have hsub : insert g (s.busy (s.balance held (out.erase w)) (s.pendings (out.erase w))) ⊆
        bb.busy (bb.balance held out) (bb.pendings out) := by
      rw [← ha.busy_insert hw hgrp]
      refine Finset.insert_subset_insert _ ?_
      intro h hh
      rw [busy, Finset.mem_filter, hng] at hh
      rw [busy, Finset.mem_filter]
      refine ⟨hh.1, ?_⟩
      have hc : s.credits (out.erase w) h ≤ bb.credits out h := by
        rw [credits_congr bb fun v hv => by rw [hr v hv]; exact ⟨rfl, rfl⟩,
          credits_erase _ hw hgrp]
        by_cases hhg : h = g
        · rw [hhg, update_self]
          exact Nat.sub_le _ _
        · rw [update_of_ne hhg]
      have hp : s.pendings (out.erase w) h ≤ bb.pendings out h := by
        rw [pendings_congr bb fun v hv => by rw [hr v hv], pendings_erase hw hgrp]
        by_cases hhg : h = g
        · rw [hhg, update_self]
          exact Nat.sub_le _ _
        · rw [update_of_ne hhg]
      unfold balance at hh ⊢
      omega
    exact lt_of_le_of_lt (Finset.card_le_card hsub) (TotalsOff.small ha.totals)

/-- A forced `reserveFor` gives its waiter up and charges the caller. -/
theorem remove_room (ha : Accounts bb held out) (hw : w ∈ out)
    (hgrp : (bb.waiterAt w).group = g) (hdem : bb.demand held (out.erase w) + n < 2 ^ 64)
    (hcard : out.card < 2 ^ 64) : Room (bb.removeWaiterLocked w) held (out.erase w) n g := by
  obtain ⟨-, -, hng, hrest⟩ := removeWaiterLocked_accounts ha hw
  exact ha.room_of_waiter hw hgrp hdem hcard (fun v hv => hrest v (Finset.ne_of_mem_erase hv)) hng

theorem cancel_eq (hf : bb.fair = true) (w : WaiterId) :
    bb.cancel (some w) = (bb.removeWaiterLocked w).scheduleLocked := by
  unfold cancel
  simp [hf]

/-- `cancel` of an outstanding waiter. -/
theorem cancel_accounts (ha : Accounts bb held out) (hw : w ∈ out) :
    Accounts (bb.cancel (some w)) held (out.erase w) ∧ Frame bb (bb.cancel (some w)) := by
  obtain ⟨hacc, hframe, -, -⟩ := removeWaiterLocked_accounts ha hw
  obtain ⟨hs, hr⟩ := scheduleLocked_accounts hacc
  rw [cancel_eq ha.fair]
  exact ⟨hs, hframe.trans hr.frame⟩

/-- A release before anything is scheduled. -/
def released (bb : ByteBudget) (n escape : Nat) (g : GroupId) : ByteBudget :=
  if ((bb.releaseLocked n escape g).groupAt g).waiters = [] then bb.releaseLocked n escape g
  else (bb.releaseLocked n escape g).refreshLocked g

theorem releaseFor_eq (hf : bb.fair = true) (hn : n ≠ 0) (escape : Nat) (og : Option GroupId) :
    bb.releaseFor n escape og = (bb.released n escape (group og)).scheduleLocked := by
  have ht := releaseLocked_touches bb n escape (group og)
  unfold releaseFor released
  simp only [if_neg hn, ht.fair.trans hf]
  rfl

theorem released_accounts (ha : Accounts bb held out) (hg : g < bb.nextGroup) (hn : n ≤ held g)
    (escape : Nat) :
    Accounts (bb.released n escape g) (update held g (held g - n)) out ∧
      Frame bb (bb.released n escape g) := by
  have ht := releaseLocked_touches bb n escape g
  exact ⟨ha.touch_refresh ht (releaseLocked_books ha.toBooks hg hn escape),
    ht.frame_refresh ha.index⟩

/-- `releaseFor` of bytes the callers of the group hold. -/
theorem releaseFor_accounts (ha : Accounts bb held out) {og : Option GroupId}
    (hg : group og < bb.nextGroup) (hn : n ≤ held (group og)) (escape : Nat) :
    Accounts (bb.releaseFor n escape og)
        (update held (group og) (held (group og) - n)) out ∧
      Frame bb (bb.releaseFor n escape og) := by
  by_cases h0 : n = 0
  · subst h0
    rw [Nat.sub_zero, update_eq_self]
    exact ⟨ha, (Rigid.refl bb).frame⟩
  · obtain ⟨hacc, hfr⟩ := released_accounts ha hg hn escape
    obtain ⟨hs, hr⟩ := scheduleLocked_accounts hacc
    rw [releaseFor_eq ha.fair h0]
    exact ⟨hs, hfr.trans hr.frame⟩

/-! ## Registrations -/

/-- `s` is `bb` with other registrations: the queues and what the indexes depend on are the
same. -/
structure Reregistered (bb s : ByteBudget) : Prop where
  index : SameIndex bb s
  fair : s.fair = bb.fair
  waiterAt : s.waiterAt = bb.waiterAt
  waiters : ∀ h, (s.groupAt h).waiters = (bb.groupAt h).waiters
  used : ∀ h, (s.groupAt h).waiters ≠ [] → (s.groupAt h).used = (bb.groupAt h).used
  nextWaiter : s.nextWaiter = bb.nextWaiter
  nextGroup : bb.nextGroup ≤ s.nextGroup
  closed : s.closed = bb.closed
  nextChan : s.nextChan = bb.nextChan

theorem Reregistered.refl (bb : ByteBudget) : Reregistered bb bb :=
  ⟨⟨rfl, rfl, rfl, fun _ => ⟨rfl, rfl, rfl⟩⟩, rfl, rfl, fun _ => rfl, fun _ _ => rfl, rfl, le_rfl,
    rfl, rfl⟩

/-- Writing to a group without touching its counter of used bytes. -/
theorem Touches.reregistered (ht : Touches bb s g)
    (hused : ∀ h, (s.groupAt h).used = (bb.groupAt h).used) : Reregistered bb s :=
  ⟨ht.index, ht.fair, ht.waiterAt, ht.waiters, fun h _ => hused h, ht.nextWaiter, ht.nextGroup.ge,
    ht.closed, ht.nextChan⟩

theorem unregister_reregistered (bb : ByteBudget) (og : Option GroupId) :
    Reregistered bb (bb.unregister og) := by
  cases og with
  | none => exact .refl bb
  | some g => exact (unregisterLocked_touches bb g).reregistered (unregisterLocked_used bb g)

theorem Accounts.of_same (ha : Accounts bb held out) (hs : Reregistered bb s)
    (ht : Totals s (bb.balance held out) (bb.pendings out))
    (hd : ∑ g ∈ Finset.range s.nextGroup, held g = ∑ g ∈ Finset.range bb.nextGroup, held g) :
    Accounts s held out := by
  refine ⟨⟨hs.fair.trans ha.fair, ha.queues.congr hs.waiterAt hs.waiters hs.nextWaiter hs.nextGroup
    hs.closed hs.nextChan, ?_, ?_⟩, ha.index.of_same hs.index hs.waiters fun h hne => ?_⟩
  · unfold balance
    rw [credits_congr bb fun v _ => by rw [hs.waiterAt]; exact ⟨rfl, rfl⟩,
      pendings_congr bb fun v _ => by rw [hs.waiterAt]]
    exact ht
  · unfold demand
    rw [requested_congr bb fun v _ => by rw [hs.waiterAt], hd]
    exact ha.demand
  · unfold groupNeed
    rw [hs.waiters, hs.waiterAt, hs.used h hne]

theorem unregister_accounts (ha : Accounts bb held out) (og : Option GroupId) :
    Accounts (bb.unregister og) held out ∧ Frame bb (bb.unregister og) := by
  cases og with
  | none => exact ⟨ha, (Rigid.refl bb).frame⟩
  | some g =>
    have ht := unregisterLocked_touches bb g
    refine ⟨ha.of_same (unregister_reregistered bb (some g)) (unregisterLocked_totals ha.totals) ?_,
      ht.frame⟩
    rw [show (bb.unregister (some g)).nextGroup = bb.nextGroup from ht.nextGroup]

/-- A group index that no pointer has yet is in no index. -/
theorem Index.unused (hi : Index bb) (hq : Queues bb out) (hg : bb.nextGroup ≤ g) :
    (bb.groupAt g).waiters = [] ∧ (bb.groupAt g).allElem = false ∧
      (bb.groupAt g).reserveElem = false ∧ (bb.groupAt g).heapIndex = none := by
  have hempty : (bb.groupAt g).waiters = [] := by
    rw [List.eq_nil_iff_forall_not_mem]
    intro w hw
    obtain ⟨hout, hgrp, -⟩ := (hq.mem g w).1 hw
    exact absurd (hgrp ▸ hq.group_lt w hout) (Nat.not_lt.2 hg)
  have hw : g ∉ bb.waiting := fun hm => (hi.queued g).1 hm hempty
  have hr : g ∉ bb.reserveReady := fun hm => hw ((hi.both g).2 (Or.inl hm))
  have hbl : g ∉ bb.blocked := fun hm => hw ((hi.both g).2 (Or.inr hm))
  refine ⟨hempty, ?_, ?_, ?_⟩
  · rw [Bool.eq_false_iff]
    exact fun h => hw ((hi.all_iff g).1 h)
  · rw [Bool.eq_false_iff]
    exact fun h => hr ((hi.reserve_iff g).1 h)
  · cases hidx : (bb.groupAt g).heapIndex with
    | none => rfl
    | some i => exact absurd ((hi.back.mem_iff g).2 ⟨i, hidx⟩) hbl

/-- A group index that no pointer has yet is untouched. -/
theorem Accounts.unused (ha : Accounts bb held out) (hg : bb.nextGroup ≤ g) :
    (bb.groupAt g).used = 0 ∧ (bb.groupAt g).pending = 0 ∧ (bb.groupAt g).active = false ∧
      (bb.groupAt g).waiters = [] ∧ (bb.groupAt g).allElem = false ∧
      (bb.groupAt g).reserveElem = false ∧ (bb.groupAt g).heapIndex = none := by
  obtain ⟨hb, hp⟩ := TotalsOff.support ha.totals g hg
  refine ⟨?_, ?_, ?_, ha.index.unused ha.queues hg⟩
  · rw [TotalsOff.group_used ha.totals, hb]
  · rw [TotalsOff.group_pending ha.totals, hp]
  · rw [TotalsOff.flag ha.totals g trivial, hb, hp]
    rfl

/-- What `register` does on a fair budget: one more reference to a group, found by
its key or new. -/
theorem register_cases (hf : bb.fair = true) (key : String) :
    (bb.register key).1 = bb ∨
    (∃ g, bb.groups key = some g ∧ (bb.register key).1 =
      bb.setGroup g fun x => { x with refs := add64 x.refs 1 }) ∨
    (bb.groups key = none ∧ (bb.register key).1 =
      { (bb.setGroup bb.nextGroup fun _ => { key := key, refs := 1 }) with
        groups := update bb.groups key (some bb.nextGroup)
        nextGroup := bb.nextGroup + 1 }) := by
  unfold register
  rw [if_neg (by simp [hf])]
  split_ifs with hkey
  · exact Or.inl rfl
  · cases hg : bb.groups key with
    | some g => exact Or.inr (Or.inl ⟨g, rfl, rfl⟩)
    | none => exact Or.inr (Or.inr ⟨rfl, rfl⟩)

/-- One more reference to a group. -/
theorem addRef_touches (bb : ByteBudget) (g : GroupId) :
    Touches bb (bb.setGroup g fun x => { x with refs := add64 x.refs 1 }) g :=
  touches_setGroup (fun _ => rfl) fun _ => ⟨rfl, rfl, rfl⟩

theorem addRef_counters (bb : ByteBudget) (g h : GroupId) :
    ((bb.setGroup g fun x => { x with refs := add64 x.refs 1 }).groupAt h).used =
        (bb.groupAt h).used ∧
      ((bb.setGroup g fun x => { x with refs := add64 x.refs 1 }).groupAt h).pending =
        (bb.groupAt h).pending ∧
      ((bb.setGroup g fun x => { x with refs := add64 x.refs 1 }).groupAt h).active =
        (bb.groupAt h).active := by
  by_cases hh : h = g
  · subst hh
    simp
  · simp [hh]

theorem register_reregistered (hf : bb.fair = true) (hi : Index bb) (hq : Queues bb out)
    (key : String) : Reregistered bb (bb.register key).1 := by
  rcases register_cases hf key with heq | ⟨g, -, heq⟩ | ⟨-, heq⟩
  · rw [heq]
    exact .refl bb
  · rw [heq]
    exact (addRef_touches bb g).reregistered fun h => (addRef_counters bb g h).1
  · -- the new group starts where an unused index stands
    rcases hi.unused hq (le_refl bb.nextGroup) with ⟨hempty, hall, hres, hidx⟩
    rw [heq]
    have hat : ∀ h,
        ((update bb.groupAt bb.nextGroup { key := key, refs := 1 }) h).waiters =
          (bb.groupAt h).waiters ∧
        ((update bb.groupAt bb.nextGroup { key := key, refs := 1 }) h).allElem =
          (bb.groupAt h).allElem ∧
        ((update bb.groupAt bb.nextGroup { key := key, refs := 1 }) h).reserveElem =
          (bb.groupAt h).reserveElem ∧
        ((update bb.groupAt bb.nextGroup { key := key, refs := 1 }) h).heapIndex =
          (bb.groupAt h).heapIndex := by
      intro h
      by_cases hh : h = bb.nextGroup
      · subst hh
        rw [update_self, hempty, hall, hres, hidx]
        exact ⟨rfl, rfl, rfl, rfl⟩
      · rw [update_of_ne hh]
        exact ⟨rfl, rfl, rfl, rfl⟩
    refine ⟨⟨rfl, rfl, rfl, fun h => (hat h).2⟩, rfl, rfl, fun h => (hat h).1, fun h hne => ?_, rfl,
      Nat.le_succ _, rfl, rfl⟩
    have hh : h ≠ bb.nextGroup := by
      rintro rfl
      exact hne ((hat _).1.trans hempty)
    show ((update bb.groupAt bb.nextGroup _) h).used = _
    rw [update_of_ne hh]

theorem register_accounts (ha : Accounts bb held out) (hsup : held bb.nextGroup = 0)
    (key : String) :
    Accounts (bb.register key).1 held out ∧ Frame bb (bb.register key).1 := by
  have hs := register_reregistered ha.fair ha.index ha.queues key
  rcases register_cases ha.fair key with heq | ⟨g, -, heq⟩ | ⟨-, heq⟩
  · rw [heq]
    exact ⟨ha, (Rigid.refl bb).frame⟩
  · rw [heq] at hs ⊢
    exact ⟨ha.of_same hs (TotalsOff.congr ha.totals rfl rfl rfl (addRef_counters bb g)) rfl,
      (addRef_touches bb g).frame⟩
  · -- the new group starts where an unused index stands
    rcases ha.unused (le_refl bb.nextGroup) with ⟨hu, hp, hac, -⟩
    rw [heq] at hs ⊢
    refine ⟨ha.of_same hs (Totals.fresh ha.totals rfl rfl rfl fun h => ?_) ?_, ?_⟩
    · by_cases hh : h = bb.nextGroup
      · subst hh
        simp [hu, hp, hac]
      · simp [hh]
    · rw [Finset.sum_range_succ, hsup, Nat.add_zero]
    · exact ⟨rfl, rfl, rfl, rfl, Nat.le_succ _, le_rfl, le_rfl, fun _ _ => ⟨rfl, rfl, rfl⟩⟩

/-! ## The escape ledger, operation by operation -/

/-- After its charge, an admission only schedules. -/
theorem admit_rigid (ha : Accounts bb held out) (hroom : Room bb held out n g)
    (escape removed : Bool) : Rigid (bb.charge n g escape) (bb.admitted n g escape removed) := by
  have ht := charge_touches bb n g escape
  have hacc := ha.touch_refresh ht (charge_books ha.toBooks hroom escape)
  have hrefresh : Rigid (bb.charge n g escape)
      (if ((bb.charge n g escape).groupAt g).waiters = [] then bb.charge n g escape
        else (bb.charge n g escape).refreshLocked g) := by
    split_ifs
    · exact Rigid.refl _
    · exact Rigid.of_core (refreshLocked_core (ha.index.off_touches ht))
  unfold admitted
  cases removed with
  | false => exact hrefresh
  | true => exact hrefresh.trans (scheduleLocked_accounts hacc).2

theorem admit_escapes (ha : Accounts bb held out) (hroom : Room bb held out n g)
    (he : Escapes bb esc) (hsum : bb.escape + n < 2 ^ 64) (escape removed : Bool) :
    Escapes (bb.admitted n g escape removed)
      (update esc g (esc g + if escape then n else 0)) := by
  refine Escapes.of_rigid ?_ (admit_rigid ha hroom escape removed)
  cases escape with
  | false =>
    rw [if_neg Bool.false_ne_true, Nat.add_zero, update_eq_self]
    exact charge_escapes he
  | true =>
    rw [if_pos rfl]
    exact charge_escapes_true ha.fair hroom.group_lt he hsum

theorem removeWaiterLocked_escapes (ha : Accounts bb held out) (hw : w ∈ out)
    (he : Escapes bb esc) : Escapes (bb.removeWaiterLocked w) esc := by
  refine Escapes.of_core ?_ (refreshLocked_core (remove_off ha hw))
  refine settle_escapes ?_
  have hu := unqueue_spec ha.queues hw rfl
  have he' := he.of_rigid hu.rigid
  have hgrp : ((bb.unqueue w).waiterAt w).group = (bb.waiterAt w).group := hu.rigid.waiter_group w
  rcases refund_cases (bb.unqueue w) w with ⟨-, heq⟩ | ⟨-, heq⟩
  · rw [heq]
    exact he'
  · rw [heq, hgrp]
    have hrel := releaseLocked_escapes (n := ((bb.unqueue w).waiterAt w).credit)
      (g := (bb.waiterAt w).group) (hu.rigid.fair.trans ha.fair)
      (hu.rigid.nextGroup ▸ ha.queues.group_lt w hw) he' (Nat.zero_le _)
    rw [Nat.sub_zero, update_eq_self] at hrel
    exact hrel.congr rfl rfl fun _ => rfl

theorem enqueue_escapes (ha : Accounts bb held out) (he : Escapes bb esc) (n : Nat) (g : GroupId) :
    Escapes (((bb.enqueue n g).activateLocked g).refreshLocked g) esc := by
  have hq := enqueue_spec bb n g
  have henq : Escapes (bb.enqueue n g) esc := by
    refine he.congr rfl rfl ?_
    intro h
    by_cases hh : h = g
    · subst hh
      simp [enqueue]
    · rw [hq.other h hh]
  exact (activateLocked_escapes henq).of_core
    (refreshLocked_core (enqueue_off ha.index ha.queues n g))

theorem released_escapes (ha : Accounts bb held out) (he : Escapes bb esc)
    (hg : g < bb.nextGroup) {e : Nat} (hle : e ≤ esc g) :
    Escapes (bb.released n e g) (update esc g (esc g - e)) := by
  have ht := releaseLocked_touches bb n e g
  have hrel := releaseLocked_escapes (n := n) ha.fair hg he hle
  unfold released
  split_ifs
  · exact hrel
  · exact hrel.of_core (refreshLocked_core (ha.index.off_touches ht))

theorem register_escapes (ha : Accounts bb held out) (he : Escapes bb esc) (key : String) :
    Escapes (bb.register key).1 esc := by
  rcases register_cases ha.fair key with heq | ⟨g, -, heq⟩ | ⟨-, heq⟩
  · rw [heq]
    exact he
  · rw [heq]
    refine he.congr rfl rfl ?_
    intro h
    by_cases hh : h = g
    · subst hh
      simp
    · simp [hh]
  · have h0 := he.support bb.nextGroup le_rfl
    rw [heq]
    refine ⟨?_, ?_, he.bound, ?_⟩
    · intro h
      by_cases hh : h = bb.nextGroup
      · rw [hh, h0]
        simp
      · rw [← he.group_escape h]
        simp [hh]
    · show bb.escape = ∑ g ∈ Finset.range (bb.nextGroup + 1), esc g
      rw [Finset.sum_range_succ, h0, Nat.add_zero]
      exact he.escape
    · intro h hh
      exact he.support h (le_trans (Nat.le_succ _) hh)

end ByteBudget

end UspClient
