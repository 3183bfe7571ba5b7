import UspClient.Budget.Waiters

/-!
# scheduleLocked

`Accounts bb held out` is the ledger of a fair budget: every byte counted as used
is held by a caller (`held g` per group) or credited to an outstanding waiter. One
round of the scheduler keeps it, hands out at least one byte, and never more than
its head lacks; so the loop ends by a return, in a state where nothing a queued
head is entitled to is left.
-/

namespace UspClient

open Function Word64

namespace ByteBudget

variable {bb s t : ByteBudget} {g h : GroupId} {w v : WaiterId} {n c : Nat}
variable {out : Finset WaiterId} {held : GroupId → Nat}

/-! ## The ledger -/

/-- The counters agree with the ledger, and nothing overflows. -/
structure Books (bb : ByteBudget) (held : GroupId → Nat) (out : Finset WaiterId) : Prop where
  fair : bb.fair = true
  queues : Queues bb out
  totals : Totals bb (bb.balance held out) (bb.pendings out)
  demand : bb.demand held out < 2 ^ 64

/-- The ledger and the indexes between two operations. -/
structure Accounts (bb : ByteBudget) (held : GroupId → Nat) (out : Finset WaiterId) : Prop
    extends Books bb held out where
  index : Index bb

theorem Books.of_core (hb : Books bb held out) (hc : s.core = bb.core) : Books s held out := by
  have hr := Rigid.of_core hc
  have hat : s.waiterAt = bb.waiterAt := by
    have hw := congrArg (fun x : ByteBudget => x.waiterAt) hc
    exact hw
  refine ⟨hr.fair.trans hb.fair, hb.queues.of_core hc, ?_, ?_⟩
  · unfold balance
    rw [credits_congr bb (by intro v _; rw [hat]; exact ⟨rfl, rfl⟩), hr.pendings]
    exact hb.totals.of_core hc
  · rw [hr.demand]
    exact hb.demand

/-- `refreshLocked` completes an operation that wrote to one group. -/
theorem Books.refresh (hb : Books bb held out) (hi : IndexOff bb g) :
    Accounts (bb.refreshLocked g) held out :=
  ⟨hb.of_core (refreshLocked_core hi), refreshLocked_index hi⟩

theorem Accounts.of_core (ha : Accounts bb held out) (hc : s.core = bb.core) (hi : Index s) :
    Accounts s held out :=
  ⟨ha.toBooks.of_core hc, hi⟩

theorem Books.used_add (hb : Books bb held out) :
    bb.used + ∑ w ∈ out, ((bb.waiterAt w).n - (bb.waiterAt w).credit) = bb.demand held out := by
  rw [TotalsOff.used hb.totals]
  exact hb.queues.sum_balance

/-- The bytes a waiter lacks fit on top of those used. -/
theorem Books.lack_le (hb : Books bb held out) (hw : w ∈ out) :
    bb.used + ((bb.waiterAt w).n - (bb.waiterAt w).credit) < 2 ^ 64 := by
  have hsum := hb.used_add
  have hle := Finset.single_le_sum
    (f := fun w => (bb.waiterAt w).n - (bb.waiterAt w).credit) (fun _ _ => Nat.zero_le _) hw
  have hd := hb.demand
  omega

theorem Books.waiter_lt (hb : Books bb held out) (hw : w ∈ out) : (bb.waiterAt w).n < 2 ^ 64 := by
  have hle := Finset.single_le_sum (f := fun w => (bb.waiterAt w).n) (fun _ _ => Nat.zero_le _) hw
  have hd := hb.demand
  unfold ByteBudget.demand requested at hd
  omega

/-- A group with a queue is active. -/
theorem Books.active_of_queue (hb : Books bb held out) (hw : w ∈ (bb.groupAt g).waiters) :
    (bb.groupAt g).active = true := by
  obtain ⟨hout, hg, -⟩ := (hb.queues.mem g w).1 hw
  rw [TotalsOff.flag hb.totals g trivial]
  have hp := pendings_pos hout hg
  exact decide_eq_true (Or.inr (by omega))

theorem headD_mem {l : List WaiterId} (h : l ≠ []) : l.headD 0 ∈ l := by
  cases l with
  | nil => exact absurd rfl h
  | cons a l => exact List.mem_cons_self

/-- A waiter is queued at its own group only. -/
theorem Queues.not_mem_of_ne (hq : Queues bb out) (hgrp : (bb.waiterAt w).group = g) (hh : h ≠ g) :
    w ∉ (bb.groupAt h).waiters := fun hm =>
  hh (((hq.mem h w).1 hm).2.1.symm.trans hgrp)

/-- The need of a group does not see waiters outside its queue. -/
theorem groupNeed_of_not_mem (hnot : w ∉ (bb.groupAt h).waiters)
    (hne : (bb.groupAt h).waiters ≠ []) (hat : s.groupAt h = bb.groupAt h)
    (hv : ∀ v, v ≠ w → s.waiterAt v = bb.waiterAt v) : s.groupNeed h = bb.groupNeed h := by
  have hhead : (bb.groupAt h).waiters.headD 0 ≠ w := by
    intro heq
    exact hnot (heq ▸ headD_mem hne)
  unfold groupNeed
  rw [hat, hv _ hhead]

/-! ## One credit -/

/-- What `giveCredit` does besides the charge. -/
structure Gave (bb s : ByteBudget) (g : GroupId) (w : WaiterId) (c : Nat) (full : Bool) :
    Prop where
  index : SameIndex bb s
  other : ∀ h, h ≠ g → s.groupAt h = bb.groupAt h
  queue : (s.groupAt g).waiters =
    if full then (bb.groupAt g).waiters.erase w else (bb.groupAt g).waiters
  waiter : s.waiterAt w = { bb.waiterAt w with
    credit := (bb.waiterAt w).credit + c
    elem := (bb.waiterAt w).elem && !full
    granted := (bb.waiterAt w).granted || full }
  rest : ∀ v, v ≠ w → s.waiterAt v = bb.waiterAt v
  closed : ∀ k, s.closed k = (bb.closed k || (full && decide ((bb.waiterAt w).wake = some k)))

theorem grant_cases (bb : ByteBudget) (g : GroupId) (w : WaiterId) :
    ((bb.waiterAt w).wake = none ∧ bb.grant g w =
      (bb.setGroup g fun x => { x with waiters := x.waiters.erase w }).setWaiter w
        fun x => { x with elem := false, granted := true }) ∨
    ∃ k, (bb.waiterAt w).wake = some k ∧ bb.grant g w =
      ((bb.setGroup g fun x => { x with waiters := x.waiters.erase w }).setWaiter w
        fun x => { x with elem := false, granted := true }).closeChan k := by
  unfold grant
  cases hwake : (bb.waiterAt w).wake with
  | none =>
    left
    refine ⟨rfl, ?_⟩
    simp [hwake]
  | some k =>
    right
    refine ⟨k, rfl, ?_⟩
    simp [hwake]

theorem grant_spec (bb : ByteBudget) (g : GroupId) (w : WaiterId) :
    Gave bb (bb.grant g w) g w 0 true := by
  have hflags : ∀ h, ((bb.setGroup g fun x => { x with waiters := x.waiters.erase w }).groupAt
      h).allElem = (bb.groupAt h).allElem ∧
      ((bb.setGroup g fun x => { x with waiters := x.waiters.erase w }).groupAt
        h).reserveElem = (bb.groupAt h).reserveElem ∧
      ((bb.setGroup g fun x => { x with waiters := x.waiters.erase w }).groupAt
        h).heapIndex = (bb.groupAt h).heapIndex := by
    intro h
    by_cases hh : h = g
    · subst hh
      simp
    · simp [hh]
  rcases grant_cases bb g w with ⟨hwake, heq⟩ | ⟨k, hwake, heq⟩
  · rw [heq]
    refine ⟨⟨rfl, rfl, rfl, hflags⟩, ?_, ?_, ?_, ?_, ?_⟩
    · intro h hh
      simp [hh]
    · simp
    · simp
    · intro v hv
      simp [hv]
    · simp [hwake]
  · rw [heq]
    refine ⟨⟨rfl, rfl, rfl, hflags⟩, ?_, ?_, ?_, ?_, ?_⟩
    · intro h hh
      simp [hh]
    · simp
    · simp
    · intro v hv
      simp [hv]
    · intro j
      simp only [closeChan_closed, setWaiter_closed, setGroup_closed, update_apply, hwake,
        Option.some.injEq, Bool.true_and]
      by_cases hj : j = k
      · simp [hj]
      · simp [hj, Ne.symm hj]

theorem giveCredit_spec (hc : (bb.waiterAt w).credit + c < 2 ^ 64) :
    Gave bb (bb.giveCredit g w c) g w c
      (decide ((bb.waiterAt w).credit + c = (bb.waiterAt w).n)) := by
  have ht := charge_touches bb c g false
  -- the charge does not touch the waiter
  have hcell : (((bb.charge c g false).setWaiter w
      fun x => { x with credit := add64 x.credit c }).waiterAt w) =
      { bb.waiterAt w with credit := (bb.waiterAt w).credit + c } := by
    rw [setWaiter_waiterAt, update_self, ht.waiterAt, add64_eq hc]
  have hrest : ∀ v, v ≠ w → ((bb.charge c g false).setWaiter w
      fun x => { x with credit := add64 x.credit c }).waiterAt v = bb.waiterAt v := by
    intro v hv
    rw [setWaiter_waiterAt, update_of_ne hv, ht.waiterAt]
  unfold giveCredit
  simp only [hcell]
  split_ifs with hfull
  · -- the credit is complete: the waiter is granted and leaves the queue
    have hgr := grant_spec ((bb.charge c g false).setWaiter w
      fun x => { x with credit := add64 x.credit c }) g w
    rw [decide_eq_true hfull]
    have hsame : SameIndex bb ((bb.charge c g false).setWaiter w
        fun x => { x with credit := add64 x.credit c }) :=
      ⟨ht.index.waiting, ht.index.reserveReady, ht.index.blocked, ht.index.flags⟩
    refine ⟨hsame.trans hgr.index, ?_, ?_, ?_, ?_, ?_⟩
    · intro h hh
      exact (hgr.other h hh).trans (ht.other h hh)
    · rw [hgr.queue]
      simp [ht.queue]
    · rw [hgr.waiter, hcell]
      simp
    · intro v hv
      exact (hgr.rest v hv).trans (hrest v hv)
    · intro k
      rw [hgr.closed k, hcell]
      simp [ht.closed]
  · rw [decide_eq_false hfull]
    refine ⟨⟨ht.index.waiting, ht.index.reserveReady, ht.index.blocked, ht.index.flags⟩, ht.other,
      ?_, ?_, hrest, ?_⟩
    · simp [ht.queue]
    · rw [hcell]
      simp
    · intro k
      simp [ht.closed]

/-- The counters after a credit are those after its charge. -/
theorem giveCredit_counters (bb : ByteBudget) (g : GroupId) (w : WaiterId) (c : Nat) :
    (bb.giveCredit g w c).used = (bb.charge c g false).used ∧
    (bb.giveCredit g w c).active = (bb.charge c g false).active ∧
    (bb.giveCredit g w c).nextGroup = (bb.charge c g false).nextGroup ∧
    ∀ h, ((bb.giveCredit g w c).groupAt h).used = ((bb.charge c g false).groupAt h).used ∧
      ((bb.giveCredit g w c).groupAt h).pending = ((bb.charge c g false).groupAt h).pending ∧
      ((bb.giveCredit g w c).groupAt h).active = ((bb.charge c g false).groupAt h).active := by
  have hgrant : ∀ s : ByteBudget, (s.grant g w).used = s.used ∧ (s.grant g w).active = s.active ∧
      (s.grant g w).nextGroup = s.nextGroup ∧
      ∀ h, ((s.grant g w).groupAt h).used = (s.groupAt h).used ∧
        ((s.grant g w).groupAt h).pending = (s.groupAt h).pending ∧
        ((s.grant g w).groupAt h).active = (s.groupAt h).active := by
    intro s
    have hat : ∀ h, ((s.setGroup g fun x => { x with waiters := x.waiters.erase w }).groupAt
        h).used = (s.groupAt h).used ∧
        ((s.setGroup g fun x => { x with waiters := x.waiters.erase w }).groupAt
          h).pending = (s.groupAt h).pending ∧
        ((s.setGroup g fun x => { x with waiters := x.waiters.erase w }).groupAt
          h).active = (s.groupAt h).active := by
      intro h
      by_cases hh : h = g
      · subst hh
        simp
      · simp [hh]
    rcases grant_cases s g w with ⟨-, heq⟩ | ⟨k, -, heq⟩
    · rw [heq]
      exact ⟨rfl, rfl, rfl, hat⟩
    · rw [heq]
      exact ⟨rfl, rfl, rfl, hat⟩
  unfold giveCredit
  simp only
  split_ifs
  · exact hgrant _
  · exact ⟨rfl, rfl, rfl, fun _ => ⟨rfl, rfl, rfl⟩⟩

theorem charge_charges (hf : bb.fair = true) (n : Nat) (g : GroupId) (escaped : Bool) :
    (bb.charge n g escaped).charges = bb.chargeRecord n g escaped :: bb.charges := by
  have hact : ∀ x : ByteBudget, (x.activateLocked g).charges = x.charges := by
    intro x
    unfold activateLocked
    simp only
    split_ifs <;> simp only [setActive_charges, setGroup_charges]
  unfold charge
  rw [if_neg (by simp [hf]), hact]
  rfl

theorem grant_charges (bb : ByteBudget) (g : GroupId) (w : WaiterId) :
    (bb.grant g w).charges = bb.charges := by
  rcases grant_cases bb g w with ⟨-, heq⟩ | ⟨k, -, heq⟩
  · rw [heq]
    rfl
  · rw [heq]
    rfl

theorem giveCredit_charges (bb : ByteBudget) (g : GroupId) (w : WaiterId) (c : Nat) :
    (bb.giveCredit g w c).charges = (bb.charge c g false).charges := by
  unfold giveCredit
  simp only
  split_ifs
  · exact grant_charges ..
  · rfl

/-- A waiter leaves its queue with its last byte. -/
theorem Gave.mem_queue {full : Bool} (hg : Gave bb s g w c full) (hq : Queues bb out)
    (hgrp : (bb.waiterAt w).group = g) (h : GroupId) (v : WaiterId) :
    v ∈ (s.groupAt h).waiters ↔ v ∈ (bb.groupAt h).waiters ∧ (v = w → full = false) := by
  by_cases hh : h = g
  · subst hh
    rw [hg.queue]
    cases full with
    | true =>
      rw [if_pos rfl, (hq.nodup h).mem_erase_iff, and_comm]
      simp
    | false => simp
  · rw [hg.other h hh]
    refine ⟨fun hv => ⟨hv, ?_⟩, fun hv => hv.1⟩
    rintro rfl
    exact absurd (((hq.mem h v).1 hv).2.1.symm.trans hgrp) hh

/-- A credit to the waiter at the head of a queue: only this waiter and its channel change. -/
theorem Queues.give (hq : Queues bb out) (hw : w ∈ (bb.groupAt g).waiters)
    (hr : Rigid bb s) (hpos : 0 < c)
    (hc : c ≤ (bb.waiterAt w).n - (bb.waiterAt w).credit)
    (hg : Gave bb s g w c (decide ((bb.waiterAt w).credit + c = (bb.waiterAt w).n))) :
    Queues s out := by
  obtain ⟨hout, hgrp, hngr⟩ := (hq.mem g w).1 hw
  have hcell := hg.waiter
  rw [hngr, Bool.false_or, hq.elem w hout, hngr] at hcell
  have hgr : ∀ v, v ≠ w → (s.waiterAt v).granted = (bb.waiterAt v).granted := by
    intro v hv
    rw [hg.rest v hv]
  refine ⟨?_, ?_, ?_, ?_, ?_, ?_, ?_, ?_, ?_, ?_⟩
  · rw [hr.nextWaiter]
    exact hq.fresh
  · intro v hv
    rw [hr.waiter_group, hr.nextGroup]
    exact hq.group_lt v hv
  · intro h
    by_cases hh : h = g
    · subst hh
      rw [hg.queue]
      split_ifs
      · exact (hq.nodup h).erase w
      · exact hq.nodup h
    · rw [hg.other h hh]
      exact hq.nodup h
  · -- a waiter leaves the queue exactly if it is granted
    intro h v
    rw [hr.waiter_group, hg.mem_queue hq hgrp, hq.mem]
    by_cases hv : v = w
    · subst hv
      rw [hcell]
      simp only [hngr, hout, true_and, and_true, forall_const]
    · simp [hv, hgr v hv]
  · intro v hv
    by_cases hvw : v = w
    · subst hvw
      rw [hcell]
      simp
    · rw [hg.rest v hvw]
      exact hq.elem v hv
  · intro v hv
    by_cases hvw : v = w
    · subst hvw
      rw [hcell]
      -- a credit that does not fill it leaves it short
      simp only [decide_eq_false_iff_not]
      intro hne
      omega
    · rw [hg.rest v hvw]
      exact hq.short v hv
  · intro v hv
    by_cases hvw : v = w
    · subst hvw
      rw [hcell]
      simp
    · rw [hg.rest v hvw]
      exact hq.full v hv
  · intro v hv
    obtain ⟨k, hk, hlt, hclosed⟩ := hq.wake v hv
    refine ⟨k, (hr.waiter_wake v).trans hk, hr.nextChan ▸ hlt, ?_⟩
    rw [hg.closed k, hclosed]
    by_cases hvw : v = w
    · subst hvw
      rw [hcell]
      simp [hngr, hk]
    · -- the channel closed belongs to `w` alone
      have hne : ¬ (bb.waiterAt w).wake = some k := fun hwk =>
        hvw (hq.wake_inj v hv w hout (hk.trans hwk.symm))
      rw [hgr v hvw]
      simp [hne]
  · intro v hv u hu
    rw [hr.waiter_wake, hr.waiter_wake]
    exact hq.wake_inj v hv u hu
  · -- only a channel that exists was closed
    intro k hk
    rw [hr.nextChan] at hk
    obtain ⟨k', hk', hlt, -⟩ := hq.wake w hout
    rw [hg.closed k, hq.open_fresh k hk, hk']
    have hne : ¬ some k' = some k := by
      intro heq
      rw [Option.some.injEq] at heq
      exact absurd hk (by rw [← heq]; exact Nat.not_le.2 hlt)
    simp [hne]

theorem credits_give (hw : w ∈ out) (hgrp : (bb.waiterAt w).group = g) (hr : Rigid bb s)
    (hcell : (s.waiterAt w).credit = (bb.waiterAt w).credit + c)
    (hrest : ∀ v, v ≠ w → s.waiterAt v = bb.waiterAt v) :
    s.credits out = update (bb.credits out) g (bb.credits out g + c) := by
  have h₁ := credits_erase s hw ((hr.waiter_group w).trans hgrp)
  have h₂ := credits_erase bb hw hgrp
  have h₃ : s.credits (out.erase w) = bb.credits (out.erase w) :=
    credits_congr _ fun v hv => by rw [hrest v (Finset.ne_of_mem_erase hv)]; exact ⟨rfl, rfl⟩
  rw [h₃, h₂] at h₁
  have hle := credit_le_credits s hw ((hr.waiter_group w).trans hgrp)
  have hle' := credit_le_credits bb hw hgrp
  funext h
  have heq := congrFun h₁ h
  by_cases hh : h = g
  · subst hh
    rw [update_self, update_self] at heq
    rw [update_self]
    omega
  · rw [update_of_ne hh, update_of_ne hh] at heq
    rw [update_of_ne hh, heq]

/-- A credit to a queued waiter keeps the books. -/
theorem giveCredit_books (hb : Books bb held out) (hw : w ∈ (bb.groupAt g).waiters)
    (hpos : 0 < c) (hc : c ≤ (bb.waiterAt w).n - (bb.waiterAt w).credit) :
    Books (bb.giveCredit g w c) held out := by
  obtain ⟨hout, hgrp, -⟩ := (hb.queues.mem g w).1 hw
  have hr := giveCredit_rigid bb g w c
  have hlt := hb.waiter_lt hout
  have hgave := giveCredit_spec (g := g) (show (bb.waiterAt w).credit + c < 2 ^ 64 by omega)
  have hglt : g < bb.nextGroup := hgrp ▸ hb.queues.group_lt w hout
  have hroom := hb.lack_le hout
  have hcredits := credits_give hout hgrp hr (by rw [hgave.waiter]) hgave.rest
  have hbal : (bb.giveCredit g w c).balance held out =
      update (bb.balance held out) g (bb.balance held out g + c) := by
    funext h
    unfold balance
    rw [hcredits]
    by_cases hh : h = g
    · subst hh
      rw [update_self, update_self, add_assoc]
    · rw [update_of_ne hh, update_of_ne hh]
  refine ⟨hr.fair.trans hb.fair, hb.queues.give hw hr hpos hc hgave, ?_, ?_⟩
  · rw [hr.pendings, hbal]
    obtain ⟨h₁, h₂, h₃, h₄⟩ := giveCredit_counters bb g w c
    refine TotalsOff.congr (charge_totals hb.fair hglt hb.totals (by omega) false ?_) h₁ h₂ h₃ h₄
    refine lt_of_le_of_lt (busy_mono rfl ?_) (TotalsOff.small hb.totals)
    intro h hbusy
    by_cases hh : h = g
    · rw [hh]
      have hp := pendings_pos hout hgrp
      exact Or.inr (by omega)
    · rwa [update_of_ne hh] at hbusy
  · rw [hr.demand]
    exact hb.demand

theorem giveCredit_off (hi : Index bb) (hq : Queues bb out) (hw : w ∈ (bb.groupAt g).waiters)
    (hc : (bb.waiterAt w).credit + c < 2 ^ 64) : IndexOff (bb.giveCredit g w c) g := by
  obtain ⟨-, hgrp, -⟩ := (hq.mem g w).1 hw
  have hgave := giveCredit_spec (g := g) hc
  refine hi.off hgave.index (fun h hh => by rw [hgave.other h hh]) ?_
  intro h hh hne
  exact groupNeed_of_not_mem (hq.not_mem_of_ne hgrp hh) hne (hgave.other h hh) hgave.rest

/-! ## One round -/

theorem pickGroup_spec (ha : Accounts bb held out) (base : Nat) :
    Index (bb.pickGroup base).1 ∧ (bb.pickGroup base).1.core = bb.core ∧
      (bb.pickGroup base).1.waiting = bb.waiting ∧
      (∀ g, (bb.pickGroup base).2 = some g →
        g ∈ bb.waiting ∧ (base = 0 → bb.groupNeed g ≤ bb.share g)) ∧
      ((bb.pickGroup base).2 = none → bb.waiting = [] ∨
        (base = 0 ∧ ∀ h, h ∈ bb.waiting → bb.share h < bb.groupNeed h)) := by
  unfold pickGroup
  split_ifs with hbase
  · refine ⟨ha.index, rfl, rfl, ?_, ?_⟩
    · intro g hg
      have hg' : bb.waiting.head? = some g := hg
      refine ⟨List.mem_of_mem_head? (by rw [hg']; rfl), ?_⟩
      intro h0
      rcases hbase with hne | hnf
      · exact absurd h0 hne
      · rw [ha.fair] at hnf
        exact absurd hnf (by decide)
    · intro hnone
      have hnone' : bb.waiting.head? = none := hnone
      exact Or.inl (List.head?_eq_none_iff.1 hnone')
  · have h0 : base = 0 := by
      by_contra hne
      exact hbase (Or.inl hne)
    have hact : ∀ h, h ∈ bb.waiting → (bb.groupAt h).active = true := by
      intro h hh
      exact ha.active_of_queue (headD_mem ((ha.index.queued h).1 hh))
    obtain ⟨hi, hc, hw, hsome, hnone⟩ := nextReserveLocked_spec ha.fair ha.index hact
    exact ⟨hi, hc, hw, fun g hg => ⟨(hsome g hg).1, fun _ => (hsome g hg).2⟩,
      fun hn => Or.inr ⟨h0, hnone hn⟩⟩

/-- The scheduler has nothing to hand out. -/
def Quiet (bb : ByteBudget) : Prop :=
  bb.waiting = [] ∨ (bb.total ≠ 0 ∧ bb.total ≤ sub64 bb.used bb.escape) ∨
    (bb.baseRoom = 0 ∧ ∀ h, h ∈ bb.waiting → bb.share h < bb.groupNeed h)

theorem Quiet.of_core (hq : Quiet bb) (hc : s.core = bb.core) (hw : s.waiting = bb.waiting) :
    Quiet s := by
  have hproj : ∀ {α : Type} (f : ByteBudget → α), f s.core = f bb.core := fun f => congrArg f hc
  have hu : s.used = bb.used := hproj ByteBudget.used
  have he : s.escape = bb.escape := hproj ByteBudget.escape
  have ht : s.total = bb.total := hproj ByteBudget.total
  have hb : s.baseRoom = bb.baseRoom := hproj baseRoom
  unfold Quiet
  rw [hw, hu, he, ht, hb]
  rcases hq with h | h | ⟨h₁, h₂⟩
  · exact Or.inl h
  · exact Or.inr (Or.inl h)
  · refine Or.inr (Or.inr ⟨h₁, ?_⟩)
    intro g hg
    rw [share_of_core hc, groupNeed_of_core hc]
    exact h₂ g hg

/-- What one round does: it returns, or it credits the head of one waiting group. -/
inductive Round (bb : ByteBudget) : ByteBudget × Bool → Prop where
  /-- Nothing to hand out, or a head that asks for no byte at all. -/
  | stop (t : ByteBudget) : t.core = bb.core → Index t → t.waiting = bb.waiting →
      (Quiet bb ∨ ∃ g w, w ∈ (bb.groupAt g).waiters ∧
        (bb.waiterAt w).n ≤ (bb.waiterAt w).credit) → Round bb (t, false)
  /-- `c` bytes for the head `w` of `g`, within its room. -/
  | credit (t : ByteBudget) (g : GroupId) (w : WaiterId) (c : Nat) : t.core = bb.core → Index t →
      (bb.groupAt g).waiters.head? = some w → 0 < c →
      c ≤ (bb.waiterAt w).n - (bb.waiterAt w).credit →
      (bb.total = 0 ∨ sub64 bb.used bb.escape + c ≤ bb.total) →
      (bb.total = 0 ∨ sub64 bb.used bb.escape + c ≤ bb.total - bb.reserve ∨
        bb.groupNeed g ≤ bb.share g) →
      Round bb ((((t.giveCredit g w c).refreshLocked g).rotate g), true)

theorem baseRoom_eq (h0 : bb.total ≠ 0) :
    bb.baseRoom = bb.total - bb.reserve - sub64 bb.used bb.escape := by
  unfold baseRoom
  rw [if_neg h0]
  split_ifs
  · rfl
  · omega

/-- A credit is part of what its waiter lacks, and at most a quantum. -/
theorem creditFor_le (bb : ByteBudget) (base : Nat) (g : GroupId) (w : WaiterId) :
    bb.creditFor base g w ≤ sub64 (bb.waiterAt w).n (bb.waiterAt w).credit ∧
      bb.creditFor base g w ≤ budgetQuantum := by
  unfold creditFor
  constructor
  · exact le_trans (min_le_left _ _) (min_le_left _ _)
  · exact le_trans (min_le_left _ _) (min_le_right _ _)

/-- A waiter that lacks bytes gets some, if the pool has room and the group may use it. -/
theorem creditFor_pos (hlack : 0 < sub64 (bb.waiterAt w).n (bb.waiterAt w).credit)
    (hroom : bb.total = 0 ∨ (sub64 bb.used bb.escape < bb.total ∧
      (bb.eligible g = true ∨ bb.baseRoom ≠ 0))) : 0 < bb.creditFor bb.baseRoom g w := by
  unfold creditFor
  simp only
  refine lt_min (lt_min hlack (by decide)) ?_
  rcases hroom with hzero | ⟨hroom, hfrom⟩
  · rw [if_pos hzero]
    decide
  · rw [if_neg (by omega)]
    split_ifs with helig
    · omega
    · exact Nat.pos_of_ne_zero (hfrom.resolve_left helig)

/-- A credit fits into the pool, and outside the reserve if the group may not draw on it. -/
theorem creditFor_fits (h0 : bb.total ≠ 0) (hroom : sub64 bb.used bb.escape < bb.total)
    (hpos : 0 < bb.creditFor bb.baseRoom g w) :
    sub64 bb.used bb.escape + bb.creditFor bb.baseRoom g w ≤ bb.total ∧
      (sub64 bb.used bb.escape + bb.creditFor bb.baseRoom g w ≤ bb.total - bb.reserve ∨
        bb.eligible g = true) := by
  have hbase := baseRoom_eq h0
  unfold creditFor at hpos ⊢
  simp only [if_neg h0] at hpos ⊢
  split_ifs at hpos ⊢ with helig
  · exact ⟨by omega, .inr helig⟩
  · exact ⟨by omega, .inl (by omega)⟩

theorem scheduleRound_spec (ha : Accounts bb held out) : Round bb bb.scheduleRound := by
  unfold scheduleRound
  simp only
  split_ifs with hempty hfullpool
  · exact Round.stop bb rfl ha.index rfl (Or.inl (Or.inl hempty))
  · exact Round.stop bb rfl ha.index rfl (Or.inl (Or.inr (Or.inl hfullpool)))
  obtain ⟨hi, hc, hwait, hsome, hnone⟩ := pickGroup_spec ha bb.baseRoom
  obtain ⟨t, ht⟩ : ∃ t, (bb.pickGroup bb.baseRoom).1 = t := ⟨_, rfl⟩
  rw [ht] at hi hc hwait ⊢
  cases hpick : (bb.pickGroup bb.baseRoom).2 with
  | none =>
    simp only
    rcases hnone hpick with h | h
    · exact absurd h hempty
    · exact Round.stop t hc hi hwait (Or.inl (Or.inr (Or.inr h)))
  | some g =>
    obtain ⟨hgw, helig⟩ := hsome g hpick
    have hproj : ∀ {α : Type} (f : ByteBudget → α), f t.core = f bb.core := fun f => congrArg f hc
    have hqueue : (t.groupAt g).waiters = (bb.groupAt g).waiters := waiters_of_core hc g
    have hne := (ha.index.queued g).1 hgw
    have hmem := headD_mem hne
    obtain ⟨w, hw⟩ : ∃ w, (bb.groupAt g).waiters.headD 0 = w := ⟨_, rfl⟩
    rw [hw] at hmem
    have hhead : (bb.groupAt g).waiters.head? = some w := by
      cases hl : (bb.groupAt g).waiters with
      | nil => exact absurd hl hne
      | cons a l =>
        rw [hl] at hw
        exact congrArg some hw
    obtain ⟨hout, -, hngr⟩ := (ha.queues.mem g w).1 hmem
    have hlack : sub64 (bb.waiterAt w).n (bb.waiterAt w).credit =
        (bb.waiterAt w).n - (bb.waiterAt w).credit :=
      sub64_eq (ha.queues.credit_le hout) (ha.toBooks.waiter_lt hout)
    have hcredit : t.creditFor bb.baseRoom g w = bb.creditFor bb.baseRoom g w :=
      hproj fun x => x.creditFor bb.baseRoom g w
    have heligible : bb.eligible g = true ↔ bb.groupNeed g ≤ bb.share g := by
      unfold eligible
      rw [ha.fair]
      exact decide_eq_true_iff
    have hroom : bb.total ≠ 0 → sub64 bb.used bb.escape < bb.total := by
      intro h0
      by_contra hge
      exact hfullpool ⟨h0, Nat.le_of_not_lt hge⟩
    simp only [hqueue, hw, hcredit]
    split_ifs with hzero
    · -- the pool is not full, and a group picked without room outside the reserve is eligible
      refine Round.stop t hc hi hwait (Or.inr ⟨g, w, hmem, ?_⟩)
      by_contra hlt
      refine absurd hzero (creditFor_pos (by omega) ?_).ne'
      by_cases h0 : bb.total = 0
      · exact .inl h0
      · exact .inr ⟨hroom h0, or_iff_not_imp_right.2 fun hb =>
          heligible.2 (helig (not_not.1 hb))⟩
    · have hpos := Nat.pos_of_ne_zero hzero
      refine Round.credit t g w _ hc hi hhead hpos ?_ ?_ ?_
      · exact hlack ▸ (creditFor_le bb bb.baseRoom g w).1
      · exact or_iff_not_imp_left.2 fun h0 => (creditFor_fits h0 (hroom h0) hpos).1
      · exact or_iff_not_imp_left.2 fun h0 =>
          (creditFor_fits h0 (hroom h0) hpos).2.imp_right heligible.1

/-- The bytes the outstanding waiters lack. -/
def lacking (bb : ByteBudget) (out : Finset WaiterId) : Nat :=
  ∑ w ∈ out, ((bb.waiterAt w).n - (bb.waiterAt w).credit)

theorem lacking_congr (hat : s.waiterAt = bb.waiterAt) : s.lacking out = bb.lacking out := by
  unfold lacking
  rw [hat]

theorem waiterAt_of_core (hc : s.core = bb.core) : s.waiterAt = bb.waiterAt := by
  have hw := congrArg (fun x : ByteBudget => x.waiterAt) hc
  exact hw

theorem mem_of_head? {l : List WaiterId} (h : l.head? = some w) : w ∈ l :=
  List.mem_of_mem_head? (by rw [h]; rfl)

/-- A credit leaves less to hand out. -/
theorem lacking_give {full : Bool} (hout : w ∈ out) (hgave : Gave bb s g w c full) (hpos : 0 < c)
    (hc : c ≤ (bb.waiterAt w).n - (bb.waiterAt w).credit) : s.lacking out < bb.lacking out := by
  unfold lacking
  refine Finset.sum_lt_sum ?_ ⟨w, hout, ?_⟩
  · intro v _
    by_cases hv : v = w
    · subst hv
      rw [hgave.waiter]
      show (bb.waiterAt v).n - ((bb.waiterAt v).credit + c) ≤ _
      omega
    · rw [hgave.rest v hv]
  · rw [hgave.waiter]
    show (bb.waiterAt w).n - ((bb.waiterAt w).credit + c) < _
    omega

/-- The credit a round hands out keeps the ledger, and leaves less to hand out. -/
theorem credit_accounts (ha : Accounts t held out) (hw : w ∈ (t.groupAt g).waiters) (hpos : 0 < c)
    (hc : c ≤ (t.waiterAt w).n - (t.waiterAt w).credit) :
    Accounts (((t.giveCredit g w c).refreshLocked g).rotate g) held out ∧
      Rigid t (((t.giveCredit g w c).refreshLocked g).rotate g) ∧
      (((t.giveCredit g w c).refreshLocked g).rotate g).core = (t.giveCredit g w c).core ∧
      (((t.giveCredit g w c).refreshLocked g).rotate g).lacking out < t.lacking out := by
  obtain ⟨hout, -, -⟩ := (ha.queues.mem g w).1 hw
  have hlt := ha.toBooks.waiter_lt hout
  have hsmall : (t.waiterAt w).credit + c < 2 ^ 64 := by omega
  have hoff := giveCredit_off ha.index ha.queues hw hsmall
  have hbooks := giveCredit_books ha.toBooks hw hpos hc
  have hacc := hbooks.refresh hoff
  have hcore : (((t.giveCredit g w c).refreshLocked g).rotate g).core = (t.giveCredit g w c).core :=
    (rotate_core _ g).trans (refreshLocked_core hoff)
  refine ⟨hacc.of_core (rotate_core _ g) (rotate_index hacc.index g),
    (giveCredit_rigid t g w c).trans (Rigid.of_core hcore), hcore, ?_⟩
  rw [lacking_congr (waiterAt_of_core hcore)]
  exact lacking_give hout (giveCredit_spec (g := g) hsmall) hpos hc

/-- One round keeps the ledger. -/
theorem scheduleRound_accounts (ha : Accounts bb held out) :
    Accounts bb.scheduleRound.1 held out ∧ Rigid bb bb.scheduleRound.1 ∧
      (bb.scheduleRound.2 = true → bb.scheduleRound.1.lacking out < bb.lacking out) := by
  have hround := scheduleRound_spec ha
  generalize bb.scheduleRound = r at hround
  cases hround with
  | stop t hc hi _ _ =>
    exact ⟨ha.of_core hc hi, Rigid.of_core hc, fun h => absurd h Bool.false_ne_true⟩
  | credit t g w c hc hi hhead hpos hle _ _ =>
    have hat := waiterAt_of_core hc
    have hmem : w ∈ (t.groupAt g).waiters := by
      rw [waiters_of_core hc]
      exact mem_of_head? hhead
    obtain ⟨hacc, hr, -, hlack⟩ := credit_accounts (ha.of_core hc hi) hmem hpos (by rw [hat]; exact hle)
    refine ⟨hacc, (Rigid.of_core hc).trans hr, fun _ => ?_⟩
    rwa [lacking_congr hat] at hlack

/-! ## The loop -/

/-- The fuel of `scheduleLocked` is what its waiters lack, plus one. -/
theorem backlog_eq (hi : Index bb) (hq : Queues bb out) : bb.backlog = bb.lacking out := by
  obtain ⟨lack, hlack⟩ : ∃ lack : WaiterId → Nat,
      lack = fun w => (bb.waiterAt w).n - (bb.waiterAt w).credit := ⟨_, rfl⟩
  have hflat : bb.backlog = ((bb.waiting.flatMap fun g => (bb.groupAt g).waiters).map lack).sum := by
    unfold backlog
    rw [hlack, List.map_flatMap, List.flatMap_def, List.sum_flatten, List.map_map]
    rfl
  have hnodup : (bb.waiting.flatMap fun g => (bb.groupAt g).waiters).Nodup := by
    rw [List.nodup_flatMap]
    refine ⟨fun g _ => hq.nodup g, ?_⟩
    refine hi.waiting_nodup.imp ?_
    intro g h hne w hg hh
    exact hne (((hq.mem g w).1 hg).2.1.symm.trans ((hq.mem h w).1 hh).2.1)
  have hmem : (bb.waiting.flatMap fun g => (bb.groupAt g).waiters).toFinset =
      out.filter fun w => (bb.waiterAt w).granted = false := by
    ext w
    rw [List.mem_toFinset, List.mem_flatMap, Finset.mem_filter]
    constructor
    · rintro ⟨g, -, hw⟩
      obtain ⟨hout, -, hgr⟩ := (hq.mem g w).1 hw
      exact ⟨hout, hgr⟩
    · rintro ⟨hout, hgr⟩
      have hw := (hq.mem (bb.waiterAt w).group w).2 ⟨hout, rfl, hgr⟩
      exact ⟨_, (hi.queued _).2 (List.ne_nil_of_mem hw), hw⟩
  rw [hflat, ← List.sum_toFinset lack hnodup, hmem]
  unfold lacking
  rw [hlack]
  refine Finset.sum_subset (Finset.filter_subset _ _) ?_
  -- a granted waiter lacks nothing
  intro w hout hnot
  rw [Finset.mem_filter, not_and, Bool.not_eq_false] at hnot
  rw [hq.full w hout (hnot hout), Nat.sub_self]

/-- The loop ends by the return of a round, and whatever every round keeps holds in
the state that round started from. -/
theorem scheduleLoop_returns (P : ByteBudget → Prop)
    (hstep : ∀ t, Accounts t held out → P t → P t.scheduleRound.1) (fuel : Nat)
    (ha : Accounts bb held out) (hP : P bb) (hfuel : bb.lacking out < fuel) :
    ∃ t, Accounts t held out ∧ Rigid bb t ∧ P t ∧ t.scheduleRound = (scheduleLoop fuel bb, false) := by
  induction fuel generalizing bb with
  | zero => omega
  | succ fuel ih =>
    obtain ⟨hacc, hr, hlack⟩ := scheduleRound_accounts ha
    have hP' := hstep bb ha hP
    unfold scheduleLoop
    rcases hround : bb.scheduleRound with ⟨s, go⟩
    rw [hround] at hacc hr hlack hP'
    cases go with
    | false => exact ⟨bb, ha, Rigid.refl bb, hP, hround⟩
    | true =>
      have hless := hlack rfl
      obtain ⟨t, ht, hrt, hPt, heq⟩ := ih hacc hP' (by omega)
      exact ⟨t, ht, hr.trans hrt, hPt, heq⟩

theorem scheduleLocked_returns (P : ByteBudget → Prop)
    (hstep : ∀ t, Accounts t held out → P t → P t.scheduleRound.1)
    (ha : Accounts bb held out) (hP : P bb) :
    ∃ t, Accounts t held out ∧ Rigid bb t ∧ P t ∧ t.scheduleRound = (bb.scheduleLocked, false) :=
  scheduleLoop_returns P hstep _ ha hP (by rw [backlog_eq ha.index ha.queues]; exact Nat.lt_succ_self _)

/-- `scheduleLocked` keeps the ledger, and only schedules. -/
theorem scheduleLocked_accounts (ha : Accounts bb held out) :
    Accounts bb.scheduleLocked held out ∧ Rigid bb bb.scheduleLocked := by
  obtain ⟨t, ht, hr, -, heq⟩ := scheduleLocked_returns (fun _ => True) (fun _ _ _ => trivial) ha trivial
  obtain ⟨hacc, hr', -⟩ := scheduleRound_accounts ht
  rw [heq] at hacc hr'
  exact ⟨hacc, hr.trans hr'⟩

/-- Whatever every round keeps, `scheduleLocked` keeps. -/
theorem scheduleLocked_keeps (P : ByteBudget → Prop)
    (hstep : ∀ t, Accounts t held out → P t → P t.scheduleRound.1)
    (ha : Accounts bb held out) (hP : P bb) : P bb.scheduleLocked := by
  obtain ⟨t, ht, -, hPt, heq⟩ := scheduleLocked_returns P hstep ha hP
  have hP' := hstep t ht hPt
  rw [heq] at hP'
  exact hP'

/-- When every waiter asks for at least one byte, `scheduleLocked` leaves nothing to
hand out. -/
theorem scheduleLocked_quiet (ha : Accounts bb held out)
    (hpos : ∀ w ∈ out, 0 < (bb.waiterAt w).n) : Quiet bb.scheduleLocked := by
  obtain ⟨t, ht, hr, -, heq⟩ := scheduleLocked_returns (fun _ => True) (fun _ _ _ => trivial) ha trivial
  have hround := scheduleRound_spec ht
  rw [heq] at hround
  generalize bb.scheduleLocked = s at hround
  cases hround with
  | stop _ hc _ hw hwhy =>
    rcases hwhy with hq | ⟨g, w, hw', hle⟩
    · exact hq.of_core hc hw
    · -- a queued waiter that lacks nothing asked for nothing
      obtain ⟨hout, -, hgr⟩ := (ht.queues.mem g w).1 hw'
      have hp := hpos w hout
      rw [← hr.waiter_n] at hp
      have := ht.queues.short w hout hgr
      omega

end ByteBudget

end UspClient
