import UspClient.Budget.Totals

/-!
# Outstanding waiters

A waiter is outstanding from the `reserveFor` that queues it until its grant is
consumed or it is removed. `Queues bb out` ties the queues of the groups to the
set `out` of outstanding waiters, and `credits`, `pendings` and `demand` are the
sums the byte ledger is made of. Scheduling works under `Rigid`: it moves bytes
into credits and grants waiters, and nothing else.
-/

namespace UspClient

open Function Word64

namespace ByteBudget

variable {bb s t : ByteBudget} {g h : GroupId} {w v : WaiterId} {n : Nat}
variable {out : Finset WaiterId} {held : GroupId → Nat}

/-! ## The queues -/

/-- The queues hold exactly the outstanding waiters that are not granted. -/
structure Queues (bb : ByteBudget) (out : Finset WaiterId) : Prop where
  fresh : ∀ w ∈ out, w < bb.nextWaiter
  group_lt : ∀ w ∈ out, (bb.waiterAt w).group < bb.nextGroup
  nodup : ∀ g, (bb.groupAt g).waiters.Nodup
  mem : ∀ g w, w ∈ (bb.groupAt g).waiters ↔
    w ∈ out ∧ (bb.waiterAt w).group = g ∧ (bb.waiterAt w).granted = false
  elem : ∀ w ∈ out, (bb.waiterAt w).elem = !(bb.waiterAt w).granted
  short : ∀ w ∈ out, (bb.waiterAt w).granted = false →
    (bb.waiterAt w).credit = 0 ∨ (bb.waiterAt w).credit < (bb.waiterAt w).n
  full : ∀ w ∈ out, (bb.waiterAt w).granted = true → (bb.waiterAt w).credit = (bb.waiterAt w).n
  wake : ∀ w ∈ out, ∃ c, (bb.waiterAt w).wake = some c ∧ c < bb.nextChan ∧
    bb.closed c = (bb.waiterAt w).granted
  wake_inj : ∀ w ∈ out, ∀ v ∈ out, (bb.waiterAt w).wake = (bb.waiterAt v).wake → w = v
  open_fresh : ∀ c, bb.nextChan ≤ c → bb.closed c = false

/-- No request gets more credit than it asks for. -/
theorem Queues.credit_le (hq : Queues bb out) (hw : w ∈ out) :
    (bb.waiterAt w).credit ≤ (bb.waiterAt w).n := by
  cases hgr : (bb.waiterAt w).granted with
  | false => have := hq.short w hw hgr; omega
  | true => exact (hq.full w hw hgr).le

/-- The queues see the arena of waiters, the queue of each group and the channels. -/
theorem Queues.congr (hq : Queues bb out) (hat : s.waiterAt = bb.waiterAt)
    (hqs : ∀ g, (s.groupAt g).waiters = (bb.groupAt g).waiters)
    (hnw : s.nextWaiter = bb.nextWaiter) (hng : bb.nextGroup ≤ s.nextGroup)
    (hc : s.closed = bb.closed) (hnc : s.nextChan = bb.nextChan) : Queues s out := by
  refine ⟨?_, ?_, ?_, ?_, ?_, ?_, ?_, ?_, ?_, ?_⟩
  · rw [hnw]
    exact hq.fresh
  · intro w hw
    rw [hat]
    exact lt_of_lt_of_le (hq.group_lt w hw) hng
  · intro g
    rw [hqs]
    exact hq.nodup g
  · intro g w
    rw [hqs, hat]
    exact hq.mem g w
  · rw [hat]
    exact hq.elem
  · rw [hat]
    exact hq.short
  · rw [hat]
    exact hq.full
  · rw [hat, hc, hnc]
    exact hq.wake
  · rw [hat]
    exact hq.wake_inj
  · rw [hc, hnc]
    exact hq.open_fresh

/-- Queues do not depend on the counters. -/
theorem Queues.of_touches (hq : Queues bb out) (ht : Touches bb s g) : Queues s out :=
  hq.congr ht.waiterAt ht.waiters ht.nextWaiter ht.nextGroup.ge ht.closed ht.nextChan

theorem Queues.of_core (hq : Queues bb out) (hc : s.core = bb.core) : Queues s out := by
  have h₁ := congrArg (fun x : ByteBudget => x.waiterAt) hc
  have h₂ := congrArg (fun x : ByteBudget => x.nextWaiter) hc
  have h₃ := congrArg (fun x : ByteBudget => x.nextGroup) hc
  have h₄ := congrArg (fun x : ByteBudget => x.closed) hc
  have h₅ := congrArg (fun x : ByteBudget => x.nextChan) hc
  exact hq.congr h₁ (waiters_of_core hc) h₂ h₃.ge h₄ h₅

/-- An outstanding waiter leaves: it is taken out of its queue, if it is queued. -/
theorem Queues.erase (hq : Queues bb out)
    (hat : ∀ v, v ≠ w → s.waiterAt v = bb.waiterAt v)
    (hqs : ∀ g, (s.groupAt g).waiters = (bb.groupAt g).waiters.erase w)
    (hnw : s.nextWaiter = bb.nextWaiter) (hng : s.nextGroup = bb.nextGroup)
    (hc : s.closed = bb.closed) (hnc : s.nextChan = bb.nextChan) : Queues s (out.erase w) := by
  -- whoever is still outstanding did not change
  have hne : ∀ v ∈ out.erase w, v ∈ out ∧ s.waiterAt v = bb.waiterAt v := fun v hv =>
    ⟨Finset.mem_of_mem_erase hv, hat v (Finset.ne_of_mem_erase hv)⟩
  refine ⟨?_, ?_, ?_, ?_, ?_, ?_, ?_, ?_, ?_, ?_⟩
  · intro v hv
    rw [hnw]
    exact hq.fresh v (hne v hv).1
  · intro v hv
    rw [(hne v hv).2, hng]
    exact hq.group_lt v (hne v hv).1
  · intro g
    rw [hqs]
    exact (hq.nodup g).erase w
  · intro g v
    rw [hqs, (hq.nodup g).mem_erase_iff, hq.mem, Finset.mem_erase, and_assoc]
    by_cases hv : v = w
    · simp [hv]
    · rw [hat v hv]
  · intro v hv
    rw [(hne v hv).2]
    exact hq.elem v (hne v hv).1
  · intro v hv
    rw [(hne v hv).2]
    exact hq.short v (hne v hv).1
  · intro v hv
    rw [(hne v hv).2]
    exact hq.full v (hne v hv).1
  · intro v hv
    rw [(hne v hv).2, hc, hnc]
    exact hq.wake v (hne v hv).1
  · intro v hv u hu
    rw [(hne v hv).2, (hne u hu).2]
    exact hq.wake_inj v (hne v hv).1 u (hne u hu).1
  · rw [hc, hnc]
    exact hq.open_fresh

/-! ## Sums over the outstanding waiters -/

/-- The bytes credited to the outstanding waiters of a group. -/
def credits (bb : ByteBudget) (out : Finset WaiterId) (g : GroupId) : Nat :=
  ∑ w ∈ out.filter fun w => (bb.waiterAt w).group = g, (bb.waiterAt w).credit

/-- How many outstanding waiters a group has. -/
def pendings (bb : ByteBudget) (out : Finset WaiterId) (g : GroupId) : Nat :=
  (out.filter fun w => (bb.waiterAt w).group = g).card

/-- What group `g` is charged: what its callers hold and what its waiters were
credited. -/
def balance (bb : ByteBudget) (held : GroupId → Nat) (out : Finset WaiterId) (g : GroupId) : Nat :=
  held g + bb.credits out g

/-- The bytes the outstanding waiters asked for. -/
def requested (bb : ByteBudget) (out : Finset WaiterId) : Nat := ∑ w ∈ out, (bb.waiterAt w).n

/-- All bytes charged or asked for. -/
def demand (bb : ByteBudget) (held : GroupId → Nat) (out : Finset WaiterId) : Nat :=
  ∑ g ∈ Finset.range bb.nextGroup, held g + bb.requested out

theorem credits_congr (bb : ByteBudget)
    (h : ∀ v ∈ out, (s.waiterAt v).group = (bb.waiterAt v).group ∧
    (s.waiterAt v).credit = (bb.waiterAt v).credit) : s.credits out = bb.credits out := by
  funext g
  unfold credits
  have hf : (out.filter fun w => (s.waiterAt w).group = g) =
      out.filter fun w => (bb.waiterAt w).group = g :=
    Finset.filter_congr fun v hv => by rw [(h v hv).1]
  rw [hf]
  exact Finset.sum_congr rfl fun v hv => (h v (Finset.mem_filter.1 hv).1).2

theorem pendings_congr (bb : ByteBudget)
    (h : ∀ v ∈ out, (s.waiterAt v).group = (bb.waiterAt v).group) :
    s.pendings out = bb.pendings out := by
  funext g
  unfold pendings
  congr 1
  exact Finset.filter_congr fun v hv => by rw [h v hv]

/-- The credit of a request that is gone is gone. -/
theorem credits_erase (bb : ByteBudget) (hw : w ∈ out) (hg : (bb.waiterAt w).group = g) :
    bb.credits (out.erase w) =
      update (bb.credits out) g (bb.credits out g - (bb.waiterAt w).credit) := by
  funext h
  unfold credits
  by_cases hh : h = g
  · subst hh
    have hmem : w ∈ out.filter fun w => (bb.waiterAt w).group = h := by simp [hw, hg]
    rw [update_self, Finset.filter_erase,
      ← Finset.add_sum_erase _ (fun w => (bb.waiterAt w).credit) hmem, Nat.add_sub_cancel_left]
  · rw [update_of_ne hh, Finset.filter_erase, Finset.erase_eq_of_notMem]
    simp [hg, Ne.symm hh]

/-- So is its place among the pending ones. -/
theorem pendings_erase (hw : w ∈ out) (hg : (bb.waiterAt w).group = g) :
    bb.pendings (out.erase w) = update (bb.pendings out) g (bb.pendings out g - 1) := by
  funext h
  unfold pendings
  by_cases hh : h = g
  · subst hh
    have hmem : w ∈ out.filter fun w => (bb.waiterAt w).group = h := by simp [hw, hg]
    rw [update_self, Finset.filter_erase, Finset.card_erase_of_mem hmem]
  · rw [update_of_ne hh, Finset.filter_erase, Finset.erase_eq_of_notMem]
    simp [hg, Ne.symm hh]

/-- The credit of a request is part of the credit of its group. -/
theorem credit_le_credits (bb : ByteBudget) (hw : w ∈ out) (hg : (bb.waiterAt w).group = g) :
    (bb.waiterAt w).credit ≤ bb.credits out g := by
  unfold credits
  exact Finset.single_le_sum (f := fun w => (bb.waiterAt w).credit) (fun _ _ => Nat.zero_le _)
    (Finset.mem_filter.2 ⟨hw, hg⟩)

theorem pendings_pos (hw : w ∈ out) (hg : (bb.waiterAt w).group = g) : 0 < bb.pendings out g := by
  unfold pendings
  exact Finset.card_pos.2 ⟨w, Finset.mem_filter.2 ⟨hw, hg⟩⟩

/-- A new request has no credit. -/
theorem credits_insert (hw : w ∉ out) (hc : (bb.waiterAt w).credit = 0) :
    bb.credits (insert w out) = bb.credits out := by
  funext h
  unfold credits
  rw [Finset.filter_insert]
  split_ifs
  · rw [Finset.sum_insert (by simp [hw]), hc, Nat.zero_add]
  · rfl

/-- A new request is pending. -/
theorem pendings_insert (hw : w ∉ out) (hg : (bb.waiterAt w).group = g) :
    bb.pendings (insert w out) = update (bb.pendings out) g (bb.pendings out g + 1) := by
  funext h
  unfold pendings
  by_cases hh : h = g
  · subst hh
    rw [update_self, Finset.filter_insert, if_pos hg, Finset.card_insert_of_notMem]
    simp [hw]
  · rw [update_of_ne hh, Finset.filter_insert, if_neg (by rw [hg]; exact Ne.symm hh)]

theorem pendings_le (bb : ByteBudget) (out : Finset WaiterId) (g : GroupId) :
    bb.pendings out g ≤ out.card :=
  Finset.card_filter_le _ _

/-- Every outstanding waiter is counted at its own group. -/
theorem Queues.sum_credits (hq : Queues bb out) :
    ∑ g ∈ Finset.range bb.nextGroup, bb.credits out g = ∑ w ∈ out, (bb.waiterAt w).credit :=
  Finset.sum_fiberwise_of_maps_to (g := fun w => (bb.waiterAt w).group)
    (fun w hw => Finset.mem_range.2 (hq.group_lt w hw)) _

/-- Every request belongs to one group. -/
theorem Queues.sum_pendings (hq : Queues bb out) :
    ∑ g ∈ Finset.range bb.nextGroup, bb.pendings out g = out.card :=
  (Finset.card_eq_sum_card_fiberwise (f := fun w => (bb.waiterAt w).group)
    fun w hw => Finset.mem_coe.2 (Finset.mem_range.2 (hq.group_lt w hw))).symm

/-- What is missing to the waiters is bounded by what was asked for. -/
theorem Queues.sum_balance (hq : Queues bb out) :
    ∑ g ∈ Finset.range bb.nextGroup, bb.balance held out g +
      ∑ w ∈ out, ((bb.waiterAt w).n - (bb.waiterAt w).credit) = bb.demand held out := by
  unfold balance demand requested
  rw [Finset.sum_add_distrib, hq.sum_credits, add_assoc, ← Finset.sum_add_distrib]
  congr 1
  refine Finset.sum_congr rfl ?_
  intro w hw
  exact Nat.add_sub_cancel' (hq.credit_le hw)

/-! ## What scheduling leaves alone -/

/-- `s` differs from `bb` only in what scheduling changes: counters of used bytes,
activity, queues, indexes, credits, grants and closed channels. -/
structure Rigid (bb s : ByteBudget) : Prop where
  total : s.total = bb.total
  fair : s.fair = bb.fair
  reserve : s.reserve = bb.reserve
  minGroup : s.minGroup = bb.minGroup
  groups : s.groups = bb.groups
  escape : s.escape = bb.escape
  legacyWake : s.legacyWake = bb.legacyWake
  nextGroup : s.nextGroup = bb.nextGroup
  nextWaiter : s.nextWaiter = bb.nextWaiter
  nextChan : s.nextChan = bb.nextChan
  key : ∀ g, (s.groupAt g).key = (bb.groupAt g).key
  refs : ∀ g, (s.groupAt g).refs = (bb.groupAt g).refs
  group_escape : ∀ g, (s.groupAt g).escape = (bb.groupAt g).escape
  pending : ∀ g, (s.groupAt g).pending = (bb.groupAt g).pending
  waiter_n : ∀ w, (s.waiterAt w).n = (bb.waiterAt w).n
  waiter_group : ∀ w, (s.waiterAt w).group = (bb.waiterAt w).group
  waiter_wake : ∀ w, (s.waiterAt w).wake = (bb.waiterAt w).wake

theorem Rigid.refl (bb : ByteBudget) : Rigid bb bb :=
  ⟨rfl, rfl, rfl, rfl, rfl, rfl, rfl, rfl, rfl, rfl, fun _ => rfl, fun _ => rfl, fun _ => rfl,
    fun _ => rfl, fun _ => rfl, fun _ => rfl, fun _ => rfl⟩

theorem Rigid.trans (h₁ : Rigid bb s) (h₂ : Rigid s t) : Rigid bb t :=
  ⟨h₂.total.trans h₁.total, h₂.fair.trans h₁.fair, h₂.reserve.trans h₁.reserve,
    h₂.minGroup.trans h₁.minGroup, h₂.groups.trans h₁.groups, h₂.escape.trans h₁.escape,
    h₂.legacyWake.trans h₁.legacyWake, h₂.nextGroup.trans h₁.nextGroup,
    h₂.nextWaiter.trans h₁.nextWaiter, h₂.nextChan.trans h₁.nextChan,
    fun g => (h₂.key g).trans (h₁.key g), fun g => (h₂.refs g).trans (h₁.refs g),
    fun g => (h₂.group_escape g).trans (h₁.group_escape g),
    fun g => (h₂.pending g).trans (h₁.pending g), fun w => (h₂.waiter_n w).trans (h₁.waiter_n w),
    fun w => (h₂.waiter_group w).trans (h₁.waiter_group w),
    fun w => (h₂.waiter_wake w).trans (h₁.waiter_wake w)⟩

/-- The index is not part of what stays. -/
theorem Rigid.of_core (hc : s.core = bb.core) : Rigid bb s := by
  -- `core` forgets the indexes only, so each field is read off both sides
  have hproj : ∀ {α : Type} (f : ByteBudget → α), f s.core = f bb.core := fun f => congrArg f hc
  exact ⟨hproj ByteBudget.total, hproj ByteBudget.fair, hproj ByteBudget.reserve,
    hproj ByteBudget.minGroup, hproj ByteBudget.groups, hproj ByteBudget.escape,
    hproj ByteBudget.legacyWake, hproj ByteBudget.nextGroup, hproj ByteBudget.nextWaiter,
    hproj ByteBudget.nextChan, fun g => hproj fun x => (x.groupAt g).key,
    fun g => hproj fun x => (x.groupAt g).refs, fun g => hproj fun x => (x.groupAt g).escape,
    fun g => hproj fun x => (x.groupAt g).pending, fun w => hproj fun x => (x.waiterAt w).n,
    fun w => hproj fun x => (x.waiterAt w).group, fun w => hproj fun x => (x.waiterAt w).wake⟩

theorem rigid_setGroup {f : BudgetGroup → BudgetGroup}
    (hf : ∀ x, (f x).key = x.key ∧ (f x).refs = x.refs ∧ (f x).escape = x.escape ∧
      (f x).pending = x.pending) : Rigid bb (bb.setGroup g f) := by
  have hat : ∀ h, ((bb.setGroup g f).groupAt h).key = (bb.groupAt h).key ∧
      ((bb.setGroup g f).groupAt h).refs = (bb.groupAt h).refs ∧
      ((bb.setGroup g f).groupAt h).escape = (bb.groupAt h).escape ∧
      ((bb.setGroup g f).groupAt h).pending = (bb.groupAt h).pending := by
    intro h
    by_cases hh : h = g
    · subst hh
      simpa using hf _
    · simp [hh]
  exact ⟨rfl, rfl, rfl, rfl, rfl, rfl, rfl, rfl, rfl, rfl, fun h => (hat h).1, fun h => (hat h).2.1,
    fun h => (hat h).2.2.1, fun h => (hat h).2.2.2, fun _ => rfl, fun _ => rfl, fun _ => rfl⟩

theorem rigid_setWaiter {f : BudgetWaiter → BudgetWaiter}
    (hf : ∀ x, (f x).n = x.n ∧ (f x).group = x.group ∧ (f x).wake = x.wake) :
    Rigid bb (bb.setWaiter w f) := by
  have hat : ∀ v, ((bb.setWaiter w f).waiterAt v).n = (bb.waiterAt v).n ∧
      ((bb.setWaiter w f).waiterAt v).group = (bb.waiterAt v).group ∧
      ((bb.setWaiter w f).waiterAt v).wake = (bb.waiterAt v).wake := by
    intro v
    by_cases hv : v = w
    · subst hv
      simpa using hf _
    · simp [hv]
  exact ⟨rfl, rfl, rfl, rfl, rfl, rfl, rfl, rfl, rfl, rfl, fun _ => rfl, fun _ => rfl, fun _ => rfl,
    fun _ => rfl, fun v => (hat v).1, fun v => (hat v).2.1, fun v => (hat v).2.2⟩

theorem rigid_closeChan (bb : ByteBudget) (c : ChanId) : Rigid bb (bb.closeChan c) :=
  ⟨rfl, rfl, rfl, rfl, rfl, rfl, rfl, rfl, rfl, rfl, fun _ => rfl, fun _ => rfl, fun _ => rfl,
    fun _ => rfl, fun _ => rfl, fun _ => rfl, fun _ => rfl⟩

theorem activateLocked_rigid (bb : ByteBudget) (g : GroupId) : Rigid bb (bb.activateLocked g) := by
  have hset : ∀ (a : Bool) (k : Nat),
      Rigid bb ((bb.setGroup g fun x => { x with active := a }).setActive k) := by
    intro a k
    have hr : Rigid bb (bb.setGroup g fun x => { x with active := a }) :=
      rigid_setGroup (by intro x; exact ⟨rfl, rfl, rfl, rfl⟩)
    exact ⟨rfl, rfl, rfl, rfl, rfl, rfl, rfl, rfl, rfl, rfl, hr.key, hr.refs, hr.group_escape,
      hr.pending, hr.waiter_n, hr.waiter_group, hr.waiter_wake⟩
  unfold activateLocked
  simp only
  split_ifs
  · exact Rigid.refl bb
  · exact Rigid.refl bb
  · exact hset _ _
  · exact hset _ _

/-- A charge that is no escape. -/
theorem charge_rigid (bb : ByteBudget) (n : Nat) (g : GroupId) : Rigid bb (bb.charge n g false) := by
  unfold charge
  split_ifs
  · exact ⟨rfl, rfl, rfl, rfl, rfl, rfl, rfl, rfl, rfl, rfl, fun _ => rfl, fun _ => rfl,
      fun _ => rfl, fun _ => rfl, fun _ => rfl, fun _ => rfl, fun _ => rfl⟩
  · refine Rigid.trans ?_ (activateLocked_rigid _ g)
    have hr : Rigid bb (bb.setGroup g fun x => { x with used := add64 x.used n }) :=
      rigid_setGroup (by intro x; exact ⟨rfl, rfl, rfl, rfl⟩)
    exact ⟨rfl, rfl, rfl, rfl, rfl, rfl, rfl, rfl, rfl, rfl, hr.key, hr.refs, hr.group_escape,
      hr.pending, hr.waiter_n, hr.waiter_group, hr.waiter_wake⟩

theorem grant_rigid (bb : ByteBudget) (g : GroupId) (w : WaiterId) : Rigid bb (bb.grant g w) := by
  have hr : Rigid bb ((bb.setGroup g fun x => { x with waiters := x.waiters.erase w }).setWaiter w
      fun x => { x with elem := false, granted := true }) :=
    Rigid.trans (rigid_setGroup (by intro x; exact ⟨rfl, rfl, rfl, rfl⟩))
      (rigid_setWaiter (by intro x; exact ⟨rfl, rfl, rfl⟩))
  unfold grant
  simp only
  split
  · exact hr.trans (rigid_closeChan _ _)
  · exact hr

/-- A credit changes no size, group or channel of a request. -/
theorem giveCredit_rigid (bb : ByteBudget) (g : GroupId) (w : WaiterId) (credit : Nat) :
    Rigid bb (bb.giveCredit g w credit) := by
  have hr : Rigid bb ((bb.charge credit g false).setWaiter w
      fun x => { x with credit := add64 x.credit credit }) :=
    (charge_rigid bb credit g).trans (rigid_setWaiter (by intro x; exact ⟨rfl, rfl, rfl⟩))
  unfold giveCredit
  simp only
  split_ifs
  · exact hr.trans (grant_rigid _ g w)
  · exact hr

theorem Rigid.pendings (hr : Rigid bb s) : s.pendings out = bb.pendings out :=
  pendings_congr _ fun w _ => hr.waiter_group w

theorem Rigid.demand (hr : Rigid bb s) : s.demand held out = bb.demand held out := by
  unfold ByteBudget.demand requested
  rw [hr.nextGroup]
  congr 1
  exact Finset.sum_congr rfl fun w _ => hr.waiter_n w

theorem Escapes.of_rigid {esc : GroupId → Nat} (he : Escapes bb esc) (hr : Rigid bb s) :
    Escapes s esc :=
  he.congr hr.escape hr.nextGroup hr.group_escape

end ByteBudget

end UspClient
