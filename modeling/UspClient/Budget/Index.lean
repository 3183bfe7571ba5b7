import UspClient.Budget.Heap
import UspClient.Lib.Line

/-!
# The scheduling indexes

A group with a queued waiter is in the list `waiting`, and in exactly one of the
list `reserveReady` and the heap `blocked`. `Index` is that invariant between
operations; `IndexOff g` is what is left of it while group `g` has been written to
and `refreshLocked g` has not run yet. Everything here is independent of the byte
counters, which the indexes see only through `groupNeed`.
-/

namespace UspClient

open Function

namespace ByteBudget

variable {bb s : ByteBudget} {g h : GroupId} {i : Nat}

/-- The element pointers of every group agree with the lists and the heap. -/
structure Lists (bb : ByteBudget) : Prop where
  waiting_nodup : bb.waiting.Nodup
  reserve_nodup : bb.reserveReady.Nodup
  all_iff : ∀ g, (bb.groupAt g).allElem = true ↔ g ∈ bb.waiting
  reserve_iff : ∀ g, (bb.groupAt g).reserveElem = true ↔ g ∈ bb.reserveReady
  back : HeapBack bb

/-- The indexes between two operations. -/
structure Index (bb : ByteBudget) : Prop extends Lists bb where
  one : ∀ g, g ∈ bb.reserveReady → g ∉ bb.blocked
  both : ∀ g, g ∈ bb.waiting ↔ g ∈ bb.reserveReady ∨ g ∈ bb.blocked
  queued : ∀ g, g ∈ bb.waiting ↔ (bb.groupAt g).waiters ≠ []
  ord : HeapOrdered bb

/-- The indexes while group `g` waits for its refresh. -/
structure IndexOff (bb : ByteBudget) (g : GroupId) : Prop extends Lists bb where
  one : ∀ h, h ∈ bb.reserveReady → h ∉ bb.blocked
  both : ∀ h, h ∈ bb.waiting ↔ h ∈ bb.reserveReady ∨ h ∈ bb.blocked
  queued : ∀ h, h ≠ g → (h ∈ bb.waiting ↔ (bb.groupAt h).waiters ≠ [])
  ord : HeapOrderedOff bb g

/-- The index fields of `s` and `bb` are the same. -/
structure SameIndex (bb s : ByteBudget) : Prop where
  waiting : s.waiting = bb.waiting
  reserveReady : s.reserveReady = bb.reserveReady
  blocked : s.blocked = bb.blocked
  flags : ∀ h, (s.groupAt h).allElem = (bb.groupAt h).allElem ∧
    (s.groupAt h).reserveElem = (bb.groupAt h).reserveElem ∧
    (s.groupAt h).heapIndex = (bb.groupAt h).heapIndex

/-- The invariant reads the index only. -/
theorem Lists.of_same (hl : Lists bb) (hs : SameIndex bb s) : Lists s := by
  refine ⟨?_, ?_, ?_, ?_, ?_⟩
  · rw [hs.waiting]
    exact hl.waiting_nodup
  · rw [hs.reserveReady]
    exact hl.reserve_nodup
  · intro g
    rw [(hs.flags g).1, hs.waiting]
    exact hl.all_iff g
  · intro g
    rw [(hs.flags g).2.1, hs.reserveReady]
    exact hl.reserve_iff g
  · intro g i
    rw [(hs.flags g).2.2, hs.blocked]
    exact hl.back g i

/-- Writing to one group's queue and counters leaves the index off at most there. -/
theorem Index.off (hi : Index bb) (hs : SameIndex bb s)
    (hq : ∀ h, h ≠ g → (s.groupAt h).waiters = (bb.groupAt h).waiters)
    (hn : ∀ h, h ≠ g → (bb.groupAt h).waiters ≠ [] → s.groupNeed h = bb.groupNeed h) :
    IndexOff s g := by
  refine ⟨hi.toLists.of_same hs, ?_, ?_, ?_, ?_⟩
  · intro h
    rw [hs.reserveReady, hs.blocked]
    exact hi.one h
  · intro h
    rw [hs.waiting, hs.reserveReady, hs.blocked]
    exact hi.both h
  · intro h hh
    rw [hs.waiting, hq h hh]
    exact hi.queued h
  · -- every blocked group has a queue, so its need is unchanged unless it is `g`
    have hkey : ∀ k, k < bb.blocked.length →
        update s.groupNeed g (bb.groupNeed g) (bb.blocked.getD k 0) = bb.heapKey k := by
      intro k hk
      unfold heapKey
      by_cases hh : bb.blocked.getD k 0 = g
      · rw [hh, update_self]
      · rw [update_of_ne hh]
        refine hn _ hh ?_
        rw [← hi.queued, hi.both]
        exact Or.inr (List.mem_of_getElem? (Slice.getElem?_of_lt hk))
    refine ⟨update s.groupNeed g (bb.groupNeed g),
      fun h hh => update_of_ne hh _ _, ?_⟩
    rw [hs.blocked]
    intro c hc hcn
    have hp := BinHeap.par_lt hc
    show update s.groupNeed g (bb.groupNeed g) (bb.blocked.getD (BinHeap.par c) 0) ≤
      update s.groupNeed g (bb.groupNeed g) (bb.blocked.getD c 0)
    rw [hkey c hcn, hkey _ (by omega)]
    exact hi.ord c hc hcn

/-- A change that no queue and no need sees keeps the index. -/
theorem Index.of_same (hi : Index bb) (hs : SameIndex bb s)
    (hq : ∀ h, (s.groupAt h).waiters = (bb.groupAt h).waiters)
    (hn : ∀ h, (s.groupAt h).waiters ≠ [] → s.groupNeed h = bb.groupNeed h) : Index s := by
  have hmem : ∀ k, k < bb.blocked.length → s.heapKey k = bb.heapKey k := by
    intro k hk
    unfold heapKey
    rw [hs.blocked]
    refine hn _ ?_
    rw [hq, ← hi.queued, hi.both]
    exact Or.inr (List.mem_of_getElem? (Slice.getElem?_of_lt hk))
  refine ⟨hi.toLists.of_same hs, ?_, ?_, ?_, ?_⟩
  · intro h
    rw [hs.reserveReady, hs.blocked]
    exact hi.one h
  · intro h
    rw [hs.waiting, hs.reserveReady, hs.blocked]
    exact hi.both h
  · intro h
    rw [hs.waiting, hq h]
    exact hi.queued h
  · intro c hc hcn
    have hp := BinHeap.par_lt hc
    rw [hs.blocked] at hcn
    rw [hmem c hcn, hmem _ (by omega)]
    exact hi.ord c hc hcn

/-! ## The two lists -/

/-- Moving a group between the lists is no change of the core. -/
theorem leaveWaiting_core (bb : ByteBudget) (g : GroupId) : (bb.leaveWaiting g).core = bb.core := by
  unfold leaveWaiting
  split_ifs
  · show (bb.setGroup g fun x => { x with allElem := false }).core = bb.core
    exact core_setGroup (by intro x; rfl)
  · rfl

theorem enterWaiting_core (bb : ByteBudget) (g : GroupId) : (bb.enterWaiting g).core = bb.core := by
  unfold enterWaiting
  split_ifs
  · rfl
  · show (bb.setGroup g fun x => { x with allElem := true }).core = bb.core
    exact core_setGroup (by intro x; rfl)

theorem leaveReserve_core (bb : ByteBudget) (g : GroupId) : (bb.leaveReserve g).core = bb.core := by
  unfold leaveReserve
  split_ifs
  · show (bb.setGroup g fun x => { x with reserveElem := false }).core = bb.core
    exact core_setGroup (by intro x; rfl)
  · rfl

theorem enterReserve_core (bb : ByteBudget) (g : GroupId) : (bb.enterReserve g).core = bb.core := by
  unfold enterReserve
  split_ifs
  · rfl
  · show (bb.setGroup g fun x => { x with reserveElem := true }).core = bb.core
    exact core_setGroup (by intro x; rfl)

@[simp] theorem leaveWaiting_reserveReady : (bb.leaveWaiting g).reserveReady = bb.reserveReady := by
  unfold leaveWaiting
  split_ifs <;> rfl

@[simp] theorem leaveWaiting_blocked : (bb.leaveWaiting g).blocked = bb.blocked := by
  unfold leaveWaiting
  split_ifs <;> rfl

@[simp] theorem enterWaiting_reserveReady : (bb.enterWaiting g).reserveReady = bb.reserveReady := by
  unfold enterWaiting
  split_ifs <;> rfl

@[simp] theorem enterWaiting_blocked : (bb.enterWaiting g).blocked = bb.blocked := by
  unfold enterWaiting
  split_ifs <;> rfl

@[simp] theorem leaveReserve_waiting : (bb.leaveReserve g).waiting = bb.waiting := by
  unfold leaveReserve
  split_ifs <;> rfl

@[simp] theorem leaveReserve_blocked : (bb.leaveReserve g).blocked = bb.blocked := by
  unfold leaveReserve
  split_ifs <;> rfl

@[simp] theorem enterReserve_waiting : (bb.enterReserve g).waiting = bb.waiting := by
  unfold enterReserve
  split_ifs <;> rfl

@[simp] theorem enterReserve_blocked : (bb.enterReserve g).blocked = bb.blocked := by
  unfold enterReserve
  split_ifs <;> rfl

/-- Only `g` leaves. -/
theorem Lists.mem_leaveWaiting (hl : Lists bb) :
    h ∈ (bb.leaveWaiting g).waiting ↔ h ∈ bb.waiting ∧ h ≠ g := by
  unfold leaveWaiting
  split_ifs with hflag
  · show h ∈ bb.waiting.erase g ↔ _
    rw [hl.waiting_nodup.mem_erase_iff]
    exact and_comm
  · rw [hl.all_iff] at hflag
    constructor
    · intro hh
      exact ⟨hh, fun e => hflag (e ▸ hh)⟩
    · exact And.left

/-- Only `g` enters. -/
theorem Lists.mem_enterWaiting (hl : Lists bb) :
    h ∈ (bb.enterWaiting g).waiting ↔ h ∈ bb.waiting ∨ h = g := by
  unfold enterWaiting
  split_ifs with hflag
  · rw [hl.all_iff] at hflag
    constructor
    · exact Or.inl
    · rintro (hh | rfl)
      · exact hh
      · exact hflag
  · show h ∈ bb.waiting ++ [g] ↔ _
    rw [List.mem_append, List.mem_singleton]

theorem Lists.mem_leaveReserve (hl : Lists bb) :
    h ∈ (bb.leaveReserve g).reserveReady ↔ h ∈ bb.reserveReady ∧ h ≠ g := by
  unfold leaveReserve
  split_ifs with hflag
  · show h ∈ bb.reserveReady.erase g ↔ _
    rw [hl.reserve_nodup.mem_erase_iff]
    exact and_comm
  · rw [hl.reserve_iff] at hflag
    constructor
    · intro hh
      exact ⟨hh, fun e => hflag (e ▸ hh)⟩
    · exact And.left

theorem Lists.mem_enterReserve (hl : Lists bb) :
    h ∈ (bb.enterReserve g).reserveReady ↔ h ∈ bb.reserveReady ∨ h = g := by
  unfold enterReserve
  split_ifs with hflag
  · rw [hl.reserve_iff] at hflag
    constructor
    · exact Or.inl
    · rintro (hh | rfl)
      · exact hh
      · exact hflag
  · show h ∈ bb.reserveReady ++ [g] ↔ _
    rw [List.mem_append, List.mem_singleton]

/-- Changing the list `waiting` and the flag `allElem` of one group together. -/
theorem Lists.set_waiting (hl : Lists bb) (v : Bool) (l : List GroupId) (hnd : l.Nodup)
    (hv : v = true ↔ g ∈ l) (hmem : ∀ h, h ≠ g → (h ∈ l ↔ h ∈ bb.waiting)) :
    Lists { (bb.setGroup g fun x => { x with allElem := v }) with waiting := l } := by
  refine ⟨hnd, hl.reserve_nodup, ?_, ?_, ?_⟩
  · intro h
    simp only [setGroup_groupAt, update_apply]
    split_ifs with hh
    · rw [hh]
      exact hv
    · rw [hmem h hh]
      exact hl.all_iff h
  · intro h
    simp only [setGroup_groupAt, update_apply]
    split_ifs with hh
    · rw [hh]
      exact hl.reserve_iff g
    · exact hl.reserve_iff h
  · intro h i
    simp only [setGroup_groupAt, update_apply]
    split_ifs with hh
    · rw [hh]
      exact hl.back g i
    · exact hl.back h i

/-- Changing the list `reserveReady` and the flag `reserveElem` of one group
together. -/
theorem Lists.set_reserve (hl : Lists bb) (v : Bool) (l : List GroupId) (hnd : l.Nodup)
    (hv : v = true ↔ g ∈ l) (hmem : ∀ h, h ≠ g → (h ∈ l ↔ h ∈ bb.reserveReady)) :
    Lists { (bb.setGroup g fun x => { x with reserveElem := v }) with reserveReady := l } := by
  refine ⟨hl.waiting_nodup, hnd, ?_, ?_, ?_⟩
  · intro h
    simp only [setGroup_groupAt, update_apply]
    split_ifs with hh
    · rw [hh]
      exact hl.all_iff g
    · exact hl.all_iff h
  · intro h
    simp only [setGroup_groupAt, update_apply]
    split_ifs with hh
    · rw [hh]
      exact hv
    · rw [hmem h hh]
      exact hl.reserve_iff h
  · intro h i
    simp only [setGroup_groupAt, update_apply]
    split_ifs with hh
    · rw [hh]
      exact hl.back g i
    · exact hl.back h i

/-- Membership and flag change together. -/
theorem Lists.leaveWaiting (hl : Lists bb) (g : GroupId) : Lists (bb.leaveWaiting g) := by
  unfold ByteBudget.leaveWaiting
  split_ifs with hflag
  · refine hl.set_waiting false _ (hl.waiting_nodup.erase g) ?_ ?_
    · simp [hl.waiting_nodup.not_mem_erase]
    · intro h hh
      exact List.mem_erase_of_ne hh
  · exact hl

theorem Lists.enterWaiting (hl : Lists bb) (g : GroupId) : Lists (bb.enterWaiting g) := by
  unfold ByteBudget.enterWaiting
  split_ifs with hflag
  · exact hl
  · rw [hl.all_iff] at hflag
    refine hl.set_waiting true _ (Slice.nodup_concat hl.waiting_nodup hflag) (by simp) ?_
    intro h hh
    simp [hh]

theorem Lists.leaveReserve (hl : Lists bb) (g : GroupId) : Lists (bb.leaveReserve g) := by
  unfold ByteBudget.leaveReserve
  split_ifs with hflag
  · refine hl.set_reserve false _ (hl.reserve_nodup.erase g) ?_ ?_
    · simp [hl.reserve_nodup.not_mem_erase]
    · intro h hh
      exact List.mem_erase_of_ne hh
  · exact hl

theorem Lists.enterReserve (hl : Lists bb) (g : GroupId) : Lists (bb.enterReserve g) := by
  unfold ByteBudget.enterReserve
  split_ifs with hflag
  · exact hl
  · rw [hl.reserve_iff] at hflag
    refine hl.set_reserve true _ (Slice.nodup_concat hl.reserve_nodup hflag) (by simp) ?_
    intro h hh
    simp [hh]

/-! ## The heap -/

theorem waiting_of_heapless (hr : s.heapless = bb.heapless) : s.waiting = bb.waiting := by
  have hw := congrArg ByteBudget.waiting hr
  exact hw

theorem reserveReady_of_heapless (hr : s.heapless = bb.heapless) :
    s.reserveReady = bb.reserveReady := by
  have hw := congrArg ByteBudget.reserveReady hr
  exact hw

/-- Rearranging the heap does not touch the lists. -/
theorem Lists.of_heapless (hl : Lists bb) (hr : s.heapless = bb.heapless) (hb : HeapBack s) :
    Lists s := by
  have hflags : ∀ g, (s.groupAt g).allElem = (bb.groupAt g).allElem ∧
      (s.groupAt g).reserveElem = (bb.groupAt g).reserveElem := by
    intro g
    have ha := congrArg (fun x : ByteBudget => (x.groupAt g).allElem) hr
    have hv := congrArg (fun x : ByteBudget => (x.groupAt g).reserveElem) hr
    exact ⟨ha, hv⟩
  have hw := waiting_of_heapless hr
  have hres := reserveReady_of_heapless hr
  refine ⟨hw ▸ hl.waiting_nodup, hres ▸ hl.reserve_nodup, ?_, ?_, hb⟩
  · intro g
    rw [(hflags g).1, hw]
    exact hl.all_iff g
  · intro g
    rw [(hflags g).2, hres]
    exact hl.reserve_iff g

theorem HeapOrderedOff.of_core (ho : HeapOrderedOff bb g) (hb : s.blocked = bb.blocked)
    (hc : s.core = bb.core) : HeapOrderedOff s g := by
  obtain ⟨need, hneed, hord⟩ := ho
  refine ⟨need, fun h hh => (hneed h hh).trans (groupNeed_of_core hc h).symm, ?_⟩
  rw [hb]
  exact hord

/-- The heap without `g`. -/
theorem leaveBlocked_spec (hl : Lists bb) (ho : HeapOrderedOff bb g) :
    HeapAfter bb (bb.leaveBlocked g) (fun h => h ∈ bb.blocked ∧ h ≠ g) := by
  unfold leaveBlocked
  cases hidx : (bb.groupAt g).heapIndex with
  | some i => exact heapRemove_spec hl.back ho hidx
  | none =>
    have hg : g ∉ bb.blocked := by
      rw [hl.back.mem_iff]
      rintro ⟨i, hi⟩
      rw [hidx] at hi
      cases hi
    refine ⟨rfl, hl.back, ?_, ho.ordered hg⟩
    intro h
    exact ⟨fun hh => ⟨hh, fun e => hg (e ▸ hh)⟩, And.left⟩

/-- The heap with `g` in its place. -/
theorem enterBlocked_spec (hl : Lists bb) (ho : HeapOrderedOff bb g) :
    HeapAfter bb (bb.enterBlocked g) (fun h => h ∈ bb.blocked ∨ h = g) := by
  unfold enterBlocked
  cases hidx : (bb.groupAt g).heapIndex with
  | some i =>
    obtain ⟨hsame, hord⟩ := heapFix_spec hl.back ho hidx
    refine ⟨hsame.rest, hsame.back, ?_, hord⟩
    intro h
    rw [hsame.mem]
    constructor
    · exact Or.inl
    · rintro (hh | rfl)
      · exact hh
      · exact (hl.back.mem_iff h).2 ⟨i, hidx⟩
  | none =>
    have hg : g ∉ bb.blocked := by
      rw [hl.back.mem_iff]
      rintro ⟨i, hi⟩
      rw [hidx] at hi
      cases hi
    exact heapPush_spec hl.back (ho.ordered hg) hg

/-! ## refreshLocked -/

/-- What `refreshLocked` does to the members of the three indexes. -/
structure Refreshed (bb s : ByteBudget) (W R B : GroupId → Prop) : Prop where
  core : s.core = bb.core
  lists : Lists s
  ord : HeapOrdered s
  mem_waiting : ∀ h, h ∈ s.waiting ↔ W h
  mem_reserve : ∀ h, h ∈ s.reserveReady ↔ R h
  mem_blocked : ∀ h, h ∈ s.blocked ↔ B h

/-- A group without a queue leaves all three. -/
theorem refresh_empty (hl : Lists bb) (ho : HeapOrderedOff bb g) :
    Refreshed bb (((bb.leaveWaiting g).leaveReserve g).leaveBlocked g)
      (fun h => h ∈ bb.waiting ∧ h ≠ g) (fun h => h ∈ bb.reserveReady ∧ h ≠ g)
      (fun h => h ∈ bb.blocked ∧ h ≠ g) := by
  have hl₁ := hl.leaveWaiting g
  have hl₂ := hl₁.leaveReserve g
  have hc : ((bb.leaveWaiting g).leaveReserve g).core = bb.core :=
    (leaveReserve_core _ g).trans (leaveWaiting_core bb g)
  have ho₂ := ho.of_core (s := (bb.leaveWaiting g).leaveReserve g) (by simp) hc
  have hafter := leaveBlocked_spec hl₂ ho₂
  have hw : (((bb.leaveWaiting g).leaveReserve g).leaveBlocked g).waiting =
      (bb.leaveWaiting g).waiting := (waiting_of_heapless hafter.rest).trans leaveReserve_waiting
  have hr : (((bb.leaveWaiting g).leaveReserve g).leaveBlocked g).reserveReady =
      ((bb.leaveWaiting g).leaveReserve g).reserveReady :=
    reserveReady_of_heapless hafter.rest
  refine ⟨(core_of_heapless hafter.rest).trans hc, hl₂.of_heapless hafter.rest hafter.back,
    hafter.ord, ?_, ?_, ?_⟩
  · intro h
    rw [hw]
    exact hl.mem_leaveWaiting
  · intro h
    rw [hr, hl₁.mem_leaveReserve, leaveWaiting_reserveReady]
  · intro h
    rw [hafter.mem, leaveReserve_blocked, leaveWaiting_blocked]

/-- An eligible group is ready for the reserve. -/
theorem refresh_ready (hl : Lists bb) (ho : HeapOrderedOff bb g) :
    Refreshed bb (((bb.enterWaiting g).leaveBlocked g).enterReserve g)
      (fun h => h ∈ bb.waiting ∨ h = g) (fun h => h ∈ bb.reserveReady ∨ h = g)
      (fun h => h ∈ bb.blocked ∧ h ≠ g) := by
  have hl₁ := hl.enterWaiting g
  have ho₁ := ho.of_core (s := bb.enterWaiting g) (by simp) (enterWaiting_core bb g)
  have hafter := leaveBlocked_spec hl₁ ho₁
  have hl₂ := hl₁.of_heapless hafter.rest hafter.back
  have hc : (((bb.enterWaiting g).leaveBlocked g).enterReserve g).core =
      ((bb.enterWaiting g).leaveBlocked g).core := enterReserve_core _ g
  have hw : ((bb.enterWaiting g).leaveBlocked g).waiting = (bb.enterWaiting g).waiting :=
    waiting_of_heapless hafter.rest
  have hr : ((bb.enterWaiting g).leaveBlocked g).reserveReady = (bb.enterWaiting g).reserveReady :=
    reserveReady_of_heapless hafter.rest
  have hord := (hafter.ord.off g).of_core (enterReserve_blocked (g := g)) hc
  refine ⟨hc.trans ((core_of_heapless hafter.rest).trans (enterWaiting_core bb g)),
    hl₂.enterReserve g, hord.ordered ?_, ?_, ?_, ?_⟩
  · rw [enterReserve_blocked, hafter.mem]
    rintro ⟨-, hne⟩
    exact hne rfl
  · intro h
    rw [enterReserve_waiting, hw]
    exact hl.mem_enterWaiting
  · intro h
    rw [hl₂.mem_enterReserve, hr, enterWaiting_reserveReady]
  · intro h
    rw [enterReserve_blocked, hafter.mem, enterWaiting_blocked]

/-- A group that is not eligible is blocked. -/
theorem refresh_blocked (hl : Lists bb) (ho : HeapOrderedOff bb g) :
    Refreshed bb (((bb.enterWaiting g).leaveReserve g).enterBlocked g)
      (fun h => h ∈ bb.waiting ∨ h = g) (fun h => h ∈ bb.reserveReady ∧ h ≠ g)
      (fun h => h ∈ bb.blocked ∨ h = g) := by
  have hl₁ := hl.enterWaiting g
  have hl₂ := hl₁.leaveReserve g
  have hc : ((bb.enterWaiting g).leaveReserve g).core = bb.core :=
    (leaveReserve_core _ g).trans (enterWaiting_core bb g)
  have ho₂ := ho.of_core (s := (bb.enterWaiting g).leaveReserve g) (by simp) hc
  have hafter := enterBlocked_spec hl₂ ho₂
  have hw : (((bb.enterWaiting g).leaveReserve g).enterBlocked g).waiting =
      ((bb.enterWaiting g).leaveReserve g).waiting := waiting_of_heapless hafter.rest
  have hr : (((bb.enterWaiting g).leaveReserve g).enterBlocked g).reserveReady =
      ((bb.enterWaiting g).leaveReserve g).reserveReady :=
    reserveReady_of_heapless hafter.rest
  refine ⟨(core_of_heapless hafter.rest).trans hc, hl₂.of_heapless hafter.rest hafter.back,
    hafter.ord, ?_, ?_, ?_⟩
  · intro h
    rw [hw, leaveReserve_waiting]
    exact hl.mem_enterWaiting
  · intro h
    rw [hr, hl₁.mem_leaveReserve, enterWaiting_reserveReady]
  · intro h
    rw [hafter.mem, leaveReserve_blocked, enterWaiting_blocked]

theorem waiters_of_core (hc : s.core = bb.core) (g : GroupId) :
    (s.groupAt g).waiters = (bb.groupAt g).waiters := by
  have hg := congrArg (fun x : ByteBudget => (x.groupAt g).waiters) hc
  exact hg

/-- `refreshLocked` changes the index only. -/
theorem refreshLocked_core (hi : IndexOff bb g) : (bb.refreshLocked g).core = bb.core := by
  unfold refreshLocked
  simp only
  split_ifs
  · exact (refresh_empty hi.toLists hi.ord).core
  · exact (refresh_ready hi.toLists hi.ord).core
  · exact (refresh_blocked hi.toLists hi.ord).core

/-- The indexes are right again once `g` is a member exactly while it has a queue. -/
theorem Refreshed.index {W R B : GroupId → Prop} (hr : Refreshed bb s W R B) (hi : IndexOff bb g)
    (hone : ∀ h, R h → ¬ B h) (hboth : ∀ h, W h ↔ R h ∨ B h)
    (hoff : ∀ h, h ≠ g → (W h ↔ h ∈ bb.waiting)) (hself : W g ↔ (bb.groupAt g).waiters ≠ []) :
    Index s := by
  refine ⟨hr.lists, ?_, ?_, ?_, hr.ord⟩
  · intro h
    rw [hr.mem_reserve, hr.mem_blocked]
    exact hone h
  · intro h
    rw [hr.mem_waiting, hr.mem_reserve, hr.mem_blocked]
    exact hboth h
  · intro h
    rw [hr.mem_waiting, waiters_of_core hr.core]
    rcases eq_or_ne h g with rfl | hh
    · exact hself
    · rw [hoff h hh]
      exact hi.queued h hh

/-- `refreshLocked g` restores the index when only group `g` was written to. -/
theorem refreshLocked_index (hi : IndexOff bb g) : Index (bb.refreshLocked g) := by
  unfold refreshLocked
  simp only
  split_ifs with hempty helig
  · -- the queue of `g` is empty: `g` leaves all three
    refine (refresh_empty hi.toLists hi.ord).index hi ?_ ?_ ?_ ?_
    · exact fun h hr hb => hi.one h hr.1 hb.1
    · intro h
      rw [hi.both]
      tauto
    · exact fun h hh => and_iff_left hh
    · simp [hempty]
  · -- the head of `g` may draw on the reserve
    refine (refresh_ready hi.toLists hi.ord).index hi ?_ ?_ ?_ ?_
    · rintro h (hr | rfl) ⟨hb, hne⟩
      · exact hi.one h hr hb
      · exact hne rfl
    · intro h
      rw [hi.both]
      tauto
    · exact fun h hh => or_iff_left hh
    · simp [hempty]
  · refine (refresh_blocked hi.toLists hi.ord).index hi ?_ ?_ ?_ ?_
    · rintro h ⟨hr, hne⟩ (hb | rfl)
      · exact hi.one h hr hb
      · exact hne rfl
    · intro h
      rw [hi.both]
      tauto
    · exact fun h hh => or_iff_left hh
    · simp [hempty]

/-- A group that is not written to may be refreshed too. -/
theorem Index.off_self (hi : Index bb) (g : GroupId) : IndexOff bb g :=
  hi.off ⟨rfl, rfl, rfl, fun _ => ⟨rfl, rfl, rfl⟩⟩ (fun _ _ => rfl) (fun _ _ _ => rfl)

/-! ## nextReserveLocked -/

theorem Index.mem_of_head (hi : Index bb) (hg : bb.blocked[0]? = some g) :
    g ∈ bb.blocked ∧ g ∉ bb.reserveReady ∧ g ∈ bb.waiting := by
  have hmem : g ∈ bb.blocked := List.mem_of_getElem? hg
  refine ⟨hmem, fun hr => hi.one g hr hmem, ?_⟩
  rw [hi.both]
  exact Or.inr hmem

theorem length_heapPop (hb : HeapBack bb) (hg : bb.blocked[0]? = some g) :
    bb.heapPop.blocked.length + 1 = bb.blocked.length := by
  obtain ⟨n, hn⟩ : ∃ n, bb.blocked.length = n + 1 := by
    have := (List.getElem?_eq_some_iff.1 hg).1
    exact ⟨bb.blocked.length - 1, by omega⟩
  obtain ⟨hsame, hlast⟩ := heapSwap_last hb hg hn
  have hdown : (BinHeap.down groupHeap (bb.heapSwap 0 n) 0 n).1.blocked.length = n + 1 := by
    rcases Nat.eq_zero_or_pos n with rfl | hpos
    · exact hsame.len.trans hn
    · have hd := BinHeap.downLoop_induct _ (heapSwap_keeps (show n ≤ bb.blocked.length by omega))
        n _ 0 hpos hsame
      exact hd.len.trans hn
  unfold heapPop
  simp only [hn, Nat.add_sub_cancel]
  show (BinHeap.down groupHeap (bb.heapSwap 0 n) 0 n).1.blocked.dropLast.length + 1 = n + 1
  rw [List.length_dropLast, hdown, Nat.add_sub_cancel]

/-- Promoting the first group of the heap. -/
theorem promote_index (hi : Index bb) (hg : bb.blocked[0]? = some g) :
    Index (bb.heapPop.enterReserve g) ∧ (bb.heapPop.enterReserve g).core = bb.core ∧
      (bb.heapPop.enterReserve g).waiting = bb.waiting ∧
      (bb.heapPop.enterReserve g).blocked.length + 1 = bb.blocked.length := by
  obtain ⟨hgb, hgr, hgw⟩ := hi.mem_of_head hg
  have hafter := heapPop_spec hi.back hi.ord hg
  have hl := hi.toLists.of_heapless hafter.rest hafter.back
  have hw := waiting_of_heapless hafter.rest
  have hr := reserveReady_of_heapless hafter.rest
  have hc := (enterReserve_core bb.heapPop g).trans (core_of_heapless hafter.rest)
  have hord := (hafter.ord.off g).of_core (enterReserve_blocked (g := g)) (enterReserve_core _ g)
  refine ⟨⟨hl.enterReserve g, ?_, ?_, ?_, hord.ordered ?_⟩, hc, ?_, ?_⟩
  · intro h
    rw [hl.mem_enterReserve, hr, enterReserve_blocked, hafter.mem]
    rintro (hh | rfl) ⟨hb, hne⟩
    · exact hi.one h hh hb
    · exact hne rfl
  · intro h
    rw [enterReserve_waiting, hw, hl.mem_enterReserve, hr, enterReserve_blocked, hafter.mem, hi.both]
    by_cases hh : h = g
    · subst hh
      simp [hgb]
    · simp [hh]
  · intro h
    rw [enterReserve_waiting, hw, waiters_of_core hc]
    exact hi.queued h
  · rw [enterReserve_blocked, hafter.mem]
    rintro ⟨-, hne⟩
    exact hne rfl
  · rw [enterReserve_waiting, hw]
  · rw [enterReserve_blocked]
    exact length_heapPop hi.back hg

/-- The push of a promoted group, which is never in `reserveReady` yet. -/
theorem promote_eq (hi : Index bb) (hg : bb.blocked[0]? = some g) :
    { (bb.heapPop.setGroup g fun x => { x with reserveElem := true }) with
      reserveReady := bb.heapPop.reserveReady ++ [g] } = bb.heapPop.enterReserve g := by
  obtain ⟨-, hgr, -⟩ := hi.mem_of_head hg
  have hafter := heapPop_spec hi.back hi.ord hg
  have hl := hi.toLists.of_heapless hafter.rest hafter.back
  have hflag : ¬ (bb.heapPop.groupAt g).reserveElem = true := by
    rw [hl.reserve_iff, reserveReady_of_heapless hafter.rest]
    exact hgr
  unfold enterReserve
  rw [if_neg hflag]

/-- The loop ends with a root whose need is beyond its share, or with an empty heap. -/
theorem promoteLoop_spec (fuel : Nat) (bb : ByteBudget) (hi : Index bb)
    (hfuel : bb.blocked.length ≤ fuel) :
    Index (promoteLoop fuel bb) ∧ (promoteLoop fuel bb).core = bb.core ∧
      (promoteLoop fuel bb).waiting = bb.waiting ∧
      ∀ g, (promoteLoop fuel bb).blocked[0]? = some g →
        (promoteLoop fuel bb).share g < (promoteLoop fuel bb).groupNeed g := by
  induction fuel generalizing bb with
  | zero =>
    have hnil : bb.blocked = [] := List.length_eq_zero_iff.1 (by omega)
    refine ⟨hi, rfl, rfl, ?_⟩
    intro g hg
    simp [promoteLoop, hnil] at hg
  | succ fuel ih =>
    unfold promoteLoop
    cases hb : bb.blocked with
    | nil =>
      refine ⟨hi, rfl, rfl, ?_⟩
      intro g hg
      simp [hb] at hg
    | cons g l =>
      have hg : bb.blocked[0]? = some g := by rw [hb]; rfl
      simp only
      split_ifs with hneed
      · refine ⟨hi, rfl, rfl, ?_⟩
        intro g' hg'
        rw [hg] at hg'
        cases hg'
        exact hneed
      · rw [promote_eq hi hg]
        obtain ⟨hi', hc', hw', hlen'⟩ := promote_index hi hg
        obtain ⟨hi'', hc'', hw'', hstop⟩ := ih _ hi' (by omega)
        exact ⟨hi'', hc''.trans hc', hw''.trans hw', hstop⟩

/-- Classifying again a group of `reserveReady` that is no longer eligible. -/
theorem demote_index (hi : Index bb) {l : List GroupId} (hr : bb.reserveReady = g :: l)
    (hnot : bb.eligible g = false) :
    Index (bb.refreshLocked g) ∧ (bb.refreshLocked g).core = bb.core ∧
      (bb.refreshLocked g).waiting = bb.waiting ∧ (bb.refreshLocked g).reserveReady = l := by
  have hgr : g ∈ bb.reserveReady := by rw [hr]; exact List.mem_cons_self
  have hgw : g ∈ bb.waiting := (hi.both g).2 (Or.inl hgr)
  have hq : ¬ (bb.groupAt g).waiters = [] := (hi.queued g).1 hgw
  have hoff := hi.off_self g
  refine ⟨refreshLocked_index hoff, refreshLocked_core hoff, ?_⟩
  have henter : bb.enterWaiting g = bb := by
    unfold enterWaiting
    rw [if_pos ((hi.all_iff g).2 hgw)]
  have heq : bb.refreshLocked g = (bb.leaveReserve g).enterBlocked g := by
    unfold refreshLocked
    rw [if_neg hq]
    simp only [henter, hnot, Bool.false_eq_true, if_false]
  have hl := hi.toLists.leaveReserve g
  have ho := (hi.ord.off g).of_core (leaveReserve_blocked (g := g)) (leaveReserve_core bb g)
  have hafter := enterBlocked_spec hl ho
  rw [heq]
  refine ⟨(waiting_of_heapless hafter.rest).trans leaveReserve_waiting, ?_⟩
  rw [reserveReady_of_heapless hafter.rest]
  unfold leaveReserve
  rw [if_pos ((hi.reserve_iff g).2 hgr)]
  show bb.reserveReady.erase g = l
  rw [hr, List.erase_cons_head]

theorem fair_of_core (hc : s.core = bb.core) : s.fair = bb.fair := by
  have hf := congrArg ByteBudget.fair hc
  exact hf

/-- Whoever is in the heap after a demotion was in it before, or is the demoted group. -/
theorem demote_blocked (hi : Index bb) {l : List GroupId} (hr : bb.reserveReady = g :: l)
    (hnot : bb.eligible g = false) (hh : h ∈ (bb.refreshLocked g).blocked) :
    h = g ∨ h ∈ bb.blocked := by
  rcases demote_index hi hr hnot with ⟨hi', -, hw', hl'⟩
  by_cases hhg : h = g
  · exact .inl hhg
  · have hboth := (hi'.both h).2 (Or.inr hh)
    rw [hw', hi.both, hr, List.mem_cons] at hboth
    rcases hboth with (hhead | hres) | hbl
    · exact absurd hhead hhg
    · -- a group of the rest of `reserveReady` is still there
      rw [← hl'] at hres
      exact absurd hh (hi'.one h hres)
    · exact .inr hbl

/-- The loop finds an eligible group, if there is one. -/
theorem demoteLoop_spec (fuel : Nat) (bb : ByteBudget) (hf : bb.fair = true) (hi : Index bb)
    (hfuel : bb.reserveReady.length ≤ fuel)
    (hblocked : ∀ h, h ∈ bb.blocked → bb.share h < bb.groupNeed h) :
    Index (demoteLoop fuel bb).1 ∧ (demoteLoop fuel bb).1.core = bb.core ∧
      (demoteLoop fuel bb).1.waiting = bb.waiting ∧
      (∀ g, (demoteLoop fuel bb).2 = some g → g ∈ bb.waiting ∧ bb.groupNeed g ≤ bb.share g) ∧
      ((demoteLoop fuel bb).2 = none → ∀ h, h ∈ bb.waiting → bb.share h < bb.groupNeed h) := by
  induction fuel generalizing bb with
  | zero =>
    have hnil : bb.reserveReady = [] := List.length_eq_zero_iff.1 (by omega)
    refine ⟨hi, rfl, rfl, ?_, ?_⟩
    · intro g hg
      simp [demoteLoop] at hg
    · intro _ h hh
      rw [hi.both, hnil] at hh
      exact hblocked h (by simpa using hh)
  | succ fuel ih =>
    unfold demoteLoop
    cases hr : bb.reserveReady with
    | nil =>
      refine ⟨hi, rfl, rfl, ?_, ?_⟩
      · intro g hg
        simp at hg
      · intro _ h hh
        rw [hi.both, hr] at hh
        exact hblocked h (by simpa using hh)
    | cons g l =>
      simp only
      split_ifs with hneed
      · refine ⟨hi, rfl, rfl, ?_, ?_⟩
        · intro g' hg'
          cases hg'
          refine ⟨(hi.both g).2 (Or.inl ?_), hneed⟩
          rw [hr]
          exact List.mem_cons_self
        · intro hnone
          cases hnone
      · have hnot : bb.eligible g = false := by
          unfold eligible
          simp [hf, hneed]
        obtain ⟨hi', hc', hw', hl'⟩ := demote_index hi hr hnot
        have hlen : (bb.refreshLocked g).reserveReady.length ≤ fuel := by
          rw [hl']
          rw [hr, List.length_cons] at hfuel
          omega
        have hneed' : ∀ h, (bb.refreshLocked g).share h < (bb.refreshLocked g).groupNeed h ↔
            bb.share h < bb.groupNeed h := by
          intro h
          rw [share_of_core hc', groupNeed_of_core hc']
        have hblocked' : ∀ h, h ∈ (bb.refreshLocked g).blocked →
            (bb.refreshLocked g).share h < (bb.refreshLocked g).groupNeed h := by
          intro h hh
          rw [hneed']
          rcases demote_blocked hi hr hnot hh with rfl | hbl
          · exact Nat.lt_of_not_le hneed
          · exact hblocked h hbl
        obtain ⟨hi'', hc'', hw'', hsome, hnone⟩ :=
          ih _ (by rw [fair_of_core hc']; exact hf) hi' hlen hblocked'
        refine ⟨hi'', hc''.trans hc', hw''.trans hw', ?_, ?_⟩
        · intro g' hg'
          have := hsome g' hg'
          rwa [hw', share_of_core hc', groupNeed_of_core hc'] at this
        · intro hn h hh
          rw [← hw'] at hh
          exact (hneed' h).1 (hnone hn h hh)

/-- `nextReserveLocked` answers an eligible waiting group, or there is none. All
groups with a queue are active, so they have the same share. -/
theorem nextReserveLocked_spec (hf : bb.fair = true) (hi : Index bb)
    (hact : ∀ h, h ∈ bb.waiting → (bb.groupAt h).active = true) :
    Index bb.nextReserveLocked.1 ∧ bb.nextReserveLocked.1.core = bb.core ∧
      bb.nextReserveLocked.1.waiting = bb.waiting ∧
      (∀ g, bb.nextReserveLocked.2 = some g → g ∈ bb.waiting ∧ bb.groupNeed g ≤ bb.share g) ∧
      (bb.nextReserveLocked.2 = none → ∀ h, h ∈ bb.waiting → bb.share h < bb.groupNeed h) := by
  obtain ⟨hi₁, hc₁, hw₁, hroot⟩ := promoteLoop_spec bb.blocked.length bb hi le_rfl
  obtain ⟨s, hs⟩ : ∃ s, promoteLoop bb.blocked.length bb = s := ⟨_, rfl⟩
  rw [hs] at hi₁ hc₁ hw₁ hroot
  have hshare : ∀ g h, g ∈ bb.waiting → h ∈ bb.waiting → bb.share g = bb.share h := by
    intro g h hg hh
    unfold share
    rw [hact g hg, hact h hh]
  have hblocked : ∀ h, h ∈ s.blocked → s.share h < s.groupNeed h := by
    intro h hh
    obtain ⟨k, hk⟩ := List.mem_iff_getElem?.1 hh
    have hklt : k < s.blocked.length := (List.getElem?_eq_some_iff.1 hk).1
    have h0 : s.blocked[0]? = some (s.blocked.getD 0 0) := Slice.getElem?_of_lt (by omega)
    have hle : s.heapKey 0 ≤ s.heapKey k := BinHeap.HeapOrd.root_le hi₁.ord k hklt
    unfold heapKey at hle
    rw [Slice.getD_of_getElem? hk] at hle
    have hlt := hroot _ h0
    have heq : s.share h = s.share (s.blocked.getD 0 0) := by
      rw [share_of_core hc₁, share_of_core hc₁]
      refine hshare _ _ ?_ ?_
      · rw [← hw₁, hi₁.both]
        exact Or.inr hh
      · rw [← hw₁, hi₁.both]
        exact Or.inr (List.mem_of_getElem? h0)
    omega
  have hfs : s.fair = true := (fair_of_core hc₁).trans hf
  obtain ⟨hi₂, hc₂, hw₂, hsome, hnone⟩ :=
    demoteLoop_spec s.reserveReady.length s hfs hi₁ le_rfl hblocked
  unfold nextReserveLocked
  simp only [hs]
  refine ⟨hi₂, hc₂.trans hc₁, hw₂.trans hw₁, ?_, ?_⟩
  · intro g hg
    have := hsome g hg
    rwa [hw₁, share_of_core hc₁, groupNeed_of_core hc₁] at this
  · intro hn h hh
    rw [← hw₁] at hh
    have := hnone hn h hh
    rwa [share_of_core hc₁, groupNeed_of_core hc₁] at this

/-! ## Rotation -/

theorem rotate_core (bb : ByteBudget) (g : GroupId) : (bb.rotate g).core = bb.core := by
  unfold rotate
  simp only
  split_ifs <;> rfl

/-- A turn moves the group to the back of both lists. -/
theorem rotate_waiting (hl : Lists bb) (g : GroupId) :
    (bb.rotate g).waiting = Line.moveToBack g bb.waiting := by
  unfold rotate Line.moveToBack
  simp only [← hl.all_iff g]
  split_ifs <;> rfl

theorem rotate_reserveReady (hl : Lists bb) (g : GroupId) :
    (bb.rotate g).reserveReady = Line.moveToBack g bb.reserveReady := by
  unfold rotate Line.moveToBack
  simp only [← hl.reserve_iff g]
  split_ifs <;> rfl

/-- Moving a group to the back of its lists keeps the index. -/
theorem rotate_index (hi : Index bb) (g : GroupId) : Index (bb.rotate g) := by
  have hpw : (bb.rotate g).waiting.Perm bb.waiting := by
    rw [rotate_waiting hi.toLists]
    exact Line.moveToBack_perm g _
  have hpr : (bb.rotate g).reserveReady.Perm bb.reserveReady := by
    rw [rotate_reserveReady hi.toLists]
    exact Line.moveToBack_perm g _
  have hat : (bb.rotate g).groupAt = bb.groupAt := by
    unfold rotate
    simp only
    split_ifs <;> rfl
  have hbl : (bb.rotate g).blocked = bb.blocked := by
    unfold rotate
    simp only
    split_ifs <;> rfl
  refine ⟨⟨hpw.nodup_iff.2 hi.waiting_nodup, hpr.nodup_iff.2 hi.reserve_nodup, ?_, ?_, ?_⟩,
    ?_, ?_, ?_, ?_⟩
  · intro h
    rw [hat, hpw.mem_iff]
    exact hi.all_iff h
  · intro h
    rw [hat, hpr.mem_iff]
    exact hi.reserve_iff h
  · intro h i
    rw [hat, hbl]
    exact hi.back h i
  · intro h
    rw [hpr.mem_iff, hbl]
    exact hi.one h
  · intro h
    rw [hpw.mem_iff, hpr.mem_iff, hbl]
    exact hi.both h
  · intro h
    rw [hpw.mem_iff, hat]
    exact hi.queued h
  · -- the heap is the same, and so are its keys
    intro c hc hcn
    have hkey : ∀ k, (bb.rotate g).heapKey k = bb.heapKey k :=
      fun k => heapKey_of_getElem? (rotate_core bb g) (by rw [hbl])
    rw [hkey, hkey]
    rw [hbl] at hcn
    exact hi.ord c hc hcn

end ByteBudget

end UspClient
