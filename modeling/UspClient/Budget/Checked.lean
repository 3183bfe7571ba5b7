import UspClient.Budget.Calls

/-!
# No front of an empty queue is read

`groupNeed` and `scheduleLocked` read the front of the queue of a group, which is nil when the
queue is empty, and every comparison of the heap of blocked groups calls `groupNeed` twice. The
methods in `Checked` are those of the budget with this read checked: the front of an empty queue,
and a position outside the heap, give `none`. Between two calls the indexes agree with the queues
(`Index`), and then every call succeeds and does what the unchecked one does. A group without a
queue is still in the heap when `refreshLocked` takes it out; `heap.Remove` moves it behind the
positions that it compares.
-/

namespace UspClient

open Word64 ByteBudget

namespace ByteBudget

/-! ## The methods with their checks -/

namespace Checked

/-- `g.waiters.Front().Value`. -/
def front (bb : ByteBudget) (g : GroupId) : Option WaiterId := (bb.groupAt g).waiters.head?

/-- The need of a group is read off its front request. -/
def groupNeed (bb : ByteBudget) (g : GroupId) : Option Nat := do
  let w := bb.waiterAt (← front bb g)
  let held := (bb.groupAt g).used
  let remaining := sub64 w.n w.credit
  return if remaining > maxWord - held then maxWord else held + remaining

/-- `Less` of the heap: both positions and both fronts are read. -/
def heapLess (bb : ByteBudget) (i j : Nat) : Option Bool := do
  let need ← groupNeed bb (← bb.blocked[i]?)
  let other ← groupNeed bb (← bb.blocked[j]?)
  return decide (need < other)

/-- The heap of blocked groups, with the checked comparison. -/
def groupHeap : BinHeap.CheckedOps ByteBudget := ⟨heapLess, heapSwap⟩

/-- `heap.Push` compares the new group with those above it. -/
def heapPush (bb : ByteBudget) (g : GroupId) : Option ByteBudget :=
  let bb := bb.setGroup g fun x => { x with heapIndex := some bb.blocked.length }
  let bb := { bb with blocked := bb.blocked ++ [g] }
  BinHeap.Checked.up groupHeap bb (bb.blocked.length - 1)

/-- `heap.Pop` moves the root behind the positions that it compares. -/
def heapPop (bb : ByteBudget) : Option ByteBudget := do
  let n := bb.blocked.length - 1
  let r ← BinHeap.Checked.down groupHeap (bb.heapSwap 0 n) 0 n
  return r.1.heapDropLast

/-- `heap.Remove` moves the group behind the positions that it compares. -/
def heapRemove (bb : ByteBudget) (i : Nat) : Option ByteBudget := do
  let n := bb.blocked.length - 1
  let bb ← if n ≠ i then BinHeap.Checked.fix groupHeap (bb.heapSwap i n) i n else some bb
  return bb.heapDropLast

/-- `heap.Fix` compares the group itself. -/
def heapFix (bb : ByteBudget) (i : Nat) : Option ByteBudget :=
  BinHeap.Checked.fix groupHeap bb i bb.blocked.length

/-- The group leaves the heap, with or without a queue. -/
def leaveBlocked (bb : ByteBudget) (g : GroupId) : Option ByteBudget :=
  match (bb.groupAt g).heapIndex with
  | some i => heapRemove bb i
  | none => some bb

/-- The group is put into the heap, or moved in it. -/
def enterBlocked (bb : ByteBudget) (g : GroupId) : Option ByteBudget :=
  match (bb.groupAt g).heapIndex with
  | some i => heapFix bb i
  | none => heapPush bb g

/-- Without fairness no need is read. -/
def eligible (bb : ByteBudget) (g : GroupId) : Option Bool :=
  if !bb.fair then some true
  else do return decide ((← groupNeed bb g) ≤ bb.share g)

/-- A group without a queue is not asked for its need. -/
def refreshLocked (bb : ByteBudget) (g : GroupId) : Option ByteBudget :=
  if (bb.groupAt g).waiters = [] then leaveBlocked ((bb.leaveWaiting g).leaveReserve g) g
  else do
    let bb := bb.enterWaiting g
    if ← eligible bb g then return (← leaveBlocked bb g).enterReserve g
    else enterBlocked (bb.leaveReserve g) g

/-- Blocked groups become ready while the need of the root is within its share. -/
def promoteLoop : Nat → ByteBudget → Option ByteBudget
  | 0, bb => some bb
  | fuel + 1, bb =>
    match bb.blocked with
    | [] => some bb
    | g :: _ => do
      if (← groupNeed bb g) > bb.share g then return bb
      else
        let bb ← heapPop bb
        promoteLoop fuel { (bb.setGroup g fun x => { x with reserveElem := true }) with
          reserveReady := bb.reserveReady ++ [g] }

/-- Ready groups whose need is no longer within their share are refreshed. -/
def demoteLoop : Nat → ByteBudget → Option (ByteBudget × Option GroupId)
  | 0, bb => some (bb, none)
  | fuel + 1, bb =>
    match bb.reserveReady with
    | [] => some (bb, none)
    | g :: _ => do
      if (← groupNeed bb g) ≤ bb.share g then return (bb, some g)
      else demoteLoop fuel (← refreshLocked bb g)

def nextReserveLocked (bb : ByteBudget) : Option (ByteBudget × Option GroupId) := do
  let bb ← promoteLoop bb.blocked.length bb
  demoteLoop bb.reserveReady.length bb

def pickGroup (bb : ByteBudget) (base : Nat) : Option (ByteBudget × Option GroupId) :=
  if base ≠ 0 ∨ !bb.fair then some (bb, bb.waiting.head?) else nextReserveLocked bb

def roomFor (bb : ByteBudget) (base : Nat) (g : GroupId) : Option Nat :=
  if bb.total = 0 then some maxWord
  else do
    if ← eligible bb g then return bb.total - sub64 bb.used bb.escape else return base

/-- The room of the group may depend on its need. -/
def creditFor (bb : ByteBudget) (base : Nat) (g : GroupId) (w : WaiterId) : Option Nat := do
  let room ← roomFor bb base g
  return min (min (sub64 (bb.waiterAt w).n (bb.waiterAt w).credit) budgetQuantum) room

/-- The credit of a round, once it has picked. -/
def credited (bb : ByteBudget) (base : Nat) : Option GroupId → Option (ByteBudget × Bool)
  | none => some (bb, false)
  | some g => do
    let w ← front bb g
    let credit ← creditFor bb base g w
    if credit = 0 then return (bb, false)
    else
      let bb ← refreshLocked (bb.giveCredit g w credit) g
      return (bb.rotate g, true)

/-- A round picks a group and credits its front request. -/
def scheduleRound (bb : ByteBudget) : Option (ByteBudget × Bool) :=
  if bb.waiting = [] then some (bb, false)
  else if bb.total ≠ 0 ∧ bb.total ≤ sub64 bb.used bb.escape then some (bb, false)
  else do
    let base := bb.baseRoom
    let (bb, picked) ← pickGroup bb base
    credited bb base picked

def scheduleLoop : Nat → ByteBudget → Option ByteBudget
  | 0, bb => some bb
  | fuel + 1, bb => do
    let (bb, go) ← scheduleRound bb
    if go then scheduleLoop fuel bb else return bb

def scheduleLocked (bb : ByteBudget) : Option ByteBudget := scheduleLoop (bb.backlog + 1) bb

/-- The group is refreshed after its request left the queue. -/
def removeWaiterLocked (bb : ByteBudget) (w : WaiterId) : Option ByteBudget :=
  let g := (bb.waiterAt w).group
  refreshLocked (((bb.unqueue w).refund w).settle g) g

/-- `refreshLocked` behind the test for an empty queue. -/
def refreshQueue (bb : ByteBudget) (g : GroupId) : Option ByteBudget :=
  if (bb.groupAt g).waiters = [] then some bb else refreshLocked bb g

def admitted (bb : ByteBudget) (n : Nat) (g : GroupId) (escaped removed : Bool) :
    Option ByteBudget := do
  let bb ← refreshQueue (bb.charge n g escaped) g
  if removed then scheduleLocked bb else return bb

/-- An admission refreshes the group, a refusal queues and schedules. -/
def admitOrQueue (bb : ByteBudget) (n : Nat) (force : Bool) (g : GroupId) (removed : Bool) :
    Option (ByteBudget × Reservation) :=
  let fits := bb.fits n g
  let alone := decide ((bb.groupAt g).waiters = [])
  if (fits && alone) || force then do
    let escaped := !fits || !alone
    let bb ← admitted bb n g escaped removed
    return (bb, ⟨true, !fits || escaped, bb.used, none⟩)
  else do
    let w := bb.nextWaiter
    let bb ← refreshLocked ((bb.enqueue n g).activateLocked g) g
    let bb ← scheduleLocked bb
    return (bb, ⟨false, false, bb.used, some w⟩)

def reserveFor (bb : ByteBudget) (n : Nat) (force : Bool) (g : Option GroupId)
    (w : Option WaiterId) : Option (ByteBudget × Reservation) :=
  if !bb.fair then some (bb.reserveLegacy n force w)
  else
    let g := group g
    match w with
    | none => admitOrQueue bb n force g false
    | some w =>
      if (bb.waiterAt w).granted then
        let bb := bb.settle g
        some (bb, ⟨true, false, bb.used, none⟩)
      else if force then do
        let bb ← removeWaiterLocked bb w
        admitOrQueue bb n force g true
      else some (bb, ⟨false, false, bb.used, some w⟩)

def cancel (bb : ByteBudget) (w : Option WaiterId) : Option ByteBudget :=
  match w with
  | none => some bb
  | some w =>
    if !bb.fair then some bb
    else do
      let bb ← removeWaiterLocked bb w
      scheduleLocked bb

/-- A release refreshes the group and schedules. -/
def releaseFor (bb : ByteBudget) (n escape : Nat) (g : Option GroupId) : Option ByteBudget :=
  if n = 0 then some bb
  else
    let g := group g
    let bb := bb.releaseLocked n escape g
    if !bb.fair then some bb.wakeLegacy
    else do
      let bb ← refreshQueue bb g
      scheduleLocked bb

end Checked

variable {bb s : ByteBudget} {g h : GroupId} {w : WaiterId} {i n : Nat} {out : Finset WaiterId}

/-! ## The heap -/

/-- A queue that is not empty has a front. -/
theorem front_checked (hne : (bb.groupAt g).waiters ≠ []) :
    Checked.front bb g = some ((bb.groupAt g).waiters.headD 0) := by
  unfold Checked.front
  rcases List.exists_cons_of_ne_nil hne with ⟨w, l, hcons⟩
  rw [hcons]
  rfl

theorem groupNeed_checked (hne : (bb.groupAt g).waiters ≠ []) :
    Checked.groupNeed bb g = some (bb.groupNeed g) := by
  unfold Checked.groupNeed
  rw [front_checked hne]
  rfl

/-- The first `n` positions of the heap hold groups with a queue. -/
def Stand (n : Nat) (bb : ByteBudget) : Prop :=
  ∀ i < n, ∃ g, bb.blocked[i]? = some g ∧ (bb.groupAt g).waiters ≠ []

/-- Positions that hold groups with a queue can be compared. -/
theorem heapLess_checked {j : Nat} (hs : Stand n bb) (hi : i < n) (hj : j < n) :
    Checked.heapLess bb i j = some (bb.heapLess i j) := by
  rcases hs i hi with ⟨g, hg, hgq⟩
  rcases hs j hj with ⟨h, hh, hhq⟩
  unfold Checked.heapLess heapLess
  rw [hg, hh, Slice.getD_of_getElem? hg, Slice.getD_of_getElem? hh]
  simp only [Option.bind_eq_bind, Option.bind_some]
  rw [groupNeed_checked hgq, groupNeed_checked hhq]
  rfl

/-- Exchanging such positions keeps them comparable, so no heap operation on them fails. -/
theorem groupHeap_agrees (hn : n ≤ bb.blocked.length) :
    BinHeap.Agrees Checked.groupHeap groupHeap n
      (fun s => s.blocked.length = bb.blocked.length ∧ Stand n s) := by
  constructor
  · exact fun s i j hs hi hj => heapLess_checked hs.2 hi hj
  · rfl
  · rintro s i j ⟨hlen, hs⟩ hi hj -
    have hil : i < s.blocked.length := by omega
    have hjl : j < s.blocked.length := by omega
    constructor
    · show (s.heapSwap i j).blocked.length = _
      unfold heapSwap
      simpa using hlen
    · intro k hk
      have hlt : Equiv.swap i j k < n := by
        rw [Equiv.swap_apply_def]
        split_ifs <;> omega
      rcases hs _ hlt with ⟨g, hg, hq⟩
      refine ⟨g, (heapSwap_getElem? hil hjl k).trans hg, ?_⟩
      show ((s.heapSwap i j).groupAt g).waiters ≠ []
      rw [waiters_of_core (core_of_heapless (heapSwap_heapless s i j))]
      exact hq

/-- Every group of the heap has a queue, up to `g`. -/
def Others (bb : ByteBudget) (g : GroupId) : Prop :=
  ∀ h ∈ bb.blocked, h ≠ g → (bb.groupAt h).waiters ≠ []

/-- An index that is out of date for `g` is right about the others. -/
theorem IndexOff.others (hi : IndexOff bb g) : Others bb g :=
  fun h hh hne => (hi.queued h hne).1 ((hi.both h).2 (.inr hh))

theorem Others.of_core (ho : Others bb g) (hb : s.blocked = bb.blocked) (hc : s.core = bb.core) :
    Others s g := by
  intro h hh hne
  rw [waiters_of_core hc]
  rw [hb] at hh
  exact ho h hh hne

/-- If `g` has a queue as well, every position can be compared. -/
theorem Others.stand (ho : Others bb g) (hg : (bb.groupAt g).waiters ≠ []) :
    Stand bb.blocked.length bb := by
  intro i hi
  refine ⟨bb.blocked[i], List.getElem?_eq_getElem hi, ?_⟩
  by_cases hgi : bb.blocked[i] = g
  · rw [hgi]
    exact hg
  · exact ho _ (List.getElem_mem hi) hgi

/-- Once `g` is in the last position, the positions before it hold groups with a queue. -/
theorem Others.stand_swap (hb : HeapBack bb) (ho : Others bb g) (hi : bb.blocked[i]? = some g)
    (hlen : bb.blocked.length = n + 1) : Stand n (bb.heapSwap i n) := by
  rcases heapSwap_last hb hi hlen with ⟨hsame, hlast⟩
  intro k hk
  have hkl : k < (bb.heapSwap i n).blocked.length := by
    rw [hsame.len, hlen]
    omega
  refine ⟨_, List.getElem?_eq_getElem hkl, ?_⟩
  rw [waiters_of_core (core_of_heapless hsame.rest)]
  refine ho _ ((hsame.mem _).1 (List.getElem_mem hkl)) fun hkg => ?_
  have hkn := hsame.back.inj (hkg ▸ List.getElem?_eq_getElem hkl) hlast
  omega

/-- `heap.Remove` of `g` succeeds even if its queue is empty. -/
theorem heapRemove_checked (hb : HeapBack bb) (ho : Others bb g)
    (hi : (bb.groupAt g).heapIndex = some i) :
    Checked.heapRemove bb i = some (bb.heapRemove i) := by
  have hat := (hb g i).1 hi
  rcases List.getElem?_eq_some_iff.1 hat with ⟨hil, -⟩
  unfold Checked.heapRemove heapRemove
  simp only
  by_cases hlast : bb.blocked.length - 1 = i
  · rw [if_neg (not_not.2 hlast), if_neg (not_not.2 hlast)]
    rfl
  · have hlen : bb.blocked.length = bb.blocked.length - 1 + 1 := by omega
    have hswap := (heapSwap_last hb hat hlen).1.len
    rw [if_pos hlast, if_pos hlast, (groupHeap_agrees (n := bb.blocked.length - 1)
      (Nat.sub_le _ _)).fix ⟨hswap, ho.stand_swap hb hat hlen⟩ (by omega)]
    rfl

/-- So does `heap.Pop`, if `g` is the root. -/
theorem heapPop_checked (hb : HeapBack bb) (ho : Others bb g) (hg : bb.blocked[0]? = some g) :
    Checked.heapPop bb = some bb.heapPop := by
  rcases List.getElem?_eq_some_iff.1 hg with ⟨hpos, -⟩
  have hlen : bb.blocked.length = bb.blocked.length - 1 + 1 := by omega
  have hswap := (heapSwap_last hb hg hlen).1.len
  have hstand := ho.stand_swap hb hg hlen
  have hagrees := groupHeap_agrees (Nat.sub_le bb.blocked.length 1)
  unfold Checked.heapPop heapPop
  simp only
  -- a heap of one group is not sifted
  rcases Nat.eq_zero_or_pos (bb.blocked.length - 1) with hone | hmore
  · rw [hone]
    rfl
  · rw [hagrees.down ⟨hswap, hstand⟩ hmore]
    rfl

theorem heapFix_checked (hb : HeapBack bb) (ho : Others bb g) (hg : (bb.groupAt g).waiters ≠ [])
    (hi : (bb.groupAt g).heapIndex = some i) : Checked.heapFix bb i = some (bb.heapFix i) := by
  rcases List.getElem?_eq_some_iff.1 ((hb g i).1 hi) with ⟨hil, -⟩
  exact (groupHeap_agrees le_rfl).fix ⟨rfl, ho.stand hg⟩ hil

/-- `heap.Push` succeeds for a group with a queue. -/
theorem heapPush_checked (ho : Others bb g) (hg : (bb.groupAt g).waiters ≠ []) :
    Checked.heapPush bb g = some (bb.heapPush g) := by
  obtain ⟨s, hs⟩ : ∃ s : ByteBudget, s = { (bb.setGroup g fun x =>
    { x with heapIndex := some bb.blocked.length }) with blocked := bb.blocked ++ [g] } := ⟨_, rfl⟩
  have hrest : s.heapless = bb.heapless := by
    rw [hs]
    show (bb.setGroup g fun x => { x with heapIndex := some bb.blocked.length }).heapless = _
    exact heapless_setGroup (by intro x; rfl)
  have hcore := core_of_heapless hrest
  have hpushed : Others s g := by
    intro h hh hne
    rw [waiters_of_core hcore]
    rw [hs] at hh
    rcases List.mem_append.1 hh with hold | hnew
    · exact ho h hold hne
    · exact absurd (List.mem_singleton.1 hnew) hne
  rw [← waiters_of_core hcore] at hg
  have hlast : s.blocked.length - 1 < s.blocked.length := by
    rw [hs]
    simp
  have hup := (groupHeap_agrees le_rfl).up ⟨rfl, hpushed.stand hg⟩ hlast
  rw [hs] at hup
  exact hup

theorem leaveBlocked_checked (hb : HeapBack bb) (ho : Others bb g) :
    Checked.leaveBlocked bb g = some (bb.leaveBlocked g) := by
  unfold Checked.leaveBlocked leaveBlocked
  cases hi : (bb.groupAt g).heapIndex with
  | some i => exact heapRemove_checked hb ho hi
  | none => rfl

theorem enterBlocked_checked (hb : HeapBack bb) (ho : Others bb g)
    (hg : (bb.groupAt g).waiters ≠ []) :
    Checked.enterBlocked bb g = some (bb.enterBlocked g) := by
  unfold Checked.enterBlocked enterBlocked
  cases hi : (bb.groupAt g).heapIndex with
  | some i => exact heapFix_checked hb ho hg hi
  | none => exact heapPush_checked ho hg

/-! ## refreshLocked and nextReserveLocked -/

theorem eligible_checked (hg : (bb.groupAt g).waiters ≠ []) :
    Checked.eligible bb g = some (bb.eligible g) := by
  unfold Checked.eligible eligible
  rw [groupNeed_checked hg]
  cases bb.fair with
  | false => rfl
  | true => rfl

/-- `refreshLocked` succeeds although the index is out of date for its group. -/
theorem refreshLocked_checked (hi : IndexOff bb g) :
    Checked.refreshLocked bb g = some (bb.refreshLocked g) := by
  have ho := hi.others
  unfold Checked.refreshLocked refreshLocked
  by_cases hempty : (bb.groupAt g).waiters = []
  · rw [if_pos hempty, if_pos hempty]
    have hcore := (leaveReserve_core (bb.leaveWaiting g) g).trans (leaveWaiting_core bb g)
    exact leaveBlocked_checked ((hi.toLists.leaveWaiting g).leaveReserve g).back
      (ho.of_core (leaveReserve_blocked.trans leaveWaiting_blocked) hcore)
  · rw [if_neg hempty, if_neg hempty]
    have hlists := hi.toLists.enterWaiting g
    have hcore := enterWaiting_core bb g
    have hwait := ho.of_core enterWaiting_blocked hcore
    rw [← waiters_of_core hcore] at hempty
    simp only
    rw [eligible_checked hempty, Option.bind_eq_bind, Option.bind_some]
    cases (bb.enterWaiting g).eligible g with
    | true =>
      rw [if_pos rfl, if_pos rfl, leaveBlocked_checked hlists.back hwait]
      rfl
    | false =>
      rw [if_neg Bool.false_ne_true, if_neg Bool.false_ne_true]
      have hcore' := leaveReserve_core (bb.enterWaiting g) g
      rw [← waiters_of_core hcore'] at hempty
      exact enterBlocked_checked (hlists.leaveReserve g).back
        (hwait.of_core leaveReserve_blocked hcore') hempty

/-- Each promotion keeps the index, so the loop goes through. -/
theorem promoteLoop_checked (fuel : Nat) (hi : Index bb) :
    Checked.promoteLoop fuel bb = some (promoteLoop fuel bb) := by
  induction fuel generalizing bb with
  | zero => rfl
  | succ fuel ih =>
    unfold Checked.promoteLoop promoteLoop
    cases hb : bb.blocked with
    | nil => rfl
    | cons g l =>
      have hg : bb.blocked[0]? = some g := by
        rw [hb]
        rfl
      have hqueue := (hi.queued g).1 (hi.mem_of_head hg).2.2
      simp only
      rw [groupNeed_checked hqueue, Option.bind_eq_bind, Option.bind_some]
      split_ifs
      · rfl
      · rw [heapPop_checked hi.back (hi.off_self g).others hg, Option.bind_eq_bind,
          Option.bind_some]
        refine ih ?_
        rw [promote_eq hi hg]
        exact (promote_index hi hg).1

/-- Each demotion keeps it too. -/
theorem demoteLoop_checked (fuel : Nat) (hf : bb.fair = true) (hi : Index bb) :
    Checked.demoteLoop fuel bb = some (demoteLoop fuel bb) := by
  induction fuel generalizing bb with
  | zero => rfl
  | succ fuel ih =>
    unfold Checked.demoteLoop demoteLoop
    cases hr : bb.reserveReady with
    | nil => rfl
    | cons g l =>
      have hmem : g ∈ bb.reserveReady := by
        rw [hr]
        exact List.mem_cons_self
      have hqueue := (hi.queued g).1 ((hi.both g).2 (.inl hmem))
      simp only
      rw [groupNeed_checked hqueue, Option.bind_eq_bind, Option.bind_some]
      split_ifs with hneed
      · rfl
      · have hnot : bb.eligible g = false := by
          unfold eligible
          rw [hf, decide_eq_false hneed]
          rfl
        rcases demote_index hi hr hnot with ⟨hi', hcore, -⟩
        rw [refreshLocked_checked (hi.off_self g), Option.bind_eq_bind, Option.bind_some]
        exact ih ((fair_of_core hcore).trans hf) hi'

theorem nextReserveLocked_checked (hf : bb.fair = true) (hi : Index bb) :
    Checked.nextReserveLocked bb = some bb.nextReserveLocked := by
  rcases promoteLoop_spec bb.blocked.length bb hi le_rfl with ⟨hi', hcore, -⟩
  unfold Checked.nextReserveLocked
  rw [promoteLoop_checked _ hi, Option.bind_eq_bind, Option.bind_some]
  exact demoteLoop_checked _ ((fair_of_core hcore).trans hf) hi'

/-! ## scheduleLocked -/

theorem creditFor_checked (hg : (bb.groupAt g).waiters ≠ []) (base : Nat) (w : WaiterId) :
    Checked.creditFor bb base g w = some (bb.creditFor base g w) := by
  unfold Checked.creditFor Checked.roomFor creditFor
  rw [eligible_checked hg]
  by_cases htotal : bb.total = 0
  · simp only [if_pos htotal]
    rfl
  · simp only [if_neg htotal]
    cases bb.eligible g with
    | true => rfl
    | false => rfl

/-- A round succeeds while the queues are lined up. -/
theorem Lined.scheduleRound_checked (hl : Lined bb out) :
    Checked.scheduleRound bb = some bb.scheduleRound := by
  have hpick : Checked.pickGroup bb bb.baseRoom = some (bb.pickGroup bb.baseRoom) := by
    unfold Checked.pickGroup pickGroup
    split_ifs
    · rfl
    · exact nextReserveLocked_checked hl.fair hl.index
  rw [scheduleRound_eq]
  unfold Checked.scheduleRound
  by_cases hidle : bb.Idle
  · have hturn : bb.turn = none := if_pos hidle
    have hchosen : bb.chosen = bb := if_pos hidle
    rw [hturn, hchosen]
    rcases hidle with hempty | hfull
    · rw [if_pos hempty]
    · rw [if_pos hfull, ite_self]
  · have hchosen : bb.chosen = (bb.pickGroup bb.baseRoom).1 := if_neg hidle
    have hturn : bb.turn = (bb.pickGroup bb.baseRoom).2.map fun g => _ := if_neg hidle
    have hbusy := not_or.1 hidle
    rw [if_neg hbusy.1, if_neg hbusy.2]
    simp only
    rw [hpick, Option.bind_eq_bind, Option.bind_some, ← hchosen]
    cases hg : (bb.pickGroup bb.baseRoom).2 with
    | none =>
      rw [hturn, hg]
      rfl
    | some g =>
      rw [hg] at hturn
      have hk : bb.turn = some ⟨g, (bb.chosen.groupAt g).waiters.headD 0, _, _⟩ := hturn
      have hcore := (chosen_picked hl.fair hl.index).core
      -- the group that was picked waits, so its queue has a front
      have hqueue : (bb.chosen.groupAt g).waiters ≠ [] := by
        rw [waiters_of_core hcore]
        exact (hl.index.queued g).1 (turn_mem hl.fair hl.index hk)
      rw [hk]
      unfold Checked.credited
      simp only
      rw [front_checked hqueue, Option.bind_eq_bind, Option.bind_some, creditFor_checked hqueue,
        Option.bind_eq_bind, Option.bind_some]
      split_ifs with hzero
      · rfl
      · have hw := headD_mem hqueue
        have hle := (hl.turn_credit hk hzero).1
        have hlt := hl.chosen.lt _ ((hl.chosen.queues.mem _ _).1 hw).1
        simp only at hle
        rw [refreshLocked_checked
          (giveCredit_off hl.chosen.index hl.chosen.queues hw (by omega))]
        rfl

/-- Rounds keep the queues lined up, so the loop succeeds. -/
theorem Lined.scheduleLocked_checked (hl : Lined bb out) :
    Checked.scheduleLocked bb = some bb.scheduleLocked := by
  have hloop : ∀ fuel {t : ByteBudget}, Lined t out →
      Checked.scheduleLoop fuel t = some (scheduleLoop fuel t) := by
    intro fuel
    induction fuel with
    | zero => exact fun _ => rfl
    | succ fuel ih =>
      intro t ht
      have hround := ht.round.1
      unfold Checked.scheduleLoop scheduleLoop
      rw [ht.scheduleRound_checked, Option.bind_eq_bind, Option.bind_some]
      generalize t.scheduleRound = r at hround ⊢
      rcases r with ⟨u, go⟩
      cases go with
      | false => rfl
      | true => exact ih hround
  exact hloop _ hl

/-! ## The calls -/

theorem Lined.removeWaiterLocked_checked (hl : Lined bb out) (hw : w ∈ out) :
    Checked.removeWaiterLocked bb w = some (bb.removeWaiterLocked w) :=
  refreshLocked_checked
    (hl.index.off_removed hl.queues (remove_spec hl.queues hw rfl) rfl)

theorem Lined.removeWaiterLocked_nextGroup (hl : Lined bb out) (hw : w ∈ out) :
    (bb.removeWaiterLocked w).nextGroup = bb.nextGroup := by
  have hrem := remove_spec hl.queues hw rfl
  have hcore := refreshLocked_core (hl.index.off_removed hl.queues hrem rfl)
  exact (congrArg nextGroup hcore).trans hrem.nextGroup

/-- The refresh of a group whose counters were written to. -/
theorem Lined.refreshQueue_checked (hl : Lined bb out) (ht : Touches bb s g) :
    Checked.refreshQueue s g =
      some (if (s.groupAt g).waiters = [] then s else s.refreshLocked g) := by
  unfold Checked.refreshQueue
  split_ifs
  · rfl
  · exact refreshLocked_checked (hl.index.off_touches ht)

theorem Lined.admitted_checked (hl : Lined bb out) (n : Nat) (g : GroupId)
    (escaped removed : Bool) :
    Checked.admitted bb n g escaped removed = some (bb.admitted n g escaped removed) := by
  have ht := charge_touches bb n g escaped
  unfold Checked.admitted admitted
  rw [hl.refreshQueue_checked ht, Option.bind_eq_bind, Option.bind_some]
  cases removed with
  | false => rfl
  | true => exact (hl.touch ht).scheduleLocked_checked

theorem Lined.admitOrQueue_checked (hl : Lined bb out) (hg : g < bb.nextGroup) (hn : n < 2 ^ 64)
    (force removed : Bool) :
    Checked.admitOrQueue bb n force g removed = some (bb.admitOrQueue n force g removed) := by
  unfold Checked.admitOrQueue admitOrQueue
  simp only
  split_ifs
  · rw [hl.admitted_checked]
    rfl
  · rw [refreshLocked_checked (enqueue_off hl.index hl.queues n g), Option.bind_eq_bind,
      Option.bind_some, (hl.enqueue hg hn).scheduleLocked_checked]
    rfl

end ByteBudget

namespace CallState

/-- A call with its checks. -/
def checkedNext (s : CallState) : BudgetOp → Option CallState
  | .reserveFor n force g w => do
    let r ← Checked.reserveFor s.bb n.toNat force g w
    return {
      bb := r.1
      out := if r.2.ok then w.elim s.out s.out.erase
        else r.2.waiter.elim s.out fun v => insert v s.out }
  | .cancel w => do return { bb := ← Checked.cancel s.bb w, out := w.elim s.out s.out.erase }
  | .releaseFor n escape g => do
    return { s with bb := ← Checked.releaseFor s.bb n.toNat escape.toNat g }
  | .register key => some { s with bb := (s.bb.register key).1 }
  | .unregister g => some { s with bb := s.bb.unregister g }

variable {s : CallState} {op : BudgetOp}

/-- Every call succeeds and does what the unchecked one does. -/
theorem checkedNext_eq (hl : Lined s.bb s.out) (hg : callMachine.guard s op) :
    s.checkedNext op = some (s.next op) := by
  have hunfair : ¬ (!s.bb.fair) = true := by
    rw [hl.fair]
    exact Bool.false_ne_true
  cases op with
  | reserveFor n force og w =>
    rcases hg with ⟨hgroup, hwaiter⟩
    have hreserve : Checked.reserveFor s.bb n.toNat force og w =
        some (s.bb.reserveFor n.toNat force og w) := by
      unfold Checked.reserveFor reserveFor
      rw [if_neg hunfair, if_neg hunfair]
      cases w with
      | none => exact hl.admitOrQueue_checked hgroup n.toNat_lt force false
      | some w =>
        simp only
        split_ifs
        · rfl
        · have hw := (hwaiter w rfl).1
          -- a forced caller gives up its waiter first
          rw [hl.removeWaiterLocked_checked hw, Option.bind_eq_bind, Option.bind_some]
          refine (hl.removeWaiterLocked hw).admitOrQueue_checked ?_ n.toNat_lt _ true
          rw [hl.removeWaiterLocked_nextGroup hw]
          exact hgroup
        · rfl
    unfold checkedNext
    simp only
    rw [hreserve]
    rfl
  | cancel w =>
    have hcancel : Checked.cancel s.bb w = some (s.bb.cancel w) := by
      cases w with
      | none => rfl
      | some w =>
        unfold Checked.cancel cancel
        simp only
        rw [if_neg hunfair, if_neg hunfair, hl.removeWaiterLocked_checked (hg w rfl),
          Option.bind_eq_bind, Option.bind_some]
        exact (hl.removeWaiterLocked (hg w rfl)).scheduleLocked_checked
    unfold checkedNext
    simp only
    rw [hcancel]
    rfl
  | releaseFor n escape og =>
    have hrelease : Checked.releaseFor s.bb n.toNat escape.toNat og =
        some (s.bb.releaseFor n.toNat escape.toNat og) := by
      -- the release itself reads no queue
      have ht := releaseLocked_touches s.bb n.toNat escape.toNat (group og)
      unfold Checked.releaseFor
      by_cases hzero : n.toNat = 0
      · unfold releaseFor
        rw [if_pos hzero, if_pos hzero]
      · simp only
        rw [releaseFor_eq hl.fair hzero, if_neg hzero, ht.fair, if_neg hunfair,
          hl.refreshQueue_checked ht, Option.bind_eq_bind, Option.bind_some]
        exact (hl.touch ht).scheduleLocked_checked
    unfold checkedNext
    simp only
    rw [hrelease]
    rfl
  | register key => rfl
  | unregister g => rfl

end CallState

/-- **The indexes of the scheduler** agree with the queues between two calls, and no call reads the
front of an empty queue. -/
theorem scheduler_indexes {s₀ s : CallState} {tr : List (Machine.Step CallState BudgetOp)}
    (hf : FreshCalls s₀) (hrun : Machine.Run callMachine s₀ tr s) :
    Index s.bb ∧ ∀ op, callMachine.guard s op →
      s.checkedNext op = some (callMachine.next s op) := by
  have hl := TurnState.lined_of_calls hf hrun
  exact ⟨hl.index, fun _ hg => CallState.checkedNext_eq hl hg⟩

/-- Two groups wait, one for its share of the reserve and one beyond its share. -/
def bothIndexes : List BudgetOp :=
  [.register "A", .register "B", .reserveFor 900 false (some 1) none,
    .reserveFor 300 false (some 2) none, .reserveFor 200 false (some 1) none]

theorem both_indexes_checked :
    (callMachine.exec ⟨fairStart.bb, ∅⟩ bothIndexes).bb.reserveReady = [2] ∧
      (callMachine.exec ⟨fairStart.bb, ∅⟩ bothIndexes).bb.blocked = [1] ∧
      HeapOrdered (callMachine.exec ⟨fairStart.bb, ∅⟩ bothIndexes).bb ∧
      (callMachine.exec ⟨fairStart.bb, ∅⟩ bothIndexes).checkedNext (.cancel (some 1)) =
        some (callMachine.next (callMachine.exec ⟨fairStart.bb, ∅⟩ bothIndexes)
          (.cancel (some 1))) := by
  have hfresh : FreshCalls ⟨fairStart.bb, ∅⟩ := ⟨⟨1000, ⟨100, 256⟩, rfl⟩, rfl⟩
  rcases scheduler_indexes hfresh (Machine.run_exec bothIndexes (by decide +kernel)) with
    ⟨hindex, hchecked⟩
  exact ⟨by decide +kernel, by decide +kernel, hindex.ord, hchecked _ (by decide +kernel)⟩

end UspClient
