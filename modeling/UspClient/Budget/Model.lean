import UspClient.Lib.Heap
import UspClient.Lib.Slice
import UspClient.Message

/-!
# The shared byte budget (byte_budget.go)

`ByteBudget` with its groups and waiters. Pointers are indices into arenas:
`groupAt`, `waiterAt` and `closed` (channels) are total functions, and the
matching `next…` counter is the next fresh index. Group `0` is the embedded
`legacy` group, so a nil group pointer is `none` and `group none = 0`.

Every function here is the body of a method between `mu.Lock` and `mu.Unlock`.
A list element pointer (`elem`, `allElem`, `reserveElem`) is a flag "non-nil";
removing an element by pointer is `List.erase`, since a list never holds the
same pointer twice. A nil `heapIndex` stands for `-1`.
-/

namespace UspClient

open Function Word64

abbrev GroupId := Nat
abbrev WaiterId := Nat
abbrev ChanId := Nat

structure BudgetGroup where
  key : String := ""
  refs : Nat := 0
  used : Nat := 0
  escape : Nat := 0
  pending : Nat := 0
  active : Bool := false
  waiters : List WaiterId := []
  allElem : Bool := false
  reserveElem : Bool := false
  heapIndex : Option Nat := none
deriving DecidableEq, Repr

structure BudgetWaiter where
  n : Nat := 0
  credit : Nat := 0
  group : GroupId := 0
  wake : Option ChanId := none
  elem : Bool := false
  granted : Bool := false
deriving DecidableEq, Repr

/-- One call of `charge` on a fair budget, as history: the group, what it was
charged, the share it had just before, and the counters just after. -/
structure Charge where
  group : GroupId
  n : Nat
  escaped : Bool
  share : Nat
  groupUsed : Nat
  used : Nat
  escape : Nat
deriving DecidableEq, Repr

structure ByteBudget where
  total : Nat
  used : Nat := 0
  escape : Nat := 0
  fair : Bool := false
  reserve : Nat := 0
  minGroup : Nat := 0
  groups : String → Option GroupId := fun _ => none
  active : Nat := 0
  legacyWake : Option ChanId := none
  waiting : List GroupId := []
  reserveReady : List GroupId := []
  blocked : List GroupId := []
  groupAt : GroupId → BudgetGroup := fun _ => {}
  nextGroup : GroupId := 1
  waiterAt : WaiterId → BudgetWaiter := fun _ => {}
  nextWaiter : WaiterId := 0
  closed : ChanId → Bool := fun _ => false
  nextChan : ChanId := 0
  /-- History variable: the charges a fair budget made, latest first. -/
  charges : List Charge := []

def budgetQuantum : Nat := 65536

def newByteBudget (total : Nat) : ByteBudget := { total := total }

structure FairByteBudgetOptions where
  reserveBytes : Nat := 0
  minGroupBytes : Nat := 0

/-- `none` is the error "reserve must be smaller than total". -/
def newFairByteBudget (total : Nat) (o : FairByteBudgetOptions) : Option ByteBudget :=
  let reserve := if o.reserveBytes = 0 then total / 8 else o.reserveBytes
  if (total = 0 ∧ reserve ≠ 0) ∨ (total ≠ 0 ∧ total ≤ reserve) then none
  else
    let minGroup := if o.minGroupBytes = 0 then messageOverheadBytes else o.minGroupBytes
    some { newByteBudget total with fair := true, reserve := reserve, minGroup := minGroup }

namespace ByteBudget

/-! ## Writing through a pointer -/

@[simps]
def setGroup (bb : ByteBudget) (g : GroupId) (f : BudgetGroup → BudgetGroup) : ByteBudget :=
  { bb with groupAt := update bb.groupAt g (f (bb.groupAt g)) }

@[simps]
def setWaiter (bb : ByteBudget) (w : WaiterId) (f : BudgetWaiter → BudgetWaiter) : ByteBudget :=
  { bb with waiterAt := update bb.waiterAt w (f (bb.waiterAt w)) }

@[simps]
def setCounters (bb : ByteBudget) (used escape : Nat) : ByteBudget :=
  { bb with used := used, escape := escape }

@[simps]
def setActive (bb : ByteBudget) (active : Nat) : ByteBudget := { bb with active := active }

@[simps]
def setGroups (bb : ByteBudget) (groups : String → Option GroupId) : ByteBudget :=
  { bb with groups := groups }

@[simps]
def pushCharge (bb : ByteBudget) (c : Charge) : ByteBudget := { bb with charges := c :: bb.charges }

/-- `make(chan struct{})`: the channel `nextChan`. -/
@[simps]
def makeChan (bb : ByteBudget) : ByteBudget := { bb with nextChan := bb.nextChan + 1 }

@[simps]
def closeChan (bb : ByteBudget) (c : ChanId) : ByteBudget :=
  { bb with closed := update bb.closed c true }

/-! ## Registration -/

/-- The methods take a group pointer; nil is the embedded legacy group. -/
def group (g : Option GroupId) : GroupId := g.getD 0

inductive RegisterError where
  | requiresBudgetGroup
deriving DecidableEq, Repr

/-- `register` on a non-nil budget. -/
def register (bb : ByteBudget) (key : String) :
    ByteBudget × Except RegisterError (Option GroupId) :=
  -- the key is ignored by an ungrouped budget, before any check of it
  if !bb.fair then (bb, .ok none)
  else if key = "" then (bb, .error .requiresBudgetGroup)
  else
    match bb.groups key with
    | some g => (bb.setGroup g fun x => { x with refs := add64 x.refs 1 }, .ok (some g))
    | none =>
      let g := bb.nextGroup
      ({ (bb.setGroup g fun _ => { key := key, refs := 1 }) with
          groups := update bb.groups key (some g), nextGroup := g + 1 }, .ok (some g))

def unregisterLocked (bb : ByteBudget) (g : GroupId) : ByteBudget :=
  if !bb.fair then bb
  else
    let bb := bb.setGroup g fun x => { x with refs := sub64 x.refs 1 }
    -- only the key is forgotten: the group's bytes stay where they are
    if (bb.groupAt g).refs = 0 then
      bb.setGroups (update bb.groups (bb.groupAt g).key none)
    else bb

def unregister (bb : ByteBudget) (g : Option GroupId) : ByteBudget :=
  match g with
  | none => bb
  | some g => bb.unregisterLocked g

/-! ## Accounting -/

def activateLocked (bb : ByteBudget) (g : GroupId) : ByteBudget :=
  if !bb.fair then bb
  else
    let active := decide ((bb.groupAt g).used ≠ 0 ∨ (bb.groupAt g).pending ≠ 0)
    -- the flag of the group says whether it is already counted
    if active = (bb.groupAt g).active then bb
    else
      (bb.setGroup g fun x => { x with active := active }).setActive
        (if active then add64 bb.active 1 else sub64 bb.active 1)

def share (bb : ByteBudget) (g : GroupId) : Nat :=
  -- a group that is not counted yet is counted as if it were
  let n := if (bb.groupAt g).active then bb.active else add64 bb.active 1
  let n := if n < 2 then 2 else n
  let share := bb.total / n
  if share < bb.minGroup then bb.minGroup else share

/-- The head of an empty queue is a nil element; the source would panic there. -/
def groupNeed (bb : ByteBudget) (g : GroupId) : Nat :=
  let w := bb.waiterAt ((bb.groupAt g).waiters.headD 0)
  let held := (bb.groupAt g).used
  let remaining := sub64 w.n w.credit
  -- the sum saturates
  if remaining > maxWord - held then maxWord else held + remaining

def fits (bb : ByteBudget) (n : Nat) (g : GroupId) : Bool :=
  if bb.total = 0 then true
  else
    let used := sub64 bb.used bb.escape
    if n > bb.total ∨ used > bb.total - n then false
    else if !bb.fair ∨ used + n ≤ bb.total - bb.reserve then true
    else
      -- inside the reserve only a group below its share
      let share := bb.share g
      let held := (bb.groupAt g).used
      decide (n ≤ share ∧ held ≤ share - n)

/-- `charge` before the activity of the group is recounted. -/
def addCharge (bb : ByteBudget) (n : Nat) (g : GroupId) (escape : Bool) : ByteBudget :=
  (bb.setGroup g fun x =>
    { x with used := add64 x.used n,
             escape := if escape then add64 x.escape n else x.escape }).setCounters
    (add64 bb.used n) (if escape then add64 bb.escape n else bb.escape)

/-- The history entry of a charge. -/
def chargeRecord (bb : ByteBudget) (n : Nat) (g : GroupId) (escape : Bool) : Charge :=
  let bb' := bb.addCharge n g escape
  { group := g, n := n, escaped := escape, share := bb.share g,
    groupUsed := (bb'.groupAt g).used, used := bb'.used, escape := bb'.escape }

def charge (bb : ByteBudget) (n : Nat) (g : GroupId) (escape : Bool) : ByteBudget :=
  if !bb.fair then bb.setCounters (add64 bb.used n) bb.escape
  else
    ((bb.addCharge n g escape).pushCharge (bb.chargeRecord n g escape)).activateLocked g

/-- A fair release before the activity of the group is recounted. -/
def subCharge (bb : ByteBudget) (n escape : Nat) (g : GroupId) : ByteBudget :=
  (bb.setGroup g fun x =>
    { x with used := x.used - n, escape := sub64 x.escape escape }).setCounters
    (bb.used - n) (sub64 bb.escape escape)

def releaseLocked (bb : ByteBudget) (n escape : Nat) (g : GroupId) : ByteBudget :=
  -- the bytes are cut to what is charged, the escape is not
  if !bb.fair then bb.setCounters (bb.used - min n bb.used) bb.escape
  else (bb.subCharge (min (min n (bb.groupAt g).used) bb.used) escape g).activateLocked g

/-! ## The heap of blocked groups -/

def heapLess (bb : ByteBudget) (i j : Nat) : Bool :=
  decide (bb.groupNeed (bb.blocked.getD i 0) < bb.groupNeed (bb.blocked.getD j 0))

def heapSwap (bb : ByteBudget) (i j : Nat) : ByteBudget :=
  let gi := bb.blocked.getD i 0
  let gj := bb.blocked.getD j 0
  let bb := { bb with blocked := (bb.blocked.set i gj).set j gi }
  let bb := bb.setGroup gj fun x => { x with heapIndex := some i }
  bb.setGroup gi fun x => { x with heapIndex := some j }

def groupHeap : BinHeap.Ops ByteBudget := ⟨heapLess, heapSwap⟩

/-- `heap.Push`. -/
def heapPush (bb : ByteBudget) (g : GroupId) : ByteBudget :=
  let bb := bb.setGroup g fun x => { x with heapIndex := some bb.blocked.length }
  let bb := { bb with blocked := bb.blocked ++ [g] }
  BinHeap.up groupHeap bb (bb.blocked.length - 1)

/-- `groupHeap.Pop`: drop the last position. -/
def heapDropLast (bb : ByteBudget) : ByteBudget :=
  let g := bb.blocked.getLastD 0
  let bb := { bb with blocked := bb.blocked.dropLast }
  bb.setGroup g fun x => { x with heapIndex := none }

/-- `heap.Pop`. -/
def heapPop (bb : ByteBudget) : ByteBudget :=
  let n := bb.blocked.length - 1
  let bb := bb.heapSwap 0 n
  (BinHeap.down groupHeap bb 0 n).1.heapDropLast

/-- `heap.Remove`. -/
def heapRemove (bb : ByteBudget) (i : Nat) : ByteBudget :=
  let n := bb.blocked.length - 1
  -- the last position leaves without being sifted
  let bb := if n ≠ i then BinHeap.fix groupHeap (bb.heapSwap i n) i n else bb
  bb.heapDropLast

/-- `heap.Fix`. -/
def heapFix (bb : ByteBudget) (i : Nat) : ByteBudget :=
  BinHeap.fix groupHeap bb i bb.blocked.length

/-! ## Scheduling -/

/-- Take a group out of the list of waiting groups, if it is there. -/
def leaveWaiting (bb : ByteBudget) (g : GroupId) : ByteBudget :=
  if (bb.groupAt g).allElem then
    { (bb.setGroup g fun x => { x with allElem := false }) with waiting := bb.waiting.erase g }
  else bb

def leaveReserve (bb : ByteBudget) (g : GroupId) : ByteBudget :=
  if (bb.groupAt g).reserveElem then
    { (bb.setGroup g fun x => { x with reserveElem := false }) with
      reserveReady := bb.reserveReady.erase g }
  else bb

def leaveBlocked (bb : ByteBudget) (g : GroupId) : ByteBudget :=
  match (bb.groupAt g).heapIndex with
  | some i => bb.heapRemove i
  | none => bb

def enterWaiting (bb : ByteBudget) (g : GroupId) : ByteBudget :=
  if (bb.groupAt g).allElem then bb
  else { (bb.setGroup g fun x => { x with allElem := true }) with waiting := bb.waiting ++ [g] }

def enterReserve (bb : ByteBudget) (g : GroupId) : ByteBudget :=
  if (bb.groupAt g).reserveElem then bb
  else
    { (bb.setGroup g fun x => { x with reserveElem := true }) with
      reserveReady := bb.reserveReady ++ [g] }

def enterBlocked (bb : ByteBudget) (g : GroupId) : ByteBudget :=
  match (bb.groupAt g).heapIndex with
  | some i => bb.heapFix i
  | none => bb.heapPush g

/-- The head of the group may draw on the reserve. -/
def eligible (bb : ByteBudget) (g : GroupId) : Bool :=
  !bb.fair || decide (bb.groupNeed g ≤ bb.share g)

def refreshLocked (bb : ByteBudget) (g : GroupId) : ByteBudget :=
  if (bb.groupAt g).waiters = [] then ((bb.leaveWaiting g).leaveReserve g).leaveBlocked g
  else
    let bb := bb.enterWaiting g
    -- the heap holds the groups that may not draw on the reserve, and only those
    if bb.eligible g then (bb.leaveBlocked g).enterReserve g
    else (bb.leaveReserve g).enterBlocked g

/-- First loop of `nextReserveLocked`: promote heap heads that became eligible. -/
def promoteLoop : Nat → ByteBudget → ByteBudget
  | 0, bb => bb
  | fuel + 1, bb =>
    match bb.blocked with
    | [] => bb
    | g :: _ =>
      if bb.groupNeed g > bb.share g then bb
      else
        -- the element pointer is overwritten: the group is in the heap, so it has none
        let bb := bb.heapPop
        promoteLoop fuel { (bb.setGroup g fun x => { x with reserveElem := true }) with
          reserveReady := bb.reserveReady ++ [g] }

/-- Second loop: the first group of `reserveReady` still eligible; the others are
classified again. -/
def demoteLoop : Nat → ByteBudget → ByteBudget × Option GroupId
  | 0, bb => (bb, none)
  | fuel + 1, bb =>
    match bb.reserveReady with
    | [] => (bb, none)
    | g :: _ =>
      if bb.groupNeed g ≤ bb.share g then (bb, some g) else demoteLoop fuel (bb.refreshLocked g)

def nextReserveLocked (bb : ByteBudget) : ByteBudget × Option GroupId :=
  let bb := promoteLoop bb.blocked.length bb
  demoteLoop bb.reserveReady.length bb

/-- The group the next credit goes to, as `scheduleLocked` picks it from the room
left outside the reserve. -/
def pickGroup (bb : ByteBudget) (base : Nat) : ByteBudget × Option GroupId :=
  -- with room outside the reserve every waiting group has its turn
  if base ≠ 0 ∨ !bb.fair then (bb, bb.waiting.head?) else bb.nextReserveLocked

/-- Wake the head of the group, which has all its bytes. -/
def grant (bb : ByteBudget) (g : GroupId) (w : WaiterId) : ByteBudget :=
  let bb := bb.setGroup g fun x => { x with waiters := x.waiters.erase w }
  let bb := bb.setWaiter w fun x => { x with elem := false, granted := true }
  match (bb.waiterAt w).wake with
  | some c => bb.closeChan c
  | none => bb

/-- Hand `credit` bytes to the head of the group; a full credit grants it. -/
def giveCredit (bb : ByteBudget) (g : GroupId) (w : WaiterId) (credit : Nat) : ByteBudget :=
  -- a credit is charged before its waiter is woken
  let bb := bb.charge credit g false
  let bb := bb.setWaiter w fun x => { x with credit := add64 x.credit credit }
  if (bb.waiterAt w).credit = (bb.waiterAt w).n then bb.grant g w else bb

/-- `MoveToBack` of the group in the two lists it is in. -/
def rotate (bb : ByteBudget) (g : GroupId) : ByteBudget :=
  let bb := if (bb.groupAt g).allElem then { bb with waiting := bb.waiting.erase g ++ [g] } else bb
  if (bb.groupAt g).reserveElem then { bb with reserveReady := bb.reserveReady.erase g ++ [g] }
  else bb

/-- The room outside the reserve. -/
def baseRoom (bb : ByteBudget) : Nat :=
  if bb.total = 0 then maxWord
  else if sub64 bb.used bb.escape < bb.total - bb.reserve then
    bb.total - bb.reserve - sub64 bb.used bb.escape
  else 0

/-- What the head `w` of group `g` gets in this turn. -/
def creditFor (bb : ByteBudget) (base : Nat) (g : GroupId) (w : WaiterId) : Nat :=
  let room :=
    if bb.total = 0 then maxWord
    else if bb.eligible g then bb.total - sub64 bb.used bb.escape
    else base
  min (min (sub64 (bb.waiterAt w).n (bb.waiterAt w).credit) budgetQuantum) room

/-- One round of the loop of `scheduleLocked`; `false` is a return. -/
def scheduleRound (bb : ByteBudget) : ByteBudget × Bool :=
  if bb.waiting = [] then (bb, false)
  else if bb.total ≠ 0 ∧ bb.total ≤ sub64 bb.used bb.escape then (bb, false)
  else
    let base := bb.baseRoom
    let (bb, picked) := bb.pickGroup base
    match picked with
    | none => (bb, false)
    | some g =>
      let w := (bb.groupAt g).waiters.headD 0
      let credit := bb.creditFor base g w
      -- a round that hands out nothing would not end
      if credit = 0 then (bb, false)
      else (((bb.giveCredit g w credit).refreshLocked g).rotate g, true)

def scheduleLoop : Nat → ByteBudget → ByteBudget
  | 0, bb => bb
  | fuel + 1, bb =>
    match bb.scheduleRound with
    | (bb, false) => bb
    | (bb, true) => scheduleLoop fuel bb

/-- The bytes the queued waiters still lack: every round that goes on hands out at
least one of them. -/
def backlog (bb : ByteBudget) : Nat :=
  (bb.waiting.map fun g =>
    ((bb.groupAt g).waiters.map fun w => (bb.waiterAt w).n - (bb.waiterAt w).credit).sum).sum

def scheduleLocked (bb : ByteBudget) : ByteBudget := scheduleLoop (bb.backlog + 1) bb

/-! ## Waiters -/

/-- Take a queued waiter out of its group's queue. -/
def unqueue (bb : ByteBudget) (w : WaiterId) : ByteBudget :=
  if (bb.waiterAt w).elem then
    (bb.setGroup (bb.waiterAt w).group fun x => { x with waiters := x.waiters.erase w }).setWaiter w
      fun x => { x with elem := false }
  else bb

/-- Return the credit a waiter holds. -/
def refund (bb : ByteBudget) (w : WaiterId) : ByteBudget :=
  if (bb.waiterAt w).credit ≠ 0 then
    (bb.releaseLocked (bb.waiterAt w).credit 0 (bb.waiterAt w).group).setWaiter w
      fun x => { x with credit := 0 }
  else bb

/-- One waiter less is pending in the group, and holds it registered. -/
def settle (bb : ByteBudget) (g : GroupId) : ByteBudget :=
  let bb := bb.setGroup g fun x => { x with pending := sub64 x.pending 1 }
  (bb.activateLocked g).unregisterLocked g

def removeWaiterLocked (bb : ByteBudget) (w : WaiterId) : ByteBudget :=
  let g := (bb.waiterAt w).group
  (((bb.unqueue w).refund w).settle g).refreshLocked g

/-- The four results of `reserveFor`. -/
structure Reservation where
  ok : Bool
  overshot : Bool
  used : Nat
  waiter : Option WaiterId
deriving DecidableEq, Repr

/-- `reserveFor` of an ungrouped budget: broadcast on release, no queue. -/
def reserveLegacy (bb : ByteBudget) (n : Nat) (force : Bool) (w : Option WaiterId) :
    ByteBudget × Reservation :=
  -- escapes are not set apart here: the test is on `used` alone
  let fits := decide (bb.total = 0 ∨ (n ≤ bb.total ∧ bb.used ≤ bb.total - n))
  if fits || force then
    let bb := bb.setCounters (add64 bb.used n) bb.escape
    (bb, ⟨true, !fits, bb.used, none⟩)
  else
    -- one channel for all, made by the first caller that has to wait
    let (bb, c) := match bb.legacyWake with
      | some c => (bb, c)
      | none => ({ bb.makeChan with legacyWake := some bb.nextChan }, bb.nextChan)
    let (bb, w) := match w with
      | some w => (bb, w)
      | none => ({ (bb.setWaiter bb.nextWaiter fun _ => {}) with nextWaiter := bb.nextWaiter + 1 },
          bb.nextWaiter)
    (bb.setWaiter w fun x => { x with wake := some c }, ⟨false, false, bb.used, some w⟩)

/-- Append a new waiter for `n` bytes to the queue of `g`. -/
def enqueue (bb : ByteBudget) (n : Nat) (g : GroupId) : ByteBudget :=
  let w := bb.nextWaiter
  let bb := { (bb.makeChan.setWaiter w fun _ =>
    { n := n, group := g, wake := some bb.nextChan, elem := true }) with nextWaiter := w + 1 }
  bb.setGroup g fun x =>
    { x with waiters := x.waiters ++ [w], pending := add64 x.pending 1, refs := add64 x.refs 1 }

/-- Charge the caller; credits returned by a waiter it gave up are scheduled again. -/
def admitted (bb : ByteBudget) (n : Nat) (g : GroupId) (escaped removed : Bool) : ByteBudget :=
  let bb := bb.charge n g escaped
  let bb := if (bb.groupAt g).waiters = [] then bb else bb.refreshLocked g
  if removed then bb.scheduleLocked else bb

/-- The admission test of `reserveFor` once no waiter of the caller is queued. -/
def admitOrQueue (bb : ByteBudget) (n : Nat) (force : Bool) (g : GroupId) (removed : Bool) :
    ByteBudget × Reservation :=
  let fits := bb.fits n g
  let alone := decide ((bb.groupAt g).waiters = [])
  if (fits && alone) || force then
    -- a forced caller that passes queued waiters of its group escapes even if it fits
    let escaped := !fits || !alone
    let bb := bb.admitted n g escaped removed
    (bb, ⟨true, !fits || escaped, bb.used, none⟩)
  else
    -- the new waiter may get credits at once; its caller still has to come back
    let w := bb.nextWaiter
    let bb := (((bb.enqueue n g).activateLocked g).refreshLocked g).scheduleLocked
    (bb, ⟨false, false, bb.used, some w⟩)

def reserveFor (bb : ByteBudget) (n : Nat) (force : Bool) (g : Option GroupId)
    (w : Option WaiterId) : ByteBudget × Reservation :=
  if !bb.fair then bb.reserveLegacy n force w
  else
    let g := group g
    match w with
    | none => bb.admitOrQueue n force g false
    | some w =>
      if (bb.waiterAt w).granted then
        -- its bytes were charged as credits
        let bb := bb.settle g
        (bb, ⟨true, false, bb.used, none⟩)
      else if force then (bb.removeWaiterLocked w).admitOrQueue n force g true
      -- a spurious wake: the waiter keeps its place in the queue
      else (bb, ⟨false, false, bb.used, some w⟩)

/-- `cancel` on a non-nil budget. -/
def cancel (bb : ByteBudget) (w : Option WaiterId) : ByteBudget :=
  match w with
  | none => bb
  | some w => if !bb.fair then bb else (bb.removeWaiterLocked w).scheduleLocked

def wakeLegacy (bb : ByteBudget) : ByteBudget :=
  match bb.legacyWake with
  | some c => { bb.closeChan c with legacyWake := none }
  | none => bb

/-- `releaseFor` on a non-nil budget. -/
def releaseFor (bb : ByteBudget) (n escape : Nat) (g : Option GroupId) : ByteBudget :=
  -- a release of no bytes does not release an escape either
  if n = 0 then bb
  else
    let g := group g
    let bb := bb.releaseLocked n escape g
    if !bb.fair then bb.wakeLegacy
    else
      let bb := if (bb.groupAt g).waiters = [] then bb else bb.refreshLocked g
      bb.scheduleLocked

end ByteBudget

end UspClient
