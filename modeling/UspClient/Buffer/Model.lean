import UspClient.Budget.Model

/-!
# The acknowledgement buffer (ack_buffer.go, receipt.go)

Every function here is the body of a method between `b.Lock` and `b.Unlock`; a call
into the shared budget made under that lock is part of the step, so the budget is
passed in and returned. A nil `SharedBudget` is `shared = false`, and the nil-safe
methods of the budget then do nothing.

Tracked admissions are cells of an arena (`entryAt`, `nextEntry`), their pointers are
indices; receipt cells and the channels `wake` are kept the same way. An event is its
boolean. Callbacks (`OnAck`, `OnBackPressure`) and the capacity of the slice `sizes`
are left out. Sequence numbers wrap; indices stay below the length of a slice and do
not. Reading or writing outside a slice would panic in the source: `List.set` and
`getD` do nothing there.
-/

namespace UspClient

open Function Word64

abbrev EntryId := Nat
abbrev ReceiptId := Nat

def pressureStepDivisor : Nat := 16

def initialCapacity : Nat := 1

def releasedRetiredMemory : Nat := 64

structure AckBufferOptions where
  maxBytes : Nat := 0
  sharedBudget : Bool := false
  budgetGroup : String := ""

inductive ReceiptFrameState where
  | invalid
  | retained
  | acknowledged
  | closedUnconfirmed
  | retired
deriving DecidableEq, Repr

structure TrackedAdmission where
  seq : Nat := 0
  state : ReceiptId := 0
  next : Option EntryId := none
  max : Nat := 0
  sends : Nat := 0
deriving DecidableEq, Repr

structure ReleasedRetiredRing where
  seqs : List Nat := List.replicate releasedRetiredMemory 0
  n : Nat := 0
  next : Nat := 0
deriving DecidableEq, Repr

namespace ReleasedRetiredRing

def add (r : ReleasedRetiredRing) (seq : Nat) : ReleasedRetiredRing :=
  { seqs := r.seqs.set r.next seq
    n := if r.n < releasedRetiredMemory then r.n + 1 else r.n
    next := (r.next + 1) % releasedRetiredMemory }

def has (r : ReleasedRetiredRing) (seq : Nat) : Bool := (r.seqs.take r.n).contains seq

end ReleasedRetiredRing

structure AckBuffer where
  receiptHead : Option EntryId := none
  receiptTail : Option EntryId := none
  deliverCursor : Option EntryId := none
  entryAt : Nat → TrackedAdmission := fun _ => {}
  nextEntry : Nat := 0
  receiptAt : ReceiptId → ReceiptFrameState := fun _ => .invalid
  retired : Finset Nat := ∅
  releasedRetired : Option ReleasedRetiredRing := none
  isClosed : Bool := false
  isRunning : Bool := true
  isAvailable : Bool := true
  buff : List (Option DataMessage) := List.replicate initialCapacity none
  nextIndexFree : Nat := 0
  firstSeqNum : Nat := 1
  nextSeqNum : Nat := 1
  ackEvery : Nat := initialCapacity
  nextIndexToDeliver : Nat := 0
  isReadyToDeliver : Bool := false
  isEmpty : Bool := true
  currentCapacity : Nat := initialCapacity
  accounting : Bool := false
  maxBytes : Nat := 0
  shared : Bool := false
  group : Option GroupId := none
  registered : Bool := false
  escapeSeq : Nat := 0
  escapeBytes : Nat := 0
  sizes : List Nat := []
  bytes : Nat := 0
  lastFlaggedSeq : Nat := 0
  bytesSinceFlag : Nat := 0
  wake : Option ChanId := none
  wakeClosed : ChanId → Bool := fun _ => false
  nextWake : Nat := 0

def newAckBuffer (o : AckBufferOptions) (bb : ByteBudget) :
    ByteBudget × Except ByteBudget.RegisterError AckBuffer :=
  -- `register` on a nil budget answers a nil group
  let (bb, group) := if o.sharedBudget then bb.register o.budgetGroup else (bb, .ok none)
  match group with
  | .error err => (bb, .error err)
  | .ok group =>
    (bb, .ok
      { maxBytes := o.maxBytes
        shared := o.sharedBudget
        group := group
        registered := group.isSome
        accounting := decide (o.maxBytes ≠ 0) || o.sharedBudget })

namespace AckBuffer

/-! ## The shared budget behind a pointer that may be nil -/

def releaseShared (b : AckBuffer) (bb : ByteBudget) (n escape : Nat) : ByteBudget :=
  if b.shared then bb.releaseFor n escape b.group else bb

def cancelShared (b : AckBuffer) (bb : ByteBudget) (waiter : Option WaiterId) : ByteBudget :=
  if b.shared then bb.cancel waiter else bb

/-! ## Waking and closing -/

def signalLocked (b : AckBuffer) : AckBuffer :=
  { b with
    wakeClosed := match b.wake with
      | some c => update b.wakeClosed c true
      | none => b.wakeClosed
    wake := none }

/-- The wake channel, made by the first caller that has to block. -/
def sampleWake (b : AckBuffer) : AckBuffer × ChanId :=
  let c := b.wake.getD b.nextWake
  ({ b with
      wake := some c
      nextWake := if b.wake = none then b.nextWake + 1 else b.nextWake }, c)

def releaseAllLocked (b : AckBuffer) (bb : ByteBudget) : AckBuffer × ByteBudget :=
  ({ b with escapeBytes := if b.bytes ≠ 0 then 0 else b.escapeBytes, bytes := 0 },
    if b.bytes ≠ 0 then b.releaseShared bb b.bytes b.escapeBytes else bb)

/-- The end of `Close`: leave the group. -/
def leaveGroup (b : AckBuffer) (bb : ByteBudget) : AckBuffer × ByteBudget :=
  ({ b with registered := false }, if b.registered then bb.unregister b.group else bb)

def close (b : AckBuffer) (bb : ByteBudget) : AckBuffer × ByteBudget :=
  -- the slots stay; only their charges go back
  let b := { b with isRunning := false, isClosed := true }
  let (b, bb) := b.releaseAllLocked bb
  let (b, bb) := b.leaveGroup bb
  (b.signalLocked, bb)

/-- `Client.BeginDrain`, and the start of `drain`: seal admission. -/
def beginDrain (b : AckBuffer) : AckBuffer := signalLocked { b with isRunning := false }

/-! ## Admission -/

/-- The size `addWithReceipt` computes before it takes the lock. -/
def addSize (b : AckBuffer) (e : DataMessage) : Nat :=
  if b.accounting then estimateMessageSize e else 0

def heldFlagged (b : AckBuffer) : Bool :=
  decide (b.lastFlaggedSeq ≠ 0 ∧ b.lastFlaggedSeq ≥ b.firstSeqNum)

/-- What the byte limits say: the waiter to come back with, or room, with what the
admission takes from them. -/
inductive ByteVerdict where
  | refused (waiter : Option WaiterId)
  | room (forced overshot : Bool) (pressureStep : Nat)

/-- The step of the shared limit, when it is the smaller one. -/
def sharedStep (total used pressureStep : Nat) : Nat :=
  if total ≠ 0 ∧ add64 used used ≥ total then
    let step := total / pressureStepDivisor
    if pressureStep = 0 ∨ step < pressureStep then step else pressureStep
  else pressureStep

/-- The byte limits of `tryAddWithReceiptLocked`. -/
def checkBytes (b : AckBuffer) (bb : ByteBudget) (size : Nat) (waiter : Option WaiterId) :
    ByteBudget × ByteVerdict :=
  if !b.accounting then (bb, .room false false 0)
  else
    let exceeds := decide (b.maxBytes ≠ 0 ∧ add64 b.bytes size > b.maxBytes)
    -- the local limit gives up the place in the shared queue
    if exceeds && b.heldFlagged then (b.cancelShared bb waiter, .refused none)
    else
      let pressureStep :=
        if b.maxBytes ≠ 0 ∧ add64 (add64 b.bytes size) (add64 b.bytes size) ≥ b.maxBytes then
          b.maxBytes / pressureStepDivisor
        else 0
      if !b.shared then (bb, .room exceeds false pressureStep)
      else
        -- without a pending request the reservation is forced
        let (bb, r) := bb.reserveFor size (!b.heldFlagged) b.group waiter
        if !r.ok then (bb, .refused r.waiter)
        else (bb, .room (exceeds || r.overshot) r.overshot (sharedStep bb.total r.used pressureStep))

/-- The message with the sequence number and the acknowledgement request that
admission gives it. -/
def stamp (b : AckBuffer) (e : DataMessage) (size : Nat) (forced : Bool) (pressureStep : Nat) :
    DataMessage :=
  { e with
    seqNum := b.nextSeqNum
    ackRequested := e.ackRequested || decide (b.nextSeqNum % b.ackEvery = 0) || forced ||
      decide (pressureStep ≠ 0 ∧ add64 b.bytesSinceFlag size ≥ pressureStep) }

/-- Remember the one escape the buffer holds. -/
def noteEscape (b : AckBuffer) (size : Nat) (overshot : Bool) : AckBuffer :=
  -- a budget without groups does not count escapes
  let noted := overshot && b.group.isSome
  { b with
    escapeSeq := if noted then b.nextSeqNum else b.escapeSeq
    escapeBytes := if noted then size else b.escapeBytes }

def noteFlag (b : AckBuffer) (e : DataMessage) (size : Nat) : AckBuffer :=
  { b with
    lastFlaggedSeq := if e.ackRequested then e.seqNum else b.lastFlaggedSeq
    bytesSinceFlag :=
      if e.ackRequested then 0
      else if b.accounting then add64 b.bytesSinceFlag size
      else b.bytesSinceFlag }

/-- Append an entry to the list of tracked admissions. -/
def track (b : AckBuffer) (seq : Nat) (receipt : Option ReceiptId) (maxTransmissions : Nat) :
    AckBuffer :=
  match receipt with
  | none => b
  | some r =>
    let entry := b.nextEntry
    let entryAt := update b.entryAt entry
      { seq := seq, state := r, max := maxTransmissions }
    let (receiptHead, entryAt) := match b.receiptTail with
      | none => (some entry, entryAt)
      | some t => (b.receiptHead,
          update entryAt t { entryAt t with next := some entry })
    { b with
      entryAt := entryAt
      nextEntry := entry + 1
      receiptHead := receiptHead
      receiptTail := some entry
      -- the new slot is the cursor if no earlier entry awaits delivery
      deliverCursor := b.deliverCursor.or (some entry)
      receiptAt := update b.receiptAt r .retained }

def place (b : AckBuffer) (e : DataMessage) : AckBuffer :=
  { b with
    nextSeqNum := add64 b.nextSeqNum 1
    buff := b.buff.set b.nextIndexFree (some e)
    nextIndexFree := b.nextIndexFree + 1
    isAvailable := if b.nextIndexFree + 1 ≥ b.currentCapacity then false else b.isAvailable
    isReadyToDeliver := true
    isEmpty := false }

def chargeLocal (b : AckBuffer) (size : Nat) : AckBuffer :=
  { b with
    sizes := if b.accounting then b.sizes ++ [size] else b.sizes
    bytes := if b.accounting then add64 b.bytes size else b.bytes }

/-- The part of `tryAddWithReceiptLocked` after the limits. -/
def admitLocked (b : AckBuffer) (e : DataMessage) (size : Nat) (overshot : Bool)
    (receipt : Option ReceiptId) (maxTransmissions : Nat) : AckBuffer :=
  let b := b.noteEscape size overshot
  let b := b.noteFlag e size
  let b := b.track e.seqNum receipt maxTransmissions
  (b.place e).chargeLocal size

/-- What `tryAddWithReceiptLocked` did. `stored` is the message as it was admitted and
`overshot` says that the shared budget charged it as an escape; both are history. -/
structure TryAdd where
  buf : AckBuffer
  bb : ByteBudget
  waiter : Option WaiterId
  stored : Option DataMessage
  overshot : Bool

/-- The first result of `tryAddWithReceiptLocked`. -/
def TryAdd.ok (r : TryAdd) : Bool := r.stored.isSome

def tryAddWithReceiptLocked (b : AckBuffer) (bb : ByteBudget) (e : DataMessage) (size : Nat)
    (waiter : Option WaiterId) (receipt : Option ReceiptId) (maxTransmissions : Nat) : TryAdd :=
  -- the window of messages comes before the bytes
  if !b.isAvailable then ⟨b, b.cancelShared bb waiter, none, none, false⟩
  else
    match b.checkBytes bb size waiter with
    | (bb, .refused waiter) => ⟨b, bb, waiter, none, false⟩
    | (bb, .room forced overshot pressureStep) =>
      let e := b.stamp e size forced pressureStep
      ⟨b.admitLocked e size overshot receipt maxTransmissions, bb, none, some e, overshot⟩

/-! ## Receipts -/

/-- The loop of `dropReceiptsLocked`: detach entries from the head. The flag says that
the cursor was among them. -/
def dropLoop (first index : Nat) (acknowledge : Bool) : Nat → AckBuffer → Bool → AckBuffer × Bool
  | 0, b, cursorRemoved => (b, cursorRemoved)
  | fuel + 1, b, cursorRemoved =>
    match b.receiptHead with
    | none => (b, cursorRemoved)
    | some entry =>
      let t := b.entryAt entry
      -- the distance to the first number, so that the comparison survives a wrap
      if sub64 t.seq first ≤ index then
        let removed := cursorRemoved || decide (b.deliverCursor = some entry)
        let b :=
          { b with
            receiptHead := t.next
            entryAt := update b.entryAt entry { t with next := none }
            -- a retired receipt stays retired
            receiptAt :=
              if acknowledge && decide (b.receiptAt t.state = .retained) then
                update b.receiptAt t.state .acknowledged
              else b.receiptAt }
        dropLoop first index acknowledge fuel b removed
      else (b, cursorRemoved)

/-- The list is never longer than the number of entries made. -/
def dropReceiptsLocked (b : AckBuffer) (first index : Nat) (acknowledge : Bool) : AckBuffer :=
  let (b, cursorRemoved) := dropLoop first index acknowledge b.nextEntry b false
  let b := if b.receiptHead = none then { b with receiptTail := none } else b
  if cursorRemoved then { b with deliverCursor := b.receiptHead } else b

def ackReceiptsLocked (b : AckBuffer) (first index : Nat) : AckBuffer :=
  b.dropReceiptsLocked first index true

def releaseReceiptTracking (b : AckBuffer) : AckBuffer :=
  { b with receiptHead := none, receiptTail := none, deliverCursor := none }

/-! ## Removing slots -/

/-- `make([]*DataMessage, n)` and a copy of the first `k` slots. -/
def resized (buff : List (Option DataMessage)) (k n : Nat) : List (Option DataMessage) :=
  (buff.take k).take n ++ List.replicate (n - (buff.take k).length) none

/-- `shrinkBackingLocked` on the slots: reclaim a former window. -/
def shrinkBacking (buff : List (Option DataMessage)) (capacity free : Nat) :
    List (Option DataMessage) :=
  let target := max (max capacity free) initialCapacity
  if buff.length > target then resized buff free target else buff

/-- The byte charges of a removed prefix, if bytes are accounted for. -/
def releasePrefix (b : AckBuffer) (bb : ByteBudget) (escapeIndex indexAcked : Nat) :
    AckBuffer × ByteBudget :=
  -- after `Close` the bytes were returned already
  let freed := min (sum64 (b.sizes.take (indexAcked + 1))) b.bytes
  let gone := decide (b.escapeBytes ≠ 0 ∧ escapeIndex ≤ indexAcked)
  ({ b with
      sizes := if b.accounting then b.sizes.drop (indexAcked + 1) else b.sizes
      bytes := if b.accounting then b.bytes - freed else b.bytes
      escapeBytes := if b.accounting && gone then 0 else b.escapeBytes },
    if b.accounting then b.releaseShared bb freed (if gone then b.escapeBytes else 0) else bb)

/-- `copy(buff, buff[k:free])`, then `clear(buff[free-k:free])`. -/
def shifted (buff : List (Option DataMessage)) (k free : Nat) : List (Option DataMessage) :=
  (buff.take free).drop k ++ List.replicate k none ++ buff.drop free

/-- Move the remaining slots to the front. -/
def shiftSlots (b : AckBuffer) (indexAcked : Nat) : AckBuffer :=
  let buff := shifted b.buff (indexAcked + 1) b.nextIndexFree
  let free := b.nextIndexFree - indexAcked - 1
  signalLocked
    { b with
      -- a window that was reduced keeps its slots until they fit
      buff := if free ≤ b.currentCapacity then shrinkBacking buff b.currentCapacity free else buff
      nextIndexFree := free
      isAvailable := decide (free < b.currentCapacity) }

/-- The delivery index and the events after a prefix was removed. -/
def shiftDelivery (b : AckBuffer) (indexAcked : Nat) : AckBuffer :=
  let next :=
    if b.nextIndexToDeliver > indexAcked + 1 then b.nextIndexToDeliver - (indexAcked + 1) else 0
  { b with
    nextIndexToDeliver := next
    isReadyToDeliver := if next ≥ b.nextIndexFree then false else b.isReadyToDeliver
    isEmpty := if next ≥ b.nextIndexFree then true else b.isEmpty }

def removePrefixLocked (b : AckBuffer) (bb : ByteBudget) (indexAcked : Nat) :
    AckBuffer × ByteBudget :=
  let oldFirst := b.firstSeqNum
  let escapeIndex := sub64 b.escapeSeq oldFirst
  let b := { b with firstSeqNum := add64 oldFirst (indexAcked + 1) }
  let (b, bb) := b.releasePrefix bb escapeIndex indexAcked
  let b := (b.shiftSlots indexAcked).shiftDelivery indexAcked
  ({ b with retired := b.retired.filter fun seq => ¬ sub64 seq oldFirst ≤ indexAcked }, bb)

/-! ## Retirement -/

/-- The byte charge of a retired slot. -/
def releaseSlot (b : AckBuffer) (bb : ByteBudget) (index seq : Nat) : AckBuffer × ByteBudget :=
  let charged := b.accounting && decide (index < b.sizes.length)
  let size := min (b.sizes.getD index 0) b.bytes
  let gone := decide (b.escapeBytes ≠ 0 ∧ b.escapeSeq = seq)
  ({ b with
      sizes := if charged then b.sizes.set index 0 else b.sizes
      bytes := if charged then b.bytes - size else b.bytes
      escapeBytes := if charged && gone then 0 else b.escapeBytes },
    if charged then b.releaseShared bb size (if gone then b.escapeBytes else 0) else bb)

def retireLocked (b : AckBuffer) (bb : ByteBudget) (index : Nat) (entry : EntryId) :
    AckBuffer × ByteBudget :=
  let seq := (b.entryAt entry).seq
  -- the placeholder keeps the sequence number: slot indices never compact
  let b :=
    { b with
      receiptAt := update b.receiptAt (b.entryAt entry).state .retired
      buff := b.buff.set index (some { seqNum := seq })
      retired := insert seq b.retired }
  let (b, bb) := b.releaseSlot bb index seq
  -- a retired frame is not acknowledged, so it is no pending request
  (signalLocked { b with lastFlaggedSeq := if b.lastFlaggedSeq = seq then 0 else b.lastFlaggedSeq },
    bb)

/-- The slot at an index is a retired placeholder. -/
def slotRetired (b : AckBuffer) (index : Nat) : Bool :=
  decide (add64 b.firstSeqNum index ∈ b.retired)

/-- How many retired slots the buffer starts with. -/
def retiredRun (b : AckBuffer) : Nat :=
  ((List.range b.nextIndexFree).takeWhile b.slotRetired).length

/-- Remember the sequence numbers of the first `n` slots. -/
def remember (b : AckBuffer) (n : Nat) : AckBuffer :=
  { b with
    releasedRetired := some ((List.range n).foldl (fun r i => r.add (add64 b.firstSeqNum i))
      (b.releasedRetired.getD {})) }

def releaseRetiredHeadLocked (b : AckBuffer) (bb : ByteBudget) : AckBuffer × ByteBudget :=
  if b.retired = ∅ then (b, bb)
  else
    let n := b.retiredRun
    if n = 0 then (b, bb)
    else
      let oldFirst := b.firstSeqNum
      let (b, bb) := (b.remember n).removePrefixLocked bb (n - 1)
      -- local removal: the receipts are dropped, not acknowledged
      (b.dropReceiptsLocked oldFirst (n - 1) false, bb)

/-! ## Acknowledgement -/

/-- A late acknowledgement of a frame that was retired and released locally. -/
def ackReleased (b : AckBuffer) (seq : Nat) : Bool :=
  match b.releasedRetired with
  | none => false
  | some r => decide (sub64 seq b.firstSeqNum ≥ b.nextIndexFree) && r.has seq

def ackRemove (b : AckBuffer) (bb : ByteBudget) (indexAcked : Nat) : AckBuffer × ByteBudget :=
  let oldFirst := b.firstSeqNum
  let (b, bb) := b.removePrefixLocked bb indexAcked
  (b.ackReceiptsLocked oldFirst indexAcked).releaseRetiredHeadLocked bb

/-- The error of `Ack`, if it returns one. -/
def ackError (b : AckBuffer) (seq : Nat) : Option String :=
  let indexAcked := sub64 seq b.firstSeqNum
  if seq < b.firstSeqNum ∧ sub64 b.buff.length (maxWord - b.firstSeqNum) ≤ seq then
    some s!"unexpected acked sequence number: {seq}"
  else if seq ≥ b.nextSeqNum ∧ seq ≠ maxWord ∧ b.nextSeqNum ≠ 0 then
    some s!"unexpected acked sequence number: {seq}"
  else if indexAcked ≥ b.buff.length ∨ indexAcked ≥ b.nextIndexFree then
    some s!"acked message (seq: {seq}) is not in buffer"
  -- after a reset the first frame may be acknowledged before it is sent again
  else if indexAcked ≥ b.nextIndexToDeliver ∧
      ¬ (b.nextIndexToDeliver = 0 ∧ indexAcked = 0) then
    let nextSeq := match b.buff.getD b.nextIndexToDeliver none with
      | some m => m.seqNum
      | none => 0
    let nextIndex := b.nextIndexToDeliver
    some (s!"acked message (seq: {seq}, index: {indexAcked}) has not yet been delivered " ++
      s!"(next_seq: {nextSeq}, next_index: {nextIndex})")
  else none

/-- `Ack`; `none` is a nil error. -/
def ack (b : AckBuffer) (bb : ByteBudget) (seq : Nat) : AckBuffer × ByteBudget × Option String :=
  if b.ackReleased seq then (b, bb, none)
  else
    match b.ackError seq with
    | some err => (b, bb, some err)
    | none =>
      let (b, bb) := b.ackRemove bb (sub64 seq b.firstSeqNum)
      (b, bb, none)

/-! ## Delivery -/

def getUnAcked (b : AckBuffer) : List (Option DataMessage) :=
  if b.retired = ∅ then b.buff.take b.nextIndexFree
  else ((List.range b.nextIndexFree).filter fun i => !b.slotRetired i).map fun i => b.buff.getD i none

def onlyRetiredAfterLocked (b : AckBuffer) (index : Nat) : Bool :=
  if b.retired = ∅ then decide (index + 1 = b.nextIndexFree)
  else (List.range' (index + 1) (b.nextIndexFree - (index + 1))).all b.slotRetired

/-- What `GetNextToDeliver` returned. `fenced` is history: the pre-send fence retired a
frame in this call. -/
structure Handoff where
  frame : Option DataMessage
  fenced : Bool

/-- Nothing is left to deliver. -/
def deliveredAll (b : AckBuffer) : AckBuffer := { b with isReadyToDeliver := false, isEmpty := true }

/-- Take the cursor's entry if it belongs to the slot at `index`. -/
def takeCursor (b : AckBuffer) (index : Nat) : AckBuffer × Option EntryId :=
  match b.deliverCursor with
  | none => (b, none)
  | some c =>
    if sub64 (b.entryAt c).seq b.firstSeqNum = index then
      ({ b with deliverCursor := (b.entryAt c).next }, some c)
    else (b, none)

/-- The entry of a frame with a transmission limit. -/
def limited (b : AckBuffer) (entry : Option EntryId) : Option EntryId :=
  entry.filter fun c => decide ((b.entryAt c).max ≠ 0)

/-- Count a handoff of a limited frame. -/
def countSend (b : AckBuffer) (entry : Option EntryId) : AckBuffer :=
  match b.limited entry with
  | none => b
  | some c =>
    { b with
      entryAt := update b.entryAt c { b.entryAt c with sends := (b.entryAt c).sends + 1 } }

/-- The pre-send fence: this would be handoff `max + 1`. -/
def fence (b : AckBuffer) (entry : Option EntryId) : Option EntryId :=
  (b.limited entry).filter fun c => decide ((b.entryAt c).sends ≥ (b.entryAt c).max)

/-- Hand out the slot at `index`, which is the delivery index. -/
def handOut (b : AckBuffer) (index : Nat) : AckBuffer × Option DataMessage :=
  let stored := b.buff.getD index none
  -- while draining, the last frame asks for an acknowledgement, in a copy
  let frame :=
    if !b.isRunning && b.onlyRetiredAfterLocked index then
      stored.map fun n => { n with ackRequested := true }
    else stored
  ({ b with
      nextIndexToDeliver := index + 1
      isReadyToDeliver := if index + 1 ≥ b.nextIndexFree then false else b.isReadyToDeliver
      isEmpty := if index + 1 ≥ b.nextIndexFree then true else b.isEmpty }, frame)

/-- The loop of `GetNextToDeliver`; every round brings the delivery index closer to
the end of the slots, so the fuel is the distance. -/
def deliverLoop : Nat → AckBuffer → ByteBudget → Bool → AckBuffer × ByteBudget × Handoff
  | 0, b, bb, fenced => (b.deliveredAll, bb, ⟨none, fenced⟩)
  | fuel + 1, b, bb, fenced =>
    if b.nextIndexToDeliver < b.nextIndexFree then
      let index := b.nextIndexToDeliver
      let (b, entry) := b.takeCursor index
      if b.slotRetired index then
        deliverLoop fuel { b with nextIndexToDeliver := index + 1 } bb fenced
      else
        match b.fence entry with
        | some c =>
          let (b, bb) := b.retireLocked bb index c
          -- the release may move the delivery index back with the slots
          let (b, bb) := releaseRetiredHeadLocked { b with nextIndexToDeliver := index + 1 } bb
          deliverLoop fuel b bb true
        | none =>
          let (b, frame) := (b.countSend entry).handOut index
          (b, bb, ⟨frame, fenced⟩)
    else (b.deliveredAll, bb, ⟨none, fenced⟩)

/-- `GetNextToDeliver` once its wait for the ready event is over. -/
def getNextToDeliver (b : AckBuffer) (bb : ByteBudget) : AckBuffer × ByteBudget × Handoff :=
  if !b.isReadyToDeliver then (b, bb, ⟨none, false⟩)
  else deliverLoop (b.nextIndexFree - b.nextIndexToDeliver) b bb false

/-- The entry had its last handoff. -/
def exhausted (t : TrackedAdmission) : Bool := decide (t.max ≠ 0 ∧ t.max ≤ t.sends)

/-- The loop of `ResetDelivery` over the tracked entries. -/
def resetLoop : Nat → Option EntryId → AckBuffer → ByteBudget → AckBuffer × ByteBudget
  | 0, _, b, bb => (b, bb)
  | _ + 1, none, b, bb => (b, bb)
  | fuel + 1, some entry, b, bb =>
    let t := b.entryAt entry
    let (b, bb) :=
      -- retirement keeps the links, so the walk goes on from the old entry
      if exhausted t && decide (t.seq ∉ b.retired) then
        b.retireLocked bb (sub64 t.seq b.firstSeqNum) entry
      else (b, bb)
    resetLoop fuel t.next b bb

def resetDelivery (b : AckBuffer) (bb : ByteBudget) : AckBuffer × ByteBudget :=
  let b := { b with nextIndexToDeliver := 0, deliverCursor := b.receiptHead }
  let (b, bb) := resetLoop b.nextEntry b.receiptHead b bb
  let (b, bb) := b.releaseRetiredHeadLocked bb
  ({ b with
      isReadyToDeliver := decide (b.nextIndexToDeliver < b.nextIndexFree)
      isEmpty := decide (b.nextIndexToDeliver ≥ b.nextIndexFree) }, bb)

/-! ## Capacity -/

/-- `float64(n)`: the nearest number with 53 significant bits, ties to even. -/
def float64 (n : Nat) : Nat :=
  if n < 2 ^ 53 then n
  else
    let ulp := 2 ^ (Nat.log2 n - 52)
    let q := n / ulp
    let r := n % ulp
    if 2 * r > ulp ∨ (2 * r = ulp ∧ q % 2 = 1) then (q + 1) * ulp else q * ulp

/-- `uint64(float64(capacity) * ackPercentOfCapacity)`, at least 1; the factor is one
half. -/
def ackInterval (capacity : Nat) : Nat := max (float64 capacity / 2) 1

/-- A larger window needs a larger slice. -/
def growBacking (buff : List (Option DataMessage)) (newCapacity : Nat) :
    List (Option DataMessage) :=
  if buff.length < newCapacity then resized buff buff.length newCapacity else buff

def updateCapacity (b : AckBuffer) (newCapacity : Nat) : AckBuffer :=
  if newCapacity = b.currentCapacity then b
  else
    signalLocked
      { b with
        buff := shrinkBacking (growBacking b.buff newCapacity) newCapacity b.nextIndexFree
        currentCapacity := newCapacity
        isAvailable := decide (b.nextIndexFree < newCapacity)
        ackEvery := ackInterval newCapacity }

/-! ## Draining -/

/-- The first index from `first` up to `last` whose slot is live. -/
def firstLive (b : AckBuffer) (first last : Nat) : Nat :=
  ((List.range' first (last - first)).find? fun i => !b.slotRetired i).getD last

/-- The last index from `last` down to `first` whose slot is live. -/
def lastLive (b : AckBuffer) (first last : Nat) : Nat :=
  ((List.range' (first + 1) (last - first)).reverse.find? fun i => !b.slotRetired i).getD first

def slotSeq (b : AckBuffer) (index : Nat) : Nat :=
  match b.buff.getD index none with
  | some m => m.seqNum
  | none => 0

def liveSeqBoundsLocked (b : AckBuffer) : Nat × Nat :=
  let last := b.nextIndexFree - 1
  if b.retired = ∅ then (b.slotSeq 0, b.slotSeq last)
  else
    let first := b.firstLive 0 last
    (b.slotSeq first, b.slotSeq (b.lastLive first last))

inductive DrainReason where
  | closed
  | context
deriving DecidableEq, Repr

structure DrainError where
  unacked : Int
  firstSeq : Nat
  lastSeq : Nat
  err : DrainReason
deriving DecidableEq, Repr

/-- What one round of `drain` comes to. -/
inductive DrainRound where
  | empty
  | failed (err : DrainError)
  | parked (wake : ChanId)
deriving DecidableEq, Repr

/-- Why a round gives up, if it does; `ctxDone` is `ctx.Err() != nil`. -/
def drainReason (b : AckBuffer) (ctxDone : Bool) : Option DrainReason :=
  -- `ErrorClosed` replaces the error of the context
  if b.isClosed then some .closed else if ctxDone then some .context else none

/-- One round of the loop of `drain`. -/
def drainRound (b : AckBuffer) (ctxDone : Bool) : AckBuffer × DrainRound :=
  if b.nextIndexFree = 0 then (b, .empty)
  else
    match b.drainReason ctxDone with
    | some err =>
      let (first, last) := b.liveSeqBoundsLocked
      (b, .failed { unacked := b.nextIndexFree - b.retired.card, firstSeq := first,
                    lastSeq := last, err := err })
    | none =>
      let (b, wake) := b.sampleWake
      (b, .parked wake)

/-- One locked section of `drain`; the first one seals admission. -/
def drainSection (b : AckBuffer) (first ctxDone : Bool) : AckBuffer × DrainRound :=
  if first then b.beginDrain.drainRound ctxDone else b.drainRound ctxDone

/-! ## The add loop -/

/-- What one round of `addWithReceipt` comes to. -/
inductive AddRound where
  | closed
  | admitted
  | refused (localWake : ChanId) (poolWake : Option ChanId)
deriving DecidableEq, Repr

/-- One locked round of the loop of `addWithReceipt`. -/
def addRound (b : AckBuffer) (bb : ByteBudget) (e : DataMessage) (size : Nat)
    (waiter : Option WaiterId) (receipt : Option ReceiptId) (maxTransmissions : Nat) :
    TryAdd × AddRound :=
  if !b.isRunning then (⟨b, bb, waiter, none, false⟩, .closed)
  else
    let r := b.tryAddWithReceiptLocked bb e size waiter receipt maxTransmissions
    if r.ok then (r, .admitted)
    else
      let poolWake := r.waiter.bind fun w => (r.bb.waiterAt w).wake
      let (b, localWake) := r.buf.sampleWake
      ({ r with buf := b }, .refused localWake poolWake)

end AckBuffer

end UspClient
