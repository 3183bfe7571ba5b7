import UspClient.Buffer.Exact

/-!
# No slice access of the buffer is out of range

`Represented` is the invariant of the fields of a buffer between two calls. The methods in
`Checked` are those of the buffer with the slice operations of the source: each index, bound
and nil pointer is checked, and a failed check gives `none`. In every state a run reaches
they succeed, and do what the unchecked methods do.
-/

namespace UspClient

open Word64 Replay AckBuffer

/-- The fields of a buffer between two calls. -/
structure AckBuffer.Represented (b : AckBuffer) : Prop where
  word : b.firstSeqNum < 2 ^ 64
  bound : b.buff.length < 2 ^ 64
  next_le : b.nextIndexToDeliver ≤ b.nextIndexFree
  free_le : b.nextIndexFree ≤ b.buff.length
  window : max b.currentCapacity 1 ≤ b.buff.length
  nextSeq : b.nextSeqNum = add64 b.firstSeqNum b.nextIndexFree
  filled : ∀ i < b.nextIndexFree, ∃ m, b.buff[i]? = some (some m)
  nil : ∀ i, b.nextIndexFree ≤ i → i < b.buff.length → b.buff[i]? = some none
  sizes : b.accounting = true → b.sizes.length = b.nextIndexFree
  retired : ∀ seq ∈ b.retired, ∃ i < b.nextIndexFree, seq = add64 b.firstSeqNum i
  head : 0 < b.nextIndexFree → b.slotRetired 0 = false
  available : b.isAvailable = true ↔ b.nextIndexFree < b.currentCapacity
  ready : b.isReadyToDeliver = true ↔ b.nextIndexToDeliver < b.nextIndexFree
  empty : b.isEmpty = true ↔ ¬ b.isReadyToDeliver = true

namespace ReleasedRetiredRing

/-- The cells of the ring in use are cells of its array. -/
structure Fits (r : ReleasedRetiredRing) : Prop where
  length : r.seqs.length = releasedRetiredMemory
  n_le : r.n ≤ releasedRetiredMemory
  next_lt : r.next < releasedRetiredMemory

/-- A ring that remembers something is within its array. -/
theorem Remembers.fits {r : ReleasedRetiredRing} {l : List Nat} (h : r.Remembers l) : r.Fits := by
  refine ⟨h.length, ?_, ?_⟩
  · rw [h.n]
    exact Nat.min_le_right _ _
  · rw [h.next]
    exact Nat.mod_lt _ (by decide)

/-- Adding to the ring stays within it. -/
theorem Fits.add {r : ReleasedRetiredRing} (h : r.Fits) (seq : Nat) : (r.add seq).Fits := by
  have hn := h.n_le
  refine ⟨?_, ?_, Nat.mod_lt _ (by decide)⟩
  · show (r.seqs.set r.next seq).length = _
    rw [List.length_set, h.length]
  · show (if r.n < releasedRetiredMemory then r.n + 1 else r.n) ≤ _
    split_ifs <;> omega

end ReleasedRetiredRing

namespace AckBuffer

/-! ## The methods with their checks -/

namespace Checked

/-- `r.seqs[r.next] = seq`. -/
def ringAdd (r : ReleasedRetiredRing) (seq : Nat) : Option ReleasedRetiredRing := do
  let seqs ← Slice.store r.seqs r.next seq
  return {
    seqs := seqs
    n := if r.n < releasedRetiredMemory then r.n + 1 else r.n
    next := (r.next + 1) % releasedRetiredMemory }

/-- The loop over `r.seqs[:r.n]`. -/
def ringHas (r : ReleasedRetiredRing) (seq : Nat) : Option Bool :=
  (List.range r.n).anyM fun i => (Slice.index r.seqs i).map (· == seq)

/-- The slots in a slice of length `target`, if the old one is longer. -/
def shrinkSlots (b : AckBuffer) (target : Nat) : Option (List (Option DataMessage)) :=
  if b.buff.length > target then do
    let kept ← Slice.reslice b.buff 0 b.nextIndexFree
    return Slice.copy (List.replicate target none) kept
  else pure b.buff

/-- The sizes in a slice of capacity `target`. There are sizes only if bytes are accounted
for. -/
def shrinkSizes (b : AckBuffer) (target : Nat) : Option (List Nat) :=
  if b.accounting then do
    let sizes ← Slice.make b.sizes.length target 0
    return Slice.copy sizes b.sizes
  else pure b.sizes

/-- Both slices are copied into shorter ones. -/
def shrinkBackingLocked (b : AckBuffer) : Option AckBuffer := do
  let target := max (max b.currentCapacity b.nextIndexFree) initialCapacity
  let buff ← shrinkSlots b target
  let sizes ← shrinkSizes b target
  return { b with buff := buff, sizes := sizes }

/-- `sizes[:i+1]` is summed up and `sizes[i+1:]` moved to the front. -/
def releasePrefix (b : AckBuffer) (bb : ByteBudget) (escapeIndex indexAcked : Nat) :
    Option (AckBuffer × ByteBudget) :=
  if b.accounting then do
    let head ← Slice.reslice b.sizes 0 (indexAcked + 1)
    let rest ← Slice.reslice b.sizes (indexAcked + 1) b.sizes.length
    let sizes ← Slice.reslice (Slice.copy b.sizes rest) 0 rest.length
    let freed := min (sum64 head) b.bytes
    let gone := decide (b.escapeBytes ≠ 0 ∧ escapeIndex ≤ indexAcked)
    return ({ b with
        sizes := sizes
        bytes := b.bytes - freed
        escapeBytes := if gone then 0 else b.escapeBytes },
      b.releaseShared bb freed (if gone then b.escapeBytes else 0))
  else pure (b, bb)

/-- `copy(buff, buff[k:free])`, then `clear(buff[free-k:free])`. -/
def shifted (buff : List (Option DataMessage)) (k free : Nat) :
    Option (List (Option DataMessage)) := do
  let rest ← Slice.reslice buff k free
  Slice.clear (Slice.copy buff rest) (free - k) free none

/-- Reclaim the backing once the remaining slots fit the window. -/
def reclaim (b : AckBuffer) : Option AckBuffer :=
  if b.nextIndexFree ≤ b.currentCapacity then shrinkBackingLocked b else pure b

/-- The slots move to the front and the backing is reclaimed. -/
def shiftSlots (b : AckBuffer) (indexAcked : Nat) : Option AckBuffer := do
  let buff ← shifted b.buff (indexAcked + 1) b.nextIndexFree
  let free := b.nextIndexFree - indexAcked - 1
  let b ← reclaim { b with buff := buff, nextIndexFree := free }
  return signalLocked { b with isAvailable := decide (free < b.currentCapacity) }

/-- The slots up to `indexAcked` leave, with their bytes. -/
def removePrefixLocked (b : AckBuffer) (bb : ByteBudget) (indexAcked : Nat) :
    Option (AckBuffer × ByteBudget) := do
  let oldFirst := b.firstSeqNum
  let escapeIndex := sub64 b.escapeSeq oldFirst
  let b := { b with firstSeqNum := add64 oldFirst (indexAcked + 1) }
  let (b, bb) ← releasePrefix b bb escapeIndex indexAcked
  let b ← shiftSlots b indexAcked
  let b := b.shiftDelivery indexAcked
  return ({ b with retired := b.retired.filter fun seq => ¬ sub64 seq oldFirst ≤ indexAcked }, bb)

/-- `sizes[index]` is read and cleared; the source tests this index itself. -/
def releaseSlot (b : AckBuffer) (bb : ByteBudget) (index seq : Nat) :
    Option (AckBuffer × ByteBudget) :=
  if b.accounting && decide (index < b.sizes.length) then do
    let size ← Slice.index b.sizes index
    let sizes ← Slice.store b.sizes index 0
    let size := min size b.bytes
    let gone := decide (b.escapeBytes ≠ 0 ∧ b.escapeSeq = seq)
    return ({ b with
        sizes := sizes
        bytes := b.bytes - size
        escapeBytes := if gone then 0 else b.escapeBytes },
      b.releaseShared bb size (if gone then b.escapeBytes else 0))
  else pure (b, bb)

/-- The slot is overwritten by a marker. -/
def retireLocked (b : AckBuffer) (bb : ByteBudget) (index : Nat) (entry : EntryId) :
    Option (AckBuffer × ByteBudget) := do
  let seq := (b.entryAt entry).seq
  let buff ← Slice.store b.buff index (some { seqNum := seq })
  let b :=
    { b with
      receiptAt := Function.update b.receiptAt (b.entryAt entry).state .retired
      buff := buff
      retired := insert seq b.retired }
  let (b, bb) ← releaseSlot b bb index seq
  return (signalLocked
    { b with lastFlaggedSeq := if b.lastFlaggedSeq = seq then 0 else b.lastFlaggedSeq }, bb)

/-- The numbers of the retired slots go into the ring. -/
def remember (b : AckBuffer) (n : Nat) : Option AckBuffer := do
  let ring ← (List.range n).foldlM (fun r i => ringAdd r (add64 b.firstSeqNum i))
    (b.releasedRetired.getD {})
  return { b with releasedRetired := some ring }

def releaseRetiredHeadLocked (b : AckBuffer) (bb : ByteBudget) : Option (AckBuffer × ByteBudget) :=
  if b.retired = ∅ then pure (b, bb)
  else
    let n := b.retiredRun
    if n = 0 then pure (b, bb)
    else do
      let oldFirst := b.firstSeqNum
      let b ← remember b n
      let (b, bb) ← removePrefixLocked b bb (n - 1)
      return (b.dropReceiptsLocked oldFirst (n - 1) false, bb)

/-- The ring is read for numbers outside the window only. -/
def ackReleased (b : AckBuffer) (seq : Nat) : Option Bool :=
  match b.releasedRetired with
  | none => pure false
  | some r =>
    if sub64 seq b.firstSeqNum ≥ b.nextIndexFree then ringHas r seq else pure false

/-- The sequence number of the slot at the delivery index, read for an error message. -/
def nextSeqAt (b : AckBuffer) : Option Nat :=
  if b.nextIndexToDeliver < b.buff.length then
    (Slice.index b.buff b.nextIndexToDeliver).map fun m => (m.map DataMessage.seqNum).getD 0
  else pure 0

/-- Only the message about an undelivered frame reads a slot. -/
def ackError (b : AckBuffer) (seq : Nat) : Option (Option String) :=
  let indexAcked := sub64 seq b.firstSeqNum
  if seq < b.firstSeqNum ∧ sub64 b.buff.length (maxWord - b.firstSeqNum) ≤ seq then
    some s!"unexpected acked sequence number: {seq}"
  else if seq ≥ b.nextSeqNum ∧ seq ≠ maxWord ∧ b.nextSeqNum ≠ 0 then
    some s!"unexpected acked sequence number: {seq}"
  else if indexAcked ≥ b.buff.length ∨ indexAcked ≥ b.nextIndexFree then
    some s!"acked message (seq: {seq}) is not in buffer"
  else if indexAcked ≥ b.nextIndexToDeliver ∧
      ¬ (b.nextIndexToDeliver = 0 ∧ indexAcked = 0) then do
    let nextSeq ← nextSeqAt b
    let nextIndex := b.nextIndexToDeliver
    return some (s!"acked message (seq: {seq}, index: {indexAcked}) has not yet been delivered " ++
      s!"(next_seq: {nextSeq}, next_index: {nextIndex})")
  else some none

def ackRemove (b : AckBuffer) (bb : ByteBudget) (indexAcked : Nat) :
    Option (AckBuffer × ByteBudget) := do
  let oldFirst := b.firstSeqNum
  let (b, bb) ← removePrefixLocked b bb indexAcked
  releaseRetiredHeadLocked (b.ackReceiptsLocked oldFirst indexAcked) bb

def ack (b : AckBuffer) (bb : ByteBudget) (seq : Nat) :
    Option (AckBuffer × ByteBudget × Option String) := do
  if ← ackReleased b seq then return (b, bb, none)
  match ← ackError b seq with
  | some err => return (b, bb, some err)
  | none =>
    let (b, bb) ← ackRemove b bb (sub64 seq b.firstSeqNum)
    return (b, bb, none)

/-- `buff[nextIndexFree] = e`. -/
def place (b : AckBuffer) (e : DataMessage) : Option AckBuffer := do
  let buff ← Slice.store b.buff b.nextIndexFree (some e)
  return { b with
    nextSeqNum := add64 b.nextSeqNum 1
    buff := buff
    nextIndexFree := b.nextIndexFree + 1
    isAvailable := if b.nextIndexFree + 1 ≥ b.currentCapacity then false else b.isAvailable
    isReadyToDeliver := true
    isEmpty := false }

def admitLocked (b : AckBuffer) (e : DataMessage) (size : Nat) (overshot : Bool)
    (receipt : Option ReceiptId) (maxTransmissions : Nat) : Option AckBuffer := do
  let b := b.noteEscape size overshot
  let b := b.noteFlag e size
  let b := b.track e.seqNum receipt maxTransmissions
  let b ← place b e
  return b.chargeLocal size

def tryAddWithReceiptLocked (b : AckBuffer) (bb : ByteBudget) (e : DataMessage) (size : Nat)
    (waiter : Option WaiterId) (receipt : Option ReceiptId) (maxTransmissions : Nat) :
    Option TryAdd :=
  if !b.isAvailable then pure ⟨b, b.cancelShared bb waiter, none, none, false⟩
  else
    match b.checkBytes bb size waiter with
    | (bb, .refused waiter) => pure ⟨b, bb, waiter, none, false⟩
    | (bb, .room forced overshot pressureStep) => do
      let e := b.stamp e size forced pressureStep
      let b ← admitLocked b e size overshot receipt maxTransmissions
      return ⟨b, bb, none, some e, overshot⟩

def addRound (b : AckBuffer) (bb : ByteBudget) (e : DataMessage) (size : Nat)
    (waiter : Option WaiterId) (receipt : Option ReceiptId) (maxTransmissions : Nat) :
    Option (TryAdd × AddRound) :=
  if !b.isRunning then pure (⟨b, bb, waiter, none, false⟩, .closed)
  else do
    let r ← tryAddWithReceiptLocked b bb e size waiter receipt maxTransmissions
    if r.ok then return (r, .admitted)
    else
      let poolWake := r.waiter.bind fun w => (r.bb.waiterAt w).wake
      let (b, localWake) := r.buf.sampleWake
      return ({ r with buf := b }, .refused localWake poolWake)

/-- `make` with a capacity below zero fails, so the marks are counted. -/
def getUnAcked (b : AckBuffer) : Option (List (Option DataMessage)) :=
  if b.retired = ∅ then Slice.reslice b.buff 0 b.nextIndexFree
  else if b.nextIndexFree < b.retired.card then none
  else ((List.range b.nextIndexFree).filter fun i => !b.slotRetired i).mapM (Slice.index b.buff)

/-- The message behind a pointer. -/
def deref (n : Option DataMessage) : Option DataMessage := n

/-- The frame handed out for the slot at `index`. -/
def frameAt (b : AckBuffer) (index : Nat) : Option (Option DataMessage) := do
  let stored ← Slice.index b.buff index
  if !b.isRunning && b.onlyRetiredAfterLocked index then
    let n ← deref stored
    return some { n with ackRequested := true }
  else return stored

/-- The slot at the delivery index is read. -/
def handOut (b : AckBuffer) (index : Nat) : Option (AckBuffer × Option DataMessage) := do
  let frame ← frameAt b index
  return ({ b with
      nextIndexToDeliver := index + 1
      isReadyToDeliver := if index + 1 ≥ b.nextIndexFree then false else b.isReadyToDeliver
      isEmpty := if index + 1 ≥ b.nextIndexFree then true else b.isEmpty }, frame)

def deliverLoop : Nat → AckBuffer → ByteBudget → Bool → Option (AckBuffer × ByteBudget × Handoff)
  | 0, b, bb, fenced => pure (b.deliveredAll, bb, ⟨none, fenced⟩)
  | fuel + 1, b, bb, fenced =>
    if b.nextIndexToDeliver < b.nextIndexFree then
      let index := b.nextIndexToDeliver
      let (b, entry) := b.takeCursor index
      if b.slotRetired index then
        deliverLoop fuel { b with nextIndexToDeliver := index + 1 } bb fenced
      else
        match b.fence entry with
        | some c => do
          let (b, bb) ← retireLocked b bb index c
          let (b, bb) ← releaseRetiredHeadLocked { b with nextIndexToDeliver := index + 1 } bb
          deliverLoop fuel b bb true
        | none => do
          let (b, frame) ← handOut (b.countSend entry) index
          return (b, bb, ⟨frame, fenced⟩)
    else pure (b.deliveredAll, bb, ⟨none, fenced⟩)

def getNextToDeliver (b : AckBuffer) (bb : ByteBudget) : Option (AckBuffer × ByteBudget × Handoff) :=
  if !b.isReadyToDeliver then pure (b, bb, ⟨none, false⟩)
  else deliverLoop (b.nextIndexFree - b.nextIndexToDeliver) b bb false

def resetLoop : Nat → Option EntryId → AckBuffer → ByteBudget → Option (AckBuffer × ByteBudget)
  | 0, _, b, bb => pure (b, bb)
  | _ + 1, none, b, bb => pure (b, bb)
  | fuel + 1, some entry, b, bb =>
    let t := b.entryAt entry
    if exhausted t && decide (t.seq ∉ b.retired) then do
      let (b, bb) ← retireLocked b bb (sub64 t.seq b.firstSeqNum) entry
      resetLoop fuel t.next b bb
    else resetLoop fuel t.next b bb

def resetDelivery (b : AckBuffer) (bb : ByteBudget) : Option (AckBuffer × ByteBudget) := do
  let b := { b with nextIndexToDeliver := 0, deliverCursor := b.receiptHead }
  let (b, bb) ← resetLoop b.nextEntry b.receiptHead b bb
  let (b, bb) ← releaseRetiredHeadLocked b bb
  return ({ b with
      isReadyToDeliver := decide (b.nextIndexToDeliver < b.nextIndexFree)
      isEmpty := decide (b.nextIndexToDeliver ≥ b.nextIndexFree) }, bb)

def updateCapacity (b : AckBuffer) (newCapacity : Nat) : Option AckBuffer :=
  if newCapacity = b.currentCapacity then pure b
  else do
    let b := { b with buff := growBacking b.buff newCapacity, currentCapacity := newCapacity }
    let b ← shrinkBackingLocked b
    return signalLocked
      { b with
        isAvailable := decide (b.nextIndexFree < newCapacity)
        ackEvery := ackInterval newCapacity }

/-- `buff[index].SeqNum`. -/
def slotSeq (b : AckBuffer) (index : Nat) : Option Nat := do
  let stored ← Slice.index b.buff index
  let n ← deref stored
  return n.seqNum

/-- The slots of the first and of the last live frame are read. -/
def liveSeqBoundsLocked (b : AckBuffer) : Option (Nat × Nat) := do
  let last := b.nextIndexFree - 1
  let first := if b.retired = ∅ then 0 else b.firstLive 0 last
  let last := if b.retired = ∅ then last else b.lastLive first last
  let firstSeq ← slotSeq b first
  let lastSeq ← slotSeq b last
  return (firstSeq, lastSeq)

/-- Only a drain that fails reads slots. -/
def drainRound (b : AckBuffer) (ctxDone : Bool) : Option (AckBuffer × DrainRound) :=
  if b.nextIndexFree = 0 then pure (b, .empty)
  else
    match b.drainReason ctxDone with
    | some err => do
      let (first, last) ← liveSeqBoundsLocked b
      return (b, .failed { unacked := b.nextIndexFree - b.retired.card, firstSeq := first,
                           lastSeq := last, err := err })
    | none =>
      let (b, wake) := b.sampleWake
      pure (b, .parked wake)

def drainSection (b : AckBuffer) (first ctxDone : Bool) : Option (AckBuffer × DrainRound) :=
  if first then drainRound b.beginDrain ctxDone else drainRound b ctxDone

/-- A call on the buffer. -/
def call (b : AckBuffer) (bb : ByteBudget) : BufferOp → Option (AckBuffer × ByteBudget)
  | .add e size waiter receipt maxTransmissions => do
    let r ← addRound b bb e size waiter receipt maxTransmissions.toNat
    return (r.1.buf, r.1.bb)
  | .getNextToDeliver => do
    let (b, bb, _) ← getNextToDeliver b bb
    return (b, bb)
  | .ack seq => do
    let (b, bb, _) ← ack b bb seq.toNat
    return (b, bb)
  | .resetDelivery => resetDelivery b bb
  | .updateCapacity newCapacity => do
    let b ← updateCapacity b newCapacity.toNat
    return (b, bb)
  | .beginDrain => pure (b.beginDrain, bb)
  | .drain first ctxDone => do
    let (b, _) ← drainSection b first ctxDone
    return (b, bb)
  | .close => pure (b.close bb)

end Checked

/-! ## Every check passes -/

variable {b b' : AckBuffer} {q : Queue Admission} {f : Frame Admission} {i k n : Nat}

/-- The slots in use, and the slices behind them. It also holds in the middle of a call. -/
structure Backed (b : AckBuffer) : Prop where
  slots : ∃ w : List DataMessage, Padded (w.map some) b.buff ∧ w.length = b.nextIndexFree
  capacity : b.currentCapacity ≤ b.buff.length
  pos : 1 ≤ b.buff.length
  sizes : b.accounting = true → b.sizes.length = b.nextIndexFree

/-- What the slice operations of a call rely on. -/
structure Solid (b : AckBuffer) : Prop extends Backed b where
  ring : (b.releasedRetired.getD {}).Fits

/-- The fields `Backed` speaks about. -/
def backedView (b : AckBuffer) : List (Option DataMessage) × Nat × Nat × Bool × List Nat :=
  (b.buff, b.nextIndexFree, b.currentCapacity, b.accounting, b.sizes)

/-- Other fields do not matter. -/
theorem Backed.congr (h : Backed b) (hv : b'.backedView = b.backedView) : Backed b' := by
  simp only [backedView, Prod.mk.injEq] at hv
  obtain ⟨h₁, h₂, h₃, h₄, h₅⟩ := hv
  constructor
  · rw [h₁, h₂]
    exact h.slots
  · rw [h₁, h₃]
    exact h.capacity
  · rw [h₁]
    exact h.pos
  · rw [h₂, h₄, h₅]
    exact h.sizes

theorem Solid.congr (h : Solid b) (hv : b'.backedView = b.backedView)
    (hr : b'.releasedRetired = b.releasedRetired) : Solid b' := by
  refine ⟨h.toBacked.congr hv, ?_⟩
  rw [hr]
  exact h.ring

/-- There is a slot for every frame. -/
theorem Backed.free_le (h : Backed b) : b.nextIndexFree ≤ b.buff.length := by
  obtain ⟨w, hw, hlen⟩ := h.slots
  have hle := hw.length_le
  rw [List.length_map] at hle
  omega

/-- A slot in use holds a message. -/
theorem Backed.index (h : Backed b) (hi : i < b.nextIndexFree) :
    ∃ m, Slice.index b.buff i = some (some m) ∧ b.buff.getD i none = some m := by
  obtain ⟨w, ⟨r, hw⟩, hlen⟩ := h.slots
  have hget : b.buff[i]? = some (some w[i]) := by
    rw [hw, List.getElem?_append_left (by rw [List.length_map]; omega), List.getElem?_map,
      List.getElem?_eq_getElem (by omega)]
    rfl
  refine ⟨w[i], hget, ?_⟩
  rw [List.getD_eq_getElem?_getD, hget]
  rfl

/-! ### The ring -/

/-- The cursor of the ring is an index of its array. -/
theorem ringAdd_eq {r : ReleasedRetiredRing} (h : r.Fits) (seq : Nat) :
    Checked.ringAdd r seq = some (r.add seq) := by
  unfold Checked.ringAdd
  rw [Slice.store_eq (by rw [h.length]; exact h.next_lt)]
  rfl

theorem foldlM_ringAdd (g : Nat → Nat) (l : List Nat) : ∀ {r : ReleasedRetiredRing}, r.Fits →
    l.foldlM (fun r i => Checked.ringAdd r (g i)) r =
        some (l.foldl (fun r i => r.add (g i)) r) ∧
      (l.foldl (fun r i => r.add (g i)) r).Fits := by
  induction l with
  | nil =>
    intro r h
    exact ⟨rfl, h⟩
  | cons i l ih =>
    intro r h
    rw [List.foldlM_cons, ringAdd_eq h]
    exact ih (h.add (g i))

/-- So are the cells in use. -/
theorem ringHas_eq {r : ReleasedRetiredRing} (h : r.Fits) (seq : Nat) :
    Checked.ringHas r seq = some (r.has seq) := by
  have hle : r.n ≤ r.seqs.length := by
    rw [h.length]
    exact h.n_le
  have hread : ∀ i ∈ List.range r.n, (Slice.index r.seqs i).map (· == seq) =
      some (r.seqs.getD i 0 == seq) := by
    intro i hi
    rw [List.mem_range] at hi
    rw [Slice.index_getD (lt_of_lt_of_le hi hle) 0]
    rfl
  have hany : (List.range r.n).any (fun i => r.seqs.getD i 0 == seq) = r.has seq := by
    unfold ReleasedRetiredRing.has
    rw [Bool.eq_iff_iff, List.any_eq_true, List.contains_iff_mem, List.mem_take_iff_getElem]
    constructor
    · rintro ⟨i, hi, heq⟩
      rw [List.mem_range] at hi
      refine ⟨i, by omega, ?_⟩
      rw [beq_iff_eq, List.getD_eq_getElem?_getD, List.getElem?_eq_getElem (by omega)] at heq
      exact heq
    · rintro ⟨i, hi, heq⟩
      refine ⟨i, List.mem_range.2 (by omega), ?_⟩
      rw [beq_iff_eq, List.getD_eq_getElem?_getD, List.getElem?_eq_getElem (by omega)]
      exact heq
  unfold Checked.ringHas
  rw [Slice.anyM_some _ hread, hany]

theorem Solid.ackReleased (h : Solid b) (seq : Nat) :
    Checked.ackReleased b seq = some (b.ackReleased seq) := by
  unfold Checked.ackReleased AckBuffer.ackReleased
  have hring := h.ring
  cases hr : b.releasedRetired with
  | none => rfl
  | some r =>
    rw [hr, Option.getD_some] at hring
    simp only
    split_ifs with hge
    · rw [ringHas_eq hring, decide_eq_true hge, Bool.true_and]
    · rw [decide_eq_false hge, Bool.false_and]
      rfl

/-! ### Removing slots -/

/-- The frames fit the shorter slices. -/
theorem shrinkBackingLocked_eq (hfree : b.nextIndexFree ≤ b.buff.length)
    (hsizes : b.accounting = true → b.sizes.length ≤ b.nextIndexFree) :
    Checked.shrinkBackingLocked b =
      some { b with buff := shrinkBacking b.buff b.currentCapacity b.nextIndexFree } := by
  obtain ⟨target, ht⟩ : ∃ target, target = max (max b.currentCapacity b.nextIndexFree)
    initialCapacity := ⟨_, rfl⟩
  have hslots : Checked.shrinkSlots b target =
      some (shrinkBacking b.buff b.currentCapacity b.nextIndexFree) := by
    unfold Checked.shrinkSlots shrinkBacking
    simp only [← ht]
    split_ifs with hlt
    · rw [Slice.reslice_head hfree]
      show some (Slice.copy _ (b.buff.take b.nextIndexFree)) = _
      rw [Slice.copy_replicate]
      rfl
    · rfl
  have hmoved : Checked.shrinkSizes b target = some b.sizes := by
    unfold Checked.shrinkSizes
    split_ifs with hacc
    · have hle := hsizes hacc
      rw [Slice.make_eq (by omega)]
      show some (Slice.copy (List.replicate b.sizes.length 0) b.sizes) = _
      rw [Slice.copy_replicate, List.take_length, Nat.sub_self, List.replicate_zero,
        List.append_nil]
    · rfl
  unfold Checked.shrinkBackingLocked
  simp only [← ht, hslots, hmoved]
  rfl

theorem releasePrefix_unmetered (h : b.accounting = false) (bb : ByteBudget) (escapeIndex : Nat) :
    b.releasePrefix bb escapeIndex i = (b, bb) := by
  cases b
  cases h
  rfl

/-- There is a size for every frame. -/
theorem releasePrefix_eq (bb : ByteBudget) (escapeIndex : Nat)
    (hsizes : b.accounting = true → i < b.sizes.length) :
    Checked.releasePrefix b bb escapeIndex i = some (b.releasePrefix bb escapeIndex i) := by
  unfold Checked.releasePrefix
  split_ifs with hacc
  · have hlt := hsizes hacc
    unfold releasePrefix
    rw [Slice.reslice_head hlt, Slice.reslice_tail hlt]
    simp only [Option.bind_eq_bind, Option.bind_some, Slice.reslice_copy_tail, hacc, if_true,
      Bool.true_and]
    rfl
  · rw [releasePrefix_unmetered (Bool.eq_false_iff.2 hacc)]
    rfl

theorem shifted_eq {buff : List (Option DataMessage)} {free : Nat} (hk : k ≤ free)
    (hfree : free ≤ buff.length) :
    Checked.shifted buff k free = some (shifted buff k free) := by
  unfold Checked.shifted
  rw [Slice.reslice_eq hk hfree]
  exact Slice.clear_copy_shift hk hfree

theorem length_shifted {buff : List (Option DataMessage)} {free : Nat} (hk : k ≤ free)
    (hfree : free ≤ buff.length) : (shifted buff k free).length = buff.length := by
  unfold shifted
  rw [List.length_append, List.length_append, List.length_replicate, List.length_drop,
    List.length_take_of_le hfree, List.length_drop]
  omega

/-- The moved slots are within the slice, and so is the cleared end. -/
theorem shiftSlots_eq (hi : i < b.nextIndexFree) (hfree : b.nextIndexFree ≤ b.buff.length)
    (hsizes : b.accounting = true → b.sizes.length = b.nextIndexFree - i - 1) :
    Checked.shiftSlots b i = some (b.shiftSlots i) := by
  unfold Checked.shiftSlots shiftSlots
  rw [shifted_eq hi hfree]
  simp only [Option.bind_eq_bind, Option.bind_some]
  unfold Checked.reclaim
  simp only
  split_ifs with hcap
  · rw [shrinkBackingLocked_eq]
    · rfl
    · have hlen := length_shifted (k := i + 1) hi hfree
      show b.nextIndexFree - i - 1 ≤ (shifted b.buff (i + 1) b.nextIndexFree).length
      omega
    · intro hacc
      exact (hsizes hacc).le
  · rfl

/-- A prefix of the frames can be removed. -/
theorem removePrefixLocked_eq (h : Backed b) (bb : ByteBudget) (hi : i < b.nextIndexFree) :
    Checked.removePrefixLocked b bb i = some (b.removePrefixLocked bb i) := by
  unfold Checked.removePrefixLocked
  simp only
  rw [releasePrefix_eq _ _ fun hacc => by rw [h.sizes hacc]; exact hi]
  simp only [Option.bind_eq_bind, Option.bind_some]
  rw [shiftSlots_eq]
  · rfl
  · exact hi
  · exact h.free_le
  · intro hacc
    have hacc' : b.accounting = true := hacc
    show (if b.accounting then b.sizes.drop (i + 1) else b.sizes).length = b.nextIndexFree - i - 1
    rw [if_pos hacc', List.length_drop, h.sizes hacc', Nat.sub_sub]

/-- Removing slots keeps the slices in order. -/
theorem Backed.removePrefixLocked (h : Backed b) (bb : ByteBudget) (hi : i < b.nextIndexFree) :
    Backed (b.removePrefixLocked bb i).1 := by
  rcases h.slots with ⟨w, hw, hlen⟩
  rcases hw.removePrefixLocked (by rw [List.length_map, hlen]) hi h.capacity h.pos bb with
    ⟨hbuff, hcap, hpos, -⟩
  rw [← List.map_drop] at hbuff
  constructor
  · refine ⟨w.drop (i + 1), hbuff, ?_⟩
    show _ = b.nextIndexFree - i - 1
    rw [List.length_drop, hlen, Nat.sub_sub]
  · exact hcap
  · exact hpos
  · intro hacc
    have hacc' : b.accounting = true := hacc
    show (if b.accounting then b.sizes.drop (i + 1) else b.sizes).length = b.nextIndexFree - i - 1
    rw [if_pos hacc', List.length_drop, h.sizes hacc', Nat.sub_sub]

/-! ### Retirement -/

theorem releaseSlot_uncharged {seq : Nat}
    (h : (b.accounting && decide (i < b.sizes.length)) = false) (bb : ByteBudget) :
    b.releaseSlot bb i seq = (b, bb) := by
  unfold releaseSlot
  rw [h]
  rfl

/-- The test of the source covers both accesses. -/
theorem releaseSlot_eq (bb : ByteBudget) (seq : Nat) :
    Checked.releaseSlot b bb i seq = some (b.releaseSlot bb i seq) := by
  unfold Checked.releaseSlot
  split_ifs with hcharged
  · unfold releaseSlot
    rw [Bool.and_eq_true, decide_eq_true_eq] at hcharged
    rw [Slice.index_getD hcharged.2 0, Slice.store_eq hcharged.2]
    simp only [hcharged.1, hcharged.2, decide_true, Bool.true_and, if_true]
    rfl
  · rw [releaseSlot_uncharged (Bool.eq_false_iff.2 hcharged)]
    rfl

/-- The marker goes into a slot of the slice. -/
theorem retireLocked_eq (bb : ByteBudget) (entry : EntryId) (hi : i < b.buff.length) :
    Checked.retireLocked b bb i entry = some (b.retireLocked bb i entry) := by
  unfold Checked.retireLocked
  simp only
  rw [Slice.store_eq hi]
  simp only [Option.bind_eq_bind, Option.bind_some]
  rw [releaseSlot_eq]
  rfl

/-- A marker is a message too. -/
theorem Backed.retireLocked (h : Backed b) (bb : ByteBudget) (entry : EntryId)
    (hi : i < b.nextIndexFree) : Backed (b.retireLocked bb i entry).1 := by
  have hbuff : (b.retireLocked bb i entry).1.buff =
      b.buff.set i (some { seqNum := (b.entryAt entry).seq }) := rfl
  have hlen : (b.retireLocked bb i entry).1.buff.length = b.buff.length := by
    rw [hbuff, List.length_set]
  constructor
  · obtain ⟨w, hw, hlen⟩ := h.slots
    refine ⟨w.set i { seqNum := (b.entryAt entry).seq }, ?_, ?_⟩
    · rw [hbuff, List.map_set]
      exact hw.set (by rw [List.length_map]; omega) _
    · rw [List.length_set]
      exact hlen
  · rw [hlen]
    exact h.capacity
  · rw [hlen]
    exact h.pos
  · intro hacc
    have hsizes := h.sizes hacc
    show (if _ then b.sizes.set i 0 else b.sizes).length = b.nextIndexFree
    split_ifs
    · rw [List.length_set]
      exact hsizes
    · exact hsizes

/-- The ring takes any number of marks. -/
theorem remember_eq (h : Solid b) (n : Nat) :
    Checked.remember b n = some (b.remember n) ∧ Solid (b.remember n) := by
  obtain ⟨hfold, hfits⟩ := foldlM_ringAdd (fun i => add64 b.firstSeqNum i) (List.range n) h.ring
  constructor
  · unfold Checked.remember
    rw [hfold]
    rfl
  · exact ⟨h.toBacked.congr rfl, hfits⟩

/-- The run of retired frames ends with the frames. -/
theorem retiredRun_le : b.retiredRun ≤ b.nextIndexFree := by
  unfold retiredRun
  refine (List.takeWhile_prefix _).length_le.trans_eq ?_
  rw [List.length_range]

theorem dropReceiptsLocked_backedView (first index : Nat) (acknowledge : Bool) :
    (b.dropReceiptsLocked first index acknowledge).backedView = b.backedView := by
  have hv := dropReceiptsLocked_slotView (b := b) first index acknowledge
  simp only [slotView, Prod.mk.injEq] at hv
  obtain ⟨⟨-, -, h₁, -⟩, h₂, h₃, -, -, h₄, h₅⟩ := hv
  unfold backedView
  rw [h₁, h₂, h₃, h₄, h₅]

/-- The slots of a removed prefix and their entries. -/
theorem Solid.removed (h : Solid b) (bb : ByteBudget) (hi : i < b.nextIndexFree) (first : Nat)
    (acknowledge : Bool) :
    Solid ((b.removePrefixLocked bb i).1.dropReceiptsLocked first i acknowledge) := by
  have hkept : Solid (b.removePrefixLocked bb i).1 := ⟨h.toBacked.removePrefixLocked bb hi, h.ring⟩
  exact hkept.congr (dropReceiptsLocked_backedView ..) (dropReceiptsLocked_releasedRetired ..)

/-- The retired head can be released. -/
theorem Solid.releaseRetiredHeadLocked (h : Solid b) (bb : ByteBudget) :
    Checked.releaseRetiredHeadLocked b bb = some (b.releaseRetiredHeadLocked bb) ∧
      Solid (b.releaseRetiredHeadLocked bb).1 := by
  unfold Checked.releaseRetiredHeadLocked AckBuffer.releaseRetiredHeadLocked
  simp only
  split_ifs with hnone hzero
  · exact ⟨rfl, h⟩
  · exact ⟨rfl, h⟩
  · have hle := retiredRun_le (b := b)
    obtain ⟨heq, hsolid⟩ := remember_eq h b.retiredRun
    have hi : b.retiredRun - 1 < (b.remember b.retiredRun).nextIndexFree := by
      show b.retiredRun - 1 < b.nextIndexFree
      omega
    rw [heq]
    simp only [Option.bind_eq_bind, Option.bind_some]
    rw [removePrefixLocked_eq hsolid.toBacked bb hi]
    exact ⟨rfl, hsolid.removed bb hi _ _⟩

/-! ### Acknowledgement -/

/-- The slot named in the error message is tested first. -/
theorem ackError_eq (seq : Nat) : Checked.ackError b seq = some (b.ackError seq) := by
  have hnext : Checked.nextSeqAt b =
      some ((b.buff.getD b.nextIndexToDeliver none).elim 0 DataMessage.seqNum) := by
    unfold Checked.nextSeqAt
    split_ifs with hlt
    · rw [Slice.index_getD hlt none]
      cases b.buff.getD b.nextIndexToDeliver none <;> rfl
    · rw [List.getD_eq_getElem?_getD, List.getElem?_eq_none (by omega)]
      rfl
  unfold Checked.ackError ackError
  simp only
  split_ifs
  · rfl
  · rfl
  · rfl
  · rw [hnext]
    cases b.buff.getD b.nextIndexToDeliver none <;> rfl
  · rfl

theorem Solid.ackRemove (h : Solid b) (bb : ByteBudget) (hi : i < b.nextIndexFree) :
    Checked.ackRemove b bb i = some (b.ackRemove bb i) := by
  unfold Checked.ackRemove
  simp only
  rw [removePrefixLocked_eq h.toBacked bb hi]
  exact ((h.removed bb hi b.firstSeqNum true).releaseRetiredHeadLocked _).1

/-- An accepted number is the number of a frame. -/
theorem Solid.ack (h : Solid b) (bb : ByteBudget) (seq : Nat) :
    Checked.ack b bb seq = some (b.ack bb seq) := by
  unfold Checked.ack AckBuffer.ack
  rw [h.ackReleased, ackError_eq]
  simp only [Option.bind_eq_bind, Option.bind_some]
  split_ifs
  · rfl
  · cases herr : b.ackError seq with
    | some err => rfl
    | none =>
      simp only
      rw [h.ackRemove bb (ackError_none herr).1]
      rfl

/-! ### Admission -/

/-- A buffer that is available has a free slot. -/
theorem admitLocked_eq (e : DataMessage) (size : Nat) (overshot : Bool)
    (receipt : Option ReceiptId) (m : Nat) (hlt : b.nextIndexFree < b.buff.length) :
    Checked.admitLocked b e size overshot receipt m =
      some (b.admitLocked e size overshot receipt m) := by
  have hview : (((b.noteEscape size overshot).noteFlag e size).track e.seqNum receipt m).slotView =
      b.slotView := by
    unfold track
    cases receipt with
    | none => rfl
    | some r =>
      cases b.receiptTail <;> rfl
  simp only [slotView, Prod.mk.injEq] at hview
  obtain ⟨⟨-, -, h₁, -⟩, h₂, -⟩ := hview
  unfold Checked.admitLocked Checked.place
  simp only
  rw [Slice.store_eq (by rw [h₁, h₂]; exact hlt)]
  rfl

theorem tryAdd_eq (bb : ByteBudget) (e : DataMessage) (size : Nat) (waiter : Option WaiterId)
    (receipt : Option ReceiptId) (m : Nat)
    (havail : b.isAvailable = true → b.nextIndexFree < b.buff.length) :
    Checked.tryAddWithReceiptLocked b bb e size waiter receipt m =
      some (b.tryAddWithReceiptLocked bb e size waiter receipt m) := by
  unfold Checked.tryAddWithReceiptLocked tryAddWithReceiptLocked
  cases hav : b.isAvailable with
  | false => rfl
  | true =>
    simp only [Bool.not_true, Bool.false_eq_true, if_false]
    obtain ⟨⟨bb', verdict⟩, hr⟩ : ∃ r, b.checkBytes bb size waiter = r := ⟨_, rfl⟩
    rw [hr]
    cases verdict with
    | refused w => rfl
    | room forced overshot step =>
      simp only
      rw [admitLocked_eq _ _ _ _ _ (havail hav)]
      rfl

theorem addRound_eq (bb : ByteBudget) (e : DataMessage) (size : Nat) (waiter : Option WaiterId)
    (receipt : Option ReceiptId) (m : Nat)
    (havail : b.isAvailable = true → b.nextIndexFree < b.buff.length) :
    Checked.addRound b bb e size waiter receipt m =
      some (b.addRound bb e size waiter receipt m) := by
  unfold Checked.addRound addRound
  rw [tryAdd_eq bb e size waiter receipt m havail]
  simp only [Option.bind_eq_bind, Option.bind_some]
  split_ifs <;> rfl

/-! ### Delivery -/

/-- The frame handed out is not nil. -/
theorem Backed.handOut (h : Backed b) (hi : i < b.nextIndexFree) :
    Checked.handOut b i = some (b.handOut i) := by
  obtain ⟨m, hread, hget⟩ := h.index hi
  unfold Checked.handOut Checked.frameAt AckBuffer.handOut
  rw [hread, hget]
  simp only [Option.bind_eq_bind, Option.bind_some]
  split_ifs <;> rfl

theorem countSend_backedView (entry : Option EntryId) :
    (b.countSend entry).backedView = b.backedView := by
  unfold countSend
  cases b.limited entry <;> rfl

/-- Each round keeps the slices as the next one needs them. -/
theorem deliverLoop_eq (fuel : Nat) : ∀ (b : AckBuffer) (bb : ByteBudget) (fenced : Bool), Solid b →
    Checked.deliverLoop fuel b bb fenced = some (deliverLoop fuel b bb fenced) := by
  induction fuel with
  | zero =>
    intro b bb fenced _
    rfl
  | succ fuel ih =>
    intro b bb fenced h
    -- every round reads the slot at the delivery index, which is below the free one
    unfold Checked.deliverLoop deliverLoop
    split_ifs with hlt
    · obtain ⟨cursor, hcursor⟩ := takeCursor_eq (b := b) b.nextIndexToDeliver
      obtain ⟨⟨b₁, entry⟩, htake⟩ : ∃ r, b.takeCursor b.nextIndexToDeliver = r := ⟨_, rfl⟩
      rw [htake] at hcursor
      have hsolid : Solid b₁ := by
        rw [show b₁ = _ from hcursor]
        exact h.congr rfl rfl
      have hfree : b.nextIndexToDeliver < b₁.nextIndexFree := by
        rw [show b₁ = _ from hcursor]
        exact hlt
      simp only [htake]
      split_ifs with hret
      · -- a retired slot is skipped
        exact ih _ bb fenced (hsolid.congr rfl rfl)
      · cases hfence : b₁.fence entry with
        | some c =>
          simp only
          rw [retireLocked_eq bb c (lt_of_lt_of_le hfree hsolid.free_le)]
          simp only [Option.bind_eq_bind, Option.bind_some]
          have hretired : Solid { (b₁.retireLocked bb b.nextIndexToDeliver c).1 with
              nextIndexToDeliver := b.nextIndexToDeliver + 1 } :=
            ⟨(hsolid.toBacked.retireLocked bb c hfree).congr rfl, hsolid.ring⟩
          obtain ⟨heq, hkept⟩ := hretired.releaseRetiredHeadLocked
            (b₁.retireLocked bb b.nextIndexToDeliver c).2
          rw [heq]
          exact ih _ _ true hkept
        | none =>
          simp only
          have hview := countSend_backedView (b := b₁) entry
          have hcount : (b₁.countSend entry).nextIndexFree = b₁.nextIndexFree :=
            congrArg (fun v => v.2.1) hview
          rw [(hsolid.toBacked.congr hview).handOut (by rw [hcount]; exact hfree)]
          rfl
    · rfl

theorem Solid.getNextToDeliver (h : Solid b) (bb : ByteBudget) :
    Checked.getNextToDeliver b bb = some (b.getNextToDeliver bb) := by
  unfold Checked.getNextToDeliver AckBuffer.getNextToDeliver
  split_ifs
  · rfl
  · exact deliverLoop_eq _ b bb false h

theorem entriesFrom_congr (h : b'.entryAt = b.entryAt) (fuel : Nat) :
    ∀ entry, b'.entriesFrom fuel entry = b.entriesFrom fuel entry := by
  induction fuel with
  | zero =>
    intro entry
    rfl
  | succ fuel ih =>
    intro entry
    cases entry with
    | none => rfl
    | some x =>
      unfold entriesFrom
      rw [h, ih]

/-- The loop of `ResetDelivery` retires slots of entries that have one. -/
theorem resetLoop_eq (fuel : Nat) : ∀ (entry : Option EntryId) (b : AckBuffer) (bb : ByteBudget),
    Solid b →
    (∀ x ∈ b.entriesFrom fuel entry, sub64 (b.entryAt x).seq b.firstSeqNum < b.nextIndexFree) →
    Checked.resetLoop fuel entry b bb = some (resetLoop fuel entry b bb) ∧
      Solid (resetLoop fuel entry b bb).1 := by
  induction fuel with
  | zero =>
    intro entry b bb h _
    exact ⟨rfl, h⟩
  | succ fuel ih =>
    intro entry b bb h hslot
    cases entry with
    | none => exact ⟨rfl, h⟩
    | some x =>
      have hx := hslot x List.mem_cons_self
      unfold Checked.resetLoop resetLoop
      simp only
      split_ifs with hcond
      · rw [retireLocked_eq bb x (lt_of_lt_of_le hx h.free_le)]
        simp only [Option.bind_eq_bind, Option.bind_some]
        -- the list is the same after the slot of `x` was retired
        have hlist := entriesFrom_congr (show (b.retireLocked bb
          (sub64 (b.entryAt x).seq b.firstSeqNum) x).1.entryAt = b.entryAt from rfl) fuel
        refine ih _ _ _ ⟨h.toBacked.retireLocked bb x hx, h.ring⟩ ?_
        rw [hlist]
        exact fun y hy => hslot y (List.mem_cons_of_mem _ hy)
      · exact ih _ _ _ h fun y hy => hslot y (List.mem_cons_of_mem _ hy)

/-- The entries of the list are those of frames that are held. -/
theorem Solid.resetDelivery (h : Solid b) (bb : ByteBudget)
    (hslot : ∀ x ∈ b.trackedEntries, sub64 (b.entryAt x).seq b.firstSeqNum < b.nextIndexFree) :
    Checked.resetDelivery b bb = some (b.resetDelivery bb) := by
  have hrewound : Solid b.rewound := h.congr rfl rfl
  have hlist := entriesFrom_congr (show b.rewound.entryAt = b.entryAt from rfl) b.nextEntry
  obtain ⟨heq, hsolid⟩ := resetLoop_eq b.nextEntry b.receiptHead b.rewound bb hrewound (by
    rw [hlist]
    exact hslot)
  unfold Checked.resetDelivery
  simp only
  rw [show ({ b with nextIndexToDeliver := 0, deliverCursor := b.receiptHead } : AckBuffer) =
    b.rewound from rfl, heq]
  simp only [Option.bind_eq_bind, Option.bind_some]
  rw [(hsolid.releaseRetiredHeadLocked _).1]
  rfl

/-- Every entry of the list belongs to a slot. -/
theorem Refines.entry_slot (h : Refines b q) {x : Nat} (hx : x ∈ b.trackedEntries) :
    sub64 (b.entryAt x).seq b.firstSeqNum < b.nextIndexFree := by
  unfold trackedEntries at hx
  rw [h.chain.head] at hx
  obtain ⟨hge, hlt⟩ := h.chain.entriesFrom_bounds b.nextEntry le_entryOf hx
  obtain ⟨k, f, hf, -, -, he⟩ := h.chain.frame_of hge hlt
  rw [he.seq, h.slots.index_at hf, h.slots.free]
  exact (List.getElem?_eq_some_iff.1 hf).1

/-! ### Capacity, draining and leftovers -/

/-- Growing never shortens the slice. -/
theorem length_growBacking (buff : List (Option DataMessage)) (c : Nat) :
    buff.length ≤ (growBacking buff c).length := by
  unfold growBacking resized
  split_ifs with hlt
  · rw [List.take_length, List.length_append, List.length_replicate, List.length_take]
    omega
  · exact le_rfl

/-- The slice grows to the window before it is shortened to it. -/
theorem Backed.updateCapacity (h : Backed b) (c : Nat) :
    Checked.updateCapacity b c = some (b.updateCapacity c) := by
  unfold Checked.updateCapacity AckBuffer.updateCapacity
  split_ifs with hsame
  · rfl
  · simp only
    rw [shrinkBackingLocked_eq]
    · rfl
    · exact h.free_le.trans (length_growBacking b.buff c)
    · exact fun hacc => (h.sizes hacc).le

/-- The search from the front stays within the frames. -/
theorem firstLive_le (first last : Nat) (hle : first ≤ last) : b.firstLive first last ≤ last := by
  unfold firstLive
  cases hfind : (List.range' first (last - first)).find? fun i => !b.slotRetired i with
  | none => exact le_rfl
  | some i =>
    have hmem := List.mem_of_find?_eq_some hfind
    rw [List.mem_range'_1] at hmem
    show i ≤ last
    omega

theorem lastLive_le (first last : Nat) (hle : first ≤ last) : b.lastLive first last ≤ last := by
  unfold lastLive
  cases hfind : (List.range' (first + 1) (last - first)).reverse.find? fun i => !b.slotRetired i with
  | none => exact hle
  | some i =>
    have hmem := List.mem_of_find?_eq_some hfind
    rw [List.mem_reverse, List.mem_range'_1] at hmem
    show i ≤ last
    omega

theorem Backed.slotSeq (h : Backed b) (hi : i < b.nextIndexFree) :
    Checked.slotSeq b i = some (b.slotSeq i) := by
  obtain ⟨m, hread, hget⟩ := h.index hi
  unfold Checked.slotSeq AckBuffer.slotSeq
  rw [hread, hget]
  rfl

/-- A buffer that holds something has a first and a last frame. -/
theorem Backed.liveSeqBoundsLocked (h : Backed b) (hpos : b.nextIndexFree ≠ 0) :
    Checked.liveSeqBoundsLocked b = some b.liveSeqBoundsLocked := by
  have hfirst := firstLive_le (b := b) 0 (b.nextIndexFree - 1) (Nat.zero_le _)
  have hlast := lastLive_le (b := b) (b.firstLive 0 (b.nextIndexFree - 1)) (b.nextIndexFree - 1) hfirst
  unfold Checked.liveSeqBoundsLocked AckBuffer.liveSeqBoundsLocked
  simp only
  split_ifs with hnone
  · rw [h.slotSeq (by omega), h.slotSeq (by omega)]
    rfl
  · rw [h.slotSeq (by omega), h.slotSeq (by omega)]
    rfl

theorem Backed.drainRound (h : Backed b) (ctxDone : Bool) :
    Checked.drainRound b ctxDone = some (b.drainRound ctxDone) := by
  unfold Checked.drainRound AckBuffer.drainRound
  split_ifs with hzero
  · rfl
  · cases b.drainReason ctxDone with
    | none => rfl
    | some err =>
      simp only
      rw [h.liveSeqBoundsLocked hzero]
      rfl

theorem Backed.drainSection (h : Backed b) (first ctxDone : Bool) :
    Checked.drainSection b first ctxDone = some (b.drainSection first ctxDone) := by
  unfold Checked.drainSection AckBuffer.drainSection
  split_ifs
  · exact (show Backed b.beginDrain from h.congr rfl).drainRound ctxDone
  · exact h.drainRound ctxDone

/-- No more frames are retired than are held. -/
theorem Backed.getUnAcked (h : Backed b) (hcard : b.retired.card ≤ b.nextIndexFree) :
    Checked.getUnAcked b = some b.getUnAcked := by
  unfold Checked.getUnAcked AckBuffer.getUnAcked
  split_ifs with hnone hlt
  · exact Slice.reslice_head h.free_le
  · omega
  · refine Slice.mapM_some _ fun i hi => ?_
    have hi' := List.mem_range.1 (List.mem_of_mem_filter hi)
    exact Slice.index_getD (lt_of_lt_of_le hi' h.free_le) none

/-! ## The invariant -/

/-- The fields of a buffer that represents a queue. -/
theorem Shape.represented (h : Shape b q) : Represented b := by
  have hs := h.slots
  have hfree := hs.free
  have hlen := hs.window_le
  have hcap := hs.capacity
  have hpos := hs.pos
  obtain ⟨r, hr⟩ := hs.buff
  constructor
  · rw [hs.first]
    exact Nat.mod_lt _ (by decide)
  · exact hs.bound
  · rw [hs.next, hfree]
    exact h.next_le
  · omega
  · omega
  · rw [hs.nextSeq, hs.first, hfree]
    unfold add64
    rw [q.length_items]
    omega
  · intro i hi
    obtain ⟨f, hf⟩ : ∃ f, q.window[i]? = some f := ⟨_, List.getElem?_eq_getElem (by omega)⟩
    exact ⟨_, hs.getElem? hf⟩
  · -- behind the slots the slice is nil
    intro i hge hlt
    rw [hr, List.length_append, List.length_map, List.length_replicate] at hlt
    rw [hr, List.getElem?_append_right (by rw [List.length_map]; omega), List.length_map,
      List.getElem?_replicate, if_pos (by omega)]
  · intro hacc
    rw [hs.sizes hacc, List.length_map, hfree]
  · intro seq hseq
    obtain ⟨i, f, hf, -, rfl⟩ := (hs.retired seq).1 hseq
    refine ⟨i, ?_, hs.seq_at hf⟩
    rw [hfree]
    exact (List.getElem?_eq_some_iff.1 hf).1
  · intro hne
    obtain ⟨f, hf⟩ : ∃ f, q.window[0]? = some f := ⟨_, List.getElem?_eq_getElem (by omega)⟩
    rw [hs.slotRetired hf]
    refine h.trimmed f ?_
    rw [List.head?_eq_getElem?]
    exact hf
  · rw [hs.available, decide_eq_true_eq, hfree]
  · rw [h.events.ready, decide_eq_true_eq, hs.next, hfree]
  · rw [h.events.empty, Bool.not_eq_true', Bool.not_eq_true]

/-- The message in a slot. -/
def slotMessage (f : Frame Admission) : DataMessage :=
  if f.retired then { seqNum := f.item.stored.seqNum } else f.item.stored

/-- The slots hold the messages of the frames. -/
theorem Slots.backed (h : Slots b q) : Backed b := by
  refine ⟨⟨q.window.map slotMessage, ?_, ?_⟩, h.capacity, h.pos, fun hacc => ?_⟩
  · rw [List.map_map]
    exact h.buff
  · rw [List.length_map, h.free]
  · rw [h.sizes hacc, List.length_map, h.free]

/-- There are not more retired numbers than slots. -/
theorem Represented.card_retired (h : Represented b) : b.retired.card ≤ b.nextIndexFree := by
  have hsub : b.retired ⊆ (Finset.range b.nextIndexFree).image (add64 b.firstSeqNum) := by
    intro seq hseq
    obtain ⟨i, hi, rfl⟩ := h.retired seq hseq
    exact Finset.mem_image_of_mem _ (Finset.mem_range.2 hi)
  calc b.retired.card ≤ ((Finset.range b.nextIndexFree).image (add64 b.firstSeqNum)).card :=
        Finset.card_le_card hsub
    _ ≤ (Finset.range b.nextIndexFree).card := Finset.card_image_le
    _ = b.nextIndexFree := Finset.card_range _

end AckBuffer

namespace BufferState

variable {s s₀ : BufferState} {q : Queue Admission} {tr : List LifeStep}

/-- Every check of a call passes. -/
theorem Life.call_eq (h : Life s q) (hsolid : s.buf.Solid) (bb : ByteBudget) (op : BufferOp) :
    Checked.call s.buf bb op = some ((s.apply bb op).1.buf, (s.apply bb op).2) := by
  have hshape := h.held.shape
  unfold Checked.call
  cases op with
  | add e size waiter receipt m =>
    simp only
    rw [addRound_eq]
    · rfl
    · -- an available buffer has a free slot
      intro havail
      exact lt_of_lt_of_le (hshape.represented.available.1 havail) hshape.slots.capacity
  | getNextToDeliver =>
    simp only
    rw [hsolid.getNextToDeliver]
    rfl
  | ack seq =>
    simp only
    rw [hsolid.ack]
    rfl
  | resetDelivery =>
    refine hsolid.resetDelivery bb fun x hx => ?_
    rcases h.phase with href | hdet
    · exact href.entry_slot hx
    · -- without the metadata the list is empty
      have hhead : s.buf.receiptHead = none := congrArg (fun v => v.1) hdet.detached
      unfold trackedEntries at hx
      rw [hhead] at hx
      cases hn : s.buf.nextEntry with
      | zero | succ =>
        rw [hn] at hx
        cases hx
  | updateCapacity c =>
    simp only
    rw [hsolid.toBacked.updateCapacity]
    rfl
  | beginDrain => rfl
  | drain first ctxDone =>
    simp only
    rw [hsolid.toBacked.drainSection]
    rfl
  | close => rfl

end BufferState

/-- In every state a run of one buffer reaches, the fields agree, and every call makes its slice
accesses in range: with each of them checked, the call succeeds and has the same outcome. -/
theorem no_access_out_of_range {s₀ s : BufferState} {tr : List LifeStep} (hfresh : FreshBuffer s₀)
    (hrun : Machine.Run lifeMachine s₀ tr s) :
    s.buf.Represented ∧
    (∀ bb op, Checked.call s.buf bb op =
      some ((s.apply bb op).1.buf, (s.apply bb op).2)) ∧
    Checked.getUnAcked s.buf = some s.buf.getUnAcked := by
  obtain ⟨q, hlife, hrecalls⟩ := BufferState.recalls_of_run hfresh hrun
  have hrep := hlife.held.shape.represented
  have hsolid : s.buf.Solid := ⟨hlife.held.shape.slots.backed, hrecalls.fits⟩
  exact ⟨hrep, hlife.call_eq hsolid, hsolid.toBacked.getUnAcked hrep.card_retired⟩

/-- Three messages in a window of four that is then closed to zero: the slots stay. -/
theorem window_closed_in_range :
    let s := lifeMachine.exec plainBuffer [solo (.updateCapacity 4), solo (.add {} 0 none none 0),
      solo (.add {} 0 none (some 0) 1), solo (.add {} 0 none none 0), solo .getNextToDeliver,
      solo .getNextToDeliver, solo .resetDelivery, solo (.updateCapacity 0)]
    s.buf.currentCapacity = 0 ∧ s.buf.nextIndexFree = 3 ∧ s.buf.Represented := by
  intro s
  have hrun : Machine.Run lifeMachine plainBuffer _ s := Machine.run_exec _ (by decide +kernel)
  exact ⟨by decide +kernel, by decide +kernel, (no_access_out_of_range plainBuffer_fresh hrun).1⟩

end UspClient
