import UspClient.Buffer.Deals

/-!
# Buffers that share a budget (ack_buffer.go, byte_budget.go)

Any number of buffers, made at any time, each with or without the shared budget, and the
calls of their users. A method that holds the lock of its buffer is one step, with what it
does to the budget. The calls that block are taken apart: a round of `addWithReceipt`, its
select, the end of its wait, and the deferred `cancel`; a round of `drain` and its select.
The select of a parked call returns once one of the channels it captured is closed, or its
timer or context is done, which can happen at any time.
-/

namespace UspClient

open Function

/-- Where a call of `addWithReceipt` is. -/
inductive AddPhase where
  /-- About to take the lock. -/
  | trying
  /-- In its select, with the channels it captured. -/
  | parked (localWake : ChanId) (poolWake : Option ChanId)
  /-- Out of its loop; the deferred `cancel` is to come. -/
  | leaving
  | returned
deriving DecidableEq, Repr

/-- A call of `addWithReceipt`. -/
structure AddCall where
  buffer : Nat
  message : DataMessage
  size : Nat
  receipt : Option ReceiptId := none
  maxTransmissions : UInt32 := 0
  waiter : Option WaiterId := none
  phase : AddPhase := .trying

/-- Where a call of `drain` is. -/
inductive DrainPhase where
  /-- About to take the lock; the first time it seals admission. -/
  | locking (first : Bool)
  | parked (wake : ChanId)
  | returned
deriving DecidableEq, Repr

structure DrainCall where
  buffer : Nat
  phase : DrainPhase := .locking true
deriving DecidableEq, Repr

structure SystemState where
  bb : ByteBudget
  bufferAt : Nat → BufferState := fun _ => { buf := {} }
  /-- How many buffers were made. -/
  buffers : Nat := 0
  addAt : Nat → AddCall := fun _ => { buffer := 0, message := {}, size := 0, phase := .returned }
  adds : Nat := 0
  drainAt : Nat → DrainCall := fun _ => { buffer := 0, phase := .returned }
  drains : Nat := 0

inductive SystemAct where
  | newAckBuffer (o : AckBufferOptions)
  /-- A method that does not block. -/
  | call (i : Nat) (op : BufferOp)
  | callAdd (i : Nat) (e : DataMessage) (receipt : Option ReceiptId) (maxTransmissions : UInt32)
  | tryAdd (j : Nat)
  | wakeAdd (j : Nat)
  | timeout (j : Nat)
  | cancel (j : Nat)
  | callDrain (i : Nat)
  | drain (j : Nat) (ctxDone : Bool)
  | wakeDrain (j : Nat) (ctxDone : Bool)

/-- The call is no round of an add or of a drain. -/
def BufferOp.direct : BufferOp → Bool
  | .add .. => false
  | .drain .. => false
  | _ => true

/-- Where a round leaves the add. -/
def AddPhase.after : AckBuffer.AddRound → AddPhase
  | .closed => .leaving
  | .admitted => .leaving
  | .refused localWake poolWake => .parked localWake poolWake

/-- Where a round leaves the drain. -/
def DrainPhase.after : AckBuffer.DrainRound → DrainPhase
  | .empty => .returned
  | .failed _ => .returned
  | .parked wake => .parked wake

namespace SystemState

/-- The buffer of an add, and the round it would make. -/
def addOp (c : AddCall) : BufferOp := .add c.message c.size c.waiter c.receipt c.maxTransmissions

/-- One call on buffer `i`. -/
def apply (s : SystemState) (i : Nat) (op : BufferOp) : SystemState :=
  let r := (s.bufferAt i).apply s.bb op
  { s with bb := r.2, bufferAt := update s.bufferAt i r.1 }

def setAdd (s : SystemState) (j : Nat) (c : AddCall) : SystemState :=
  { s with addAt := update s.addAt j c }

def setDrain (s : SystemState) (j : Nat) (c : DrainCall) : SystemState :=
  { s with drainAt := update s.drainAt j c }

/-- The round an add would make now. -/
def round (s : SystemState) (c : AddCall) : AckBuffer.TryAdd × AckBuffer.AddRound :=
  (s.bufferAt c.buffer).buf.addRound s.bb c.message c.size c.waiter c.receipt
    c.maxTransmissions.toNat

/-- A channel the add captured is closed. -/
def woken (s : SystemState) (c : AddCall) : Bool :=
  match c.phase with
  | .parked localWake poolWake =>
    (s.bufferAt c.buffer).buf.wakeClosed localWake || poolWake.any s.bb.closed
  | _ => false

/-- One step of the system, if it can be made. -/
def act (s : SystemState) : SystemAct → Option SystemState
  | .newAckBuffer o =>
    match newAckBuffer o s.bb with
    | (bb, .ok b) =>
      some { s with
        bb := bb
        bufferAt := update s.bufferAt s.buffers { buf := b }
        buffers := s.buffers + 1 }
    | (bb, .error _) => some { s with bb := bb }
  | .call i op => if i < s.buffers ∧ op.direct = true then some (s.apply i op) else none
  | .callAdd i e receipt maxTransmissions =>
    if i < s.buffers then
      some { s.setAdd s.adds
        { buffer := i, message := e, size := (s.bufferAt i).buf.addSize e, receipt := receipt
          maxTransmissions := maxTransmissions } with adds := s.adds + 1 }
    else none
  | .tryAdd j =>
    let c := s.addAt j
    if j < s.adds ∧ c.phase = .trying then
      some ((s.apply c.buffer (addOp c)).setAdd j
        { c with waiter := (s.round c).1.waiter, phase := .after (s.round c).2 })
    else none
  | .wakeAdd j =>
    let c := s.addAt j
    if j < s.adds ∧ s.woken c = true then some (s.setAdd j { c with phase := .trying }) else none
  | .timeout j =>
    let c := s.addAt j
    match c.phase with
    | .parked _ _ => if j < s.adds then some (s.setAdd j { c with phase := .leaving }) else none
    | _ => none
  | .cancel j =>
    let c := s.addAt j
    if j < s.adds ∧ c.phase = .leaving then
      some { s.setAdd j { c with waiter := none, phase := .returned } with
        bb := (s.bufferAt c.buffer).buf.cancelShared s.bb c.waiter }
    else none
  | .callDrain i =>
    if i < s.buffers then some { s.setDrain s.drains { buffer := i } with drains := s.drains + 1 }
    else none
  | .drain j ctxDone =>
    let c := s.drainAt j
    match c.phase with
    | .locking first =>
      if j < s.drains then
        let round := ((s.bufferAt c.buffer).buf.drainSection first ctxDone).2
        some ((s.apply c.buffer (.drain first ctxDone)).setDrain j { c with phase := .after round })
      else none
    | _ => none
  | .wakeDrain j ctxDone =>
    let c := s.drainAt j
    match c.phase with
    | .parked wake =>
      if j < s.drains ∧ ((s.bufferAt c.buffer).buf.wakeClosed wake || ctxDone) = true then
        some (s.setDrain j { c with phase := .locking false })
      else none
    | _ => none

end SystemState

def systemMachine : Machine SystemState SystemAct where
  guard s a := (s.act a).isSome = true
  next s a := (s.act a).getD s

instance (s : SystemState) (a : SystemAct) : Decidable (systemMachine.guard s a) :=
  inferInstanceAs (Decidable (_ = true))

abbrev SystemStep := Machine.Step SystemState SystemAct

/-- A budget before any call, and no buffer. -/
structure NewSystem (s : SystemState) : Prop where
  budget : (∃ total, s.bb = newByteBudget total) ∨
    ∃ total o, newFairByteBudget total o = some s.bb
  buffers : s.buffers = 0
  adds : s.adds = 0
  drains : s.drains = 0

end UspClient
