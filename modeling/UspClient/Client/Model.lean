import UspClient.Client.Reconnect
import UspClient.Buffer.Delivery
import UspClient.Buffer.Release

/-!
# A client (client.go, receipt.go)

The goroutines of a client with what they do to its buffer, to the socket and to its
receipts. An access of the protocol that calls a method of the buffer makes the call in the
same step. The loop of a sender is three steps of its own: `GetNextToDeliver`, encoding and
the write. Users ship messages and drain the buffer at any time. A call finds the shared
budget in any state.

Encoding is a parameter: it succeeds or fails on a message. A failed write may have reached
the peer. A receipt is its cell; a client has at most one receipt owner, which is its
lifetime cell here. `ObserveReceipt` makes its loads one by one.
-/

namespace UspClient

open Function Replay

/-- The constants of receipt.go, in their order. -/
inductive ReceiptLifetime where
  | unknown
  | live
  | closing
  | closed
deriving DecidableEq, Repr

def ReceiptLifetime.rank : ReceiptLifetime → Nat
  | .unknown => 0
  | .live => 1
  | .closing => 2
  | .closed => 3

structure ReceiptObservation where
  frame : ReceiptFrameState := .invalid
  lifetime : ReceiptLifetime := .unknown
deriving DecidableEq, Repr

/-- What a sender holds between `GetNextToDeliver` and the end of its write. -/
inductive Hand where
  | empty
  | message (k : Nat) (m : DataMessage)
  | encoded (k : Nat)

/-- The next load of a call of `ObserveReceipt`. -/
inductive Look where
  | loadOwner
  | loadFrame
  | loadLifetime (frame : ReceiptFrameState)
  | reloadFrame
  | loadClosing (frame : ReceiptFrameState) (lifetime : ReceiptLifetime)
deriving DecidableEq, Repr

/-- A call of `ObserveReceipt`. `start` is history: how many calls had returned when it
began. -/
structure Observer where
  receipt : ReceiptId
  start : Nat
  look : Look
deriving DecidableEq, Repr

/-- A call of `ObserveReceipt` that returned. -/
structure Observed where
  receipt : ReceiptId
  start : Nat
  result : ReceiptObservation
deriving DecidableEq, Repr

structure ClientState where
  proto : Protocol
  buffer : BufferState
  hand : Nat → Hand := fun _ => .empty
  /-- The numbers of the frames that were written to a connection. -/
  written : List Nat := []
  receiptLifetime : ReceiptLifetime := .unknown
  receiptOwner : Option ReceiptLifetime := none
  /-- The receipts that were returned to users. -/
  receipts : List ReceiptId := []
  /-- The slice a call of `Close` collected, and the numbers of its frames. -/
  messages : Nat → List (Option DataMessage) := fun _ => []
  unacked : Nat → List Nat := fun _ => []
  observers : Nat → Option Observer := fun _ => none
  observed : List Observed := []

inductive ClientAct where
  | callClose
  | callReconnect
  | step (t : Nat) (choice : Choice) (bb : ByteBudget)
  | deliver (t : Nat) (bb : ByteBudget)
  | encode (t : Nat)
  | write (t : Nat) (ok reached : Bool)
  | ship (bb : ByteBudget) (e : DataMessage) (waiter : Option WaiterId)
      (receipt : Option ReceiptId) (maxTransmissions : UInt32)
  | beginDrain
  | drain (first ctxDone : Bool)
  | admissionReceiptOwner (r : ReceiptId)
  | callObserve (o : Nat) (r : ReceiptId)
  | observe (o : Nat)

/-- What `processControlMessage` calls on the buffer. -/
def ControlMessage.call : ControlMessage → Option LifeOp
  | .ack seqNum => some (.call (.ack seqNum))
  | .flow windowSize => some (.call (.updateCapacity windowSize))
  | _ => none

/-- What an access of a goroutine calls on the buffer. -/
def Pc.call : Pc → Choice → Option LifeOp
  | .updateCapacity, .go => some (.call (.updateCapacity 1))
  | .resetDelivery, .go => some (.call .resetDelivery)
  | .handshake, .message m => m.call
  | .work _, .message m => m.call
  | .closeBuffer, .go => some (.call .close)
  | .closeDetach, .go => some .releaseReceiptTracking
  | _, _ => none

/-- A call on the buffer, if there is one. -/
def BufferState.calls (s : BufferState) (bb : ByteBudget) : Option LifeOp → BufferState
  | none => s
  | some op => s.live ⟨bb, op⟩

namespace ClientState

def setReceiptLifetime (c : ClientState) (lifetime : ReceiptLifetime) : ClientState :=
  let lifetime :=
    if c.receiptLifetime.rank < lifetime.rank then lifetime else c.receiptLifetime
  { c with
    receiptLifetime := lifetime
    receiptOwner := c.receiptOwner.map fun _ => lifetime }

/-- The lifetime cell of a new owner. -/
def newOwner (c : ClientState) : ReceiptLifetime :=
  let lifetime :=
    if c.proto.isClosing && decide (c.receiptLifetime.rank < ReceiptLifetime.closing.rank) then
      .closing
    else c.receiptLifetime
  if lifetime = .unknown then .live else lifetime

/-- What an access of goroutine `t` writes besides the fields of the protocol and the
buffer. -/
def stores (c : ClientState) (t : Nat) : ClientState :=
  match c.proto.pc t with
  | .closeAnnounce => c.setReceiptLifetime .closing
  | .closeFinish => c.setReceiptLifetime .closed
  | .closeCollect =>
    { c with
      messages := update c.messages t c.buffer.buf.getUnAcked
      unacked := update c.unacked t c.buffer.liveNumbers }
  | _ => c

/-- A sender fails only in its write, and stops only at the top of its loop. -/
def free (c : ClientState) (t : Nat) (choice : Choice) : Bool :=
  match c.proto.pc t, choice, c.hand t with
  | .work ⟨_, .sender⟩, .fail, _ => false
  | .work ⟨_, .sender⟩, .stop, .empty => true
  | .work ⟨_, .sender⟩, .stop, _ => false
  | _, _, _ => true

/-- Goroutine `t` is in the loop of a sender. -/
def sending (c : ClientState) (t : Nat) : Bool :=
  match c.proto.pc t with
  | .work ⟨_, .sender⟩ => true
  | _ => false

/-- The end of `ObserveReceipt`. -/
def conclude (isClosing : Bool) (state : ReceiptFrameState) (lifetime : ReceiptLifetime) :
    ReceiptObservation :=
  let lifetime :=
    if isClosing && decide (lifetime.rank < ReceiptLifetime.closing.rank) then .closing else lifetime
  { frame := if lifetime = .closed ∧ state = .retained then .closedUnconfirmed else state
    lifetime := lifetime }

/-- One load of `ObserveReceipt`: what it looks at next, or the result. -/
def load (c : ClientState) (o : Observer) : Look ⊕ ReceiptObservation :=
  match o.look with
  | .loadOwner => if c.receiptOwner = none then .inr {} else .inl .loadFrame
  | .loadFrame =>
    let state := c.buffer.buf.receiptAt o.receipt
    if state ≠ .retained ∧ state ≠ .acknowledged ∧ state ≠ .retired then .inr {}
    else .inl (.loadLifetime state)
  | .loadLifetime state =>
    let lifetime := c.receiptOwner.getD .unknown
    if lifetime = .closed then .inl .reloadFrame else .inl (.loadClosing state lifetime)
  | .reloadFrame => .inl (.loadClosing (c.buffer.buf.receiptAt o.receipt) .closed)
  | .loadClosing state lifetime => .inr (conclude c.proto.isClosing state lifetime)

/-- `ObserveReceipt` in one state. -/
def observeReceipt (c : ClientState) (r : ReceiptId) : ReceiptObservation :=
  match c.receiptOwner with
  | none => {}
  | some lifetime =>
    let state := c.buffer.buf.receiptAt r
    if state ≠ .retained ∧ state ≠ .acknowledged ∧ state ≠ .retired then {}
    else conclude c.proto.isClosing state lifetime

def advance (c : ClientState) (i : Nat) (o : Observer) : ClientState :=
  match c.load o with
  | .inl look => { c with observers := update c.observers i (some { o with look := look }) }
  | .inr result =>
    { c with
      observers := update c.observers i none
      observed := c.observed ++ [⟨o.receipt, o.start, result⟩] }

/-- One step of the client, if it can be made. -/
def act (encodes : DataMessage → Bool) (c : ClientState) : ClientAct → Option ClientState
  | .callClose => some { c with proto := c.proto.spawn .closeStore }
  | .callReconnect => some { c with proto := c.proto.spawn (.loadClosing .user) }
  | .step t choice bb =>
    if c.free t choice then
      (c.proto.step t choice).map fun p =>
        { c.stores t with proto := p, buffer := c.buffer.calls bb ((c.proto.pc t).call choice) }
    else none
  | .deliver t bb =>
    match c.sending t, c.hand t with
    | true, .empty =>
      let s := (c.buffer.apply bb .getNextToDeliver).1
      let hand := match (c.buffer.buf.getNextToDeliver bb).2.2.frame with
        | some m => .message s.lastHanded m
        | none => .empty
      some { c with buffer := s, hand := update c.hand t hand }
    | _, _ => none
  | .encode t =>
    match c.sending t, c.hand t with
    | true, .message k m =>
      some { c with hand := update c.hand t (if encodes m then .encoded k else .empty) }
    | _, _ => none
  | .write t ok reached =>
    match c.sending t, c.hand t with
    | true, .encoded k =>
      if ok then
        some { c with hand := update c.hand t .empty, written := c.written ++ [k] }
      else
        (c.proto.step t .fail).map fun p =>
          { c with proto := p, written := if reached then c.written ++ [k] else c.written }
    | _, _ => none
  | .ship bb e waiter receipt maxTransmissions =>
    let op := BufferOp.add e (c.buffer.buf.addSize e) waiter receipt maxTransmissions
    if c.buffer.NewCell op then some { c with buffer := (c.buffer.apply bb op).1 } else none
  | .beginDrain => some { c with buffer := { c.buffer with buf := c.buffer.buf.beginDrain } }
  | .drain first ctxDone =>
    some { c with buffer := { c.buffer with buf := (c.buffer.buf.drainSection first ctxDone).1 } }
  | .admissionReceiptOwner r =>
    -- the admission of the message comes before
    if c.buffer.log.any fun a => decide (a.receipt = some r) then
      some { c with
        receipts := r :: c.receipts
        receiptOwner := some (c.receiptOwner.getD c.newOwner) }
    else none
  | .callObserve i r =>
    if c.observers i = none ∧ r ∈ c.receipts then
      some { c with
        observers := update c.observers i (some ⟨r, c.observed.length, .loadOwner⟩) }
    else none
  | .observe i => (c.observers i).map (c.advance i)

end ClientState

def clientMachine (encodes : DataMessage → Bool) : Machine ClientState ClientAct where
  guard c a := (c.act encodes a).isSome = true
  next c a := (c.act encodes a).getD c

instance (encodes : DataMessage → Bool) (c : ClientState) (a : ClientAct) :
    Decidable ((clientMachine encodes).guard c a) := inferInstanceAs (Decidable (_ = true))

abbrev ClientStep := Machine.Step ClientState ClientAct

/-- A client as a successful `NewClient` returns it. The buffer has processed the message
of the first handshake. -/
structure NewClient (c : ClientState) : Prop where
  buffer : ∃ s bb m, FreshBuffer s ∧ c.buffer = s.calls bb (ControlMessage.call m)
  fresh : c = { proto := newClient, buffer := c.buffer }

end UspClient
