import UspClient.Lib.Machine

/-!
# The goroutines of a client (client.go)

`Reconnect` callers, reconnect goroutines, `Close` callers and the three workers of a
connection, over the fields they share: `isReconnecting`, `isClosing`, `isStop`, `isStart`,
`connMutex`, the worker group and the current connection. Every access to one of these is a
step, so a run is an arbitrary interleaving. A program counter names the access its
goroutine makes next.

Dialing, the handshake and the socket are the environment: the step says how they ended. So are
the frame a sender has to write and the backoff it waits out: its `fail` is a write that failed,
its `stop` after `closeCancel` is a backoff cut short. Runs have them at any time, and nothing
may count on them.
The worker group counts the workers that are started and not done. Connections are
numbered in the order in which they are installed.
-/

namespace UspClient

inductive WorkerKind where
  | listener
  | sender
  | keepAliveSender
deriving DecidableEq, Repr

/-- A worker and its connection. -/
structure Worker where
  conn : Nat
  kind : WorkerKind
deriving DecidableEq, Repr

/-- A control message of the peer (protocol.ControlMessage). -/
inductive ControlMessage where
  | ack (seqNum : UInt64)
  | backoff
  | reconnect
  | error
  | ready
  | flow (windowSize : UInt64)
  | unknown
deriving DecidableEq, Repr

/-- Where a call of `Reconnect` returns to. -/
inductive Caller where
  /-- A user of the client. -/
  | user
  /-- A listener that was asked to reconnect; it goes on. -/
  | asked (w : Worker)
  /-- A worker after a transport failure; it exits. -/
  | failed (w : Worker)
  /-- The handshake of `connectBeforeWorkers`, which then fails. -/
  | handshake
deriving DecidableEq, Repr

/-- The next access of a goroutine. -/
inductive Pc where
  | idle
  -- Reconnect
  | loadClosing (k : Caller)
  | swapReconnecting (k : Caller)
  -- the reconnect goroutine: disconnect
  | setStop
  | lockDisconnect
  | join
  | updateCapacity
  | resetDelivery
  -- connectBeforeWorkers
  | lockConnect
  | checkClosing
  | clearStart
  | handshake
  | recheckClosing
  | clearStop
  | setConn
  | launch (k : WorkerKind)
  | handBack
  | setStart
  | unlock (connected : Bool)
  -- the loop of the reconnect goroutine
  | loopClosing
  | sleep
  | giveBack
  -- Close
  | closeStore
  | closeAnnounce
  | closeCancel
  | closeBuffer
  | closeSetStop
  | closeLock
  | closeJoin
  | closeCollect
  | closeDetach
  | closeFinish
  | closed
  -- workers
  | waitStart (w : Worker)
  | work (w : Worker)
  | exited (w : Worker) (failed : Bool)
  | done
deriving DecidableEq, Repr

/-- What the environment does in a step that depends on it. -/
inductive Choice where
  | go
  | fail
  | stop
  | message (m : ControlMessage)
deriving DecidableEq, Repr

structure Protocol where
  isReconnecting : Bool := false
  isClosing : Bool := false
  isStop : Bool := false
  isStart : Bool := false
  closeDone : Bool := false
  connMutex : Option Nat := none
  conn : Option Nat := none
  latest : Nat := 0
  pc : Nat → Pc := fun _ => .idle
  /-- The goroutines so far. -/
  spawned : Nat := 0

inductive ProtocolAct where
  | callClose
  | callReconnect
  | step (t : Nat) (c : Choice)
deriving DecidableEq, Repr

namespace Pc

/-- The worker that is started and not done. -/
@[simp] def worker : Pc → Option Worker
  | .waitStart w => some w
  | .work w => some w
  | .loadClosing (.asked w) => some w
  | .loadClosing (.failed w) => some w
  | .swapReconnecting (.asked w) => some w
  | .swapReconnecting (.failed w) => some w
  | _ => none

end Pc

/-- Where `Reconnect` returns to. -/
def Caller.back : Caller → Pc
  | .user => .done
  | .asked w => .work w
  | .failed w => .exited w true
  | .handshake => .unlock false

namespace Protocol

def goto (p : Protocol) (t : Nat) (a : Pc) : Protocol := { p with pc := Function.update p.pc t a }

/-- Start a goroutine. -/
def spawn (p : Protocol) (a : Pc) : Protocol :=
  { p with pc := Function.update p.pc p.spawned a, spawned := p.spawned + 1 }

/-- The counter of the worker group is zero. -/
def joined (p : Protocol) : Bool :=
  (List.range p.spawned).all fun t => (p.pc t).worker.isNone

def lock (p : Protocol) (t : Nat) (a : Pc) : Option Protocol :=
  if p.connMutex = none then some (goto { p with connMutex := some t } t a) else none

/-- The end of `disconnect`: the workers are joined. -/
def finishDisconnect (p : Protocol) (t : Nat) (a : Pc) : Option Protocol :=
  if p.joined then some (goto { p with conn := none, connMutex := none } t a) else none

/-- `processControlMessage` on the message of the handshake. -/
def afterHandshake : ControlMessage → Pc
  | .ack _ => .recheckClosing
  | .backoff => .recheckClosing
  | .reconnect => .loadClosing .handshake
  | .error => .unlock false
  | .ready => .recheckClosing
  | .flow _ => .recheckClosing
  | .unknown => .unlock false

/-- The listener after a control message. -/
def afterMessage (w : Worker) : ControlMessage → Pc
  | .reconnect => .loadClosing (.asked w)
  | _ => .work w

def afterLaunch : WorkerKind → Pc
  | .listener => .launch .sender
  | .sender => .launch .keepAliveSender
  | .keepAliveSender => .handBack

/-- One access of goroutine `t`, if it can make it. -/
def step (p : Protocol) (t : Nat) (c : Choice) : Option Protocol :=
  match p.pc t, c with
  | .loadClosing k, .go => some (p.goto t (if p.isClosing then k.back else .swapReconnecting k))
  | .swapReconnecting k, .go =>
    if p.isReconnecting then some (p.goto t k.back)
    else some (spawn (goto { p with isReconnecting := true } t k.back) .setStop)
  | .setStop, .go => some (goto { p with isStop := true } t .lockDisconnect)
  | .lockDisconnect, .go => p.lock t .join
  | .join, .go => p.finishDisconnect t .updateCapacity
  | .updateCapacity, .go => some (p.goto t .resetDelivery)
  | .resetDelivery, .go => some (p.goto t .lockConnect)
  | .lockConnect, .go => p.lock t .checkClosing
  | .checkClosing, .go => some (p.goto t (if p.isClosing then .unlock false else .clearStart))
  | .clearStart, .go => some (goto { p with isStart := false } t .handshake)
  | .handshake, .fail => some (p.goto t (.unlock false))
  | .handshake, .message m => some (p.goto t (afterHandshake m))
  | .recheckClosing, .go => some (p.goto t (if p.isClosing then .unlock false else .clearStop))
  | .clearStop, .go => some (goto { p with isStop := false } t .setConn)
  | .setConn, .go =>
    some (goto { p with conn := some (p.latest + 1), latest := p.latest + 1 } t (.launch .listener))
  | .launch k, .go => some (spawn (p.goto t (afterLaunch k)) (.waitStart ⟨p.latest, k⟩))
  | .handBack, .go => some (goto { p with isReconnecting := false } t .setStart)
  | .setStart, .go => some (goto { p with isStart := true } t (.unlock true))
  | .unlock connected, .go =>
    some (goto { p with connMutex := none } t (if connected then .done else .loopClosing))
  | .loopClosing, .go => some (p.goto t (if p.isClosing then .giveBack else .sleep))
  | .sleep, .go => some (p.goto t .lockConnect)
  | .sleep, .stop => if p.closeDone then some (p.goto t .giveBack) else none
  | .giveBack, .go => some (goto { p with isReconnecting := false } t .done)
  | .closeStore, .go => some (goto { p with isClosing := true } t .closeAnnounce)
  | .closeAnnounce, .go => some (p.goto t .closeCancel)
  | .closeCancel, .go => some (goto { p with closeDone := true } t .closeBuffer)
  | .closeBuffer, .go => some (p.goto t .closeSetStop)
  | .closeSetStop, .go => some (goto { p with isStop := true } t .closeLock)
  | .closeLock, .go => p.lock t .closeJoin
  | .closeJoin, .go => p.finishDisconnect t .closeCollect
  | .closeCollect, .go => some (p.goto t .closeDetach)
  | .closeDetach, .go => some (p.goto t .closeFinish)
  | .closeFinish, .go => some (p.goto t .closed)
  | .waitStart w, .go => if p.isStart then some (p.goto t (.work w)) else none
  | .work w, .fail => some (p.goto t (.loadClosing (.failed w)))
  | .work w, .stop =>
    if p.isStop || (p.closeDone && decide (w.kind = .sender)) then some (p.goto t (.exited w false))
    else none
  | .work w, .message m =>
    if w.kind = .listener then some (p.goto t (afterMessage w m)) else none
  | _, _ => none

def act (p : Protocol) : ProtocolAct → Option Protocol
  | .callClose => some (p.spawn .closeStore)
  | .callReconnect => some (p.spawn (.loadClosing .user))
  | .step t c => p.step t c

end Protocol

def protocolMachine : Machine Protocol ProtocolAct where
  guard p a := (p.act a).isSome = true
  next p a := (p.act a).getD p

abbrev ProtocolStep := Machine.Step Protocol ProtocolAct

instance (p : Protocol) (a : ProtocolAct) : Decidable (protocolMachine.guard p a) :=
  inferInstanceAs (Decidable (_ = true))

/-- The state after a successful `NewClient`: the workers of the first connection are
started and may run. -/
def newClient : Protocol :=
  let p : Protocol := { isStart := true, conn := some 1, latest := 1 }
  ((p.spawn (.waitStart ⟨1, .listener⟩)).spawn (.waitStart ⟨1, .sender⟩)).spawn
    (.waitStart ⟨1, .keepAliveSender⟩)

end UspClient
