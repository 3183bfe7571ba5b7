import UspClient.Lib.Machine

/-!
# Events (event.go)

Any number of goroutines that call `Set`, `Clear`, `Wait`, `WaitFor` and `IsSet` on one event.
Every access to the mutex, the value, the condition variable, the waiter list and a waiter's
channel is a step, so a run is an arbitrary interleaving. `Set` holds the mutex while it sends
to the waiters one by one; a waiter takes its message, or gives up, without the mutex.

Channels are numbered in the order in which they are made. `sync.Cond` is its list of parked
goroutines: `Wait` enters it before it releases the mutex and `Broadcast` empties it. The timer
of `WaitFor` is the environment, so it may fire in any state. A send to or a close of a closed
channel panics.
-/

namespace UspClient

inductive EventOp where
  | set
  | clear
  | wait
  | waitFor
  | isSet
deriving DecidableEq, Repr

/-- A channel of capacity one. -/
structure WaitChan where
  full : Bool := false
  closed : Bool := false
deriving DecidableEq, Repr

/-- What a goroutine does first under the mutex. -/
inductive EventEntry where
  | setValue
  | clearValue
  | waitTest
  | forTest
  /-- The function that `WaitFor` defers. -/
  | clean (w : Nat) (result : Bool)
  | readValue
deriving DecidableEq, Repr

/-- What a goroutine does next under the mutex. -/
inductive EventAccess where
  | first (a : EventEntry)
  -- Set
  | broadcast
  | checkWaiters
  /-- The loop over the waiters; `rest` is what it has not reached. -/
  | send (rest : List Nat)
  | close (w : Nat) (rest : List Nat)
  | dropWaiters
  -- Wait
  | condAdd
  -- WaitFor
  | register
deriving DecidableEq, Repr

/-- What a goroutine does once it has released the mutex. -/
inductive EventRest where
  /-- Return from the call; `Set`, `Clear` and `Wait` return nothing. -/
  | leave (result : Option Bool)
  | park
  | select (w : Nat)
deriving DecidableEq, Repr

inductive EventPc where
  | idle
  | lock (a : EventEntry)
  | hold (a : EventAccess)
  | unlock (k : EventRest)
  | free (k : EventRest)
deriving DecidableEq, Repr

/-- The environment's part of a step. -/
inductive EventChoice where
  | go
  | received
  | timeout
deriving DecidableEq, Repr

structure Event where
  m : Option Nat := none
  v : Bool := false
  waiters : List Nat := []
  /-- The goroutines parked on `c`. -/
  c : List Nat := []
  chans : Nat → WaitChan := fun _ => {}
  /-- The channels made so far. -/
  made : Nat := 0
  pc : Nat → EventPc := fun _ => .idle
  panicked : Bool := false

inductive EventAct where
  | call (t : Nat) (op : EventOp)
  | step (t : Nat) (choice : EventChoice)
  | leave (t : Nat) (result : Option Bool)
deriving DecidableEq, Repr

/-- Swap the entry with the last one and cut that off. -/
def removeWaiter (s : List Nat) (i : Nat) : List Nat :=
  ((s.set (s.length - 1) (s.getD i 0)).set i (s.getD (s.length - 1) 0)).take (s.length - 1)

/-- The loop of the deferred function: remove the first entry that is `w`. -/
def cleanWaiters (s : List Nat) (w : Nat) : List Nat :=
  if s.idxOf w < s.length then removeWaiter s (s.idxOf w) else s

namespace EventOp

/-- The first thing an operation does under the mutex. -/
def start : EventOp → EventEntry
  | .set => .setValue
  | .clear => .clearValue
  | .wait => .waitTest
  | .waitFor => .forTest
  | .isSet => .readValue

end EventOp

namespace Event

def goto (e : Event) (t : Nat) (a : EventPc) : Event := { e with pc := Function.update e.pc t a }

def setChan (e : Event) (w : Nat) (ch : WaitChan) : Event :=
  { e with chans := Function.update e.chans w ch }

/-- `w <- struct{}{}` -/
def send (e : Event) (t w : Nat) (rest : List Nat) : Option Event :=
  if (e.chans w).closed then some { e with panicked := true }
  else if (e.chans w).full then none
  else some ((e.setChan w { e.chans w with full := true }).goto t (.hold (.close w rest)))

/-- `close(w)` -/
def close (e : Event) (t w : Nat) (rest : List Nat) : Event :=
  if (e.chans w).closed then { e with panicked := true }
  else (e.setChan w { e.chans w with closed := true }).goto t (.hold (.send rest))

/-- The first access under the mutex. -/
def enter (e : Event) (t : Nat) : EventEntry → Event
  | .setValue => goto { e with v := true } t (.hold .broadcast)
  -- a value that is false already is left alone, which is the same
  | .clearValue => goto { e with v := false } t (.unlock (.leave none))
  | .waitTest => e.goto t (if e.v then .unlock (.leave none) else .hold .condAdd)
  | .forTest => e.goto t (if e.v then .unlock (.leave (some true)) else .hold .register)
  | .clean w result =>
    goto { e with waiters := cleanWaiters e.waiters w } t (.unlock (.leave (some result)))
  | .readValue => e.goto t (.unlock (.leave (some e.v)))

/-- One access under the mutex. -/
def access (e : Event) (t : Nat) : EventAccess → Option Event
  | .first a => some (e.enter t a)
  | .broadcast => some (goto { e with c := [] } t (.hold .checkWaiters))
  | .checkWaiters =>
    some (e.goto t (if e.waiters.length ≠ 0 then .hold (.send e.waiters) else .unlock (.leave none)))
  | .send [] => some (e.goto t (.hold .dropWaiters))
  | .send (w :: rest) => e.send t w rest
  | .close w rest => some (e.close t w rest)
  | .dropWaiters => some (goto { e with waiters := [] } t (.unlock (.leave none)))
  | .condAdd => some (goto { e with c := t :: e.c } t (.unlock .park))
  | .register =>
    some (goto { e with waiters := e.waiters ++ [e.made], made := e.made + 1 } t
      (.unlock (.select e.made)))

/-- The two cases of the `select` of `WaitFor`. A receive takes the message, or finds the
channel closed. -/
def select (e : Event) (t w : Nat) : EventChoice → Option Event
  | .received =>
    if (e.chans w).full then
      some ((e.setChan w { e.chans w with full := false }).goto t (.lock (.clean w true)))
    else if (e.chans w).closed then some (e.goto t (.lock (.clean w true)))
    else none
  | .timeout => some (e.goto t (.lock (.clean w false)))
  | .go => none

/-- One access of goroutine `t`, if it can make it. -/
def step (e : Event) (t : Nat) (choice : EventChoice) : Option Event :=
  match e.pc t, choice with
  | .lock a, .go => if e.m = none then some (goto { e with m := some t } t (.hold (.first a))) else none
  | .hold a, .go => e.access t a
  | .unlock k, .go => some (goto { e with m := none } t (.free k))
  | .free .park, .go => if t ∈ e.c then none else some (e.goto t (.lock .waitTest))
  | .free (.select w), choice => e.select t w choice
  | _, _ => none

/-- Calls and returns are visible; a goroutine makes one call at a time. -/
def act (e : Event) : EventAct → Option Event
  | .call t op => if e.pc t = .idle then some (e.goto t (.lock op.start)) else none
  | .step t choice => e.step t choice
  | .leave t result =>
    if e.pc t = .free (.leave result) then some (e.goto t .idle) else none

end Event

def eventMachine : Machine Event EventAct where
  guard e a := (e.act a).isSome = true
  next e a := (e.act a).getD e

instance (e : Event) (a : EventAct) : Decidable (eventMachine.guard e a) :=
  inferInstanceAs (Decidable (_ = true))

/-- `NewEvent` -/
def newEvent : Event := {}

/-! ## The waiter list -/

theorem removeWaiter_perm (A B : List Nat) (x : Nat) :
    (removeWaiter (A ++ x :: B) A.length).Perm (A ++ B) := by
  rcases List.eq_nil_or_concat B with rfl | ⟨B', y, rfl⟩
  · -- the entry is the last one
    simp [removeWaiter]
  · have hlen : (A ++ x :: (B' ++ [y])).length - 1 = A.length + B'.length + 1 := by simp; omega
    have hswap : removeWaiter (A ++ x :: (B' ++ [y])) A.length = A ++ y :: B' := by
      simp only [removeWaiter, hlen]
      simp [List.take_append, Nat.add_assoc]
    rw [List.concat_eq_append, hswap]
    exact List.Perm.append_left A (List.perm_append_singleton y B').symm

theorem cleanWaiters_perm (s : List Nat) (w : Nat) : (cleanWaiters s w).Perm (s.erase w) := by
  by_cases hw : w ∈ s
  · rcases List.eq_append_cons_of_mem hw with ⟨A, B, rfl, hA⟩
    have hidx : (A ++ w :: B).idxOf w = A.length := by
      rw [List.idxOf_append_of_notMem hA, List.idxOf_cons_self, Nat.add_zero]
    have hlt : A.length < (A ++ w :: B).length := by simp
    rw [cleanWaiters, hidx, if_pos hlt, List.erase_append_right _ hA, List.erase_cons_head]
    exact removeWaiter_perm A B w
  · have hidx : ¬s.idxOf w < s.length := by simpa [List.idxOf_lt_length_iff] using hw
    rw [cleanWaiters, if_neg hidx, List.erase_of_not_mem hw]

theorem nodup_cleanWaiters {s : List Nat} (h : s.Nodup) (w : Nat) : (cleanWaiters s w).Nodup :=
  (cleanWaiters_perm s w).nodup_iff.2 (h.erase w)

theorem mem_cleanWaiters {s : List Nat} (h : s.Nodup) {w x : Nat} :
    x ∈ cleanWaiters s w ↔ x ≠ w ∧ x ∈ s := by
  rw [(cleanWaiters_perm s w).mem_iff, h.mem_erase_iff]

end UspClient
