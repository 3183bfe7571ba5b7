import UspClient.Lib.Refine
import UspClient.Event.Waiters

/-!
# Events are atomic

What an event is for: a flag that any number of goroutines set, clear, read and wait for, each
call taking effect at one moment between its start and its return. Only a `WaitFor` that finds the
flag unset takes two steps: it begins to wait, and later it is over. The next `Set` signals
everybody who waits, and a signalled call may return `true` however often the flag is cleared after
that.

Every run of the event is a run of the flag with the same calls and the same results.
-/

namespace UspClient

open Function

/-- The visible part of a run. -/
inductive EventCall where
  | call (t : Nat) (op : EventOp)
  | leave (t : Nat) (result : Option Bool)
deriving DecidableEq, Repr

/-! ## The flag -/

inductive FlagPc where
  | idle
  | called (op : EventOp)
  | waiting
  | signalled
  | took (result : Option Bool)
deriving DecidableEq, Repr

@[ext] structure Flag where
  v : Bool := false
  pc : Nat → FlagPc := fun _ => .idle

inductive FlagAct where
  | visible (c : EventCall)
  /-- The call of `t` takes effect. -/
  | effect (t : Nat)
  /-- The timer of `t` fires. -/
  | expire (t : Nat)
deriving DecidableEq, Repr

namespace FlagPc

/-- A waiting call after the flag is set. -/
def signal : FlagPc → FlagPc
  | .waiting => .signalled
  | a => a

end FlagPc

namespace Flag

def goto (f : Flag) (t : Nat) (a : FlagPc) : Flag := { f with pc := update f.pc t a }

def effect (f : Flag) (t : Nat) : Option Flag :=
  match f.pc t with
  | .called .set => some (goto { v := true, pc := fun u => (f.pc u).signal } t (.took none))
  | .called .clear => some (goto { f with v := false } t (.took none))
  | .called .wait => if f.v then some (f.goto t (.took none)) else none
  | .called .waitFor => some (f.goto t (if f.v then .took (some true) else .waiting))
  | .called .isSet => some (f.goto t (.took (some f.v)))
  | .signalled => some (f.goto t (.took (some true)))
  | _ => none

def act (f : Flag) : FlagAct → Option Flag
  | .visible (.call t op) => if f.pc t = .idle then some (f.goto t (.called op)) else none
  | .visible (.leave t result) =>
    if f.pc t = .took result then some (f.goto t .idle) else none
  | .effect t => f.effect t
  | .expire t =>
    if f.pc t = .waiting ∨ f.pc t = .signalled then some (f.goto t (.took (some false))) else none

@[simp] theorem goto_self (f : Flag) (t : Nat) : f.goto t (f.pc t) = f := by simp [goto]

end Flag

def flagMachine : Machine Flag FlagAct where
  guard f a := (f.act a).isSome = true
  next f a := (f.act a).getD f

theorem flagMachine_one {f f' : Flag} {a : FlagAct} (h : f.act a = some f') :
    flagMachine.Enabled f [a] ∧ flagMachine.exec f [a] = f' := by
  have hg : flagMachine.guard f a := by simp [flagMachine, h]
  have hnext : flagMachine.next f a = f' := by simp [flagMachine, h]
  exact ⟨⟨hg, trivial⟩, hnext⟩

def EventAct.shown : EventAct → Option EventCall
  | .call t op => some (.call t op)
  | .leave t result => some (.leave t result)
  | .step _ _ => none

def FlagAct.shown : FlagAct → Option EventCall
  | .visible c => some c
  | _ => none

/-! ## Reading an event as a flag -/

def EventEntry.status : EventEntry → FlagPc
  | .setValue => .called .set
  | .clearValue => .called .clear
  | .waitTest => .called .wait
  | .forTest => .called .waitFor
  | .clean _ result => .took (some result)
  | .readValue => .called .isSet

def EventAccess.status : EventAccess → FlagPc
  | .first a => a.status
  | .condAdd => .called .wait
  | .register => .waiting
  | _ => .took none

/-- `pending` are the waiters no `Set` has found. -/
def EventRest.status (pending : Nat → Bool) : EventRest → FlagPc
  | .leave result => .took result
  | .park => .called .wait
  | .select w => if pending w then .waiting else .signalled

def EventPc.status (pending : Nat → Bool) : EventPc → FlagPc
  | .idle => .idle
  | .lock a => a.status
  | .hold a => a.status
  | .unlock k => k.status pending
  | .free k => k.status pending

theorem EventPc.status_congr {p q : Nat → Bool} {a : EventPc}
    (h : ∀ w, a.awaits = some w → p w = q w) : a.status p = a.status q := by
  rcases a with _ | _ | _ | k | k
  · rfl
  · rfl
  · rfl
  all_goals
    cases k with
    | leave => rfl
    | park => rfl
    | select w => simp only [EventPc.status, EventRest.status, h w rfl]

namespace Event

variable {e d : Event} {t : Nat}

/-- In the list, and no `Set` is telling the list. -/
def pending (e : Event) (w : Nat) : Bool := decide (w ∈ e.waiters) && !e.holder.setting

def flag (e : Event) : Flag where
  v := e.v
  pc u := (e.pc u).status e.pending

/-- The effects of a step: the value is read or stored, or the `select` is decided. -/
def effects (e : Event) : EventAct → List FlagAct
  | .call t op => [.visible (.call t op)]
  | .leave t result => [.visible (.leave t result)]
  | .step t choice =>
    match e.pc t, choice with
    | .hold (.first .waitTest), _ => if e.v then [.effect t] else []
    | .hold (.first (.clean _ _)), _ => []
    | .hold (.first _), _ => [.effect t]
    | .free (.select _), .received => [.effect t]
    | .free (.select _), .timeout => [.expire t]
    | _, _ => []

theorem pending_congr (hwaiters : d.waiters = e.waiters)
    (hsetting : d.holder.setting = e.holder.setting) : d.pending = e.pending := by
  funext w
  rw [pending, pending, hwaiters, hsetting]

theorem pending_of_setting (h : e.holder.setting = true) (w : Nat) : e.pending w = false := by
  rw [pending, h, Bool.not_true, Bool.and_false]

/-- One goroutine moves on; the others find the same waiters pending. -/
theorem flag_goto {b : EventPc} (hpc : d.pc = update e.pc t b)
    (hpending : ∀ u w, u ≠ t → (e.pc u).awaits = some w → d.pending w = e.pending w) :
    d.flag = Flag.goto { e.flag with v := d.v } t (b.status d.pending) := by
  refine Flag.ext rfl (funext fun u => ?_)
  simp only [flag, Flag.goto, hpc, update_apply]
  split
  next => rfl
  next hne => exact EventPc.status_congr fun w hw => hpending u w hne hw

/-- A step nobody can see. -/
theorem flag_stutter {b : EventPc} (hpc : d.pc = update e.pc t b) (hv : d.v = e.v)
    (hpending : ∀ u w, u ≠ t → (e.pc u).awaits = some w → d.pending w = e.pending w)
    (hstatus : b.status d.pending = (e.pc t).status e.pending) : d.flag = e.flag := by
  rw [flag_goto hpc hpending, hstatus, hv]
  exact e.flag.goto_self t

theorem flag_pc (e : Event) (t : Nat) : e.flag.pc t = (e.pc t).status e.pending := rfl

/-! ## Steps under the mutex -/

section Access

variable {a : EventAccess} {x : EventEntry} {w : Nat} {rest : List Nat}

/-- Nobody but the holder is under the mutex. -/
theorem Inv.others (h : Inv e) (hpc : e.pc t = .hold a) {u : Nat} (hu : u ≠ t) :
    (e.pc u).holds = false := by
  refine Bool.eq_false_of_not_eq_true fun hholds => hu ?_
  have hm := (h.mutex u).1 hholds
  rw [(h.holder_hold hpc).1] at hm
  exact (Option.some.inj hm).symm

/-- `Set` stores the value: everybody who waits is signalled. -/
theorem Inv.flag_set (h : Inv e) (hpc : e.pc t = .hold (.first .setValue)) :
    e.flag.effect t = some (e.enter t .setValue).flag := by
  rcases h.holder_hold hpc with ⟨hm, hbefore⟩
  have hafter : (e.enter t .setValue).holder = .hold .broadcast := by
    rw [Event.enter, holder_goto]; exact if_pos hm
  have hnone : ∀ w, (e.enter t .setValue).pending w = false :=
    pending_of_setting (by rw [hafter]; rfl)
  have hstatus : e.flag.pc t = .called .set := by rw [flag_pc, hpc]; rfl
  rw [Flag.effect, hstatus]
  refine congrArg some (Flag.ext rfl (funext fun u => ?_))
  by_cases hu : u = t
  · subst hu
    simp [Flag.goto, flag, Event.enter, EventPc.status, EventAccess.status]
  · have hout := h.others hpc hu
    have hsame : (e.enter t .setValue).pc u = e.pc u := by simp [Event.enter, hu]
    simp only [Flag.goto, flag, update_of_ne hu, hsame]
    cases hpcu : e.pc u with
    | idle => rfl
    | lock y => cases y <;> rfl
    | hold | unlock => rw [hpcu] at hout; cases hout
    | free k =>
      cases k with
      | leave => rfl
      | park => rfl
      | select w =>
        simp only [EventPc.status, EventRest.status, hnone]
        split <;> rfl

/-- The holder stores to the value, outside `Set`. -/
theorem Inv.flag_store (h : Inv e) (b : EventPc) (v : Bool) (hpc : e.pc t = .hold a)
    (ha : a.setting = false) (hb : b.setting = false) :
    (goto { e with v := v } t b).flag = Flag.goto ⟨v, e.flag.pc⟩ t (b.status e.pending) := by
  rcases h.holder_hold hpc with ⟨hm, hbefore⟩
  have hafter : (goto { e with v := v } t b).holder = b := by
    rw [holder_goto]; exact if_pos hm
  have hpending : (goto { e with v := v } t b).pending = e.pending :=
    pending_congr rfl (by rw [hafter, hbefore, hb]; exact ha.symm)
  rw [flag_goto (e := e) (d := goto { e with v := v } t b) rfl fun u w _ _ => by rw [hpending],
    hpending]
  rfl

theorem Inv.flag_test (h : Inv e) (b : EventPc) (hpc : e.pc t = .hold a)
    (ha : a.setting = false) (hb : b.setting = false) :
    (e.goto t b).flag = e.flag.goto t (b.status e.pending) :=
  h.flag_store b e.v hpc ha hb

/-- The deferred function takes its own channel out of the list; nobody else has that one. -/
theorem Inv.flag_clean (h : Inv e) {result : Bool} (hpc : e.pc t = .hold (.first (.clean w result))) :
    (e.enter t (.clean w result)).flag = e.flag := by
  rcases h.holder_hold hpc with ⟨hm, hbefore⟩
  have hafter : (e.enter t (.clean w result)).holder = .unlock (.leave (some result)) := by
    rw [Event.enter, holder_goto]; exact if_pos hm
  refine flag_stutter (t := t) rfl rfl (fun u y hu hy => ?_) (by rw [hpc]; rfl)
  have hne : y ≠ w := fun heq => hu <| h.own u t w (heq ▸ EventPc.chan_of_awaits hy) (by rw [hpc]; rfl)
  have hmem : y ∈ (e.enter t (.clean w result)).waiters ↔ y ∈ e.waiters := by
    simp only [Event.enter, goto, mem_cleanWaiters h.nodup]
    exact and_iff_right hne
  rw [pending, pending, hafter, hbefore, decide_eq_decide.2 hmem]
  rfl

/-- The first access of a call under the mutex is its effect, unless it has to wait. -/
theorem Inv.flag_enter (h : Inv e) (hpc : e.pc t = .hold (.first x)) (choice : EventChoice) :
    flagMachine.Enabled e.flag (e.effects (.step t choice)) ∧
      flagMachine.exec e.flag (e.effects (.step t choice)) = (e.enter t x).flag := by
  have hstatus : e.flag.pc t = x.status := by rw [flag_pc, hpc]; rfl
  cases x with
  | setValue =>
    simp only [effects, hpc]
    exact flagMachine_one (h.flag_set hpc)
  | clearValue =>
    simp only [effects, hpc]
    refine flagMachine_one ?_
    simp only [Flag.act, Flag.effect, hstatus, EventEntry.status]
    exact congrArg some (h.flag_store (.unlock (.leave none)) false hpc rfl rfl).symm
  | readValue =>
    simp only [effects, hpc]
    refine flagMachine_one ?_
    simp only [Flag.act, Flag.effect, hstatus, EventEntry.status]
    exact congrArg some (h.flag_test (.unlock (.leave (some e.v))) hpc rfl rfl).symm
  | forTest =>
    simp only [effects, hpc]
    refine flagMachine_one ?_
    simp only [Flag.act, Flag.effect, hstatus, EventEntry.status, Event.enter]
    refine congrArg some (Eq.symm ?_)
    show _ = e.flag.goto t (if e.v = true then _ else _)
    split
    next => exact h.flag_test _ hpc rfl rfl
    next => exact h.flag_test _ hpc rfl rfl
  | waitTest =>
    simp only [effects, hpc, Event.enter]
    split
    next hv =>
      have hfv : e.flag.v = true := hv
      refine flagMachine_one ?_
      simp only [Flag.act, Flag.effect, hstatus, EventEntry.status, if_pos hfv]
      exact congrArg some (h.flag_test (.unlock (.leave none)) hpc rfl rfl).symm
    next =>
      -- the call parks: it has not taken effect
      refine ⟨trivial, ?_⟩
      rw [h.flag_test _ hpc rfl rfl]
      exact (hstatus ▸ e.flag.goto_self t).symm
  | clean w result =>
    simp only [effects, hpc]
    exact ⟨trivial, (h.flag_clean hpc).symm⟩

/-- Inside `Set`, once the value is stored, nobody is pending; the loop is invisible. -/
theorem Inv.flag_tell (h : Inv e) {b : EventPc} (hpc : e.pc t = .hold a)
    (hpc' : d.pc = update e.pc t b) (hv : d.v = e.v) (ha : a.setting = true)
    (hnone : ∀ w, d.pending w = false) (hb : b.status d.pending = .took none) :
    d.flag = e.flag := by
  have hstatus : a.status = .took none := by
    cases a <;> first | rfl | cases ha
  refine flag_stutter hpc' hv (fun u w _ _ => ?_) (by rw [hpc, hb]; exact hstatus.symm)
  have hsetting : e.holder.setting = true := by rw [(h.holder_hold hpc).2]; exact ha
  rw [hnone w, pending_of_setting hsetting]

theorem pending_of_nil (h : e.waiters = []) (w : Nat) : e.pending w = false := by
  simp [pending, h]

/-- After its first access the holder does nothing that anybody can see. -/
theorem Inv.flag_access (h : Inv e) (hpc : e.pc t = .hold a) (ha : e.access t a = some d)
    (hfirst : ∀ x, a ≠ .first x) : d.flag = e.flag := by
  rcases h.holder_hold hpc with ⟨hm, hbefore⟩
  have hholder : ∀ b, d.pc = update e.pc t b → d.m = e.m → d.holder = b := by
    intro b hpc' hm'
    simp [holder, hm', hm, hpc']
  have hset : ∀ b, d.pc = update e.pc t b → d.m = e.m → b.setting = true →
      ∀ w, d.pending w = false := by
    intro b hpc' hm' hb
    exact pending_of_setting (by rw [hholder b hpc' hm']; exact hb)
  cases a with
  | first x => exact absurd rfl (hfirst x)
  | broadcast =>
    cases ha
    exact h.flag_tell hpc rfl rfl rfl (hset _ rfl rfl rfl) rfl
  | checkWaiters =>
    cases ha
    by_cases hlen : e.waiters.length ≠ 0
    · rw [if_pos hlen] at hset ⊢
      exact h.flag_tell hpc rfl rfl rfl (hset _ rfl rfl rfl) rfl
    · rw [if_neg hlen]
      exact h.flag_tell hpc rfl rfl rfl
        (pending_of_nil (List.eq_nil_of_length_eq_zero (not_not.1 hlen))) rfl
  | send rest =>
    cases rest with
    | nil =>
      cases ha
      exact h.flag_tell hpc rfl rfl rfl (hset _ rfl rfl rfl) rfl
    | cons w rest =>
      have hempty : e.chans w = {} := h.empty w (by rw [hbefore]; exact List.mem_cons_self)
      simp only [Event.access, Event.send, hempty, Bool.false_eq_true, if_false] at ha
      cases ha
      exact h.flag_tell hpc rfl rfl rfl (hset _ rfl rfl rfl) rfl
  | close w rest =>
    have hopen := (h.closing w rest hbefore).1
    simp only [Event.access, Event.close, hopen, Bool.false_eq_true, if_false] at ha
    cases ha
    exact h.flag_tell hpc rfl rfl rfl (hset _ rfl rfl rfl) rfl
  | dropWaiters =>
    cases ha
    exact h.flag_tell hpc rfl rfl rfl (pending_of_nil rfl) rfl
  | condAdd =>
    cases ha
    refine flag_stutter (t := t) rfl rfl (fun u w _ _ => ?_) (by rw [hpc]; rfl)
    have hpending := pending_congr (e := e) (d := goto { e with c := t :: e.c } t (.unlock .park))
      rfl (by rw [hholder _ rfl rfl, hbefore]; rfl)
    rw [hpending]
  | register =>
    cases ha
    have hafter := hholder _ rfl rfl
    -- the new channel is pending, and nobody else's
    refine flag_stutter (t := t) rfl rfl (fun u w hu hw => ?_) ?_
    · have hlt := h.made u w (EventPc.chan_of_awaits hw)
      have hmem : w ∈ e.waiters ++ [e.made] ↔ w ∈ e.waiters := by simp [hlt.ne]
      simp only [pending, hafter, hbefore]
      exact congrArg₂ _ (decide_eq_decide.2 hmem) rfl
    · have hpend : (goto { e with waiters := e.waiters ++ [e.made], made := e.made + 1 } t
          (.unlock (.select e.made))).pending e.made = true := by
        simp only [pending, hafter]
        simp [goto, EventPc.setting]
      rw [hpc]
      simp only [EventPc.status, EventRest.status, hpend, if_true]
      rfl

end Access

/-! ## Every step -/

/-- A waiter that can receive has been signalled. -/
theorem Inv.not_pending (h : Inv e) {w : Nat}
    (hready : (e.chans w).full = true ∨ (e.chans w).closed = true) : e.pending w = false := by
  refine Bool.eq_false_of_not_eq_true fun hp => ?_
  simp only [pending, Bool.and_eq_true, decide_eq_true_eq, Bool.not_eq_true'] at hp
  have hunsent : e.holder.unsent e.waiters = e.waiters := by
    cases hh : e.holder with
    | hold a =>
      rw [hh] at hp
      cases a <;> first | rfl | cases hp.2
    | idle | lock | unlock | free => rfl
  exact h.not_unsent hready (hunsent.symm ▸ hp.1)

/-- A goroutine without the mutex moves on. -/
theorem Inv.flag_outside (h : Inv e) (b : EventPc) (hpc : (e.pc t).holds = false) :
    (e.goto t b).flag = e.flag.goto t (b.status e.pending) := by
  have hpending : (e.goto t b).pending = e.pending :=
    pending_congr rfl (by rw [h.holder_outside hpc])
  rw [flag_goto (e := e) (d := e.goto t b) rfl fun u w _ _ => by rw [hpending], hpending]
  rfl

/-- The mutex is taken or released. -/
theorem flag_mutex (m : Option Nat) (b : EventPc)
    (hsetting : (goto { e with m := m } t b).holder.setting = e.holder.setting)
    (hstatus : b.status e.pending = (e.pc t).status e.pending) :
    (goto { e with m := m } t b).flag = e.flag := by
  have hpending := pending_congr (e := e) (d := goto { e with m := m } t b) rfl hsetting
  exact flag_stutter rfl rfl (fun u w _ _ => by rw [hpending]) (by rw [hpending]; exact hstatus)

/-- Every action on the event is an action on the flag, or invisible. -/
theorem Inv.flag_move (h : Inv e) {x : EventAct} (hmove : Move e x d) :
    flagMachine.Enabled e.flag (e.effects x) ∧
      flagMachine.exec e.flag (e.effects x) = d.flag := by
  cases hmove with
  | @call t op hpc =>
    refine flagMachine_one ?_
    have hidle : e.flag.pc t = .idle := by rw [flag_pc, hpc]; rfl
    simp only [Flag.act, if_pos hidle]
    rw [h.flag_outside _ (by rw [hpc]; rfl)]
    cases op <;> rfl
  | @leave t result hpc =>
    refine flagMachine_one ?_
    have htook : e.flag.pc t = .took result := by rw [flag_pc, hpc]; rfl
    simp only [Flag.act, if_pos htook]
    exact congrArg some (h.flag_outside .idle (by rw [hpc]; rfl)).symm
  | @lock t a hpc hm =>
    simp only [effects, hpc]
    have hbefore : e.holder = .idle := by simp [holder, hm]
    refine ⟨trivial, (flag_mutex (some t) (.hold (.first a)) ?_ (by rw [hpc]; rfl)).symm⟩
    rw [holder_goto, if_pos rfl, hbefore]
    rfl
  | @unlock t k hpc =>
    simp only [effects, hpc]
    have hbefore : e.holder = .unlock k := (h.holder_eq (by rw [hpc]; rfl)).trans hpc
    refine ⟨trivial, (flag_mutex none (.free k) ?_ (by rw [hpc]; rfl)).symm⟩
    rw [hbefore]
    rfl
  | @access t a _ hpc ha =>
    cases a with
    | first x => cases ha; exact h.flag_enter hpc .go
    | _ =>
      have hflag := h.flag_access hpc ha fun _ => EventAccess.noConfusion
      simp only [effects, hpc]
      exact ⟨trivial, hflag.symm⟩
  | @unpark t hpc hc =>
    simp only [effects, hpc]
    refine ⟨trivial, ?_⟩
    rw [h.flag_outside _ (by rw [hpc]; rfl)]
    have hstatus : e.flag.pc t = .called .wait := by rw [flag_pc, hpc]; rfl
    exact (hstatus ▸ e.flag.goto_self t).symm
  | @receive t w hpc hready =>
    simp only [effects, hpc]
    have hstatus : e.flag.pc t = .signalled := by
      rw [flag_pc, hpc]
      simp only [EventPc.status, EventRest.status, h.not_pending hready, Bool.false_eq_true, if_false]
    refine flagMachine_one ?_
    simp only [Flag.act, Flag.effect, hstatus]
    exact congrArg some (h.flag_outside (.lock (.clean w true)) (by rw [hpc]; rfl)).symm
  | @timeout t w hpc =>
    simp only [effects, hpc]
    have hwait : e.flag.pc t = .waiting ∨ e.flag.pc t = .signalled := by
      rw [flag_pc, hpc]
      simp only [EventPc.status, EventRest.status]
      split
      next => exact .inl rfl
      next => exact .inr rfl
    refine flagMachine_one ?_
    simp only [Flag.act, if_pos hwait]
    exact congrArg some (h.flag_outside (.lock (.clean w false)) (by rw [hpc]; rfl)).symm

/-- The refinement of the flag by the event. -/
def refinement : Machine.Refinement eventMachine flagMachine Inv where
  abs := flag
  acts := effects
  enabled e x hg h := by
    rcases Option.isSome_iff_exists.1 hg with ⟨d, hact⟩
    exact (h.flag_move (act_move hact)).1
  exec e x hg h := by
    rcases Option.isSome_iff_exists.1 hg with ⟨d, hact⟩
    have hnext : eventMachine.next e x = d := by simp [eventMachine, hact]
    rw [hnext]
    exact (h.flag_move (act_move hact)).2

theorem shown_effects (e : Event) (x : EventAct) :
    (e.effects x).filterMap FlagAct.shown = x.shown.toList := by
  cases x with
  | call => rfl
  | leave => rfl
  | step t choice =>
    simp only [effects]
    split
    next => split <;> rfl
    all_goals rfl

/-- Every run of the goroutines on an event is a run of the atomic flag: the same calls and
results in the same order, with every call taking effect in between, in one step, or in two if it
is a `WaitFor` that finds the flag unset: it begins to wait, and it is signalled or expires. -/
theorem runs_are_atomic {tr : List (Machine.Step Event EventAct)}
    (hrun : eventMachine.Run newEvent tr e) :
    ∃ fs, flagMachine.Enabled {} fs ∧ flagMachine.exec {} fs = e.flag ∧
      fs.filterMap FlagAct.shown = tr.filterMap fun st => st.act.shown := by
  have hinv := hrun.invariant_pre Inv newEvent_inv fun _ _ hg h => h.next hg
  rcases refinement.run hrun hinv with ⟨hen, hex⟩
  refine ⟨refinement.image tr, hen, hex, ?_⟩
  exact refinement.filterMap_image fun st _ => shown_effects st.pre st.act

/-- Goroutine 1 waits; goroutine 0 sets the event and clears it before 1 looks. -/
def setAndCleared : List EventAct :=
  [.call 1 .waitFor, .step 1 .go, .step 1 .go, .step 1 .go, .step 1 .go, .call 0 .set, .step 0 .go,
    .step 0 .go, .step 0 .go, .step 0 .go, .step 0 .go, .step 0 .go, .step 0 .go, .step 0 .go,
    .step 0 .go, .leave 0 none, .call 0 .clear, .step 0 .go, .step 0 .go, .step 0 .go,
    .leave 0 none, .step 1 .received, .step 1 .go, .step 1 .go, .step 1 .go, .leave 1 (some true)]

theorem setAndCleared_is_atomic :
    ∃ fs, flagMachine.Enabled {} fs ∧
      flagMachine.exec {} fs = (eventMachine.exec newEvent setAndCleared).flag ∧
      fs.filterMap FlagAct.shown = [.call 1 .waitFor, .call 0 .set, .leave 0 none, .call 0 .clear,
        .leave 0 none, .leave 1 (some true)] :=
  runs_are_atomic (Machine.run_exec setAndCleared (by decide +kernel))

/-! ## Nobody is left waiting -/

/-- In every reachable state: nothing has panicked; the goroutine that holds the mutex can go
on, so `Set` never blocks on a waiter; once the event is set and the mutex is free, everybody
who waits can go on; and a channel in the list belongs to a call of `WaitFor` that has not
returned. -/
theorem no_wakeup_is_lost {tr : List (Machine.Step Event EventAct)}
    (hrun : eventMachine.Run newEvent tr e) :
    e.panicked = false ∧
      (∀ t, e.m = some t → (e.step t .go).isSome) ∧
      (e.v = true → e.m = none → ∀ t,
        (e.pc t = .free .park → (e.step t .go).isSome) ∧
        ∀ w, e.pc t = .free (.select w) → (e.step t .received).isSome) ∧
      e.waiters.Nodup ∧ ∀ w ∈ e.waiters, ∃ t, (e.pc t).chan = some w := by
  have h := run_inv hrun
  refine ⟨h.quiet, ?_, ?_, h.nodup, h.owned⟩
  · intro t hm
    have hholds := (h.mutex t).2 hm
    cases hpc : e.pc t with
    | hold a =>
      rcases h.access hpc with ⟨d, ha, _⟩
      simp [step, hpc, ha]
    | unlock k => simp [step, hpc]
    | idle | lock | free => rw [hpc] at hholds; cases hholds
  · intro hv hm t
    have hidle : e.holder = .idle := by simp [holder, hm]
    rcases h.calm (by rw [hidle]; rfl) hv with ⟨hc, hnil⟩
    constructor
    · intro hpc
      simp [step, hpc, hc]
    · intro w hpc
      have hready := h.ready t w (by rw [hpc]; rfl) (by rw [hidle, hnil]; exact List.not_mem_nil)
      rcases hready with hfull | hclosed
      · simp [step, hpc, select, hfull]
      · simp only [step, hpc, select, hclosed]
        split <;> rfl

/-- Goroutine 1 is registered when goroutine 0 sets the event and returns. -/
theorem waiter_can_receive :
    ((eventMachine.exec newEvent (setAndCleared.take 15)).step 1 .received).isSome = true := by
  have hen : eventMachine.Enabled newEvent (setAndCleared.take 15) := by decide +kernel
  have hrun := Machine.run_exec _ hen
  rcases no_wakeup_is_lost hrun with ⟨_, _, hwake, _⟩
  exact (hwake (by decide +kernel) (by decide +kernel) 1).2 0 (by decide +kernel)

end Event

end UspClient
