import UspClient.Event.Model

/-!
# Who waits on an event, and who is told

The invariant of every run of an event. The mutex has one holder, and only the holder is
between its `Lock` and its `Unlock`. Every channel belongs to the one call of `WaitFor` that made
it. A channel in the waiter list is empty and open until the loop of `Set` reaches it, and a
waiter whose channel the loop has passed can receive. While nobody is inside `Set`, a set
event has no waiter and no parked goroutine.
-/

namespace UspClient

open Function

def EventEntry.chan : EventEntry → Option Nat
  | .clean w _ => some w
  | _ => none

namespace EventAccess

def chan : EventAccess → Option Nat
  | .first a => a.chan
  | _ => none

/-- Inside `Set`, from the store on and until the waiter list is dropped. -/
def setting : EventAccess → Bool
  | .first _ => false
  | .condAdd => false
  | .register => false
  | _ => true

/-- The waiters that are not told yet. -/
def unsent (waiters : List Nat) : EventAccess → List Nat
  | .send rest => rest
  | .close _ rest => rest
  | .dropWaiters => []
  | _ => waiters

/-- The event was found unset and the mutex is still held. -/
def unset : EventAccess → Bool
  | .condAdd => true
  | .register => true
  | _ => false

end EventAccess

def EventRest.chan : EventRest → Option Nat
  | .select w => some w
  | _ => none

namespace EventPc

/-- Between `Lock` and `Unlock`. -/
def holds : EventPc → Bool
  | .hold _ => true
  | .unlock _ => true
  | _ => false

/-- The channel the goroutine waits on. -/
def awaits : EventPc → Option Nat
  | .unlock k => k.chan
  | .free k => k.chan
  | _ => none

/-- The channel of the goroutine's call of `WaitFor`. -/
def chan : EventPc → Option Nat
  | .idle => none
  | .lock a => a.chan
  | .hold a => a.chan
  | .unlock k => k.chan
  | .free k => k.chan

def setting : EventPc → Bool
  | .hold a => a.setting
  | _ => false

def unset : EventPc → Bool
  | .hold a => a.unset
  | _ => false

def unsent (waiters : List Nat) : EventPc → List Nat
  | .hold a => a.unsent waiters
  | _ => waiters

theorem chan_of_awaits {a : EventPc} {w : Nat} (h : a.awaits = some w) : a.chan = some w := by
  cases a with
  | idle | lock | hold => cases h
  | unlock => exact h
  | free => exact h

end EventPc

namespace Event

variable {e : Event} {t : Nat}

/-- The program counter of the goroutine that holds the mutex. -/
def holder (e : Event) : EventPc := e.m.elim .idle e.pc

@[simp] theorem pc_goto (e : Event) (t : Nat) (a : EventPc) (u : Nat) :
    (e.goto t a).pc u = if u = t then a else e.pc u := update_apply _ _ _ _

theorem holder_goto (e : Event) (t : Nat) (a : EventPc) :
    (e.goto t a).holder = if e.m = some t then a else e.holder := by
  unfold holder
  rcases hm : e.m with _ | u
  · simp [goto, hm]
  · simp [goto, hm, update_apply]

/-! ## Steps -/

/-- What an action can do. -/
inductive Move (e : Event) : EventAct → Event → Prop where
  | call {t : Nat} {op : EventOp} (hpc : e.pc t = .idle) :
      Move e (.call t op) (e.goto t (.lock op.start))
  | leave {t : Nat} {b : Option Bool} (hpc : e.pc t = .free (.leave b)) :
      Move e (.leave t b) (e.goto t .idle)
  | lock {t : Nat} {a : EventEntry} (hpc : e.pc t = .lock a) (hm : e.m = none) :
      Move e (.step t .go) (goto { e with m := some t } t (.hold (.first a)))
  | unlock {t : Nat} {k : EventRest} (hpc : e.pc t = .unlock k) :
      Move e (.step t .go) (goto { e with m := none } t (.free k))
  | access {t : Nat} {a : EventAccess} {d : Event} (hpc : e.pc t = .hold a)
      (h : e.access t a = some d) : Move e (.step t .go) d
  | unpark {t : Nat} (hpc : e.pc t = .free .park) (hc : t ∉ e.c) :
      Move e (.step t .go) (e.goto t (.lock .waitTest))
  | receive {t w : Nat} (hpc : e.pc t = .free (.select w))
      (hready : (e.chans w).full = true ∨ (e.chans w).closed = true) : Move e (.step t .received)
        ((e.setChan w { e.chans w with full := false }).goto t (.lock (.clean w true)))
  | timeout {t w : Nat} (hpc : e.pc t = .free (.select w)) :
      Move e (.step t .timeout) (e.goto t (.lock (.clean w false)))

theorem setChan_self (e : Event) (w : Nat) : e.setChan w (e.chans w) = e := by
  simp [setChan]

theorem select_move {w : Nat} {choice : EventChoice} {d : Event}
    (hpc : e.pc t = .free (.select w)) (h : e.select t w choice = some d) :
    Move e (.step t choice) d := by
  cases choice with
  | go => cases h
  | timeout => cases h; exact .timeout hpc
  | received =>
    simp only [select] at h
    split at h
    next hfull => cases h; exact .receive hpc (.inl hfull)
    next hempty =>
      split at h
      next hclosed =>
        -- nothing is taken from a closed and empty channel
        cases h
        have hchan : { e.chans w with full := false } = e.chans w := by
          rcases hch : e.chans w with ⟨full, closed⟩
          simp_all
        have hmove := Move.receive hpc (.inr hclosed)
        rwa [hchan, setChan_self] at hmove
      next => cases h

theorem act_move {a : EventAct} {d : Event} (h : e.act a = some d) : Move e a d := by
  cases a with
  | call t op =>
    simp only [act] at h
    split at h
    next hpc => cases h; exact .call hpc
    next => cases h
  | leave t result =>
    simp only [act] at h
    split at h
    next hpc => cases h; exact .leave hpc
    next => cases h
  | step t choice =>
    simp only [act, step] at h
    split at h
    next a hpc =>
      split at h
      next hm => cases h; exact .lock hpc hm
      next => cases h
    next a hpc => exact .access hpc h
    next k hpc => cases h; exact .unlock hpc
    next hpc =>
      split at h
      next => cases h
      next hc => cases h; exact .unpark hpc hc
    next w hpc => exact select_move hpc h
    next => cases h

/-! ## The invariant -/

/-- The mutex has one holder and every channel one call. -/
structure Owners (e : Event) : Prop where
  mutex : ∀ t, (e.pc t).holds = true ↔ e.m = some t
  made : ∀ t w, (e.pc t).chan = some w → w < e.made
  own : ∀ t u w, (e.pc t).chan = some w → (e.pc u).chan = some w → t = u

structure Inv (e : Event) : Prop extends Owners e where
  nodup : e.waiters.Nodup
  owned : ∀ w ∈ e.waiters, ∃ t, (e.pc t).chan = some w
  suffix : e.holder.unsent e.waiters <:+ e.waiters
  closing : ∀ w rest, e.holder = .hold (.close w rest) →
    (e.chans w).closed = false ∧ w :: rest <:+ e.waiters
  empty : ∀ w ∈ e.holder.unsent e.waiters, e.chans w = {}
  fresh : ∀ w, e.made ≤ w → e.chans w = {}
  ready : ∀ t w, (e.pc t).awaits = some w → w ∉ e.holder.unsent e.waiters →
    (e.chans w).full = true ∨ (e.chans w).closed = true
  parked : e.v = true → e.c ≠ [] → e.holder = .hold .broadcast
  waiting : e.v = true → e.waiters ≠ [] → e.holder.setting = true
  unset : e.holder.unset = true → e.v = false
  quiet : e.panicked = false

section Rules

variable {d : Event} {b : EventPc}

theorem Inv.holder_eq (h : Inv e) (hpc : (e.pc t).holds = true) : e.holder = e.pc t := by
  have hm := (h.mutex t).1 hpc
  simp [holder, hm]

theorem Inv.holder_hold (h : Inv e) {a : EventAccess} (hpc : e.pc t = .hold a) :
    e.m = some t ∧ e.holder = .hold a := by
  have hholds : (e.pc t).holds = true := by rw [hpc]; rfl
  exact ⟨(h.mutex t).1 hholds, (h.holder_eq hholds).trans hpc⟩

theorem Inv.not_holder (h : Inv e) (hpc : (e.pc t).holds = false) : ¬e.m = some t :=
  fun heq => Bool.false_ne_true (hpc.symm.trans ((h.mutex t).2 heq))

theorem Inv.holder_outside (h : Inv e) (hpc : (e.pc t).holds = false) (b : EventPc) :
    (e.goto t b).holder = e.holder := by
  rw [holder_goto, if_neg (h.not_holder hpc)]

/-- Outside `Set` nobody waits on a set event. -/
theorem Inv.calm (h : Inv e) (hset : e.holder.setting = false) (hv : e.v = true) :
    e.c = [] ∧ e.waiters = [] := by
  constructor
  · by_contra hne
    rw [h.parked hv hne] at hset
    cases hset
  · by_contra hne
    exact Bool.false_ne_true (hset.symm.trans (h.waiting hv hne))

theorem Inv.no_parked (h : Inv e) {a : EventAccess} (hpc : e.pc t = .hold a) (ha : a ≠ .broadcast)
    (hv : e.v = true) : e.c = [] := by
  by_contra hne
  have hholder := h.parked hv hne
  rw [(h.holder_hold hpc).2] at hholder
  cases hholder
  exact ha rfl

/-- What can be received from was told. -/
theorem Inv.not_unsent (h : Inv e) {w : Nat}
    (hready : (e.chans w).full = true ∨ (e.chans w).closed = true) :
    w ∉ e.holder.unsent e.waiters := by
  intro hin
  rw [h.empty w hin] at hready
  rcases hready with hfull | hclosed
  · cases hfull
  · cases hclosed

/-- A goroutine moves on and keeps the channel of its call, drops it, or makes a new one. -/
theorem Owners.goto (h : Owners e) (hpc : d.pc = update e.pc t b)
    (hmutex : ∀ u, (d.pc u).holds = true ↔ d.m = some u) (hmade : e.made ≤ d.made)
    (hchan : ∀ w, b.chan = some w → (e.pc t).chan = some w ∨ w = e.made ∧ w < d.made) :
    Owners d := by
  have hcases : ∀ u w, (d.pc u).chan = some w →
      (e.pc u).chan = some w ∨ u = t ∧ w = e.made ∧ w < d.made := by
    intro u w hu
    rw [hpc, update_apply] at hu
    split at hu
    next heq => rw [heq]; exact (hchan w hu).imp_right fun hnew => ⟨rfl, hnew⟩
    next => exact .inl hu
  refine ⟨hmutex, ?_, ?_⟩
  · intro u w hu
    rcases hcases u w hu with hold | ⟨_, _, hlt⟩
    · exact (h.made u w hold).trans_le hmade
    · exact hlt
  · intro u u' w hu hu'
    rcases hcases u w hu with hold | ⟨rfl, rfl, _⟩
    · rcases hcases u' w hu' with hold' | ⟨rfl, rfl, _⟩
      · exact h.own u u' w hold hold'
      · exact absurd (h.made u _ hold) (lt_irrefl _)
    · rcases hcases u' _ hu' with hold' | ⟨rfl, _⟩
      · exact absurd (h.made u' _ hold') (lt_irrefl _)
      · rfl

/-- The holder of the mutex goes on and keeps it. -/
theorem Owners.holds_goto (h : Owners e) (hpc : d.pc = update e.pc t b)
    (hm : d.m = e.m) (ht : (e.pc t).holds = true) (hb : b.holds = true) :
    ∀ u, (d.pc u).holds = true ↔ d.m = some u := by
  intro u
  rw [hpc, hm, update_apply]
  split
  next heq => rw [heq, hb, ← h.mutex t, ht]
  next => exact h.mutex u

/-- A step that leaves the waiter list and the channels alone, and after which the loop of
`Set` has told as many waiters as before. -/
theorem Inv.pass (h : Inv e) (hown : Owners d) (hpc : d.pc = update e.pc t b)
    (hwaiters : d.waiters = e.waiters) (hchans : d.chans = e.chans) (hmade : d.made = e.made)
    (hquiet : d.panicked = e.panicked) (hchan : b.chan = (e.pc t).chan)
    (hawaits : ∀ w, b.awaits = some w → (e.pc t).awaits = some w)
    (hunsent : d.holder.unsent e.waiters = e.holder.unsent e.waiters)
    (hclosing : ∀ w rest, d.holder = .hold (.close w rest) → e.holder = .hold (.close w rest))
    (hparked : d.v = true → d.c ≠ [] → d.holder = .hold .broadcast)
    (hwaiting : d.v = true → e.waiters ≠ [] → d.holder.setting = true)
    (hunset : d.holder.unset = true → d.v = false) : Inv d := by
  refine ⟨hown, ?_, ?_, ?_, ?_, ?_, ?_, ?_, hparked, ?_, hunset, hquiet.trans h.quiet⟩
  · rw [hwaiters]; exact h.nodup
  · intro w hw
    rcases h.owned w (hwaiters ▸ hw) with ⟨u, hu⟩
    refine ⟨u, ?_⟩
    rw [hpc, update_apply]
    split
    next heq => rw [hchan, ← heq, hu]
    next => exact hu
  · rw [hwaiters, hunsent]; exact h.suffix
  · rw [hwaiters, hchans]
    exact fun w rest hh => h.closing w rest (hclosing w rest hh)
  · rw [hwaiters, hunsent, hchans]; exact h.empty
  · rw [hmade, hchans]; exact h.fresh
  · intro u w hu hw
    rw [hwaiters, hunsent] at hw
    rw [hchans]
    rw [hpc, update_apply] at hu
    split at hu
    next heq => exact h.ready t w (hawaits w hu) hw
    next => exact h.ready u w hu hw
  · rw [hwaiters]; exact hwaiting

/-- A channel nobody waits on, and that is not in the list any more, is emptied. -/
theorem Inv.take (h : Inv e) {w : Nat} (hw : w ∉ e.holder.unsent e.waiters) (hmade : w < e.made)
    (hno : ∀ u, (e.pc u).awaits ≠ some w) :
    Inv (e.setChan w { e.chans w with full := false }) := by
  have hother : ∀ x, x ≠ w → (e.setChan w { e.chans w with full := false }).chans x = e.chans x :=
    fun x hx => update_of_ne hx _ _
  refine ⟨⟨h.mutex, h.made, h.own⟩, h.nodup, h.owned, h.suffix, ?_, ?_, ?_, ?_, h.parked,
    h.waiting, h.unset, h.quiet⟩
  · intro x rest hx
    rcases h.closing x rest hx with ⟨hopen, hsuf⟩
    refine ⟨?_, hsuf⟩
    by_cases hxw : x = w
    · subst hxw
      simpa [setChan] using hopen
    · rw [hother x hxw]; exact hopen
  · intro x hx
    rw [hother x fun heq => hw (heq ▸ hx)]
    exact h.empty x hx
  · intro x hx
    rw [hother x fun heq => absurd hmade (not_lt.2 (heq ▸ hx))]
    exact h.fresh x hx
  · intro u x hu hx
    rw [hother x fun heq => hno u (heq ▸ hu)]
    exact h.ready u x hu hx

end Rules

/-! ## Every step keeps it -/

section Moves

/-- A goroutine without the mutex goes on without it. -/
theorem Inv.outside (h : Inv e) {b : EventPc} (hpc : (e.pc t).holds = false)
    (hb : b.holds = false) (hchan : b.chan = (e.pc t).chan) (hawaits : b.awaits = none) :
    Inv (e.goto t b) := by
  have hholder := h.holder_outside hpc b
  have hmutex : ∀ u, ((e.goto t b).pc u).holds = true ↔ e.m = some u := by
    intro u
    rw [pc_goto]
    split
    next heq => rw [heq, hb]; simpa using h.not_holder hpc
    next => exact h.mutex u
  have hown := h.toOwners.goto (d := e.goto t b) rfl hmutex le_rfl fun w hw => .inl (hchan ▸ hw)
  exact h.pass hown rfl rfl rfl rfl rfl hchan (fun w hw => by rw [hawaits] at hw; cases hw)
    (by rw [hholder]) (fun w rest hh => hholder ▸ hh) (hholder ▸ h.parked) (hholder ▸ h.waiting)
    (hholder ▸ h.unset)

theorem Inv.lock (h : Inv e) {a : EventEntry} (hpc : e.pc t = .lock a) (hm : e.m = none) :
    Inv (goto { e with m := some t } t (.hold (.first a))) := by
  have hnone : ∀ u, ¬(e.pc u).holds = true := fun u hu => by
    simpa [hm] using (h.mutex u).1 hu
  have hbefore : e.holder = .idle := by simp [holder, hm]
  have hcalm := h.calm (by rw [hbefore]; rfl)
  have hafter : (goto { e with m := some t } t (.hold (.first a))).holder = .hold (.first a) := by
    rw [holder_goto, if_pos rfl]
  have hmutex : ∀ u, ((goto { e with m := some t } t (.hold (.first a))).pc u).holds = true ↔
      some t = some u := by
    intro u
    rw [pc_goto]
    split
    next heq => simp [heq, EventPc.holds]
    next hne => simpa [Ne.symm hne] using hnone u
  have hown := h.toOwners.goto rfl hmutex le_rfl fun w hw => .inl (by rw [hpc]; exact hw)
  refine h.pass hown rfl rfl rfl rfl rfl (by rw [hpc]; rfl) (fun w hw => nomatch hw)
    (by rw [hbefore, hafter]; rfl) (fun w rest hh => ?_) (fun hv => absurd (hcalm hv).1)
    (fun hv => absurd (hcalm hv).2) ?_
  · rw [hafter] at hh; cases hh
  · rw [hafter]; intro hh; cases hh

theorem Inv.unlock (h : Inv e) {k : EventRest} (hpc : e.pc t = .unlock k) :
    Inv (goto { e with m := none } t (.free k)) := by
  have hm : e.m = some t := (h.mutex t).1 (by rw [hpc]; rfl)
  have hbefore : e.holder = .unlock k := by rw [h.holder_eq (t := t) (by rw [hpc]; rfl), hpc]
  have hcalm := h.calm (by rw [hbefore]; rfl)
  have hafter : (goto { e with m := none } t (.free k)).holder = .idle := rfl
  have hmutex : ∀ u, ((goto { e with m := none } t (.free k)).pc u).holds = true ↔
      none = some u := by
    intro u
    rw [pc_goto]
    split
    next => simp [EventPc.holds]
    next hne =>
      rw [h.mutex u, hm]
      simp [Ne.symm hne]
  have hown := h.toOwners.goto rfl hmutex le_rfl fun w hw => .inl (by rw [hpc]; exact hw)
  refine h.pass hown rfl rfl rfl rfl rfl (by rw [hpc]; rfl) (fun w hw => by rw [hpc]; exact hw)
    (by rw [hbefore, hafter]; rfl) (fun w rest hh => nomatch hh) (fun hv => absurd (hcalm hv).1)
    (fun hv => absurd (hcalm hv).2) (fun hh => nomatch hh)

section Hold

variable {d : Event} {a : EventAccess} {b : EventPc} {w : Nat} {rest : List Nat}

/-- The holder of the mutex goes on to `b` and keeps the mutex. -/
theorem Inv.kept (h : Inv e) (hpc : e.pc t = .hold a) (hpc' : d.pc = update e.pc t b)
    (hm : d.m = e.m) (hmade : e.made ≤ d.made) (hb : b.holds = true)
    (hchan : ∀ w, b.chan = some w → a.chan = some w ∨ w = e.made ∧ w < d.made) :
    Owners d ∧ d.holder = b := by
  have hmutex := h.toOwners.holds_goto hpc' hm (by rw [hpc]; rfl) hb
  refine ⟨h.toOwners.goto hpc' hmutex hmade fun w hw => ?_, ?_⟩
  · rw [hpc]; exact hchan w hw
  · simp [holder, hm, (h.holder_hold hpc).1, hpc']

/-- The holder goes on to `b`, may store to the value and the parked goroutines, and leaves
the waiters and the channels alone. -/
theorem Inv.inside (h : Inv e) (hpc : e.pc t = .hold a) (v : Bool) (c : List Nat)
    (hb : b.holds = true) (hchan : b.chan = a.chan) (hawaits : b.awaits = none)
    (hunsent : b.unsent e.waiters = a.unsent e.waiters)
    (hclosing : ∀ w rest, b ≠ .hold (.close w rest))
    (hparked : v = true → c ≠ [] → b = .hold .broadcast)
    (hwaiting : v = true → e.waiters ≠ [] → b.setting = true)
    (hunset : b.unset = true → v = false) : Inv (goto { e with v := v, c := c } t b) := by
  rcases h.holder_hold hpc with ⟨hm, hbefore⟩
  rcases h.kept (d := goto { e with v := v, c := c } t b) hpc rfl rfl le_rfl hb
    (fun w hw => .inl (hchan ▸ hw)) with ⟨hown, hafter⟩
  refine h.pass hown rfl rfl rfl rfl rfl (by rw [hpc, hchan]; rfl)
    (fun w hw => by rw [hawaits] at hw; cases hw) ?_ (fun w rest hh => ?_) ?_ ?_ ?_
  · rw [hbefore, hafter, hunsent]; rfl
  · exact absurd (hafter.symm.trans hh) (hclosing w rest)
  · rw [hafter]; exact hparked
  · rw [hafter]; exact hwaiting
  · rw [hafter]; exact hunset

/-- The loop of `Set` does something to the channel of one waiter: `rest` is not reached yet,
and whoever waits on a channel the loop has reached can receive. -/
theorem Inv.tell (h : Inv e) (hpc : e.pc t = .hold a) (ch : WaitChan)
    (hb : b.holds = true) (hbchan : b.chan = none) (hsetting : b.setting = true)
    (hbunset : b.unset = false) (hachan : a.chan = none) (hacast : a ≠ .broadcast)
    (hsuffix : w :: rest <:+ e.waiters) (hrest : b.unsent e.waiters = rest)
    (hreached : ∀ x, x ∉ rest → x ≠ w → x ∉ a.unsent e.waiters)
    (hsub : ∀ x ∈ rest, x ∈ a.unsent e.waiters)
    (hready : ch.full = true ∨ ch.closed = true)
    (hclosing : ∀ x r, b = .hold (.close x r) → x = w ∧ r = rest ∧ ch.closed = false) :
    Inv ((e.setChan w ch).goto t b) := by
  rcases h.holder_hold hpc with ⟨hm, hbefore⟩
  rcases h.kept (d := (e.setChan w ch).goto t b) hpc rfl rfl le_rfl hb
    (fun w hw => by rw [hbchan] at hw; cases hw) with ⟨hown, hafter⟩
  have hnotin : w ∉ rest := (List.nodup_cons.1 (hsuffix.sublist.nodup h.nodup)).1
  have hchans : ∀ x, ((e.setChan w ch).goto t b).chans x = if x = w then ch else e.chans x :=
    fun x => update_apply _ _ _ _
  refine ⟨hown, h.nodup, ?_, ?_, ?_, ?_, ?_, ?_, ?_, ?_, ?_, h.quiet⟩
  · intro x hx
    rcases h.owned x hx with ⟨u, hu⟩
    have hne : u ≠ t := fun heq => by
      rw [heq, hpc] at hu
      exact Option.some_ne_none x (hu.symm.trans hachan)
    exact ⟨u, by rw [pc_goto, if_neg hne]; exact hu⟩
  · rw [hafter]
    exact hrest ▸ (List.suffix_cons w rest).trans hsuffix
  · intro x r hx
    rcases hclosing x r (hafter.symm.trans hx) with ⟨rfl, rfl, hopen⟩
    rw [hchans, if_pos rfl]
    exact ⟨hopen, hsuffix⟩
  · rw [hafter]
    intro x hx
    have hx' : x ∈ rest := hrest ▸ hx
    have hne : x ≠ w := fun heq => hnotin (heq ▸ hx')
    rw [hchans, if_neg hne]
    exact h.empty x (by rw [hbefore]; exact hsub x hx')
  · intro x hx
    rcases h.owned w (hsuffix.subset List.mem_cons_self) with ⟨u, hu⟩
    have hne : x ≠ w := fun heq => absurd (h.made u w hu) (not_lt.2 (heq ▸ hx))
    rw [hchans, if_neg hne]
    exact h.fresh x hx
  · intro u x hu hx
    rw [hchans]
    split
    next => exact hready
    next hne =>
      have hut : u ≠ t := fun heq => by
        rw [pc_goto, if_pos heq] at hu
        exact Option.some_ne_none x ((EventPc.chan_of_awaits hu).symm.trans hbchan)
      rw [pc_goto, if_neg hut] at hu
      refine h.ready u x hu ?_
      rw [hbefore]
      refine hreached x (fun hin => hx ?_) hne
      rw [hafter]
      exact hrest ▸ hin
  · exact fun hv => absurd (h.no_parked hpc hacast hv)
  · intro _ _
    rw [hafter]; exact hsetting
  · rw [hafter, hbunset]; intro hh; cases hh

/-- A waiter in the list gets its message: its channel is empty and open. -/
theorem Inv.send (h : Inv e) (hpc : e.pc t = .hold (.send (w :: rest))) :
    ∃ d, e.send t w rest = some d ∧ Inv d := by
  rcases h.holder_hold hpc with ⟨_, hbefore⟩
  have hun : e.holder.unsent e.waiters = w :: rest := by rw [hbefore]; rfl
  have hempty : e.chans w = {} := h.empty w (hun ▸ List.mem_cons_self)
  refine ⟨(e.setChan w { e.chans w with full := true }).goto t (.hold (.close w rest)),
    by simp [Event.send, hempty], ?_⟩
  refine h.tell hpc _ rfl rfl rfl rfl rfl (fun hh => nomatch hh) (hun ▸ h.suffix) rfl ?_ ?_
    (.inl rfl) ?_
  · intro x hx hne hin
    exact (List.mem_cons.1 hin).elim hne hx
  · intro x hx
    exact List.mem_cons_of_mem w hx
  · intro x r hx
    cases hx
    exact ⟨rfl, rfl, by rw [hempty]⟩

/-- No channel is closed twice. -/
theorem Inv.close (h : Inv e) (hpc : e.pc t = .hold (.close w rest)) : Inv (e.close t w rest) := by
  rcases h.holder_hold hpc with ⟨_, hbefore⟩
  rcases h.closing w rest hbefore with ⟨hopen, hsuffix⟩
  rw [Event.close, hopen, if_neg Bool.false_ne_true]
  refine h.tell hpc _ rfl rfl rfl rfl rfl (fun hh => nomatch hh) hsuffix rfl ?_ ?_ (.inr rfl) ?_
  · intro x hx _
    exact hx
  · intro x hx
    exact hx
  · intro x r hx
    cases hx

/-- The list changes under the mutex and the goroutine is about to unlock. What is new in the
list is the channel it made; what is gone was told, or is its own. -/
theorem Inv.relist (h : Inv e) (hpc : e.pc t = .hold a) {k : EventRest} {ws : List Nat} {made : Nat}
    (hmade : e.made ≤ made)
    (hchan : ∀ x, k.chan = some x → x ∈ ws ∧ x = e.made ∧ x < made) (hnodup : ws.Nodup)
    (hnew : ∀ x ∈ ws, x = e.made ∧ k.chan = some x ∨ x ∈ a.unsent e.waiters ∧ a.chan ≠ some x)
    (hgone : ∀ x ∈ a.unsent e.waiters, x ∈ ws ∨ a.chan = some x)
    (hacast : a ≠ .broadcast) (hset : e.v = true → ws = []) :
    Inv (goto { e with waiters := ws, made := made } t (.unlock k)) := by
  rcases h.holder_hold hpc with ⟨hm, hbefore⟩
  rcases h.kept (d := goto { e with waiters := ws, made := made } t (.unlock k)) hpc rfl rfl hmade
    rfl (fun x hx => .inr (hchan x hx).2) with ⟨hown, hafter⟩
  have hun : ∀ x, x ∈ a.unsent e.waiters → x ∈ e.waiters ∧ e.chans x = {} := by
    intro x hx
    have hx' : x ∈ e.holder.unsent e.waiters := by rw [hbefore]; exact hx
    exact ⟨h.suffix.subset hx', h.empty x hx'⟩
  refine ⟨hown, hnodup, ?_, ?_, ?_, ?_, ?_, ?_, ?_, ?_, ?_, h.quiet⟩
  · intro x hx
    rcases hnew x hx with ⟨_, hk⟩ | ⟨hin, hax⟩
    · exact ⟨t, by rw [pc_goto, if_pos rfl]; exact hk⟩
    · rcases h.owned x (hun x hin).1 with ⟨u, hu⟩
      have hne : u ≠ t := fun heq => hax (by rw [heq, hpc] at hu; exact hu)
      exact ⟨u, by rw [pc_goto, if_neg hne]; exact hu⟩
  · rw [hafter]; exact List.suffix_refl ws
  · intro w rest hh
    rw [hafter] at hh; cases hh
  · rw [hafter]
    intro x hx
    rcases hnew x hx with ⟨heq, _⟩ | ⟨hin, _⟩
    · exact h.fresh x heq.ge
    · exact (hun x hin).2
  · exact fun x hx => h.fresh x (hmade.trans hx)
  · rw [hafter]
    intro u x hu hx
    rw [pc_goto] at hu
    split at hu
    next => exact absurd (hchan x hu).1 hx
    next hne =>
      refine h.ready u x hu ?_
      rw [hbefore]
      intro hin
      rcases hgone x hin with hws | hax
      · exact hx hws
      · exact hne (h.own u t x (EventPc.chan_of_awaits hu) (by rw [hpc]; exact hax))
  · exact fun hv => absurd (h.no_parked hpc hacast hv)
  · intro hv hne
    exact absurd (hset hv) hne
  · rw [hafter]; intro hh; cases hh

/-- The holder has read the value, and goes on accordingly. -/
theorem Inv.tests (h : Inv e) {x : EventEntry} (hpc : e.pc t = .hold (.first x))
    (hx : x.chan = none) (hb : b.holds = true) (hchan : b.chan = none) (hawaits : b.awaits = none)
    (hunsent : b.unsent e.waiters = e.waiters) (hclosing : ∀ w rest, b ≠ .hold (.close w rest))
    (hunset : b.unset = true → e.v = false) : Inv (e.goto t b) := by
  have hcalm := h.calm (by rw [(h.holder_hold hpc).2]; rfl)
  exact h.inside hpc e.v e.c hb (hchan.trans hx.symm) hawaits hunsent hclosing
    (fun hv => absurd (hcalm hv).1) (fun hv => absurd (hcalm hv).2) hunset

theorem Inv.enter (h : Inv e) {x : EventEntry} (hpc : e.pc t = .hold (.first x)) :
    Inv (e.enter t x) := by
  cases x with
  | setValue =>
    exact h.inside hpc true e.c rfl rfl rfl rfl (fun _ _ hh => nomatch hh) (fun _ _ => rfl)
      (fun _ _ => rfl) (fun hh => nomatch hh)
  | clearValue =>
    exact h.inside hpc false e.c rfl rfl rfl rfl (fun _ _ hh => nomatch hh) (fun hv => nomatch hv)
      (fun hv => nomatch hv) (fun _ => rfl)
  | readValue =>
    exact h.tests hpc rfl rfl rfl rfl rfl (fun _ _ hh => nomatch hh) (fun hh => nomatch hh)
  | waitTest | forTest =>
    simp only [Event.enter]
    split
    next =>
      exact h.tests hpc rfl rfl rfl rfl rfl (fun _ _ hh => nomatch hh) (fun hh => nomatch hh)
    next hv =>
      exact h.tests hpc rfl rfl rfl rfl rfl (fun _ _ hh => nomatch hh)
        (fun _ => Bool.eq_false_of_not_eq_true hv)
  | clean w result =>
    refine h.relist hpc (le_refl e.made) (fun x hx => nomatch hx)
      (nodup_cleanWaiters h.nodup w) (fun x hx => .inr ?_) (fun x hx => ?_) (fun hh => nomatch hh)
      (fun hv => ?_)
    · rcases (mem_cleanWaiters h.nodup).1 hx with ⟨hne, hin⟩
      exact ⟨hin, fun heq => hne (Option.some.inj heq).symm⟩
    · by_cases hxw : x = w
      · exact .inr (congrArg some hxw.symm)
      · exact .inl ((mem_cleanWaiters h.nodup).2 ⟨hxw, hx⟩)
    · rw [(h.calm (by rw [(h.holder_hold hpc).2]; rfl) hv).2]; rfl

theorem Inv.access (h : Inv e) (hpc : e.pc t = .hold a) :
    ∃ d, e.access t a = some d ∧ Inv d := by
  have hparked := h.no_parked hpc
  cases a with
  | first x => exact ⟨_, rfl, h.enter hpc⟩
  | broadcast =>
    refine ⟨_, rfl, ?_⟩
    exact h.inside hpc e.v [] rfl rfl rfl rfl (fun _ _ hh => nomatch hh)
      (fun _ hne => absurd rfl hne) (fun _ _ => rfl) (fun hh => nomatch hh)
  | checkWaiters =>
    refine ⟨_, rfl, ?_⟩
    have hc := hparked fun hh => nomatch hh
    by_cases hlen : e.waiters.length ≠ 0
    · have hinv := h.inside (b := .hold (.send e.waiters)) hpc e.v e.c rfl rfl rfl rfl
        (fun _ _ hh => nomatch hh) (fun hv => absurd (hc hv)) (fun _ _ => rfl)
        (fun hh => nomatch hh)
      rw [if_pos hlen]
      exact hinv
    · have hnil : e.waiters = [] := List.eq_nil_of_length_eq_zero (not_not.1 hlen)
      have hinv := h.inside (b := .unlock (.leave none)) hpc e.v e.c rfl rfl rfl rfl
        (fun _ _ hh => nomatch hh) (fun hv => absurd (hc hv))
        (fun _ hne => absurd hnil hne) (fun hh => nomatch hh)
      rw [if_neg hlen]
      exact hinv
  | send rest =>
    cases rest with
    | nil =>
      refine ⟨_, rfl, ?_⟩
      have hc := hparked fun hh => nomatch hh
      exact h.inside hpc e.v e.c rfl rfl rfl rfl (fun _ _ hh => nomatch hh)
        (fun hv => absurd (hc hv)) (fun _ _ => rfl) (fun hh => nomatch hh)
    | cons w rest => exact h.send hpc
  | close w rest => exact ⟨_, rfl, h.close hpc⟩
  | dropWaiters =>
    refine ⟨_, rfl, ?_⟩
    exact h.relist hpc (le_refl e.made) (fun x hx => nomatch hx) List.nodup_nil
      (fun x hx => nomatch hx) (fun x hx => nomatch hx) (fun hh => nomatch hh) (fun _ => rfl)
  | condAdd =>
    refine ⟨_, rfl, ?_⟩
    have hv : e.v = false := h.unset (by rw [(h.holder_hold hpc).2]; rfl)
    exact h.inside hpc e.v (t :: e.c) rfl rfl rfl rfl (fun _ _ hh => nomatch hh)
      (fun hv' => absurd (hv.symm.trans hv') Bool.false_ne_true)
      (fun hv' => absurd (hv.symm.trans hv') Bool.false_ne_true) (fun hh => nomatch hh)
  | register =>
    refine ⟨_, rfl, ?_⟩
    have hv : e.v = false := h.unset (by rw [(h.holder_hold hpc).2]; rfl)
    have hnew : e.made ∉ e.waiters := fun hin => by
      rcases h.owned _ hin with ⟨u, hu⟩
      exact absurd (h.made u _ hu) (lt_irrefl _)
    refine h.relist hpc (Nat.le_succ _) (fun x hx => ?_)
      (List.Nodup.append h.nodup (List.nodup_singleton _) (List.disjoint_singleton.2 hnew))
      (fun x hx => ?_) (fun x hx => .inl (List.mem_append_left _ hx)) (fun hh => nomatch hh)
      (fun hv' => absurd (hv.symm.trans hv') Bool.false_ne_true)
    · cases hx
      exact ⟨List.mem_append_right _ List.mem_cons_self, rfl, Nat.lt_succ_self _⟩
    · rcases List.mem_append.1 hx with hold | hlast
      · exact .inr ⟨hold, fun hh => nomatch hh⟩
      · rw [List.mem_singleton] at hlast
        exact .inl ⟨hlast, congrArg some hlast.symm⟩

end Hold

/-- Every step keeps the invariant. -/
theorem Inv.move (h : Inv e) {a : EventAct} {d : Event} (hmove : Move e a d) : Inv d := by
  cases hmove with
  | @call t op hpc =>
    refine h.outside (by rw [hpc]; rfl) rfl ?_ rfl
    rw [hpc]
    cases op <;> rfl
  | leave hpc | unpark hpc | timeout hpc =>
    exact h.outside (by rw [hpc]; rfl) rfl (by rw [hpc]; rfl) rfl
  | lock hpc hm => exact h.lock hpc hm
  | unlock hpc => exact h.unlock hpc
  | access hpc ha =>
    rcases h.access hpc with ⟨d', ha', hinv⟩
    cases ha.symm.trans ha'
    exact hinv
  | @receive t w hpc hready =>
    have hchan : (e.pc t).chan = some w := by rw [hpc]; rfl
    have hmoved : Inv (e.goto t (.lock (.clean w true))) :=
      h.outside (by rw [hpc]; rfl) rfl (by rw [hpc]; rfl) rfl
    -- nobody waits on the channel any more, and the loop of `Set` has passed it
    refine hmoved.take (w := w) ?_ (h.made t w hchan) fun u hu => ?_
    · rw [h.holder_outside (by rw [hpc]; rfl)]
      exact h.not_unsent hready
    · rw [pc_goto] at hu
      split at hu
      next => cases hu
      next hne => exact hne (h.own u t w (EventPc.chan_of_awaits hu) hchan)

end Moves

theorem newEvent_inv : Inv newEvent := by
  refine ⟨⟨?_, ?_, ?_⟩, List.nodup_nil, ?_, List.suffix_refl _, ?_, ?_, ?_, ?_, ?_, ?_, ?_, rfl⟩
  · intro t; simp [newEvent, EventPc.holds]
  · intro t w h; cases h
  · intro t u w h; cases h
  · intro w h; cases h
  · intro w rest h; cases h
  · intro w h; cases h
  · intro w _; rfl
  · intro t w h; cases h
  · intro h; cases h
  · intro h; cases h
  · intro h; cases h

theorem Inv.next (h : Inv e) {a : EventAct} (hg : eventMachine.guard e a) :
    Inv (eventMachine.next e a) := by
  rcases Option.isSome_iff_exists.1 hg with ⟨d, ha⟩
  have hnext : eventMachine.next e a = d := by simp [eventMachine, ha]
  exact hnext ▸ h.move (act_move ha)

/-- Every reachable state of an event meets the invariant. -/
theorem run_inv {tr : List (Machine.Step Event EventAct)} (hrun : eventMachine.Run newEvent tr e) :
    Inv e :=
  hrun.invariant Inv newEvent_inv fun _ _ hg h => h.next hg

end Event

end UspClient
