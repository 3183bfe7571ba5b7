import UspClient.Budget.Lined

/-!
# Calls and their sections

The callers of a fair budget, without a ledger: `callMachine` runs whole calls, `sectionMachine`
cuts a call into what it does before it schedules and one step for each round of
`scheduleLocked`. A caller hands back a waiter that it was given, to the group it was given at;
nothing is asked of the sizes, and the counters may overflow. Every run of calls is a run of
sections (`sections_of_calls`), and both keep the queues and the indexes (`Lined`).
`turnMachine` is the part of `sectionMachine` in which every request is for some bytes.
-/

namespace UspClient

open Word64 ByteBudget

/-! ## The machine of turns -/

/-- Where a call is. -/
inductive Phase where
  | idle
  /-- A forced request has given up its waiter and is not charged yet. -/
  | replacing (n : Nat) (g : GroupId)
  | scheduling
deriving DecidableEq, Repr

/-- The budget, the waiters that calls returned and nobody gave back, and the call that holds
the lock. -/
structure TurnState where
  bb : ByteBudget
  out : Finset WaiterId := ∅
  phase : Phase := .idle

inductive TurnAct where
  | call (op : BudgetOp)
  /-- The charge of a forced request that gave up its waiter. -/
  | charge
  /-- One round of `scheduleLocked`. -/
  | round

namespace TurnState

variable {s s₀ : TurnState}

/-- A caller hands back a waiter that it was given, to the group it was given at. -/
def Contract (s : TurnState) : BudgetOp → Prop
  | .reserveFor n _ g w => 0 < n.toNat ∧ group g < s.bb.nextGroup ∧
      ∀ v ∈ w, v ∈ s.out ∧ (s.bb.waiterAt v).group = group g
  | .cancel w => ∀ v ∈ w, v ∈ s.out
  | _ => True

instance (s : TurnState) : (op : BudgetOp) → Decidable (s.Contract op)
  | .reserveFor n _ g w => inferInstanceAs (Decidable (0 < n.toNat ∧ group g < s.bb.nextGroup ∧
      ∀ v ∈ w, v ∈ s.out ∧ (s.bb.waiterAt v).group = group g))
  | .cancel w => inferInstanceAs (Decidable (∀ v ∈ w, v ∈ s.out))
  | .releaseFor _ _ _ => isTrue trivial
  | .register _ => isTrue trivial
  | .unregister _ => isTrue trivial

def Allows (s : TurnState) : TurnAct → Prop
  | .call op => s.phase = .idle ∧ s.Contract op
  | .charge => s.phase ≠ .idle ∧ s.phase ≠ .scheduling
  | .round => s.phase = .scheduling

instance (s : TurnState) : (a : TurnAct) → Decidable (s.Allows a)
  | .call op => inferInstanceAs (Decidable (s.phase = .idle ∧ s.Contract op))
  | .charge => inferInstanceAs (Decidable (s.phase ≠ .idle ∧ s.phase ≠ .scheduling))
  | .round => inferInstanceAs (Decidable (s.phase = .scheduling))

/-- The charge of a request that is admitted now. -/
def charged (bb : ByteBudget) (n : Nat) (g : GroupId) : ByteBudget :=
  bb.admitted n g (!bb.fits n g || !decide ((bb.groupAt g).waiters = [])) false

/-- A call up to the point where it schedules, or gives up a waiter. -/
def opening (s : TurnState) : BudgetOp → TurnState
  | .reserveFor n force og none =>
    let g := group og
    if (s.bb.fits n.toNat g && decide ((s.bb.groupAt g).waiters = [])) || force then
      { s with bb := charged s.bb n.toNat g }
    else
      { bb := ((s.bb.enqueue n.toNat g).activateLocked g).refreshLocked g
        out := insert s.bb.nextWaiter s.out
        phase := .scheduling }
  | .reserveFor n force og (some w) =>
    if (s.bb.waiterAt w).granted then
      { s with bb := s.bb.settle (group og), out := s.out.erase w }
    else if force then
      { bb := s.bb.removeWaiterLocked w, out := s.out.erase w,
        phase := .replacing n.toNat (group og) }
    else s
  | .cancel none => s
  | .cancel (some w) =>
    { bb := s.bb.removeWaiterLocked w, out := s.out.erase w, phase := .scheduling }
  | .releaseFor n escape og =>
    if n.toNat = 0 then s
    else { s with bb := s.bb.released n.toNat escape.toNat (group og), phase := .scheduling }
  | .register key => { s with bb := (s.bb.register key).1 }
  | .unregister g => { s with bb := s.bb.unregister g }

def next (s : TurnState) : TurnAct → TurnState
  | .call op => s.opening op
  | .charge =>
    match s.phase with
    | .replacing n g => { s with bb := charged s.bb n g, phase := .scheduling }
    | _ => s
  | .round =>
    { s with
      bb := s.bb.scheduleRound.1
      phase := if s.bb.scheduleRound.2 then .scheduling else .idle }

end TurnState

def turnMachine : Machine TurnState TurnAct where
  guard := TurnState.Allows
  next := TurnState.next

instance (s : TurnState) (a : TurnAct) : Decidable (turnMachine.guard s a) :=
  inferInstanceAs (Decidable (s.Allows a))

abbrev TurnStep := Machine.Step TurnState TurnAct

/-- The group a step picks; only a round picks one. -/
def TurnStep.turn (st : TurnStep) : Option Turn :=
  match st.act with
  | .round => st.pre.bb.turn
  | .call _ => none
  | .charge => none

/-- The step charges a credit to the head of a group. -/
def TurnStep.Credits (st : TurnStep) (k : Turn) : Prop := TurnStep.turn st = some k ∧ k.credit ≠ 0

/-- A budget from `NewFairByteBudget`, before any call. -/
structure FreshTurns (s : TurnState) : Prop where
  new : ∃ total o, newFairByteBudget total o = some s.bb
  out : s.out = ∅
  phase : s.phase = .idle

namespace TurnState

variable {s s₀ : TurnState} {a : TurnAct} {op : BudgetOp} {tr : List TurnStep}

/-- A caller of the budget, as the machine of turns sees it. -/
def ofFair (s : FairState) : TurnState := ⟨s.bb, s.out, .idle⟩

/-! ## Requests for any number of bytes -/

/-- A caller hands back a waiter that it was given, to the group it was given at. -/
def Owns (s : TurnState) : BudgetOp → Prop
  | .reserveFor _ _ g w => group g < s.bb.nextGroup ∧
      ∀ v ∈ w, v ∈ s.out ∧ (s.bb.waiterAt v).group = group g
  | .cancel w => ∀ v ∈ w, v ∈ s.out
  | _ => True

instance (s : TurnState) : (op : BudgetOp) → Decidable (s.Owns op)
  | .reserveFor _ _ g w => inferInstanceAs (Decidable (group g < s.bb.nextGroup ∧
      ∀ v ∈ w, v ∈ s.out ∧ (s.bb.waiterAt v).group = group g))
  | .cancel w => inferInstanceAs (Decidable (∀ v ∈ w, v ∈ s.out))
  | .releaseFor _ _ _ => isTrue trivial
  | .register _ => isTrue trivial
  | .unregister _ => isTrue trivial

def Opens (s : TurnState) : TurnAct → Prop
  | .call op => s.phase = .idle ∧ s.Owns op
  | .charge => s.phase ≠ .idle ∧ s.phase ≠ .scheduling
  | .round => s.phase = .scheduling

instance (s : TurnState) : (a : TurnAct) → Decidable (s.Opens a)
  | .call op => inferInstanceAs (Decidable (s.phase = .idle ∧ s.Owns op))
  | .charge => inferInstanceAs (Decidable (s.phase ≠ .idle ∧ s.phase ≠ .scheduling))
  | .round => inferInstanceAs (Decidable (s.phase = .scheduling))

theorem Contract.owns (hc : s.Contract op) : s.Owns op := by
  cases op with
  | reserveFor n force og w => exact hc.2
  | cancel w => exact hc
  | releaseFor | register | unregister => trivial

theorem Allows.opens (ha : s.Allows a) : s.Opens a := by
  cases a with
  | call op => exact ⟨ha.1, ha.2.owns⟩
  | charge => exact ha
  | round => exact ha

end TurnState

def sectionMachine : Machine TurnState TurnAct where
  guard := TurnState.Opens
  next := TurnState.next

instance (s : TurnState) (a : TurnAct) : Decidable (sectionMachine.guard s a) :=
  inferInstanceAs (Decidable (s.Opens a))

namespace TurnState

variable {s s₀ : TurnState} {a : TurnAct} {op : BudgetOp} {tr : List TurnStep}

theorem charged_lined {out : Finset WaiterId} {bb : ByteBudget} (hl : Lined bb out) (n : Nat)
    (g : GroupId) : Lined (charged bb n g) out :=
  hl.touch (charge_touches bb n g _)

theorem lined_opening (hl : Lined s.bb s.out) (hown : s.Owns op) :
    Lined (s.opening op).bb (s.opening op).out := by
  cases op with
  | reserveFor n force og w =>
    rcases hown with ⟨hg, hw⟩
    cases w with
    | none =>
      unfold opening
      simp only
      split_ifs
      · exact charged_lined hl _ _
      · exact hl.enqueue hg n.toNat_lt
    | some w =>
      unfold opening
      simp only
      split_ifs with hgr
      · exact hl.settle hgr _
      · exact hl.removeWaiterLocked (hw w rfl).1
      · exact hl
  | cancel w =>
    cases w with
    | none => exact hl
    | some w => exact hl.removeWaiterLocked (hown w rfl)
  | releaseFor n escape og =>
    unfold opening
    simp only
    split_ifs
    · exact hl
    · exact hl.touch (releaseLocked_touches s.bb n.toNat escape.toNat (group og))
  | register key => exact hl.of_same (hl.register_reregistered key)
  | unregister g => exact hl.of_same (unregister_reregistered s.bb g)

theorem lined_step (hl : Lined s.bb s.out) (hg : s.Opens a) :
    Lined (s.next a).bb (s.next a).out := by
  cases a with
  | call op => exact lined_opening hl hg.2
  | charge =>
    unfold next
    cases s.phase with
    | replacing n g => exact charged_lined hl n g
    | idle => exact hl
    | scheduling => exact hl
  | round => exact hl.round.1

theorem lined_fresh (hf : FreshTurns s) : Lined s.bb s.out := by
  rcases hf.new with ⟨total, o, hnew⟩
  have hacc := (FairState.sound_of_new hnew).accounts
  rw [hf.out]
  exact ⟨⟨hacc.fair, hacc.queues, by simp⟩, hacc.index⟩

theorem lined_of_run (hl : Lined s₀.bb s₀.out) (hrun : Machine.Run sectionMachine s₀ tr s) :
    Lined s.bb s.out :=
  hrun.invariant (fun s => Lined s.bb s.out) hl fun _ _ hg hl => lined_step hl hg

end TurnState

/-! ## Whole calls -/

/-- The budget and the waiters that calls returned and nobody gave back. -/
structure CallState where
  bb : ByteBudget
  out : Finset WaiterId := ∅

namespace CallState

/-- Between two calls nobody holds the lock. -/
def idle (s : CallState) : TurnState := ⟨s.bb, s.out, .idle⟩

def next (s : CallState) : BudgetOp → CallState
  | .reserveFor n force g w =>
    let r := s.bb.reserveFor n.toNat force g w
    { bb := r.1
      out := if r.2.ok then w.elim s.out s.out.erase
        else r.2.waiter.elim s.out fun v => insert v s.out }
  | .cancel w => { bb := s.bb.cancel w, out := w.elim s.out s.out.erase }
  | .releaseFor n escape g => { s with bb := s.bb.releaseFor n.toNat escape.toNat g }
  | .register key => { s with bb := (s.bb.register key).1 }
  | .unregister g => { s with bb := s.bb.unregister g }

end CallState

def callMachine : Machine CallState BudgetOp where
  guard s op := s.idle.Owns op
  next := CallState.next

instance (s : CallState) (op : BudgetOp) : Decidable (callMachine.guard s op) :=
  inferInstanceAs (Decidable (s.idle.Owns op))

/-- A budget from `NewFairByteBudget`, before any call. -/
structure FreshCalls (s : CallState) : Prop where
  new : ∃ total o, newFairByteBudget total o = some s.bb
  out : s.out = ∅

namespace TurnState

variable {s s₀ : TurnState} {a : TurnAct} {op : BudgetOp}

/-- The call that holds the lock can go on until it returns, and leaves the budget `bb`. -/
def Finishes (s : TurnState) (bb : ByteBudget) : Prop :=
  ∃ es, turnMachine.Enabled s es ∧ turnMachine.exec s es = ⟨bb, s.out, .idle⟩

theorem finishes_idle (bb : ByteBudget) (out : Finset WaiterId) :
    Finishes ⟨bb, out, .idle⟩ bb := ⟨[], trivial, rfl⟩

theorem Finishes.step {bb : ByteBudget} (hg : s.Allows a) (hout : (s.next a).out = s.out)
    (h : Finishes (s.next a) bb) : Finishes s bb := by
  rcases h with ⟨es, hen, hexec⟩
  rw [hout] at hexec
  exact ⟨a :: es, ⟨hg, hen⟩, hexec⟩

/-- The loop of `scheduleLocked` is a list of rounds. -/
theorem finishes_loop {out : Finset WaiterId} (fuel : Nat) {bb : ByteBudget} (hl : Lined bb out)
    (hfuel : bb.lacking out < fuel) : Finishes ⟨bb, out, .scheduling⟩ (scheduleLoop fuel bb) := by
  induction fuel generalizing bb with
  | zero => omega
  | succ fuel ih =>
    rcases hl.round with ⟨hround, hless⟩
    refine Finishes.step (a := .round) rfl rfl ?_
    unfold next scheduleLoop
    simp only
    generalize bb.scheduleRound = r at hround hless ⊢
    rcases r with ⟨s, go⟩
    cases go with
    | false => exact finishes_idle s out
    | true => exact ih hround (by have := hless rfl; omega)

theorem finishes_schedule {out : Finset WaiterId} {bb : ByteBudget} (hl : Lined bb out) :
    Finishes ⟨bb, out, .scheduling⟩ bb.scheduleLocked :=
  finishes_loop _ hl (by rw [backlog_eq hl.index hl.queues]; exact Nat.lt_succ_self _)

/-- What a turn may do, a section may do. -/
theorem enabled_sections {es : List TurnAct} (hen : turnMachine.Enabled s es) :
    sectionMachine.Enabled s es := by
  induction es generalizing s with
  | nil => trivial
  | cons a es ih => exact ⟨hen.1.opens, ih hen.2⟩

theorem escaped_eq {bb : ByteBudget} {n : Nat} {g : GroupId} {escaped : Bool}
    (h : escaped = false ↔ bb.fits n g = true ∧ (bb.groupAt g).waiters = []) :
    escaped = (!bb.fits n g || !decide ((bb.groupAt g).waiters = [])) := by
  cases escaped with
  | false =>
    obtain ⟨hfits, hempty⟩ := h.1 rfl
    rw [hfits, decide_eq_true hempty]
    rfl
  | true =>
    by_contra hne
    have hfalse : (!bb.fits n g || !decide ((bb.groupAt g).waiters = [])) = false := by
      simpa using Ne.symm hne
    simp at hfalse
    exact Bool.false_ne_true (h.2 hfalse).symm

/-- Every call is its opening, the charge of a forced request that gave up its waiter, and
rounds. -/
theorem call_finishes {s : CallState} (hl : Lined s.bb s.out) (hg : callMachine.guard s op) :
    Finishes (s.idle.opening op) (callMachine.next s op).bb ∧
      (s.idle.opening op).out = (callMachine.next s op).out := by
  have hopening := lined_opening (s := s.idle) hl hg
  cases op with
  | reserveFor n force og w =>
    have hstep := reserveFor_step hl.fair n.toNat force og w
    unfold callMachine CallState.next
    simp only
    generalize s.bb.reserveFor n.toNat force og w = r at hstep ⊢
    cases hstep with
    | consume v hgr =>
      have hopen : s.idle.opening (.reserveFor n force og (some v)) =
          ⟨s.bb.settle (group og), s.out.erase v, .idle⟩ := if_pos hgr
      rw [hopen]
      exact ⟨finishes_idle _ _, rfl⟩
    | wait v hgr hforce =>
      have hopen : s.idle.opening (.reserveFor n force og (some v)) = s.idle :=
        (if_neg (ne_true_of_eq_false hgr)).trans (if_neg (ne_true_of_eq_false hforce))
      rw [hopen]
      exact ⟨finishes_idle _ _, (Finset.insert_eq_self.2 (hg.2 v rfl).1).symm⟩
    | replace v escaped hgr hforce hiff =>
      have hopen : s.idle.opening (.reserveFor n force og (some v)) =
          ⟨s.bb.removeWaiterLocked v, s.out.erase v, .replacing n.toNat (group og)⟩ :=
        (if_neg (ne_true_of_eq_false hgr)).trans (if_pos hforce)
      rw [hopen] at hopening ⊢
      obtain rfl := escaped_eq hiff
      -- the charge, then the rounds
      refine ⟨Finishes.step (a := .charge) ⟨Phase.noConfusion, Phase.noConfusion⟩ rfl ?_, rfl⟩
      exact finishes_schedule (charged_lined hopening n.toNat (group og))
    | admitted escaped hroom hiff =>
      have hopen : s.idle.opening (.reserveFor n force og none) =
          ⟨charged s.bb n.toNat (group og), s.out, .idle⟩ := by
        refine if_pos ?_
        rw [Bool.or_eq_true, Bool.and_eq_true, decide_eq_true_eq]
        exact hroom
      rw [hopen]
      obtain rfl := escaped_eq hiff
      exact ⟨finishes_idle _ _, rfl⟩
    | queue hroom hforce =>
      have hopen : s.idle.opening (.reserveFor n force og none) =
          ⟨((s.bb.enqueue n.toNat (group og)).activateLocked (group og)).refreshLocked (group og),
            insert s.bb.nextWaiter s.out, .scheduling⟩ := by
        refine if_neg ?_
        rw [hforce, Bool.or_false, Bool.and_eq_true, decide_eq_true_eq]
        exact hroom
      rw [hopen] at hopening ⊢
      exact ⟨finishes_schedule hopening, rfl⟩
  | cancel w =>
    cases w with
    | none => exact ⟨finishes_idle _ _, rfl⟩
    | some w =>
      refine ⟨?_, rfl⟩
      show Finishes _ (s.bb.cancel (some w))
      rw [cancel_eq hl.fair]
      exact finishes_schedule hopening
  | releaseFor n escape og =>
    show Finishes _ (s.bb.releaseFor n.toNat escape.toNat og) ∧ _ = s.out
    unfold opening at hopening ⊢
    simp only [CallState.idle] at hopening ⊢
    split_ifs at hopening ⊢ with hn
    · unfold ByteBudget.releaseFor
      rw [if_pos hn]
      exact ⟨finishes_idle _ _, rfl⟩
    · rw [releaseFor_eq hl.fair hn]
      exact ⟨finishes_schedule hopening, rfl⟩
  | register | unregister => exact ⟨finishes_idle _ _, rfl⟩

/-- Every run of calls is a run of sections. -/
theorem sections_of_calls {c₀ c : CallState} {tr : List (Machine.Step CallState BudgetOp)}
    (hl : Lined c₀.bb c₀.out) (hrun : Machine.Run callMachine c₀ tr c) :
    ∃ sections, Machine.Run sectionMachine c₀.idle sections c.idle := by
  refine hrun.invariant (fun c => ∃ sections, Machine.Run sectionMachine c₀.idle sections c.idle)
    ⟨[], .init⟩ ?_
  rintro c op hg ⟨sections, hsections⟩
  rcases call_finishes (lined_of_run hl hsections) hg with ⟨⟨es, hen, hexec⟩, hout⟩
  have hopens : sectionMachine.guard c.idle (.call op) := ⟨rfl, hg⟩
  have hrest := (Machine.Run.step _ hsections hopens).append es (enabled_sections hen)
  have hfinal : sectionMachine.exec (sectionMachine.next c.idle (.call op)) es =
      (callMachine.next c op).idle := by
    refine Eq.trans hexec ?_
    rw [hout]
    rfl
  rw [hfinal] at hrest
  exact ⟨_, hrest⟩

/-- Every run of calls keeps the queues and the indexes. -/
theorem lined_of_calls {c₀ c : CallState} {tr : List (Machine.Step CallState BudgetOp)}
    (hf : FreshCalls c₀) (hrun : Machine.Run callMachine c₀ tr c) : Lined c.bb c.out := by
  have hfresh : FreshTurns c₀.idle := ⟨hf.new, hf.out, rfl⟩
  rcases sections_of_calls (lined_fresh hfresh) hrun with ⟨sections, hsections⟩
  exact lined_of_run (lined_fresh hfresh) hsections

end TurnState

end UspClient
