import Mathlib.Tactic

/-!
# Guarded machines and their runs

A machine has a guard and a total next-state function for every action. A run
records every step it took, so that a statement about a run can speak about the
state before and after any of its steps. Invariant induction is packaged once,
for predicates of the state and for predicates of the whole history.
-/

/-- Guarded actions with a total next-state function. -/
structure Machine (σ ε : Type) where
  guard : σ → ε → Prop
  next : σ → ε → σ

namespace Machine

/-- One step of a run: the state before, the action, the state after. -/
structure Step (σ ε : Type) where
  pre : σ
  act : ε
  post : σ

variable {σ ε : Type} {M : Machine σ ε} {s₀ s : σ} {tr : List (Step σ ε)}

/-- `Run M s₀ tr s`: the machine went from `s₀` to `s` by the steps `tr`. -/
inductive Run (M : Machine σ ε) (s₀ : σ) : List (Step σ ε) → σ → Prop where
  | init : Run M s₀ [] s₀
  | step {tr : List (Step σ ε)} {s : σ} (e : ε) :
      Run M s₀ tr s → M.guard s e → Run M s₀ (tr ++ [⟨s, e, M.next s e⟩]) (M.next s e)

/-- Invariant induction over runs. -/
theorem Run.invariant (inv : σ → Prop) (hinit : inv s₀)
    (hstep : ∀ s e, M.guard s e → inv s → inv (M.next s e)) (h : Run M s₀ tr s) : inv s := by
  induction h with
  | init => exact hinit
  | step e _ hg ih => exact hstep _ e hg ih

/-- Invariant induction for a predicate of the history and the state. -/
theorem Run.history (inv : List (Step σ ε) → σ → Prop) (hinit : inv [] s₀)
    (hstep : ∀ tr s e, M.guard s e → inv tr s →
      inv (tr ++ [⟨s, e, M.next s e⟩]) (M.next s e)) (h : Run M s₀ tr s) : inv tr s := by
  induction h with
  | init => exact hinit
  | step e _ hg ih => exact hstep _ _ e hg ih

/-- Invariant induction over the runs whose steps all meet a condition. -/
theorem Run.history_of (C : σ → ε → Prop) (inv : List (Step σ ε) → σ → Prop) (hinit : inv [] s₀)
    (hstep : ∀ tr s e, M.guard s e → C s e → inv tr s →
      inv (tr ++ [⟨s, e, M.next s e⟩]) (M.next s e)) (h : Run M s₀ tr s)
    (hC : ∀ t ∈ tr, C t.pre t.act) : inv tr s := by
  induction h with
  | init => exact hinit
  | step e _ hg ih =>
    have hlast := hC _ (List.mem_append_right _ List.mem_cons_self)
    exact hstep _ _ e hg hlast (ih fun t ht => hC t (List.mem_append_left _ ht))

theorem Run.invariant_of (C : σ → ε → Prop) (inv : σ → Prop) (hinit : inv s₀)
    (hstep : ∀ s e, M.guard s e → C s e → inv s → inv (M.next s e)) (h : Run M s₀ tr s)
    (hC : ∀ t ∈ tr, C t.pre t.act) : inv s :=
  h.history_of C (fun _ => inv) hinit (fun _ => hstep) hC

/-- Every recorded step was taken from a state the run reached before it. -/
theorem Run.step_of_mem (h : Run M s₀ tr s) {t : Step σ ε} (ht : t ∈ tr) :
    ∃ tr', Run M s₀ tr' t.pre ∧ M.guard t.pre t.act ∧ t.post = M.next t.pre t.act ∧
      tr' ++ [t] <+: tr := by
  induction h with
  | init => simp at ht
  | step e hrun hg ih =>
    rcases List.mem_append.1 ht with hmem | hlast
    · obtain ⟨tr', hrun', hg', hpost, hpre⟩ := ih hmem
      exact ⟨tr', hrun', hg', hpost, hpre.trans (List.prefix_append _ _)⟩
    · rw [List.mem_singleton] at hlast
      subst hlast
      exact ⟨_, hrun, hg, rfl, List.prefix_refl _⟩

/-! ## Executing a list of actions -/

/-- The state after a list of actions. -/
def exec (M : Machine σ ε) (s : σ) (es : List ε) : σ := es.foldl M.next s

/-- The steps a list of actions takes. -/
def trace (M : Machine σ ε) (s : σ) : List ε → List (Step σ ε)
  | [] => []
  | e :: es => ⟨s, e, M.next s e⟩ :: trace M (M.next s e) es

theorem exists_mem_trace {M : Machine σ ε} {e : ε} :
    ∀ {es : List ε} {s : σ}, e ∈ es → ∃ st ∈ M.trace s es, st.act = e
  | x :: es, s, h => by
    rcases List.mem_cons.1 h with rfl | hrest
    · exact ⟨_, List.mem_cons_self, rfl⟩
    · obtain ⟨st, hst, hact⟩ := exists_mem_trace (s := M.next s x) hrest
      exact ⟨st, List.mem_cons_of_mem _ hst, hact⟩

/-- Every action of the list finds its guard true. -/
def Enabled (M : Machine σ ε) (s : σ) : List ε → Prop
  | [] => True
  | e :: es => M.guard s e ∧ Enabled M (M.next s e) es

instance decEnabled (M : Machine σ ε) [∀ s e, Decidable (M.guard s e)] :
    ∀ s es, Decidable (M.Enabled s es)
  | _, [] => isTrue trivial
  | s, e :: es =>
    have := decEnabled M (M.next s e) es
    inferInstanceAs (Decidable (M.guard s e ∧ M.Enabled (M.next s e) es))

theorem Run.append (h : Run M s₀ tr s) (es : List ε) (hen : M.Enabled s es) :
    Run M s₀ (tr ++ M.trace s es) (M.exec s es) := by
  induction es generalizing tr s with
  | nil => simpa [trace, exec] using h
  | cons e es ih =>
    have hrun := ih (Run.step e h hen.1) hen.2
    simpa [trace, exec, List.append_assoc] using hrun

/-- A list of enabled actions is a run. -/
theorem run_exec (es : List ε) (hen : M.Enabled s₀ es) :
    Run M s₀ (M.trace s₀ es) (M.exec s₀ es) := by
  simpa using Run.append Run.init es hen

/-! ## Images of runs -/

theorem exec_cons (M : Machine σ ε) (s : σ) (e : ε) (es : List ε) :
    M.exec s (e :: es) = M.exec (M.next s e) es := rfl

theorem enabled_cons (M : Machine σ ε) (s : σ) (e : ε) (es : List ε) :
    M.Enabled s (e :: es) ↔ M.guard s e ∧ M.Enabled (M.next s e) es := Iff.rfl

theorem exec_append (M : Machine σ ε) (s : σ) (es fs : List ε) :
    M.exec s (es ++ fs) = M.exec (M.exec s es) fs := List.foldl_append

theorem enabled_append (M : Machine σ ε) (s : σ) (es fs : List ε) :
    M.Enabled s (es ++ fs) ↔ M.Enabled s es ∧ M.Enabled (M.exec s es) fs := by
  induction es generalizing s with
  | nil => exact (and_iff_right trivial).symm
  | cons e es ih =>
    show M.guard s e ∧ M.Enabled (M.next s e) (es ++ fs) ↔ (M.guard s e ∧ _) ∧ _
    rw [ih, and_assoc]
    rfl

theorem trace_append (M : Machine σ ε) (s : σ) (es fs : List ε) :
    M.trace s (es ++ fs) = M.trace s es ++ M.trace (M.exec s es) fs := by
  induction es generalizing s with
  | nil => rfl
  | cons e es ih =>
    show _ :: M.trace (M.next s e) (es ++ fs) = _
    rw [ih]
    rfl

/-- A second machine that takes the image of every action follows the run, and shows what the
run shows, if related states stay related. -/
theorem Run.image {τ ζ ω : Type} {N : Machine τ ζ} {f : ε → ζ} {t₀ : τ} {R : σ → τ → Prop}
    {C : Step σ ε → Prop} {shows : Step σ ε → ω} {shows' : Step τ ζ → ω} (hinit : R s₀ t₀)
    (hstep : ∀ s t a, R s t → M.guard s a → C ⟨s, a, M.next s a⟩ →
      N.guard t (f a) ∧ R (M.next s a) (N.next t (f a)) ∧
        shows' ⟨t, f a, N.next t (f a)⟩ = shows ⟨s, a, M.next s a⟩)
    (h : Run M s₀ tr s) (hC : ∀ st ∈ tr, C st) :
    N.Enabled t₀ (tr.map fun st => f st.act) ∧
      R s (N.exec t₀ (tr.map fun st => f st.act)) ∧
      (N.trace t₀ (tr.map fun st => f st.act)).map shows' = tr.map shows := by
  induction h with
  | init => exact ⟨trivial, hinit, rfl⟩
  | step a hrun hg ih =>
    obtain ⟨hen, hR, hshows⟩ := ih fun st hst => hC st (List.mem_append_left _ hst)
    obtain ⟨hguard, hnext, hshow⟩ :=
      hstep _ _ a hR hg (hC _ (List.mem_append_right _ List.mem_cons_self))
    rw [List.map_append, enabled_append, exec_append, trace_append, List.map_append,
      List.map_append, hshows]
    refine ⟨⟨hen, hguard, trivial⟩, hnext, ?_⟩
    show _ ++ [_] = _ ++ [_]
    rw [hshow]

end Machine
