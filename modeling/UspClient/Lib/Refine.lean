import UspClient.Lib.Machine

/-!
# Refinement mappings and progress of guarded machines

A refinement mapping reads a state of one machine as a state of a second one. Each step, from
a state the invariant allows, becomes a list of actions of the second machine: none where the
step is invisible. A whole run then becomes a run, with the same visible history.

Progress is stated as the existence of a continuation. From every state the invariant allows,
the goal can be reached if an enabled action brings it nearer.
-/

namespace Machine

variable {σ τ ε ζ ω : Type} {M : Machine σ ε} {N : Machine τ ζ} {s₀ s : σ}
  {tr : List (Step σ ε)}

/-! ## Refinement -/

/-- `M` refines `N` on the states `inv` allows: `abs` reads a state, `acts` a step. -/
structure Refinement (M : Machine σ ε) (N : Machine τ ζ) (inv : σ → Prop) where
  abs : σ → τ
  acts : σ → ε → List ζ
  enabled : ∀ s e, M.guard s e → inv s → N.Enabled (abs s) (acts s e)
  exec : ∀ s e, M.guard s e → inv s → N.exec (abs s) (acts s e) = abs (M.next s e)

namespace Refinement

variable {inv : σ → Prop} (R : Refinement M N inv)

/-- The actions of the second machine along a run. -/
def image (tr : List (Step σ ε)) : List ζ := tr.flatMap fun st => R.acts st.pre st.act

theorem image_snoc (tr : List (Step σ ε)) (st : Step σ ε) :
    R.image (tr ++ [st]) = R.image tr ++ R.acts st.pre st.act := by
  simp only [image, List.flatMap_append, List.flatMap_singleton]

theorem run (h : Run M s₀ tr s) (hinv : ∀ st ∈ tr, inv st.pre) :
    N.Enabled (R.abs s₀) (R.image tr) ∧ N.exec (R.abs s₀) (R.image tr) = R.abs s := by
  induction h with
  | init => exact ⟨trivial, rfl⟩
  | step e hrun hg ih =>
    have hlast := hinv _ (List.mem_append_right _ List.mem_cons_self)
    rcases ih fun st hst => hinv st (List.mem_append_left _ hst) with ⟨hen, hex⟩
    rw [image_snoc, enabled_append, exec_append, hex]
    exact ⟨⟨hen, R.enabled _ e hg hlast⟩, R.exec _ e hg hlast⟩

/-- What the steps show survives the mapping if each step shows what its image shows. -/
theorem filterMap_image {shows : ε → Option ω} {shows' : ζ → Option ω}
    (hshow : ∀ st ∈ tr, (R.acts st.pre st.act).filterMap shows' = (shows st.act).toList) :
    (R.image tr).filterMap shows' = tr.filterMap fun st => shows st.act := by
  induction tr with
  | nil => rfl
  | cons st tr ih =>
    have hhead := hshow st List.mem_cons_self
    have htail := ih fun st' hst' => hshow st' (List.mem_cons_of_mem _ hst')
    simp only [image, List.flatMap_cons, List.filterMap_append, List.filterMap_cons] at htail ⊢
    rw [hhead, htail]
    cases shows st.act with
    | none => rfl
    | some x => rfl

end Refinement

/-- Along a run from a state with an inductive invariant, every recorded step starts in it. -/
theorem Run.invariant_pre (inv : σ → Prop) (hinit : inv s₀)
    (hstep : ∀ s e, M.guard s e → inv s → inv (M.next s e)) (h : Run M s₀ tr s) :
    ∀ st ∈ tr, inv st.pre := by
  intro st hst
  rcases h.step_of_mem hst with ⟨_, hrun, _⟩
  exact hrun.invariant inv hinit hstep

/-! ## Progress -/

section Progress

variable (inv goal : σ → Prop) (allowed : σ → ε → Prop)

/-- Every action of the list is allowed where it is taken. -/
def Allowed (M : Machine σ ε) (allowed : σ → ε → Prop) (s : σ) : List ε → Prop
  | [] => True
  | e :: es => allowed s e ∧ M.Allowed allowed (M.next s e) es

instance decAllowed (M : Machine σ ε) [∀ s e, Decidable (allowed s e)] :
    ∀ s es, Decidable (M.Allowed allowed s es)
  | _, [] => isTrue trivial
  | s, e :: es =>
    have := decAllowed M (M.next s e) es
    inferInstanceAs (Decidable (allowed s e ∧ M.Allowed allowed (M.next s e) es))

variable {inv goal allowed}

theorem allowed_append (M : Machine σ ε) (s : σ) (es fs : List ε) :
    M.Allowed allowed s (es ++ fs) ↔ M.Allowed allowed s es ∧ M.Allowed allowed (M.exec s es) fs := by
  induction es generalizing s with
  | nil => exact (and_iff_right trivial).symm
  | cons e es ih =>
    show allowed s e ∧ M.Allowed allowed (M.next s e) (es ++ fs) ↔ (allowed s e ∧ _) ∧ _
    rw [ih, and_assoc]
    rfl

/-- Allowed actions lead from `s` to the goal. -/
def Reaches (M : Machine σ ε) (allowed : σ → ε → Prop) (s : σ) (goal : σ → Prop) : Prop :=
  ∃ es, M.Enabled s es ∧ M.Allowed allowed s es ∧ goal (M.exec s es)

theorem Reaches.here (h : goal s) : M.Reaches allowed s goal := ⟨[], trivial, trivial, h⟩

theorem Reaches.cons {e : ε} (hg : M.guard s e) (hok : allowed s e)
    (h : M.Reaches allowed (M.next s e) goal) : M.Reaches allowed s goal := by
  rcases h with ⟨es, hen, hall, hgoal⟩
  exact ⟨e :: es, ⟨hg, hen⟩, ⟨hok, hall⟩, hgoal⟩

/-- Two legs of a way. -/
theorem Reaches.trans {mid : σ → Prop} (h : M.Reaches allowed s mid)
    (hmid : ∀ s, mid s → M.Reaches allowed s goal) : M.Reaches allowed s goal := by
  rcases h with ⟨es, hen, hall, hm⟩
  rcases hmid _ hm with ⟨fs, hen', hall', hgoal⟩
  refine ⟨es ++ fs, (M.enabled_append s es fs).2 ⟨hen, hen'⟩,
    (M.allowed_append s es fs).2 ⟨hall, hall'⟩, ?_⟩
  rw [exec_append]
  exact hgoal

/-- The goal can be reached from every state the invariant allows, if an allowed action brings
any other state nearer to it. -/
theorem reaches_of_rank (inv : σ → Prop) (rank : σ → Nat)
    (hstep : ∀ s, inv s → ¬goal s →
      ∃ e, M.guard s e ∧ allowed s e ∧ inv (M.next s e) ∧ rank (M.next s e) < rank s)
    (h : inv s) : M.Reaches allowed s fun s' => inv s' ∧ goal s' := by
  -- the induction is on the rank: every action taken makes it smaller
  induction s using (InvImage.wf rank Nat.lt_wfRel.wf).induction with
  | _ s ih =>
    by_cases hgoal : goal s
    · exact .here ⟨h, hgoal⟩
    · rcases hstep s h hgoal with ⟨e, hg, hok, hinv, hlt⟩
      exact .cons hg hok (ih _ hlt hinv)

/-- If every allowed action makes the rank smaller, the rank bounds how many can be taken. -/
theorem length_le_rank {rank : σ → Nat}
    (hstep : ∀ s e, inv s → M.guard s e → allowed s e →
      inv (M.next s e) ∧ rank (M.next s e) < rank s)
    (h : inv s) {es : List ε} (hen : M.Enabled s es) (hall : M.Allowed allowed s es) :
    inv (M.exec s es) ∧ es.length + rank (M.exec s es) ≤ rank s := by
  induction es generalizing s with
  | nil => exact ⟨h, (Nat.zero_add _).le⟩
  | cons e es ih =>
    rcases hstep s e h hen.1 hall.1 with ⟨hinv, hlt⟩
    rcases ih hinv hen.2 hall.2 with ⟨hinv', hle⟩
    refine ⟨hinv', ?_⟩
    rw [exec_cons, List.length_cons]
    omega

end Progress

end Machine
