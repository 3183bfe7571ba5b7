/-!
# Loops

A loop is its body: from a state the body leaves the loop with a result (`.inl`) or goes round
again (`.inr`). `Ends body s r` says that the loop entered in state `s` comes to its end, with
result `r`; there is no fuel in it, so a loop that never leaves has no result. `Visits body s t`
are the states at the top of the loop.
-/

namespace Loop

variable {σ ρ : Type} {body : σ → ρ ⊕ σ} {s t : σ}

inductive Ends (body : σ → ρ ⊕ σ) : σ → ρ → Prop where
  | leave {s : σ} {r : ρ} : body s = .inl r → Ends body s r
  | again {s t : σ} {r : ρ} : body s = .inr t → Ends body t r → Ends body s r

inductive Visits (body : σ → ρ ⊕ σ) (s : σ) : σ → Prop where
  | enter : Visits body s s
  | again {t u : σ} : Visits body s t → body t = .inr u → Visits body s u

/-- Whatever the body keeps holds whenever the loop goes round. -/
theorem Visits.invariant (inv : σ → Prop) (hs : inv s)
    (hstep : ∀ t u, inv t → body t = .inr u → inv u) (h : Visits body s t) : inv t := by
  induction h with
  | enter => exact hs
  | again _ hu ih => exact hstep _ _ ih hu

/-- The loop with a bound on its rounds; `out` is what it answers when the bound is reached. -/
def bounded (body : σ → ρ ⊕ σ) (out : σ → ρ) : Nat → σ → ρ
  | 0, s => out s
  | fuel + 1, s =>
    match body s with
    | .inl r => r
    | .inr t => bounded body out fuel t

/-- A loop that keeps an invariant, and comes down in a measure when it goes round, ends; a bound
that is not below the measure is never reached before. -/
theorem ends_bounded (inv : σ → Prop) (measure : σ → Nat) (out : σ → ρ)
    (hstep : ∀ t u, inv t → body t = .inr u → inv u ∧ measure u < measure t)
    (hstop : ∀ t, inv t → measure t = 0 → body t = .inl (out t)) (fuel : Nat) (hs : inv s)
    (hfuel : measure s ≤ fuel) : Ends body s (bounded body out fuel s) := by
  induction fuel generalizing s with
  | zero => exact .leave (hstop s hs (by omega))
  | succ fuel ih =>
    unfold bounded
    cases hb : body s with
    | inl r => exact .leave hb
    | inr t =>
      rcases hstep s t hs hb with ⟨ht, hlt⟩
      exact .again hb (ih ht (by omega))

end Loop
