/-!
# Checks that stop at the first error

A validator is a sequence of checks, each of which answers an error or lets the next one run. The
combinators are the statements validators are made of; the lemmas say when each of them lets the
next one run.
-/

namespace Checks

variable {ε ε' α β : Type}

/-- `if c { return err }`. -/
def refuseIf (c : Prop) [Decidable c] (err : ε) : Except ε Unit := if c then .error err else .ok ()

/-- `if c { if err := check; err != nil { return err } }`. -/
def checkIf (c : Prop) [Decidable c] (check : Except ε Unit) : Except ε Unit :=
  if c then check else .ok ()

/-- The checks of a list, each with the position of its element. -/
def eachFrom (check : Nat → α → Except ε Unit) : Nat → List α → Except ε Unit
  | _, [] => .ok ()
  | i, x :: l => do
    check i x
    eachFrom check (i + 1) l

/-- `for i, x := range l { if err := check(i, x); err != nil { return err } }`. -/
def each (l : List α) (check : Nat → α → Except ε Unit) : Except ε Unit := eachFrom check 0 l

theorem refuseIf_ok {c : Prop} [Decidable c] {err : ε} : refuseIf c err = .ok () ↔ ¬ c := by
  unfold refuseIf
  split
  next h => exact ⟨nofun, fun hn => absurd h hn⟩
  next h => exact ⟨fun _ => h, fun _ => rfl⟩

theorem checkIf_ok {c : Prop} [Decidable c] {check : Except ε Unit} :
    checkIf c check = .ok () ↔ (c → check = .ok ()) := by
  unfold checkIf
  split
  next h => exact ⟨fun hc _ => hc, fun hc => hc h⟩
  next h => exact ⟨fun _ hc => absurd hc h, fun _ => rfl⟩

theorem bind_ok {check : Except ε α} {rest : α → Except ε β} {b : β} :
    (check >>= rest) = .ok b ↔ ∃ a, check = .ok a ∧ rest a = .ok b := by
  cases check with
  | error e => exact ⟨nofun, nofun⟩
  | ok a => exact ⟨fun h => ⟨a, rfl, h⟩, fun ⟨_, ha, h⟩ => Except.ok.inj ha ▸ h⟩

/-- A check that answers nothing runs, and the next one does. -/
theorem seq_ok {check : Except ε Unit} {rest : Unit → Except ε β} {b : β} :
    (check >>= rest) = .ok b ↔ check = .ok () ∧ rest () = .ok b :=
  bind_ok.trans ⟨fun ⟨_, hcheck, hrest⟩ => ⟨hcheck, hrest⟩, fun h => ⟨(), h⟩⟩

theorem mapError_ok {check : Except ε α} {f : ε → ε'} {a : α} :
    check.mapError f = .ok a ↔ check = .ok a := by
  cases check with
  | error e => exact ⟨nofun, nofun⟩
  | ok b => exact ⟨fun h => congrArg _ (Except.ok.inj h), fun h => congrArg _ (Except.ok.inj h)⟩

/-- A check that accepts the same elements at every position. -/
theorem each_ok {l : List α} {check : Nat → α → Except ε Unit} (accepts : α → Prop)
    (h : ∀ i x, check i x = .ok () ↔ accepts x) :
    each l check = .ok () ↔ ∀ x ∈ l, accepts x := by
  have hfrom : ∀ i, eachFrom check i l = .ok () ↔ ∀ x ∈ l, accepts x := by
    induction l with
    | nil => exact fun i => ⟨fun _ => nofun, fun _ => rfl⟩
    | cons x l ih =>
      intro i
      unfold eachFrom
      rw [seq_ok, h, ih, List.forall_mem_cons]
  exact hfrom 0

end Checks
