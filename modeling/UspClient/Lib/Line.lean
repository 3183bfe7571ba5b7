import Mathlib.Tactic

/-!
# Waiting in line

A list that serves its front and takes newcomers at its back. `Ahead h g l` says that `h` is in
line and `g` is not before it. Members other than `h` may join, leave or go to the back, and the
front may be dropped, without `g` getting past `h` (`Ahead.edit`, `Ahead.drop`). Whoever goes to
the back is behind everybody else (`ahead_moveToBack`).
-/

namespace Line

variable {α : Type} {g h x : α} {l l' m : List α}

/-- `h` is in line, and `g` is not before it. -/
def Ahead (h g : α) (l : List α) : Prop := ∃ a b, l = a ++ h :: b ∧ g ∉ a

theorem ahead_of_not_mem (hh : h ∈ l) (hg : g ∉ l) : Ahead h g l := by
  obtain ⟨a, b, rfl⟩ := List.append_of_mem hh
  exact ⟨a, b, rfl, fun hin => hg (List.mem_append_left _ hin)⟩

theorem Ahead.append (ha : Ahead h g l) (m : List α) : Ahead h g (l ++ m) := by
  obtain ⟨a, b, rfl, hg⟩ := ha
  refine ⟨a, b ++ m, ?_, hg⟩
  rw [List.append_assoc, List.cons_append]

/-- Dropping the front, up to `h` at most. -/
theorem Ahead.drop (ha : Ahead h g (m ++ l)) (hnd : (m ++ l).Nodup) (hh : h ∈ l) :
    Ahead h g l := by
  obtain ⟨a, b, heq, hg⟩ := ha
  have hm : h ∉ m := fun hin => List.disjoint_of_nodup_append hnd hin hh
  rcases List.append_eq_append_iff.1 heq with ⟨c, rfl, rfl⟩ | ⟨c, rfl, hc⟩
  · exact ⟨c, b, rfl, fun hin => hg (List.mem_append_right _ hin)⟩
  · -- the front would reach past `h`
    cases c with
    | nil => exact ⟨[], b, hc.symm, List.not_mem_nil⟩
    | cons y c =>
      obtain ⟨rfl, -⟩ := List.cons.inj hc
      exact absurd (List.mem_append_right _ List.mem_cons_self) hm

theorem Ahead.head_ne (ha : Ahead h g l) (hne : g ≠ h) : l.head? ≠ some g := by
  obtain ⟨a, b, rfl, hg⟩ := ha
  cases a with
  | nil => exact fun hhead => hne (Option.some.inj hhead).symm
  | cons y a => exact fun hhead => hg (Option.some.inj hhead ▸ List.mem_cons_self)

section edits

variable [DecidableEq α]

theorem Ahead.erase (ha : Ahead h g l) (hx : x ≠ h) : Ahead h g (l.erase x) := by
  obtain ⟨a, b, rfl, hg⟩ := ha
  by_cases hin : x ∈ a
  · exact ⟨a.erase x, b, List.erase_append_left _ hin, fun hg' => hg (List.mem_of_mem_erase hg')⟩
  · refine ⟨a, b.erase x, ?_, hg⟩
    rw [List.erase_append_right _ hin, List.erase_cons_tail]
    exact fun hb => hx (beq_iff_eq.1 hb).symm

/-- One member joins or leaves the line, or nothing happens. -/
inductive Edit (x : α) (l : List α) : List α → Prop where
  | same : Edit x l l
  | join : Edit x l (l ++ [x])
  | leave : Edit x l (l.erase x)

theorem Ahead.edit (ha : Ahead h g l) (he : Edit x l l') (hnd : l.Nodup) (hh : h ∈ l') :
    Ahead h g l' := by
  cases he with
  | same => exact ha
  | join => exact ha.append [x]
  | leave =>
    refine ha.erase ?_
    rintro rfl
    exact hnd.not_mem_erase hh

theorem Edit.mem_of_ne (he : Edit x l l') (hx : h ≠ x) : h ∈ l' ↔ h ∈ l := by
  cases he with
  | same => rfl
  | join => rw [List.mem_append, List.mem_singleton, or_iff_left hx]
  | leave => exact List.mem_erase_of_ne hx

/-- A member goes to the back of the line. -/
def moveToBack (x : α) (l : List α) : List α := if x ∈ l then l.erase x ++ [x] else l

/-- The same members are in line. -/
theorem moveToBack_perm (x : α) (l : List α) : (moveToBack x l).Perm l := by
  unfold moveToBack
  split_ifs with hx
  · exact (List.perm_append_singleton x _).trans (List.perm_cons_erase hx).symm
  · exact List.Perm.refl l

theorem Ahead.moveToBack (ha : Ahead h g l) (hx : x ≠ h) : Ahead h g (moveToBack x l) := by
  unfold Line.moveToBack
  split_ifs
  · exact (ha.erase hx).append [x]
  · exact ha

theorem ahead_moveToBack (hh : h ∈ l) (hne : g ≠ h) (hnd : l.Nodup) :
    Ahead h g (moveToBack g l) := by
  unfold moveToBack
  split_ifs with hg
  · have hin : h ∈ l.erase g := (List.mem_erase_of_ne hne.symm).2 hh
    exact (ahead_of_not_mem hin hnd.not_mem_erase).append [g]
  · exact ahead_of_not_mem hh hg

end edits

/-- A sum of which at most one term is not zero. -/
theorem sum_le_of_once {f : α → Nat} {q : Nat} (hle : ∀ y ∈ l, f y ≤ q)
    (honce : l.Pairwise fun y z => f y ≠ 0 → f z = 0) : (l.map f).sum ≤ q := by
  induction l with
  | nil => exact Nat.zero_le q
  | cons y l ih =>
    obtain ⟨hfirst, hrest⟩ := List.pairwise_cons.1 honce
    rw [List.map_cons, List.sum_cons]
    by_cases hy : f y = 0
    · rw [hy, Nat.zero_add]
      exact ih (fun z hz => hle z (List.mem_cons_of_mem _ hz)) hrest
    · have hzero : (l.map f).sum = 0 := by
        refine List.sum_eq_zero fun n hn => ?_
        obtain ⟨z, hz, rfl⟩ := List.mem_map.1 hn
        exact hfirst z hz hy
      rw [hzero]
      exact hle y List.mem_cons_self

end Line
