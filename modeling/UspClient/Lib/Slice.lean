import Mathlib.Tactic

/-!
# Slices with their run-time checks

A slice is the list of its elements. Indexing, storing, reslicing and clearing a range give
`none` where the program would panic; copying never does. A range is checked against the
length of the slice, which is stricter than a check against its capacity.
-/

namespace Slice

variable {α : Type} {s t : List α} {i k lo hi n : Nat} {x : α}

/-- `s[i]`. -/
def index (s : List α) (i : Nat) : Option α := s[i]?

/-- `s[i] = x`. -/
def store (s : List α) (i : Nat) (x : α) : Option (List α) :=
  if i < s.length then some (s.set i x) else none

/-- `s[lo:hi]`. -/
def reslice (s : List α) (lo hi : Nat) : Option (List α) :=
  if lo ≤ hi ∧ hi ≤ s.length then some ((s.take hi).drop lo) else none

/-- `s` after `copy(s, t)`. -/
def copy (s t : List α) : List α := t.take s.length ++ s.drop t.length

/-- `s` after `clear(s[lo:hi])`, where `x` is the zero value. -/
def clear (s : List α) (lo hi : Nat) (x : α) : Option (List α) :=
  if lo ≤ hi ∧ hi ≤ s.length then some (s.take lo ++ List.replicate (hi - lo) x ++ s.drop hi)
  else none

/-- `make([]T, n, c)`, where `x` is the zero value. -/
def make (n c : Nat) (x : α) : Option (List α) :=
  if n ≤ c then some (List.replicate n x) else none

theorem getElem?_of_lt {d : α} (h : i < s.length) : s[i]? = some (s.getD i d) := by
  rw [List.getD_eq_getElem?_getD, List.getElem?_eq_getElem h, Option.getD_some]

theorem getD_of_getElem? {d : α} (h : s[i]? = some x) : s.getD i d = x := by
  rw [List.getD_eq_getElem?_getD, h, Option.getD_some]

theorem index_getD (h : i < s.length) (x : α) : index s i = some (s.getD i x) := getElem?_of_lt h

theorem store_eq (h : i < s.length) : store s i x = some (s.set i x) := if_pos h

theorem reslice_eq (hlo : lo ≤ hi) (hhi : hi ≤ s.length) :
    reslice s lo hi = some ((s.take hi).drop lo) := if_pos ⟨hlo, hhi⟩

theorem reslice_head (h : n ≤ s.length) : reslice s 0 n = some (s.take n) :=
  reslice_eq (Nat.zero_le n) h

theorem reslice_tail (h : n ≤ s.length) : reslice s n s.length = some (s.drop n) := by
  rw [reslice_eq h (Nat.le_refl _), List.take_length]

theorem make_eq {c : Nat} (h : n ≤ c) : make n c x = some (List.replicate n x) := if_pos h

theorem copy_of_le (h : t.length ≤ s.length) : copy s t = t ++ s.drop t.length := by
  unfold copy
  rw [List.take_of_length_le h]

/-- A slice copied into a new one. -/
theorem copy_replicate (n : Nat) (x : α) (t : List α) :
    copy (List.replicate n x) t = t.take n ++ List.replicate (n - t.length) x := by
  unfold copy
  rw [List.length_replicate, List.drop_replicate]

/-- `s = s[:copy(s, s[k:])]` drops the first `k` elements. -/
theorem reslice_copy_tail (s : List α) (k : Nat) :
    reslice (copy s (s.drop k)) 0 (s.drop k).length = some (s.drop k) := by
  have hlen : (s.drop k).length ≤ s.length := by
    rw [List.length_drop]
    exact Nat.sub_le _ _
  rw [copy_of_le hlen, reslice_head, List.take_left]
  rw [List.length_append]
  exact Nat.le_add_right _ _

/-- `copy(s, s[k:n])`, then `clear(s[n-k:n])`: the elements from `k` to `n` move to the front. -/
theorem clear_copy_shift (hk : k ≤ n) (hn : n ≤ s.length) :
    clear (copy s ((s.take n).drop k)) (n - k) n x =
      some ((s.take n).drop k ++ List.replicate k x ++ s.drop n) := by
  have hlen : ((s.take n).drop k).length = n - k := by
    rw [List.length_drop, List.length_take_of_le hn]
  generalize (s.take n).drop k = r at hlen
  have hcopy : copy s r = r ++ s.drop (n - k) := by
    rw [copy_of_le (by omega), hlen]
  have htail : (r ++ s.drop (n - k)).drop n = s.drop n := by
    rw [List.drop_append, List.drop_of_length_le (by omega), List.nil_append, List.drop_drop]
    congr 1
    omega
  unfold clear
  rw [hcopy, if_pos]
  · rw [List.take_left' hlen, htail, Nat.sub_sub_self hk]
  · rw [List.length_append, List.length_drop, hlen]
    omega

/-! ## Loops over a slice -/

/-- The loop `for n < len && p(n) { n++ }` stops at the first index that fails, or at the end. -/
theorem takeWhile_range (n : Nat) : ∀ p : Nat → Bool,
    (∀ j < ((List.range n).takeWhile p).length, p j = true) ∧
      (((List.range n).takeWhile p).length < n → p ((List.range n).takeWhile p).length = false) := by
  induction n with
  | zero =>
    intro p
    exact ⟨fun j hj => absurd hj (Nat.not_lt_zero j), fun h => absurd h (Nat.not_lt_zero _)⟩
  | succ n ih =>
    intro p
    rw [List.range_succ_eq_map, List.takeWhile_cons]
    cases h0 : p 0 with
    | false =>
      exact ⟨fun j hj => absurd hj (Nat.not_lt_zero j), fun _ => h0⟩
    | true =>
      obtain ⟨hrun, hend⟩ := ih (p ∘ Nat.succ)
      rw [if_pos rfl, List.length_cons, List.takeWhile_map, List.length_map]
      refine ⟨fun j hj => ?_, fun h => hend (by omega)⟩
      cases j with
      | zero => exact h0
      | succ j => exact hrun j (by omega)

/-- A search whose checks all pass is the search. -/
theorem anyM_some {p : α → Option Bool} {p' : α → Bool} (l : List α)
    (h : ∀ x ∈ l, p x = some (p' x)) : l.anyM p = some (l.any p') := by
  induction l with
  | nil => rfl
  | cons x l ih =>
    rw [List.anyM, h x List.mem_cons_self, List.any_cons]
    cases hp : p' x with
    | true => rfl
    | false => exact ih fun y hy => h y (List.mem_cons_of_mem _ hy)

/-- A copy whose checks all pass is the copy. -/
theorem mapM_some {β : Type} {p : α → Option β} {p' : α → β} (l : List α)
    (h : ∀ x ∈ l, p x = some (p' x)) : l.mapM p = some (l.map p') := by
  induction l with
  | nil => rfl
  | cons x l ih =>
    rw [List.mapM_cons, h x List.mem_cons_self, ih fun y hy => h y (List.mem_cons_of_mem _ hy)]
    rfl

/-- A sum over the elements that pass counts the others as zero. -/
theorem sum_map_filter (l : List α) (p : α → Prop) [DecidablePred p] (φ : α → Nat) :
    ((l.filter fun x => decide (p x)).map φ).sum = (l.map fun x => if p x then φ x else 0).sum := by
  rw [List.sum_map_ite, List.map_const', List.sum_replicate, nsmul_zero, Nat.add_zero]

theorem map_filter_pair (l : List α) (p : α → Bool) (φ : α → Nat) :
    (l.filter p).map φ = ((l.map fun x => (p x, φ x)).filter Prod.fst).map Prod.snd := by
  rw [List.filter_map, List.map_map]
  rfl

/-- Running through the indices of a list is running through the list. -/
theorem map_filter_range {β : Type} (l : List α) {p : Nat → Bool} {P : α → Bool} {φ : Nat → β}
    {ψ : α → β} (hp : ∀ (i : Nat) x, l[i]? = some x → p i = P x)
    (hφ : ∀ (i : Nat) x, l[i]? = some x → P x = true → φ i = ψ x) :
    ((List.range l.length).filter p).map φ = (l.filter P).map ψ := by
  induction l using List.reverseRecOn with
  | nil => rfl
  | append_singleton l x ih =>
    have hlast : (l ++ [x])[l.length]? = some x := by simp
    have hinit := ih (fun i y hy => hp i y (by
        rw [List.getElem?_append_left (List.getElem?_eq_some_iff.1 hy).1]; exact hy))
      (fun i y hy => hφ i y (by
        rw [List.getElem?_append_left (List.getElem?_eq_some_iff.1 hy).1]; exact hy))
    rw [List.length_append, List.length_singleton, List.range_succ, List.filter_append,
      List.filter_append, List.map_append, List.map_append, hinit]
    congr 1
    rw [List.filter_singleton, List.filter_singleton, hp _ _ hlast]
    cases hP : P x with
    | false => rfl
    | true =>
      show [φ l.length] = [ψ x]
      rw [hφ _ _ hlast hP]

/-- The run of elements that pass is longer than any stretch of them. -/
theorem lt_length_takeWhile {p : α → Bool} {l : List α}
    (h : ∀ j, j ≤ i → ∃ y, l[j]? = some y ∧ p y = true) : i < (l.takeWhile p).length := by
  induction l generalizing i with
  | nil =>
    obtain ⟨y, hy, -⟩ := h 0 (Nat.zero_le i)
    simp at hy
  | cons x l ih =>
    obtain ⟨y, hy, hp⟩ := h 0 (Nat.zero_le i)
    obtain rfl : x = y := by simpa using hy
    rw [List.takeWhile_cons, if_pos hp, List.length_cons]
    cases i with
    | zero => exact Nat.succ_pos _
    | succ i =>
      refine Nat.succ_lt_succ (ih fun j hj => ?_)
      obtain ⟨z, hz, hpz⟩ := h (j + 1) (Nat.succ_le_succ hj)
      exact ⟨z, by simpa using hz, hpz⟩

/-! ## One element more -/

theorem nodup_concat (hs : s.Nodup) (hx : x ∉ s) : (s ++ [x]).Nodup := by
  rw [← List.concat_eq_append]
  exact hs.concat hx

theorem exists_mem_append_singleton {P : α → Prop} :
    (∃ y ∈ s ++ [x], P y) ↔ (∃ y ∈ s, P y) ∨ P x := by
  simp [or_and_right, exists_or]

/-- What no earlier step and not the last one recorded. -/
theorem recorded_of_not {P : Prop} {Q : α → Prop} (hold : P ↔ ∃ y ∈ s, Q y) (hnew : ¬ Q x) :
    P ↔ ∃ y ∈ s ++ [x], Q y := by
  rw [exists_mem_append_singleton, ← hold]
  exact ⟨.inl, fun hor => hor.resolve_right hnew⟩

/-! ## Sums -/

/-- Replacing one element. -/
theorem sum_set_add {l : List Nat} {m : Nat} (h : l[i]? = some m) (a : Nat) :
    (l.set i a).sum + m = l.sum + a := by
  induction l generalizing i with
  | nil => simp at h
  | cons y l ih =>
    cases i with
    | zero =>
      obtain rfl : y = m := by simpa using h
      rw [List.set_cons_zero, List.sum_cons, List.sum_cons]
      omega
    | succ i =>
      have hi := ih (i := i) (by simpa using h)
      rw [List.set_cons_succ, List.sum_cons, List.sum_cons]
      omega

/-- Replacing one summand. -/
theorem sum_update_add (hi : i < n) (f : Nat → Nat) (v : Nat) :
    ∑ j ∈ Finset.range n, Function.update f i v j + f i = ∑ j ∈ Finset.range n, f j + v := by
  have hmem : i ∈ Finset.range n := Finset.mem_range.2 hi
  rw [Finset.sum_update_of_mem hmem, ← Finset.add_sum_erase _ f hmem, Finset.sdiff_singleton_eq_erase]
  omega

theorem sum_zero_or_le {l : List Nat} {least : Nat} (h : ∀ y ∈ l, y = 0 ∨ least ≤ y) :
    l.sum = 0 ∨ least ≤ l.sum := by
  induction l with
  | nil => exact .inl rfl
  | cons x l ih =>
    rw [List.forall_mem_cons] at h
    rw [List.sum_cons]
    have hrest := ih h.2
    omega

end Slice
