import Mathlib.Tactic

/-!
# Unsigned 64-bit arithmetic on `Nat`

Machine words are natural numbers below `2 ^ 64`; the two operations that can
wrap are written out. Comparisons, division and remainder of words are those of
`Nat`, so only addition and subtraction need a definition here.
-/

namespace Word64

/-- The largest word, `2 ^ 64 - 1`. -/
def maxWord : Nat := 18446744073709551615

/-- Wrapping addition. -/
def add64 (a b : Nat) : Nat := (a + b) % 2 ^ 64

/-- Wrapping subtraction. -/
def sub64 (a b : Nat) : Nat := (a + (2 ^ 64 - b % 2 ^ 64)) % 2 ^ 64

/-- The wrapping sum of a list of words. -/
def sum64 (l : List Nat) : Nat := l.foldl add64 0

theorem add64_lt (a b : Nat) : add64 a b < 2 ^ 64 := Nat.mod_lt _ (by norm_num)

theorem add64_le (a b : Nat) : add64 a b ≤ a + b := Nat.mod_le _ _

theorem sub64_lt (a b : Nat) : sub64 a b < 2 ^ 64 := Nat.mod_lt _ (by norm_num)

theorem add64_eq {a b : Nat} (h : a + b < 2 ^ 64) : add64 a b = a + b :=
  Nat.mod_eq_of_lt h

theorem sub64_eq {a b : Nat} (hba : b ≤ a) (ha : a < 2 ^ 64) : sub64 a b = a - b := by
  unfold sub64
  omega

/-- The distance from `first` to the word `i` places after it is `i`, wrapped
or not. -/
theorem sub64_add {first i : Nat} (hi : i < 2 ^ 64) :
    sub64 ((first + i) % 2 ^ 64) (first % 2 ^ 64) = i := by
  unfold sub64
  omega

theorem foldl_add64 (l : List Nat) (a : Nat) (h : a + l.sum < 2 ^ 64) :
    l.foldl add64 a = a + l.sum := by
  induction l generalizing a with
  | nil => simp
  | cons x l ih =>
    rw [List.sum_cons] at h
    have hx : add64 a x = a + x := add64_eq (by omega)
    rw [List.foldl_cons, hx, ih (a + x) (by omega), List.sum_cons]
    omega

/-- Below the word size the wrapping sum is the sum. -/
theorem sum64_eq {l : List Nat} (h : l.sum < 2 ^ 64) : sum64 l = l.sum := by
  unfold sum64
  rw [foldl_add64 l 0 (by omega), Nat.zero_add]

/-- A sum of terms that are themselves sums. -/
theorem sum64_map_eq {α : Type} (f : α → Nat) (g : α → Nat) (l : List α)
    (hfg : ∀ x, f x < 2 ^ 64 → g x = f x) (h : (l.map f).sum < 2 ^ 64) :
    sum64 (l.map g) = (l.map f).sum := by
  have hmap : l.map g = l.map f := by
    refine List.map_congr_left fun x hx => hfg x ?_
    have := List.single_le_sum (by simp) _ (List.mem_map_of_mem (f := f) hx)
    omega
  rw [hmap, sum64_eq h]

end Word64
