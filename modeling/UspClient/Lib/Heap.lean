import Mathlib.Tactic

/-!
# Binary heaps behind an interface

The sift loops of an array heap that is reached only through two operations,
"is element `i` less than element `j`" and "swap elements `i` and `j`". The
interface is a pair of functions on a state, so that a swap may also update
whatever else the owner of the heap keeps about its elements (such as back
pointers to the positions).

Correctness is stated for the keys the owner sees: `up`, `down` and `fix` end
with the min-heap order on the first `n` positions, provided only the element at
the given position was out of place (`OrdExcept`).
-/

namespace BinHeap

open Function

/-- The interface: comparison and exchange of two positions. -/
structure Ops (σ : Type) where
  less : σ → Nat → Nat → Bool
  swap : σ → Nat → Nat → σ

variable {σ : Type}

/-! ## The loops -/

/-- Sift up from `j`; the position at least halves in every round, so `fuel = j`
rounds are enough. -/
def upLoop (H : Ops σ) : Nat → σ → Nat → σ
  | 0, s, _ => s
  | fuel + 1, s, j =>
    let i := (j - 1) / 2
    if i = j ∨ H.less s j i = false then s else upLoop H fuel (H.swap s i j) i

def up (H : Ops σ) (s : σ) (j : Nat) : σ := upLoop H j s j

/-- Sift down from `i` inside the first `n` positions; the answer carries the
position reached. -/
def downLoop (H : Ops σ) : Nat → σ → Nat → Nat → σ × Nat
  | 0, s, i, _ => (s, i)
  | fuel + 1, s, i, n =>
    let j1 := 2 * i + 1
    if n ≤ j1 then (s, i)
    else
      let j := if j1 + 1 < n ∧ H.less s (j1 + 1) j1 = true then j1 + 1 else j1
      if H.less s j i = true then downLoop H fuel (H.swap s i j) j n else (s, i)

/-- `down` also answers whether the element moved. -/
def down (H : Ops σ) (s : σ) (i₀ n : Nat) : σ × Bool :=
  let r := downLoop H n s i₀ n
  (r.1, decide (i₀ < r.2))

/-- Re-establish the order after the element at `i` changed. -/
def fix (H : Ops σ) (s : σ) (i n : Nat) : σ :=
  let r := down H s i n
  if r.2 then r.1 else up H r.1 i

/-! ## Order predicates -/

section Order

variable {κ : Type} [LinearOrder κ]

/-- The position above `j`. -/
def par (j : Nat) : Nat := (j - 1) / 2

theorem par_lt {j : Nat} (h : 0 < j) : par j < j := by
  unfold par
  omega

/-- Min-heap order of the first `n` keys. -/
def HeapOrd (k : Nat → κ) (n : Nat) : Prop := ∀ c, 0 < c → c < n → k (par c) ≤ k c

/-- The first key of a heap is its least. -/
theorem HeapOrd.root_le {k : Nat → κ} {n : Nat} (h : HeapOrd k n) : ∀ c, c < n → k 0 ≤ k c := by
  intro c
  induction c using Nat.strong_induction_on with
  | _ c ih =>
    intro hcn
    rcases Nat.eq_zero_or_pos c with rfl | hc
    · exact le_rfl
    · have hp := par_lt hc
      exact (ih (par c) hp (by omega)).trans (h c hc hcn)

/-- Only the element at `i` may be out of place, in either direction. -/
structure OrdExcept (k : Nat → κ) (n i : Nat) : Prop where
  off : ∀ c, 0 < c → c < n → c ≠ i → par c ≠ i → k (par c) ≤ k c
  grand : 0 < i → ∀ c, 0 < c → c < n → par c = i → k (par i) ≤ k c

/-- Only the element at `j` may be out of place, and only against its parent. -/
structure UpOrd (k : Nat → κ) (n j : Nat) : Prop extends OrdExcept k n j where
  below : ∀ c, 0 < c → c < n → par c = j → k j ≤ k c

/-- Only the element at `i` may be out of place, and only against its children. -/
structure DownOrd (k : Nat → κ) (n i : Nat) : Prop extends OrdExcept k n i where
  above : 0 < i → k (par i) ≤ k i

/-- If some value at position `i` would make the keys a heap, only position `i`
is out of place. -/
theorem OrdExcept.of_heapOrd {k : Nat → κ} {n i : Nat} (v : κ) (hi : i < n)
    (h : HeapOrd (update k i v) n) : OrdExcept k n i := by
  constructor
  · intro c hc hcn hci hpi
    have hord := h c hc hcn
    rwa [update_of_ne hci, update_of_ne hpi] at hord
  · intro hi0 c hc hcn hpc
    have hup := h i hi0 hi
    have hdown := h c hc hcn
    have hpi : par i ≠ i := (par_lt hi0).ne
    have hci : c ≠ i := by
      have := par_lt hc
      omega
    rw [update_of_ne hpi, update_self] at hup
    rw [hpc, update_self, update_of_ne hci] at hdown
    exact hup.trans hdown

/-- The element at `j` moves up past its parent. -/
theorem UpOrd.swap {k : Nat → κ} {n j : Nat} (o : UpOrd k n j) (hj : 0 < j) (hjn : j < n)
    (hlt : k j < k (par j)) : UpOrd (fun c => k (Equiv.swap (par j) j c)) n (par j) := by
  have hpj := par_lt hj
  have hother : ∀ c, c ≠ j → c ≠ par j → Equiv.swap (par j) j c = c :=
    fun c hcj hcp => Equiv.swap_apply_of_ne_of_ne hcp hcj
  refine ⟨⟨?_, ?_⟩, ?_⟩
  · intro c hc hcn hcp hpc
    by_cases hcj : c = j
    · exact absurd (by rw [hcj]) hpc
    · rw [hother c hcj hcp]
      by_cases hpj' : par c = j
      · rw [hpj', Equiv.swap_apply_right]
        exact o.grand hj c hc hcn hpj'
      · rw [hother _ hpj' hpc]
        exact o.off c hc hcn hcj hpj'
  · intro hp0 c hc hcn hpc
    have hpp := par_lt hp0
    rw [hother (par (par j)) (by omega) (by omega)]
    have hgrand : k (par (par j)) ≤ k (par j) := o.off _ hp0 (by omega) (by omega) (by omega)
    by_cases hcj : c = j
    · rw [hcj, Equiv.swap_apply_right]
      exact hgrand
    · have := par_lt hc
      rw [hother c hcj (by omega)]
      have hc' := o.off c hc hcn hcj (by omega)
      rw [hpc] at hc'
      exact hgrand.trans hc'
  · intro c hc hcn hpc
    rw [Equiv.swap_apply_left]
    by_cases hcj : c = j
    · rw [hcj, Equiv.swap_apply_right]
      exact hlt.le
    · have := par_lt hc
      rw [hother c hcj (by omega)]
      have hc' := o.off c hc hcn hcj (by omega)
      rw [hpc] at hc'
      exact hlt.le.trans hc'

theorem UpOrd.heapOrd {k : Nat → κ} {n j : Nat} (o : UpOrd k n j)
    (hstop : 0 < j → k (par j) ≤ k j) : HeapOrd k n := by
  intro c hc hcn
  by_cases hcj : c = j
  · subst hcj
    exact hstop hc
  · by_cases hpj : par c = j
    · rw [hpj]
      exact o.below c hc hcn hpj
    · exact o.off c hc hcn hcj hpj

/-- The element at `i` moves down past its smallest child `j`. -/
theorem OrdExcept.swap {k : Nat → κ} {n i j : Nat} (o : OrdExcept k n i) (hj : 0 < j)
    (hjn : j < n) (hpj : par j = i) (hlt : k j < k i)
    (hmin : ∀ c, 0 < c → c < n → par c = i → k j ≤ k c) :
    DownOrd (fun c => k (Equiv.swap i j c)) n j := by
  have hij : i < j := hpj ▸ par_lt hj
  have hother : ∀ c, c ≠ j → c ≠ i → Equiv.swap i j c = c :=
    fun c hcj hci => Equiv.swap_apply_of_ne_of_ne hci hcj
  refine ⟨⟨?_, ?_⟩, ?_⟩
  · intro c hc hcn hcj hpcj
    by_cases hci : c = i
    · subst hci
      have := par_lt hc
      rw [Equiv.swap_apply_left, hother (par c) hpcj (by omega)]
      exact o.grand hc j hj hjn hpj
    · rw [hother c hcj hci]
      by_cases hpci : par c = i
      · rw [hpci, Equiv.swap_apply_left]
        exact hmin c hc hcn hpci
      · rw [hother _ hpcj hpci]
        exact o.off c hc hcn hci hpci
  · intro _ c hc hcn hpc
    have := par_lt hc
    rw [hpj, Equiv.swap_apply_left, hother c (by omega) (by omega)]
    have hc' := o.off c hc hcn (by omega) (by omega)
    rwa [hpc] at hc'
  · intro _
    rw [hpj, Equiv.swap_apply_left, Equiv.swap_apply_right]
    exact hlt.le

/-! ## The loops keep what every swap keeps -/

/-- What the owner of the heap promises about its first `n` positions: while
`good` holds, `less` compares keys and `swap` exchanges two of them. -/
structure Lawful (H : Ops σ) (n : Nat) (good : σ → Prop) (key : σ → Nat → κ) : Prop where
  less_iff : ∀ s i j, good s → i < n → j < n → (H.less s i j = true ↔ key s i < key s j)
  swap_good : ∀ s i j, good s → i < n → j < n → i ≠ j → good (H.swap s i j)
  swap_key : ∀ s i j c, good s → i < n → j < n → i ≠ j →
    key (H.swap s i j) c = key s (Equiv.swap i j c)

/-- The child that `downLoop` compares with the element at `i`. -/
def smallChild (H : Ops σ) (s : σ) (i n : Nat) : Nat :=
  if 2 * i + 1 + 1 < n ∧ H.less s (2 * i + 1 + 1) (2 * i + 1) = true then 2 * i + 1 + 1
  else 2 * i + 1

theorem downLoop_succ (H : Ops σ) (fuel : Nat) (s : σ) (i n : Nat) :
    downLoop H (fuel + 1) s i n =
      if n ≤ 2 * i + 1 then (s, i)
      else if H.less s (smallChild H s i n) i = true then
        downLoop H fuel (H.swap s i (smallChild H s i n)) (smallChild H s i n) n
      else (s, i) := rfl

theorem smallChild_spec (H : Ops σ) (s : σ) {i n : Nat} (hn : ¬ n ≤ 2 * i + 1) :
    0 < smallChild H s i n ∧ smallChild H s i n < n ∧ par (smallChild H s i n) = i := by
  unfold smallChild par
  split_ifs <;> omega

variable {H : Ops σ} {n : Nat} {good : σ → Prop} {key : σ → Nat → κ}

theorem smallChild_min (L : Lawful H n good key) {s : σ} (hs : good s) (i : Nat) :
    ∀ c, 0 < c → c < n → par c = i → key s (smallChild H s i n) ≤ key s c := by
  intro c hc hcn hpc
  have hcases : c = 2 * i + 1 ∨ c = 2 * i + 1 + 1 := by
    unfold par at hpc
    omega
  unfold smallChild
  split_ifs with hless
  · have hlt := (L.less_iff s _ _ hs hless.1 (by omega)).1 hless.2
    rcases hcases with rfl | rfl
    · exact hlt.le
    · exact le_rfl
  · rcases hcases with rfl | rfl
    · exact le_rfl
    · have hnot : ¬ key s (2 * i + 1 + 1) < key s (2 * i + 1) := by
        intro hlt
        exact hless ⟨hcn, (L.less_iff s _ _ hs hcn (by omega)).2 hlt⟩
      exact not_lt.1 hnot

/-- A property that every swap of two of the first `n` positions keeps is kept by
`upLoop`. -/
theorem upLoop_induct (P : σ → Prop)
    (hswap : ∀ s i j, P s → i < n → j < n → i ≠ j → P (H.swap s i j))
    (fuel : Nat) (s : σ) (j : Nat) (hj : j < n) (hs : P s) : P (upLoop H fuel s j) := by
  induction fuel generalizing s j with
  | zero => exact hs
  | succ fuel ih =>
    unfold upLoop
    simp only
    split_ifs with hstop
    · exact hs
    · rw [not_or] at hstop
      have hle : (j - 1) / 2 < n := by omega
      exact ih _ _ hle (hswap s _ j hs hle hj hstop.1)

theorem downLoop_induct (P : σ → Prop)
    (hswap : ∀ s i j, P s → i < n → j < n → i ≠ j → P (H.swap s i j))
    (fuel : Nat) (s : σ) (i : Nat) (hi : i < n) (hs : P s) : P (downLoop H fuel s i n).1 := by
  induction fuel generalizing s i with
  | zero => exact hs
  | succ fuel ih =>
    rw [downLoop_succ]
    split_ifs with hn hless
    · exact hs
    · obtain ⟨hpos, hlt, hpar⟩ := smallChild_spec H s hn
      have hne : i ≠ smallChild H s i n := by
        have := par_lt hpos
        omega
      exact ih _ _ hlt (hswap s i _ hs hi hlt hne)
    · exact hs

theorem fix_induct (P : σ → Prop)
    (hswap : ∀ s i j, P s → i < n → j < n → i ≠ j → P (H.swap s i j))
    (s : σ) (i : Nat) (hi : i < n) (hs : P s) : P (fix H s i n) := by
  have hdown : P (down H s i n).1 := downLoop_induct P hswap n s i hi hs
  unfold fix
  simp only
  split_ifs
  · exact hdown
  · exact upLoop_induct P hswap i _ i hi hdown

/-! ## The loops restore the order -/

theorem upLoop_heapOrd (L : Lawful H n good key) (fuel : Nat) (s : σ) (j : Nat) (hs : good s)
    (hj : j < n) (hfuel : j ≤ fuel) (o : UpOrd (key s) n j) :
    HeapOrd (key (upLoop H fuel s j)) n := by
  induction fuel generalizing s j with
  | zero =>
    refine o.heapOrd ?_
    intro h0
    omega
  | succ fuel ih =>
    have hpar : (j - 1) / 2 = par j := rfl
    unfold upLoop
    simp only [hpar]
    split_ifs with hstop
    · refine o.heapOrd ?_
      intro h0
      have hp := par_lt h0
      rcases hstop with heq | hless
      · omega
      · have hnot : ¬ key s j < key s (par j) := by
          intro hlt
          have := (L.less_iff s j (par j) hs hj (by omega)).2 hlt
          simp [hless] at this
        exact not_lt.1 hnot
    · rw [not_or, Bool.not_eq_false] at hstop
      have h0 : 0 < j := by
        rcases Nat.eq_zero_or_pos j with rfl | h0
        · exact absurd rfl hstop.1
        · exact h0
      have hp := par_lt h0
      have hlt := (L.less_iff s j (par j) hs hj (by omega)).1 hstop.2
      have hkey : key (H.swap s (par j) j) = fun c => key s (Equiv.swap (par j) j c) :=
        funext fun c => L.swap_key s _ _ c hs (by omega) hj hstop.1
      refine ih _ _ (L.swap_good s _ _ hs (by omega) hj hstop.1) (by omega) (by omega) ?_
      rw [hkey]
      exact o.swap h0 hj hlt

theorem up_heapOrd (L : Lawful H n good key) {s : σ} {j : Nat} (hs : good s) (hj : j < n)
    (o : UpOrd (key s) n j) : HeapOrd (key (up H s j)) n :=
  upLoop_heapOrd L j s j hs hj le_rfl o

/-- One round of the sift down: it stops with the children in order, or moves to
a child below which alone the order may be broken. -/
theorem downLoop_cases (L : Lawful H n good key) (fuel : Nat) (s : σ) (i : Nat) (hs : good s)
    (hi : i < n) (o : OrdExcept (key s) n i) :
    (downLoop H (fuel + 1) s i n = (s, i) ∧ UpOrd (key s) n i) ∨
      ∃ s' j, i < j ∧ j < n ∧ good s' ∧ DownOrd (key s') n j ∧
        downLoop H (fuel + 1) s i n = downLoop H fuel s' j n := by
  rw [downLoop_succ]
  split_ifs with hn hless
  · refine Or.inl ⟨rfl, o, ?_⟩
    intro c hc hcn hpc
    unfold par at hpc
    omega
  · obtain ⟨hpos, hlt, hpar⟩ := smallChild_spec H s hn
    have hij : i < smallChild H s i n := by
      have := par_lt hpos
      omega
    have hk := (L.less_iff s _ _ hs hlt hi).1 hless
    have hkey : key (H.swap s i (smallChild H s i n)) =
        fun c => key s (Equiv.swap i (smallChild H s i n) c) :=
      funext fun c => L.swap_key s _ _ c hs hi hlt hij.ne
    refine Or.inr ⟨_, _, hij, hlt, L.swap_good s _ _ hs hi hlt hij.ne, ?_, rfl⟩
    rw [hkey]
    exact o.swap hpos hlt hpar hk (smallChild_min L hs i)
  · refine Or.inl ⟨rfl, o, ?_⟩
    intro c hc hcn hpc
    have hnot : ¬ key s (smallChild H s i n) < key s i := by
      intro hlt
      exact hless ((L.less_iff s _ _ hs (smallChild_spec H s hn).2.1 hi).2 hlt)
    exact (not_lt.1 hnot).trans (smallChild_min L hs i c hc hcn hpc)

theorem downLoop_heapOrd (L : Lawful H n good key) (fuel : Nat) (s : σ) (i : Nat) (hs : good s)
    (hi : i < n) (hfuel : n ≤ i + fuel) (o : DownOrd (key s) n i) :
    HeapOrd (key (downLoop H fuel s i n).1) n := by
  induction fuel generalizing s i with
  | zero => omega
  | succ fuel ih =>
    rcases downLoop_cases L fuel s i hs hi o.toOrdExcept with ⟨heq, hup⟩ | ⟨s', j, hij, hjn, hs', o', heq⟩
    · rw [heq]
      exact hup.heapOrd o.above
    · rw [heq]
      exact ih s' j hs' hjn (by omega) o'

theorem le_downLoop (fuel : Nat) (s : σ) (i : Nat) : i ≤ (downLoop H fuel s i n).2 := by
  induction fuel generalizing s i with
  | zero => exact le_rfl
  | succ fuel ih =>
    rw [downLoop_succ]
    split_ifs with hn hless
    · exact le_rfl
    · have hspec := smallChild_spec H s hn
      have := par_lt hspec.1
      exact le_trans (by omega) (ih _ _)
    · exact le_rfl

/-- `fix` restores the heap order when only the element at `i` was out of place. -/
theorem fix_heapOrd (L : Lawful H n good key) {s : σ} {i : Nat} (hs : good s) (hi : i < n)
    (o : OrdExcept (key s) n i) : HeapOrd (key (fix H s i n)) n := by
  obtain ⟨m, rfl⟩ : ∃ m, n = m + 1 := ⟨n - 1, by omega⟩
  unfold fix down
  simp only [decide_eq_true_eq]
  rcases downLoop_cases L m s i hs hi o with ⟨heq, hup⟩ | ⟨s', j, hij, hjn, hs', o', heq⟩
  · -- nothing moved: the element may still have to go up
    rw [heq, if_neg (lt_irrefl i)]
    exact up_heapOrd L hs hi hup
  · have hmoved : i < (downLoop H m s' j (m + 1)).2 :=
      lt_of_lt_of_le hij (le_downLoop m s' j)
    rw [heq, if_pos hmoved]
    exact downLoop_heapOrd L m s' j hs' hjn (by omega) o'

end Order

/-! ## Comparisons that may fail -/

/-- The interface with a comparison that some elements do not stand. -/
structure CheckedOps (σ : Type) where
  less : σ → Nat → Nat → Option Bool
  swap : σ → Nat → Nat → σ

namespace Checked

def upLoop (C : CheckedOps σ) : Nat → σ → Nat → Option σ
  | 0, s, _ => some s
  | fuel + 1, s, j =>
    let i := (j - 1) / 2
    if i = j then some s
    else do
      if ← C.less s j i then upLoop C fuel (C.swap s i j) i else return s

def up (C : CheckedOps σ) (s : σ) (j : Nat) : Option σ := upLoop C j s j

def smallChild (C : CheckedOps σ) (s : σ) (i n : Nat) : Option Nat :=
  let j1 := 2 * i + 1
  if j1 + 1 < n then do
    if ← C.less s (j1 + 1) j1 then return j1 + 1 else return j1
  else some j1

def downLoop (C : CheckedOps σ) : Nat → σ → Nat → Nat → Option (σ × Nat)
  | 0, s, i, _ => some (s, i)
  | fuel + 1, s, i, n =>
    if n ≤ 2 * i + 1 then some (s, i)
    else do
      let j ← smallChild C s i n
      if ← C.less s j i then downLoop C fuel (C.swap s i j) j n else return (s, i)

def down (C : CheckedOps σ) (s : σ) (i₀ n : Nat) : Option (σ × Bool) := do
  let r ← downLoop C n s i₀ n
  return (r.1, decide (i₀ < r.2))

def fix (C : CheckedOps σ) (s : σ) (i n : Nat) : Option σ := do
  let r ← down C s i n
  if r.2 then return r.1 else up C r.1 i

end Checked

/-- While `good` holds, the first `n` elements stand every comparison. -/
structure Agrees (C : CheckedOps σ) (H : Ops σ) (n : Nat) (good : σ → Prop) : Prop where
  less : ∀ s i j, good s → i < n → j < n → C.less s i j = some (H.less s i j)
  swap : C.swap = H.swap
  good : ∀ s i j, good s → i < n → j < n → i ≠ j → good (H.swap s i j)

section Agrees

variable {C : CheckedOps σ} {H : Ops σ} {n : Nat} {good : σ → Prop}

theorem Agrees.upLoop (A : Agrees C H n good) (fuel : Nat) (s : σ) (j : Nat) (hs : good s)
    (hj : j < n) : Checked.upLoop C fuel s j = some (BinHeap.upLoop H fuel s j) := by
  induction fuel generalizing s j with
  | zero => rfl
  | succ fuel ih =>
    have hi : (j - 1) / 2 < n := by omega
    unfold Checked.upLoop BinHeap.upLoop
    simp only
    by_cases hroot : (j - 1) / 2 = j
    · rw [if_pos hroot, if_pos (.inl hroot)]
    · rw [if_neg hroot, A.less s j _ hs hj hi, A.swap, Option.bind_eq_bind, Option.bind_some]
      cases hless : H.less s j ((j - 1) / 2) with
      | false =>
        rw [if_neg Bool.false_ne_true, if_pos (Or.inr rfl)]
        rfl
      | true =>
        rw [if_pos rfl, if_neg (not_or.2 ⟨hroot, Bool.noConfusion⟩)]
        exact ih _ _ (A.good s _ _ hs hi hj hroot) hi

theorem Agrees.smallChild (A : Agrees C H n good) {s : σ} (hs : good s) (i : Nat) :
    Checked.smallChild C s i n = some (BinHeap.smallChild H s i n) := by
  unfold Checked.smallChild BinHeap.smallChild
  simp only
  by_cases hin : 2 * i + 1 + 1 < n
  · rw [if_pos hin, A.less s _ _ hs hin (by omega), Option.bind_eq_bind, Option.bind_some]
    cases H.less s (2 * i + 1 + 1) (2 * i + 1) with
    | false =>
      rw [if_neg Bool.false_ne_true, if_neg fun h => Bool.false_ne_true h.2]
      rfl
    | true =>
      rw [if_pos rfl, if_pos ⟨hin, rfl⟩]
      rfl
  · rw [if_neg hin, if_neg fun h => hin h.1]

theorem Agrees.downLoop (A : Agrees C H n good) (fuel : Nat) (s : σ) (i : Nat) (hs : good s)
    (hi : i < n) : Checked.downLoop C fuel s i n = some (BinHeap.downLoop H fuel s i n) := by
  induction fuel generalizing s i with
  | zero => rfl
  | succ fuel ih =>
    rw [downLoop_succ]
    unfold Checked.downLoop
    by_cases hleaf : n ≤ 2 * i + 1
    · rw [if_pos hleaf, if_pos hleaf]
    · rcases smallChild_spec H s hleaf with ⟨hpos, hlt, hpar⟩
      have hne : i ≠ BinHeap.smallChild H s i n := by
        have := par_lt hpos
        omega
      rw [if_neg hleaf, if_neg hleaf, A.smallChild hs i, Option.bind_eq_bind, Option.bind_some,
        A.less s _ _ hs hlt hi, A.swap, Option.bind_eq_bind, Option.bind_some]
      cases hless : H.less s (BinHeap.smallChild H s i n) i with
      | false => rfl
      | true =>
        rw [if_pos rfl, if_pos rfl]
        exact ih _ _ (A.good s _ _ hs hi hlt hne) hlt

theorem Agrees.up (A : Agrees C H n good) {s : σ} {j : Nat} (hs : good s) (hj : j < n) :
    Checked.up C s j = some (BinHeap.up H s j) :=
  A.upLoop j s j hs hj

theorem Agrees.down (A : Agrees C H n good) {s : σ} {i : Nat} (hs : good s) (hi : i < n) :
    Checked.down C s i n = some (BinHeap.down H s i n) := by
  unfold Checked.down
  rw [A.downLoop n s i hs hi]
  rfl

theorem Agrees.fix (A : Agrees C H n good) {s : σ} {i : Nat} (hs : good s) (hi : i < n) :
    Checked.fix C s i n = some (BinHeap.fix H s i n) := by
  have hdown : good (BinHeap.down H s i n).1 := downLoop_induct good A.good n s i hi hs
  unfold Checked.fix BinHeap.fix
  rw [A.down hs hi, Option.bind_eq_bind, Option.bind_some]
  simp only
  split_ifs
  · rfl
  · exact A.up hdown hi

end Agrees

end BinHeap
