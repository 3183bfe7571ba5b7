import UspClient.Budget.Model

/-!
# The heap of blocked groups

`container/heap` run on `groupHeap`: every operation keeps the back pointers
(`heapIndex` is the position of the group in `blocked`), touches nothing but
`blocked` and `heapIndex`, and leaves `blocked` in min-heap order of `groupNeed`,
provided at most one group, the one it is called for, changed its need.
-/

namespace UspClient

open Function

namespace ByteBudget

variable {bb s : ByteBudget} {g h : GroupId} {i j n : Nat}

/-! ## What the index operations leave alone -/

/-- The budget without the heap fields. -/
def heapless (bb : ByteBudget) : ByteBudget :=
  { bb with blocked := [], groupAt := fun g => { bb.groupAt g with heapIndex := none } }

/-- The budget without any scheduling index: what the byte accounting sees. -/
def core (bb : ByteBudget) : ByteBudget :=
  { bb with
    waiting := [], reserveReady := [], blocked := [],
    groupAt := fun g =>
      { bb.groupAt g with allElem := false, reserveElem := false, heapIndex := none } }

theorem core_of_heapless (h : s.heapless = bb.heapless) : s.core = bb.core := by
  have hc := congrArg core h
  exact hc

theorem groupNeed_of_core (h : s.core = bb.core) (g : GroupId) : s.groupNeed g = bb.groupNeed g := by
  have hn := congrArg (fun x : ByteBudget => x.groupNeed g) h
  exact hn

theorem share_of_core (h : s.core = bb.core) (g : GroupId) : s.share g = bb.share g := by
  have hs := congrArg (fun x : ByteBudget => x.share g) h
  exact hs

theorem heapless_setGroup {f : BudgetGroup → BudgetGroup}
    (hf : ∀ x, { f x with heapIndex := none } = { x with heapIndex := none }) :
    (bb.setGroup g f).heapless = bb.heapless := by
  unfold heapless setGroup
  simp only [mk.injEq, true_and, and_true]
  funext h
  by_cases hg : h = g
  · subst hg
    rw [update_self]
    exact hf _
  · rw [update_of_ne hg]

theorem core_setGroup {f : BudgetGroup → BudgetGroup}
    (hf : ∀ x, { f x with allElem := false, reserveElem := false, heapIndex := none } =
      { x with allElem := false, reserveElem := false, heapIndex := none }) :
    (bb.setGroup g f).core = bb.core := by
  unfold core setGroup
  simp only [mk.injEq, true_and, and_true]
  funext h
  by_cases hg : h = g
  · subst hg
    rw [update_self]
    exact hf _
  · rw [update_of_ne hg]

/-! ## Back pointers -/

/-- `heapIndex` is exactly the position in `blocked`. -/
def HeapBack (bb : ByteBudget) : Prop :=
  ∀ g i, (bb.groupAt g).heapIndex = some i ↔ bb.blocked[i]? = some g

theorem HeapBack.mem_iff (hb : HeapBack bb) (g : GroupId) :
    g ∈ bb.blocked ↔ ∃ i, (bb.groupAt g).heapIndex = some i := by
  rw [List.mem_iff_getElem?]
  exact exists_congr fun i => (hb g i).symm

theorem HeapBack.inj (hb : HeapBack bb) (hi : bb.blocked[i]? = some g)
    (hj : bb.blocked[j]? = some g) : i = j := by
  rw [← hb] at hi hj
  exact Option.some.inj (hi.symm.trans hj)

/-- `s` is `bb` with its heap rearranged. -/
structure HeapSame (bb s : ByteBudget) : Prop where
  rest : s.heapless = bb.heapless
  back : HeapBack s
  len : s.blocked.length = bb.blocked.length
  mem : ∀ g, g ∈ s.blocked ↔ g ∈ bb.blocked

theorem HeapSame.refl (hb : HeapBack bb) : HeapSame bb bb :=
  ⟨rfl, hb, rfl, fun _ => Iff.rfl⟩

theorem HeapSame.trans {t : ByteBudget} (h₁ : HeapSame bb s) (h₂ : HeapSame s t) :
    HeapSame bb t :=
  ⟨h₂.rest.trans h₁.rest, h₂.back, h₂.len.trans h₁.len, fun g => (h₂.mem g).trans (h₁.mem g)⟩

/-- The element at each position after a swap. -/
theorem heapSwap_getElem? (hi : i < bb.blocked.length) (hj : j < bb.blocked.length) (k : Nat) :
    (bb.heapSwap i j).blocked[k]? = bb.blocked[Equiv.swap i j k]? := by
  have hsw : (bb.heapSwap i j).blocked =
      (bb.blocked.set i (bb.blocked.getD j 0)).set j (bb.blocked.getD i 0) := rfl
  rw [hsw, List.getElem?_set, List.getElem?_set]
  by_cases hkj : j = k
  · subst hkj
    simp only [if_true, List.length_set, if_pos hj, Equiv.swap_apply_right]
    exact (Slice.getElem?_of_lt hi).symm
  · rw [if_neg hkj]
    by_cases hki : i = k
    · subst hki
      rw [if_pos rfl, if_pos hi, Equiv.swap_apply_left]
      exact (Slice.getElem?_of_lt hj).symm
    · rw [if_neg hki, Equiv.swap_apply_of_ne_of_ne (Ne.symm hki) (Ne.symm hkj)]

theorem heapSwap_heapless (bb : ByteBudget) (i j : Nat) :
    (bb.heapSwap i j).heapless = bb.heapless := by
  unfold heapSwap
  refine (heapless_setGroup (by intro x; rfl)).trans ?_
  exact heapless_setGroup (by intro x; rfl)

theorem heapSwap_back (hb : HeapBack bb) (hi : i < bb.blocked.length)
    (hj : j < bb.blocked.length) : HeapBack (bb.heapSwap i j) := by
  have hgi := Slice.getElem?_of_lt (d := 0) hi
  have hgj := Slice.getElem?_of_lt (d := 0) hj
  intro h k
  rw [heapSwap_getElem? hi hj]
  have hat : ((bb.heapSwap i j).groupAt h).heapIndex =
      if h = bb.blocked.getD i 0 then some j
      else if h = bb.blocked.getD j 0 then some i else (bb.groupAt h).heapIndex := by
    unfold heapSwap
    simp only [setGroup_groupAt, update_apply]
    split_ifs <;> rfl
  rw [hat]
  -- the group's old position is where the swap takes its new one from
  split_ifs with h1 h2
  · subst h1
    rw [Option.some_inj]
    constructor
    · rintro rfl
      rw [Equiv.swap_apply_right]
      exact hgi
    · intro hk
      have := hb.inj hk hgi
      rw [Equiv.swap_apply_eq_iff, Equiv.swap_apply_left] at this
      exact this.symm
  · subst h2
    rw [Option.some_inj]
    constructor
    · rintro rfl
      rw [Equiv.swap_apply_left]
      exact hgj
    · intro hk
      have := hb.inj hk hgj
      rw [Equiv.swap_apply_eq_iff, Equiv.swap_apply_right] at this
      exact this.symm
  · rw [hb]
    by_cases hki : k = i
    · subst hki
      rw [Equiv.swap_apply_left, hgi, hgj]
      constructor
      · intro e
        exact absurd (Option.some.inj e).symm h1
      · intro e
        exact absurd (Option.some.inj e).symm h2
    · by_cases hkj : k = j
      · subst hkj
        rw [Equiv.swap_apply_right, hgi, hgj]
        constructor
        · intro e
          exact absurd (Option.some.inj e).symm h2
        · intro e
          exact absurd (Option.some.inj e).symm h1
      · rw [Equiv.swap_apply_of_ne_of_ne hki hkj]

theorem heapSwap_same (hb : HeapBack bb) (hi : i < bb.blocked.length)
    (hj : j < bb.blocked.length) : HeapSame bb (bb.heapSwap i j) := by
  refine ⟨heapSwap_heapless bb i j, heapSwap_back hb hi hj, ?_, ?_⟩
  · simp [heapSwap]
  · intro g
    rw [List.mem_iff_getElem?, List.mem_iff_getElem?]
    constructor
    · rintro ⟨k, hk⟩
      rw [heapSwap_getElem? hi hj] at hk
      exact ⟨_, hk⟩
    · rintro ⟨k, hk⟩
      refine ⟨Equiv.swap i j k, ?_⟩
      rw [heapSwap_getElem? hi hj, Equiv.swap_apply_self]
      exact hk

/-! ## Order -/

/-- The key of a heap position. -/
def heapKey (bb : ByteBudget) (i : Nat) : Nat := bb.groupNeed (bb.blocked.getD i 0)

/-- `blocked` is in min-heap order of the current needs. -/
def HeapOrdered (bb : ByteBudget) : Prop := BinHeap.HeapOrd bb.heapKey bb.blocked.length

/-- `blocked` is in min-heap order, up to the need of group `g`. -/
def HeapOrderedOff (bb : ByteBudget) (g : GroupId) : Prop :=
  ∃ need : GroupId → Nat, (∀ h, h ≠ g → need h = bb.groupNeed h) ∧
    BinHeap.HeapOrd (fun i => need (bb.blocked.getD i 0)) bb.blocked.length

theorem HeapOrdered.off (h : HeapOrdered bb) (g : GroupId) : HeapOrderedOff bb g :=
  ⟨bb.groupNeed, fun _ _ => rfl, h⟩

theorem groupHeap_lawful (bb : ByteBudget) (hn : n ≤ bb.blocked.length) :
    BinHeap.Lawful groupHeap n (HeapSame bb) heapKey := by
  refine ⟨?_, ?_, ?_⟩
  · intro s i j _ _ _
    simp [groupHeap, heapLess, heapKey]
  · intro s i j hs hi hj _
    have hlen := hs.len
    exact hs.trans (heapSwap_same hs.back (by omega) (by omega))
  · intro s i j c hs hi hj _
    have hlen := hs.len
    have hget : (s.heapSwap i j).blocked[c]? = s.blocked[Equiv.swap i j c]? :=
      heapSwap_getElem? (by omega) (by omega) c
    have hcore := core_of_heapless (heapSwap_heapless s i j)
    show (s.heapSwap i j).groupNeed ((s.heapSwap i j).blocked.getD c 0) = _
    rw [groupNeed_of_core hcore, List.getD_eq_getElem?_getD, hget, ← List.getD_eq_getElem?_getD]
    rfl

theorem heapSwap_keeps (hn : n ≤ bb.blocked.length) :
    ∀ s i j, HeapSame bb s → i < n → j < n → i ≠ j → HeapSame bb (groupHeap.swap s i j) :=
  fun s i j hs hi hj hne => (groupHeap_lawful bb hn).swap_good s i j hs hi hj hne

/-- Only the position of `g` is out of order when only the need of `g` changed. -/
theorem HeapOrderedOff.ordExcept (hb : HeapBack bb) (ho : HeapOrderedOff bb g)
    (hi : bb.blocked[i]? = some g) :
    BinHeap.OrdExcept bb.heapKey bb.blocked.length i := by
  obtain ⟨need, hneed, hord⟩ := ho
  have hilt : i < bb.blocked.length := (List.getElem?_eq_some_iff.1 hi).1
  refine BinHeap.OrdExcept.of_heapOrd (need g) hilt ?_
  intro c hc hcn
  have hsame : ∀ k, k < bb.blocked.length →
      update bb.heapKey i (need g) k = need (bb.blocked.getD k 0) := by
    intro k hk
    by_cases hki : k = i
    · subst hki
      rw [update_self, Slice.getD_of_getElem? hi]
    · rw [update_of_ne hki]
      refine (hneed _ ?_).symm
      intro hg
      exact hki (hb.inj (hg ▸ Slice.getElem?_of_lt hk) hi)
  have hp := BinHeap.par_lt hc
  rw [hsame c hcn, hsame _ (by omega)]
  exact hord c hc hcn

/-- `heap.Fix` for a group that changed its need. -/
theorem heapFix_spec (hb : HeapBack bb) (ho : HeapOrderedOff bb g)
    (hi : (bb.groupAt g).heapIndex = some i) :
    HeapSame bb (bb.heapFix i) ∧ HeapOrdered (bb.heapFix i) := by
  rw [hb] at hi
  have hilt : i < bb.blocked.length := (List.getElem?_eq_some_iff.1 hi).1
  have hsame : HeapSame bb (bb.heapFix i) :=
    BinHeap.fix_induct _ (heapSwap_keeps le_rfl) bb i hilt (HeapSame.refl hb)
  refine ⟨hsame, ?_⟩
  unfold HeapOrdered
  rw [hsame.len]
  exact BinHeap.fix_heapOrd (groupHeap_lawful bb le_rfl) (HeapSame.refl hb) hilt
    (ho.ordExcept hb hi)

/-- A group outside the heap does not disturb its order. -/
theorem HeapOrderedOff.ordered (ho : HeapOrderedOff bb g) (hg : g ∉ bb.blocked) :
    HeapOrdered bb := by
  obtain ⟨need, hneed, hord⟩ := ho
  intro c hc hcn
  have hsame : ∀ k, k < bb.blocked.length → bb.heapKey k = need (bb.blocked.getD k 0) := by
    intro k hk
    refine (hneed _ ?_).symm
    intro hg'
    exact hg (List.mem_of_getElem? (hg' ▸ Slice.getElem?_of_lt hk))
  have hp := BinHeap.par_lt hc
  rw [hsame c hcn, hsame _ (by omega)]
  exact hord c hc hcn

/-! ## The operations that change the members -/

/-- `s` is `bb` with an ordered heap whose members are those of `P`. -/
structure HeapAfter (bb s : ByteBudget) (P : GroupId → Prop) : Prop where
  rest : s.heapless = bb.heapless
  back : HeapBack s
  mem : ∀ g, g ∈ s.blocked ↔ P g
  ord : HeapOrdered s

theorem heapKey_of_getElem? (hc : s.core = bb.core) {k : Nat}
    (hk : s.blocked[k]? = bb.blocked[k]?) : s.heapKey k = bb.heapKey k := by
  unfold heapKey
  rw [groupNeed_of_core hc, List.getD_eq_getElem?_getD, hk, ← List.getD_eq_getElem?_getD]

theorem heapDropLast_getElem? (hlen : s.blocked.length = n + 1) (k : Nat) :
    s.heapDropLast.blocked[k]? = if k < n then s.blocked[k]? else none := by
  have hdrop : s.heapDropLast.blocked = s.blocked.dropLast := rfl
  rw [hdrop, List.getElem?_dropLast, hlen, Nat.add_sub_cancel]

/-- Dropping the last position takes its group out of the heap. -/
theorem heapDropLast_spec (hs : HeapSame bb s) (hlen : bb.blocked.length = n + 1)
    (hlast : s.blocked[n]? = some g) (hord : BinHeap.HeapOrd s.heapKey n) :
    HeapAfter bb s.heapDropLast (fun h => h ∈ bb.blocked ∧ h ≠ g) := by
  have hlen' : s.blocked.length = n + 1 := hs.len.trans hlen
  have hg : s.blocked.getLastD 0 = g := by
    rw [List.getLastD_eq_getLast?, List.getLast?_eq_getElem?, hlen', Nat.add_sub_cancel, hlast,
      Option.getD_some]
  have hrest : s.heapDropLast.heapless = s.heapless := heapless_setGroup (by intro x; rfl)
  have hat : ∀ h, (s.heapDropLast.groupAt h).heapIndex =
      if h = g then none else (s.groupAt h).heapIndex := by
    intro h
    unfold heapDropLast
    simp only [setGroup_groupAt, hg, update_apply]
    split_ifs <;> rfl
  -- the group at the dropped position loses its index; no other group had that position
  have hback : HeapBack s.heapDropLast := by
    intro h k
    rw [hat, heapDropLast_getElem? hlen']
    by_cases hhg : h = g
    · subst hhg
      rw [if_pos rfl]
      constructor
      · intro e
        cases e
      · intro e
        split_ifs at e with hk
        have := hs.back.inj e hlast
        omega
    · rw [if_neg hhg, hs.back]
      split_ifs with hk
      · exact Iff.rfl
      · constructor
        · intro e
          have hkn : k = n := by
            have := (List.getElem?_eq_some_iff.1 e).1
            omega
          rw [hkn, hlast] at e
          exact absurd (Option.some.inj e).symm hhg
        · intro e
          cases e
  refine ⟨hrest.trans hs.rest, hback, ?_, ?_⟩
  · intro h
    rw [hback.mem_iff, ← hs.mem, hs.back.mem_iff, hat]
    by_cases hhg : h = g
    · simp [hhg]
    · simp [hhg]
  · have hl : s.heapDropLast.blocked.length = n := by
      show s.blocked.dropLast.length = n
      rw [List.length_dropLast, hlen', Nat.add_sub_cancel]
    intro c hc hcn
    rw [hl] at hcn
    -- the keys below the dropped position are the same
    have hkey : ∀ k, k < n → s.heapDropLast.heapKey k = s.heapKey k := by
      intro k hk
      refine heapKey_of_getElem? (core_of_heapless hrest) ?_
      rw [heapDropLast_getElem? hlen', if_pos hk]
    have hp := BinHeap.par_lt hc
    rw [hkey c hcn, hkey _ (by omega)]
    exact hord c hc hcn

/-- After the last group took the place of `g`, only that place is out of order. -/
theorem HeapOrderedOff.swap_last (hb : HeapBack bb) (ho : HeapOrderedOff bb g)
    (hi : bb.blocked[i]? = some g) (hlen : bb.blocked.length = n + 1) (hin : i < n) :
    BinHeap.OrdExcept (bb.heapSwap i n).heapKey n i := by
  obtain ⟨need, hneed, hord⟩ := ho
  have hcore := core_of_heapless (heapSwap_heapless bb i n)
  refine BinHeap.OrdExcept.of_heapOrd (need g) hin ?_
  have hsame : ∀ k, k < n → update (bb.heapSwap i n).heapKey i (need g) k =
      need (bb.blocked.getD k 0) := by
    intro k hk
    by_cases hki : k = i
    · subst hki
      rw [update_self, Slice.getD_of_getElem? hi]
    · have hget : (bb.heapSwap i n).blocked[k]? = bb.blocked[k]? := by
        rw [heapSwap_getElem? (by omega) (by omega), Equiv.swap_apply_of_ne_of_ne hki (by omega)]
      rw [update_of_ne hki, heapKey_of_getElem? hcore hget]
      refine (hneed _ ?_).symm
      intro hg
      exact hki (hb.inj (hg ▸ Slice.getElem?_of_lt (by omega)) hi)
  intro c hc hcn
  have hp := BinHeap.par_lt hc
  rw [hsame c hcn, hsame _ (by omega)]
  exact hord c hc (by omega)

/-- Sifting inside the first `n` positions leaves the last one alone. -/
theorem heapSwap_keeps_last (hlen : bb.blocked.length = n + 1) :
    ∀ s i j, (HeapSame bb s ∧ s.blocked[n]? = some g) → i < n → j < n → i ≠ j →
      HeapSame bb (groupHeap.swap s i j) ∧ (groupHeap.swap s i j).blocked[n]? = some g := by
  intro s i j hs hi hj hne
  have hl := hs.1.len
  refine ⟨heapSwap_keeps (n := n) (by omega) s i j hs.1 hi hj hne, ?_⟩
  show (s.heapSwap i j).blocked[n]? = some g
  rw [heapSwap_getElem? (by omega) (by omega),
    Equiv.swap_apply_of_ne_of_ne (by omega) (by omega)]
  exact hs.2

/-- The state of `heap.Remove` and `heap.Pop` after their first swap. -/
theorem heapSwap_last (hb : HeapBack bb) (hi : bb.blocked[i]? = some g)
    (hlen : bb.blocked.length = n + 1) :
    HeapSame bb (bb.heapSwap i n) ∧ (bb.heapSwap i n).blocked[n]? = some g := by
  have hilt : i < bb.blocked.length := (List.getElem?_eq_some_iff.1 hi).1
  refine ⟨heapSwap_same hb hilt (by omega), ?_⟩
  rw [heapSwap_getElem? hilt (by omega), Equiv.swap_apply_right]
  exact hi

/-- `heap.Remove` of a group, whatever became of its need. -/
theorem heapRemove_spec (hb : HeapBack bb) (ho : HeapOrderedOff bb g)
    (hi : (bb.groupAt g).heapIndex = some i) :
    HeapAfter bb (bb.heapRemove i) (fun h => h ∈ bb.blocked ∧ h ≠ g) := by
  rw [hb] at hi
  have hilt : i < bb.blocked.length := (List.getElem?_eq_some_iff.1 hi).1
  obtain ⟨n, hlen⟩ : ∃ n, bb.blocked.length = n + 1 := ⟨bb.blocked.length - 1, by omega⟩
  unfold heapRemove
  simp only [hlen, Nat.add_sub_cancel]
  split_ifs with hni
  · obtain ⟨hsame, hlast⟩ := heapSwap_last hb hi hlen
    have hin : i < n := by omega
    have hlaw := groupHeap_lawful bb (n := n) (by omega)
    obtain ⟨hfix, hfixlast⟩ := BinHeap.fix_induct _ (heapSwap_keeps_last (g := g) hlen)
      _ i hin ⟨hsame, hlast⟩
    exact heapDropLast_spec hfix hlen hfixlast
      (BinHeap.fix_heapOrd hlaw hsame hin (ho.swap_last hb hi hlen hin))
  · have hni : i = n := by
      push Not at hni
      exact hni.symm
    subst hni
    refine heapDropLast_spec (HeapSame.refl hb) hlen hi ?_
    -- all positions but the last hold other groups
    intro c hc hcn
    obtain ⟨need, hneed, hord⟩ := ho
    have hkey : ∀ k, k < i → bb.heapKey k = need (bb.blocked.getD k 0) := by
      intro k hk
      refine (hneed _ ?_).symm
      intro hg
      have := hb.inj (hg ▸ Slice.getElem?_of_lt (show k < bb.blocked.length by omega)) hi
      omega
    have hp := BinHeap.par_lt hc
    rw [hkey c hcn, hkey _ (by omega)]
    exact hord c hc (by omega)

/-- `heap.Pop` of an ordered heap takes out its first group. -/
theorem heapPop_spec (hb : HeapBack bb) (ho : HeapOrdered bb) (hg : bb.blocked[0]? = some g) :
    HeapAfter bb bb.heapPop (fun h => h ∈ bb.blocked ∧ h ≠ g) := by
  have hlt : 0 < bb.blocked.length := (List.getElem?_eq_some_iff.1 hg).1
  obtain ⟨n, hlen⟩ : ∃ n, bb.blocked.length = n + 1 := ⟨bb.blocked.length - 1, by omega⟩
  obtain ⟨hsame, hlast⟩ := heapSwap_last hb hg hlen
  unfold heapPop
  simp only [hlen, Nat.add_sub_cancel]
  rcases Nat.eq_zero_or_pos n with rfl | hn
  · -- a single member: the loop has nothing to sift
    refine heapDropLast_spec hsame hlen hlast ?_
    intro c _ hcn
    omega
  · have hlaw := groupHeap_lawful bb (n := n) (by omega)
    obtain ⟨hdown, hdownlast⟩ := BinHeap.downLoop_induct _ (heapSwap_keeps_last (g := g) hlen)
      n _ 0 hn ⟨hsame, hlast⟩
    refine heapDropLast_spec hdown hlen hdownlast ?_
    refine BinHeap.downLoop_heapOrd hlaw n _ 0 hsame hn (by omega) ?_
    refine ⟨(ho.off g).swap_last hb hg hlen hn, ?_⟩
    intro h0
    omega

/-- `heap.Push` of a group that is not in the heap. -/
theorem heapPush_spec (hb : HeapBack bb) (ho : HeapOrdered bb) (hg : g ∉ bb.blocked) :
    HeapAfter bb (bb.heapPush g) (fun h => h ∈ bb.blocked ∨ h = g) := by
  obtain ⟨s, hs⟩ : ∃ s : ByteBudget, s = { (bb.setGroup g fun x =>
    { x with heapIndex := some bb.blocked.length }) with blocked := bb.blocked ++ [g] } := ⟨_, rfl⟩
  have hbl : s.blocked = bb.blocked ++ [g] := by rw [hs]
  have hrest : s.heapless = bb.heapless := by
    rw [hs]
    show (bb.setGroup g fun x => { x with heapIndex := some bb.blocked.length }).heapless = _
    exact heapless_setGroup (by intro x; rfl)
  have hat : ∀ h, (s.groupAt h).heapIndex =
      if h = g then some bb.blocked.length else (bb.groupAt h).heapIndex := by
    intro h
    rw [hs]
    simp only [setGroup_groupAt, update_apply]
    split_ifs <;> rfl
  have hnone : ∀ k, (bb.groupAt g).heapIndex ≠ some k := by
    intro k hk
    exact hg (hb.mem_iff g |>.2 ⟨k, hk⟩)
  have hback : HeapBack s := by
    intro h k
    rw [hat, hbl]
    rcases lt_trichotomy k bb.blocked.length with hk | hk | hk
    · rw [List.getElem?_append_left hk, ← hb]
      split_ifs with hhg
      · subst hhg
        constructor
        · intro e
          have := Option.some.inj e
          omega
        · intro e
          exact absurd e (hnone k)
      · exact Iff.rfl
    · subst hk
      rw [List.getElem?_concat_length]
      split_ifs with hhg
      · simp [hhg]
      · constructor
        · intro e
          rw [hb, List.getElem?_eq_none le_rfl] at e
          cases e
        · intro e
          exact absurd (Option.some.inj e).symm hhg
    · rw [List.getElem?_eq_none (by simp; omega)]
      split_ifs with hhg
      · simp
        omega
      · constructor
        · intro e
          rw [hb, List.getElem?_eq_none (by omega)] at e
          cases e
        · intro e
          cases e
  have hlen : s.blocked.length = bb.blocked.length + 1 := by rw [hbl]; simp
  have hpush : bb.heapPush g = BinHeap.up groupHeap s bb.blocked.length := by
    rw [hs]
    unfold heapPush
    simp
  have hlt : bb.blocked.length < s.blocked.length := by omega
  have hsame : HeapSame s (bb.heapPush g) := by
    rw [hpush]
    exact BinHeap.upLoop_induct _ (heapSwap_keeps le_rfl) _ s _ hlt (HeapSame.refl hback)
  refine ⟨hsame.rest.trans hrest, hsame.back, ?_, ?_⟩
  · intro h
    rw [hsame.mem, hbl, List.mem_append, List.mem_singleton]
  · unfold HeapOrdered
    rw [hsame.len, hpush]
    refine BinHeap.up_heapOrd (groupHeap_lawful s le_rfl) (HeapSame.refl hback) hlt ?_
    -- the new group is a leaf: only its parent can be out of order
    have hkey : ∀ k, k < bb.blocked.length → s.heapKey k = bb.heapKey k := by
      intro k hk
      refine heapKey_of_getElem? (core_of_heapless hrest) ?_
      rw [hbl, List.getElem?_append_left hk]
    refine ⟨⟨?_, ?_⟩, ?_⟩
    · intro c hc hcn hcne _
      have hp := BinHeap.par_lt hc
      rw [hkey c (by omega), hkey _ (by omega)]
      exact ho c hc (by omega)
    · intro _ c hc hcn hpc
      have hp := BinHeap.par_lt hc
      omega
    · intro c hc hcn hpc
      have hp := BinHeap.par_lt hc
      omega

end ByteBudget

end UspClient
