import UspClient.System.Steps
import UspClient.Budget.Registry

/-!
# The ledger of a shared budget

What the budget counts is what the buffers hold and what their waiting adds were credited.
For a fair budget the buffers and their adds are callers that keep to the contract of
`fairMachine`: `fairState` is what they hold, by group, and every step of the system is a
sequence of calls the contract allows (`Fair.step`).
-/

namespace UspClient

open Function Word64 Replay ByteBudget

namespace SystemState

variable {s s' s₀ : SystemState} {a : SystemAct} {i j k : Nat} {q q' : Nat → Queue Admission}
variable {tr : List SystemStep} {w v : WaiterId} {g : GroupId}

/-! ## Outstanding waiters -/

/-- The waiters of the calls in `I`. -/
def waitersOf (s : SystemState) (I : Finset Nat) : Finset WaiterId :=
  I.biUnion fun j => (s.waiterOf j).toFinset

/-- The waiters that an add holds: queued, or granted and not consumed. -/
def outstanding (s : SystemState) : Finset WaiterId := s.waitersOf (Finset.range s.adds)

theorem waiterOf_lt (h : s.waiterOf j = some w) : j < s.adds := by
  by_contra hge
  unfold waiterOf at h
  rw [if_neg hge] at h
  cases h

theorem waiterOf_eq (h : j < s.adds) : s.waiterOf j = (s.addAt j).waiter := if_pos h

theorem mem_outstanding : w ∈ s.outstanding ↔ ∃ j, s.waiterOf j = some w := by
  unfold outstanding waitersOf
  rw [Finset.mem_biUnion]
  constructor
  · rintro ⟨j, -, hj⟩
    exact ⟨j, Option.mem_toFinset.1 hj⟩
  · rintro ⟨j, hj⟩
    exact ⟨j, Finset.mem_range.2 (waiterOf_lt hj), Option.mem_toFinset.2 hj⟩

/-- No two adds hold the same waiter. -/
def Apart (s : SystemState) : Prop :=
  ∀ j k w, s.waiterOf j = some w → s.waiterOf k = some w → j = k

/-- A sum over waiters is a sum over calls. -/
theorem Apart.sum (h : s.Apart) (I : Finset Nat) (f : WaiterId → Nat) :
    ∑ w ∈ s.waitersOf I, f w = ∑ j ∈ I, (s.waiterOf j).elim 0 f := by
  unfold waitersOf
  rw [Finset.sum_biUnion]
  · refine Finset.sum_congr rfl fun j _ => ?_
    cases s.waiterOf j with
    | none => rfl
    | some w => exact Finset.sum_singleton f w
  · intro j _ k _ hjk
    refine Finset.disjoint_left.2 fun w hj hk => hjk ?_
    exact h j k w (Option.mem_toFinset.1 hj) (Option.mem_toFinset.1 hk)

theorem outstanding_congr (h : s'.waiterOf = s.waiterOf) : s'.outstanding = s.outstanding := by
  ext w
  rw [mem_outstanding, mem_outstanding, h]

theorem mem_waitersOf_erase :
    w ∈ s.waitersOf ((Finset.range s.adds).erase j) ↔ ∃ k, k ≠ j ∧ s.waiterOf k = some w := by
  unfold waitersOf
  rw [Finset.mem_biUnion]
  constructor
  · rintro ⟨k, hk, hw⟩
    exact ⟨k, Finset.ne_of_mem_erase hk, Option.mem_toFinset.1 hw⟩
  · rintro ⟨k, hne, hw⟩
    exact ⟨k, Finset.mem_erase.2 ⟨hne, Finset.mem_range.2 (waiterOf_lt hw)⟩, Option.mem_toFinset.2 hw⟩

/-- The call gives its waiter up. -/
theorem outstanding_none (hw : s'.waiterOf = update s.waiterOf j none) :
    s'.outstanding = s.waitersOf ((Finset.range s.adds).erase j) := by
  ext w
  rw [mem_waitersOf_erase, mem_outstanding, hw]
  constructor
  · rintro ⟨k, hk⟩
    rcases eq_or_ne k j with rfl | hkj
    · rw [update_self] at hk
      cases hk
    · rw [update_of_ne hkj] at hk
      exact ⟨k, hkj, hk⟩
  · rintro ⟨k, hkj, hk⟩
    exact ⟨k, by rwa [update_of_ne hkj]⟩

theorem waitersOf_erase_none (hj : s.waiterOf j = none) :
    s.waitersOf ((Finset.range s.adds).erase j) = s.outstanding := by
  ext w
  rw [mem_waitersOf_erase, mem_outstanding]
  refine ⟨fun ⟨k, _, hk⟩ => ⟨k, hk⟩, fun ⟨k, hk⟩ => ⟨k, ?_, hk⟩⟩
  rintro rfl
  rw [hj] at hk
  cases hk

theorem Apart.waitersOf_erase (h : s.Apart) (hj : s.waiterOf j = some v) :
    s.waitersOf ((Finset.range s.adds).erase j) = s.outstanding.erase v := by
  ext w
  rw [mem_waitersOf_erase, Finset.mem_erase, mem_outstanding]
  constructor
  · rintro ⟨k, hkj, hk⟩
    refine ⟨?_, k, hk⟩
    rintro rfl
    exact hkj (h k j w hk hj)
  · rintro ⟨hne, k, hk⟩
    refine ⟨k, ?_, hk⟩
    rintro rfl
    rw [hj] at hk
    exact hne (Option.some.inj hk).symm

/-- The call gets a waiter. -/
theorem outstanding_some (hj : s.waiterOf j = none)
    (hw : s'.waiterOf = update s.waiterOf j (some v)) :
    s'.outstanding = insert v s.outstanding := by
  ext w
  rw [Finset.mem_insert, mem_outstanding, mem_outstanding, hw]
  constructor
  · rintro ⟨k, hk⟩
    rcases eq_or_ne k j with rfl | hkj
    · rw [update_self] at hk
      exact .inl (Option.some.inj hk).symm
    · rw [update_of_ne hkj] at hk
      exact .inr ⟨k, hk⟩
  · rintro (rfl | ⟨k, hk⟩)
    · exact ⟨j, update_self ..⟩
    · refine ⟨k, ?_⟩
      have hkj : k ≠ j := by
        rintro rfl
        rw [hj] at hk
        cases hk
      rwa [update_of_ne hkj]

theorem Apart.update_none (h : s.Apart) (hw : s'.waiterOf = update s.waiterOf j none) :
    s'.Apart := by
  have hold : ∀ k w, s'.waiterOf k = some w → s.waiterOf k = some w := by
    intro k w hk
    rw [hw] at hk
    rcases eq_or_ne k j with rfl | hkj
    · rw [update_self] at hk
      cases hk
    · rwa [update_of_ne hkj] at hk
  exact fun j k w hj hk => h j k w (hold j w hj) (hold k w hk)

theorem waiter_kept (hw : s'.waiterOf = update s.waiterOf j none)
    (hk : s'.waiterOf k = some v) : s.waiterOf k = some v := by
  rw [hw] at hk
  rcases eq_or_ne k j with rfl | hne
  · rw [update_self] at hk
    cases hk
  · rwa [update_of_ne hne] at hk

theorem Apart.update_some (h : s.Apart) (hv : v ∉ s.outstanding)
    (hw : s'.waiterOf = update s.waiterOf j (some v)) : s'.Apart := by
  have hcases : ∀ k w, s'.waiterOf k = some w →
      (k = j ∧ w = v) ∨ (w ≠ v ∧ s.waiterOf k = some w) := by
    intro k w hk
    rw [hw] at hk
    rcases eq_or_ne k j with rfl | hkj
    · rw [update_self] at hk
      exact .inl ⟨rfl, (Option.some.inj hk).symm⟩
    · rw [update_of_ne hkj] at hk
      refine .inr ⟨?_, hk⟩
      rintro rfl
      exact hv (mem_outstanding.2 ⟨k, hk⟩)
  intro k l w hk hl
  rcases hcases k w hk with ⟨rfl, rfl⟩ | ⟨hne, hk'⟩ <;>
    rcases hcases l w hl with ⟨rfl, hwv⟩ | ⟨hne', hl'⟩
  · rfl
  · exact absurd rfl hne'
  · exact absurd hwv hne
  · exact h k l w hk' hl'

/-! ## Sums by group -/

/-- What a buffer contributes to its group. -/
def grouped (φ : AckBuffer → Nat) (g : GroupId) (b : BufferState) (_ : Queue Admission) : Nat :=
  if b.buf.group = some g then φ b.buf else 0

/-- What the buffers of each group contribute. -/
def byGroup (φ : AckBuffer → Nat) (s : SystemState) (g : GroupId) : Nat :=
  weigh (grouped φ g) s fun _ => {}

variable {φ : AckBuffer → Nat} {b : BufferState} {qi : Queue Admission}

theorem grouped_self (hg : b.buf.group = some g) : grouped φ g b qi = φ b.buf := if_pos hg

theorem grouped_of_ne {h : GroupId} (hg : b.buf.group = some g) (hh : h ≠ g) :
    grouped φ h b qi = 0 := by
  unfold grouped
  rw [hg, if_neg]
  exact fun heq => hh (Option.some.inj heq).symm

theorem grouped_none (hg : b.buf.group = none) : grouped φ g b qi = 0 := by
  unfold grouped
  rw [hg, if_neg (Option.some_ne_none g).symm]

theorem le_byGroup (hi : i < s.buffers) (hg : (s.bufferAt i).buf.group = some g) :
    φ (s.bufferAt i).buf ≤ byGroup φ s g := by
  have hle : grouped φ g (s.bufferAt i) {} ≤ byGroup φ s g :=
    le_weigh (f := grouped φ g) (q := fun _ => {}) hi
  rwa [grouped_self hg] at hle

theorem byGroup_sum (hi : i < s.buffers) (hat : s'.bufferAt = update s.bufferAt i b)
    (hn : s'.buffers = s.buffers) (g : GroupId) :
    byGroup φ s' g + grouped φ g (s.bufferAt i) {} = byGroup φ s g + grouped φ g b {} := by
  have hsum := weigh_update (grouped φ g) (fun _ => {}) {} hi hat hn
  rwa [update_eq_self] at hsum

/-- A buffer of group `g` changes. -/
theorem byGroup_update (hi : i < s.buffers) (hg : (s.bufferAt i).buf.group = some g)
    (hsame : b.buf.group = (s.bufferAt i).buf.group)
    (hat : s'.bufferAt = update s.bufferAt i b) (hn : s'.buffers = s.buffers) :
    byGroup φ s' = update (byGroup φ s) g
      (byGroup φ s g - φ (s.bufferAt i).buf + φ b.buf) := by
  have hg' : b.buf.group = some g := hsame.trans hg
  funext h
  have hsum := byGroup_sum (φ := φ) hi hat hn h
  rcases eq_or_ne h g with rfl | hh
  · have hle : φ (s.bufferAt i).buf ≤ byGroup φ s h := le_byGroup hi hg
    rw [update_self]
    rw [grouped_self hg, grouped_self hg'] at hsum
    omega
  · rw [update_of_ne hh]
    rwa [grouped_of_ne hg hh, grouped_of_ne hg' hh] at hsum

/-- A buffer without a group changes. -/
theorem byGroup_apart (hi : i < s.buffers) (hg : (s.bufferAt i).buf.group = none)
    (hsame : b.buf.group = (s.bufferAt i).buf.group)
    (hat : s'.bufferAt = update s.bufferAt i b) (hn : s'.buffers = s.buffers) :
    byGroup φ s' = byGroup φ s := by
  funext h
  have hsum := byGroup_sum (φ := φ) hi hat hn h
  rwa [grouped_none hg, grouped_none (hsame.trans hg)] at hsum

/-- A buffer changes, and what it contributes does not. -/
theorem byGroup_same (hi : i < s.buffers) (hat : s'.bufferAt = update s.bufferAt i b)
    (hn : s'.buffers = s.buffers) (hsame : b.buf.group = (s.bufferAt i).buf.group)
    (hφ : φ b.buf = φ (s.bufferAt i).buf) : byGroup φ s' = byGroup φ s := by
  funext h
  have hsum := byGroup_sum (φ := φ) hi hat hn h
  have heq : grouped φ h b {} = grouped φ h (s.bufferAt i) {} := by
    unfold grouped
    rw [hsame, hφ]
  omega

theorem byGroup_congr (hat : s'.bufferAt = s.bufferAt) (hn : s'.buffers = s.buffers) :
    byGroup φ s' = byGroup φ s :=
  funext fun _ => weigh_congr hat hn

theorem byGroup_fresh (hat : s'.bufferAt = update s.bufferAt s.buffers b)
    (hn : s'.buffers = s.buffers + 1) (g : GroupId) :
    byGroup φ s' g = byGroup φ s g + grouped φ g b {} := by
  have hsum : weigh (grouped φ g) s' (update (fun _ => {}) s.buffers {}) =
    weigh (grouped φ g) s (fun _ => {}) + grouped φ g b {} := weigh_fresh hat hn
  rwa [update_eq_self] at hsum

/-- What the other buffers of the group contribute. -/
theorem byGroup_others (hi : i < s.buffers) (hg : (s.bufferAt i).buf.group = some g) :
    byGroup φ s g - φ (s.bufferAt i).buf =
      ∑ k ∈ (Finset.range s.buffers).erase i, grouped φ g (s.bufferAt k) {} := by
  have hsum := Finset.sum_erase_add (Finset.range s.buffers)
    (fun k => grouped φ g (s.bufferAt k) {}) (Finset.mem_range.2 hi)
  rw [grouped_self hg] at hsum
  have hall : byGroup φ s g = ∑ k ∈ Finset.range s.buffers, grouped φ g (s.bufferAt k) {} := rfl
  omega

theorem byGroup_others_mono {φ' : AckBuffer → Nat} (hi : i < s.buffers)
    (hg : (s.bufferAt i).buf.group = some g)
    (h : ∀ k, k < s.buffers → φ (s.bufferAt k).buf ≤ φ' (s.bufferAt k).buf) :
    byGroup φ s g - φ (s.bufferAt i).buf ≤ byGroup φ' s g - φ' (s.bufferAt i).buf := by
  rw [byGroup_others hi hg, byGroup_others hi hg]
  refine Finset.sum_le_sum fun k hk => ?_
  unfold grouped
  split_ifs
  · exact h k (Finset.mem_range.1 (Finset.mem_of_mem_erase hk))
  · exact le_rfl

/-- The groups share no buffer. -/
theorem sum_byGroup_le (φ : AckBuffer → Nat) (s : SystemState) (N : Nat) : ∑ g ∈ Finset.range N, byGroup φ s g ≤
      ∑ i ∈ Finset.range s.buffers, φ (s.bufferAt i).buf := by
  unfold byGroup weigh
  rw [Finset.sum_comm]
  refine Finset.sum_le_sum fun i _ => ?_
  unfold grouped
  cases hg : (s.bufferAt i).buf.group with
  | none =>
    rw [Finset.sum_eq_zero]
    · exact Nat.zero_le _
    · exact fun g _ => if_neg (Option.some_ne_none g).symm
  | some g =>
    simp only [Option.some.injEq]
    rw [Finset.sum_ite_eq]
    split_ifs
    · exact le_rfl
    · exact Nat.zero_le _

/-! ## What the callers of the budget hold -/

/-- An open buffer refers to its group. -/
def opened (b : AckBuffer) : Nat := if b.registered then 1 else 0

/-- The bytes and the escapes of the buffers, by group, and the waiters of the adds. -/
def fairState (s : SystemState) : FairState where
  bb := s.bb
  held := byGroup AckBuffer.bytes s
  esc := byGroup AckBuffer.escapeBytes s
  out := s.outstanding

/-- What the other adds ask the budget for. -/
def asked (s : SystemState) (j : Nat) : Nat :=
  ∑ k ∈ (Finset.range s.adds).erase j, if (s.addAt k).waiter.isSome then (s.addAt k).size else 0

/-- The open buffers and the waiting adds, which refer to groups. -/
def holders (s : SystemState) : Nat :=
  ∑ i ∈ Finset.range s.buffers, (if (s.bufferAt i).buf.isClosed then 0 else 1) +
    ∑ k ∈ Finset.range s.adds, if (s.addAt k).waiter.isSome then 1 else 0

/-- No counter overflows: the sizes that are held or asked for, with this one, add up to less
than `2 ^ 64`, the size is no sum that came out as zero, and so do the references. -/
def Fits (s : SystemState) : SystemAct → Prop
  | .newAckBuffer _ => s.holders + 1 < 2 ^ 64
  | .tryAdd j => s.bytes + s.asked j + (s.addAt j).size < 2 ^ 64 ∧
      ((s.bufferAt (s.addAt j).buffer).buf.shared = true → 0 < (s.addAt j).size) ∧
      s.holders + 1 < 2 ^ 64
  | _ => True

instance (s : SystemState) (a : SystemAct) : Decidable (s.Fits a) :=
  match a with
  | .newAckBuffer _ => Nat.decLt _ _
  | .tryAdd j => inferInstanceAs (Decidable (s.bytes + s.asked j + (s.addAt j).size < 2 ^ 64 ∧
      ((s.bufferAt (s.addAt j).buffer).buf.shared = true → 0 < (s.addAt j).size) ∧
      s.holders + 1 < 2 ^ 64))
  | .call .. | .callAdd .. | .wakeAdd _ | .timeout _ | .cancel _ | .callDrain _
  | .drain .. | .wakeDrain .. => isTrue trivial

theorem Fits.within (h : s.Fits a) : s.Within a := by
  cases a with
  | tryAdd j =>
    have hsum := h.1
    show s.bytes + (s.addAt j).size < 2 ^ 64
    omega
  | _ => trivial

/-- The buffers of a fair budget are in groups, their adds hold waiters of the right size and
group, and all keep to the contract of the budget. -/
structure Fair (strict : Prop) (s : SystemState) : Prop where
  kept : FairState.Kept strict (byGroup opened s) s.fairState
  groups : ∀ i, i < s.buffers → (s.bufferAt i).buf.shared = true →
    ∃ g, (s.bufferAt i).buf.group = some g ∧ g < s.bb.nextGroup
  waiters : ∀ j w, s.waiterOf j = some w → (s.bb.waiterAt w).n = (s.addAt j).size ∧
    (s.bb.waiterAt w).group = group (s.bufferAt (s.addAt j).buffer).buf.group ∧
    (s.bufferAt (s.addAt j).buffer).buf.shared = true
  apart : s.Apart

variable {strict : Prop}

theorem Fair.without (h : Fair strict s) (hj : j < s.adds) :
    s.fairState.without (s.addAt j).waiter = s.waitersOf ((Finset.range s.adds).erase j) := by
  rw [← waiterOf_eq hj]
  cases hw : s.waiterOf j with
  | none => exact (waitersOf_erase_none hw).symm
  | some v => exact (h.apart.waitersOf_erase hw).symm

/-- The sizes that the waiters other than that of call `j` ask for. -/
theorem Fair.requested (h : Fair strict s) (hj : j < s.adds) :
    s.bb.requested (s.fairState.without (s.addAt j).waiter) ≤ s.asked j := by
  rw [h.without hj]
  unfold ByteBudget.requested asked
  rw [h.apart.sum]
  refine Finset.sum_le_sum fun k hk => ?_
  have hlt := Finset.mem_range.1 (Finset.mem_of_mem_erase hk)
  rw [← waiterOf_eq hlt]
  cases hw : s.waiterOf k with
  | none => exact Nat.zero_le _
  | some w =>
    show (s.bb.waiterAt w).n ≤ (s.addAt k).size
    exact (h.waiters k w hw).1.le

/-- The references of a group are among the holders. -/
theorem Fair.references (h : Fair strict s)
    (hm : ∀ i, i < s.buffers → BufferState.Metered (s.bufferAt i) (q i)) (g : GroupId) :
    byGroup opened s g + s.bb.pendings s.outstanding g ≤ s.holders := by
  have hopen : byGroup opened s g ≤
      ∑ i ∈ Finset.range s.buffers, if (s.bufferAt i).buf.isClosed then 0 else 1 := by
    unfold byGroup weigh
    refine Finset.sum_le_sum fun i hi => ?_
    have hreg := (hm i (Finset.mem_range.1 hi)).wired.registered
    unfold grouped opened
    rw [hreg]
    cases (s.bufferAt i).buf.isClosed <;> split_ifs <;> simp_all
  have hwait : s.bb.pendings s.outstanding g ≤
      ∑ k ∈ Finset.range s.adds, if (s.addAt k).waiter.isSome then 1 else 0 := by
    refine (pendings_le _ _ _).trans ?_
    rw [Finset.card_eq_sum_ones]
    unfold outstanding
    rw [h.apart.sum]
    refine Finset.sum_le_sum fun k hk => ?_
    rw [← waiterOf_eq (Finset.mem_range.1 hk)]
    cases s.waiterOf k <;> rfl
  exact Nat.add_le_add hopen hwait

theorem reserve_bb (x : FairState) (n : Nat) (force : Bool) (og : Option GroupId)
    (w : Option WaiterId) : (x.reserve n force og w).bb = (x.bb.reserveFor n force og w).1 := by
  unfold FairState.reserve
  simp only
  split_ifs <;> rfl

theorem reserve_ok (x : FairState) {n : Nat} {force : Bool} {g : GroupId} {w : Option WaiterId}
    (hok : (x.bb.reserveFor n force (some g) w).2.ok = true) :
    x.reserve n force (some g) w =
      { bb := (x.bb.reserveFor n force (some g) w).1
        held := update x.held g (x.held g + x.charged n w)
        esc := update x.esc g
          (x.esc g + if (x.bb.reserveFor n force (some g) w).2.overshot then n else 0)
        out := x.without w } := by
  unfold FairState.reserve
  exact if_pos hok

theorem reserve_refused (x : FairState) {n : Nat} {force : Bool} {og : Option GroupId}
    {w : Option WaiterId} (hno : (x.bb.reserveFor n force og w).2.ok = false) :
    x.reserve n force og w =
      { x with
        bb := (x.bb.reserveFor n force og w).1
        out := x.withWaiter (x.bb.reserveFor n force og w).2.waiter } := by
  unfold FairState.reserve
  exact if_neg (by rw [hno]; exact Bool.false_ne_true)

/-- An open buffer of a group is counted. -/
theorem byGroup_opened_pos (hm : BufferState.Metered (s.bufferAt i) (q i)) (hi : i < s.buffers)
    (hrun : (s.bufferAt i).buf.isRunning = true) (hg : (s.bufferAt i).buf.group = some g) :
    0 < byGroup opened s g := by
  have hle : opened (s.bufferAt i).buf ≤ byGroup opened s g := le_byGroup hi hg
  have hreg := hm.wired.registered
  rw [hg, (hm.bytes_open hrun).1] at hreg
  have hone : opened (s.bufferAt i).buf = 1 := if_pos hreg
  omega

/-- What the contract asks of an add of a buffer that runs. -/
structure MayReserve (s : SystemState) (j : Nat) (g : GroupId) : Prop where
  pos : 0 < (s.addAt j).size
  group : (s.bufferAt (s.addAt j).buffer).buf.group = some g
  group_lt : g < s.bb.nextGroup
  waiter : ∀ v ∈ (s.addAt j).waiter, v ∈ s.outstanding ∧ (s.bb.waiterAt v).group = g
  demand : s.bb.demand (byGroup AckBuffer.bytes s) (s.fairState.without (s.addAt j).waiter) +
    (s.addAt j).size < 2 ^ 64
  registered : byGroup opened s g ≠ 0
  refs : byGroup opened s g + s.bb.pendings s.outstanding g + 1 < 2 ^ 64

theorem Fair.mayReserve (h : Fair strict s) (hb : Buffered s q) (hfits : s.Fits (.tryAdd j))
    (hj : j < s.adds) (hrun : (s.bufferAt (s.addAt j).buffer).buf.isRunning = true)
    (hshared : (s.bufferAt (s.addAt j).buffer).buf.shared = true) : ∃ g, MayReserve s j g := by
  obtain ⟨hsum, hpos, hcount⟩ := hfits
  obtain ⟨hi, -⟩ := hb.adds j hj
  obtain ⟨g, hg, hlt⟩ := h.groups _ hi hshared
  have hrefs := h.references hb.metered g
  refine ⟨g, hpos hshared, hg, hlt, fun v hv => ?_, ?_, ?_, by omega⟩
  · have hwaiter : s.waiterOf j = some v := (waiterOf_eq hj).trans hv
    have hgroup := (h.waiters j v hwaiter).2.1
    rw [hg] at hgroup
    exact ⟨mem_outstanding.2 ⟨j, hwaiter⟩, hgroup⟩
  · have hheld : ∑ g ∈ Finset.range s.bb.nextGroup, byGroup AckBuffer.bytes s g ≤ s.bytes :=
      sum_byGroup_le AckBuffer.bytes s _
    have hreq := h.requested hj
    unfold ByteBudget.demand
    omega
  · exact (byGroup_opened_pos (hb.metered _ hi) hi hrun hg).ne'

theorem MayReserve.asks (hmay : MayReserve s j g) :
    s.fairState.Asks (s.addAt j).size (some g) (s.addAt j).waiter :=
  ⟨hmay.pos, hmay.group_lt, hmay.waiter, hmay.demand⟩

theorem MayReserve.kept (hmay : MayReserve s j g) (h : Fair strict s) (force : Bool) :
    FairState.Kept strict (byGroup opened s) (s.fairState.reserve (s.addAt j).size force (some g)
        (s.addAt j).waiter) ∧
      Frame s.bb (s.bb.reserveFor (s.addAt j).size force (some g) (s.addAt j).waiter).1 := by
  have hres := h.kept.reserve force hmay.asks hmay.registered hmay.refs
  rw [reserve_bb] at hres
  exact hres

/-- The deferred `cancel`, and a refusal by the buffer itself, give the waiter up. -/
theorem Fair.cancel (h : Fair strict s) (hj : j < s.adds) :
    FairState.Kept strict (byGroup opened s)
        { s.fairState with
          bb := (s.bufferAt (s.addAt j).buffer).buf.cancelShared s.bb (s.addAt j).waiter
          out := s.waitersOf ((Finset.range s.adds).erase j) } ∧
      Frame s.bb ((s.bufferAt (s.addAt j).buffer).buf.cancelShared s.bb (s.addAt j).waiter) := by
  unfold AckBuffer.cancelShared
  rw [← waiterOf_eq hj]
  cases hw : s.waiterOf j with
  | none =>
    rw [waitersOf_erase_none hw]
    have hsame : (if (s.bufferAt (s.addAt j).buffer).buf.shared then s.bb.cancel none else s.bb) =
      s.bb := ite_self _
    rw [hsame]
    exact ⟨h.kept, (Rigid.refl s.bb).frame⟩
  | some v =>
    rw [h.apart.waitersOf_erase hw, (h.waiters j v hw).2.2, if_pos rfl]
    exact h.kept.cancel (mem_outstanding.2 ⟨j, hw⟩)

/-- Releasing bytes of one buffer, in the ledger of its group: `held` and `esc` are what the
other buffers of the group hold. -/
theorem release_group {opens : GroupId → Nat} {x : FairState} {g : GroupId} {o p m e n r : Nat}
    (h : FairState.Kept strict opens { x with
      held := update x.held g (o + m), esc := update x.esc g (p + e) })
    (hg : g < x.bb.nextGroup) (hpo : p ≤ o) (hn : n ≤ m) (hr : r ≤ e) (hrn : r ≤ n)
    (hrest : n - r ≤ m - e) :
    FairState.Kept strict opens { x with
        bb := x.bb.releaseFor n r (some g)
        held := update x.held g (o + (m - n))
        esc := update x.esc g (p + (e - r)) } ∧
      Frame x.bb (x.bb.releaseFor n r (some g)) := by
  have hheld : update x.held g (o + m) g = o + m := update_self ..
  have hesc : update x.esc g (p + e) g = p + e := update_self ..
  have hrel := h.release n r (some g) hg ?_ hrn ?_
  · unfold FairState.release at hrel
    simp only [group, Option.getD_some, hheld, hesc, update_idem] at hrel
    rwa [Nat.add_sub_assoc hn, Nat.add_sub_assoc hr] at hrel
  · show n ≤ update x.held g (o + m) g
    rw [hheld]
    omega
  · intro _
    show r ≤ update x.esc g (p + e) g ∧
      n - r ≤ update x.held g (o + m) g - update x.esc g (p + e) g
    rw [hheld, hesc]
    omega

/-- The calls of a buffer release what they take off its counters, and `Close` leaves the
group. Whatever such releases keep, the calls keep. -/
theorem Fair.deal (h : Fair strict s) (hb : Buffered s q) (hi : i < s.buffers)
    (hdeals : AckBuffer.Deals ((s.bufferAt i).buf, s.bb, q i) (b.buf, s'.bb, qi))
    (hat : s'.bufferAt = update s.bufferAt i b) (hn : s'.buffers = s.buffers)
    (hw : s'.waiterOf = s.waiterOf) {least : Nat}
    (hcoarse : (s.bufferAt i).buf.shared = true → AckBuffer.Coarse least (q i))
    {P : ByteBudget → Prop}
    (hrelease : ∀ bb held n x g, Accounts bb held s.outstanding → g < bb.nextGroup → n ≤ held g →
      x ≤ n → x = n ∨ x + least ≤ n → P bb → P (bb.releaseFor n x (some g)))
    (hleave : ∀ bb g, P bb → P (bb.unregister (some g))) (hP : P s.bb) :
    FairState.Kept strict (byGroup opened s') s'.fairState ∧ Frame s.bb s'.bb ∧ P s'.bb := by
  have hm := (hb.metered i hi).meter
  have hsame : b.buf.group = (s.bufferAt i).buf.group := congrArg (fun v => v.2.2.2) hdeals.config
  have hout : s'.outstanding = s.outstanding := outstanding_congr hw
  cases hgroup : (s.bufferAt i).buf.group with
  | none =>
    -- the buffer does not share the budget
    have hshared : (s.bufferAt i).buf.shared = false := by
      by_contra hyes
      obtain ⟨g, hg, -⟩ := h.groups i hi (Bool.not_eq_false _ ▸ hyes)
      rw [hgroup] at hg
      cases hg
    have hbb : s'.bb = s.bb := by
      refine hdeals.pays hm (fun bb _ _ _ => bb = s.bb) ?_ ?_ rfl
      · intro bb m e r n x hL _ _ _ _
        unfold AckBuffer.releaseShared
        rw [hshared]
        exact hL
      · intro bb hL
        show bb.unregister (s.bufferAt i).buf.group = s.bb
        rw [hgroup]
        exact hL
    have hstate : s'.fairState = s.fairState := by
      unfold fairState
      rw [hbb, hout, byGroup_apart hi hgroup hsame hat hn, byGroup_apart hi hgroup hsame hat hn]
    rw [hstate, byGroup_apart hi hgroup hsame hat hn, hbb]
    exact ⟨h.kept, (Rigid.refl s.bb).frame, hP⟩
  | some g =>
    have hshared : (s.bufferAt i).buf.shared = true :=
      (hb.metered i hi).wired.grouped (by rw [hgroup]; exact Option.some_ne_none g)
    obtain ⟨g', hg', hlt⟩ := h.groups i hi hshared
    rw [hgroup] at hg'
    cases hg'
    have hother : byGroup AckBuffer.escapeBytes s g - (s.bufferAt i).buf.escapeBytes ≤
        byGroup AckBuffer.bytes s g - (s.bufferAt i).buf.bytes :=
      byGroup_others_mono hi hgroup fun k hk => (hb.metered k hk).meter.escape_le
    have hbytes : (s.bufferAt i).buf.bytes ≤ byGroup AckBuffer.bytes s g := le_byGroup hi hgroup
    have hescape : (s.bufferAt i).buf.escapeBytes ≤ byGroup AckBuffer.escapeBytes s g :=
      le_byGroup hi hgroup
    have hopened : opened (s.bufferAt i).buf ≤ byGroup opened s g := le_byGroup hi hgroup
    -- the ledger of the group, with what the buffer itself holds left open
    have hpaid := hdeals.pays_whole hm (hcoarse hshared) (fun bb m e r =>
      FairState.Kept strict (update (byGroup opened s) g
          (byGroup opened s g - opened (s.bufferAt i).buf + if r then 1 else 0))
        { bb := bb
          held := update (byGroup AckBuffer.bytes s) g
            (byGroup AckBuffer.bytes s g - (s.bufferAt i).buf.bytes + m)
          esc := update (byGroup AckBuffer.escapeBytes s) g
            (byGroup AckBuffer.escapeBytes s g - (s.bufferAt i).buf.escapeBytes + e)
          out := s.outstanding } ∧ Frame s.bb bb ∧ P bb) ?_ ?_ ?_
    · unfold fairState
      rw [hout, byGroup_update hi hgroup hsame hat hn, byGroup_update hi hgroup hsame hat hn,
        byGroup_update hi hgroup hsame hat hn]
      exact hpaid
    · rintro bb m e r n x ⟨hL, hfr, hp⟩ hnm hxe hxn hrest hwhole
      unfold AckBuffer.releaseShared
      rw [hshared, if_pos rfl]
      show FairState.Kept _ _ ⟨bb.releaseFor n x (s.bufferAt i).buf.group, _, _, _⟩ ∧
        Frame s.bb (bb.releaseFor n x (s.bufferAt i).buf.group) ∧
        P (bb.releaseFor n x (s.bufferAt i).buf.group)
      rw [hgroup]
      have hlt' := hlt.trans_le hfr.nextGroup
      obtain ⟨hk, hfr'⟩ := release_group (x := ⟨bb, byGroup AckBuffer.bytes s,
        byGroup AckBuffer.escapeBytes s, s.outstanding⟩) hL hlt' hother hnm hxe hxn hrest
      refine ⟨hk, hfr.trans hfr', hrelease bb _ n x g hL.solvent.accounts hlt' ?_ hxn hwhole hp⟩
      show n ≤ update (byGroup AckBuffer.bytes s) g _ g
      rw [update_self]
      omega
    · rintro bb ⟨hL, hfr, hp⟩
      show FairState.Kept _ _ ⟨bb.unregister (s.bufferAt i).buf.group, _, _, _⟩ ∧
        Frame s.bb (bb.unregister (s.bufferAt i).buf.group) ∧
        P (bb.unregister (s.bufferAt i).buf.group)
      rw [hgroup]
      obtain ⟨hk, hfr'⟩ := hL.unregister (g := g) (by rw [update_self]; simp)
      refine ⟨?_, hfr.trans hfr', hleave bb g hp⟩
      rw [update_self, update_idem] at hk
      simpa using hk
    · refine ⟨?_, (Rigid.refl s.bb).frame, hP⟩
      show FairState.Kept strict (update (byGroup opened s) g
          (byGroup opened s g - opened (s.bufferAt i).buf + opened (s.bufferAt i).buf)) _
      rw [Nat.sub_add_cancel hopened, Nat.sub_add_cancel hbytes, Nat.sub_add_cancel hescape,
        update_eq_self, update_eq_self, update_eq_self]
      exact h.kept

/-- A new buffer stands alone, or registers with the budget. -/
theorem newAckBuffer_cases {o : AckBufferOptions} {bb bb' : ByteBudget} {b : AckBuffer}
    (h : newAckBuffer o bb = (bb', .ok b)) :
    (b.bytes = 0 ∧ b.escapeBytes = 0 ∧ opened b = if b.group.isSome then 1 else 0) ∧
      ((bb' = bb ∧ b.group = none ∧ b.shared = false) ∨
        bb.register o.budgetGroup = (bb', .ok b.group)) := by
  unfold newAckBuffer at h
  cases hshared : o.sharedBudget with
  | false =>
    rw [hshared] at h
    simp only [Bool.false_eq_true, if_false, Prod.mk.injEq, Except.ok.injEq] at h
    obtain ⟨rfl, rfl⟩ := h
    exact ⟨⟨rfl, rfl, rfl⟩, .inl ⟨rfl, rfl, rfl⟩⟩
  | true =>
    rw [hshared, if_pos rfl] at h
    obtain ⟨r, hr⟩ : ∃ r, bb.register o.budgetGroup = r := ⟨_, rfl⟩
    rw [hr] at h ⊢
    obtain ⟨bb₁, res⟩ := r
    cases res with
    | error err => exact absurd (Prod.mk.inj h).2 (by simp)
    | ok group =>
      simp only [Prod.mk.injEq, Except.ok.injEq] at h
      obtain ⟨rfl, rfl⟩ := h
      exact ⟨⟨rfl, rfl, rfl⟩, .inr rfl⟩

theorem Fair.fresh (h : Fair strict s) (hb : Buffered s q) {o : AckBufferOptions} {b : AckBuffer}
    (hcount : s.holders + 1 < 2 ^ 64) (hnew : newAckBuffer o s.bb = (s'.bb, .ok b))
    (hat : s'.bufferAt = update s.bufferAt s.buffers { buf := b })
    (hn : s'.buffers = s.buffers + 1) (hw : s'.waiterOf = s.waiterOf) :
    FairState.Kept strict (byGroup opened s') s'.fairState ∧ Frame s.bb s'.bb ∧
      (b.shared = true → ∃ g, b.group = some g ∧ g < s'.bb.nextGroup) := by
  obtain ⟨⟨hbytes, hescape, hopened⟩, hcases⟩ := newAckBuffer_cases hnew
  -- the buffer brings nothing but its reference
  have hempty : ∀ φ : AckBuffer → Nat, φ b = 0 → byGroup φ s' = byGroup φ s := by
    intro φ hφ
    funext g
    have hzero : grouped φ g { buf := b } {} = 0 := by
      unfold grouped
      rw [hφ]
      exact ite_self 0
    rw [byGroup_fresh hat hn, hzero, Nat.add_zero]
  have hstate : s'.fairState = { s.fairState with bb := s'.bb } := by
    unfold fairState
    rw [hempty _ hbytes, hempty _ hescape, outstanding_congr hw]
  rcases hcases with ⟨hbb, hnone, halone⟩ | hreg
  · have hzero : opened b = 0 := by
      rw [hopened, hnone]
      rfl
    rw [hstate, hempty _ hzero, hbb]
    exact ⟨h.kept, (Rigid.refl s.bb).frame, fun hno => absurd (halone.symm.trans hno) Bool.false_ne_true⟩
  · obtain ⟨g, hg, -, hlt, hkept, hfr⟩ := h.kept.register hreg fun g => by
      have hrefs := h.references hb.metered g
      show byGroup opened s g + s.bb.pendings s.outstanding g + 1 < 2 ^ 64
      omega
    have hopens : byGroup opened s' = update (byGroup opened s) g (byGroup opened s g + 1) := by
      funext x
      rw [byGroup_fresh hat hn]
      rcases eq_or_ne x g with rfl | hx
      · rw [grouped_self hg, update_self, hopened, hg]
        rfl
      · rw [grouped_of_ne hg hx, update_of_ne hx, Nat.add_zero]
    rw [hstate, hopens]
    exact ⟨hkept, hfr, fun _ => ⟨g, hg, hlt⟩⟩

/-- What the callers hold is the same up to the budget and the waiters. -/
theorem fairState_same (hi : i < s.buffers) (hat : s'.bufferAt = update s.bufferAt i b)
    (hn : s'.buffers = s.buffers) (hsame : b.buf.group = (s.bufferAt i).buf.group)
    (hbytes : b.buf.bytes = (s.bufferAt i).buf.bytes)
    (hescape : b.buf.escapeBytes = (s.bufferAt i).buf.escapeBytes) :
    s'.fairState = { s.fairState with bb := s'.bb, out := s'.outstanding } := by
  unfold fairState
  rw [byGroup_same hi hat hn hsame hbytes, byGroup_same hi hat hn hsame hescape]

theorem Apart.congr (h : s.Apart) (hw : s'.waiterOf = s.waiterOf) : s'.Apart := by
  unfold Apart
  rw [hw]
  exact h

/-- The waiters after a round that leaves the call with the waiter `x`. -/
theorem outstanding_with {x : Option WaiterId} (hkeep : ∀ v, s.waiterOf j = some v → x = some v)
    (hw : s'.waiterOf = update s.waiterOf j x) :
    s'.outstanding = s.fairState.withWaiter x := by
  cases hold : s.waiterOf j with
  | none =>
    cases x with
    | none =>
      rw [← hold, update_eq_self] at hw
      exact outstanding_congr hw
    | some v => exact outstanding_some hold hw
  | some v =>
    obtain rfl := hkeep v hold
    rw [← hold, update_eq_self] at hw
    rw [outstanding_congr hw]
    exact (Finset.insert_eq_of_mem (mem_outstanding.2 ⟨j, hold⟩)).symm

/-- A refused call keeps the waiter it has. -/
theorem MayReserve.stays (hmay : MayReserve s j g) (h : Fair strict s) (hj : j < s.adds)
    {force : Bool}
    (hno : (s.bb.reserveFor (s.addAt j).size force (some g) (s.addAt j).waiter).2.ok = false)
    (v : WaiterId) (hv : s.waiterOf j = some v) :
    (s.bb.reserveFor (s.addAt j).size force (some g) (s.addAt j).waiter).2.waiter = some v := by
  rw [waiterOf_eq hj] at hv
  rcases h.kept.solvent.refused hmay.asks hno with ⟨u, hu, -, hres⟩ | ⟨hnone, -⟩
  · rw [show s.bb.reserveFor _ _ _ _ = _ from hres]
    exact hu.symm.trans hv
  · exact absurd (hnone.symm.trans hv) (Option.some_ne_none v).symm

/-- A refused add. -/
theorem Fair.refuse (h : Fair strict s) (hb : Buffered s q) (hfits : s.Fits (.tryAdd j))
    (hj : j < s.adds) {w : Option WaiterId}
    (hrun : (s.bufferAt (s.addAt j).buffer).buf.isRunning = true)
    (hwhy : AckBuffer.Refuses (s.bufferAt (s.addAt j).buffer).buf s.bb (s.addAt j).size
      (s.addAt j).waiter s'.bb w)
    (hat : s'.bufferAt = update s.bufferAt (s.addAt j).buffer
      { s.bufferAt (s.addAt j).buffer with
        buf := (s.bufferAt (s.addAt j).buffer).buf.sampleWake.1 })
    (hn : s'.buffers = s.buffers) (hw : s'.waiterOf = update s.waiterOf j w) :
    FairState.Kept strict (byGroup opened s') s'.fairState ∧ Frame s.bb s'.bb ∧ s'.Apart ∧
      (∀ v, w = some v → s.waiterOf j = some v ∨ ((s'.bb.waiterAt v).n = (s.addAt j).size ∧
        (s'.bb.waiterAt v).group = group (s.bufferAt (s.addAt j).buffer).buf.group ∧
        (s.bufferAt (s.addAt j).buffer).buf.shared = true)) := by
  have hi := (hb.adds j hj).1
  rw [fairState_same hi hat hn rfl rfl rfl, byGroup_same hi hat hn rfl rfl]
  rcases hwhy.cases with ⟨rfl, hbb⟩ | ⟨hshared, hno, hbb, rfl⟩
  · obtain ⟨hkept, hfr⟩ := h.cancel hj
    rw [outstanding_none hw, hbb]
    exact ⟨hkept, hfr, h.apart.update_none hw, fun v hv => absurd hv (Option.some_ne_none v).symm⟩
  -- the budget keeps the add waiting
  obtain ⟨g, hmay⟩ := h.mayReserve hb hfits hj hrun hshared
  rw [hmay.group] at hno hbb hw ⊢
  obtain ⟨hkept, hfr⟩ := hmay.kept h (!(s.bufferAt (s.addAt j).buffer).buf.heldFlagged)
  rw [reserve_refused s.fairState hno] at hkept
  rw [outstanding_with (hmay.stays h hj hno) hw, hbb]
  refine ⟨hkept, hfr, ?_⟩
  rcases h.kept.solvent.refused hmay.asks hno with ⟨v, hv, -, hres⟩ | ⟨hv, hres, hsize, hgroup⟩
  · -- still the same waiter
    have hold : s.waiterOf j = some v := (waiterOf_eq hj).trans hv
    rw [show s.bb.reserveFor _ _ _ _ = _ from hres] at hw ⊢
    rw [← hold, update_eq_self] at hw
    exact ⟨h.apart.congr hw, fun x hx => .inl (hold.trans hx)⟩
  · have hfresh : s.bb.nextWaiter ∉ s.outstanding :=
      fun hm => absurd (h.kept.solvent.accounts.queues.fresh _ hm) (Nat.lt_irrefl _)
    rw [show (s.bb.reserveFor _ _ _ _).2.waiter = _ from hres] at hw
    refine ⟨h.apart.update_some hfresh hw, fun x hx => .inr ?_⟩
    obtain rfl := Option.some.inj (hres.symm.trans hx)
    exact ⟨hsize, hgroup, hshared⟩

/-- A buffer without a share holds no waiter. -/
theorem Fair.no_waiter (h : Fair strict s)
    (hno : (s.bufferAt (s.addAt j).buffer).buf.shared = false) : s.waiterOf j = none := by
  cases hv : s.waiterOf j with
  | none => rfl
  | some v => exact absurd (hno.symm.trans (h.waiters j v hv).2.2) Bool.false_ne_true

/-- The counters of a buffer after an admission. -/
theorem admitLocked_view {b : AckBuffer} {e : DataMessage} {size : Nat} {overshot : Bool}
    {receipt : Option ReceiptId} {m : Nat} :
    (b.admitLocked e size overshot receipt m).group = b.group ∧
      opened (b.admitLocked e size overshot receipt m) = opened b := by
  have hset := AckBuffer.admitLocked_settings (b := b) e size overshot receipt m
  have hreg : (b.admitLocked e size overshot receipt m).registered = b.registered :=
    congrArg (fun v => v.1.2.2.2.2) hset
  refine ⟨congrArg (fun v => v.1.2.2.2.1) hset, ?_⟩
  unfold opened
  rw [hreg]

/-- A waiter of a buffer asks for the size of its message. -/
theorem Fair.charged (h : Fair strict s) (hj : j < s.adds) :
    s.fairState.charged (s.addAt j).size (s.addAt j).waiter = (s.addAt j).size := by
  unfold FairState.charged
  rw [← waiterOf_eq hj]
  cases hw : s.waiterOf j with
  | none => rfl
  | some v =>
    show (if (s.bb.waiterAt v).granted then (s.bb.waiterAt v).n else _) = _
    rw [(h.waiters j v hw).1]
    exact ite_self _

/-- An admission. With the ledger of the escapes, an add is no escape while the buffer holds
one. -/
theorem Fair.admission (h : Fair strict s) (hb : Buffered s q) (hfits : s.Fits (.tryAdd j))
    (hj : j < s.adds) {adm : Admission} {log : List Admission}
    (hrun : (s.bufferAt (s.addAt j).buffer).buf.isRunning = true)
    (hwhy : AckBuffer.Admits (s.bufferAt (s.addAt j).buffer).buf s.bb (s.addAt j).size
      (s.addAt j).waiter s'.bb adm.overshot)
    (hsize : adm.size = (s.addAt j).size)
    (hat : s'.bufferAt = update s.bufferAt (s.addAt j).buffer
      { s.bufferAt (s.addAt j).buffer with
        buf := (s.bufferAt (s.addAt j).buffer).buf.admitLocked adm.stored adm.size adm.overshot
          adm.receipt adm.maxTransmissions
        log := log })
    (hn : s'.buffers = s.buffers) (hw : s'.waiterOf = update s.waiterOf j none)
    (hesc : strict → adm.overshot = true →
      (s.bufferAt (s.addAt j).buffer).buf.escapeBytes = 0) :
    FairState.Kept strict (byGroup opened s') s'.fairState ∧ Frame s.bb s'.bb := by
  have hi := (hb.adds j hj).1
  have hwired := (hb.metered _ hi).wired
  have hopens : byGroup opened s' = byGroup opened s :=
    byGroup_same hi hat hn admitLocked_view.1 admitLocked_view.2
  have hsum : (s.bufferAt (s.addAt j).buffer).buf.bytes + adm.size < 2 ^ 64 := by
    have hle := bytes_le hi
    have hfit := hfits.1
    omega
  rcases hwhy.cases with ⟨hno, hbb⟩ | ⟨hacc, hshared, hok, hbb, hover⟩
  · -- the budget has no part in the admission of a buffer that does not share it
    have hgroup : (s.bufferAt (s.addAt j).buffer).buf.group = none := by
      by_contra hsome
      exact Bool.false_ne_true ((hno hwired).symm.trans (hwired.grouped hsome))
    have hstate : s'.fairState = s.fairState := by
      unfold fairState
      rw [hbb, outstanding_none hw, waitersOf_erase_none (h.no_waiter (hno hwired)),
        byGroup_apart hi hgroup admitLocked_view.1 hat hn,
        byGroup_apart hi hgroup admitLocked_view.1 hat hn]
    rw [hstate, hopens, hbb]
    exact ⟨h.kept, (Rigid.refl s.bb).frame⟩
  obtain ⟨g, hmay⟩ := h.mayReserve hb hfits hj hrun hshared
  have hg := hmay.group
  rw [hg] at hok hbb hover
  obtain ⟨hkept, hfr⟩ := hmay.kept h (!(s.bufferAt (s.addAt j).buffer).buf.heldFlagged)
  rw [← hbb] at hfr
  have hbytes : (s.bufferAt (s.addAt j).buffer).buf.bytes ≤ byGroup AckBuffer.bytes s g :=
    le_byGroup hi hg
  have hescape : (s.bufferAt (s.addAt j).buffer).buf.escapeBytes ≤
      byGroup AckBuffer.escapeBytes s g := le_byGroup hi hg
  have hstate : s.fairState.reserve (s.addAt j).size
      (!(s.bufferAt (s.addAt j).buffer).buf.heldFlagged) (some g) (s.addAt j).waiter =
      { s'.fairState with
        esc := update (byGroup AckBuffer.escapeBytes s) g
          (byGroup AckBuffer.escapeBytes s g + if adm.overshot then (s.addAt j).size else 0) } := by
    have hheld : byGroup AckBuffer.bytes s' = update (byGroup AckBuffer.bytes s) g
        (byGroup AckBuffer.bytes s g + (s.addAt j).size) := by
      rw [byGroup_update hi hg admitLocked_view.1 hat hn, AckBuffer.admitLocked_bytes hsum,
        if_pos hacc, hsize]
      congr 1
      omega
    refine (reserve_ok s.fairState hok).trans ?_
    rw [h.charged hj]
    have hview : s'.fairState = ⟨s'.bb, update (byGroup AckBuffer.bytes s) g
        (byGroup AckBuffer.bytes s g + (s.addAt j).size), byGroup AckBuffer.escapeBytes s',
        s.fairState.without (s.addAt j).waiter⟩ := by
      rw [h.without hj, ← hheld, ← outstanding_none hw]
      rfl
    rw [hview, hover, hbb]
    rfl
  rw [hstate] at hkept
  rw [hopens]
  refine ⟨hkept.escapes fun hstrict => ?_, hfr⟩
  have hcount := (AckBuffer.admitLocked_counters (b := (s.bufferAt (s.addAt j).buffer).buf)
    adm.stored adm.size adm.overshot adm.receipt adm.maxTransmissions).2.2.1
  rw [hg, Option.isSome_some, Bool.and_true] at hcount
  refine (byGroup_update hi hg admitLocked_view.1 hat hn).trans (congrArg _ ?_)
  rw [hcount]
  cases hyes : adm.overshot with
  | false =>
    rw [if_neg Bool.false_ne_true, if_neg Bool.false_ne_true, Nat.sub_add_cancel hescape]
    rfl
  | true => rw [if_pos rfl, if_pos rfl, hesc hstrict hyes, hsize, Nat.sub_zero]

/-- What a step carries over. -/
structure Carried (strict : Prop) (s s' : SystemState) : Prop where
  kept : FairState.Kept strict (byGroup opened s') s'.fairState
  frame : Frame s.bb s'.bb
  apart : s'.Apart
  /-- A waiter is an old one, or that of an add that was just refused. -/
  waiters : ∀ j v, s'.waiterOf j = some v → s.waiterOf j = some v ∨
    j < s.adds ∧ (s'.bb.waiterAt v).n = (s.addAt j).size ∧
      (s'.bb.waiterAt v).group = group (s.bufferAt (s.addAt j).buffer).buf.group ∧
      (s.bufferAt (s.addAt j).buffer).buf.shared = true
  groups : ∀ i, s.buffers ≤ i → i < s'.buffers → (s'.bufferAt i).buf.shared = true →
    ∃ g, (s'.bufferAt i).buf.group = some g ∧ g < s'.bb.nextGroup

/-- With the ledger of the escapes, no add is an escape while its buffer holds one. -/
def SingleEscape (s : SystemState) : SystemAct → Prop
  | .tryAdd j => (s.round (s.addAt j)).1.overshot = true →
      (s.bufferAt (s.addAt j).buffer).buf.escapeBytes = 0
  | _ => True

theorem Fair.carried (h : Fair strict s) (hb : Buffered s q) (hchange : Change s q a s' q')
    (hfits : s.Fits a) (hesc : strict → s.SingleEscape a) : Carried strict s s' := by
  -- only `NewAckBuffer` makes a buffer
  have hold : s'.buffers = s.buffers → ∀ i, s.buffers ≤ i → i < s'.buffers →
      (s'.bufferAt i).buf.shared = true →
      ∃ g, (s'.bufferAt i).buf.group = some g ∧ g < s'.bb.nextGroup := by
    intro hn i hge hlt
    omega
  cases hchange with
  | same hbb hat hn hw =>
    have hstate : s'.fairState = s.fairState := by
      unfold fairState
      rw [hbb, byGroup_congr hat hn, byGroup_congr hat hn, outstanding_congr hw]
    refine ⟨?_, ?_, h.apart.congr hw, fun j v hv => .inl (hw ▸ hv), hold hn⟩
    · rw [hstate, byGroup_congr hat hn]
      exact h.kept
    · rw [hbb]
      exact (Rigid.refl s.bb).frame
  | fresh o b ha hnew hat hn hw =>
    subst ha
    obtain ⟨hkept, hfr, hgroup⟩ := h.fresh hb hfits hnew hat hn hw
    refine ⟨hkept, hfr, h.apart.congr hw, fun j v hv => .inl (hw ▸ hv), fun i hge hlt => ?_⟩
    obtain rfl : i = s.buffers := by omega
    rw [hat, update_self]
    exact hgroup
  | deal i b qi hi hdeals hlog hat hn hw =>
    obtain ⟨hkept, hfr, -⟩ := h.deal hb hi hdeals hat hn hw (fun _ _ _ _ => Nat.zero_le _)
      (P := fun _ => True) (fun _ _ _ _ _ _ _ _ _ _ _ => trivial) (fun _ _ _ => trivial) trivial
    exact ⟨hkept, hfr, h.apart.congr hw, fun j v hv => .inl (hw ▸ hv), hold hn⟩
  | refuse j b w hj ha hbuf hrun hwhy hat hn hw =>
    subst ha hbuf
    obtain ⟨hkept, hfr, hapart, hwait⟩ := h.refuse hb hfits hj hrun hwhy hat hn hw
    refine ⟨hkept, hfr, hapart, fun k v hv => ?_, hold hn⟩
    rw [hw] at hv
    rcases eq_or_ne k j with rfl | hk
    · rw [update_self] at hv
      exact (hwait v hv).imp_right fun hnew => ⟨hj, hnew⟩
    · rw [update_of_ne hk] at hv
      exact .inl hv
  | admission j b adm hj ha hbuf hrun _ hwhy _ _ hsize _ hround hat hn hw =>
    subst ha hbuf
    obtain ⟨hkept, hfr⟩ := h.admission hb hfits hj hrun hwhy hsize hat hn hw
      fun hstrict hover => hesc hstrict (hround.trans hover)
    exact ⟨hkept, hfr, h.apart.update_none hw, fun k v hv => .inl (waiter_kept hw hv), hold hn⟩
  | cancel j hj ha hbb hat hn hw =>
    obtain ⟨hkept, hfr⟩ := h.cancel hj
    rw [← hbb, ← outstanding_none hw] at hkept
    rw [← hbb] at hfr
    have hstate : s'.fairState = { s.fairState with bb := s'.bb, out := s'.outstanding } := by
      unfold fairState
      rw [byGroup_congr hat hn, byGroup_congr hat hn]
    rw [← hstate, ← byGroup_congr hat hn] at hkept
    exact ⟨hkept, hfr, h.apart.update_none hw, fun k v hv => .inl (waiter_kept hw hv), hold hn⟩

theorem Fair.step (h : Fair strict s) (hb : Buffered s q) (hmove : Moved s a s')
    (hchange : Change s q a s' q') (hfits : s.Fits a) (hesc : strict → s.SingleEscape a) :
    Fair strict s' := by
  have hc := h.carried hb hchange hfits hesc
  refine ⟨hc.kept, fun i hi hshared => ?_, fun j v hv => ?_, hc.apart⟩
  · rcases Nat.lt_or_ge i s.buffers with hold | hnew
    · have hconfig := hchange.config hold
      simp only [AckBuffer.configView, Prod.mk.injEq] at hconfig
      rw [hconfig.2.2.1] at hshared
      obtain ⟨g, hg, hlt⟩ := h.groups i hold hshared
      exact ⟨g, hconfig.2.2.2.trans hg, hlt.trans_le hc.frame.nextGroup⟩
    · exact hc.groups i hnew hi hshared
  · have hj := waiterOf_lt hv
    rcases hmove.given hj with ⟨hlt, hgiven⟩ | ⟨-, -, hnone, -⟩
    · simp only [AddCall.given, Prod.mk.injEq] at hgiven
      obtain ⟨hbuf, -, hsize, -⟩ := hgiven
      have hconfig := hchange.config (hb.adds j hlt).1
      simp only [AckBuffer.configView, Prod.mk.injEq] at hconfig
      rw [hsize, hbuf, hconfig.2.2.2, hconfig.2.2.1]
      rcases hc.waiters j v hv with hold | ⟨-, hnew⟩
      · have hfr := hc.frame.waiter v
          (h.kept.solvent.accounts.queues.fresh v (mem_outstanding.2 ⟨j, hold⟩))
        rw [hfr.1, hfr.2.1]
        exact h.waiters j v hold
      · exact hnew
    · rw [waiterOf_eq hj, hnone] at hv
      cases hv

/-! ## The budget and the waiters in one step -/

/-- What the calls of the buffers and of their adds keep of the budget and of the waiters, every
step keeps. -/
theorem Fair.keeps (h : Fair strict s) (hb : Buffered s q) (hchange : Change s q a s' q')
    (hfits : s.Fits a) {least : Nat}
    (hcoarse : ∀ i, i < s.buffers → (s.bufferAt i).buf.shared = true →
      AckBuffer.Coarse least (q i))
    {P : ByteBudget → Finset WaiterId → Prop} (hP : P s.bb s.outstanding)
    (hregister : ∀ key, P (s.bb.register key).1 s.outstanding)
    (hreserve : ∀ j g, a = .tryAdd j → j < s.adds → MayReserve s j g →
      ∀ force x, s.fairState.reserve (s.addAt j).size force (some g) (s.addAt j).waiter = x →
        P x.bb x.out)
    (hcancel : ∀ w ∈ s.outstanding, P (s.bb.cancel (some w)) (s.outstanding.erase w))
    (hrelease : ∀ bb held n x g, Accounts bb held s.outstanding → g < bb.nextGroup → n ≤ held g →
      x ≤ n → x = n ∨ x + least ≤ n → P bb s.outstanding →
        P (bb.releaseFor n x (some g)) s.outstanding)
    (hleave : ∀ bb g, P bb s.outstanding → P (bb.unregister (some g)) s.outstanding) :
    P s'.bb s'.outstanding := by
  have hgiveup : ∀ j, j < s.adds → s'.waiterOf = update s.waiterOf j none →
      s'.bb = (s.bufferAt (s.addAt j).buffer).buf.cancelShared s.bb (s.addAt j).waiter →
      P s'.bb s'.outstanding := by
    intro j hj hw hbb
    rw [outstanding_none hw, hbb]
    unfold AckBuffer.cancelShared
    rw [← waiterOf_eq hj]
    cases hold : s.waiterOf j with
    | none =>
      have hsame : (if (s.bufferAt (s.addAt j).buffer).buf.shared then s.bb.cancel none
        else s.bb) = s.bb := ite_self _
      rw [waitersOf_erase_none hold, hsame]
      exact hP
    | some v =>
      rw [h.apart.waitersOf_erase hold, (h.waiters j v hold).2.2, if_pos rfl]
      exact hcancel v (mem_outstanding.2 ⟨j, hold⟩)
  cases hchange with
  | same hbb _ _ hw =>
    rw [hbb, outstanding_congr hw]
    exact hP
  | fresh o b _ hnew _ _ hw =>
    rw [outstanding_congr hw]
    rcases (newAckBuffer_cases hnew).2 with ⟨hbb, -⟩ | hreg
    · rw [hbb]
      exact hP
    · have hnext := hregister o.budgetGroup
      rwa [hreg] at hnext
  | deal i b qi hi hdeals _ hat hn hw =>
    rw [outstanding_congr hw]
    exact (h.deal hb hi hdeals hat hn hw (hcoarse i hi) (P := fun bb => P bb s.outstanding)
      hrelease hleave hP).2.2
  | refuse j b x hj ha hbuf hrun hwhy _ _ hw =>
    subst ha hbuf
    rcases hwhy.cases with ⟨rfl, hbb⟩ | ⟨hshared, hno, hbb, rfl⟩
    · exact hgiveup j hj hw hbb
    -- the add waits for the budget
    obtain ⟨g, hmay⟩ := h.mayReserve hb hfits hj hrun hshared
    rw [hmay.group] at hno hbb hw
    rw [outstanding_with (hmay.stays h hj hno) hw, hbb]
    exact hreserve j g rfl hj hmay _ _ (reserve_refused s.fairState hno)
  | admission j b adm hj ha hbuf hrun _ hwhy _ _ _ _ _ _ _ hw =>
    subst ha hbuf
    rcases hwhy.cases with ⟨hno, hbb⟩ | ⟨-, hshared, hok, hbb, -⟩
    · have hnone := h.no_waiter (hno (hb.metered _ (hb.adds j hj).1).wired)
      rw [outstanding_none hw, waitersOf_erase_none hnone, hbb]
      exact hP
    · obtain ⟨g, hmay⟩ := h.mayReserve hb hfits hj hrun hshared
      rw [hmay.group] at hok hbb
      rw [outstanding_none hw, ← h.without hj, hbb]
      exact hreserve j g rfl hj hmay _ _ (reserve_ok s.fairState hok)
  | cancel j hj _ hbb _ _ hw => exact hgiveup j hj hw hbb

end SystemState

end UspClient
