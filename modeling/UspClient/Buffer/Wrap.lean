import UspClient.Buffer.Bounds

/-!
# Acknowledgements across the wraparound of the sequence numbers

`Ack` compares sequence numbers as plain integers before it computes an index modulo
`2 ^ 64`. In a window that crosses `2 ^ 64 - 1` its second comparison rejects the frames
before the last word, although they were delivered. The others are accepted, and so is
every delivered frame of a window that does not cross it.
-/

namespace UspClient

open Word64 AckBuffer

namespace AckBuffer

variable {b b' b'' : AckBuffer} {i j k n : Nat}

/-! ## A prefix that leaves -/

/-- The first `k` slots of `b` left, and `b'` holds the others. -/
structure Cut (b b' : AckBuffer) (k : Nat) : Prop where
  bound : k ≤ b.nextIndexFree
  free : b'.nextIndexFree = b.nextIndexFree - k
  slots : ∀ j < b'.nextIndexFree, b'.buff[j]? = b.buff[k + j]? ∧
    add64 b'.firstSeqNum j = add64 b.firstSeqNum (k + j) ∧
    b'.slotRetired j = b.slotRetired (k + j)
  delivered : ∀ j < b'.nextIndexFree, (j < b'.nextIndexToDeliver ↔ k + j < b.nextIndexToDeliver)
  accounting : b'.accounting = b.accounting
  charges : b.accounting = true → b'.sizes = b.sizes.drop k

theorem Cut.zero (hv : b'.slotView = b.slotView) : Cut b b' 0 := by
  simp only [slotView, Prod.mk.injEq] at hv
  obtain ⟨⟨h₁, -, h₃, h₄⟩, h₅, -, h₇, -, h₉, h₁₀⟩ := hv
  refine ⟨Nat.zero_le _, h₃, fun j _ => ?_, fun j _ => ?_, h₉, fun _ => ?_⟩
  · unfold slotRetired
    rw [Nat.zero_add, h₁, h₅, h₇]
    exact ⟨rfl, rfl, rfl⟩
  · rw [Nat.zero_add, h₄]
  · rw [h₁₀, List.drop_zero]

theorem Cut.trans (h : Cut b b' k) (h' : Cut b' b'' n) : Cut b b'' (k + n) := by
  have hbound := h'.bound
  have hk := h.bound
  have hfree := h.free
  have hfree' := h'.free
  refine ⟨by omega, by omega, fun j hj => ?_, fun j hj => ?_, h'.accounting.trans h.accounting,
    fun hacc => ?_⟩
  · obtain ⟨h₁, h₂, h₃⟩ := h'.slots j hj
    obtain ⟨h₁', h₂', h₃'⟩ := h.slots (n + j) (by omega)
    rw [Nat.add_assoc]
    exact ⟨h₁.trans h₁', h₂.trans h₂', h₃.trans h₃'⟩
  · rw [h'.delivered j hj, h.delivered (n + j) (by omega), Nat.add_assoc]
  · rw [h'.charges (h.accounting.trans hacc), h.charges hacc, List.drop_drop]

theorem Backed.removePrefixLocked_cut (h : Backed b) (bb : ByteBudget) (hi : i < b.nextIndexFree)
    (hbound : b.buff.length < 2 ^ 64) : Cut b (b.removePrefixLocked bb i).1 (i + 1) := by
  have hfree : (b.removePrefixLocked bb i).1.nextIndexFree = b.nextIndexFree - i - 1 := rfl
  have hle := h.free_le
  refine ⟨hi, ?_, fun j hj => ⟨?_, ?_, ?_⟩, fun j hj => ?_, rfl, fun hacc => ?_⟩
  · rw [hfree]
    omega
  · -- the slots in use are the head of both slices
    rw [hfree] at hj
    rcases h.slots with ⟨w, ⟨r, hw⟩, hlen⟩
    rcases Padded.removePrefixLocked ⟨r, hw⟩ (by rw [List.length_map, hlen]) hi h.capacity h.pos bb
      with ⟨⟨r₁, hr₁⟩, -⟩
    rw [hr₁, hw, List.getElem?_append_left, List.getElem?_append_left, List.getElem?_drop]
    · rw [List.length_map]
      omega
    · rw [List.length_drop, List.length_map]
      omega
  · show add64 (add64 b.firstSeqNum (i + 1)) j = _
    unfold add64
    omega
  · rw [hfree] at hj
    have hseq : add64 (add64 b.firstSeqNum (i + 1)) j = add64 b.firstSeqNum (i + 1 + j) := by
      unfold add64
      omega
    have hfar : ¬ sub64 (add64 b.firstSeqNum (i + 1 + j)) b.firstSeqNum ≤ i := by
      unfold add64 sub64
      omega
    show decide (add64 (add64 b.firstSeqNum (i + 1)) j ∈ b.retired.filter _) = _
    unfold slotRetired
    rw [hseq, decide_eq_decide, Finset.mem_filter]
    exact and_iff_left hfar
  · show (j < if b.nextIndexToDeliver > i + 1 then b.nextIndexToDeliver - (i + 1) else 0) ↔ _
    split_ifs <;> omega
  · show (if b.accounting then b.sizes.drop (i + 1) else b.sizes) = _
    rw [if_pos hacc]

/-! ## The retired slots at the front -/

/-- The release of a retired head removes the retired slots at the front. -/
theorem Backed.releaseRetiredHead_cut (h : Backed b) (bb : ByteBudget)
    (hbound : b.buff.length < 2 ^ 64) :
    Cut b (b.releaseRetiredHeadLocked bb).1 b.retiredRun := by
  unfold releaseRetiredHeadLocked
  simp only
  split_ifs with hnone hzero
  · have hrun : b.retiredRun = 0 := by
      unfold retiredRun slotRetired
      rw [hnone]
      cases b.nextIndexFree with
      | zero => rfl
      | succ n =>
        rw [List.range_succ_eq_map, List.takeWhile_cons_of_neg]
        · rfl
        · simp
    rw [hrun]
    exact .zero rfl
  · rw [hzero]
    exact .zero rfl
  · have hle := retiredRun_le (b := b)
    have hback : Backed (b.remember b.retiredRun) := h.congr rfl
    have hi : b.retiredRun - 1 < (b.remember b.retiredRun).nextIndexFree := by
      show b.retiredRun - 1 < b.nextIndexFree
      omega
    have hkeep : Cut b (b.remember b.retiredRun) 0 := .zero rfl
    have hcut := hkeep.trans (hback.removePrefixLocked_cut bb hi hbound)
    have hdrop := hcut.trans (.zero (dropReceiptsLocked_slotView b.firstSeqNum (b.retiredRun - 1)
      false))
    rwa [Nat.add_zero, Nat.zero_add, Nat.sub_add_cancel (by omega)] at hdrop

theorem length_removePrefixLocked (h : Backed b) (bb : ByteBudget) (hi : i < b.nextIndexFree) :
    (b.removePrefixLocked bb i).1.buff.length ≤ b.buff.length := by
  have hle := h.free_le
  have hshift := length_shifted (k := i + 1) hi hle
  rw [removePrefixLocked_buff]
  split_ifs
  · unfold shrinkBacking
    simp only
    split_ifs with hgt
    · unfold resized
      rw [List.length_append, List.length_replicate, List.length_take, List.length_take, hshift]
      have hcap := h.capacity
      unfold initialCapacity at hgt ⊢
      omega
    · exact hshift.le
  · exact hshift.le

/-- `ackRemove` removes its prefix and the retired slots behind it. -/
theorem Backed.ackRemove_removed (h : Backed b) (bb : ByteBudget) (hi : i < b.nextIndexFree)
    (hbound : b.buff.length < 2 ^ 64) : ∃ run, b.Removed (b.ackRemove bb i).1 i run := by
  -- the buffer between the two removals
  obtain ⟨b₁, hb₁⟩ : ∃ b₁, b₁ = (b.removePrefixLocked bb i).1.ackReceiptsLocked b.firstSeqNum i :=
    ⟨_, rfl⟩
  have hview : b₁.backedView = (b.removePrefixLocked bb i).1.backedView := by
    rw [hb₁]
    exact dropReceiptsLocked_backedView b.firstSeqNum i true
  have hback : Backed b₁ := (h.removePrefixLocked bb hi).congr hview
  have hcut : Cut b b₁ (i + 1) := by
    rw [hb₁]
    exact (h.removePrefixLocked_cut bb hi hbound).trans
      (.zero (dropReceiptsLocked_slotView b.firstSeqNum i true))
  have hbuff : b₁.buff = (b.removePrefixLocked bb i).1.buff := congrArg (fun v => v.1) hview
  have hlen : b₁.buff.length < 2 ^ 64 := by
    rw [hbuff]
    exact lt_of_le_of_lt (length_removePrefixLocked h bb hi) hbound
  have hall := hcut.trans (hback.releaseRetiredHead_cut (b.removePrefixLocked bb i).2 hlen)
  have hres : (b.ackRemove bb i).1 =
      (b₁.releaseRetiredHeadLocked (b.removePrefixLocked bb i).2).1 := by
    rw [hb₁]
    rfl
  rw [← hres] at hall
  -- the run of retired slots there is as long as it can be
  obtain ⟨hrun, hend⟩ := Slice.takeWhile_range b₁.nextIndexFree b₁.slotRetired
  have hle := retiredRun_le (b := b₁)
  have hfree := hcut.free
  refine ⟨b₁.retiredRun, ?_, fun j hij hj => ?_, fun hlt => ?_, ?_, fun j hj => ?_, fun j hj => ?_,
    fun hacc => ?_⟩
  · omega
  · -- a slot of the retired run
    have hslot := (hcut.slots (j - (i + 1)) (by omega)).2.2
    rw [show i + 1 + (j - (i + 1)) = j by omega] at hslot
    rw [← hslot]
    exact hrun _ (by show _ < b₁.retiredRun; omega)
  · -- the slot behind it
    have hslot := (hcut.slots b₁.retiredRun (by omega)).2.2
    rw [show i + b₁.retiredRun + 1 = i + 1 + b₁.retiredRun by omega, ← hslot]
    exact hend (by show b₁.retiredRun < _; omega)
  · rw [hall.free]
    omega
  · rw [show i + b₁.retiredRun + 1 + j = i + 1 + b₁.retiredRun + j by omega]
    exact hall.slots j hj
  · rw [show i + b₁.retiredRun + 1 + j = i + 1 + b₁.retiredRun + j by omega]
    exact hall.delivered j hj
  · rw [hall.charges hacc, show i + 1 + b₁.retiredRun = i + b₁.retiredRun + 1 by omega]

/-! ## What `Ack` accepts -/

theorem Represented.backed (h : Represented b) : Backed b := by
  have hlen := h.free_le
  have hwin := h.window
  refine ⟨⟨(List.range b.nextIndexFree).map fun i => (b.buff.getD i none).getD {}, ?_, ?_⟩,
    by omega, by omega, h.sizes⟩
  · refine ⟨b.buff.length - b.nextIndexFree, List.ext_getElem? fun i => ?_⟩
    rcases Nat.lt_or_ge i b.nextIndexFree with hlt | hge
    · obtain ⟨m, hm⟩ := h.filled i hlt
      rw [List.getElem?_append_left (by simpa using hlt), List.getElem?_map, List.getElem?_map,
        List.getElem?_range hlt, hm]
      simp [List.getD_eq_getElem?_getD, hm]
    · rw [List.getElem?_append_right (by simpa using hge), List.getElem?_replicate, List.length_map,
        List.length_map, List.length_range]
      split_ifs with hin
      · exact h.nil i hge (by omega)
      · exact List.getElem?_eq_none (by omega)
  · rw [List.length_map, List.length_range]

/-- The window ends before the last word, or the slot is the one of the last word or behind. -/
def Comparable (b : AckBuffer) (i : Nat) : Prop :=
  b.firstSeqNum + b.nextIndexFree ≤ 2 ^ 64 ∨ 2 ^ 64 - 1 ≤ b.firstSeqNum + i

/-- The comparisons of `Ack` let the number of a delivered slot pass exactly there. -/
theorem Represented.ackError_none_iff (h : Represented b) (hi : i < b.nextIndexToDeliver) :
    b.ackError (add64 b.firstSeqNum i) = none ↔ Comparable b i := by
  have hnext := h.next_le
  have hlen := h.free_le
  have hbound := h.bound
  have hword := h.word
  have hseq := h.nextSeq
  have hidx : sub64 (add64 b.firstSeqNum i) b.firstSeqNum = i := by
    unfold add64 sub64
    omega
  have hold : ¬ (add64 b.firstSeqNum i < b.firstSeqNum ∧
      sub64 b.buff.length (maxWord - b.firstSeqNum) ≤ add64 b.firstSeqNum i) := by
    unfold add64 sub64 maxWord
    omega
  -- the second comparison is the one that stops a slot before the last word
  have hnew : (add64 b.firstSeqNum i ≥ b.nextSeqNum ∧ add64 b.firstSeqNum i ≠ maxWord ∧
      b.nextSeqNum ≠ 0) ↔ ¬ Comparable b i := by
    rw [hseq]
    unfold Comparable add64 maxWord
    omega
  unfold ackError
  simp only [hidx]
  rw [if_neg hold]
  by_cases hcmp : Comparable b i
  · rw [if_neg (fun hc => hnew.1 hc hcmp), if_neg (by omega), if_neg (by omega)]
    exact iff_of_true rfl hcmp
  · rw [if_pos (hnew.2 hcmp)]
    exact iff_of_false (Option.some_ne_none _) hcmp

end AckBuffer

/-- In every buffer that meets its invariant, with sequence numbers anywhere, `Ack` accepts the
number of a delivered slot exactly if the window does not cross the last word or the number is
the last word or behind it. It then removes the slots up to that one. -/
theorem ack_accepts_delivered {b : AckBuffer} (h : b.Represented) {i : Nat}
    (hi : i < b.nextIndexToDeliver) (bb : ByteBudget) :
    ((b.ack bb (add64 b.firstSeqNum i)).2.2 = none ↔ b.Comparable i) ∧
      (b.Comparable i → ∃ run, b.Removed (b.ack bb (add64 b.firstSeqNum i)).1 i run) := by
  have hnext := h.next_le
  have hlen := h.free_le
  have hbound := h.bound
  have hidx : sub64 (add64 b.firstSeqNum i) b.firstSeqNum = i := by
    unfold add64 sub64
    omega
  have hlate : b.ackReleased (add64 b.firstSeqNum i) = false := by
    unfold ackReleased
    cases b.releasedRetired with
    | none => rfl
    | some r =>
      simp only [hidx]
      rw [decide_eq_false (by omega), Bool.false_and]
  have herror := h.ackError_none_iff hi
  unfold AckBuffer.ack
  rw [hlate, if_neg Bool.false_ne_true]
  cases he : b.ackError (add64 b.firstSeqNum i) with
  | some e =>
    have hno : ¬ b.Comparable i := fun hcmp => Option.some_ne_none e (he.symm.trans (herror.2 hcmp))
    exact ⟨iff_of_false (Option.some_ne_none e) hno, fun hcmp => absurd hcmp hno⟩
  | none =>
    simp only [hidx]
    exact ⟨iff_of_true trivial (herror.1 he), fun _ =>
      h.backed.ackRemove_removed bb (by omega) hbound⟩

/-- Three delivered messages with the numbers `2 ^ 64 - 2`, `2 ^ 64 - 1` and `0`. -/
def crossing : AckBuffer where
  firstSeqNum := 2 ^ 64 - 2
  nextSeqNum := 1
  buff := [some { seqNum := 2 ^ 64 - 2 }, some { seqNum := 2 ^ 64 - 1 }, some { seqNum := 0 }]
  nextIndexFree := 3
  nextIndexToDeliver := 3
  currentCapacity := 3
  isAvailable := false

theorem crossing_represented : crossing.Represented := by
  constructor
  · decide
  · decide
  · decide
  · decide
  · decide
  · decide
  · intro i hi
    have hlt : i < 3 := hi
    interval_cases i <;> exact ⟨_, rfl⟩
  · intro i hge hlt
    exact absurd hlt (Nat.not_lt.2 hge)
  · intro hacc
    cases hacc
  · intro seq hseq
    exact absurd hseq (Finset.notMem_empty seq)
  · decide
  · decide
  · decide
  · decide

/-- The last word and what is behind it are accepted. -/
theorem crossing_accepts_behind : (crossing.ack (newByteBudget 0) 0).2.2 = none :=
  (ack_accepts_delivered crossing_represented (i := 2) (by decide) (newByteBudget 0)).1.2
    (show _ ∨ _ by decide)

/-- The first slot was delivered, and its acknowledgement is rejected. -/
theorem crossing_rejects_first : crossing.Represented ∧ 0 < crossing.nextIndexToDeliver ∧
    (crossing.ack (newByteBudget 0) (add64 crossing.firstSeqNum 0)).2.2 =
      some "unexpected acked sequence number: 18446744073709551614" := by
  have herr : crossing.ackError (add64 crossing.firstSeqNum 0) =
      some "unexpected acked sequence number: 18446744073709551614" := by decide +kernel
  refine ⟨crossing_represented, by decide, ?_⟩
  unfold AckBuffer.ack
  rw [if_neg (by decide), herr]

end UspClient
