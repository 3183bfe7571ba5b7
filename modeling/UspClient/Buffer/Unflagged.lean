import UspClient.Buffer.Deals

/-!
# The bytes beside the last flag

The size of the live frames of a buffer other than the last one that asks for an
acknowledgement. No call but an add raises it. A forced admission is flagged and finds no
flagged frame in the window, so it does not raise it either.
-/

namespace UspClient

open Word64 Replay

namespace AckBuffer

variable {b b' : AckBuffer} {bb : ByteBudget} {q q' : Queue Admission} {f : Frame Admission}
variable {i : Nat}

/-- What a slot weighs, if it is not the last flagged one. -/
def unflaggedSize (flag : Nat) (f : Frame Admission) : Nat :=
  if f.item.stored.seqNum = flag then 0 else heldSize f

def unflaggedBytes (b : AckBuffer) (q : Queue Admission) : Nat :=
  if b.isClosed then 0 else (q.window.map (unflaggedSize b.lastFlaggedSeq)).sum

theorem unflaggedSize_le (flag : Nat) (f : Frame Admission) : unflaggedSize flag f ≤ heldSize f := by
  unfold unflaggedSize
  split_ifs
  · exact Nat.zero_le _
  · exact le_rfl

theorem sum_unflagged_le (flag : Nat) (l : List (Frame Admission)) :
    (l.map (unflaggedSize flag)).sum ≤ (l.map heldSize).sum :=
  List.sum_le_sum fun f _ => unflaggedSize_le flag f

theorem Meter.unflagged_le (h : Meter b q) : b.unflaggedBytes q ≤ b.bytes := by
  rw [h.bytes]
  unfold unflaggedBytes
  split_ifs
  · exact le_rfl
  · exact sum_unflagged_le _ _

theorem unflaggedBytes_congr (hflag : b'.lastFlaggedSeq = b.lastFlaggedSeq)
    (hclosed : b'.isClosed = b.isClosed) : b'.unflaggedBytes q = b.unflaggedBytes q := by
  unfold unflaggedBytes
  rw [hflag, hclosed]

theorem sum_unflagged_congr (flag : Nat) (hmark : q'.window.map mark = q.window.map mark) :
    (q'.window.map (unflaggedSize flag)).sum = (q.window.map (unflaggedSize flag)).sum := by
  have hmap := map_of_mark (φ := unflaggedSize flag) hmark (fun m =>
    if m.1.stored.seqNum = flag then 0 else if decide (m.2 = .retired) then 0 else m.1.size)
    fun _ => rfl
  rw [hmap]

/-- The retired frame weighs nothing any more. The last flag moves only if it was its own. -/
theorem sum_unflagged_retire (hs : Slots b q) (hf : q.window[i]? = some f) (flag : Nat) :
    ((q.window.modify i retire).map
        (unflaggedSize (if flag = f.item.stored.seqNum then 0 else flag))).sum ≤
      (q.window.map (unflaggedSize flag)).sum := by
  refine List.Forall₂.sum_le_sum (List.forall₂_iff_get.2 ⟨?_, fun j hj hj' => ?_⟩)
  · rw [List.length_map, List.length_map, List.length_modify]
  rw [List.length_map] at hj'
  rw [List.get_eq_getElem, List.get_eq_getElem, List.getElem_map, List.getElem_map,
    List.getElem_modify]
  obtain ⟨y, hy⟩ : ∃ y, q.window[j] = y := ⟨_, rfl⟩
  have hget : q.window[j]? = some y := by
    rw [List.getElem?_eq_getElem hj', hy]
  rw [hy]
  rcases eq_or_ne i j with rfl | hij
  · rw [if_pos rfl]
    have hzero := (unflaggedSize_le (if flag = f.item.stored.seqNum then 0 else flag)
      (retire y)).trans_eq heldSize_retire
    omega
  · rw [if_neg hij]
    split_ifs with hflag
    · -- another slot has another number, so it was counted in full
      have hne : y.item.stored.seqNum ≠ flag := by
        intro heq
        exact hij (hs.seq_inj hf hget (hflag.symm.trans heq.symm)).1
      unfold unflaggedSize
      rw [if_neg hne]
      exact unflaggedSize_le 0 y
    · exact le_rfl

theorem Deal.unflagged_le {c c' : Account} (h : Deal c c') :
    c'.1.unflaggedBytes c'.2.2 ≤ c.1.unflaggedBytes c.2.2 := by
  cases h with
  | move hmove =>
    cases hmove with
    | idle b b' bb q q' hled hgone hmark =>
      have heq : b'.ledger.unflaggedBytes q' = b.ledger.unflaggedBytes q' :=
        unflaggedBytes_congr (congrArg lastFlaggedSeq hled) (congrArg isClosed hled)
      show b'.ledger.unflaggedBytes q' ≤ b.unflaggedBytes q
      rw [heq]
      show b.unflaggedBytes q' ≤ b.unflaggedBytes q
      unfold unflaggedBytes
      rw [sum_unflagged_congr _ hmark]
    | retire b bb q i entry f hs hf hl hseq =>
      have hflag : (b.retireLocked bb i entry).1.lastFlaggedSeq =
        if b.lastFlaggedSeq = (b.entryAt entry).seq then 0 else b.lastFlaggedSeq := rfl
      have hclosed : (b.retireLocked bb i entry).1.isClosed = b.isClosed := rfl
      -- the last flag is forgotten only together with its frame
      simp only [unflaggedBytes, hflag, hclosed, hseq]
      split_ifs
      · exact le_rfl
      · have hle := sum_unflagged_retire hs hf b.lastFlaggedSeq
        rwa [if_pos ‹_›] at hle
      · have hle := sum_unflagged_retire hs hf b.lastFlaggedSeq
        rwa [if_neg ‹_›] at hle
    | remove b bb q i g hs hi hg =>
      have hflag : (b.removePrefixLocked bb i).1.lastFlaggedSeq = b.lastFlaggedSeq := rfl
      have hclosed : (b.removePrefixLocked bb i).1.isClosed = b.isClosed := rfl
      simp only [unflaggedBytes, hflag, hclosed]
      split_ifs
      · exact le_rfl
      · show ((q.window.drop (i + 1)).map _).sum ≤ _
        rw [List.map_drop]
        have hsum := List.sum_take_add_sum_drop (q.window.map (unflaggedSize b.lastFlaggedSeq)) (i + 1)
        omega
  | sample | stop => exact le_rfl
  | resize b bb q n =>
    refine (unflaggedBytes_congr ?_ ?_).le <;>
    · unfold updateCapacity
      split_ifs <;> rfl
  | close b bb q => exact Nat.zero_le _

theorem Deals.unflagged_le {c c' : Account} (h : Deals c c') :
    c'.1.unflaggedBytes c'.2.2 ≤ c.1.unflaggedBytes c.2.2 :=
  h.keep (fun x => x.1.unflaggedBytes x.2.2 ≤ c.1.unflaggedBytes c.2.2)
    (fun _ _ hd hx => hd.unflagged_le.trans hx) le_rfl

/-- Without a flagged frame in the window every byte counts. -/
theorem unflagged_of_not_held (hs : Slots b q) (hlen : q.items.length + 1 < 2 ^ 64)
    (hheld : b.heldFlagged = false) (hopen : b.isClosed = false) :
    b.unflaggedBytes q = windowBytes q := by
  unfold unflaggedBytes windowBytes
  rw [hopen, if_neg Bool.false_ne_true]
  refine congrArg List.sum (List.map_congr_left fun f hf => ?_)
  obtain ⟨i, hi⟩ := List.mem_iff_getElem?.1 hf
  have hlt := (List.getElem?_eq_some_iff.1 hi).1
  have hitems := q.length_items
  have hseq := hs.seqs _ _ (items_window hi)
  rw [Nat.mod_eq_of_lt (by omega)] at hseq
  have hfirst := hs.first
  rw [Nat.mod_eq_of_lt (by omega)] at hfirst
  unfold heldFlagged at hheld
  rw [decide_eq_false_iff_not] at hheld
  unfold unflaggedSize
  rw [if_neg]
  omega

/-- A flagged admission into a window without a flagged frame. -/
theorem unflagged_admission {a : Admission} (hs : Slots b q) (hlen : q.items.length + 1 < 2 ^ 64)
    (hheld : b.heldFlagged = false) (hopen : b.isClosed = false)
    (hflag : a.stored.ackRequested = true) :
    (b.admitLocked a.stored a.size a.overshot a.receipt a.maxTransmissions).unflaggedBytes
      (q.push { item := a, limit := a.limit }) ≤ b.unflaggedBytes q := by
  have hlast := (admitLocked_counters (b := b) a.stored a.size a.overshot a.receipt
    a.maxTransmissions).2.2.2
  rw [if_pos hflag] at hlast
  have hclosed : (b.admitLocked a.stored a.size a.overshot a.receipt a.maxTransmissions).isClosed =
      b.isClosed :=
    congrArg (fun v => v.2.1.1) (admitLocked_settings (b := b) a.stored a.size a.overshot a.receipt
      a.maxTransmissions)
  rw [unflagged_of_not_held hs hlen hheld hopen]
  unfold unflaggedBytes
  rw [hlast, hclosed, hopen, if_neg Bool.false_ne_true]
  have hnew : unflaggedSize a.stored.seqNum { item := a, limit := a.limit } = 0 := if_pos rfl
  unfold Queue.push
  rw [List.map_append, List.sum_append, List.map_singleton, List.sum_singleton, hnew, Nat.add_zero]
  exact sum_unflagged_le _ _

/-- The last flagged frame, if the window holds it. -/
theorem exists_flagged (hs : Slots b q) (hopen : b.isClosed = false) :
    windowBytes q = b.unflaggedBytes q ∨
    ∃ (i : Nat) (f : Frame Admission), q.window[i]? = some f ∧
      f.item.stored.seqNum = b.lastFlaggedSeq ∧
      windowBytes q = b.unflaggedBytes q + heldSize f := by
  unfold unflaggedBytes windowBytes
  rw [hopen, if_neg Bool.false_ne_true]
  rcases em (∃ (i : Nat) (f : Frame Admission), q.window[i]? = some f ∧
    f.item.stored.seqNum = b.lastFlaggedSeq) with ⟨i, f, hf, hseq⟩ | hnone
  · right
    refine ⟨i, f, hf, hseq, ?_⟩
    -- the other slots have other numbers
    have hset : q.window.map (unflaggedSize b.lastFlaggedSeq) = (q.window.map heldSize).set i 0 := by
      apply List.ext_getElem?
      intro j
      rw [List.getElem?_set, List.getElem?_map, List.getElem?_map, List.length_map]
      rcases eq_or_ne i j with rfl | hij
      · rw [if_pos rfl, if_pos (List.getElem?_eq_some_iff.1 hf).1, hf]
        show some (unflaggedSize _ f) = some 0
        unfold unflaggedSize
        rw [if_pos hseq]
      · rw [if_neg hij]
        cases hj : q.window[j]? with
        | none => rfl
        | some y =>
          have hne : y.item.stored.seqNum ≠ b.lastFlaggedSeq := by
            intro heq
            exact hij (hs.seq_inj hf hj (hseq.trans heq.symm)).1
          show some (unflaggedSize _ y) = some (heldSize y)
          unfold unflaggedSize
          rw [if_neg hne]
    have hat : (q.window.map heldSize)[i]? = some (heldSize f) := by
      rw [List.getElem?_map, hf]
      rfl
    have hsum := Slice.sum_set_add hat 0
    rw [hset]
    omega
  · left
    refine congrArg List.sum (List.map_congr_left fun f hf => ?_)
    obtain ⟨i, hi⟩ := List.mem_iff_getElem?.1 hf
    unfold unflaggedSize
    rw [if_neg fun heq => hnone ⟨i, f, hi, heq⟩]

end AckBuffer

end UspClient
