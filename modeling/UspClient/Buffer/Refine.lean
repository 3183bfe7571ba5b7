import UspClient.Buffer.Model
import UspClient.Lib.Replay

/-!
# The buffer refines a replay queue

`Slots b q` relates the slice, the indices and the retired map of a buffer to a replay
queue whose items are admissions: the frame at position `k` of the history has sequence
number `k + 1`, modulo `2 ^ 64`. `Chain b q` relates the linked list of tracked
admissions: entries are made in order of admission, so the entry of a frame is the number
of tracked frames before it. Each method of the buffer is then one operation of the
queue.
-/

namespace UspClient

open Word64 Replay

/-- A successful admission: the message the caller gave, the message as stored, the
estimated size, the receipt with its limit, and whether the shared budget charged it as
an escape. -/
structure Admission where
  given : DataMessage
  stored : DataMessage
  size : Nat
  receipt : Option ReceiptId
  maxTransmissions : Nat
  overshot : Bool

/-- Only a tracked admission has a limit. -/
def Admission.limit (a : Admission) : Nat := if a.receipt.isSome then a.maxTransmissions else 0

namespace AckBuffer

variable {b b' : AckBuffer} {q : Queue Admission} {f : Frame Admission} {i k n : Nat}
variable {g : Frame Admission → Frame Admission}

/-! ## Slices with a tail of nil slots -/

/-- The slots `w`, then nil slots. -/
def Padded (w l : List (Option DataMessage)) : Prop := ∃ r, l = w ++ List.replicate r none

variable {w l : List (Option DataMessage)}

theorem Padded.length_le (h : Padded w l) : w.length ≤ l.length := by
  obtain ⟨r, rfl⟩ := h
  rw [List.length_append]
  exact Nat.le_add_right _ _

theorem Padded.take (h : Padded w l) : l.take w.length = w := by
  obtain ⟨r, rfl⟩ := h
  exact List.take_left

theorem Padded.getD (h : Padded w l) (hi : i < w.length) : l.getD i none = w.getD i none := by
  obtain ⟨r, rfl⟩ := h
  rw [List.getD_eq_getElem?_getD, List.getElem?_append_left hi, List.getD_eq_getElem?_getD]

theorem Padded.resized (h : Padded w l) (hw : w.length ≤ n) :
    Padded w (resized l w.length n) ∧ (resized l w.length n).length = n := by
  unfold AckBuffer.resized
  rw [h.take, List.take_of_length_le hw]
  refine ⟨⟨_, rfl⟩, ?_⟩
  rw [List.length_append, List.length_replicate]
  omega

/-- A whole slice moved into a longer one. -/
theorem Padded.resized_all (h : Padded w l) (hl : l.length ≤ n) :
    Padded w (AckBuffer.resized l l.length n) ∧ (AckBuffer.resized l l.length n).length = n := by
  unfold AckBuffer.resized
  rw [List.take_length, List.take_of_length_le hl]
  obtain ⟨r, rfl⟩ := h
  refine ⟨⟨r + (n - (w ++ List.replicate r none).length), ?_⟩, ?_⟩
  · rw [List.append_assoc, List.replicate_append_replicate]
  · rw [List.length_append, List.length_replicate]
    omega

theorem Padded.shrink (h : Padded w l) (capacity : Nat) (hc : capacity ≤ l.length)
    (hpos : 1 ≤ l.length) :
    Padded w (shrinkBacking l capacity w.length) ∧
      capacity ≤ (shrinkBacking l capacity w.length).length ∧
      1 ≤ (shrinkBacking l capacity w.length).length ∧
      (shrinkBacking l capacity w.length).length ≤ l.length := by
  unfold shrinkBacking initialCapacity
  simp only
  split_ifs with hlt
  · obtain ⟨h₁, h₂⟩ := h.resized (n := max (max capacity w.length) 1) (by omega)
    exact ⟨h₁, by omega, by omega, by omega⟩
  · exact ⟨h, hc, hpos, le_rfl⟩

theorem Padded.shifted (h : Padded w l) (hk : k ≤ w.length) :
    Padded (w.drop k) (shifted l k w.length) ∧ (shifted l k w.length).length = l.length := by
  obtain ⟨r, rfl⟩ := h
  unfold AckBuffer.shifted
  rw [List.take_left, List.drop_left, List.append_assoc, List.replicate_append_replicate]
  refine ⟨⟨_, rfl⟩, ?_⟩
  rw [List.length_append, List.length_append, List.length_replicate, List.length_replicate,
    List.length_drop]
  omega

theorem Padded.set_next (h : Padded w l) (hlt : w.length < l.length) (m : Option DataMessage) :
    Padded (w ++ [m]) (l.set w.length m) := by
  obtain ⟨r, rfl⟩ := h
  rw [List.length_append, List.length_replicate] at hlt
  obtain ⟨r', rfl⟩ : ∃ r', r = r' + 1 := ⟨r - 1, by omega⟩
  refine ⟨r', ?_⟩
  rw [List.set_append_right _ _ le_rfl, Nat.sub_self, List.replicate_succ, List.set_cons_zero,
    List.append_assoc]
  rfl

theorem Padded.set (h : Padded w l) (hi : i < w.length) (m : Option DataMessage) :
    Padded (w.set i m) (l.set i m) := by
  obtain ⟨r, rfl⟩ := h
  exact ⟨r, List.set_append_left _ _ hi⟩

/-! ## Slots -/

/-- A slot holds the stored message, or a placeholder once it is retired. -/
def slot (f : Frame Admission) : Option DataMessage :=
  some (if f.retired then { seqNum := f.item.stored.seqNum } else f.item.stored)

/-- The size a slot is still charged for. -/
def heldSize (f : Frame Admission) : Nat := if f.retired then 0 else f.item.size

structure Slots (b : AckBuffer) (q : Queue Admission) : Prop where
  first : b.firstSeqNum = (q.gone.length + 1) % 2 ^ 64
  nextSeq : b.nextSeqNum = (q.items.length + 1) % 2 ^ 64
  free : b.nextIndexFree = q.window.length
  next : b.nextIndexToDeliver = q.next
  buff : Padded (q.window.map slot) b.buff
  capacity : b.currentCapacity ≤ b.buff.length
  pos : 1 ≤ b.buff.length
  bound : b.buff.length < 2 ^ 64
  seqs : ∀ k a, q.items[k]? = some a → a.stored.seqNum = (k + 1) % 2 ^ 64
  retired : ∀ seq, seq ∈ b.retired ↔
    ∃ (i : Nat) (f : Frame Admission), q.window[i]? = some f ∧ f.retired = true ∧
      f.item.stored.seqNum = seq
  available : b.isAvailable = decide (q.window.length < b.currentCapacity)
  sizes : b.accounting = true → b.sizes = q.window.map heldSize

/-- The fields `Slots` speaks about. -/
def slotView (b : AckBuffer) :
    (Nat × Nat × Nat × Nat) × List (Option DataMessage) × Nat × Finset Nat × Bool × Bool × List Nat :=
  ((b.firstSeqNum, b.nextSeqNum, b.nextIndexFree, b.nextIndexToDeliver), b.buff,
    b.currentCapacity, b.retired, b.isAvailable, b.accounting, b.sizes)

theorem Slots.congr (h : Slots b q) (hv : b'.slotView = b.slotView) : Slots b' q := by
  simp only [slotView, Prod.mk.injEq] at hv
  obtain ⟨⟨h₁, h₂, h₃, h₄⟩, h₅, h₆, h₇, h₈, h₉, h₁₀⟩ := hv
  constructor
  · rw [h₁, h.first]
  · rw [h₂, h.nextSeq]
  · rw [h₃, h.free]
  · rw [h₄, h.next]
  · rw [h₅]
    exact h.buff
  · rw [h₅, h₆]
    exact h.capacity
  · rw [h₅]
    exact h.pos
  · rw [h₅]
    exact h.bound
  · exact h.seqs
  · rw [h₇]
    exact h.retired
  · rw [h₈, h₆, h.available]
  · rw [h₉, h₁₀]
    exact h.sizes

theorem Slots.window_le (h : Slots b q) : q.window.length ≤ b.buff.length := by
  have hlen := h.buff.length_le
  rwa [List.length_map] at hlen

theorem Slots.window_lt (h : Slots b q) : q.window.length < 2 ^ 64 :=
  lt_of_le_of_lt h.window_le h.bound

theorem Slots.index_lt (h : Slots b q) (hf : q.window[i]? = some f) : i < 2 ^ 64 :=
  lt_trans (List.getElem?_eq_some_iff.1 hf).1 h.window_lt

theorem items_window (hf : q.window[i]? = some f) : q.items[q.gone.length + i]? = some f.item := by
  unfold Queue.items Queue.frames
  rw [List.getElem?_map, List.getElem?_append_right (Nat.le_add_right _ _), Nat.add_sub_cancel_left,
    hf]
  rfl

/-- The sequence number of the slot at index `i`. -/
theorem Slots.seq_at (h : Slots b q) (hf : q.window[i]? = some f) :
    f.item.stored.seqNum = add64 b.firstSeqNum i := by
  rw [h.seqs _ _ (items_window hf), h.first]
  unfold add64
  omega

/-- The distance of its sequence number from the first one is the index of a slot. -/
theorem Slots.index_at (h : Slots b q) (hf : q.window[i]? = some f) :
    sub64 f.item.stored.seqNum b.firstSeqNum = i := by
  rw [h.seqs _ _ (items_window hf), h.first, show q.gone.length + i + 1 = q.gone.length + 1 + i by
    omega]
  exact sub64_add (h.index_lt hf)

theorem Slots.slotRetired (h : Slots b q) (hf : q.window[i]? = some f) :
    b.slotRetired i = f.retired := by
  have hiff : add64 b.firstSeqNum i ∈ b.retired ↔ f.retired = true := by
    rw [h.retired]
    constructor
    · rintro ⟨j, x, hx, hr, hseq⟩
      -- two slots with one sequence number are the same slot
      have hij : j = i := by
        rw [← h.index_at hx, hseq, ← h.seq_at hf, h.index_at hf]
      subst hij
      rw [hf] at hx
      rw [Option.some.inj hx]
      exact hr
    · intro hr
      exact ⟨i, f, hf, hr, h.seq_at hf⟩
  unfold AckBuffer.slotRetired
  rw [Bool.eq_iff_iff, decide_eq_true_eq]
  exact hiff

theorem Slots.no_retired (h : Slots b q) (he : b.retired = ∅) (hf : q.window[i]? = some f) :
    f.retired = false := by
  rw [← h.slotRetired hf, AckBuffer.slotRetired, he]
  simp

theorem Slots.getD (h : Slots b q) (hf : q.window[i]? = some f) :
    b.buff.getD i none = slot f := by
  have hi := (List.getElem?_eq_some_iff.1 hf).1
  rw [h.buff.getD (by rw [List.length_map]; exact hi), List.getD_eq_getElem?_getD,
    List.getElem?_map, hf]
  rfl

/-! ## Slots: one lemma for each operation -/

theorem removePrefixLocked_buff (bb : ByteBudget) : (b.removePrefixLocked bb i).1.buff =
    if b.nextIndexFree - i - 1 ≤ b.currentCapacity then
      shrinkBacking (shifted b.buff (i + 1) b.nextIndexFree) b.currentCapacity
        (b.nextIndexFree - i - 1)
    else shifted b.buff (i + 1) b.nextIndexFree := rfl

/-- A removed prefix leaves the rest at the front of the slice, which still has the capacity. -/
theorem Padded.removePrefixLocked {w : List (Option DataMessage)} (h : Padded w b.buff)
    (hfree : w.length = b.nextIndexFree) (hi : i < b.nextIndexFree)
    (hcap : b.currentCapacity ≤ b.buff.length) (hpos : 1 ≤ b.buff.length) (bb : ByteBudget) :
    Padded (w.drop (i + 1)) (b.removePrefixLocked bb i).1.buff ∧
      b.currentCapacity ≤ (b.removePrefixLocked bb i).1.buff.length ∧
      1 ≤ (b.removePrefixLocked bb i).1.buff.length ∧
      (b.removePrefixLocked bb i).1.buff.length ≤ b.buff.length := by
  rcases h.shifted (k := i + 1) (by omega) with ⟨hshift, hlen⟩
  have hdrop : (w.drop (i + 1)).length = b.nextIndexFree - i - 1 := by
    rw [List.length_drop, hfree, Nat.sub_sub]
  rw [hfree] at hshift hlen
  have hshrink := hshift.shrink b.currentCapacity (hlen.symm ▸ hcap) (hlen.symm ▸ hpos)
  rw [hdrop, hlen] at hshrink
  rw [removePrefixLocked_buff]
  split_ifs
  · exact hshrink
  · rw [hlen]
    exact ⟨hshift, hcap, hpos, le_rfl⟩

/-- The retired numbers that are left are those of the slots that are left. -/
theorem Slots.retired_drop (h : Slots b q) (i seq : Nat) :
    (seq ∈ b.retired ∧ ¬ sub64 seq b.firstSeqNum ≤ i) ↔
      ∃ (j : Nat) (f : Frame Admission), (q.window.drop (i + 1))[j]? = some f ∧ f.retired = true ∧
        f.item.stored.seqNum = seq := by
  rw [h.retired]
  constructor
  · rintro ⟨⟨j, x, hx, hr, rfl⟩, hfar⟩
    rw [h.index_at hx] at hfar
    refine ⟨j - (i + 1), x, ?_, hr, rfl⟩
    rw [List.getElem?_drop, show i + 1 + (j - (i + 1)) = j by omega]
    exact hx
  · rintro ⟨j, x, hx, hr, rfl⟩
    rw [List.getElem?_drop] at hx
    refine ⟨⟨_, x, hx, hr, rfl⟩, ?_⟩
    rw [h.index_at hx]
    omega

theorem Slots.removePrefixLocked (h : Slots b q) (bb : ByteBudget) (hi : i < q.window.length)
    (hg : ∀ f, (g f).item = f.item) :
    Slots (b.removePrefixLocked bb i).1 (q.remove (i + 1) g) := by
  have hdrop : (q.window.map slot).drop (i + 1) = (q.window.drop (i + 1)).map slot :=
    List.map_drop.symm
  rcases h.buff.removePrefixLocked (by rw [List.length_map, h.free]) (by rwa [h.free]) h.capacity
    h.pos bb with ⟨hbuff, hcap, hpos, hle⟩
  rw [hdrop] at hbuff
  constructor
  · show add64 b.firstSeqNum (i + 1) = _
    rw [h.first]
    simp only [Queue.remove, List.length_append, List.length_map, List.length_take]
    unfold add64
    omega
  · rw [Queue.items_remove hg]
    exact h.nextSeq
  · show b.nextIndexFree - i - 1 = (q.window.drop (i + 1)).length
    rw [List.length_drop, h.free]
    omega
  · show (if b.nextIndexToDeliver > i + 1 then b.nextIndexToDeliver - (i + 1) else 0) =
      q.next - (i + 1)
    rw [h.next]
    split_ifs <;> omega
  · exact hbuff
  · exact hcap
  · exact hpos
  · exact lt_of_le_of_lt hle h.bound
  · rw [Queue.items_remove hg]
    exact h.seqs
  · intro seq
    show seq ∈ b.retired.filter _ ↔ ∃ j f, (q.window.drop (i + 1))[j]? = some f ∧ _
    rw [Finset.mem_filter]
    exact h.retired_drop i seq
  · show decide (b.nextIndexFree - i - 1 < b.currentCapacity) = _
    rw [h.free]
    simp only [Queue.remove, List.length_drop]
    rw [Nat.sub_sub]
    rfl
  · intro hacc
    show (if b.accounting then b.sizes.drop (i + 1) else b.sizes) = _
    have hacc' : b.accounting = true := hacc
    rw [if_pos hacc', h.sizes hacc']
    exact List.map_drop.symm

/-- Mark a frame as retired. -/
def retire (f : Frame Admission) : Frame Admission := { f with fate := .retired }

theorem slot_retire : slot (retire f) = some { seqNum := f.item.stored.seqNum } := rfl

theorem heldSize_retire : heldSize (retire f) = 0 := rfl

/-- What a change of one frame does not touch. -/
theorem map_modify_same {β : Type} (φ : Frame Admission → β)
    (h : Frame Admission → Frame Admission) (hφ : ∀ f, φ (h f) = φ f) (l : List (Frame Admission))
    (j : Nat) : (l.modify j h).map φ = l.map φ := by
  apply List.ext_getElem?
  intro k
  rw [List.getElem?_map, List.getElem?_map, List.getElem?_modify]
  cases l[k]? with
  | none => rfl
  | some f =>
    simp only [Option.map_eq_map, Option.map_some]
    split_ifs
    · rw [hφ]
    · rfl

theorem items_modify (h : Frame Admission → Frame Admission) (hh : ∀ f, (h f).item = f.item) :
    ({ q with window := q.window.modify i h } : Queue Admission).items = q.items := by
  unfold Queue.items Queue.frames
  rw [List.map_append, List.map_append, map_modify_same Frame.item h hh]

theorem map_modify {β : Type} (l : List (Frame Admission)) (φ : Frame Admission → β)
    (hf : l[i]? = some f) (h : Frame Admission → Frame Admission) :
    (l.modify i h).map φ = (l.map φ).set i (φ (h f)) := by
  apply List.ext_getElem?
  intro k
  rw [List.getElem?_map, List.getElem?_modify, List.getElem?_set, List.getElem?_map,
    List.length_map]
  by_cases hk : i = k
  · subst hk
    rw [hf, if_pos rfl, if_pos (List.getElem?_eq_some_iff.1 hf).1]
    simp
  · rw [if_neg hk]
    simp only [if_neg hk]
    cases l[k]? with
    | none => rfl
    | some x => rfl

/-- Retiring a frame adds its number to the retired ones. -/
theorem retired_retire {l : List (Frame Admission)} (hf : l[i]? = some f) (seq : Nat) :
    (∃ (j : Nat) (x : Frame Admission), (l.modify i retire)[j]? = some x ∧ x.retired = true ∧
        x.item.stored.seqNum = seq) ↔
      seq = f.item.stored.seqNum ∨ ∃ (j : Nat) (x : Frame Admission), l[j]? = some x ∧
        x.retired = true ∧ x.item.stored.seqNum = seq := by
  constructor
  · rintro ⟨j, x, hx, hr, rfl⟩
    rw [List.getElem?_modify] at hx
    by_cases hj : i = j
    · subst hj
      left
      rw [hf] at hx
      simp only [if_true, Option.map_eq_map, Option.map_some, Option.some.injEq] at hx
      rw [← hx]
      rfl
    · right
      refine ⟨j, x, ?_, hr, rfl⟩
      simpa [hj] using hx
  · rintro (rfl | ⟨j, x, hx, hr, rfl⟩)
    · refine ⟨i, retire f, ?_, rfl, rfl⟩
      rw [List.getElem?_modify, hf]
      simp
    · -- the other retired slots stay
      refine ⟨j, if i = j then retire x else x, ?_, ?_, ?_⟩
      · rw [List.getElem?_modify, hx]
        rfl
      · split_ifs
        · rfl
        · exact hr
      · split_ifs <;> rfl

theorem Slots.retireLocked (h : Slots b q) (bb : ByteBudget) (hf : q.window[i]? = some f)
    {entry : EntryId} (hseq : (b.entryAt entry).seq = f.item.stored.seqNum) :
    Slots (b.retireLocked bb i entry).1 { q with window := q.window.modify i retire } := by
  have hi := (List.getElem?_eq_some_iff.1 hf).1
  have hitems : ({ q with window := q.window.modify i retire } : Queue Admission).items = q.items :=
    items_modify retire fun _ => rfl
  have hslots : (q.window.modify i retire).map slot =
      (q.window.map slot).set i (some { seqNum := (b.entryAt entry).seq }) := by
    rw [map_modify _ _ hf, slot_retire, hseq]
  constructor
  · exact h.first
  · rw [hitems]
    exact h.nextSeq
  · show b.nextIndexFree = (q.window.modify i retire).length
    rw [List.length_modify]
    exact h.free
  · exact h.next
  · show Padded ((q.window.modify i retire).map slot) (b.buff.set i _)
    rw [hslots]
    exact h.buff.set (by rw [List.length_map]; exact hi) _
  · show _ ≤ (b.buff.set i _).length
    rw [List.length_set]
    exact h.capacity
  · show _ ≤ (b.buff.set i _).length
    rw [List.length_set]
    exact h.pos
  · show (b.buff.set i _).length < _
    rw [List.length_set]
    exact h.bound
  · rw [hitems]
    exact h.seqs
  · intro seq
    show seq ∈ insert (b.entryAt entry).seq b.retired ↔
      ∃ j x, (q.window.modify i retire)[j]? = some x ∧ _
    rw [Finset.mem_insert, h.retired, hseq]
    exact (retired_retire hf seq).symm
  · show b.isAvailable = decide ((q.window.modify i retire).length < b.currentCapacity)
    rw [List.length_modify]
    exact h.available
  · intro hacc
    have hacc' : b.accounting = true := hacc
    have hsz := h.sizes hacc'
    show (if b.accounting && decide (i < b.sizes.length) then b.sizes.set i 0 else b.sizes) = _
    -- the slot has a size, since the accounting was on from the start
    have hlt : i < b.sizes.length := by
      rw [hsz, List.length_map]
      exact hi
    rw [if_pos (by rw [hacc', decide_eq_true hlt]; rfl), hsz]
    exact (map_modify _ heldSize hf retire).symm

theorem Padded.grow (h : Padded w l) (hn : n < 2 ^ 64) (hpos : 1 ≤ l.length)
    (hl : l.length < 2 ^ 64) :
    Padded w (growBacking l n) ∧ n ≤ (growBacking l n).length ∧ 1 ≤ (growBacking l n).length ∧
      (growBacking l n).length < 2 ^ 64 := by
  unfold growBacking
  split_ifs with hlt
  · obtain ⟨h₁, h₂⟩ := h.resized_all (n := n) (by omega)
    rw [h₂]
    exact ⟨h₁, le_rfl, by omega, hn⟩
  · exact ⟨h, by omega, hpos, hl⟩

theorem Slots.updateCapacity (h : Slots b q) {newCapacity : Nat} (hn : newCapacity < 2 ^ 64) :
    Slots (b.updateCapacity newCapacity) q := by
  unfold AckBuffer.updateCapacity
  split_ifs with heq
  · exact h
  obtain ⟨hpad, hcap, hpos, hbound⟩ := h.buff.grow hn h.pos h.bound
  have hshrink := hpad.shrink newCapacity hcap hpos
  rw [List.length_map, ← h.free] at hshrink
  exact
    { first := h.first
      nextSeq := h.nextSeq
      free := h.free
      next := h.next
      buff := hshrink.1
      capacity := hshrink.2.1
      pos := hshrink.2.2.1
      bound := lt_of_le_of_lt hshrink.2.2.2 hbound
      seqs := h.seqs
      retired := h.retired
      available := by rw [← h.free]; rfl
      sizes := h.sizes }

/-- Storing the message and its charge appends a live frame. -/
theorem Slots.place (h : Slots b q) {a : Admission} (havail : b.isAvailable = true)
    (hseq : a.stored.seqNum = b.nextSeqNum) :
    Slots ((b.place a.stored).chargeLocal a.size) (q.push { item := a, limit := a.limit }) := by
  have hroom : q.window.length < b.currentCapacity := by
    rw [h.available, decide_eq_true_eq] at havail
    exact havail
  have hcap := h.capacity
  have hlt : q.window.length < b.buff.length := lt_of_lt_of_le hroom hcap
  have hitems : (q.push { item := a, limit := a.limit }).items = q.items ++ [a] := Queue.items_push
  have hlen : (q.window ++ [({ item := a, limit := a.limit } : Frame Admission)]).length =
      q.window.length + 1 := by
    rw [List.length_append]
    rfl
  constructor
  · exact h.first
  · show add64 b.nextSeqNum 1 = _
    rw [hitems, h.nextSeq, List.length_append, List.length_singleton]
    unfold add64
    omega
  · show b.nextIndexFree + 1 = _
    rw [h.free]
    exact hlen.symm
  · exact h.next
  · show Padded ((q.window ++ [_]).map slot) (b.buff.set b.nextIndexFree (some a.stored))
    have hset := h.buff.set_next (by rw [List.length_map]; exact hlt) (some a.stored)
    rw [List.length_map, ← h.free] at hset
    rw [List.map_append]
    exact hset
  · show _ ≤ (b.buff.set _ _).length
    rw [List.length_set]
    exact hcap
  · show _ ≤ (b.buff.set _ _).length
    rw [List.length_set]
    exact h.pos
  · show (b.buff.set _ _).length < _
    rw [List.length_set]
    exact h.bound
  · intro k x hx
    rw [hitems] at hx
    rcases getElem?_snoc hx with hold | ⟨rfl, rfl⟩
    · exact h.seqs k x hold
    · rw [hseq, h.nextSeq]
  · intro seq
    show seq ∈ b.retired ↔ _
    rw [h.retired]
    constructor
    · rintro ⟨j, x, hx, hr⟩
      refine ⟨j, x, ?_, hr⟩
      rw [Queue.push, List.getElem?_append_left (List.getElem?_eq_some_iff.1 hx).1]
      exact hx
    · rintro ⟨j, x, hx, hr, hs⟩
      rcases getElem?_snoc hx with hold | ⟨-, rfl⟩
      · exact ⟨j, x, hold, hr, hs⟩
      · -- the new frame is live
        cases hr
  · show (if b.nextIndexFree + 1 ≥ b.currentCapacity then false else b.isAvailable) =
      decide ((q.window ++ [({ item := a, limit := a.limit } : Frame Admission)]).length <
        b.currentCapacity)
    rw [hlen, havail, h.free]
    split_ifs with hfull
    · exact (decide_eq_false (by omega)).symm
    · exact (decide_eq_true (by omega)).symm
  · intro hacc
    have hacc' : b.accounting = true := hacc
    show (if b.accounting then b.sizes ++ [a.size] else b.sizes) = _
    rw [if_pos hacc', h.sizes hacc', Queue.push, List.map_append]
    rfl

/-- The escape, the flag and the receipt of an admission touch no slot. -/
theorem slotView_noted (b : AckBuffer) (e : DataMessage) (size : Nat) (overshot : Bool)
    (receipt : Option ReceiptId) (maxTransmissions : Nat) :
    (((b.noteEscape size overshot).noteFlag e size).track e.seqNum receipt
      maxTransmissions).slotView = b.slotView := by
  unfold track
  cases receipt with
  | none => rfl
  | some r => cases b.receiptTail <;> rfl

/-- Admission appends a live frame. -/
theorem Slots.admitLocked (h : Slots b q) {a : Admission} (havail : b.isAvailable = true)
    (hseq : a.stored.seqNum = b.nextSeqNum) :
    Slots (b.admitLocked a.stored a.size a.overshot a.receipt a.maxTransmissions)
      (q.push { item := a, limit := a.limit }) := by
  have hview := slotView_noted b a.stored a.size a.overshot a.receipt a.maxTransmissions
  have hfields := hview
  simp only [slotView, Prod.mk.injEq] at hfields
  obtain ⟨⟨-, hnext, -⟩, -, -, -, havail', -⟩ := hfields
  unfold AckBuffer.admitLocked
  exact (h.congr hview).place (havail'.trans havail) (hseq.trans hnext.symm)

/-- `GetUnAcked` returns the stored messages of the live frames, in order. -/
theorem Slots.getUnAcked (h : Slots b q) : b.getUnAcked =
    (q.window.filter fun f => !f.retired).map fun f => some f.item.stored := by
  have hslot : ∀ x : Frame Admission, (!x.retired) = true → slot x = some x.item.stored := by
    intro x hx
    unfold slot
    rw [Bool.not_eq_true'] at hx
    rw [hx]
    rfl
  unfold AckBuffer.getUnAcked
  split_ifs with he
  · have htake := h.buff.take
    rw [List.length_map, ← h.free] at htake
    have hlive : ∀ x ∈ q.window, (!x.retired) = true := by
      intro x hx
      obtain ⟨j, hj⟩ := List.mem_iff_getElem?.1 hx
      rw [h.no_retired he hj]
      rfl
    rw [htake, List.filter_eq_self.2 hlive]
    exact List.map_congr_left fun x hx => hslot x (hlive x hx)
  · rw [h.free]
    refine Slice.map_filter_range q.window ?_ ?_
    · intro j x hx
      rw [h.slotRetired hx]
    · intro j x hx hr
      rw [h.getD hx]
      exact hslot x hr

/-- The retired slots at the front are the retired frames at the front. -/
theorem Slots.retiredRun (h : Slots b q) : b.retiredRun = q.headRun := by
  have hrun : ∀ (l : List (Frame Admission)) (p : Nat → Bool),
      (∀ (i : Nat) x, l[i]? = some x → p i = x.retired) →
      ((List.range l.length).takeWhile p).length = (l.takeWhile Frame.retired).length := by
    intro l
    induction l with
    | nil => intros; rfl
    | cons x l ih =>
      intro p hp
      have h0 := hp 0 x rfl
      rw [List.length_cons, List.range_succ_eq_map, List.takeWhile_cons, List.takeWhile_cons, h0]
      cases x.retired with
      | false => rfl
      | true =>
        simp only [if_true, List.length_cons, List.takeWhile_map, List.length_map]
        rw [ih (p ∘ Nat.succ) fun i y hy => hp (i + 1) y hy]
  unfold AckBuffer.retiredRun Queue.headRun
  rw [h.free]
  exact hrun q.window b.slotRetired fun i x hx => h.slotRetired hx

end AckBuffer

end UspClient
