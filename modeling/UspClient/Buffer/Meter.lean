import UspClient.Buffer.Simulate

/-!
# Bytes, escapes and acknowledgement requests of one buffer

`Meter b q` says what the counters of a buffer count while no sum wraps: `bytes` is the
size of the live frames (zero once the buffer is closed), and a nonzero `escapeBytes` is
the size of the live frame `escapeSeq`. `Flags b q` says that `lastFlaggedSeq` is a live
frame that asks for an acknowledgement, as long as its slot is there.

Every move releases to the shared budget what it takes off the counters, and never more
than the buffer was charged (`Move.pays`).
-/

namespace UspClient

open Word64 Replay

namespace AckBuffer

variable {b b' : AckBuffer} {bb bb' : ByteBudget} {q q' : Queue Admission} {f : Frame Admission}
variable {g : Frame Admission → Frame Admission} {i j k n x : Nat}

/-! ## Sums over the window -/

/-- The size of the frames a buffer still holds. -/
def windowBytes (q : Queue Admission) : Nat := (q.window.map heldSize).sum

/-- A live frame is held with its full size. -/
theorem heldSize_of_live (h : f.fate = .live) : heldSize f = f.item.size := by
  unfold heldSize Frame.retired
  rw [h]
  rfl

theorem heldSize_at (hf : q.window[i]? = some f) (hl : f.fate = .live) :
    (q.window.map heldSize)[i]? = some f.item.size := by
  rw [List.getElem?_map, hf, Option.map_some, heldSize_of_live hl]

/-! ## What the counters mean -/

/-- What `bytes` and `escapeBytes` count. -/
structure Meter (b : AckBuffer) (q : Queue Admission) : Prop where
  bytes : b.bytes = if b.isClosed then 0 else windowBytes q
  small : windowBytes q < 2 ^ 64
  unmetered : b.accounting = false → ∀ f ∈ q.window, f.item.size = 0
  escape : b.escapeBytes ≠ 0 → b.isClosed = false ∧
    ∃ (i : Nat) (f : Frame Admission), q.window[i]? = some f ∧ f.fate = .live ∧
      f.item.stored.seqNum = b.escapeSeq ∧ f.item.size = b.escapeBytes ∧ f.item.overshot = true
  stopped : b.isClosed = true → b.isRunning = false

/-- What `lastFlaggedSeq` names. -/
structure Flags (b : AckBuffer) (q : Queue Admission) : Prop where
  range : b.lastFlaggedSeq ≤ q.items.length
  last : b.lastFlaggedSeq ≠ 0 → ∀ (i : Nat) f, q.window[i]? = some f →
    f.item.stored.seqNum = b.lastFlaggedSeq → f.item.stored.ackRequested = true ∧ f.fate = .live

/-- A release of `n` bytes, `x` of them as an escape, that the buffer was charged for. -/
structure Due (b : AckBuffer) (n x : Nat) : Prop where
  bytes : n ≤ b.bytes
  escape : x ≤ b.escapeBytes
  part : x ≤ n
  rest : n - x ≤ b.bytes - b.escapeBytes

/-- The counters after a release. -/
structure Paid (b : AckBuffer) (bb : ByteBudget) (b' : AckBuffer) (bb' : ByteBudget) (n x : Nat) :
    Prop where
  due : Due b n x
  bytes : b'.bytes = b.bytes - n
  escape : b'.escapeBytes = b.escapeBytes - x
  budget : bb' = b.releaseShared bb n x

/-- The escape is part of the bytes. -/
theorem Meter.escape_le (h : Meter b q) : b.escapeBytes ≤ b.bytes := by
  by_cases h0 : b.escapeBytes = 0
  · omega
  · obtain ⟨hopen, i, f, hf, hl, -, hsize, -⟩ := h.escape h0
    rw [h.bytes, hopen, if_neg Bool.false_ne_true, ← hsize]
    exact List.le_sum_of_mem (List.mem_of_getElem? (heldSize_at hf hl))

theorem Due.zero (b : AckBuffer) : Due b 0 0 :=
  ⟨Nat.zero_le _, Nat.zero_le _, le_rfl, Nat.zero_le _⟩

theorem releaseShared_zero (bb : ByteBudget) (x : Nat) : b.releaseShared bb 0 x = bb := by
  unfold releaseShared
  split_ifs <;> rfl

/-- A closed buffer has nothing left to release. -/
theorem Meter.closed (h : Meter b q) (hc : b.isClosed = true) :
    b.bytes = 0 ∧ b.escapeBytes = 0 := by
  have hb := h.bytes
  rw [hc, if_pos rfl] at hb
  refine ⟨hb, ?_⟩
  have hle := h.escape_le
  omega

/-- Without accounting nothing is counted. -/
theorem Meter.uncounted (h : Meter b q) (ha : b.accounting = false) :
    windowBytes q = 0 ∧ b.bytes = 0 ∧ b.escapeBytes = 0 := by
  have hzero : windowBytes q = 0 := by
    unfold windowBytes
    rw [List.sum_eq_zero]
    intro y hy
    obtain ⟨f, hf, rfl⟩ := List.mem_map.1 hy
    unfold heldSize
    split_ifs
    · rfl
    · exact h.unmetered ha f hf
  have hb : b.bytes = 0 := by
    rw [h.bytes, hzero]
    split_ifs <;> rfl
  have hle := h.escape_le
  exact ⟨hzero, hb, by omega⟩

/-! ## Idle moves -/

/-- The size of the window depends on sizes and fates only. -/
theorem windowBytes_congr (hmark : q'.window.map mark = q.window.map mark) :
    windowBytes q' = windowBytes q := by
  have hmap := map_of_mark (φ := heldSize) hmark
    (fun m => if decide (m.2 = .retired) then 0 else m.1.size) fun _ => rfl
  unfold windowBytes
  rw [hmap]

/-- A call that changes neither counters nor fates. -/
theorem Meter.idle (h : Meter b q) (hled : b'.ledger = b.ledger)
    (hmark : q'.window.map mark = q.window.map mark) : Meter b' q' := by
  -- delivery and receipts leave the counters alone
  have h₁ : b'.bytes = b.bytes := by
    have hc := congrArg AckBuffer.bytes hled
    exact hc
  have h₂ : b'.isClosed = b.isClosed := by
    have hc := congrArg isClosed hled
    exact hc
  have h₃ : b'.accounting = b.accounting := by
    have hc := congrArg accounting hled
    exact hc
  have h₄ : b'.escapeBytes = b.escapeBytes := by
    have hc := congrArg escapeBytes hled
    exact hc
  have h₅ : b'.escapeSeq = b.escapeSeq := by
    have hc := congrArg escapeSeq hled
    exact hc
  have h₆ : b'.isRunning = b.isRunning := by
    have hc := congrArg isRunning hled
    exact hc
  constructor
  · rw [h₁, h₂, windowBytes_congr hmark]
    exact h.bytes
  · rw [windowBytes_congr hmark]
    exact h.small
  · rw [h₃]
    intro hacc f hf
    obtain ⟨i, hi⟩ := List.mem_iff_getElem?.1 hf
    obtain ⟨f', hf', hitem, -⟩ := mark_at hmark.symm hi
    rw [← hitem]
    exact h.unmetered hacc f' (List.mem_of_getElem? hf')
  · rw [h₂, h₄, h₅]
    intro hne
    obtain ⟨hopen, i, f, hf, hl, hseq, hsize, hover⟩ := h.escape hne
    obtain ⟨f', hf', hitem, hfate⟩ := mark_at hmark hf
    rw [← hfate] at hl
    rw [← hitem] at hseq hsize hover
    exact ⟨hopen, i, f', hf', hl, hseq, hsize, hover⟩
  · rw [h₂, h₆]
    exact h.stopped

theorem Flags.idle (h : Flags b q) (hled : b'.ledger = b.ledger)
    (hmark : q'.window.map mark = q.window.map mark) (hgone : q'.gone = q.gone) : Flags b' q' := by
  have h₁ : b'.lastFlaggedSeq = b.lastFlaggedSeq := by
    have hc := congrArg lastFlaggedSeq hled
    exact hc
  have hlen : q'.items.length = q.items.length := by
    have hl := congrArg List.length hmark
    rw [List.length_map, List.length_map] at hl
    rw [q'.length_items, q.length_items, hl, hgone]
  constructor
  · rw [h₁, hlen]
    exact h.range
  · rw [h₁]
    intro hne i f hf hseq
    obtain ⟨f', hf', hitem, hfate⟩ := mark_at hmark.symm hf
    rw [← hitem] at hseq ⊢
    rw [← hfate]
    exact h.last hne i f' hf' hseq

/-! ## Releases -/

/-- The counters after a buffer has let go of frames of `m` bytes; `gone` says that the escape is
among them. -/
structure Freed (b : AckBuffer) (bb : ByteBudget) (b' : AckBuffer) (bb' : ByteBudget) (m : Nat)
    (gone : Bool) : Prop where
  same : b'.accounting = b.accounting ∧ b'.isClosed = b.isClosed ∧ b'.isRunning = b.isRunning ∧
    b'.escapeSeq = b.escapeSeq
  bytes : b'.bytes = if b.accounting then b.bytes - min m b.bytes else b.bytes
  escape : b'.escapeBytes = if b.accounting && gone then 0 else b.escapeBytes
  budget : bb' = if b.accounting then
    b.releaseShared bb (min m b.bytes) (if gone then b.escapeBytes else 0) else bb

/-- What is released was charged: the escape goes with its frame, or stays with it. -/
theorem Meter.release {bb bb' : ByteBudget} {m : Nat} {gone : Bool} (h : Meter b q)
    (hr : Freed b bb b' bb' m gone) (hsum : windowBytes q' + m = windowBytes q)
    (hitems : ∀ y ∈ q'.window, ∃ z ∈ q.window, y.item = z.item)
    (hgone : gone = true → b.escapeBytes ≤ m)
    (hstays : gone = false → b.escapeBytes ≠ 0 → ∀ (j : Nat) f, q.window[j]? = some f →
      f.item.stored.seqNum = b.escapeSeq → ∃ k : Nat, q'.window[k]? = some f) :
    Meter b' q' ∧ ∃ n x, Paid b bb b' bb' n x := by
  rcases hr.same with ⟨hacc', hclosed, hrun, heseq⟩
  have hsmall := h.small
  have hopen : b.isClosed = false → b.bytes = windowBytes q' + m := by
    intro hc
    rw [h.bytes, hc, if_neg Bool.false_ne_true, hsum]
  -- an escape that is left was left with its frame
  have hkept : b'.escapeBytes ≠ 0 → gone = false ∧ b'.escapeBytes = b.escapeBytes := by
    intro hne
    rw [hr.escape] at hne ⊢
    cases hacc : b.accounting with
    | false =>
      rw [hacc, Bool.false_and, if_neg Bool.false_ne_true] at hne
      exact absurd (h.uncounted hacc).2.2 hne
    | true =>
      rw [hacc, Bool.true_and] at hne
      cases hg : gone with
      | true =>
        rw [hg] at hne
        exact absurd rfl hne
      | false => exact ⟨rfl, rfl⟩
  constructor
  · constructor
    · rw [hr.bytes, hclosed]
      cases hc : b.isClosed with
      | true => rw [(h.closed hc).1, Nat.zero_sub, ite_self, if_pos rfl]
      | false =>
        have hb := hopen hc
        rw [if_neg Bool.false_ne_true]
        split_ifs with hacc
        · omega
        · have hzero := h.uncounted (Bool.eq_false_iff.2 hacc)
          omega
    · omega
    · rw [hacc']
      intro hacc y hy
      rcases hitems y hy with ⟨z, hz, hitem⟩
      rw [hitem]
      exact h.unmetered hacc z hz
    · intro hne
      rcases hkept hne with ⟨hg, heq⟩
      rw [heq] at hne ⊢
      rcases h.escape hne with ⟨hc, j, f, hf, hl, hseq, hsize, hover⟩
      rcases hstays hg hne j f hf hseq with ⟨k, hk⟩
      rw [hclosed, heseq]
      exact ⟨hc, k, f, hk, hl, hseq, hsize, hover⟩
    · rw [hclosed, hrun]
      exact h.stopped
  · have hbytes := hr.bytes
    have hescape := hr.escape
    rw [hr.budget]
    cases hacc : b.accounting with
    | false =>
      rw [hacc] at hbytes hescape
      exact ⟨0, 0, Due.zero b, hbytes, hescape, (releaseShared_zero bb 0).symm⟩
    | true =>
      rw [hacc, Bool.true_and] at hescape
      rw [hacc] at hbytes
      cases hg : gone with
      | true =>
        have hle := hgone hg
        have hin := h.escape_le
        rw [hg] at hescape
        refine ⟨min m b.bytes, b.escapeBytes, ⟨Nat.min_le_right _ _, le_rfl, le_min hle hin,
          Nat.sub_le_sub_right (Nat.min_le_right _ _) _⟩, hbytes, ?_, rfl⟩
        rw [Nat.sub_self]
        exact hescape
      | false =>
        rw [hg] at hescape
        refine ⟨min m b.bytes, 0, ⟨Nat.min_le_right _ _, Nat.zero_le _, Nat.zero_le _, ?_⟩, hbytes,
          hescape, rfl⟩
        by_cases hzero : b.escapeBytes = 0
        · rw [hzero]
          exact Nat.min_le_right _ _
        · rcases h.escape hzero with ⟨hc, j, f, hf, hl, hseq, hsize, -⟩
          rcases hstays hg hzero j f hf hseq with ⟨k, hk⟩
          have hpart : f.item.size ≤ windowBytes q' :=
            List.le_sum_of_mem (List.mem_of_getElem? (heldSize_at hk hl))
          have hb := hopen hc
          omega

/-! ## Retiring a slot -/

/-- A retired frame no longer counts. -/
theorem windowBytes_retire (hf : q.window[i]? = some f) (hl : f.fate = .live) :
    windowBytes { q with window := q.window.modify i retire } + f.item.size = windowBytes q := by
  unfold windowBytes
  show ((q.window.modify i retire).map heldSize).sum + _ = _
  rw [map_modify _ _ hf, heldSize_retire]
  exact Slice.sum_set_add (heldSize_at hf hl) 0

/-- Two slots of one sequence number are one slot. -/
theorem Slots.seq_inj {f' : Frame Admission} (h : Slots b q) (hf : q.window[i]? = some f)
    (hf' : q.window[j]? = some f') (hseq : f.item.stored.seqNum = f'.item.stored.seqNum) :
    i = j ∧ f = f' := by
  have hi := h.index_at hf
  have hj := h.index_at hf'
  have hij : i = j := by
    rw [← hi, ← hj, hseq]
  subst hij
  rw [hf] at hf'
  exact ⟨rfl, Option.some.inj hf'⟩

/-- `retireLocked` releases the size of the slot. -/
theorem Slots.retire_freed (hs : Slots b q) (bb : ByteBudget) {entry : EntryId}
    (hf : q.window[i]? = some f) (hl : f.fate = .live)
    (hseq : (b.entryAt entry).seq = f.item.stored.seqNum) :
    Freed b bb (b.retireLocked bb i entry).1 (b.retireLocked bb i entry).2 f.item.size
      (decide (b.escapeBytes ≠ 0 ∧ b.escapeSeq = f.item.stored.seqNum)) := by
  have hlt := (List.getElem?_eq_some_iff.1 hf).1
  have hget : b.accounting = true → b.sizes.getD i 0 = f.item.size := by
    intro hacc
    rw [hs.sizes hacc, List.getD_eq_getElem?_getD, heldSize_at hf hl]
    rfl
  have hin : (b.accounting && decide (i < b.sizes.length)) = b.accounting := by
    cases hacc : b.accounting with
    | false => rfl
    | true =>
      rw [hs.sizes hacc, List.length_map, decide_eq_true hlt]
      rfl
  have hbytes : (b.retireLocked bb i entry).1.bytes =
      if b.accounting && decide (i < b.sizes.length) then
        b.bytes - min (b.sizes.getD i 0) b.bytes else b.bytes := rfl
  have hescape : (b.retireLocked bb i entry).1.escapeBytes =
      if b.accounting && decide (i < b.sizes.length) &&
        decide (b.escapeBytes ≠ 0 ∧ b.escapeSeq = (b.entryAt entry).seq) then 0
      else b.escapeBytes := rfl
  have hbudget : (b.retireLocked bb i entry).2 =
      if b.accounting && decide (i < b.sizes.length) then
        b.releaseShared bb (min (b.sizes.getD i 0) b.bytes)
          (if decide (b.escapeBytes ≠ 0 ∧ b.escapeSeq = (b.entryAt entry).seq) then b.escapeBytes
            else 0)
      else bb := rfl
  rw [hin] at hbytes hbudget
  rw [hin, hseq] at hescape
  refine ⟨⟨rfl, rfl, rfl, rfl⟩, ?_, hescape, ?_⟩
  · rw [hbytes]
    split_ifs with hacc
    · rw [hget hacc]
    · rfl
  · rw [hbudget, hseq]
    split_ifs with hacc
    all_goals first | rfl | rw [hget hacc]

/-- Retiring a frame pays back its size. -/
theorem Meter.retire (h : Meter b q) (hs : Slots b q) (bb : ByteBudget) {entry : EntryId}
    (hf : q.window[i]? = some f) (hl : f.fate = .live)
    (hseq : (b.entryAt entry).seq = f.item.stored.seqNum) :
    Meter (b.retireLocked bb i entry).1 { q with window := q.window.modify i retire } ∧
      ∃ n x, Paid b bb (b.retireLocked bb i entry).1 (b.retireLocked bb i entry).2 n x := by
  refine h.release (hs.retire_freed bb hf hl hseq) (windowBytes_retire hf hl) ?_ ?_ ?_
  · intro y hy
    rcases List.mem_iff_getElem?.1 hy with ⟨j, hj⟩
    have hj' : (q.window.modify i AckBuffer.retire)[j]? = some y := hj
    rw [List.getElem?_modify] at hj'
    rcases Option.map_eq_some_iff.1 hj' with ⟨z, hz, hzy⟩
    refine ⟨z, List.mem_of_getElem? hz, ?_⟩
    rw [← hzy]
    split_ifs <;> rfl
  · -- the escape itself is retired
    intro hgone
    rw [decide_eq_true_eq] at hgone
    rcases h.escape hgone.1 with ⟨-, j, f', hf', -, hseq', hsize, -⟩
    rcases hs.seq_inj hf' hf (hseq'.trans hgone.2) with ⟨-, rfl⟩
    exact hsize.ge
  · -- the escape, if there is one, is another frame
    intro hgone hne j f' hf' hseq'
    rw [decide_eq_false_iff_not] at hgone
    refine ⟨j, ?_⟩
    show (q.window.modify i AckBuffer.retire)[j]? = some f'
    rw [List.getElem?_modify, hf']
    rcases eq_or_ne i j with rfl | hij
    · rcases Option.some.inj (hf.symm.trans hf') with rfl
      exact absurd ⟨hne, hseq'.symm⟩ hgone
    · exact congrArg some (if_neg hij)

/-- A retired frame is not the last one flagged any more. -/
theorem Flags.retire (h : Flags b q) (bb : ByteBudget) {entry : EntryId}
    (hf : q.window[i]? = some f) (hseq : (b.entryAt entry).seq = f.item.stored.seqNum) :
    Flags (b.retireLocked bb i entry).1 { q with window := q.window.modify i retire } := by
  have hlast : (b.retireLocked bb i entry).1.lastFlaggedSeq =
      if b.lastFlaggedSeq = (b.entryAt entry).seq then 0 else b.lastFlaggedSeq := rfl
  constructor
  · rw [hlast, items_modify AckBuffer.retire fun _ => rfl]
    have hrange := h.range
    split_ifs
    · exact Nat.zero_le _
    · exact hrange
  · rw [hlast, hseq]
    split_ifs with heq
    · exact fun hne => absurd rfl hne
    · intro hne j y hy hyseq
      have hy' : (q.window.modify i AckBuffer.retire)[j]? = some y := hy
      rw [List.getElem?_modify] at hy'
      obtain ⟨z, hz, hzy⟩ := Option.map_eq_some_iff.1 hy'
      by_cases hij : i = j
      · -- the retired frame is not the last flagged one
        subst hij
        rw [hf] at hz
        cases hz
        rw [if_pos rfl] at hzy
        rw [← hzy] at hyseq
        exact absurd hyseq.symm heq
      · rw [if_neg hij] at hzy
        obtain rfl : z = y := hzy
        exact h.last hne j z hz hyseq

/-! ## Removing a prefix -/

/-- What leaves and what stays is the window. -/
theorem windowBytes_remove (n : Nat) (g : Frame Admission → Frame Admission) :
    windowBytes (q.remove n g) + ((q.window.map heldSize).take n).sum = windowBytes q := by
  have hsplit := List.sum_take_add_sum_drop (q.window.map heldSize) n
  unfold windowBytes
  show ((q.window.drop n).map heldSize).sum + _ = _
  rw [List.map_drop]
  omega

/-- `removePrefixLocked` releases the sizes of the prefix. -/
theorem Meter.remove_freed (h : Meter b q) (hs : Slots b q) (bb : ByteBudget) (i : Nat) :
    Freed b bb (b.removePrefixLocked bb i).1 (b.removePrefixLocked bb i).2
      ((q.window.map heldSize).take (i + 1)).sum
      (decide (b.escapeBytes ≠ 0 ∧ sub64 b.escapeSeq b.firstSeqNum ≤ i)) := by
  have hsum : b.accounting = true →
      sum64 (b.sizes.take (i + 1)) = ((q.window.map heldSize).take (i + 1)).sum := by
    intro hacc
    have hsplit := windowBytes_remove (q := q) (i + 1) id
    have hsmall := h.small
    rw [hs.sizes hacc]
    exact sum64_eq (by omega)
  have hbytes : (b.removePrefixLocked bb i).1.bytes = if b.accounting then
      b.bytes - min (sum64 (b.sizes.take (i + 1))) b.bytes else b.bytes := rfl
  have hbudget : (b.removePrefixLocked bb i).2 = if b.accounting then
      b.releaseShared bb (min (sum64 (b.sizes.take (i + 1))) b.bytes)
        (if decide (b.escapeBytes ≠ 0 ∧ sub64 b.escapeSeq b.firstSeqNum ≤ i) then b.escapeBytes
          else 0) else bb := rfl
  refine ⟨⟨rfl, rfl, rfl, rfl⟩, ?_, rfl, ?_⟩
  · rw [hbytes]
    split_ifs with hacc
    · rw [hsum hacc]
    · rfl
  · rw [hbudget]
    split_ifs with hacc
    all_goals first | rfl | rw [hsum hacc]

/-- Removing a prefix pays back what is left of it. -/
theorem Meter.remove (h : Meter b q) (hs : Slots b q) (bb : ByteBudget) (i : Nat)
    (g : Frame Admission → Frame Admission) :
    Meter (b.removePrefixLocked bb i).1 (q.remove (i + 1) g) ∧
      ∃ n x, Paid b bb (b.removePrefixLocked bb i).1 (b.removePrefixLocked bb i).2 n x := by
  refine h.release (h.remove_freed hs bb i) (windowBytes_remove (i + 1) g) ?_ ?_ ?_
  · exact fun y hy => ⟨y, List.mem_of_mem_drop hy, rfl⟩
  · -- the escape leaves with the prefix
    intro hgone
    rw [decide_eq_true_eq] at hgone
    rcases h.escape hgone.1 with ⟨-, j, f, hf, hl, hseq, hsize, -⟩
    rw [← hseq, hs.index_at hf] at hgone
    rw [← hsize]
    refine List.le_sum_of_mem (List.mem_of_getElem? (i := j) ?_)
    rw [List.getElem?_take_of_lt (Nat.lt_succ_of_le hgone.2)]
    exact heldSize_at hf hl
  · -- the escape, if there is one, stays
    intro hgone hne j f hf hseq
    rw [decide_eq_false_iff_not, ← hseq, hs.index_at hf] at hgone
    have hj : i + 1 ≤ j := by
      by_contra hlt
      exact hgone ⟨hne, by omega⟩
    refine ⟨j - (i + 1), ?_⟩
    show (q.window.drop (i + 1))[j - (i + 1)]? = some f
    rw [List.getElem?_drop, Nat.add_sub_cancel' hj]
    exact hf

theorem Flags.remove (h : Flags b q) (bb : ByteBudget) (hg : ∀ f, (g f).item = f.item) :
    Flags (b.removePrefixLocked bb i).1 (q.remove (i + 1) g) := by
  have hlast : (b.removePrefixLocked bb i).1.lastFlaggedSeq = b.lastFlaggedSeq := rfl
  constructor
  · rw [hlast, Queue.items_remove hg]
    exact h.range
  · rw [hlast]
    intro hne j f hf hseq
    refine h.last hne (i + 1 + j) f ?_ hseq
    rw [← List.getElem?_drop]
    exact hf

/-! ## Admission -/

theorem windowBytes_push (q : Queue Admission) (f : Frame Admission) :
    windowBytes (q.push f) = windowBytes q + heldSize f := by
  unfold windowBytes Queue.push
  rw [List.map_append, List.sum_append, List.map_singleton, List.sum_singleton]

theorem push_left (f' : Frame Admission) (hf : q.window[i]? = some f) :
    (q.push f').window[i]? = some f := by
  show (q.window ++ [f'])[i]? = some f
  rw [List.getElem?_append_left (List.getElem?_eq_some_iff.1 hf).1]
  exact hf

/-- A slot of the window after an admission is an old one or the last. -/
theorem push_cases {f' : Frame Admission} (hf : (q.push f').window[i]? = some f) :
    q.window[i]? = some f ∨ (i = q.window.length ∧ f = f') :=
  getElem?_snoc hf

theorem track_ledger (seq : Nat) (receipt : Option ReceiptId) (m : Nat) :
    (b.track seq receipt m).ledger = b.ledger := by
  unfold track
  cases receipt <;> rfl

theorem place_ledger (e : DataMessage) (size : Nat) :
    ((b.place e).chargeLocal size).ledger = ((b.ledger.place e).chargeLocal size).ledger := rfl

/-- An admission, up to delivery state and receipts. -/
theorem admitLocked_ledger (e : DataMessage) (size : Nat) (overshot : Bool)
    (receipt : Option ReceiptId) (m : Nat) : (b.admitLocked e size overshot receipt m).ledger =
      ((((b.noteEscape size overshot).noteFlag e size).place e).chargeLocal size).ledger := by
  unfold admitLocked
  simp only
  rw [place_ledger, track_ledger, ← place_ledger]

/-- `admitLocked` writes four counters. -/
theorem admitLocked_counters (e : DataMessage) (size : Nat) (overshot : Bool)
    (receipt : Option ReceiptId) (m : Nat) :
    (b.admitLocked e size overshot receipt m).bytes =
        (if b.accounting then add64 b.bytes size else b.bytes) ∧
      (b.admitLocked e size overshot receipt m).escapeSeq =
        (if overshot && b.group.isSome then b.nextSeqNum else b.escapeSeq) ∧
      (b.admitLocked e size overshot receipt m).escapeBytes =
        (if overshot && b.group.isSome then size else b.escapeBytes) ∧
      (b.admitLocked e size overshot receipt m).lastFlaggedSeq =
        (if e.ackRequested then e.seqNum else b.lastFlaggedSeq) := by
  have hled := admitLocked_ledger (b := b) e size overshot receipt m
  generalize b.admitLocked e size overshot receipt m = b' at hled ⊢
  have h₁ := congrArg AckBuffer.bytes hled
  have h₂ := congrArg escapeSeq hled
  have h₃ := congrArg escapeBytes hled
  have h₄ := congrArg lastFlaggedSeq hled
  exact ⟨h₁, h₂, h₃, h₄⟩

/-- What neither an admission nor a move changes. -/
def settingsView (b : AckBuffer) :
    (Bool × Nat × Bool × Option GroupId × Bool) × (Bool × Bool) × Nat × Nat :=
  ((b.accounting, b.maxBytes, b.shared, b.group, b.registered), (b.isClosed, b.isRunning),
    b.currentCapacity, b.ackEvery)

theorem settingsView_ledger : b.ledger.settingsView = b.settingsView := rfl

theorem noteEscape_settings (size : Nat) (overshot : Bool) :
    (b.noteEscape size overshot).settingsView = b.settingsView := rfl

theorem noteFlag_settings (e : DataMessage) (size : Nat) :
    (b.noteFlag e size).settingsView = b.settingsView := rfl

theorem place_settings (e : DataMessage) (size : Nat) :
    ((b.place e).chargeLocal size).settingsView = b.settingsView := rfl

/-- An admission does not touch the settings. -/
theorem admitLocked_settings (e : DataMessage) (size : Nat) (overshot : Bool)
    (receipt : Option ReceiptId) (m : Nat) :
    (b.admitLocked e size overshot receipt m).settingsView = b.settingsView := by
  have hc := congrArg settingsView (admitLocked_ledger (b := b) e size overshot receipt m)
  rwa [settingsView_ledger, settingsView_ledger, place_settings, noteFlag_settings,
    noteEscape_settings] at hc

/-- An admission counts its size, and itself if it is an escape. -/
theorem Meter.admitLocked (h : Meter b q) {a : Admission} (hopen : b.isClosed = false)
    (hseq : a.stored.seqNum = b.nextSeqNum) (hsum : windowBytes q + a.size < 2 ^ 64)
    (hsize : b.accounting = false → a.size = 0) :
    Meter (b.admitLocked a.stored a.size a.overshot a.receipt a.maxTransmissions)
      (q.push { item := a, limit := a.limit }) := by
  obtain ⟨hbytes, heseq, hesc, -⟩ := admitLocked_counters (b := b) a.stored a.size a.overshot
    a.receipt a.maxTransmissions
  have hset := admitLocked_settings (b := b) a.stored a.size a.overshot a.receipt
    a.maxTransmissions
  simp only [settingsView, Prod.mk.injEq] at hset
  obtain ⟨⟨hacc', -⟩, ⟨hclosed, -⟩, -⟩ := hset
  have hpush := windowBytes_push q { item := a, limit := a.limit }
  have hheld : heldSize { item := a, limit := a.limit } = a.size := heldSize_of_live rfl
  have hb := h.bytes
  rw [hopen, if_neg Bool.false_ne_true] at hb
  constructor
  · rw [hbytes, hclosed, hopen, if_neg Bool.false_ne_true]
    cases hacc : b.accounting with
    | true =>
      -- the sum does not wrap, since the window stays below a word
      rw [if_pos rfl, add64_eq (by omega)]
      omega
    | false =>
      have hz := hsize hacc
      rw [if_neg Bool.false_ne_true]
      omega
  · omega
  · rw [hacc']
    intro hacc f hf
    have hf' : f ∈ q.window ++ [{ item := a, limit := a.limit }] := hf
    rcases List.mem_append.1 hf' with hold | hnew
    · exact h.unmetered hacc f hold
    · rw [List.mem_singleton] at hnew
      rw [hnew]
      exact hsize hacc
  · rw [hesc, heseq, hclosed]
    by_cases hnoted : (a.overshot && b.group.isSome) = true
    · -- the new frame is the escape
      rw [if_pos hnoted, if_pos hnoted]
      rw [Bool.and_eq_true] at hnoted
      intro _
      refine ⟨hopen, q.window.length, { item := a, limit := a.limit }, ?_, rfl, hseq, rfl, hnoted.1⟩
      show (q.window ++ [_])[q.window.length]? = some _
      rw [List.getElem?_append_right le_rfl, Nat.sub_self]
      rfl
    · rw [if_neg hnoted, if_neg hnoted]
      intro hne
      obtain ⟨-, i, f, hf, hrest⟩ := h.escape hne
      exact ⟨hopen, i, f, push_left _ hf, hrest⟩
  · rw [hclosed, hopen]
    exact fun hno => absurd hno Bool.noConfusion

/-- An admission that asks for an acknowledgement is the last one that does. -/
theorem Flags.admitLocked (h : Flags b q) {a : Admission} (hs : Slots b q)
    (hseq : a.stored.seqNum = b.nextSeqNum) (hlen : q.items.length + 1 < 2 ^ 64) :
    Flags (b.admitLocked a.stored a.size a.overshot a.receipt a.maxTransmissions)
      (q.push { item := a, limit := a.limit }) := by
  obtain ⟨-, -, -, hlast⟩ := admitLocked_counters (b := b) a.stored a.size a.overshot a.receipt
    a.maxTransmissions
  have hnext : a.stored.seqNum = q.items.length + 1 := by
    rw [hseq, hs.nextSeq, Nat.mod_eq_of_lt hlen]
  have hrange := h.range
  have hitems : (q.push { item := a, limit := a.limit }).items.length = q.items.length + 1 := by
    rw [Queue.items_push, List.length_append, List.length_singleton]
  -- no held frame has the new number yet
  have hold : ∀ (i : Nat) f, q.window[i]? = some f → f.item.stored.seqNum ≠ q.items.length + 1 := by
    intro i f hf heq
    have hat := hs.seqs _ _ (items_window hf)
    have hlt : q.gone.length + i < q.items.length := by
      have hi := (List.getElem?_eq_some_iff.1 hf).1
      rw [q.length_items]
      omega
    rw [Nat.mod_eq_of_lt (by omega)] at hat
    omega
  constructor
  · rw [hlast, hitems]
    split_ifs
    · omega
    · omega
  · rw [hlast]
    intro hne i f hf heq
    rcases push_cases hf with hf' | ⟨-, rfl⟩
    · split_ifs at hne heq with hflag
      · rw [hnext] at heq
        exact absurd heq (hold i f hf')
      · exact h.last hne i f hf' heq
    · split_ifs at hne heq with hflag
      · exact ⟨hflag, rfl⟩
      · have heq' : a.stored.seqNum = b.lastFlaggedSeq := heq
        omega

/-! ## Sealing, closing and waking -/

/-- Calls that change no counter may only stop the buffer. -/
theorem Meter.congr (h : Meter b q) (h₁ : b'.bytes = b.bytes) (h₂ : b'.isClosed = b.isClosed)
    (h₃ : b'.accounting = b.accounting) (h₄ : b'.escapeSeq = b.escapeSeq)
    (h₅ : b'.escapeBytes = b.escapeBytes) (h₆ : b.isRunning = false → b'.isRunning = false) :
    Meter b' q := by
  constructor
  · rw [h₁, h₂]
    exact h.bytes
  · exact h.small
  · rw [h₃]
    exact h.unmetered
  · rw [h₂, h₄, h₅]
    exact h.escape
  · rw [h₂]
    exact fun hc => h₆ (h.stopped hc)

theorem Flags.congr (h : Flags b q) (h₁ : b'.lastFlaggedSeq = b.lastFlaggedSeq) : Flags b' q := by
  constructor
  · rw [h₁]
    exact h.range
  · rw [h₁]
    exact h.last

theorem Meter.updateCapacity (h : Meter b q) (c : Nat) : Meter (b.updateCapacity c) q := by
  unfold AckBuffer.updateCapacity
  split_ifs
  · exact h
  · exact h.congr rfl rfl rfl rfl rfl id

theorem Flags.updateCapacity (h : Flags b q) (c : Nat) : Flags (b.updateCapacity c) q := by
  unfold AckBuffer.updateCapacity
  split_ifs
  · exact h
  · exact h.congr rfl

theorem Meter.beginDrain (h : Meter b q) : Meter b.beginDrain q :=
  h.congr rfl rfl rfl rfl rfl fun _ => rfl

theorem Flags.beginDrain (h : Flags b q) : Flags b.beginDrain q := h.congr rfl

/-- A round of `drain` only makes the wake channel. -/
theorem drainRound_cases (b : AckBuffer) (ctxDone : Bool) :
    (b.drainRound ctxDone).1 = b ∨ (b.drainRound ctxDone).1 = b.sampleWake.1 := by
  unfold AckBuffer.drainRound
  split_ifs
  · exact .inl rfl
  · cases b.drainReason ctxDone with
    | some err => exact .inl rfl
    | none => exact .inr rfl

/-- `Close` releases everything once. -/
theorem Meter.close (h : Meter b q) (bb : ByteBudget) : Meter (b.close bb).1 q := by
  have hesc : (b.close bb).1.escapeBytes = if b.bytes ≠ 0 then 0 else b.escapeBytes := rfl
  have hle := h.escape_le
  constructor
  · rfl
  · exact h.small
  · exact h.unmetered
  · rw [hesc]
    split_ifs with h0
    · exact fun hne => absurd rfl hne
    · exact fun hne => absurd (by omega) hne
  · exact fun _ => rfl

theorem Flags.close (h : Flags b q) (bb : ByteBudget) : Flags (b.close bb).1 q := h.congr rfl

/-! ## Whole calls -/

/-- No move does. -/
theorem Move.settings (h : Move (b, bb, q) (b', bb', q')) : b'.settingsView = b.settingsView := by
  cases h with
  | idle _ _ _ _ _ hled _ _ =>
    have hc := congrArg settingsView hled
    rwa [settingsView_ledger, settingsView_ledger] at hc
  | retire _ _ _ i entry f => rfl
  | remove _ _ _ i g => rfl

theorem Moves.settings (h : Moves (b, bb, q) (b', bb', q')) : b'.settingsView = b.settingsView :=
  h.keep (fun c => c.1.settingsView = b.settingsView) (fun _ _ hm heq => (Move.settings hm).trans heq) rfl

/-- A move takes off the counters what it releases. -/
theorem Move.pays (h : Move (b, bb, q) (b', bb', q')) (hm : Meter b q) :
    Meter b' q' ∧ ∃ n x, Paid b bb b' bb' n x := by
  cases h with
  | idle _ _ _ _ _ hled _ hmark =>
    have h₁ : b'.bytes = b.bytes := by
      have hc := congrArg AckBuffer.bytes hled
      exact hc
    have h₂ : b'.escapeBytes = b.escapeBytes := by
      have hc := congrArg escapeBytes hled
      exact hc
    exact ⟨hm.idle hled hmark, 0, 0, Due.zero b, h₁, h₂, (releaseShared_zero bb 0).symm⟩
  | retire _ _ _ i entry f hs hf hl hseq => exact hm.retire hs bb hf hl hseq
  | remove _ _ _ i g hs _ _ => exact hm.remove hs bb i g

/-- No move leaves a flag on a frame that is not live. -/
theorem Move.flags (h : Move (b, bb, q) (b', bb', q')) (hfl : Flags b q) : Flags b' q' := by
  cases h with
  | idle _ _ _ _ _ hled hgone hmark => exact hfl.idle hled hmark hgone
  | retire _ _ _ i entry f hs hf hl hseq => exact hfl.retire bb hf hseq
  | remove _ _ _ i g hs hi hg => exact hfl.remove bb hg

end AckBuffer

end UspClient
