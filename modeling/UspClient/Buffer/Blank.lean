import UspClient.Buffer.Receipts

/-!
# Adds that fail, and cells that were never given

A round of `addWithReceipt` that does not admit its message leaves it as it is, and the buffer
too, except that it may make the wake channel. A receipt cell is written only once an admission
brought it: until then it reads invalid (`Blank`), and no entry of the tracked list refers to it.
-/

namespace UspClient

open Function Word64 Replay AckBuffer

namespace AckBuffer

variable {b : AckBuffer} {q : Queue Admission} {r : ReceiptId} {i : Nat}

/-- An entry of the list of tracked admissions. -/
inductive Listed (b : AckBuffer) : EntryId → Prop where
  | head (e : EntryId) : b.receiptHead = some e → Listed b e
  | next (e e' : EntryId) : Listed b e → (b.entryAt e).next = some e' → Listed b e'

theorem ptr_eq_some {k m n : Nat} (h : ptr k n = some m) : m = k ∧ m < n := by
  unfold ptr at h
  split_ifs at h with hlt
  cases h
  exact ⟨rfl, hlt⟩

/-- The list stays among the entries of the window. -/
theorem Chain.listed (h : Chain b q) {e : EntryId} (he : Listed b e) :
    trackedCount q.gone ≤ e ∧ e < b.nextEntry := by
  induction he with
  | head e hhead =>
    obtain ⟨rfl, hlt⟩ := ptr_eq_some (h.head.symm.trans hhead)
    exact ⟨le_entryOf, hlt⟩
  | next e e' _ hnext ih =>
    obtain ⟨rfl, hlt⟩ := ptr_eq_some ((h.links e ih.1 ih.2).symm.trans hnext)
    exact ⟨ih.1.trans (Nat.le_succ e), hlt⟩

/-- The cell of no admission is tracked by no entry. -/
theorem Chain.untracked (h : Chain b q) (hr : ∀ a ∈ q.items, a.receipt ≠ some r) {e : EntryId}
    (he : Listed b e) : (b.entryAt e).state ≠ r := by
  obtain ⟨hle, hlt⟩ := h.listed he
  obtain ⟨k, f, hf, -, -, hentry⟩ := h.frame_of hle hlt
  rintro rfl
  have hmem : f.item ∈ q.items :=
    List.mem_map_of_mem (List.mem_append_right _ (List.mem_of_getElem? hf))
  exact hr f.item hmem hentry.receipt

/-! ## Rounds -/

/-- A round that does not admit the message leaves it alone, and may make the wake channel. -/
theorem addRound_failed {bb : ByteBudget} {e : DataMessage} {size : Nat}
    {waiter : Option WaiterId} {receipt : Option ReceiptId} {m : Nat}
    (h : (b.addRound bb e size waiter receipt m).2 ≠ .admitted) :
    (b.addRound bb e size waiter receipt m).1.stored = none ∧
      ((b.addRound bb e size waiter receipt m).1.buf = b ∨
        (b.addRound bb e size waiter receipt m).1.buf = b.sampleWake.1) := by
  have hstep := tryAdd_step b bb e size waiter receipt m
  unfold addRound at h ⊢
  generalize b.tryAddWithReceiptLocked bb e size waiter receipt m = r at hstep h ⊢
  by_cases hrun : (!b.isRunning) = true
  · rw [if_pos hrun]
    exact ⟨rfl, .inl rfl⟩
  · rw [if_neg hrun] at h ⊢
    cases hstep with
    | refused bb' w => exact ⟨rfl, .inr rfl⟩
    | admitted bb' flag overshot pressureStep forced _ _ => exact absurd rfl h

theorem admitLocked_receiptAt {receipt : Option ReceiptId} (e : DataMessage) (size : Nat)
    (overshot : Bool) (m : Nat) (hr : receipt ≠ some r) :
    (b.admitLocked e size overshot receipt m).receiptAt r = b.receiptAt r := by
  cases receipt with
  | none => rfl
  | some r' => exact update_of_ne (fun heq => hr (congrArg some heq.symm)) _ _

/-- A round that admits the message brings the cell of the call, and no other. -/
theorem addRound_admitted {bb : ByteBudget} {e : DataMessage} {size : Nat}
    {waiter : Option WaiterId} {receipt : Option ReceiptId} {m : Nat}
    (h : (b.addRound bb e size waiter receipt m).2 = .admitted) :
    (∃ adm : Admission, (b.addRound bb e size waiter receipt m).1.admission e size receipt m =
        some adm ∧ adm.receipt = receipt) ∧
      ∀ r, receipt ≠ some r →
        (b.addRound bb e size waiter receipt m).1.buf.receiptAt r = b.receiptAt r := by
  have hstep := tryAdd_step b bb e size waiter receipt m
  unfold addRound at h ⊢
  generalize b.tryAddWithReceiptLocked bb e size waiter receipt m = r at hstep h ⊢
  by_cases hrun : (!b.isRunning) = true
  · rw [if_pos hrun] at h
    cases h
  · rw [if_neg hrun] at h ⊢
    cases hstep with
    | refused bb' w => cases h
    | admitted bb' flag overshot pressureStep forced _ _ =>
      exact ⟨⟨_, rfl, rfl⟩, fun r hr => admitLocked_receiptAt _ size overshot m hr⟩

/-! ## Cells of no admission -/

/-- The cells that no admission brought were never written. -/
def Blank (b : AckBuffer) (items : List Admission) : Prop :=
  ∀ r, (∀ a ∈ items, a.receipt ≠ some r) → b.receiptAt r = .invalid

/-- An acknowledgement writes the cells of frames it confirms. -/
theorem Blank.ackRemove (h : Blank b q.items) (href : Refines b q) (bb : ByteBudget) :
    Blank (b.ackRemove bb i).1 q.items := by
  have hchain : Chain (b.removePrefixLocked bb i).1 q :=
    href.chain.congr (removePrefixLocked_receiptView bb)
  have hacks := hchain.ackReceiptsLocked_cells (i := i) b.firstSeqNum
    fun k f hf => href.slots.index_at hf
  have hcells : (b.ackRemove bb i).1.receiptAt =
      ((b.removePrefixLocked bb i).1.ackReceiptsLocked b.firstSeqNum i).receiptAt :=
    releaseRetiredHeadLocked_receiptAt _ _
  intro r hr
  rw [hcells, (hacks r).2]
  · exact h r hr
  · rintro ⟨k, f, -, hf, hfr⟩
    exact hr f.item (List.mem_map_of_mem (List.mem_append_right _ (List.mem_of_getElem? hf))) hfr

/-- Retirement writes the cell of its frame. -/
theorem keptByRetire_blank (items : List Admission) :
    KeptByRetire fun c => c.2.2.items = items ∧ Blank c.1 items := by
  rintro b bb q i entry f - hf - he ⟨rfl, hblank⟩
  refine ⟨items_modify retire fun _ => rfl, fun r hr => ?_⟩
  show update b.receiptAt (b.entryAt entry).state .retired r = .invalid
  have hmem : f.item ∈ q.items :=
    List.mem_map_of_mem (List.mem_append_right _ (List.mem_of_getElem? hf))
  have hne : r ≠ (b.entryAt entry).state := by
    rintro rfl
    exact hr f.item hmem he.receipt
  rw [update_of_ne hne]
  exact hblank r hr

theorem Blank.resetDelivery (h : Blank b q.items) (href : Refines b q) (bb : ByteBudget) :
    Blank (b.resetDelivery bb).1 q.items := by
  obtain ⟨-, -, -, hblank⟩ := href.resetLoop bb (keptByRetire_blank q.items) ⟨rfl, h⟩
  have hrelease : (b.resetDelivery bb).1.receiptAt =
      (resetLoop b.nextEntry b.receiptHead b.rewound bb).1.receiptAt :=
    releaseRetiredHeadLocked_receiptAt _ _
  intro r hr
  rw [hrelease]
  exact hblank r hr

end AckBuffer

namespace BufferState

variable {s : BufferState} {q : Queue Admission} {bb : ByteBudget}

/-- Only an admission gives a cell away. -/
theorem Tracks.blank (h : Tracks s q) (hb : s.buf.Blank s.log) (bb : ByteBudget) (op : BufferOp) :
    (s.apply bb op).1.buf.Blank (s.apply bb op).1.log := by
  -- a call that writes no cell
  have hsame : ∀ b : AckBuffer, b.receiptAt = s.buf.receiptAt → b.Blank s.log := by
    intro b hcells r hr
    rw [hcells]
    exact hb r hr
  have hq : s.buf.Blank q.items := by rwa [h.items]
  cases op with
  | add e size waiter receipt m =>
    show Blank (s.buf.addRound bb e size waiter receipt m.toNat).1.buf (s.log ++
      ((s.buf.addRound bb e size waiter receipt m.toNat).1.admission e size receipt
        m.toNat).toList)
    by_cases hround : (s.buf.addRound bb e size waiter receipt m.toNat).2 = .admitted
    · obtain ⟨⟨adm, hadm, hreceipt⟩, hcells⟩ := addRound_admitted hround
      rw [hadm]
      intro r hr
      have hother : receipt ≠ some r := by
        rw [← hreceipt]
        exact hr adm (List.mem_append_right _ List.mem_cons_self)
      rw [hcells r hother]
      exact hb r fun a ha => hr a (List.mem_append_left _ ha)
    · obtain ⟨hstored, hbuf⟩ := addRound_failed hround
      have hnone : (s.buf.addRound bb e size waiter receipt m.toNat).1.admission e size receipt
          m.toNat = none := by
        unfold TryAdd.admission
        rw [hstored]
        rfl
      rw [hnone, Option.toList_none, List.append_nil]
      rcases hbuf with hbuf | hbuf
      · rw [hbuf]
        exact hb
      · rw [hbuf]
        exact hsame _ rfl
  | getNextToDeliver => exact hsame _ (getNextToDeliver_receiptAt (h.deliver bb).2)
  | ack seq =>
    have hack := ack_step s.buf bb seq.toNat
    show Blank (s.buf.ack bb seq.toNat).1 s.log
    generalize s.buf.ack bb seq.toNat = r at hack ⊢
    cases hack with
    | rejected err => exact hb
    | late _ => exact hb
    | removed _ _ =>
      rw [← h.items]
      exact hq.ackRemove h.refines bb
  | resetDelivery =>
    show Blank (s.buf.resetDelivery bb).1 s.log
    rw [← h.items]
    exact hq.resetDelivery h.refines bb
  | updateCapacity c => exact hsame _ (updateCapacity_receiptAt _)
  | beginDrain => exact hb
  | drain first ctxDone => exact hsame _ (drainSection_receiptAt _ _)
  | close => exact hb

end BufferState

end UspClient
