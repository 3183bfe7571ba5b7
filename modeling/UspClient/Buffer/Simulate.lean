import UspClient.Buffer.Moves

/-!
# Every method is an operation of the replay queue

`Refines b q` puts the slots, the chain of tracked admissions and the events together
with the well-formedness of the queue. The theorems below say which operation of the
queue each method of the buffer performs. None of them depends on the shared budget:
only an admission asks it, and then what it answers decides whether the frame is pushed.
-/

namespace UspClient

open Function Word64 Replay AckBuffer

namespace AckBuffer

variable {b b' : AckBuffer} {q : Queue Admission} {f : Frame Admission} {i j k n : Nat}
variable {g : Frame Admission → Frame Admission}

/-- The two delivery events. -/
structure Events (b : AckBuffer) (q : Queue Admission) : Prop where
  ready : b.isReadyToDeliver = decide (q.next < q.window.length)
  empty : b.isEmpty = !b.isReadyToDeliver

structure Refines (b : AckBuffer) (q : Queue Admission) : Prop where
  slots : Slots b q
  chain : Chain b q
  events : Events b q
  sane : q.Sane
  trimmed : q.Trimmed
  limits : ∀ f ∈ q.frames, f.limit = f.item.limit

/-- What does not depend on the receipts: slots, events, and a queue whose border lies
between the frames that left and those that are held. -/
structure Shape (b : AckBuffer) (q : Queue Admission) : Prop where
  slots : Slots b q
  events : Events b q
  next_le : q.next ≤ q.window.length
  window : ∀ f ∈ q.window, f.fate ≠ .confirmed
  gone : ∀ f ∈ q.gone, f.fate ≠ .live
  trimmed : q.Trimmed

theorem Refines.shape (h : Refines b q) : Shape b q :=
  ⟨h.slots, h.events, h.sane.next_le, h.sane.window, h.sane.gone, h.trimmed⟩

theorem Shape.live_of_mem (h : Shape b q) (hf : f ∈ q.window) (hr : f.retired = false) :
    f.fate = .live := by
  have hnc := h.window f hf
  have hnr := of_decide_eq_false hr
  cases hfate : f.fate with
  | live => rfl
  | confirmed => exact absurd hfate hnc
  | retired => exact absurd hfate hnr

/-- A limit comes with a receipt. -/
theorem tracked_of_limit (h : f.limit = f.item.limit) (hl : f.limit ≠ 0) : tracked f = true := by
  rw [h] at hl
  unfold Admission.limit at hl
  unfold tracked
  by_contra hne
  rw [if_neg hne] at hl
  exact hl rfl

theorem Refines.limit_window (h : Refines b q) (hf : f ∈ q.window) : f.limit = f.item.limit :=
  h.limits f (Queue.mem_frames_window hf)

/-! ## A new buffer -/

theorem newAckBuffer_eq {o : AckBufferOptions} {bb : ByteBudget}
    (h : (newAckBuffer o bb).2 = .ok b) : ∃ group : Option GroupId, b =
      { maxBytes := o.maxBytes, shared := o.sharedBudget, group := group,
        registered := group.isSome,
        accounting := decide (o.maxBytes ≠ 0) || o.sharedBudget } := by
  unfold newAckBuffer at h
  generalize (if o.sharedBudget then bb.register o.budgetGroup else (bb, .ok none)) = r at h
  obtain ⟨bb', res⟩ := r
  cases res with
  | error err => simp at h
  | ok group => exact ⟨group, (Except.ok.inj h).symm⟩

theorem newAckBuffer_refines {o : AckBufferOptions} {bb : ByteBudget}
    (h : (newAckBuffer o bb).2 = .ok b) : Refines b {} := by
  obtain ⟨group, rfl⟩ := newAckBuffer_eq h
  constructor
  · constructor <;> simp [initialCapacity, Queue.items, Queue.frames]
    exact ⟨1, rfl⟩
  · constructor <;> simp [trackedCount, ptr, entryOf]
  · constructor <;> rfl
  · exact Queue.sane_empty
  · exact Queue.trimmed_empty
  · intro f hf
    simp [Queue.frames] at hf

/-! ## Fields no operation of the queue depends on -/

theorem Events.congr (h : Events b q) (h₁ : b'.isReadyToDeliver = b.isReadyToDeliver)
    (h₂ : b'.isEmpty = b.isEmpty) : Events b' q := by
  constructor
  · rw [h₁, h.ready]
  · rw [h₁, h₂, h.empty]

theorem Refines.congr (h : Refines b q) (hs : b'.slotView = b.slotView)
    (hr : b'.receiptView = b.receiptView) (h₁ : b'.isReadyToDeliver = b.isReadyToDeliver)
    (h₂ : b'.isEmpty = b.isEmpty) : Refines b' q :=
  ⟨h.slots.congr hs, h.chain.congr hr, h.events.congr h₁ h₂, h.sane, h.trimmed, h.limits⟩

theorem Refines.sampleWake (h : Refines b q) : Refines b.sampleWake.1 q :=
  h.congr rfl rfl rfl rfl

theorem Refines.close (h : Refines b q) (bb : ByteBudget) : Refines (b.close bb).1 q :=
  h.congr rfl rfl rfl rfl

theorem Refines.beginDrain (h : Refines b q) : Refines b.beginDrain q :=
  h.congr rfl rfl rfl rfl

theorem Refines.drainRound (h : Refines b q) (ctxDone : Bool) :
    Refines (b.drainRound ctxDone).1 q := by
  unfold AckBuffer.drainRound
  split_ifs with hfree
  · exact h
  · cases b.drainReason ctxDone with
    | some err => exact h
    | none => exact h.sampleWake

theorem Refines.drainSection (h : Refines b q) (first ctxDone : Bool) :
    Refines (b.drainSection first ctxDone).1 q := by
  unfold AckBuffer.drainSection
  split_ifs
  · exact h.beginDrain.drainRound ctxDone
  · exact h.drainRound ctxDone

theorem updateCapacity_receiptView (c : Nat) :
    (b.updateCapacity c).receiptView = b.receiptView := by
  unfold updateCapacity
  split_ifs <;> rfl

theorem updateCapacity_events (c : Nat) :
    (b.updateCapacity c).isReadyToDeliver = b.isReadyToDeliver ∧
      (b.updateCapacity c).isEmpty = b.isEmpty := by
  unfold updateCapacity
  split_ifs <;> exact ⟨rfl, rfl⟩

theorem Refines.updateCapacity (h : Refines b q) (hn : n < 2 ^ 64) :
    Refines (b.updateCapacity n) q := by
  obtain ⟨h₁, h₂⟩ := updateCapacity_events (b := b) n
  exact ⟨h.slots.updateCapacity hn, h.chain.congr (updateCapacity_receiptView n),
    h.events.congr h₁ h₂, h.sane, h.trimmed, h.limits⟩

/-! ## Admission -/

theorem Refines.admitLocked (h : Refines b q) {a : Admission} (havail : b.isAvailable = true)
    (hseq : a.stored.seqNum = b.nextSeqNum) :
    Refines (b.admitLocked a.stored a.size a.overshot a.receipt a.maxTransmissions)
      (q.push { item := a, limit := a.limit }) := by
  have hchain : Chain ((b.noteEscape a.size a.overshot).noteFlag a.stored a.size) q :=
    h.chain.congr rfl
  have hnext := h.sane.next_le
  constructor
  · exact h.slots.admitLocked havail hseq
  · exact (hchain.track hnext rfl).congr rfl
  · constructor
    · show true = decide (q.next < (q.window ++ [_]).length)
      rw [List.length_append, List.length_singleton]
      exact (decide_eq_true (by omega)).symm
    · rfl
  · exact h.sane.push rfl rfl
  · exact Queue.trimmed_push h.trimmed rfl
  · intro f hf
    rw [Queue.frames_push, List.mem_append, List.mem_singleton] at hf
    rcases hf with hold | rfl
    · exact h.limits f hold
    · rfl

/-- The message would exceed the buffer's own limit. -/
def exceeds (b : AckBuffer) (size : Nat) : Bool :=
  decide (b.maxBytes ≠ 0 ∧ add64 b.bytes size > b.maxBytes)

/-- What the byte limits can say. -/
inductive CheckStep (b : AckBuffer) (bb : ByteBudget) (size : Nat) (waiter : Option WaiterId) :
    ByteBudget × ByteVerdict → Prop where
  /-- Bytes are not accounted for. -/
  | unmetered : b.accounting = false → CheckStep b bb size waiter (bb, .room false false 0)
  /-- The buffer's own limit. -/
  | full : b.accounting = true → b.exceeds size = true → b.heldFlagged = true →
      CheckStep b bb size waiter (b.cancelShared bb waiter, .refused none)
  /-- No shared budget. -/
  | alone (forced : Bool) (step : Nat) : b.accounting = true →
      (b.exceeds size && b.heldFlagged) = false → b.shared = false →
      CheckStep b bb size waiter (bb, .room forced false step)
  /-- The shared budget refuses. -/
  | wait : b.accounting = true → (b.exceeds size && b.heldFlagged) = false → b.shared = true →
      (bb.reserveFor size (!b.heldFlagged) b.group waiter).2.ok = false →
      CheckStep b bb size waiter ((bb.reserveFor size (!b.heldFlagged) b.group waiter).1,
        .refused (bb.reserveFor size (!b.heldFlagged) b.group waiter).2.waiter)
  /-- The shared budget takes the charge. -/
  | charged (forced : Bool) (step : Nat) : b.accounting = true →
      (b.exceeds size && b.heldFlagged) = false → b.shared = true →
      (bb.reserveFor size (!b.heldFlagged) b.group waiter).2.ok = true →
      CheckStep b bb size waiter ((bb.reserveFor size (!b.heldFlagged) b.group waiter).1,
        .room forced (bb.reserveFor size (!b.heldFlagged) b.group waiter).2.overshot step)

theorem checkBytes_step (b : AckBuffer) (bb : ByteBudget) (size : Nat) (waiter : Option WaiterId) :
    CheckStep b bb size waiter (b.checkBytes bb size waiter) := by
  unfold checkBytes
  cases hacc : b.accounting with
  | false => exact .unmetered hacc
  | true =>
    simp only [Bool.not_true, Bool.false_eq_true, if_false]
    have hexc : decide (b.maxBytes ≠ 0 ∧ add64 b.bytes size > b.maxBytes) = b.exceeds size := rfl
    rw [hexc]
    by_cases hfull : (b.exceeds size && b.heldFlagged) = true
    · rw [if_pos hfull]
      rw [Bool.and_eq_true] at hfull
      exact .full hacc hfull.1 hfull.2
    · rw [if_neg hfull]
      rw [Bool.not_eq_true] at hfull
      cases hshared : b.shared with
      | false => exact .alone _ _ hacc hfull hshared
      | true =>
        simp only [Bool.not_true, Bool.false_eq_true, if_false]
        cases hok : (bb.reserveFor size (!b.heldFlagged) b.group waiter).2.ok with
        | false =>
          rw [Bool.not_false, if_pos rfl]
          exact .wait hacc hfull hshared hok
        | true =>
          rw [Bool.not_true, if_neg Bool.false_ne_true]
          exact .charged _ _ hacc hfull hshared hok

/-- The admission `tryAddWithReceiptLocked` made, if it made one. -/
def TryAdd.admission (r : TryAdd) (given : DataMessage) (size : Nat) (receipt : Option ReceiptId)
    (maxTransmissions : Nat) : Option Admission :=
  r.stored.map fun stored => ⟨given, stored, size, receipt, maxTransmissions, r.overshot⟩

/-- What `tryAddWithReceiptLocked` can do: refuse and leave the buffer alone, or admit the
message with the next sequence number. -/
inductive TryStep (b : AckBuffer) (e : DataMessage) (size : Nat) (receipt : Option ReceiptId)
    (maxTransmissions : Nat) : TryAdd → Prop where
  | refused (bb : ByteBudget) (waiter : Option WaiterId) :
      TryStep b e size receipt maxTransmissions ⟨b, bb, waiter, none, false⟩
  | admitted (bb : ByteBudget) (flag overshot : Bool) (pressureStep : Nat) (forced : Bool) :
      b.isAvailable = true →
      b.stamp e size forced pressureStep = { e with seqNum := b.nextSeqNum, ackRequested := flag } →
      TryStep b e size receipt maxTransmissions
        ⟨b.admitLocked { e with seqNum := b.nextSeqNum, ackRequested := flag } size overshot receipt
          maxTransmissions, bb, none, some { e with seqNum := b.nextSeqNum, ackRequested := flag },
          overshot⟩

theorem tryAdd_step (b : AckBuffer) (bb : ByteBudget) (e : DataMessage) (size : Nat)
    (waiter : Option WaiterId) (receipt : Option ReceiptId) (maxTransmissions : Nat) :
    TryStep b e size receipt maxTransmissions
      (b.tryAddWithReceiptLocked bb e size waiter receipt maxTransmissions) := by
  unfold tryAddWithReceiptLocked
  cases havail : b.isAvailable with
  | false => exact .refused _ _
  | true =>
    simp only [Bool.not_true, Bool.false_eq_true, if_false]
    obtain ⟨bb', verdict⟩ := b.checkBytes bb size waiter
    cases verdict with
    | refused w => exact .refused _ _
    | room forced overshot pressureStep =>
      exact .admitted _ _ _ pressureStep forced havail rfl

/-! ## Removing a prefix -/

theorem removePrefixLocked_receiptView (bb : ByteBudget) :
    (b.removePrefixLocked bb i).1.receiptView = b.receiptView := rfl

theorem slotView_unlisted : b.unlisted.slotView = b.slotView := rfl

theorem dropReceiptsLocked_slotView (first index : Nat) (acknowledge : Bool) :
    (b.dropReceiptsLocked first index acknowledge).slotView = b.slotView := by
  have hun := congrArg slotView (dropReceiptsLocked_unlisted (b := b) first index acknowledge)
  rwa [slotView_unlisted, slotView_unlisted] at hun

theorem dropReceiptsLocked_events (first index : Nat) (acknowledge : Bool) :
    (b.dropReceiptsLocked first index acknowledge).isReadyToDeliver = b.isReadyToDeliver ∧
      (b.dropReceiptsLocked first index acknowledge).isEmpty = b.isEmpty := by
  have hun := dropReceiptsLocked_unlisted (b := b) first index acknowledge
  have h₁ := congrArg isReadyToDeliver hun
  have h₂ := congrArg isEmpty hun
  exact ⟨h₁, h₂⟩

/-- Removing slots and their entries is removing frames. -/
theorem removePrefix_drop (hs : Slots b q) (hc : Chain b q) (bb : ByteBudget) (acknowledge : Bool)
    (hi : i < q.window.length) (hg : ∀ f, (g f).item = f.item) :
    Slots ((b.removePrefixLocked bb i).1.dropReceiptsLocked b.firstSeqNum i acknowledge)
        (q.remove (i + 1) g) ∧
      Chain ((b.removePrefixLocked bb i).1.dropReceiptsLocked b.firstSeqNum i acknowledge)
        (q.remove (i + 1) g) := by
  constructor
  · exact (hs.removePrefixLocked bb hi hg).congr (dropReceiptsLocked_slotView _ _ _)
  · have hc' : Chain (b.removePrefixLocked bb i).1 q :=
      hc.congr (removePrefixLocked_receiptView bb)
    exact hc'.dropReceiptsLocked acknowledge (fun k f hf => hs.index_at hf) hg

theorem Events.removePrefixLocked (h : Events b q) (hs : Slots b q) (hn : q.next ≤ q.window.length)
    (bb : ByteBudget) : Events (b.removePrefixLocked bb i).1 (q.remove (i + 1) g) := by
  have hready : (b.removePrefixLocked bb i).1.isReadyToDeliver =
      if (if b.nextIndexToDeliver > i + 1 then b.nextIndexToDeliver - (i + 1) else 0) ≥
        b.nextIndexFree - i - 1 then false else b.isReadyToDeliver := rfl
  have hempty : (b.removePrefixLocked bb i).1.isEmpty =
      if (if b.nextIndexToDeliver > i + 1 then b.nextIndexToDeliver - (i + 1) else 0) ≥
        b.nextIndexFree - i - 1 then true else b.isEmpty := rfl
  have hnext : (if b.nextIndexToDeliver > i + 1 then b.nextIndexToDeliver - (i + 1) else 0) =
      q.next - (i + 1) := by
    rw [hs.next]
    split_ifs <;> omega
  rw [hnext, hs.free] at hready hempty
  constructor
  · show _ = decide (q.next - (i + 1) < (q.window.drop (i + 1)).length)
    rw [hready, h.ready, List.length_drop]
    split_ifs with hge
    · exact (decide_eq_false (by omega)).symm
    · rw [decide_eq_true (show q.next < q.window.length by omega), decide_eq_true (by omega)]
  · rw [hready, hempty, h.empty]
    split_ifs <;> rfl

/-- The release of a retired head does nothing, or removes the retired frames at the
front and remembers their numbers. -/
theorem Slots.releaseRetiredHead_cases (hs : Slots b q) (bb : ByteBudget) :
    (q.headRun = 0 ∧ b.releaseRetiredHeadLocked bb = (b, bb)) ∨
      (0 < q.headRun ∧ b.releaseRetiredHeadLocked bb =
        (((b.remember q.headRun).removePrefixLocked bb (q.headRun - 1)).1.dropReceiptsLocked
          b.firstSeqNum (q.headRun - 1) false,
          ((b.remember q.headRun).removePrefixLocked bb (q.headRun - 1)).2)) := by
  have hrun := hs.retiredRun
  by_cases hz : q.headRun = 0
  · refine .inl ⟨hz, ?_⟩
    unfold releaseRetiredHeadLocked
    split_ifs with he
    · rfl
    · simp only [hrun, hz, if_true]
  · refine .inr ⟨Nat.pos_of_ne_zero hz, ?_⟩
    have hne : b.retired ≠ ∅ := by
      intro he
      have hz' : q.headRun = 0 := by
        rw [← hrun]
        unfold AckBuffer.retiredRun AckBuffer.slotRetired
        rw [he]
        cases b.nextIndexFree with
        | zero => rfl
        | succ n => simp [List.range_succ_eq_map]
      exact hz hz'
    unfold releaseRetiredHeadLocked
    rw [if_neg hne]
    simp only [hrun, if_neg hz]

theorem Slots.releaseRetiredHeadLocked (hs : Slots b q) (bb : ByteBudget) :
    Slots (b.releaseRetiredHeadLocked bb).1 q.trim := by
  rcases hs.releaseRetiredHead_cases bb with ⟨hz, heq⟩ | ⟨hpos, heq⟩
  · rw [heq, Queue.trim_of_headRun hz]
    exact hs
  · have hs' : Slots (b.remember q.headRun) q := hs.congr rfl
    have hle := q.headRun_le_length
    rw [heq, Queue.trim_eq_remove hpos]
    exact (hs'.removePrefixLocked bb (by omega) fun _ => rfl).congr (dropReceiptsLocked_slotView _ _ _)

theorem Events.releaseRetiredHeadLocked (h : Events b q) (hs : Slots b q)
    (hn : q.next ≤ q.window.length) (bb : ByteBudget) :
    Events (b.releaseRetiredHeadLocked bb).1 q.trim := by
  rcases hs.releaseRetiredHead_cases bb with ⟨hz, heq⟩ | ⟨hpos, heq⟩
  · rw [heq, Queue.trim_of_headRun hz]
    exact h
  · have hs' : Slots (b.remember q.headRun) q := hs.congr rfl
    have hev : Events (b.remember q.headRun) q := h.congr rfl rfl
    have hev₁ := hev.removePrefixLocked (i := q.headRun - 1) (g := id) hs' hn bb
    obtain ⟨h₁, h₂⟩ := dropReceiptsLocked_events
      (b := ((b.remember q.headRun).removePrefixLocked bb (q.headRun - 1)).1) b.firstSeqNum
      (q.headRun - 1) false
    rw [heq, Queue.trim_eq_remove hpos]
    exact hev₁.congr h₁ h₂

theorem Chain.releaseRetiredHeadLocked (hc : Chain b q) (hs : Slots b q) (bb : ByteBudget) :
    Chain (b.releaseRetiredHeadLocked bb).1 q.trim := by
  rcases hs.releaseRetiredHead_cases bb with ⟨hz, heq⟩ | ⟨hpos, heq⟩
  · rw [heq, Queue.trim_of_headRun hz]
    exact hc
  · have hs' : Slots (b.remember q.headRun) q := hs.congr rfl
    have hc' : Chain (b.remember q.headRun) q := hc.congr rfl
    have hle := q.headRun_le_length
    rw [heq, Queue.trim_eq_remove hpos]
    exact (removePrefix_drop hs' hc' bb false (by omega) fun _ => rfl).2

theorem Slots.releaseRetiredHead_moves (hs : Slots b q) (bb : ByteBudget) :
    Moves (b, bb, q)
      ((b.releaseRetiredHeadLocked bb).1, (b.releaseRetiredHeadLocked bb).2, q.trim) := by
  rcases hs.releaseRetiredHead_cases bb with ⟨hz, heq⟩ | ⟨hpos, heq⟩
  · rw [heq, Queue.trim_of_headRun hz]
    exact Moves.refl _
  · have hs' : Slots (b.remember q.headRun) q := hs.congr rfl
    have hle := q.headRun_le_length
    have hremember : Moves (b, bb, q) (b.remember q.headRun, bb, q) := Moves.idle rfl
    have hremove := (Move.remove (b.remember q.headRun) bb q (q.headRun - 1) id hs' (by omega)
      fun _ => rfl).moves
    rw [heq, Queue.trim_eq_remove hpos]
    exact (hremember.trans hremove).trans (Moves.idle (dropReceiptsLocked_ledger _ _ _))

/-! ## Acknowledgement -/

theorem Shape.congr (h : Shape b q) (hs : b'.slotView = b.slotView)
    (h₁ : b'.isReadyToDeliver = b.isReadyToDeliver) (h₂ : b'.isEmpty = b.isEmpty) : Shape b' q :=
  ⟨h.slots.congr hs, h.events.congr h₁ h₂, h.next_le, h.window, h.gone, h.trimmed⟩

/-- Removing a confirmed prefix and the retired frames behind it needs no receipts. -/
theorem Shape.ackRemove (h : Shape b q) (bb : ByteBudget) (hi : i < q.window.length) :
    Shape (b.ackRemove bb i).1 (q.ack i) := by
  have hg : ∀ f : Frame Admission, f.confirm.item = f.item := fun f => Frame.confirm_item
  have hs := (h.slots.removePrefixLocked bb hi hg).congr
    (dropReceiptsLocked_slotView b.firstSeqNum i true)
  have hev := h.events.removePrefixLocked (i := i) (g := Frame.confirm) h.slots h.next_le bb
  obtain ⟨h₁, h₂⟩ := dropReceiptsLocked_events (b := (b.removePrefixLocked bb i).1) b.firstSeqNum i
    true
  have hn := h.next_le
  have hnext : (q.remove (i + 1) Frame.confirm).next ≤
      (q.remove (i + 1) Frame.confirm).window.length := by
    show q.next - (i + 1) ≤ (q.window.drop (i + 1)).length
    rw [List.length_drop]
    omega
  refine ⟨hs.releaseRetiredHeadLocked _, (hev.congr h₁ h₂).releaseRetiredHeadLocked hs hnext _,
    ?_, ?_, ?_, Queue.trimmed_ack⟩
  · show q.next - (i + 1) - _ ≤ ((q.window.drop (i + 1)).drop _).length
    rw [List.length_drop, List.length_drop]
    omega
  · intro x hx
    exact h.window x (List.mem_of_mem_drop (List.mem_of_mem_drop hx))
  · intro x hx
    have hx' : x ∈ (q.gone ++ (q.window.take (i + 1)).map Frame.confirm) ++
        (((q.remove (i + 1) Frame.confirm).window.take
          (q.remove (i + 1) Frame.confirm).headRun).map id) := hx
    rw [List.mem_append, List.mem_append, List.mem_map, List.map_id] at hx'
    rcases hx' with (hold | ⟨y, hy, rfl⟩) | hrun
    · exact h.gone x hold
    · rw [Frame.confirm_fate]
      split_ifs with hl
      · exact Fate.noConfusion
      · exact hl
    · rw [Queue.headRun_retired hrun]
      exact Fate.noConfusion

theorem Refines.ackRemove (h : Refines b q) (bb : ByteBudget) (hi : i < q.window.length) :
    Refines (b.ackRemove bb i).1 (q.ack i) := by
  have hshape := h.shape.ackRemove bb hi
  obtain ⟨hs, hc⟩ := removePrefix_drop h.slots h.chain bb true hi fun f => Frame.confirm_item
  refine ⟨hshape.slots, hc.releaseRetiredHeadLocked hs _, hshape.events, h.sane.ack,
    hshape.trimmed, ?_⟩
  intro f hf
  rw [Queue.frames_ack, List.mem_append, List.mem_append, List.mem_map] at hf
  rcases hf with (hf | ⟨y, hy, rfl⟩) | hf
  · exact h.limits f (List.mem_append_left _ hf)
  · rw [Frame.confirm_limit, Frame.confirm_item]
    exact h.limit_window (List.mem_of_mem_take hy)
  · exact h.limit_window (List.mem_of_mem_drop hf)

theorem Refines.ackRemove_moves (h : Refines b q) (bb : ByteBudget) (hi : i < q.window.length) :
    Moves (b, bb, q) ((b.ackRemove bb i).1, (b.ackRemove bb i).2, q.ack i) := by
  have hmoves := (removePrefix_drop h.slots h.chain bb true hi
    fun f => Frame.confirm_item).1.releaseRetiredHead_moves (b.removePrefixLocked bb i).2
  have hremove := (Move.remove b bb q i Frame.confirm h.slots hi fun f => Frame.confirm_item).moves
  exact (hremove.trans (Moves.idle (dropReceiptsLocked_ledger _ _ _))).trans hmoves

/-- `Ack` changes nothing, or it removes the slots up to the index of `seq`, which is in
the buffer and was delivered (the first slot is also accepted right after a reset). -/
inductive AckStep (b : AckBuffer) (bb : ByteBudget) (seq : Nat) :
    AckBuffer × ByteBudget × Option String → Prop where
  | rejected (err : String) : AckStep b bb seq (b, bb, some err)
  | late : b.ackReleased seq = true → AckStep b bb seq (b, bb, none)
  | removed (hfree : sub64 seq b.firstSeqNum < b.nextIndexFree)
      (hdel : sub64 seq b.firstSeqNum < b.nextIndexToDeliver ∨
        b.nextIndexToDeliver = 0 ∧ sub64 seq b.firstSeqNum = 0) :
      AckStep b bb seq ((b.ackRemove bb (sub64 seq b.firstSeqNum)).1,
        (b.ackRemove bb (sub64 seq b.firstSeqNum)).2, none)

theorem ackError_none {seq : Nat} (h : b.ackError seq = none) :
    sub64 seq b.firstSeqNum < b.nextIndexFree ∧
      (sub64 seq b.firstSeqNum < b.nextIndexToDeliver ∨
        b.nextIndexToDeliver = 0 ∧ sub64 seq b.firstSeqNum = 0) := by
  unfold ackError at h
  simp only at h
  split_ifs at h with h₁ h₂ h₃ h₄
  rw [not_or] at h₃
  refine ⟨by omega, ?_⟩
  by_cases hlt : sub64 seq b.firstSeqNum < b.nextIndexToDeliver
  · exact .inl hlt
  · right
    by_contra hne
    exact h₄ ⟨by omega, hne⟩

theorem ack_step (b : AckBuffer) (bb : ByteBudget) (seq : Nat) :
    AckStep b bb seq (b.ack bb seq) := by
  unfold ack
  split_ifs with hlate
  · exact .late hlate
  · cases herr : b.ackError seq with
    | some err => exact .rejected err
    | none =>
      obtain ⟨h₁, h₂⟩ := ackError_none herr
      exact .removed h₁ h₂

/-! ## Reset -/

theorem retireLocked_receiptView (bb : ByteBudget) (entry : EntryId) :
    (b.retireLocked bb i entry).1.receiptView = b.receiptView := rfl

theorem expire_of_not_exhausted (h : f.exhausted = false) : f.expire = f := by
  unfold Frame.expire
  rw [h]
  rfl

theorem expire_of_retired (h : f.retired = true) : f.expire = f := by
  have hfate : f.fate = .retired := of_decide_eq_true h
  unfold Frame.expire
  split_ifs
  · rw [← hfate]
  · rfl

theorem expire_of_exhausted (h : f.exhausted = true) : f.expire = retire f := by
  unfold Frame.expire
  rw [h]
  rfl

theorem Entry.exhausted {t : TrackedAdmission} (h : Entry t f) :
    exhausted t = f.exhausted := by
  unfold AckBuffer.exhausted Frame.exhausted
  by_cases hl : f.limit = 0
  · rw [h.max, hl]
    simp
  · rw [h.max, h.sends hl]

/-- A predicate is kept when a live frame is retired through its entry. -/
def KeptByRetire (P : Account → Prop) : Prop :=
  ∀ (b : AckBuffer) (bb : ByteBudget) (q : Queue Admission) (i : Nat) (entry : EntryId)
    (f : Frame Admission), Slots b q → q.window[i]? = some f → f.fate = .live →
    Entry (b.entryAt entry) f → P (b, bb, q) →
    P ((b.retireLocked bb i entry).1, (b.retireLocked bb i entry).2,
      { q with window := q.window.modify i retire })

/-- A frame that is exhausted and not retired yet is retired, any other stays. -/
theorem expire_of_kept (h : (f.exhausted && !f.retired) = false) : f.expire = f := by
  rcases Bool.and_eq_false_iff.1 h with hex | hret
  · exact expire_of_not_exhausted hex
  · exact expire_of_retired (by simpa using hret)

/-- Retiring a frame leaves the list of entries as it is. -/
theorem Chain.retireLocked (h : Chain b q) (bb : ByteBudget) (i : Nat) (entry : EntryId) :
    Chain (b.retireLocked bb i entry).1 { q with window := q.window.modify i retire } := by
  refine Chain.of_window (h.congr (retireLocked_receiptView bb entry))
    (map_modify_same Frame.item retire (fun _ => rfl) _ _) ?_
  intro k y z hy hz
  rw [List.getElem?_modify, hy] at hz
  rcases Option.some.inj hz with rfl
  split_ifs <;> exact ⟨rfl, rfl⟩

theorem entryOf_retire (i k : Nat) :
    entryOf { q with window := q.window.modify i retire } k = entryOf q k := by
  unfold entryOf
  congr 1
  refine trackedCount_congr ?_
  show List.map _ (List.take k (q.window.modify i retire)) = _
  rw [List.map_take, List.map_take, map_modify_same Frame.item retire fun _ => rfl]

/-- One round of the loop, at the entry of a tracked frame. -/
theorem Chain.resetLoop_step (hc : Chain b q) (hs : Slots b q) (hf : q.window[i]? = some f)
    (ht : tracked f = true) (fuel : Nat) (bb : ByteBudget) :
    resetLoop (fuel + 1) (ptr (entryOf q i) b.nextEntry) b bb =
      if f.exhausted && !f.retired then
        resetLoop fuel (ptr (entryOf q (i + 1)) b.nextEntry)
          (b.retireLocked bb i (entryOf q i)).1 (b.retireLocked bb i (entryOf q i)).2
      else resetLoop fuel (ptr (entryOf q (i + 1)) b.nextEntry) b bb := by
  have hlt := hc.entryOf_lt hf ht
  have he := hc.entries _ f hf ht
  have hnext : (b.entryAt (entryOf q i)).next = ptr (entryOf q (i + 1)) b.nextEntry := by
    rw [entryOf_succ hf, if_pos ht]
    exact hc.links _ le_entryOf hlt
  have hindex : sub64 (b.entryAt (entryOf q i)).seq b.firstSeqNum = i := by
    rw [he.seq]
    exact hs.index_at hf
  have hretired : decide ((b.entryAt (entryOf q i)).seq ∉ b.retired) = !f.retired := by
    rw [← hs.slotRetired hf, he.seq, hs.seq_at hf]
    unfold slotRetired
    exact decide_not
  have hround : resetLoop (fuel + 1) (some (entryOf q i)) b bb =
      let r := if exhausted (b.entryAt (entryOf q i)) &&
          decide ((b.entryAt (entryOf q i)).seq ∉ b.retired) then
        b.retireLocked bb (sub64 (b.entryAt (entryOf q i)).seq b.firstSeqNum) (entryOf q i)
      else (b, bb)
      resetLoop fuel (b.entryAt (entryOf q i)).next r.1 r.2 := rfl
  rw [ptr_of_lt hlt, hround, he.exhausted, hindex, hnext, hretired]
  split_ifs <;> rfl

/-- What the loop keeps: slots and entries describe the queue, and `P` holds. -/
structure Walked (P : Account → Prop) (r : AckBuffer × ByteBudget) (q : Queue Admission) : Prop where
  slots : Slots r.1 q
  chain : Chain r.1 q
  kept : P (r.1, r.2, q)

theorem Walked.retire {P : Account → Prop} {bb : ByteBudget} (h : Walked P (b, bb) q)
    (hP : KeptByRetire P) (hf : q.window[i]? = some f) (hlive : f.fate = .live) {entry : EntryId}
    (he : Entry (b.entryAt entry) f) :
    Walked P (b.retireLocked bb i entry) { q with window := q.window.modify i retire } :=
  ⟨h.slots.retireLocked bb hf he.seq, h.chain.retireLocked bb i entry,
    hP b bb q i entry f h.slots hf hlive he h.kept⟩

/-- The loop walks the entries of the frames in `suf` and retires the exhausted ones. -/
theorem resetLoop_rule {P : Account → Prop} (hP : KeptByRetire P) (suf : List (Frame Admission)) :
    ∀ (q : Queue Admission) (pre : List (Frame Admission)) (fuel : Nat) (b : AckBuffer)
      (bb : ByteBudget), q.window = pre ++ suf → Walked P (b, bb) q →
      (∀ f ∈ suf, f.limit = f.item.limit ∧ f.fate ≠ .confirmed) → trackedCount suf ≤ fuel →
      Walked P (resetLoop fuel (ptr (entryOf q pre.length) b.nextEntry) b bb)
        { q with window := pre ++ suf.map Frame.expire } := by
  -- the frames before the entry, `pre`, are done; fuel is needed for the tracked ones only
  induction suf with
  | nil =>
    intro q pre fuel b bb hw h _ _
    have hend : ptr (entryOf q pre.length) b.nextEntry = none := by
      refine ptr_of_le ?_
      rw [h.chain.count]
      unfold entryOf
      rw [hw, List.append_nil, List.take_length]
    have hsame : resetLoop fuel none b bb = (b, bb) := by cases fuel <;> rfl
    rw [hend, hsame, List.map_nil, ← hw]
    exact h
  | cons x suf ih =>
    intro q pre fuel b bb hw h hlim hfuel
    have hx : q.window[pre.length]? = some x := by
      rw [hw, List.getElem?_append_right le_rfl, Nat.sub_self]
      rfl
    have hlen : ∀ y : Frame Admission, (pre ++ [y]).length = pre.length + 1 := fun y =>
      List.length_append
    have hsplit : q.window = (pre ++ [x]) ++ suf := by
      rw [hw, List.append_assoc]
      rfl
    have hlim' : ∀ f ∈ suf, f.limit = f.item.limit ∧ f.fate ≠ .confirmed := fun f hf =>
      hlim f (List.mem_cons_of_mem _ hf)
    have hsucc := entryOf_succ (q := q) hx
    have hcount : trackedCount (x :: suf) = trackedCount suf + if tracked x then 1 else 0 := by
      unfold trackedCount
      exact List.countP_cons
    rw [List.map_cons]
    by_cases ht : tracked x = true
    · -- the entry of `x` is the next one in the list
      rw [if_pos ht] at hcount
      rcases Nat.exists_eq_add_one_of_ne_zero (n := fuel) (by omega) with ⟨fuel, rfl⟩
      rw [h.chain.resetLoop_step h.slots hx ht]
      split_ifs with hretire
      · rw [Bool.and_eq_true, Bool.not_eq_true'] at hretire
        have hlive : x.fate = .live := by
          cases hfate : x.fate with
          | live => rfl
          | confirmed => exact absurd hfate (hlim x List.mem_cons_self).2
          | retired => exact absurd hfate (of_decide_eq_false hretire.2)
        have hw' : q.window.modify pre.length retire = (pre ++ [retire x]) ++ suf := by
          rw [hw]
          simp [List.modify_eq_take_drop]
        have hrest := ih { q with window := q.window.modify pre.length retire } (pre ++ [retire x])
          fuel _ _ hw' (h.retire hP hx hlive (h.chain.entries _ x hx ht)) hlim' (by omega)
        rw [entryOf_retire, hlen, List.append_assoc] at hrest
        rw [expire_of_exhausted hretire.1]
        exact hrest
      · have hrest := ih q (pre ++ [x]) fuel b bb hsplit h hlim' (by omega)
        rw [hlen, List.append_assoc] at hrest
        rw [expire_of_kept (Bool.eq_false_iff.2 hretire)]
        exact hrest
    · -- an untracked frame has no entry and no limit
      rw [if_neg ht, Nat.add_zero] at hsucc hcount
      have hfix : x.expire = x := by
        refine expire_of_not_exhausted ?_
        by_contra hex
        rw [Bool.not_eq_false, Frame.exhausted_iff] at hex
        exact ht (tracked_of_limit (hlim x List.mem_cons_self).1 hex.1)
      have hrest := ih q (pre ++ [x]) fuel b bb hsplit h hlim' (by omega)
      rw [hlen, hsucc, List.append_assoc] at hrest
      rw [hfix]
      exact hrest

/-- Moving the delivery index touches no slot. -/
theorem Slots.at_next (h : Slots b q) (hv : b'.slotView = { b with nextIndexToDeliver := j }.slotView) :
    Slots b' { q with next := j } := by
  have hj : Slots { b with nextIndexToDeliver := j } { q with next := j } :=
    { first := h.first, nextSeq := h.nextSeq, free := h.free, next := rfl, buff := h.buff
      capacity := h.capacity, pos := h.pos, bound := h.bound, seqs := h.seqs
      retired := h.retired, available := h.available, sizes := h.sizes }
  exact hj.congr hv

/-- Moving the delivery index moves the cursor. -/
theorem Chain.at_next (h : Chain b q) (hhead : b'.receiptHead = b.receiptHead)
    (htail : b'.receiptTail = b.receiptTail) (hent : b'.entryAt = b.entryAt)
    (hcount : b'.nextEntry = b.nextEntry)
    (hcur : b'.deliverCursor = ptr (entryOf q j) b.nextEntry) :
    Chain b' { q with next := j } := by
  constructor
  · rw [hcount]
    exact h.count
  · rw [hhead, hcount]
    exact h.head
  · rw [htail, hcount]
    exact h.tail
  · rw [hent, hcount]
    exact h.links
  · rw [hent]
    exact h.entries
  · rw [hcount]
    exact hcur

/-- The buffer `ResetDelivery` starts its loop with. -/
def rewound (b : AckBuffer) : AckBuffer :=
  { b with nextIndexToDeliver := 0, deliverCursor := b.receiptHead }

/-- The loop of `ResetDelivery` expires the whole window. -/
theorem Refines.resetLoop (h : Refines b q) (bb : ByteBudget) {P : Account → Prop}
    (hP : KeptByRetire P) (hp : P (b.rewound, bb, { q with next := 0 })) :
    Walked P (resetLoop b.nextEntry b.receiptHead b.rewound bb)
      (Queue.expireAll { q with next := 0 }) := by
  have hs₀ : Slots b.rewound { q with next := 0 } := h.slots.at_next rfl
  have hc₀ : Chain b.rewound { q with next := 0 } := h.chain.at_next rfl rfl rfl rfl h.chain.head
  have hhead : b.receiptHead = ptr (entryOf { q with next := 0 } 0) b.rewound.nextEntry := hc₀.head
  have hfuel : trackedCount q.window ≤ b.nextEntry := by
    rw [h.chain.count]
    exact Nat.le_add_left _ _
  have hrule := resetLoop_rule hP q.window { q with next := 0 } [] b.nextEntry b.rewound bb rfl
    ⟨hs₀, hc₀, hp⟩ (fun f hf => ⟨h.limit_window hf, h.sane.window f hf⟩) hfuel
  rw [List.length_nil, ← hhead] at hrule
  exact hrule

theorem keptByRetire_moves (c : Account) : KeptByRetire (Moves c) :=
  fun b bb q i entry f hs hf hl he hm =>
    hm.trans (Move.retire b bb q i entry f hs hf hl he.seq).moves

theorem Refines.resetDelivery (h : Refines b q) (bb : ByteBudget) :
    Refines (b.resetDelivery bb).1 q.reset ∧
      Moves (b, bb, q) ((b.resetDelivery bb).1, (b.resetDelivery bb).2, q.reset) := by
  have hstart : Moves (b, bb, q) (b.rewound, bb, { q with next := 0 }) :=
    (Move.idle b b.rewound bb q { q with next := 0 } rfl rfl rfl).moves
  -- the walk retires what had its last handoff, then the retired head goes
  obtain ⟨hs₁, hc₁, hm₁⟩ := h.resetLoop bb (keptByRetire_moves (b, bb, q)) hstart
  have hs₂ := hs₁.releaseRetiredHeadLocked
    (AckBuffer.resetLoop b.nextEntry b.receiptHead b.rewound bb).2
  have hc₂ := hc₁.releaseRetiredHeadLocked hs₁
    (AckBuffer.resetLoop b.nextEntry b.receiptHead b.rewound bb).2
  have hm₂ := hs₁.releaseRetiredHead_moves
    (AckBuffer.resetLoop b.nextEntry b.receiptHead b.rewound bb).2
  -- the events are written last, from the buffer the two loops left
  obtain ⟨b₁, hb₁⟩ : ∃ b₁, b₁ = ((AckBuffer.resetLoop b.nextEntry b.receiptHead b.rewound
    bb).1.releaseRetiredHeadLocked
      (AckBuffer.resetLoop b.nextEntry b.receiptHead b.rewound bb).2).1 := ⟨_, rfl⟩
  have hout : (b.resetDelivery bb).1 =
      { b₁ with
        isReadyToDeliver := decide (b₁.nextIndexToDeliver < b₁.nextIndexFree)
        isEmpty := decide (b₁.nextIndexToDeliver ≥ b₁.nextIndexFree) } := by
    rw [hb₁]
    rfl
  have hmoves : Moves (b, bb, q) ((b.resetDelivery bb).1, (b.resetDelivery bb).2, q.reset) := by
    have hsnd : (b.resetDelivery bb).2 = ((AckBuffer.resetLoop b.nextEntry b.receiptHead b.rewound
        bb).1.releaseRetiredHeadLocked
          (AckBuffer.resetLoop b.nextEntry b.receiptHead b.rewound bb).2).2 := rfl
    rw [hout, hsnd]
    refine (hm₁.trans hm₂).trans (Moves.idle ?_)
    rw [hb₁]
    rfl
  have hs₃ : Slots b₁ q.reset := by
    rw [hb₁]
    exact hs₂
  have hc₃ : Chain b₁ q.reset := by
    rw [hb₁]
    exact hc₂
  refine ⟨?_, hmoves⟩
  rw [hout]
  constructor
  · exact hs₃.congr rfl
  · exact hc₃.congr rfl
  · constructor
    · show decide (b₁.nextIndexToDeliver < b₁.nextIndexFree) = _
      rw [hs₃.next, hs₃.free]
    · show decide (b₁.nextIndexToDeliver ≥ b₁.nextIndexFree) =
        !decide (b₁.nextIndexToDeliver < b₁.nextIndexFree)
      rw [← decide_not]
      exact decide_eq_decide.2 Nat.not_lt.symm
  · exact h.sane.reset
  · exact Queue.trimmed_reset
  · -- a reset changes no limit
    intro f hf
    rw [Queue.frames_reset, List.mem_append, List.mem_map] at hf
    rcases hf with hf | ⟨y, hy, rfl⟩
    · exact h.limits f (List.mem_append_left _ hf)
    · rw [Frame.expire_limit, Frame.expire_item]
      exact h.limit_window hy

/-! ## Delivery -/

/-- The frame handed out for a stored message: the same, or with an acknowledgement
request while the buffer drains. -/
def Handed (running : Bool) (stored frame : DataMessage) : Prop :=
  frame = stored ∨ (running = false ∧ frame = { stored with ackRequested := true })

theorem handOut_frame (hf : b.buff.getD i none = some stored) :
    ∃ m, (b.handOut i).2 = some m ∧ Handed b.isRunning stored m := by
  unfold handOut
  simp only [hf]
  cases hrun : b.isRunning with
  | true =>
    simp only [Bool.not_true, Bool.false_and, Bool.false_eq_true, if_false]
    exact ⟨stored, rfl, .inl rfl⟩
  | false =>
    simp only [Bool.not_false, Bool.true_and]
    split_ifs
    · exact ⟨_, rfl, .inr ⟨rfl, rfl⟩⟩
    · exact ⟨stored, rfl, .inl rfl⟩

/-- A retired frame stays one where the marks stay. -/
theorem retired_of_mark {l l' : List (Frame Admission)} {seq : Nat}
    (hmark : l'.map mark = l.map mark)
    (h : ∃ (k : Nat) (f : Frame Admission), l[k]? = some f ∧ f.retired = true ∧
      f.item.stored.seqNum = seq) :
    ∃ (k : Nat) (f : Frame Admission), l'[k]? = some f ∧ f.retired = true ∧
      f.item.stored.seqNum = seq := by
  rcases h with ⟨k, f, hf, hr, hseq⟩
  rcases mark_at hmark hf with ⟨f', hf', hitem, hfate⟩
  refine ⟨k, f', hf', ?_, ?_⟩
  · unfold Frame.retired at hr ⊢
    rw [hfate]
    exact hr
  · rw [hitem]
    exact hseq

/-- Frames that keep item and fate fill the same slots. -/
theorem Slots.of_window (h : Slots b q) {window : List (Frame Admission)}
    (hmark : window.map mark = q.window.map mark) : Slots b { q with window := window } := by
  have hlen : window.length = q.window.length := by
    have hl := congrArg List.length hmark
    rwa [List.length_map, List.length_map] at hl
  have hitem := map_of_mark (φ := Frame.item) hmark Prod.fst fun _ => rfl
  have hitems : ({ q with window := window } : Queue Admission).items = q.items := by
    unfold Queue.items Queue.frames
    rw [List.map_append, List.map_append, hitem]
  have hslot := map_of_mark (φ := slot) hmark
    (fun p => some (if decide (p.2 = .retired) then { seqNum := p.1.stored.seqNum } else p.1.stored))
    fun _ => rfl
  have hheld := map_of_mark (φ := heldSize) hmark
    (fun p => if decide (p.2 = .retired) then 0 else p.1.size) fun _ => rfl
  constructor
  · exact h.first
  · rw [hitems]
    exact h.nextSeq
  · rw [h.free]
    exact hlen.symm
  · exact h.next
  · show Padded (window.map slot) b.buff
    rw [hslot]
    exact h.buff
  · exact h.capacity
  · exact h.pos
  · exact h.bound
  · rw [hitems]
    exact h.seqs
  · intro seq
    rw [h.retired]
    constructor
    · exact retired_of_mark hmark
    · exact retired_of_mark hmark.symm
  · rw [h.available]
    show _ = decide (window.length < b.currentCapacity)
    rw [hlen]
  · intro hacc
    show b.sizes = window.map heldSize
    rw [hheld]
    exact h.sizes hacc

theorem limited_some {c : EntryId} (hmax : (b.entryAt c).max ≠ 0) :
    b.limited (some c) = some c := by
  unfold limited
  rw [Option.filter_some, if_pos (decide_eq_true hmax)]

theorem limited_eq_none {c : EntryId} (hmax : (b.entryAt c).max = 0) :
    b.limited (some c) = none := by
  unfold limited
  rw [Option.filter_some, if_neg (by rw [hmax]; simp)]

/-- The fence stays shut for a frame that is not exhausted. -/
theorem fence_none {c : EntryId} (h : exhausted (b.entryAt c) = false) :
    b.fence (some c) = none := by
  unfold exhausted at h
  rw [decide_eq_false_iff_not] at h
  by_cases hmax : (b.entryAt c).max = 0
  · unfold fence
    rw [limited_eq_none hmax]
    rfl
  · unfold fence
    rw [limited_some hmax, Option.filter_some, if_neg]
    rw [decide_eq_true_eq]
    exact fun hge => h ⟨hmax, hge⟩

/-- Counting a handoff in the entry is counting it in the frame. -/
theorem Chain.countSend (h : Chain b q) (hf : q.window[j]? = some f)
    (hlim : f.limit = f.item.limit) :
    Chain (b.countSend (if tracked f then some (entryOf q j) else none))
      { q with window := q.window.modify j Frame.send } := by
  have hitems : (q.window.modify j Frame.send).map Frame.item = q.window.map Frame.item :=
    map_modify_same Frame.item Frame.send (fun _ => rfl) _ _
  -- the frame at `j` was sent once more, the others are as before
  have hmod : ∀ (k : Nat) x y, q.window[k]? = some x →
      (q.window.modify j Frame.send)[k]? = some y → (k = j ∧ x = f ∧ y = f.send) ∨ (k ≠ j ∧ y = x) := by
    intro k x y hx hy
    rw [List.getElem?_modify, hx] at hy
    cases hy
    by_cases hjk : j = k
    · subst hjk
      rw [hf] at hx
      cases hx
      exact .inl ⟨rfl, rfl, if_pos rfl⟩
    · exact .inr ⟨Ne.symm hjk, if_neg hjk⟩
  by_cases hl : f.limit = 0
  · -- an unlimited frame is not counted
    have hsame : b.countSend (if tracked f then some (entryOf q j) else none) = b := by
      unfold AckBuffer.countSend
      split_ifs with ht
      · rw [limited_eq_none (by rw [(h.entries j f hf ht).max, hl])]
      · rfl
    rw [hsame]
    refine h.of_entries hitems rfl rfl rfl rfl (fun _ => rfl) ?_
    intro k x y hx hy _ _ he
    rcases hmod k x y hx hy with ⟨rfl, rfl, rfl⟩ | ⟨-, rfl⟩
    · exact ⟨he.seq, he.max, fun hne => absurd hl hne, he.receipt⟩
    · exact he
  · have ht := tracked_of_limit hlim hl
    have hcount : b.countSend (some (entryOf q j)) = { b with
        entryAt := update b.entryAt (entryOf q j)
          { b.entryAt (entryOf q j) with sends := (b.entryAt (entryOf q j)).sends + 1 } } := by
      unfold AckBuffer.countSend
      rw [limited_some (by rw [(h.entries j f hf ht).max]; exact hl)]
    rw [if_pos ht, hcount]
    refine h.of_entries hitems rfl rfl rfl rfl ?_ ?_
    · intro x
      show (update b.entryAt _ _ x).next = _
      by_cases hx : x = entryOf q j
      · rw [hx, update_self]
      · rw [update_of_ne hx]
    · intro k x y hx hy _ htx he
      show Entry (update b.entryAt _ _ (entryOf q k)) y
      rcases hmod k x y hx hy with ⟨rfl, rfl, rfl⟩ | ⟨hne, rfl⟩
      · rw [update_self]
        refine ⟨he.seq, he.max, fun _ => ?_, he.receipt⟩
        show (b.entryAt (entryOf q k)).sends + 1 = x.sends + 1
        rw [he.sends hl]
      · -- two tracked frames have two entries
        have hent : entryOf q k ≠ entryOf q j := by
          intro heq
          rcases lt_or_gt_of_ne hne with hlt | hgt
          · have := (lt_entryOf_iff hx htx).2 hlt
            omega
          · have := (lt_entryOf_iff hf ht).2 hgt
            omega
        rw [update_of_ne hent]
        exact he

/-- What a delivery is: the frame at the target index, if there is one. -/
structure Delivered (b : AckBuffer) (q : Queue Admission) (r : AckBuffer × ByteBudget × Handoff)
    (bb : ByteBudget) : Prop where
  slots : Slots r.1 q.deliver
  events : Events r.1 q.deliver
  ledger : r.1.ledger = b.ledger
  bb : r.2.1 = bb
  frame : match q.window[q.target]? with
    | some f => ∃ m, r.2.2.frame = some m ∧ Handed b.isRunning f.item.stored m
    | none => r.2.2.frame = none

theorem Slots.handOut (h : Slots b { q with next := j }) (entry : Option EntryId) :
    Slots ((b.countSend entry).handOut j).1
      { q with window := q.window.modify j Frame.send, next := j + 1 } := by
  have hview : ((b.countSend entry).handOut j).1.slotView =
      { b with nextIndexToDeliver := j + 1 }.slotView := by
    unfold countSend
    cases b.limited entry <;> rfl
  have hslots : Slots b { q with window := q.window.modify j Frame.send, next := j } :=
    h.of_window (map_modify_same mark Frame.send (fun _ => rfl) _ _)
  exact hslots.at_next hview

theorem deliver_of_lt (h : q.target < q.window.length) : q.deliver =
    { q with window := q.window.modify q.target Frame.send, next := q.target + 1 } := by
  unfold Queue.deliver
  rw [if_pos h]

theorem deliver_of_le (h : q.window.length ≤ q.target) : q.deliver = { q with next := q.target } := by
  unfold Queue.deliver
  rw [if_neg (by omega)]

/-- Every slot was delivered or skipped. -/
theorem Slots.deliveredAll (hs : Slots b' { q with next := q.target })
    (hle : q.window.length ≤ q.target) (hled : b'.ledger = b.ledger) (bb : ByteBudget)
    (fenced : Bool) : Delivered b q (b'.deliveredAll, bb, ⟨none, fenced⟩) bb := by
  refine ⟨?_, ?_, hled, rfl, ?_⟩
  · rw [deliver_of_le hle]
    exact hs.congr rfl
  · rw [deliver_of_le hle]
    constructor
    · exact (decide_eq_false (by show ¬ q.target < q.window.length; omega)).symm
    · rfl
  · rw [List.getElem?_eq_none hle]

/-- The slot at the target index is handed out. -/
theorem Slots.delivered (hs : Slots b' { q with next := q.target }) (hf : q.window[q.target]? = some f)
    (hready : b'.isReadyToDeliver = true) (hempty : b'.isEmpty = false)
    (hled : b'.ledger = b.ledger) (entry : Option EntryId) (bb : ByteBudget) (fenced : Bool) :
    Delivered b q (((b'.countSend entry).handOut q.target).1, bb,
      ⟨((b'.countSend entry).handOut q.target).2, fenced⟩) bb := by
  have hlt := (List.getElem?_eq_some_iff.1 hf).1
  have hnr := Queue.target_not_retired hf
  -- counting the handoff changes only the entry
  have hkeep : (b'.countSend entry).isRunning = b.isRunning ∧
      (b'.countSend entry).isReadyToDeliver = true ∧ (b'.countSend entry).isEmpty = false ∧
      (b'.countSend entry).nextIndexFree = q.window.length ∧
      (b'.countSend entry).buff = b'.buff := by
    have hrun : b'.isRunning = b.isRunning := by
      have hr := congrArg isRunning hled
      exact hr
    unfold countSend
    cases limited _ entry <;> exact ⟨hrun, hready, hempty, hs.free, rfl⟩
  obtain ⟨hrun₂, hready₂, hempty₂, hfree₂, hbuff₂⟩ := hkeep
  have hlen : (q.window.modify q.target Frame.send).length = q.window.length :=
    List.length_modify _ _ _
  refine ⟨?_, ?_, ?_, rfl, ?_⟩
  · rw [deliver_of_lt hlt]
    exact hs.handOut entry
  · rw [deliver_of_lt hlt]
    constructor
    · show (if q.target + 1 ≥ (b'.countSend entry).nextIndexFree then false
        else (b'.countSend entry).isReadyToDeliver) =
        decide (q.target + 1 < (q.window.modify q.target Frame.send).length)
      rw [hfree₂, hready₂, hlen]
      split_ifs with hge
      · exact (decide_eq_false (by omega)).symm
      · exact (decide_eq_true (by omega)).symm
    · show (if q.target + 1 ≥ (b'.countSend entry).nextIndexFree then true
        else (b'.countSend entry).isEmpty) =
        !(if q.target + 1 ≥ (b'.countSend entry).nextIndexFree then false
        else (b'.countSend entry).isReadyToDeliver)
      rw [hready₂, hempty₂]
      split_ifs <;> rfl
  · -- neither does it touch bytes or window
    rw [← hled]
    unfold countSend
    cases limited _ entry <;> rfl
  · rw [hf]
    have hstored : (b'.countSend entry).buff.getD q.target none = some f.item.stored := by
      rw [hbuff₂, hs.getD hf]
      unfold slot
      rw [hnr]
      rfl
    obtain ⟨m, hm, hh⟩ := handOut_frame hstored
    rw [hrun₂] at hh
    exact ⟨m, hm, hh⟩

/-- A call that retired a frame at the fence says so. -/
theorem deliverLoop_fenced (fuel : Nat) (b : AckBuffer) (bb : ByteBudget) :
    (deliverLoop fuel b bb true).2.2.fenced = true := by
  induction fuel generalizing b bb with
  | zero => rfl
  | succ fuel ih =>
    unfold deliverLoop
    by_cases hlt : b.nextIndexToDeliver < b.nextIndexFree
    · rw [if_pos hlt]
      simp only
      generalize b.takeCursor b.nextIndexToDeliver = r
      obtain ⟨b₁, entry⟩ := r
      simp only
      by_cases hret : b₁.slotRetired b.nextIndexToDeliver = true
      · rw [if_pos hret]
        exact ih _ _
      · rw [if_neg hret]
        cases b₁.fence entry with
        | some c => exact ih _ _
        | none => rfl
    · rw [if_neg hlt]

/-- Taking the cursor changes nothing but the cursor. -/
theorem takeCursor_eq (index : Nat) :
    ∃ cursor, (b.takeCursor index).1 = { b with deliverCursor := cursor } := by
  unfold takeCursor
  cases b.deliverCursor with
  | none => exact ⟨b.deliverCursor, rfl⟩
  | some c =>
    simp only
    split_ifs
    · exact ⟨_, rfl⟩
    · exact ⟨b.deliverCursor, rfl⟩

/-- A delivery that does not reach the fence hands out the first slot that is not
retired. -/
theorem deliverLoop_slots (hn : q.next ≤ q.window.length) (bb : ByteBudget) (fuel : Nat) :
    ∀ (j : Nat) (s : AckBuffer), q.next ≤ j → j ≤ q.target → q.window.length ≤ j + fuel →
      s.ledger = b.ledger → s.isReadyToDeliver = true → s.isEmpty = false →
      Slots s { q with next := j } → (deliverLoop fuel s bb false).2.2.fenced = false →
      Delivered b q (deliverLoop fuel s bb false) bb := by
  have htarget := Queue.target_le hn
  induction fuel with
  | zero =>
    intro j s _ hjt hfuel hled _ _ hs _
    obtain rfl : j = q.target := by omega
    exact hs.deliveredAll (by omega) hled bb false
  | succ fuel ih =>
    intro j s hj hjt hfuel hled hready hempty hs hfenced
    have hfree : s.nextIndexFree = q.window.length := hs.free
    have hnext : s.nextIndexToDeliver = j := hs.next
    -- `j` runs over the retired slots up to the target
    unfold deliverLoop at hfenced ⊢
    by_cases hlt : j < q.window.length
    · obtain ⟨f, hf⟩ : ∃ f, q.window[j]? = some f := ⟨_, List.getElem?_eq_getElem hlt⟩
      obtain ⟨cursor, htake⟩ := takeCursor_eq (b := s) j
      rw [hnext, hfree, if_pos hlt] at hfenced ⊢
      simp only at hfenced ⊢
      generalize s.takeCursor j = r at htake hfenced ⊢
      obtain ⟨s₁, entry⟩ := r
      simp only at htake hfenced ⊢
      have hslots₁ : Slots s₁ { q with next := j } := by
        rw [htake]
        exact hs.congr rfl
      have hkeep : s₁.ledger = b.ledger ∧ s₁.isReadyToDeliver = true ∧ s₁.isEmpty = false := by
        rw [htake]
        exact ⟨hled, hready, hempty⟩
      obtain ⟨hled₁, hready₁, hempty₁⟩ := hkeep
      have hret : s₁.slotRetired j = f.retired := hslots₁.slotRetired hf
      by_cases hjt' : j < q.target
      · -- a retired slot is skipped
        rw [hret, Queue.retired_of_skipped hj hjt' hf, if_pos rfl] at hfenced ⊢
        exact ih (j + 1) _ (by omega) hjt' (by omega) hled₁ hready₁ hempty₁
          (hslots₁.at_next rfl) hfenced
      · -- the frame to deliver; behind the fence the call would say so
        obtain rfl : j = q.target := by omega
        rw [hret, Queue.target_not_retired hf, if_neg Bool.false_ne_true] at hfenced ⊢
        cases hfence : s₁.fence entry with
        | some c =>
          simp only [hfence, deliverLoop_fenced] at hfenced
          cases hfenced
        | none => exact hslots₁.delivered hf hready₁ hempty₁ hled₁ entry bb false
    · obtain rfl : j = q.target := by omega
      rw [hnext, hfree, if_neg hlt]
      exact hs.deliveredAll (by omega) hled bb false

/-- The cursor finds the entry of every slot on the way, so the fence stays shut and the
handoff is counted. -/
theorem deliverLoop_chain (hsane : q.Sane) (hlim : ∀ f ∈ q.window, f.limit = f.item.limit)
    (bb : ByteBudget) (fuel : Nat) : ∀ (j : Nat) (s : AckBuffer), q.next ≤ j → j ≤ q.target →
      q.window.length ≤ j + fuel → Slots s { q with next := j } → Chain s { q with next := j } →
      (deliverLoop fuel s bb false).2.2.fenced = false ∧
        Chain (deliverLoop fuel s bb false).1 q.deliver := by
  have htarget := Queue.target_le hsane.next_le
  -- every slot was delivered or skipped
  have hend : ∀ (s : AckBuffer), q.window.length ≤ q.target → Chain s { q with next := q.target } →
      Chain s.deliveredAll q.deliver := by
    intro s hle hc
    rw [deliver_of_le hle]
    exact hc.congr rfl
  induction fuel with
  | zero =>
    intro j s _ hjt hfuel _ hc
    obtain rfl : j = q.target := by omega
    exact ⟨rfl, hend s (by omega) hc⟩
  | succ fuel ih =>
    intro j s hj hjt hfuel hs hc
    have hfree : s.nextIndexFree = q.window.length := hs.free
    have hnext : s.nextIndexToDeliver = j := hs.next
    unfold deliverLoop
    by_cases hlt : j < q.window.length
    · obtain ⟨f, hf⟩ : ∃ f, q.window[j]? = some f := ⟨_, List.getElem?_eq_getElem hlt⟩
      have htake := hc.takeCursor hs hf
      obtain ⟨s₁, hs₁⟩ : ∃ s₁, s₁ = { s with deliverCursor := ptr (entryOf q (j + 1)) s.nextEntry } :=
        ⟨_, rfl⟩
      rw [hnext, hfree, if_pos hlt]
      simp only [htake, ← hs₁]
      have hslots₁ : Slots s₁ { q with next := j } := by
        rw [hs₁]
        exact hs.congr rfl
      have hchain₁ : ∀ n, Chain { s₁ with nextIndexToDeliver := n } { q with next := j + 1 } := by
        intro n
        rw [hs₁]
        exact hc.at_next (j := j + 1) rfl rfl rfl rfl rfl
      have hret : s₁.slotRetired j = f.retired := hslots₁.slotRetired hf
      by_cases hjt' : j < q.target
      · -- a retired slot is skipped
        rw [hret, Queue.retired_of_skipped hj hjt' hf, if_pos rfl]
        exact ih (j + 1) _ (by omega) hjt' (by omega) (hslots₁.at_next rfl) (hchain₁ _)
      · -- the frame to deliver
        obtain rfl : j = q.target := by omega
        have hnr := Queue.target_not_retired hf
        rw [hret, hnr, if_neg Bool.false_ne_true]
        have hmem := List.mem_of_getElem? hf
        have hfresh : f.exhausted = false := by
          refine hsane.fresh f (List.mem_of_getElem? (i := q.target - q.next) ?_)
            (hsane.live_of_mem hmem hnr)
          rw [List.getElem?_drop, show q.next + (q.target - q.next) = q.target by omega]
          exact hf
        have hfence : s₁.fence (if tracked f then some (entryOf q q.target) else none) = none := by
          split_ifs with ht
          · refine fence_none ?_
            have hentry : Entry (s₁.entryAt (entryOf q q.target)) f := by
              rw [hs₁]
              exact hc.entries q.target f hf ht
            rw [hentry.exhausted, hfresh]
          · rfl
        rw [hfence]
        simp only
        have hc₁ : Chain s₁ { q with next := q.target + 1 } := hchain₁ _
        rw [deliver_of_lt hlt]
        exact ⟨trivial, (hc₁.countSend hf (hlim f hmem)).congr rfl⟩
    · obtain rfl : j = q.target := by omega
      rw [hnext, hfree, if_neg hlt]
      exact ⟨rfl, hend s (by omega) hc⟩

/-- With nothing to deliver the call returns at once. -/
theorem getNextToDeliver_done (hev : Events b q) (hn : q.next ≤ q.window.length)
    (hge : q.window.length ≤ q.next) (bb : ByteBudget) :
    b.getNextToDeliver bb = (b, bb, ⟨none, false⟩) ∧ q.deliver = q ∧ q.window[q.target]? = none := by
  have hready := hev.ready
  rw [decide_eq_false (by omega)] at hready
  have htarget : q.target = q.next := by
    have h₁ := Queue.le_target (q := q)
    have h₂ := Queue.target_le hn
    omega
  refine ⟨?_, ?_, List.getElem?_eq_none (by omega)⟩
  · unfold getNextToDeliver
    rw [hready, Bool.not_false, if_pos rfl]
  · rw [deliver_of_le (by omega), htarget]

/-- Otherwise it enters the loop. -/
theorem getNextToDeliver_loop (hs : Slots b q) (hev : Events b q)
    (hlt : q.next < q.window.length) (bb : ByteBudget) : b.isReadyToDeliver = true ∧
      b.isEmpty = false ∧
      b.getNextToDeliver bb = deliverLoop (q.window.length - q.next) b bb false := by
  have hready := hev.ready
  have hempty := hev.empty
  rw [decide_eq_true hlt] at hready
  rw [hready] at hempty
  refine ⟨hready, hempty, ?_⟩
  unfold getNextToDeliver
  rw [hready, if_neg (by simp), hs.free, hs.next]

/-- A `GetNextToDeliver` that does not reach the fence is a delivery. -/
theorem getNextToDeliver_slots (hs : Slots b q) (hev : Events b q) (hn : q.next ≤ q.window.length)
    (bb : ByteBudget) (hfenced : (b.getNextToDeliver bb).2.2.fenced = false) :
    Delivered b q (b.getNextToDeliver bb) bb := by
  by_cases hlt : q.next < q.window.length
  · obtain ⟨hready, hempty, heq⟩ := getNextToDeliver_loop hs hev hlt bb
    rw [heq] at hfenced ⊢
    exact deliverLoop_slots hn bb _ q.next b le_rfl Queue.le_target (by omega) rfl hready hempty hs
      hfenced
  · obtain ⟨heq, hdel, hnone⟩ := getNextToDeliver_done hev hn (by omega) bb
    rw [heq]
    refine ⟨hdel.symm ▸ hs, hdel.symm ▸ hev, rfl, rfl, ?_⟩
    rw [hnone]

/-- `GetNextToDeliver` delivers from the queue, and its fence is never reached. -/
theorem Refines.getNextToDeliver (h : Refines b q) (bb : ByteBudget) :
    Refines (b.getNextToDeliver bb).1 q.deliver ∧
      (b.getNextToDeliver bb).1.ledger = b.ledger ∧ (b.getNextToDeliver bb).2.1 = bb ∧
      (b.getNextToDeliver bb).2.2.fenced = false ∧
      match q.window[q.target]? with
      | some f => ∃ m, (b.getNextToDeliver bb).2.2.frame = some m ∧
          Handed b.isRunning f.item.stored m
      | none => (b.getNextToDeliver bb).2.2.frame = none := by
  have hlimits : ∀ f ∈ q.deliver.frames, f.limit = f.item.limit := by
    intro f hf
    rw [Queue.frames_deliver] at hf
    split_ifs at hf
    · rcases List.mem_append.1 hf with hold | hnew
      · exact h.limits f (List.mem_append_left _ hold)
      · obtain ⟨k, hk⟩ := List.mem_iff_getElem?.1 hnew
        rw [List.getElem?_modify] at hk
        cases hx : q.window[k]? with
        | none => simp [hx] at hk
        | some x =>
          rw [hx] at hk
          cases hk
          have hlx := h.limit_window (List.mem_of_getElem? hx)
          split_ifs
          · exact hlx
          · exact hlx
    · exact h.limits f hf
  have hchain : (b.getNextToDeliver bb).2.2.fenced = false ∧
      Chain (b.getNextToDeliver bb).1 q.deliver := by
    by_cases hlt : q.next < q.window.length
    · rw [(getNextToDeliver_loop h.slots h.events hlt bb).2.2]
      exact deliverLoop_chain h.sane (fun f hf => h.limit_window hf) bb _ q.next b le_rfl
        Queue.le_target (by omega) h.slots h.chain
    · obtain ⟨heq, hdel, -⟩ := getNextToDeliver_done h.events h.sane.next_le (by omega) bb
      rw [heq, hdel]
      exact ⟨rfl, h.chain⟩
  have hdone := getNextToDeliver_slots h.slots h.events h.sane.next_le bb hchain.1
  exact ⟨⟨hdone.slots, hchain.2, hdone.events, h.sane.deliver, Queue.trimmed_deliver h.trimmed,
    hlimits⟩, hdone.ledger, hdone.bb, hchain.1, hdone.frame⟩

/-! ## Without the receipts -/

/-- A delivery that does not reach the fence needs no receipts. -/
theorem Shape.getNextToDeliver (h : Shape b q) (bb : ByteBudget)
    (hfenced : (b.getNextToDeliver bb).2.2.fenced = false) :
    Shape (b.getNextToDeliver bb).1 q.deliver := by
  have hdone := getNextToDeliver_slots h.slots h.events h.next_le bb hfenced
  have hmem : ∀ x ∈ q.deliver.window, ∃ y ∈ q.window, x.fate = y.fate := by
    intro x hx
    unfold Queue.deliver at hx
    split_ifs at hx
    · obtain ⟨k, hk⟩ := List.mem_iff_getElem?.1 hx
      rw [List.getElem?_modify] at hk
      cases hy : q.window[k]? with
      | none => simp [hy] at hk
      | some y =>
        rw [hy] at hk
        cases hk
        refine ⟨y, List.mem_of_getElem? hy, ?_⟩
        split_ifs <;> rfl
    · exact ⟨x, hx, rfl⟩
  refine ⟨hdone.slots, hdone.events, ?_, ?_, ?_, Queue.trimmed_deliver h.trimmed⟩
  · have hle := Queue.target_le h.next_le
    unfold Queue.deliver
    split_ifs with hlt
    · show q.target + 1 ≤ (q.window.modify _ _).length
      rw [List.length_modify]
      exact hlt
    · exact hle
  · intro x hx
    obtain ⟨y, hy, hfate⟩ := hmem x hx
    rw [hfate]
    exact h.window y hy
  · have hgone : q.deliver.gone = q.gone := by
      unfold Queue.deliver
      split_ifs <;> rfl
    rw [hgone]
    exact h.gone

end AckBuffer

end UspClient
