import UspClient.Buffer.Receipts

/-!
# The whole life of a buffer

`Client.Close` ends by detaching the receipt metadata (`releaseReceiptTracking`). The
buffer was closed before, so no admission follows, and from then on no entry is ever in
the list again: `Detached` is what is left of the refinement. Acknowledgement and delivery
work on as before; a reset rewinds the delivery and retires nothing.

A run of `lifeMachine` may call any method in any order and release the metadata at any
time after admission was sealed. `Life.step` says which operation of the queue each call
is.
-/

namespace UspClient

open Word64 Replay AckBuffer

namespace AckBuffer

variable {b b' : AckBuffer} {q : Queue Admission} {f : Frame Admission} {i j k : Nat}
variable {bb : ByteBudget}

/-! ## Without receipt metadata -/

/-- The pointers to the receipt metadata, and whether adds are accepted. -/
def trackingView (b : AckBuffer) : Option Nat × Option Nat × Option Nat × Bool :=
  (b.receiptHead, b.receiptTail, b.deliverCursor, b.isRunning)

/-- A sealed buffer whose metadata was released. -/
structure Detached (b : AckBuffer) (q : Queue Admission) : Prop extends Shape b q where
  detached : b.trackingView = (none, none, none, false)

theorem dropReceiptsLocked_detached (h : b.trackingView = (none, none, none, false))
    (first index : Nat) (acknowledge : Bool) :
    (b.dropReceiptsLocked first index acknowledge).trackingView = (none, none, none, false) := by
  have hhead : b.receiptHead = none := congrArg Prod.fst h
  have hloop : dropLoop first index acknowledge b.nextEntry b false = (b, false) := by
    cases b.nextEntry with
    | zero => rfl
    | succ n =>
      unfold dropLoop
      rw [hhead]
  unfold dropReceiptsLocked
  rw [hloop]
  simp only [hhead, if_true, Bool.false_eq_true, if_false]
  simp only [trackingView, Prod.mk.injEq] at h
  show (none, none, b.deliverCursor, b.isRunning) = _
  rw [h.2.2.1, h.2.2.2]

theorem removePrefixLocked_trackingView (i : Nat) (bb : ByteBudget) :
    (b.removePrefixLocked bb i).1.trackingView = b.trackingView := rfl

theorem remember_trackingView (n : Nat) : (b.remember n).trackingView = b.trackingView := rfl

theorem releaseRetiredHead_detached (hs : Slots b q)
    (h : b.trackingView = (none, none, none, false)) :
    (b.releaseRetiredHeadLocked bb).1.trackingView = (none, none, none, false) := by
  rcases hs.releaseRetiredHead_cases bb with ⟨-, heq⟩ | ⟨-, heq⟩
  · rw [heq]
    exact h
  · rw [heq]
    rw [← remember_trackingView q.headRun, ← removePrefixLocked_trackingView (q.headRun - 1) bb] at h
    exact dropReceiptsLocked_detached h _ _ _

theorem ackRemove_detached (hs : Slots b q) (hi : i < q.window.length)
    (h : b.trackingView = (none, none, none, false)) (bb : ByteBudget) :
    (b.ackRemove bb i).1.trackingView = (none, none, none, false) := by
  have hs' := (hs.removePrefixLocked bb hi fun f => Frame.confirm_item).congr
    (dropReceiptsLocked_slotView b.firstSeqNum i true)
  rw [← removePrefixLocked_trackingView i bb] at h
  exact releaseRetiredHead_detached hs' (dropReceiptsLocked_detached h _ _ _)

/-- A round of `drain` may make the wake channel, nothing else. -/
theorem drainRound_views (ctxDone : Bool) : (b.drainRound ctxDone).1.slotView = b.slotView ∧
    (b.drainRound ctxDone).1.trackingView = b.trackingView ∧
    (b.drainRound ctxDone).1.isReadyToDeliver = b.isReadyToDeliver ∧
    (b.drainRound ctxDone).1.isEmpty = b.isEmpty := by
  unfold drainRound
  split_ifs
  · exact ⟨rfl, rfl, rfl, rfl⟩
  · cases b.drainReason ctxDone <;> exact ⟨rfl, rfl, rfl, rfl⟩

/-- Without a cursor no entry is found and no handoff is counted. -/
theorem deliverLoop_detached (fuel : Nat) (b : AckBuffer) (bb : ByteBudget)
    (h : b.trackingView = (none, none, none, false)) :
    (deliverLoop fuel b bb false).2.2.fenced = false ∧
      (deliverLoop fuel b bb false).1.trackingView = (none, none, none, false) := by
  induction fuel generalizing b with
  | zero => exact ⟨rfl, h⟩
  | succ fuel ih =>
    have hcursor : b.deliverCursor = none := congrArg (fun v => v.2.2.1) h
    have htake : b.takeCursor b.nextIndexToDeliver = (b, none) := by
      unfold takeCursor
      rw [hcursor]
    unfold deliverLoop
    by_cases hlt : b.nextIndexToDeliver < b.nextIndexFree
    · rw [if_pos hlt]
      simp only [htake]
      by_cases hret : b.slotRetired b.nextIndexToDeliver = true
      · rw [if_pos hret]
        exact ih _ h
      · rw [if_neg hret]
        exact ⟨rfl, h⟩
    · rw [if_neg hlt]
      exact ⟨rfl, h⟩

theorem getNextToDeliver_detached (bb : ByteBudget)
    (h : b.trackingView = (none, none, none, false)) :
    (b.getNextToDeliver bb).2.2.fenced = false ∧
      (b.getNextToDeliver bb).1.trackingView = (none, none, none, false) := by
  unfold getNextToDeliver
  split_ifs
  · exact ⟨rfl, h⟩
  · exact deliverLoop_detached _ _ _ h

theorem trimmed_headRun (h : q.Trimmed) : q.headRun = 0 := by
  unfold Queue.headRun
  cases hw : q.window with
  | nil => rfl
  | cons x l =>
    have hx := h x (by rw [hw]; rfl)
    rw [List.takeWhile_cons, hx]
    rfl

/-- Without entries a reset only rewinds the delivery. -/
theorem Detached.resetDelivery_eq (h : Detached b q) (bb : ByteBudget) :
    b.resetDelivery bb = ({ b.rewound with
      isReadyToDeliver := decide (b.rewound.nextIndexToDeliver < b.rewound.nextIndexFree)
      isEmpty := decide (b.rewound.nextIndexToDeliver ≥ b.rewound.nextIndexFree) }, bb) := by
  have hhead : b.receiptHead = none := congrArg Prod.fst h.detached
  have hs : Slots b.rewound { q with next := 0 } := h.slots.at_next rfl
  have htrim : Queue.Trimmed { q with next := 0 } := h.trimmed
  have hloop : resetLoop b.nextEntry none b.rewound bb = (b.rewound, bb) := by
    cases b.nextEntry <;> rfl
  have hrelease : b.rewound.releaseRetiredHeadLocked bb = (b.rewound, bb) := by
    rcases hs.releaseRetiredHead_cases bb with ⟨-, heq⟩ | ⟨hpos, -⟩
    · exact heq
    · rw [trimmed_headRun htrim] at hpos
      omega
  have hunfold : b.resetDelivery bb =
      let r := (resetLoop b.nextEntry b.receiptHead b.rewound bb).1.releaseRetiredHeadLocked
        (resetLoop b.nextEntry b.receiptHead b.rewound bb).2
      ({ r.1 with
          isReadyToDeliver := decide (r.1.nextIndexToDeliver < r.1.nextIndexFree)
          isEmpty := decide (r.1.nextIndexToDeliver ≥ r.1.nextIndexFree) }, r.2) := rfl
  rw [hunfold, hhead, hloop]
  simp only [hrelease]

theorem Detached.resetDelivery (h : Detached b q) (bb : ByteBudget) :
    Detached (b.resetDelivery bb).1 { q with next := 0 } := by
  have hs : Slots b.rewound { q with next := 0 } := h.slots.at_next rfl
  rw [h.resetDelivery_eq]
  refine ⟨⟨hs.congr rfl, ?_, Nat.zero_le _, h.window, h.gone, h.trimmed⟩, ?_⟩
  · constructor
    · show decide (b.rewound.nextIndexToDeliver < b.rewound.nextIndexFree) = _
      rw [hs.next, hs.free]
    · show decide (b.rewound.nextIndexToDeliver ≥ b.rewound.nextIndexFree) =
        !decide (b.rewound.nextIndexToDeliver < b.rewound.nextIndexFree)
      rw [← decide_not]
      exact decide_eq_decide.2 Nat.not_lt.symm
  · have hd := h.detached
    simp only [trackingView, Prod.mk.injEq] at hd ⊢
    exact ⟨hd.1, hd.2.1, hd.1, hd.2.2.2⟩

end AckBuffer

/-- The calls on one buffer over its whole life. -/
inductive LifeOp where
  | call (op : BufferOp)
  | releaseReceiptTracking

/-- A call and the shared budget it finds. -/
structure LifeAct where
  bb : ByteBudget
  op : LifeOp

namespace BufferState

/-- The metadata is released by `Client.Close`, which has closed the buffer before. -/
def Allows (s : BufferState) : LifeOp → Prop
  | .call op => s.Sized op
  | .releaseReceiptTracking => s.buf.isRunning = false

instance (s : BufferState) (op : LifeOp) : Decidable (s.Allows op) := by
  cases op <;> unfold Allows <;> infer_instance

def live (s : BufferState) (a : LifeAct) : BufferState :=
  match a.op with
  | .call op => (s.apply a.bb op).1
  | .releaseReceiptTracking => { s with buf := s.buf.releaseReceiptTracking }

end BufferState

def lifeMachine : Machine BufferState LifeAct where
  guard s a := s.Allows a.op
  next := BufferState.live

instance (s : BufferState) (a : LifeAct) : Decidable (lifeMachine.guard s a) :=
  inferInstanceAs (Decidable (s.Allows a.op))

abbrev LifeStep := Machine.Step BufferState LifeAct

namespace BufferState

variable {s s' s₀ : BufferState} {q q' : Queue Admission} {f : Frame Admission} {k : Nat}
variable {a : LifeAct} {tr : List LifeStep}

/-- A buffer with its receipt metadata, or after it was released. -/
structure Life (s : BufferState) (q : Queue Admission) : Prop where
  phase : Refines s.buf q ∨ Detached s.buf q
  items : q.items = s.log

theorem Life.held (h : Life s q) : Held s q := by
  refine ⟨?_, h.items⟩
  rcases h.phase with href | hdet
  · exact href.shape
  · exact hdet.toShape

/-- `GetNextToDeliver` never reaches its fence. -/
theorem Life.not_fenced (h : Life s q) (bb : ByteBudget) :
    (s.buf.getNextToDeliver bb).2.2.fenced = false := by
  rcases h.phase with href | hdet
  · exact (href.getNextToDeliver bb).2.2.2.1
  · exact (getNextToDeliver_detached bb hdet.detached).1

/-- What a call does to the queue. -/
inductive LifeMove (s : BufferState) (q : Queue Admission) (a : LifeAct) (s' : BufferState) :
    Queue Admission → Prop where
  | call (op : BufferOp) (q' : Queue Admission) : a.op = .call op →
      QueueStep s q ⟨a.bb, op⟩ s' q' → LifeMove s q a s' q'
  /-- A reset after the release. -/
  | rewind : a.op = .call .resetDelivery → s'.log = s.log → s'.handed = s.handed →
      LifeMove s q a s' { q with next := 0 }
  | release : a.op = .releaseReceiptTracking → s'.log = s.log → s'.handed = s.handed →
      LifeMove s q a s' q

/-- A sealed buffer refuses every add. -/
theorem apply_add_sealed (hrun : s.buf.isRunning = false) (bb : ByteBudget) (e : DataMessage)
    (size : Nat) (waiter : Option WaiterId) (receipt : Option ReceiptId) (m : UInt32) :
    (s.apply bb (.add e size waiter receipt m)).1 = s := by
  unfold apply addRound
  simp only [hrun, Bool.not_false, if_true]
  show { s with log := s.log ++ _ } = s
  rw [show (TryAdd.mk s.buf bb waiter none false).admission e size receipt m.toNat = none
    from rfl, Option.toList_none, List.append_nil]

/-- After the release every call is an operation of the queue too. -/
theorem detached_step (h : Detached s.buf q) (hitems : q.items = s.log) (bb : ByteBudget)
    (op : BufferOp) : ∃ q', LifeMove s q ⟨bb, .call op⟩ (s.apply bb op).1 q' ∧
      Detached (s.apply bb op).1.buf q' ∧ q'.items = (s.apply bb op).1.log := by
  have hrun : s.buf.isRunning = false := congrArg (fun v => v.2.2.2) h.detached
  -- calls that leave the slots and the metadata alone
  have hsame : ∀ b', b'.slotView = s.buf.slotView → b'.trackingView = s.buf.trackingView →
      b'.isReadyToDeliver = s.buf.isReadyToDeliver → b'.isEmpty = s.buf.isEmpty →
      Detached b' q ∧ q.items = s.log := fun b' h₁ h₂ h₃ h₄ =>
    ⟨⟨h.toShape.congr h₁ h₃ h₄, h₂.trans h.detached⟩, hitems⟩
  have hseal : s.buf.beginDrain.trackingView = s.buf.trackingView := by
    show (s.buf.receiptHead, s.buf.receiptTail, s.buf.deliverCursor, false) = _
    rw [← hrun]
    rfl
  cases op with
  | add e size waiter receipt m =>
    rw [apply_add_sealed hrun]
    exact ⟨q, .call _ _ rfl (.same rfl rfl BufferOp.noConfusion fun _ _ => rfl), h, hitems⟩
  | getNextToDeliver =>
    obtain ⟨hfence, htrack⟩ := getNextToDeliver_detached bb h.detached
    have hheld : Held s q := ⟨h.toShape, hitems⟩
    refine ⟨_, .call _ _ rfl (hheld.deliver_queue bb hfence),
      ⟨h.toShape.getNextToDeliver bb hfence, htrack⟩, ?_⟩
    rw [Queue.items_deliver, hitems]
    rfl
  | ack seq =>
    obtain ⟨q', hstep, hdet⟩ := ack_queue h.slots hitems bb seq h fun i hi =>
      ⟨h.toShape.ackRemove bb hi, ackRemove_detached h.slots hi h.detached bb⟩
    exact ⟨q', .call _ _ rfl hstep, hdet⟩
  | resetDelivery => exact ⟨_, .rewind rfl rfl rfl, h.resetDelivery bb, hitems⟩
  | updateCapacity c =>
    refine ⟨q, .call _ _ rfl (.same rfl rfl BufferOp.noConfusion fun _ h => BufferOp.noConfusion h),
      ⟨?_, ?_⟩, hitems⟩
    · obtain ⟨h₁, h₂⟩ := updateCapacity_events (b := s.buf) c.toNat
      exact ⟨h.slots.updateCapacity c.toNat_lt, h.events.congr h₁ h₂, h.next_le, h.window, h.gone,
        h.trimmed⟩
    · show (s.buf.updateCapacity c.toNat).trackingView = _
      rw [← h.detached]
      unfold updateCapacity
      split_ifs <;> rfl
  | beginDrain | close =>
    exact ⟨q, .call _ _ rfl (.same rfl rfl BufferOp.noConfusion fun _ h => BufferOp.noConfusion h),
      hsame _ rfl hseal rfl rfl⟩
  | drain first ctxDone =>
    refine ⟨q, .call _ _ rfl (.same rfl rfl BufferOp.noConfusion fun _ h => BufferOp.noConfusion h),
      ?_⟩
    show Detached (s.buf.drainSection first ctxDone).1 q ∧ q.items = s.log
    unfold drainSection
    split_ifs
    · obtain ⟨h₁, h₂, h₃, h₄⟩ := drainRound_views (b := s.buf.beginDrain) ctxDone
      exact hsame _ h₁ (h₂.trans hseal) h₃ h₄
    · obtain ⟨h₁, h₂, h₃, h₄⟩ := drainRound_views (b := s.buf) ctxDone
      exact hsame _ h₁ h₂ h₃ h₄

/-- Every call is one operation of the queue. -/
theorem Life.step (h : Life s q) (hg : s.Allows a.op) :
    ∃ q', LifeMove s q a (lifeMachine.next s a) q' ∧ Life (lifeMachine.next s a) q' := by
  obtain ⟨bb, op⟩ := a
  cases op with
  | call op =>
    rcases h.phase with href | hdet
    · obtain ⟨q', hstep, ht⟩ := Tracks.step ⟨href, h.items⟩ ⟨bb, op⟩
      exact ⟨q', .call op q' rfl hstep, .inl ht.refines, ht.items⟩
    · obtain ⟨q', hmove, hdet', hitems⟩ := detached_step hdet h.items bb op
      exact ⟨q', hmove, .inr hdet', hitems⟩
  | releaseReceiptTracking =>
    have hrun : s.buf.isRunning = false := hg
    have hshape : Shape s.buf.releaseReceiptTracking q := h.held.shape.congr rfl rfl rfl
    refine ⟨q, .release rfl rfl rfl, .inr ⟨hshape, ?_⟩, h.items⟩
    show (none, none, none, s.buf.isRunning) = _
    rw [hrun]

theorem FreshBuffer.life (hf : FreshBuffer s) : Life s {} := by
  obtain ⟨o, bb, hnew⟩ := hf.new
  exact ⟨.inl (newAckBuffer_refines hnew), hf.log.symm⟩

end BufferState

/-- A call with a budget that the buffer does not use. -/
def solo (op : BufferOp) : LifeAct := ⟨newByteBudget 0, .call op⟩

end UspClient
