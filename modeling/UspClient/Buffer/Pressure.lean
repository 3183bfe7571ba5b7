import UspClient.Buffer.Exact

/-!
# A byte budget below pressure

A buffer with a byte limit, or with a share of a legacy budget, keeps accounts that an admission
reads. While less than half of every limit is used they change no answer: `plain` forgets them,
and every call on the plain buffer gives the same answer and leaves the plain buffer of what the
call leaves.
-/

namespace UspClient

open Word64 AckBuffer

/-- What a call returns. A round of an add answers with the message as it was admitted, and with
the waiter of the next round. -/
inductive Answer where
  | added (round : AddRound) (stored : Option DataMessage) (waiter : Option WaiterId)
  | delivered (frame : Option DataMessage)
  | acked (err : Option String)
  | drained (round : DrainRound)
  | done

namespace AckBuffer

variable {b b' : AckBuffer} {bb bb' : ByteBudget}

/-- What a call on the buffer returns. -/
def answer (b : AckBuffer) (bb : ByteBudget) : LifeOp → Answer
  | .call (.add e size waiter receipt maxTransmissions) =>
    let r := b.addRound bb e size waiter receipt maxTransmissions.toNat
    .added r.2 r.1.stored r.1.waiter
  | .call .getNextToDeliver => .delivered (b.getNextToDeliver bb).2.2.frame
  | .call (.ack seq) => .acked (b.ack bb seq.toNat).2.2
  | .call (.drain first ctxDone) => .drained (b.drainSection first ctxDone).2
  | .call .resetDelivery | .call (.updateCapacity _) | .call .beginDrain | .call .close
  | .releaseReceiptTracking => .done

/-- The buffer as it is when `MaxBytes` is zero and no budget is shared. -/
def plain (b : AckBuffer) : AckBuffer :=
  { b with
    accounting := false
    maxBytes := 0
    shared := false
    group := none
    registered := false
    escapeSeq := 0
    escapeBytes := 0
    sizes := []
    bytes := 0
    bytesSinceFlag := 0 }

/-- Every new buffer is the plain one, settings apart. -/
theorem plain_newAckBuffer {o : AckBufferOptions} (h : (newAckBuffer o bb).2 = .ok b) :
    b.plain = {} := by
  obtain ⟨group, rfl⟩ := newAckBuffer_eq h
  rfl

/-! ## Every call but an add

None of them reads the accounts. -/

/-- The list of receipts does not know of bytes. -/
theorem plain_dropLoop (first index : Nat) (acknowledge : Bool) (fuel : Nat) :
    ∀ (b : AckBuffer) (removed : Bool), dropLoop first index acknowledge fuel b.plain removed =
      ((dropLoop first index acknowledge fuel b removed).1.plain,
        (dropLoop first index acknowledge fuel b removed).2) := by
  induction fuel with
  | zero => exact fun _ _ => rfl
  | succ fuel ih =>
    intro b removed
    have hhead : b.plain.receiptHead = b.receiptHead := rfl
    unfold dropLoop
    rw [hhead]
    cases b.receiptHead with
    | none => rfl
    | some entry =>
      by_cases h : sub64 (b.entryAt entry).seq first ≤ index
      · simp only
        rw [if_pos h, if_pos (show sub64 (b.plain.entryAt entry).seq first ≤ index from h)]
        refine Eq.trans ?_ (ih _ _)
        rfl
      · simp only
        rw [if_neg h, if_neg (show ¬ sub64 (b.plain.entryAt entry).seq first ≤ index from h)]

theorem plain_dropReceiptsLocked (b : AckBuffer) (first index : Nat) (acknowledge : Bool) :
    b.plain.dropReceiptsLocked first index acknowledge =
      (b.dropReceiptsLocked first index acknowledge).plain := by
  have hloop : dropLoop first index acknowledge b.plain.nextEntry b.plain false = _ :=
    plain_dropLoop first index acknowledge b.nextEntry b false
  unfold dropReceiptsLocked
  rw [hloop]
  obtain ⟨b', removed⟩ := dropLoop first index acknowledge b.nextEntry b false
  simp only
  have hhead : b'.plain.receiptHead = b'.receiptHead := rfl
  rw [hhead]
  split_ifs <;> rfl

theorem plain_releaseRetiredHeadLocked (b : AckBuffer) (bb bb' : ByteBudget) :
    (b.plain.releaseRetiredHeadLocked bb').1 = (b.releaseRetiredHeadLocked bb).1.plain := by
  have hretired : b.plain.retired = b.retired := rfl
  have hrun : b.plain.retiredRun = b.retiredRun := rfl
  unfold releaseRetiredHeadLocked
  simp only
  rw [hretired, hrun]
  split_ifs
  · rfl
  · rfl
  · refine Eq.trans ?_ (plain_dropReceiptsLocked _ _ _ _)
    rfl

theorem plain_ackRemove (b : AckBuffer) (bb bb' : ByteBudget) (index : Nat) :
    (b.plain.ackRemove bb' index).1 = (b.ackRemove bb index).1.plain := by
  unfold ackRemove
  simp only
  rw [← plain_releaseRetiredHeadLocked _ _ (b.plain.removePrefixLocked bb' index).2]
  have hdrop := plain_dropReceiptsLocked (b.removePrefixLocked bb index).1 b.firstSeqNum index true
  unfold ackReceiptsLocked
  rw [← hdrop]
  rfl

/-- An acknowledgement answers the same. -/
theorem plain_ack (b : AckBuffer) (bb bb' : ByteBudget) (seq : Nat) :
    (b.plain.ack bb' seq).1 = (b.ack bb seq).1.plain ∧
      (b.plain.ack bb' seq).2.2 = (b.ack bb seq).2.2 := by
  have hreleased : b.plain.ackReleased seq = b.ackReleased seq := rfl
  have herror : b.plain.ackError seq = b.ackError seq := rfl
  unfold ack
  rw [hreleased, herror]
  split_ifs
  · exact ⟨rfl, rfl⟩
  · cases b.ackError seq with
    | some err => exact ⟨rfl, rfl⟩
    | none => exact ⟨plain_ackRemove b bb bb' _, rfl⟩

theorem plain_takeCursor (b : AckBuffer) (index : Nat) :
    b.plain.takeCursor index = ((b.takeCursor index).1.plain, (b.takeCursor index).2) := by
  have hcursor : b.plain.deliverCursor = b.deliverCursor := rfl
  unfold takeCursor
  rw [hcursor]
  cases b.deliverCursor with
  | none => rfl
  | some c =>
    simp only
    show (if sub64 (b.entryAt c).seq b.firstSeqNum = index then _ else _) = _
    split_ifs <;> rfl

theorem plain_countSend (b : AckBuffer) (entry : Option EntryId) :
    b.plain.countSend entry = (b.countSend entry).plain := by
  have hlimited : b.plain.limited entry = b.limited entry := rfl
  unfold countSend
  rw [hlimited]
  cases b.limited entry <;> rfl

/-- The same frames are skipped, fenced and handed out. -/
theorem plain_deliverLoop (fuel : Nat) : ∀ (b : AckBuffer) (bb bb' : ByteBudget) (fenced : Bool),
    (deliverLoop fuel b.plain bb' fenced).1 = (deliverLoop fuel b bb fenced).1.plain ∧
      (deliverLoop fuel b.plain bb' fenced).2.2 = (deliverLoop fuel b bb fenced).2.2 := by
  induction fuel with
  | zero => exact fun _ _ _ _ => ⟨rfl, rfl⟩
  | succ fuel ih =>
    intro b bb bb' fenced
    by_cases hlt : b.nextIndexToDeliver < b.nextIndexFree
    · have hcursor : b.plain.takeCursor b.plain.nextIndexToDeliver = _ :=
        plain_takeCursor b b.nextIndexToDeliver
      have hindex : b.plain.nextIndexToDeliver = b.nextIndexToDeliver := rfl
      unfold deliverLoop
      rw [if_pos hlt, if_pos (show b.plain.nextIndexToDeliver < b.plain.nextIndexFree from hlt)]
      simp only
      rw [hcursor, hindex]
      generalize b.nextIndexToDeliver = index
      obtain ⟨b₁, entry⟩ := b.takeCursor index
      simp only
      have hslot : b₁.plain.slotRetired index = b₁.slotRetired index := rfl
      have hfence : b₁.plain.fence entry = b₁.fence entry := rfl
      rw [hslot, hfence]
      split_ifs
      · exact ih { b₁ with nextIndexToDeliver := index + 1 } bb bb' fenced
      · cases b₁.fence entry with
        | none =>
          simp only
          rw [plain_countSend]
          exact ⟨rfl, rfl⟩
        | some c =>
          -- the retired slot, and the head it may leave
          have hhead := plain_releaseRetiredHeadLocked
            { (b₁.retireLocked bb index c).1 with nextIndexToDeliver := index + 1 }
            (b₁.retireLocked bb index c).2 (b₁.plain.retireLocked bb' index c).2
          have hloop := ih (releaseRetiredHeadLocked
            { (b₁.retireLocked bb index c).1 with nextIndexToDeliver := index + 1 }
            (b₁.retireLocked bb index c).2).1
          rw [← hhead] at hloop
          exact hloop _ _ true
    · unfold deliverLoop
      rw [if_neg hlt, if_neg (show ¬ b.plain.nextIndexToDeliver < b.plain.nextIndexFree from hlt)]
      exact ⟨rfl, rfl⟩

theorem plain_getNextToDeliver (b : AckBuffer) (bb bb' : ByteBudget) :
    (b.plain.getNextToDeliver bb').1 = (b.getNextToDeliver bb).1.plain ∧
      (b.plain.getNextToDeliver bb').2.2 = (b.getNextToDeliver bb).2.2 := by
  have hready : b.plain.isReadyToDeliver = b.isReadyToDeliver := rfl
  unfold getNextToDeliver
  rw [hready]
  split_ifs
  · exact ⟨rfl, rfl⟩
  · exact plain_deliverLoop _ b bb bb' false

/-- The same frames are retired. -/
theorem plain_resetLoop (fuel : Nat) :
    ∀ (entry : Option EntryId) (b : AckBuffer) (bb bb' : ByteBudget),
      (resetLoop fuel entry b.plain bb').1 = (resetLoop fuel entry b bb).1.plain := by
  induction fuel with
  | zero => exact fun _ _ _ _ => rfl
  | succ fuel ih =>
    intro entry b bb bb'
    cases entry with
    | none => rfl
    | some entry =>
      unfold resetLoop
      simp only
      by_cases h : (exhausted (b.entryAt entry) &&
          decide ((b.entryAt entry).seq ∉ b.retired)) = true
      · rw [if_pos h, if_pos (show (exhausted (b.plain.entryAt entry) &&
          decide ((b.plain.entryAt entry).seq ∉ b.plain.retired)) = true from h)]
        exact ih _ (b.retireLocked bb (sub64 (b.entryAt entry).seq b.firstSeqNum) entry).1 _ _
      · rw [if_neg h, if_neg (show ¬ (exhausted (b.plain.entryAt entry) &&
          decide ((b.plain.entryAt entry).seq ∉ b.plain.retired)) = true from h)]
        exact ih _ b bb bb'

theorem plain_resetDelivery (b : AckBuffer) (bb bb' : ByteBudget) :
    (b.plain.resetDelivery bb').1 = (b.resetDelivery bb).1.plain := by
  have hloop := plain_resetLoop b.nextEntry b.receiptHead
    { b with nextIndexToDeliver := 0, deliverCursor := b.receiptHead } bb bb'
  have hhead := plain_releaseRetiredHeadLocked
    (resetLoop b.nextEntry b.receiptHead
      { b with nextIndexToDeliver := 0, deliverCursor := b.receiptHead } bb).1
    (resetLoop b.nextEntry b.receiptHead
      { b with nextIndexToDeliver := 0, deliverCursor := b.receiptHead } bb).2
  rw [← hloop] at hhead
  exact congrArg (fun c : AckBuffer => { c with
    isReadyToDeliver := decide (c.nextIndexToDeliver < c.nextIndexFree)
    isEmpty := decide (c.nextIndexToDeliver ≥ c.nextIndexFree) }) (hhead _)

theorem plain_updateCapacity (b : AckBuffer) (newCapacity : Nat) :
    b.plain.updateCapacity newCapacity = (b.updateCapacity newCapacity).plain := by
  have hcapacity : b.plain.currentCapacity = b.currentCapacity := rfl
  unfold updateCapacity
  rw [hcapacity]
  split_ifs <;> rfl

theorem plain_drainRound (b : AckBuffer) (ctxDone : Bool) :
    b.plain.drainRound ctxDone = ((b.drainRound ctxDone).1.plain, (b.drainRound ctxDone).2) := by
  have hfree : b.plain.nextIndexFree = b.nextIndexFree := rfl
  have hreason : b.plain.drainReason ctxDone = b.drainReason ctxDone := rfl
  have hbounds : b.plain.liveSeqBoundsLocked = b.liveSeqBoundsLocked := rfl
  unfold drainRound
  rw [hfree, hreason, hbounds]
  split_ifs
  · rfl
  · cases b.drainReason ctxDone <;> rfl

theorem plain_drainSection (b : AckBuffer) (first ctxDone : Bool) :
    b.plain.drainSection first ctxDone =
      ((b.drainSection first ctxDone).1.plain, (b.drainSection first ctxDone).2) := by
  unfold drainSection
  split_ifs
  · exact plain_drainRound b.beginDrain ctxDone
  · exact plain_drainRound b ctxDone

/-! ## An add -/

/-- An attempt to admit `size` bytes leaves less than half of every limit used, and the pool that
the buffer shares is ungrouped. Only an attempt that reaches the limits counts. -/
def BelowPressure (b : AckBuffer) (bb : ByteBudget) (size : Nat) : Prop :=
  b.isRunning = true → b.isAvailable = true →
    (b.maxBytes ≠ 0 → 2 * (b.bytes + size) < b.maxBytes) ∧
    (b.shared = true → bb.fair = false ∧ bb.total ≠ 0 ∧ 2 * (bb.used + size) < bb.total)

instance (b : AckBuffer) (bb : ByteBudget) (size : Nat) : Decidable (b.BelowPressure bb size) :=
  inferInstanceAs (Decidable (_ → _ → _ ∧ _))

/-- Below half of its total a legacy budget admits without overshooting. -/
theorem reserveFor_below {n : Nat} {force : Bool} {g : Option GroupId} {w : Option WaiterId}
    (hlegacy : bb.fair = false) (h : 2 * (bb.used + n) < bb.total) :
    bb.reserveFor n force g w =
      (bb.setCounters (add64 bb.used n) bb.escape, ⟨true, false, add64 bb.used n, none⟩) := by
  have hfits : decide (bb.total = 0 ∨ (n ≤ bb.total ∧ bb.used ≤ bb.total - n)) = true :=
    decide_eq_true (.inr ⟨by omega, by omega⟩)
  unfold ByteBudget.reserveFor ByteBudget.reserveLegacy
  simp only
  rw [hlegacy, hfits]
  rfl

/-- Below pressure there is room, nothing is forced, and no step applies. -/
theorem BelowPressure.checkBytes {size : Nat} (h : b.BelowPressure bb size)
    (hrun : b.isRunning = true) (havail : b.isAvailable = true) (waiter : Option WaiterId) :
    (b.checkBytes bb size waiter).2 = .room false false 0 := by
  obtain ⟨hmax, hpool⟩ := h hrun havail
  have hsum := add64_le b.bytes size
  have hexceeds : decide (b.maxBytes ≠ 0 ∧ add64 b.bytes size > b.maxBytes) = false := by
    refine decide_eq_false ?_
    rintro ⟨hne, hgt⟩
    have := hmax hne
    omega
  have hstep : ¬ (b.maxBytes ≠ 0 ∧
      add64 (add64 b.bytes size) (add64 b.bytes size) ≥ b.maxBytes) := by
    rintro ⟨hne, hge⟩
    have := hmax hne
    have := add64_le (add64 b.bytes size) (add64 b.bytes size)
    omega
  unfold AckBuffer.checkBytes
  simp only
  rw [hexceeds, if_neg hstep, Bool.false_and, if_neg Bool.false_ne_true]
  cases haccount : b.accounting with
  | false => rfl
  | true =>
    cases hshared : b.shared with
    | false => rfl
    | true =>
      -- the pool takes the bytes and stays below its half
      obtain ⟨hlegacy, -, hhalf⟩ := hpool hshared
      have hused := add64_le bb.used size
      have hdouble := add64_le (add64 bb.used size) (add64 bb.used size)
      have hnone : sharedStep bb.total (add64 bb.used size) 0 = 0 := by
        unfold sharedStep
        exact if_neg (by omega)
      rw [reserveFor_below hlegacy hhalf]
      show ByteVerdict.room _ _ (sharedStep bb.total (add64 bb.used size) 0) = _
      rw [hnone]
      rfl

/-- An admission stores the same message. -/
theorem plain_admitLocked (b : AckBuffer) (m : DataMessage) (size : Nat)
    (receipt : Option ReceiptId) (maxTransmissions : Nat) :
    b.plain.admitLocked m 0 false receipt maxTransmissions =
      (b.admitLocked m size false receipt maxTransmissions).plain := by
  unfold admitLocked noteFlag
  cases m.ackRequested <;> cases receipt with
  | none => rfl
  | some r => rfl

theorem BelowPressure.addRound {size : Nat} (h : b.BelowPressure bb size) (bb' : ByteBudget)
    (e : DataMessage) (waiter : Option WaiterId) (receipt : Option ReceiptId)
    (maxTransmissions : Nat) :
    let r := b.addRound bb e size waiter receipt maxTransmissions
    let r' := b.plain.addRound bb' e 0 waiter receipt maxTransmissions
    r'.1.buf = r.1.buf.plain ∧ r'.1.stored = r.1.stored ∧ r'.1.waiter = r.1.waiter ∧ r'.2 = r.2 := by
  intro r r'
  have hr : r = b.addRound bb e size waiter receipt maxTransmissions := rfl
  have hr' : r' = b.plain.addRound bb' e 0 waiter receipt maxTransmissions := rfl
  unfold AckBuffer.addRound at hr hr'
  have hrunning : b.plain.isRunning = b.isRunning := rfl
  have havailable : b.plain.isAvailable = b.isAvailable := rfl
  rw [hrunning] at hr'
  unfold tryAddWithReceiptLocked at hr hr'
  rw [havailable] at hr'
  cases hrun : b.isRunning with
  | false =>
    rw [hrun] at hr hr'
    rw [hr, hr']
    exact ⟨rfl, rfl, rfl, rfl⟩
  | true =>
    cases havail : b.isAvailable with
    | false =>
      rw [hrun, havail] at hr hr'
      rw [hr, hr']
      exact ⟨rfl, rfl, rfl, rfl⟩
    | true =>
      have hroom := h.checkBytes hrun havail waiter
      have hcheck : b.checkBytes bb size waiter =
          ((b.checkBytes bb size waiter).1, .room false false 0) := Prod.ext rfl hroom
      rw [hrun, havail, hcheck] at hr
      rw [hrun, havail] at hr'
      rw [hr, hr']
      exact ⟨plain_admitLocked b _ size receipt maxTransmissions, rfl, rfl, rfl⟩

end AckBuffer

/-! ## Runs -/

/-- The call with the size that a buffer without accounting computes. -/
def LifeOp.unsized : LifeOp → LifeOp
  | .call (.add e _ waiter receipt maxTransmissions) =>
    .call (.add e 0 waiter receipt maxTransmissions)
  | op => op

def LifeAct.unsized (a : LifeAct) : LifeAct := ⟨a.bb, a.op.unsized⟩

namespace LifeStep

/-- What the caller sees of a step: the answer, and what `GetUnAcked` returns after it. -/
def shows (st : LifeStep) : Answer × List (Option DataMessage) :=
  (st.pre.buf.answer st.act.bb st.act.op, st.post.buf.getUnAcked)

/-- The step is not an add, or one below pressure. -/
def BelowPressure (st : LifeStep) : Prop :=
  match st.act.op with
  | .call (.add _ size _ _ _) => st.pre.buf.BelowPressure st.act.bb size
  | _ => True

instance : (st : LifeStep) → Decidable (BelowPressure st)
  | ⟨pre, ⟨bb, .call (.add _ size _ _ _)⟩, _⟩ =>
    inferInstanceAs (Decidable (pre.buf.BelowPressure bb size))
  | ⟨_, ⟨_, .call .getNextToDeliver⟩, _⟩ => isTrue trivial
  | ⟨_, ⟨_, .call (.ack _)⟩, _⟩ => isTrue trivial
  | ⟨_, ⟨_, .call .resetDelivery⟩, _⟩ => isTrue trivial
  | ⟨_, ⟨_, .call (.updateCapacity _)⟩, _⟩ => isTrue trivial
  | ⟨_, ⟨_, .call .beginDrain⟩, _⟩ => isTrue trivial
  | ⟨_, ⟨_, .call (.drain _ _)⟩, _⟩ => isTrue trivial
  | ⟨_, ⟨_, .call .close⟩, _⟩ => isTrue trivial
  | ⟨_, ⟨_, .releaseReceiptTracking⟩, _⟩ => isTrue trivial

end LifeStep

namespace BufferState

theorem plain_step {s t : BufferState} {a : LifeAct} (h : t.buf = s.buf.plain)
    (hg : s.Allows a.op) (hbelow : LifeStep.BelowPressure ⟨s, a, s.live a⟩) :
    t.Allows a.unsized.op ∧ (t.live a.unsized).buf = (s.live a).buf.plain ∧
      LifeStep.shows ⟨t, a.unsized, t.live a.unsized⟩ = LifeStep.shows ⟨s, a, s.live a⟩ := by
  obtain ⟨bb, op⟩ := a
  have hguard : t.Allows op.unsized := by
    cases op with
    | releaseReceiptTracking =>
      show t.buf.isRunning = false
      rw [h]
      exact hg
    | call op =>
      cases op with
      | add e size waiter receipt maxTransmissions =>
        show 0 = t.buf.addSize e
        rw [h]
        rfl
      | _ => trivial
  -- `GetUnAcked` reads none of the accounts
  suffices hsame : (t.live ⟨bb, op.unsized⟩).buf = (s.live ⟨bb, op⟩).buf.plain ∧
      t.buf.answer bb op.unsized = s.buf.answer bb op by
    refine ⟨hguard, hsame.1, Prod.ext hsame.2 ?_⟩
    show (t.live ⟨bb, op.unsized⟩).buf.getUnAcked = _
    rw [hsame.1]
    rfl
  obtain ⟨b, log, handed⟩ := t
  obtain rfl : b = s.buf.plain := h
  cases op with
  | releaseReceiptTracking => exact ⟨rfl, rfl⟩
  | call op =>
    cases op with
    | add e size waiter receipt maxTransmissions =>
      obtain ⟨hbuf, hstored, hwaiter, hround⟩ := BelowPressure.addRound
        (show s.buf.BelowPressure bb size from hbelow) bb e waiter receipt maxTransmissions.toNat
      refine ⟨hbuf, ?_⟩
      show Answer.added _ _ _ = Answer.added _ _ _
      rw [hstored, hwaiter, hround]
    | getNextToDeliver =>
      obtain ⟨hbuf, hframe⟩ := plain_getNextToDeliver s.buf bb bb
      refine ⟨hbuf, ?_⟩
      show Answer.delivered _ = Answer.delivered _
      rw [hframe]
    | ack seq =>
      obtain ⟨hbuf, herr⟩ := plain_ack s.buf bb bb seq.toNat
      refine ⟨hbuf, ?_⟩
      show Answer.acked _ = Answer.acked _
      rw [herr]
    | resetDelivery => exact ⟨plain_resetDelivery s.buf bb bb, rfl⟩
    | updateCapacity newCapacity =>
      exact ⟨plain_updateCapacity s.buf newCapacity.toNat, rfl⟩
    | beginDrain | close => exact ⟨rfl, rfl⟩
    | drain first ctxDone =>
      have hdrain := plain_drainSection s.buf first ctxDone
      refine ⟨congrArg Prod.fst hdrain, ?_⟩
      show Answer.drained _ = Answer.drained _
      rw [hdrain]

end BufferState

/-- Below pressure a byte budget is invisible: on a buffer without one the calls of the run get
the same answers and `GetUnAcked` returns the same messages after each of them. The shared budget
is in a state of its own at every call, so other clients may do anything below its half. -/
theorem below_pressure_invisible {s₀ s : BufferState} {tr : List LifeStep}
    (hfresh : FreshBuffer s₀) (hrun : Machine.Run lifeMachine s₀ tr s)
    (hbelow : ∀ st ∈ tr, LifeStep.BelowPressure st) :
    let acts := tr.map fun st => st.act.unsized
    lifeMachine.Enabled plainBuffer acts ∧
      (lifeMachine.exec plainBuffer acts).buf = s.buf.plain ∧
      (lifeMachine.trace plainBuffer acts).map LifeStep.shows = tr.map LifeStep.shows := by
  refine Machine.Run.image (R := fun s (t : BufferState) => t.buf = s.buf.plain) ?_ ?_
    hrun hbelow
  · obtain ⟨o, bb, hnew⟩ := hfresh.new
    exact (plain_newAckBuffer hnew).symm
  · exact fun s t a h hg hC => BufferState.plain_step h hg hC

/-- A limit of 4096 bytes, and a share of an ungrouped budget. -/
def roomyBuffer : BufferState := { buf := { maxBytes := 4096, shared := true, accounting := true } }

theorem roomyBuffer_fresh : FreshBuffer roomyBuffer :=
  ⟨⟨{ maxBytes := 4096, sharedBudget := true }, newByteBudget 8192, rfl⟩, rfl, rfl⟩

/-- A call that finds `used` of 8192 bytes taken. -/
def pooled (used : Nat) (op : BufferOp) : LifeAct :=
  ⟨{ newByteBudget 8192 with used := used }, .call op⟩

/-- Two messages, one of them with a limit, while others use the pool. -/
def roomyActs : List LifeAct :=
  [pooled 0 (.updateCapacity 4), pooled 100 (.add {} (estimateMessageSize {}) none none 0),
    pooled 3000 (.add {} (estimateMessageSize {}) none (some 0) 1), pooled 0 .getNextToDeliver,
    pooled 0 .getNextToDeliver, pooled 3000 (.ack 1), pooled 0 .resetDelivery]

theorem roomy_invisible :
    (lifeMachine.trace plainBuffer (roomyActs.map LifeAct.unsized)).map LifeStep.shows =
      (lifeMachine.trace roomyBuffer roomyActs).map LifeStep.shows :=
  (below_pressure_invisible roomyBuffer_fresh (Machine.run_exec roomyActs (by decide +kernel))
    (by decide +kernel)).2.2

end UspClient
