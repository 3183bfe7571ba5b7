import UspClient.Buffer.Meter
import UspClient.Buffer.Pressure

/-!
# Receipts without a limit

A tracked admission without a transmission limit is never retired. A buffer that tracks only such
admissions answers as one that tracks none, and charges the shared budget the same: `untracked`
forgets the receipts, and every call on the untracked buffer leaves the untracked buffer of what
the call leaves.
-/

namespace UspClient

open Function Word64 AckBuffer

namespace AckBuffer

variable {b b' : AckBuffer} {bb : ByteBudget}

/-- The buffer without its list of tracked admissions, and without the cells behind it. -/
def untracked (b : AckBuffer) : AckBuffer :=
  { b with
    receiptHead := none
    receiptTail := none
    deliverCursor := none
    entryAt := fun _ => {}
    nextEntry := 0
    receiptAt := fun _ => .invalid }

/-- No tracked admission has a limit, and nothing was retired. -/
structure Unlimited (b : AckBuffer) : Prop where
  max : ∀ c, (b.entryAt c).max = 0
  retired : b.retired = ∅
  released : b.releasedRetired = none

theorem Unlimited.congr (h : Unlimited b) (h₁ : b'.entryAt = b.entryAt)
    (h₂ : b'.retired = b.retired) (h₃ : b'.releasedRetired = b.releasedRetired) : Unlimited b' :=
  ⟨by rw [h₁]; exact h.max, by rw [h₂]; exact h.retired, by rw [h₃]; exact h.released⟩

/-! ## The list of tracked admissions -/

/-- What is left when the list is set aside. -/
theorem untracked_dropLoop (first index : Nat) (acknowledge : Bool) (fuel : Nat) :
    ∀ (b : AckBuffer) (removed : Bool), Unlimited b →
      (dropLoop first index acknowledge fuel b removed).1.untracked = b.untracked ∧
        Unlimited (dropLoop first index acknowledge fuel b removed).1 := by
  induction fuel with
  | zero => exact fun _ _ h => ⟨rfl, h⟩
  | succ fuel ih =>
    intro b removed h
    unfold dropLoop
    cases b.receiptHead with
    | none => exact ⟨rfl, h⟩
    | some entry =>
      simp only
      by_cases hle : sub64 (b.entryAt entry).seq first ≤ index
      · rw [if_pos hle]
        refine ih _ _ ⟨fun c => ?_, h.retired, h.released⟩
        show (update b.entryAt entry _ c).max = 0
        rw [update_apply]
        split_ifs
        · exact h.max entry
        · exact h.max c
      · rw [if_neg hle]
        exact ⟨rfl, h⟩

theorem Unlimited.dropReceiptsLocked (h : Unlimited b) (first index : Nat) (acknowledge : Bool) :
    (b.dropReceiptsLocked first index acknowledge).untracked = b.untracked ∧
      Unlimited (b.dropReceiptsLocked first index acknowledge) := by
  obtain ⟨heq, hun⟩ := untracked_dropLoop first index acknowledge b.nextEntry b false h
  unfold AckBuffer.dropReceiptsLocked
  generalize dropLoop first index acknowledge b.nextEntry b false = r at heq hun ⊢
  obtain ⟨b', removed⟩ := r
  simp only
  split_ifs <;> exact ⟨heq, hun.congr rfl rfl rfl⟩

theorem Unlimited.takeCursor (h : Unlimited b) (index : Nat) :
    (b.takeCursor index).1.untracked = b.untracked ∧ Unlimited (b.takeCursor index).1 := by
  unfold AckBuffer.takeCursor
  cases b.deliverCursor with
  | none => exact ⟨rfl, h⟩
  | some c =>
    simp only
    split_ifs
    · exact ⟨rfl, h.congr rfl rfl rfl⟩
    · exact ⟨rfl, h⟩

/-- No entry has a limit to count against. -/
theorem Unlimited.limited (h : Unlimited b) (entry : Option EntryId) : b.limited entry = none := by
  unfold AckBuffer.limited
  rw [Option.filter_eq_none_iff]
  intro c _
  rw [h.max c]
  exact Bool.false_ne_true

theorem Unlimited.resetLoop (h : Unlimited b) (fuel : Nat) :
    ∀ entry, resetLoop fuel entry b bb = (b, bb) := by
  induction fuel with
  | zero => exact fun _ => rfl
  | succ fuel ih =>
    intro entry
    cases entry with
    | none => rfl
    | some entry =>
      have hnot : exhausted (b.entryAt entry) = false := by
        unfold exhausted
        rw [h.max entry]
        rfl
      unfold AckBuffer.resetLoop
      simp only
      rw [hnot]
      exact ih _

/-! ## The calls -/

theorem Unlimited.releaseRetiredHeadLocked (h : Unlimited b) :
    b.releaseRetiredHeadLocked bb = (b, bb) := by
  unfold AckBuffer.releaseRetiredHeadLocked
  rw [if_pos h.retired]

theorem Unlimited.untracked (h : Unlimited b) : Unlimited b.untracked :=
  ⟨fun _ => rfl, h.retired, h.released⟩

theorem Unlimited.removePrefixLocked (h : Unlimited b) (bb : ByteBudget) (index : Nat) :
    Unlimited (b.removePrefixLocked bb index).1 := by
  refine ⟨h.max, ?_, h.released⟩
  show b.retired.filter _ = ∅
  rw [h.retired]
  rfl

theorem Unlimited.ackRemove (h : Unlimited b) (bb : ByteBudget) (index : Nat) :
    b.untracked.ackRemove bb index =
        ((b.ackRemove bb index).1.untracked, (b.ackRemove bb index).2) ∧
      Unlimited (b.ackRemove bb index).1 := by
  have hprefix := h.removePrefixLocked bb index
  obtain ⟨heq, hun⟩ := hprefix.dropReceiptsLocked b.firstSeqNum index true
  have hack : b.ackRemove bb index =
      ((b.removePrefixLocked bb index).1.dropReceiptsLocked b.firstSeqNum index true,
        (b.removePrefixLocked bb index).2) := hun.releaseRetiredHeadLocked
  have hack' : b.untracked.ackRemove bb index =
      ((b.removePrefixLocked bb index).1.untracked, (b.removePrefixLocked bb index).2) :=
    hprefix.untracked.releaseRetiredHeadLocked
  rw [hack, hack']
  exact ⟨Prod.ext heq.symm rfl, hun⟩

theorem Unlimited.ack (h : Unlimited b) (bb : ByteBudget) (seq : Nat) :
    b.untracked.ack bb seq = ((b.ack bb seq).1.untracked, (b.ack bb seq).2) ∧
      Unlimited (b.ack bb seq).1 := by
  have hreleased : b.untracked.ackReleased seq = b.ackReleased seq := rfl
  have herror : b.untracked.ackError seq = b.ackError seq := rfl
  unfold AckBuffer.ack
  rw [hreleased, herror]
  split_ifs
  · exact ⟨rfl, h⟩
  · cases b.ackError seq with
    | some err => exact ⟨rfl, h⟩
    | none =>
      obtain ⟨heq, hun⟩ := h.ackRemove bb (sub64 seq b.firstSeqNum)
      exact ⟨congrArg (fun r : AckBuffer × ByteBudget => (r.1, r.2, (none : Option String))) heq,
        hun⟩

/-- The loop hands out the slot it starts at. -/
theorem Unlimited.deliverLoop (h : Unlimited b) (fuel : Nat) (bb : ByteBudget) (fenced : Bool)
    (hlt : b.nextIndexToDeliver < b.nextIndexFree) :
    deliverLoop (fuel + 1) b bb fenced =
      (((b.takeCursor b.nextIndexToDeliver).1.handOut b.nextIndexToDeliver).1, bb,
        ⟨((b.takeCursor b.nextIndexToDeliver).1.handOut b.nextIndexToDeliver).2, fenced⟩) := by
  have htaken := (h.takeCursor b.nextIndexToDeliver).2
  unfold AckBuffer.deliverLoop
  rw [if_pos hlt]
  simp only
  generalize b.takeCursor b.nextIndexToDeliver = r at htaken ⊢
  obtain ⟨b₁, entry⟩ := r
  have hslot : b₁.slotRetired b.nextIndexToDeliver = false := by
    unfold slotRetired
    rw [htaken.retired]
    exact decide_eq_false (Finset.notMem_empty _)
  have hfence : b₁.fence entry = none := by
    unfold fence
    rw [htaken.limited]
    rfl
  have hcount : b₁.countSend entry = b₁ := by
    unfold countSend
    rw [htaken.limited]
  simp only
  rw [hslot, if_neg Bool.false_ne_true, hfence]
  simp only
  rw [hcount]

theorem Unlimited.getNextToDeliver (h : Unlimited b) (bb : ByteBudget) :
    b.untracked.getNextToDeliver bb =
        ((b.getNextToDeliver bb).1.untracked, (b.getNextToDeliver bb).2) ∧
      Unlimited (b.getNextToDeliver bb).1 := by
  have hready : b.untracked.isReadyToDeliver = b.isReadyToDeliver := rfl
  have hfree : b.untracked.nextIndexFree = b.nextIndexFree := rfl
  have hnext : b.untracked.nextIndexToDeliver = b.nextIndexToDeliver := rfl
  unfold AckBuffer.getNextToDeliver
  rw [hready, hfree, hnext]
  split_ifs
  · exact ⟨rfl, h⟩
  · cases hn : b.nextIndexFree - b.nextIndexToDeliver with
    | zero => exact ⟨rfl, h.congr rfl rfl rfl⟩
    | succ fuel =>
      have hlt : b.nextIndexToDeliver < b.nextIndexFree := by omega
      obtain ⟨heq, hun⟩ := h.takeCursor b.nextIndexToDeliver
      rw [h.deliverLoop fuel bb false hlt, h.untracked.deliverLoop fuel bb false hlt]
      refine ⟨?_, hun.congr rfl rfl rfl⟩
      -- the frame and the events are read from slots and indices
      have hhand : (b.untracked.takeCursor b.nextIndexToDeliver).1.handOut b.nextIndexToDeliver =
          (b.takeCursor b.nextIndexToDeliver).1.untracked.handOut b.nextIndexToDeliver := by
        rw [heq]
        rfl
      exact congrArg (fun r : AckBuffer × Option DataMessage => (r.1, bb, Handoff.mk r.2 false)) hhand

theorem Unlimited.resetDelivery (h : Unlimited b) (bb : ByteBudget) :
    b.untracked.resetDelivery bb = ((b.resetDelivery bb).1.untracked, (b.resetDelivery bb).2) ∧
      Unlimited (b.resetDelivery bb).1 := by
  have hstart : Unlimited { b with nextIndexToDeliver := 0, deliverCursor := b.receiptHead } :=
    h.congr rfl rfl rfl
  have hreset : ∀ c : AckBuffer, Unlimited c →
      Unlimited { c with nextIndexToDeliver := 0, deliverCursor := c.receiptHead } →
      c.resetDelivery bb = ({ c with
        nextIndexToDeliver := 0
        deliverCursor := c.receiptHead
        isReadyToDeliver := decide (0 < c.nextIndexFree)
        isEmpty := decide (0 ≥ c.nextIndexFree) }, bb) := by
    intro c hc hc'
    unfold AckBuffer.resetDelivery
    simp only
    rw [hc'.resetLoop]
    simp only
    rw [hc'.releaseRetiredHeadLocked]
  rw [hreset b h hstart, hreset b.untracked h.untracked (h.untracked.congr rfl rfl rfl)]
  exact ⟨rfl, h.congr rfl rfl rfl⟩

theorem untracked_updateCapacity (b : AckBuffer) (newCapacity : Nat) :
    b.untracked.updateCapacity newCapacity = (b.updateCapacity newCapacity).untracked := by
  have hcapacity : b.untracked.currentCapacity = b.currentCapacity := rfl
  unfold updateCapacity
  rw [hcapacity]
  split_ifs <;> rfl

theorem Unlimited.updateCapacity (h : Unlimited b) (newCapacity : Nat) :
    Unlimited (b.updateCapacity newCapacity) := by
  unfold AckBuffer.updateCapacity
  split_ifs
  · exact h
  · exact h.congr rfl rfl rfl

theorem untracked_drainRound (b : AckBuffer) (ctxDone : Bool) :
    b.untracked.drainRound ctxDone =
      ((b.drainRound ctxDone).1.untracked, (b.drainRound ctxDone).2) := by
  have hfree : b.untracked.nextIndexFree = b.nextIndexFree := rfl
  have hreason : b.untracked.drainReason ctxDone = b.drainReason ctxDone := rfl
  have hbounds : b.untracked.liveSeqBoundsLocked = b.liveSeqBoundsLocked := rfl
  unfold drainRound
  rw [hfree, hreason, hbounds]
  split_ifs
  · rfl
  · cases b.drainReason ctxDone <;> rfl

theorem Unlimited.drainSection (h : Unlimited b) (first ctxDone : Bool) :
    b.untracked.drainSection first ctxDone =
        ((b.drainSection first ctxDone).1.untracked, (b.drainSection first ctxDone).2) ∧
      Unlimited (b.drainSection first ctxDone).1 := by
  have hround : ∀ c : AckBuffer, Unlimited c → Unlimited (c.drainRound ctxDone).1 := by
    intro c hc
    rcases drainRound_cases c ctxDone with heq | heq
    · rw [heq]
      exact hc
    · rw [heq]
      exact hc.congr rfl rfl rfl
  unfold AckBuffer.drainSection
  split_ifs
  · exact ⟨untracked_drainRound b.beginDrain ctxDone, hround _ (h.congr rfl rfl rfl)⟩
  · exact ⟨untracked_drainRound b ctxDone, hround _ h⟩

theorem Unlimited.track (h : Unlimited b) (seq : Nat) (receipt : Option ReceiptId) :
    (b.track seq receipt 0).untracked = b.untracked ∧ Unlimited (b.track seq receipt 0) := by
  cases receipt with
  | none => exact ⟨rfl, h⟩
  | some r =>
    unfold AckBuffer.track
    cases b.receiptTail with
    | none =>
      refine ⟨rfl, fun c => ?_, h.retired, h.released⟩
      show (update b.entryAt b.nextEntry _ c).max = 0
      rw [update_apply]
      split_ifs
      · rfl
      · exact h.max c
    | some t =>
      refine ⟨rfl, fun c => ?_, h.retired, h.released⟩
      show (update (update b.entryAt b.nextEntry _) t _ c).max = 0
      simp only [update_apply]
      split_ifs
      · rfl
      · exact h.max t
      · rfl
      · exact h.max c

theorem Unlimited.admitLocked (h : Unlimited b) (m : DataMessage) (size : Nat) (overshot : Bool)
    (receipt : Option ReceiptId) :
    b.untracked.admitLocked m size overshot none 0 =
        (b.admitLocked m size overshot receipt 0).untracked ∧
      Unlimited (b.admitLocked m size overshot receipt 0) := by
  have hnoted : Unlimited ((b.noteEscape size overshot).noteFlag m size) := h.congr rfl rfl rfl
  obtain ⟨heq, hun⟩ := hnoted.track m.seqNum receipt
  refine ⟨?_, hun.congr rfl rfl rfl⟩
  exact congrArg (fun c : AckBuffer => (c.place m).chargeLocal size) heq.symm

theorem Unlimited.addRound (h : Unlimited b) (bb : ByteBudget) (e : DataMessage) (size : Nat)
    (waiter : Option WaiterId) (receipt : Option ReceiptId) :
    let r := b.addRound bb e size waiter receipt 0
    b.untracked.addRound bb e size waiter none 0 =
        ({ r.1 with buf := r.1.buf.untracked }, r.2) ∧ Unlimited r.1.buf := by
  have hrunning : b.untracked.isRunning = b.isRunning := rfl
  have havailable : b.untracked.isAvailable = b.isAvailable := rfl
  have hcheck : b.untracked.checkBytes bb size waiter = b.checkBytes bb size waiter := rfl
  unfold AckBuffer.addRound tryAddWithReceiptLocked
  rw [hrunning, havailable, hcheck]
  cases b.isRunning with
  | false => exact ⟨rfl, h⟩
  | true =>
    cases b.isAvailable with
    | false => exact ⟨rfl, h.congr rfl rfl rfl⟩
    | true =>
      rcases b.checkBytes bb size waiter with ⟨bb₁, w | ⟨forced, overshot, pressureStep⟩⟩
      · exact ⟨rfl, h.congr rfl rfl rfl⟩
      · obtain ⟨heq, hun⟩ :=
          h.admitLocked (b.stamp e size forced pressureStep) size overshot receipt
        refine ⟨?_, hun⟩
        exact congrArg (fun c => (TryAdd.mk c bb₁ none
          (some (b.stamp e size forced pressureStep)) overshot, AddRound.admitted)) heq

end AckBuffer

/-! ## Runs with the shared budget -/

/-- A buffer, and the budget it shares with other clients. -/
structure PoolState where
  own : BufferState
  bb : ByteBudget

/-- A call on the buffer, or anything other clients do to the budget. -/
inductive PoolAct where
  | own (op : LifeOp)
  | others (change : ByteBudget → ByteBudget)

namespace PoolState

def Allows (s : PoolState) : PoolAct → Prop
  | .own op => s.own.Allows op
  | .others _ => True

instance (s : PoolState) (a : PoolAct) : Decidable (s.Allows a) :=
  match a with
  | .own op => inferInstanceAs (Decidable (s.own.Allows op))
  | .others _ => isTrue trivial

def next (s : PoolState) : PoolAct → PoolState
  | .own (.call op) => ⟨(s.own.apply s.bb op).1, (s.own.apply s.bb op).2⟩
  | .own .releaseReceiptTracking => ⟨s.own.live ⟨s.bb, .releaseReceiptTracking⟩, s.bb⟩
  | .others change => { s with bb := change s.bb }

end PoolState

def poolMachine : Machine PoolState PoolAct where
  guard := PoolState.Allows
  next := PoolState.next

instance (s : PoolState) (a : PoolAct) : Decidable (poolMachine.guard s a) :=
  inferInstanceAs (Decidable (s.Allows a))

abbrev PoolStep := Machine.Step PoolState PoolAct

/-- The call without a receipt. -/
def LifeOp.untracked : LifeOp → LifeOp
  | .call (.add e size waiter _ _) => .call (.add e size waiter none 0)
  | op => op

def PoolAct.untracked : PoolAct → PoolAct
  | .own op => .own op.untracked
  | .others change => .others change

/-- An add has no transmission limit. -/
def PoolAct.Unlimited : PoolAct → Prop
  | .own (.call (.add _ _ _ _ maxTransmissions)) => maxTransmissions = 0
  | _ => True

instance : (a : PoolAct) → Decidable a.Unlimited
  | .own (.call (.add _ _ _ _ maxTransmissions)) =>
    inferInstanceAs (Decidable (maxTransmissions = 0))
  | .own (.call .getNextToDeliver) => isTrue trivial
  | .own (.call (.ack _)) => isTrue trivial
  | .own (.call .resetDelivery) => isTrue trivial
  | .own (.call (.updateCapacity _)) => isTrue trivial
  | .own (.call .beginDrain) => isTrue trivial
  | .own (.call (.drain _ _)) => isTrue trivial
  | .own (.call .close) => isTrue trivial
  | .own .releaseReceiptTracking => isTrue trivial
  | .others _ => isTrue trivial

namespace PoolStep

/-- What the caller sees of a step, and the budget after it. -/
def shows (st : PoolStep) : Option Answer × List (Option DataMessage) × ByteBudget :=
  (match st.act with
    | .own op => some (st.pre.own.buf.answer st.pre.bb op)
    | .others _ => none,
    st.post.own.buf.getUnAcked, st.post.bb)

end PoolStep

namespace PoolState

/-- The other run is in the same state but for the receipts. -/
structure Erases (s t : PoolState) : Prop where
  buf : t.own.buf = s.own.buf.untracked
  bb : t.bb = s.bb
  unlimited : s.own.buf.Unlimited

theorem Erases.step {s t : PoolState} (h : Erases s t) {a : PoolAct} (hg : s.Allows a)
    (hun : a.Unlimited) :
    t.Allows a.untracked ∧ Erases (s.next a) (t.next a.untracked) ∧
      PoolStep.shows ⟨t, a.untracked, t.next a.untracked⟩ = PoolStep.shows ⟨s, a, s.next a⟩ := by
  obtain ⟨⟨b, log, handed⟩, bb⟩ := t
  obtain ⟨rfl, rfl, hlimits⟩ := h
  cases a with
  | others change => exact ⟨trivial, ⟨rfl, rfl, hlimits⟩, rfl⟩
  | own op =>
    have hguard : (PoolState.mk ⟨s.own.buf.untracked, log, handed⟩ s.bb).Allows
        (.own op.untracked) := by
      cases op with
      | releaseReceiptTracking => exact hg
      | call op => cases op <;> exact hg
    -- `GetUnAcked` does not read the list
    suffices hsame : Erases (s.next (.own op))
          (next ⟨⟨s.own.buf.untracked, log, handed⟩, s.bb⟩ (.own op.untracked)) ∧
        s.own.buf.untracked.answer s.bb op.untracked = s.own.buf.answer s.bb op by
      refine ⟨hguard, hsame.1, Prod.ext (congrArg some hsame.2) (Prod.ext ?_ hsame.1.bb)⟩
      show (next _ (.own op.untracked)).own.buf.getUnAcked = _
      rw [hsame.1.buf]
      rfl
    cases op with
    | releaseReceiptTracking => exact ⟨⟨rfl, rfl, hlimits.congr rfl rfl rfl⟩, rfl⟩
    | call op =>
      cases op with
      | add e size waiter receipt maxTransmissions =>
        obtain rfl : maxTransmissions = 0 := hun
        obtain ⟨heq, hnext⟩ := hlimits.addRound s.bb e size waiter receipt
        refine ⟨⟨?_, ?_, hnext⟩, ?_⟩
        · exact congrArg (fun r => r.1.buf) heq
        · exact congrArg (fun r => r.1.bb) heq
        · exact congrArg (fun r => Answer.added r.2 r.1.stored r.1.waiter) heq
      | getNextToDeliver =>
        obtain ⟨heq, hnext⟩ := hlimits.getNextToDeliver s.bb
        refine ⟨⟨?_, ?_, hnext⟩, ?_⟩
        · exact congrArg Prod.fst heq
        · exact congrArg (fun r => r.2.1) heq
        · exact congrArg (fun r => Answer.delivered r.2.2.frame) heq
      | ack seq =>
        obtain ⟨heq, hnext⟩ := hlimits.ack s.bb seq.toNat
        refine ⟨⟨?_, ?_, hnext⟩, ?_⟩
        · exact congrArg Prod.fst heq
        · exact congrArg (fun r => r.2.1) heq
        · exact congrArg (fun r => Answer.acked r.2.2) heq
      | resetDelivery =>
        obtain ⟨heq, hnext⟩ := hlimits.resetDelivery s.bb
        refine ⟨⟨congrArg Prod.fst heq, ?_, hnext⟩, rfl⟩
        show (s.own.buf.untracked.resetDelivery s.bb).2 = _
        rw [heq]
        rfl
      | updateCapacity newCapacity =>
        exact ⟨⟨untracked_updateCapacity s.own.buf newCapacity.toNat, rfl,
          hlimits.updateCapacity newCapacity.toNat⟩, rfl⟩
      | beginDrain | close => exact ⟨⟨rfl, rfl, hlimits.congr rfl rfl rfl⟩, rfl⟩
      | drain first ctxDone =>
        obtain ⟨heq, hnext⟩ := hlimits.drainSection first ctxDone
        refine ⟨⟨congrArg Prod.fst heq, rfl, hnext⟩, ?_⟩
        show Answer.drained (s.own.buf.untracked.drainSection first ctxDone).2 = _
        rw [heq]
        rfl

end PoolState

/-- Receipts without a limit change nothing else. Without them the calls of the run get the same
answers, `GetUnAcked` returns the same messages and the shared budget is in the same state after
each of them. The buffer is the one of the run without the list of tracked admissions, and
neither has retired a slot or remembers a released one. -/
theorem unlimited_receipts_invisible {s₀ s : PoolState} {tr : List PoolStep}
    (hfresh : FreshBuffer s₀.own) (hrun : Machine.Run poolMachine s₀ tr s)
    (hunlimited : ∀ st ∈ tr, st.act.Unlimited) :
    let acts := tr.map fun st => st.act.untracked
    let s' := poolMachine.exec s₀ acts
    poolMachine.Enabled s₀ acts ∧
      (poolMachine.trace s₀ acts).map PoolStep.shows = tr.map PoolStep.shows ∧
      s'.own.buf = s.own.buf.untracked ∧ s'.bb = s.bb ∧
      s.own.buf.retired = ∅ ∧ s.own.buf.releasedRetired = none ∧
      s'.own.buf.retired = ∅ ∧ s'.own.buf.releasedRetired = none := by
  intro acts s'
  have himage : poolMachine.Enabled s₀ acts ∧ PoolState.Erases s s' ∧
      (poolMachine.trace s₀ acts).map PoolStep.shows = tr.map PoolStep.shows := by
    refine Machine.Run.image ?_ ?_ hrun hunlimited
    · obtain ⟨o, bb, hnew⟩ := hfresh.new
      obtain ⟨group, heq⟩ := newAckBuffer_eq hnew
      exact ⟨by rw [heq]; rfl, rfl, by rw [heq]; exact ⟨fun _ => rfl, rfl, rfl⟩⟩
    · exact fun s t a h hg hC => h.step hg hC
  obtain ⟨hen, herases, hshows⟩ := himage
  refine ⟨hen, hshows, herases.buf, herases.bb, herases.unlimited.retired,
    herases.unlimited.released, ?_, ?_⟩
  · rw [herases.buf]
    exact herases.unlimited.retired
  · rw [herases.buf]
    exact herases.unlimited.released

/-- Two receipts and a plain message, while others charge the pool. -/
def receiptActs : List PoolAct :=
  [.own (.call (.updateCapacity 4)),
    .own (.call (.add {} (estimateMessageSize {}) none (some 0) 0)),
    .others (fun bb => { bb with used := bb.used + 100 }),
    .own (.call (.add {} (estimateMessageSize {}) none none 0)),
    .own (.call (.add {} (estimateMessageSize {}) none (some 1) 0)),
    .own (.call .getNextToDeliver), .own (.call .getNextToDeliver), .own (.call (.ack 1)),
    .own (.call .resetDelivery)]

/-- The list of the run is not empty, and the pool is charged the same without it. -/
theorem receipts_charge_the_same :
    let s₀ : PoolState := ⟨roomyBuffer, newByteBudget 8192⟩
    let s := poolMachine.exec s₀ receiptActs
    s.own.buf.receiptHead = some 1 ∧
      (poolMachine.exec s₀ (receiptActs.map PoolAct.untracked)).bb = s.bb := by
  intro s₀ s
  have hrun : Machine.Run poolMachine s₀ _ s := Machine.run_exec receiptActs (by decide +kernel)
  obtain ⟨-, -, -, hbb, -⟩ := unlimited_receipts_invisible roomyBuffer_fresh hrun
    (by decide +kernel)
  exact ⟨by decide +kernel, hbb⟩

end UspClient
