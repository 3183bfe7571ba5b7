import UspClient.Buffer.Simulate
import UspClient.Lib.Machine

/-!
# Runs of one buffer

A run of one buffer calls its methods in any order. Every call finds the shared budget in
a state of its own, so the runs include everything other clients may do in between. Two
history variables are kept: the admissions in order, and the numbers of the frames that
were handed out. The frame of the `k`-th successful admission is frame `k`.

Every call is one operation of the replay queue (`Tracks.step`), and the queue records
what the history says about each frame (`chronicle_of_run`): how often it was handed out,
and which step confirmed or retired it.
-/

namespace UspClient

open Word64 Replay AckBuffer

/-- A buffer with its history. -/
structure BufferState where
  buf : AckBuffer
  /-- The successful admissions, in order. -/
  log : List Admission := []
  /-- The numbers of the frames `GetNextToDeliver` returned, in order. -/
  handed : List Nat := []

/-- The calls on one buffer. An add is one round of its loop, with the size computed
before and the waiter the round before left; a drain is one round of its loop too. -/
inductive BufferOp where
  | add (e : DataMessage) (size : Nat) (waiter : Option WaiterId) (receipt : Option ReceiptId)
      (maxTransmissions : UInt32)
  | getNextToDeliver
  | ack (seq : UInt64)
  | resetDelivery
  | updateCapacity (newCapacity : UInt64)
  | beginDrain
  | drain (first ctxDone : Bool)
  | close

/-- A call and the shared budget it finds. -/
structure BufferAct where
  bb : ByteBudget
  op : BufferOp

namespace BufferState

/-- How many frames left the buffer. -/
def gone (s : BufferState) : Nat := s.log.length - s.buf.nextIndexFree

/-- The number of the frame that was delivered last. -/
def lastHanded (s : BufferState) : Nat := s.gone + s.buf.nextIndexToDeliver

/-- One call: the state after it, and the budget. -/
def apply (s : BufferState) (bb : ByteBudget) : BufferOp → BufferState × ByteBudget
  | .add e size waiter receipt maxTransmissions =>
    let r := (s.buf.addRound bb e size waiter receipt maxTransmissions.toNat).1
    ({ s with
        buf := r.buf
        log := s.log ++ (r.admission e size receipt maxTransmissions.toNat).toList }, r.bb)
  | .getNextToDeliver =>
    let r := s.buf.getNextToDeliver bb
    let s' := { s with buf := r.1 }
    ({ s' with handed := if r.2.2.frame.isSome then s.handed ++ [s'.lastHanded] else s.handed },
      r.2.1)
  | .ack seq => ({ s with buf := (s.buf.ack bb seq.toNat).1 }, (s.buf.ack bb seq.toNat).2.1)
  | .resetDelivery => ({ s with buf := (s.buf.resetDelivery bb).1 }, (s.buf.resetDelivery bb).2)
  | .updateCapacity newCapacity =>
    ({ s with buf := s.buf.updateCapacity newCapacity.toNat }, bb)
  | .beginDrain => ({ s with buf := s.buf.beginDrain }, bb)
  | .drain first ctxDone => ({ s with buf := (s.buf.drainSection first ctxDone).1 }, bb)
  | .close => ({ s with buf := (s.buf.close bb).1 }, (s.buf.close bb).2)

/-- The size of an add is the one `addWithReceipt` computes. -/
def Sized (s : BufferState) : BufferOp → Prop
  | .add e size _ _ _ => size = s.buf.addSize e
  | _ => True

instance (s : BufferState) (op : BufferOp) : Decidable (s.Sized op) := by
  cases op <;> unfold Sized <;> infer_instance

end BufferState

def bufferMachine : Machine BufferState BufferAct where
  guard s a := s.Sized a.op
  next s a := (s.apply a.bb a.op).1

instance (s : BufferState) (a : BufferAct) : Decidable (bufferMachine.guard s a) :=
  inferInstanceAs (Decidable (s.Sized a.op))

/-- A buffer as `NewAckBuffer` returns it. -/
structure FreshBuffer (s : BufferState) : Prop where
  new : ∃ o bb, (newAckBuffer o bb).2 = .ok s.buf
  log : s.log = []
  handed : s.handed = []

namespace BufferState

/-- Frame `k` has a slot in the buffer. -/
def Present (s : BufferState) (k : Nat) : Prop := s.gone < k ∧ k ≤ s.log.length

/-- Frame `k` has a slot, and the slot is not a retired placeholder. -/
def Live (s : BufferState) (k : Nat) : Prop := s.Present k ∧ k % 2 ^ 64 ∉ s.buf.retired

instance (s : BufferState) (k : Nat) : Decidable (s.Present k) :=
  inferInstanceAs (Decidable (_ ∧ _))

instance (s : BufferState) (k : Nat) : Decidable (s.Live k) :=
  inferInstanceAs (Decidable (_ ∧ _))

/-- How often frame `k` was handed out. -/
def handoffs (s : BufferState) (k : Nat) : Nat := s.handed.count k

/-- The transmission limit of frame `k`; zero is none. -/
def limit (s : BufferState) : Nat → Nat
  | 0 => 0
  | k + 1 => (s.log[k]?.map Admission.limit).getD 0

theorem limit_succ (s : BufferState) (k : Nat) :
    s.limit (k + 1) = (s.log[k]?.map Admission.limit).getD 0 := rfl

end BufferState

abbrev BufferStep := Machine.Step BufferState BufferAct

/-- The step is an `Ack` that returned nil, acknowledged an index at or after that of
frame `k`, and removed its slot while the frame was live. -/
def BufferStep.Confirms (st : BufferStep) (k : Nat) : Prop :=
  ∃ seq, st.act.op = .ack seq ∧ (st.pre.buf.ack st.act.bb seq.toNat).2.2 = none ∧
    st.pre.Live k ∧ k ≤ st.pre.gone + sub64 seq.toNat st.pre.buf.firstSeqNum + 1 ∧
    ¬ st.post.Present k

/-- The step is a `ResetDelivery` that finds frame `k` live with its limit reached. -/
def BufferStep.Retires (st : BufferStep) (k : Nat) : Prop :=
  st.act.op = .resetDelivery ∧ st.pre.Live k ∧ st.pre.limit k ≠ 0 ∧
    st.pre.limit k ≤ st.pre.handoffs k

namespace BufferState

variable {s s' : BufferState} {q q' : Queue Admission} {f : Frame Admission} {k n : Nat}
variable {a : BufferAct} {tr : List BufferStep}

/-! ## Each call is an operation of the queue -/

/-- The queue behind a buffer and its history. -/
structure Tracks (s : BufferState) (q : Queue Admission) : Prop where
  refines : Refines s.buf q
  items : q.items = s.log

/-- The same without the receipts. -/
structure Held (s : BufferState) (q : Queue Admission) : Prop where
  shape : Shape s.buf q
  items : q.items = s.log

theorem Tracks.held (h : Tracks s q) : Held s q := ⟨h.refines.shape, h.items⟩

/-- What a call does to the queue. -/
inductive QueueStep (s : BufferState) (q : Queue Admission) (a : BufferAct) (s' : BufferState) :
    Queue Admission → Prop where
  | same : s'.log = s.log → s'.handed = s.handed → a.op ≠ .resetDelivery →
      (∀ seq, a.op = .ack seq → s'.buf = s.buf) → QueueStep s q a s' q
  | push (adm : Admission) : s'.log = s.log ++ [adm] → s'.handed = s.handed →
      a.op ≠ .resetDelivery → (∀ seq, a.op ≠ .ack seq) →
      (∃ flag, adm.stored = { adm.given with seqNum := s.buf.nextSeqNum, ackRequested := flag }) →
      (s.buf.nextSeqNum % s.buf.ackEvery = 0 → adm.stored.ackRequested = true) →
      QueueStep s q a s' (q.push { item := adm, limit := adm.limit })
  | deliver : s'.log = s.log → a.op = .getNextToDeliver →
      s'.handed = (if q.target < q.window.length then s.handed ++ [q.gone.length + q.target + 1]
        else s.handed) → QueueStep s q a s' q.deliver
  | ack (seq : UInt64) : s'.log = s.log → s'.handed = s.handed → a.op = .ack seq →
      (s.buf.ack a.bb seq.toNat).2.2 = none →
      sub64 seq.toNat s.buf.firstSeqNum < q.window.length →
      QueueStep s q a s' (q.ack (sub64 seq.toNat s.buf.firstSeqNum))
  | reset : s'.log = s.log → s'.handed = s.handed → a.op = .resetDelivery →
      QueueStep s q a s' q.reset

theorem Held.length_log (h : Held s q) : s.log.length = q.gone.length + q.window.length := by
  rw [← h.items, q.length_items]

theorem Held.gone_eq (h : Held s q) : s.gone = q.gone.length := by
  unfold gone
  rw [h.length_log, h.shape.slots.free]
  omega

theorem addRound_buf (b : AckBuffer) (bb : ByteBudget) (e : DataMessage) (size : Nat)
    (waiter : Option WaiterId) (receipt : Option ReceiptId) (n : Nat) :
    ∃ r, TryStep b e size receipt n r ∧
      ((b.addRound bb e size waiter receipt n).1 = r ∨
        r.stored = none ∧
          (b.addRound bb e size waiter receipt n).1 = { r with buf := r.buf.sampleWake.1 }) := by
  have hstep := tryAdd_step b bb e size waiter receipt n
  unfold addRound
  generalize b.tryAddWithReceiptLocked bb e size waiter receipt n = r at hstep ⊢
  by_cases hrun : (!b.isRunning) = true
  · rw [if_pos hrun]
    exact ⟨_, .refused bb waiter, .inl rfl⟩
  · rw [if_neg hrun]
    by_cases hok : r.ok = true
    · simp only [if_pos hok]
      exact ⟨r, hstep, .inl rfl⟩
    · simp only [if_neg hok]
      refine ⟨r, hstep, .inr ⟨?_, rfl⟩⟩
      unfold TryAdd.ok at hok
      simpa using hok

theorem add_queue (h : Tracks s q) (bb : ByteBudget) (e : DataMessage) (size : Nat)
    (waiter : Option WaiterId) (receipt : Option ReceiptId) (m : UInt32) :
    ∃ q', QueueStep s q ⟨bb, .add e size waiter receipt m⟩
        (s.apply bb (.add e size waiter receipt m)).1 q' ∧
      Tracks (s.apply bb (.add e size waiter receipt m)).1 q' := by
  obtain ⟨r, hstep, hr⟩ := addRound_buf s.buf bb e size waiter receipt m.toNat
  have hop : BufferOp.add e size waiter receipt m ≠ .resetDelivery := BufferOp.noConfusion
  have hack : ∀ seq, BufferOp.add e size waiter receipt m ≠ .ack seq := fun _ =>
    BufferOp.noConfusion
  unfold apply
  simp only
  generalize s.buf.addRound bb e size waiter receipt m.toNat = round at hr ⊢
  obtain ⟨r', out⟩ := round
  cases hstep with
  | refused bb' w =>
    -- a refusal changes no slot; it may make the wake channel
    have hadm : r'.admission e size receipt m.toNat = none := by
      rcases hr with rfl | ⟨-, rfl⟩ <;> rfl
    have href : Refines r'.buf q := by
      rcases hr with rfl | ⟨-, rfl⟩
      · exact h.refines
      · exact h.refines.sampleWake
    refine ⟨q, .same ?_ rfl hop fun seq hseq => absurd hseq (hack seq), ⟨href, ?_⟩⟩
    · show s.log ++ _ = s.log
      rw [hadm]
      exact List.append_nil _
    · show q.items = s.log ++ _
      rw [hadm, h.items]
      exact (List.append_nil _).symm
  | admitted bb' flag overshot pressureStep forced havail hstamp =>
    rcases hr with rfl | ⟨hnone, -⟩
    · obtain ⟨adm, hadm⟩ : ∃ adm : Admission, adm =
          ⟨e, { e with seqNum := s.buf.nextSeqNum, ackRequested := flag }, size, receipt, m.toNat,
            overshot⟩ := ⟨_, rfl⟩
      refine ⟨q.push { item := adm, limit := adm.limit }, .push adm ?_ rfl hop hack ?_ ?_, ?_, ?_⟩
      · rw [hadm]
        rfl
      · rw [hadm]
        exact ⟨flag, rfl⟩
      · -- the count rule is one of the reasons for a flag
        intro hmod
        have hflag := congrArg DataMessage.ackRequested hstamp
        unfold stamp at hflag
        simp only [hmod, decide_true, Bool.or_true, Bool.true_or] at hflag
        rw [hadm]
        exact hflag.symm
      · rw [hadm]
        exact h.refines.admitLocked (a := ⟨e, _, size, receipt, m.toNat, overshot⟩) havail rfl
      · rw [Queue.items_push, h.items, hadm]
        rfl
    · cases hnone

/-- A `GetNextToDeliver` that does not reach its fence hands out the frame of the first
slot that is not retired. -/
theorem Held.deliver (h : Held s q) (bb : ByteBudget)
    (hfence : (s.buf.getNextToDeliver bb).2.2.fenced = false) :
    Held (s.apply bb .getNextToDeliver).1 q.deliver ∧
      match q.window[q.target]? with
      | some f => ∃ m, (s.buf.getNextToDeliver bb).2.2.frame = some m ∧
          Handed s.buf.isRunning f.item.stored m ∧
          (s.apply bb .getNextToDeliver).1.lastHanded = q.gone.length + q.target + 1 ∧
          (s.apply bb .getNextToDeliver).1.handed = s.handed ++ [q.gone.length + q.target + 1]
      | none => (s.buf.getNextToDeliver bb).2.2.frame = none ∧
          (s.apply bb .getNextToDeliver).1.handed = s.handed := by
  have hshape := h.shape.getNextToDeliver bb hfence
  have hframe := (getNextToDeliver_slots h.shape.slots h.shape.events h.shape.next_le bb
    hfence).frame
  have hheld : Held (s.apply bb .getNextToDeliver).1 q.deliver := by
    refine ⟨hshape, ?_⟩
    rw [Queue.items_deliver, h.items]
    rfl
  have hhand : (s.apply bb .getNextToDeliver).1.handed =
      if (s.buf.getNextToDeliver bb).2.2.frame.isSome then
        s.handed ++ [(s.apply bb .getNextToDeliver).1.lastHanded] else s.handed := rfl
  -- the number of the frame is read off the delivery index after the call
  have hnum : (s.apply bb .getNextToDeliver).1.lastHanded =
      q.deliver.gone.length + q.deliver.next := by
    unfold lastHanded
    rw [hheld.gone_eq]
    exact congrArg _ hshape.slots.next
  refine ⟨hheld, ?_⟩
  rw [hhand, hnum]
  cases hw : q.window[q.target]? with
  | some f =>
    rw [hw] at hframe
    obtain ⟨m, hm, hh⟩ := hframe
    have hdel : q.deliver.gone.length + q.deliver.next = q.gone.length + q.target + 1 := by
      rw [deliver_of_lt (List.getElem?_eq_some_iff.1 hw).1]
      rfl
    rw [hdel, hm]
    exact ⟨m, rfl, hh, rfl, rfl⟩
  | none =>
    rw [hw] at hframe
    rw [hframe]
    exact ⟨rfl, rfl⟩

/-- `GetNextToDeliver` never reaches its fence. -/
theorem Tracks.deliver (h : Tracks s q) (bb : ByteBudget) :
    Tracks (s.apply bb .getNextToDeliver).1 q.deliver ∧
      (s.buf.getNextToDeliver bb).2.2.fenced = false := by
  obtain ⟨href, -, -, hfence, -⟩ := h.refines.getNextToDeliver bb
  exact ⟨⟨href, (h.held.deliver bb hfence).1.items⟩, hfence⟩

/-- What a delivery appends to the history. -/
theorem Held.deliver_queue (h : Held s q) (bb : ByteBudget)
    (hfence : (s.buf.getNextToDeliver bb).2.2.fenced = false) :
    QueueStep s q ⟨bb, .getNextToDeliver⟩ (s.apply bb .getNextToDeliver).1 q.deliver := by
  have hframe := (h.deliver bb hfence).2
  refine .deliver rfl rfl ?_
  by_cases hlt : q.target < q.window.length
  · rw [List.getElem?_eq_getElem hlt] at hframe
    obtain ⟨m, -, -, -, hhand⟩ := hframe
    rw [hhand, if_pos hlt]
  · rw [List.getElem?_eq_none (by omega)] at hframe
    rw [hframe.2, if_neg hlt]

/-- An `Ack` keeps what its removal keeps. -/
theorem ack_queue {P : AckBuffer → Queue Admission → Prop} (h : Slots s.buf q)
    (hitems : q.items = s.log) (bb : ByteBudget) (seq : UInt64) (hsame : P s.buf q)
    (hremove : ∀ i < q.window.length, P (s.buf.ackRemove bb i).1 (q.ack i)) :
    ∃ q', QueueStep s q ⟨bb, .ack seq⟩ (s.apply bb (.ack seq)).1 q' ∧
      P (s.apply bb (.ack seq)).1.buf q' ∧ q'.items = s.log := by
  have hop : BufferOp.ack seq ≠ .resetDelivery := BufferOp.noConfusion
  have hstep := ack_step s.buf bb seq.toNat
  have hnone : ∀ r, s.buf.ack bb seq.toNat = r → (s.apply bb (.ack seq)).1 = { s with buf := r.1 } := by
    rintro r rfl
    rfl
  obtain ⟨r, hr⟩ : ∃ r, s.buf.ack bb seq.toNat = r := ⟨_, rfl⟩
  rw [hnone r hr]
  rw [hr] at hstep
  cases hstep with
  | rejected | late => exact ⟨q, .same rfl rfl hop fun _ _ => rfl, hsame, hitems⟩
  | removed hfree hdel =>
    rw [h.free] at hfree
    refine ⟨_, .ack seq rfl rfl rfl ?_ hfree, hremove _ hfree, ?_⟩
    · show (s.buf.ack bb seq.toNat).2.2 = none
      rw [hr]
    · rw [Queue.items_ack, hitems]

/-- Every call is one operation of the queue. -/
theorem Tracks.step (h : Tracks s q) (a : BufferAct) :
    ∃ q', QueueStep s q a (bufferMachine.next s a) q' ∧ Tracks (bufferMachine.next s a) q' := by
  obtain ⟨bb, op⟩ := a
  cases op with
  | add e size waiter receipt m => exact add_queue h bb e size waiter receipt m
  | getNextToDeliver =>
    obtain ⟨ht, hfence⟩ := h.deliver bb
    exact ⟨_, h.held.deliver_queue bb hfence, ht⟩
  | ack seq =>
    obtain ⟨q', hstep, href, hitems⟩ := ack_queue h.refines.slots h.items bb seq h.refines
      fun i hi => h.refines.ackRemove bb hi
    exact ⟨q', hstep, href, hitems⟩
  | resetDelivery =>
    refine ⟨q.reset, .reset rfl rfl rfl, (h.refines.resetDelivery bb).1, ?_⟩
    rw [Queue.items_reset, h.items]
    rfl
  | updateCapacity c =>
    exact ⟨q, .same rfl rfl BufferOp.noConfusion fun _ h => BufferOp.noConfusion h,
      h.refines.updateCapacity c.toNat_lt, h.items⟩
  | beginDrain =>
    exact ⟨q, .same rfl rfl BufferOp.noConfusion fun _ h => BufferOp.noConfusion h,
      h.refines.beginDrain, h.items⟩
  | drain first ctxDone =>
    exact ⟨q, .same rfl rfl BufferOp.noConfusion fun _ h => BufferOp.noConfusion h,
      h.refines.drainSection first ctxDone, h.items⟩
  | close =>
    exact ⟨q, .same rfl rfl BufferOp.noConfusion fun _ h => BufferOp.noConfusion h,
      h.refines.close bb, h.items⟩

/-! ## Frames by number -/

theorem Held.frame_at (h : Held s q) (hk : k < s.log.length) : ∃ f, q.frames[k]? = some f := by
  refine ⟨_, List.getElem?_eq_getElem ?_⟩
  rw [h.length_log] at hk
  rw [Queue.frames, List.length_append]
  exact hk

theorem Held.item_at (h : Held s q) (hf : q.frames[k]? = some f) : s.log[k]? = some f.item := by
  rw [← h.items, Queue.items, List.getElem?_map, hf]
  rfl

theorem Held.lt_of_frame (h : Held s q) (hf : q.frames[k]? = some f) : k < s.log.length :=
  (List.getElem?_eq_some_iff.1 (h.item_at hf)).1

theorem Tracks.limit_at (h : Tracks s q) (hf : q.frames[k]? = some f) :
    s.limit (k + 1) = f.limit := by
  rw [limit_succ, h.held.item_at hf, h.refines.limits f (List.mem_of_getElem? hf)]
  rfl

/-- A frame is live in the buffer exactly if its fate is. -/
theorem Held.live_iff (h : Held s q) (hf : q.frames[k]? = some f) :
    s.Live (k + 1) ↔ f.fate = .live := by
  have hlt := h.lt_of_frame hf
  unfold Live Present
  rw [h.gone_eq]
  by_cases hk : q.gone.length ≤ k
  · have hw : q.window[k - q.gone.length]? = some f := by
      rw [← Queue.frames_getElem?_right hk]
      exact hf
    have hseq : (k + 1) % 2 ^ 64 = add64 s.buf.firstSeqNum (k - q.gone.length) := by
      rw [h.shape.slots.first]
      unfold add64
      omega
    have hret : (k + 1) % 2 ^ 64 ∈ s.buf.retired ↔ f.retired = true := by
      rw [hseq, ← h.shape.slots.slotRetired hw]
      unfold slotRetired
      rw [decide_eq_true_eq]
    constructor
    · rintro ⟨-, hnr⟩
      refine h.shape.live_of_mem (List.mem_of_getElem? hw) ?_
      rw [hret] at hnr
      simpa using hnr
    · intro hlive
      refine ⟨⟨by omega, by omega⟩, ?_⟩
      rw [hret]
      unfold Frame.retired
      rw [hlive]
      simp
  · -- a frame that left is not live
    constructor
    · rintro ⟨⟨h₁, -⟩, -⟩
      omega
    · intro hlive
      rw [Queue.frames_getElem?_left (by omega)] at hf
      exact absurd hlive (h.shape.gone f (List.mem_of_getElem? hf))

/-! ## The history of a run -/

/-- What the history says about every frame. -/
structure Chronicle (tr : List BufferStep) (s : BufferState) (q : Queue Admission) : Prop where
  tracks : Tracks s q
  sends : ∀ (k : Nat) f, q.frames[k]? = some f → f.sends = s.handoffs (k + 1)
  confirmed : ∀ (k : Nat) f, q.frames[k]? = some f →
    (f.fate = .confirmed ↔ ∃ st ∈ tr, BufferStep.Confirms st (k + 1))
  retired : ∀ (k : Nat) f, q.frames[k]? = some f →
    (f.fate = .retired ↔ ∃ st ∈ tr, BufferStep.Retires st (k + 1))
  past : ∀ st ∈ tr, st.pre.log.length ≤ s.log.length
  handed_le : ∀ n ∈ s.handed, n ≤ s.log.length
  stamped : ∀ (k : Nat) adm, s.log[k]? = some adm → ∃ flag,
    adm.stored = { adm.given with seqNum := (k + 1) % 2 ^ 64, ackRequested := flag }

theorem Chronicle.past_append (h : Chronicle tr s q) (hle : s.log.length ≤ s'.log.length) :
    ∀ st ∈ tr ++ [⟨s, a, s'⟩], st.pre.log.length ≤ s'.log.length := by
  intro st hst
  rcases List.mem_append.1 hst with hold | hnew
  · exact le_trans (h.past st hold) hle
  · rw [List.mem_singleton] at hnew
    rw [hnew]
    exact hle

/-- A step that is no acknowledgement confirms nothing. -/
theorem not_confirms_of_op (hop : ∀ seq, a.op ≠ .ack seq) :
    ¬ BufferStep.Confirms ⟨s, a, s'⟩ k := by
  rintro ⟨seq, hseq, -⟩
  exact hop seq hseq

theorem not_confirms_of_same (hbuf : s'.buf = s.buf) (hlog : s'.log = s.log) :
    ¬ BufferStep.Confirms ⟨s, a, s'⟩ k := by
  rintro ⟨seq, -, -, hlive, -, hgone⟩
  refine hgone ?_
  have hpresent := hlive.1
  unfold Present BufferState.gone at hpresent ⊢
  rw [hbuf, hlog]
  exact hpresent

theorem not_retires_of_op (hop : a.op ≠ .resetDelivery) : ¬ BufferStep.Retires ⟨s, a, s'⟩ k :=
  fun h => hop h.1

/-- A call that admits nothing: what it does to every frame. -/
theorem Chronicle.frames (h : Chronicle tr s q) (ht : Tracks s' q') (hlog : s'.log = s.log)
    (hhand : ∀ n ∈ s'.handed, n ≤ s.log.length)
    (hframe : ∀ (k : Nat) f, q'.frames[k]? = some f → ∃ x, q.frames[k]? = some x ∧
      f.sends = s'.handoffs (k + 1) ∧
      (f.fate = .confirmed ↔ x.fate = .confirmed ∨ BufferStep.Confirms ⟨s, a, s'⟩ (k + 1)) ∧
      (f.fate = .retired ↔ x.fate = .retired ∨ BufferStep.Retires ⟨s, a, s'⟩ (k + 1))) :
    Chronicle (tr ++ [⟨s, a, s'⟩]) s' q' := by
  constructor
  · exact ht
  · intro k f hf
    obtain ⟨x, -, hsends, -⟩ := hframe k f hf
    exact hsends
  · intro k f hf
    obtain ⟨x, hx, -, hconf, -⟩ := hframe k f hf
    rw [Slice.exists_mem_append_singleton, ← h.confirmed k x hx]
    exact hconf
  · intro k f hf
    obtain ⟨x, hx, -, -, hret⟩ := hframe k f hf
    rw [Slice.exists_mem_append_singleton, ← h.retired k x hx]
    exact hret
  · exact h.past_append (le_of_eq (congrArg List.length hlog.symm))
  · rw [hlog]
    exact hhand
  · rw [hlog]
    exact h.stamped

/-- Calls that leave the queue alone. -/
theorem Chronicle.same (h : Chronicle tr s q) (ht : Tracks s' q) (hlog : s'.log = s.log)
    (hhand : s'.handed = s.handed) (hc : ∀ k, ¬ BufferStep.Confirms ⟨s, a, s'⟩ k)
    (hr : ∀ k, ¬ BufferStep.Retires ⟨s, a, s'⟩ k) : Chronicle (tr ++ [⟨s, a, s'⟩]) s' q := by
  refine h.frames ht hlog (by rw [hhand]; exact h.handed_le) fun k f hf => ⟨f, hf, ?_, ?_, ?_⟩
  · unfold handoffs
    rw [hhand]
    exact h.sends k f hf
  · exact (or_iff_left (hc _)).symm
  · exact (or_iff_left (hr _)).symm

theorem Chronicle.push (h : Chronicle tr s q) {adm : Admission}
    (ht : Tracks s' (q.push { item := adm, limit := adm.limit }))
    (hlog : s'.log = s.log ++ [adm]) (hhand : s'.handed = s.handed)
    (hop : a.op ≠ .resetDelivery) (hack : ∀ seq, a.op ≠ .ack seq)
    (hadm : ∃ flag, adm.stored =
      { adm.given with seqNum := s.buf.nextSeqNum, ackRequested := flag }) :
    Chronicle (tr ++ [⟨s, a, s'⟩]) s' (q.push { item := adm, limit := adm.limit }) := by
  have hlen : q.frames.length = s.log.length := by
    rw [← h.tracks.items, Queue.items, List.length_map]
  -- a frame is an old one or the new one
  have hcases : ∀ (k : Nat) f, (q.push { item := adm, limit := adm.limit }).frames[k]? = some f →
      q.frames[k]? = some f ∨ (k = s.log.length ∧ f = { item := adm, limit := adm.limit }) := by
    intro k f hf
    rw [Queue.frames_push] at hf
    rw [← hlen]
    exact getElem?_snoc hf
  -- no earlier step speaks about a frame that was not admitted
  have hnew : ∀ st ∈ tr, ¬ st.pre.Live (s.log.length + 1) := by
    intro st hst hlive
    have hle := h.past st hst
    have hpresent := hlive.1.2
    omega
  constructor
  · exact ht
  · intro k f hf
    unfold handoffs
    rw [hhand]
    rcases hcases k f hf with hold | ⟨rfl, rfl⟩
    · exact h.sends k f hold
    · symm
      rw [List.count_eq_zero]
      intro hmem
      have hle := h.handed_le _ hmem
      omega
  · intro k f hf
    refine Slice.recorded_of_not ?_ (not_confirms_of_op hack)
    rcases hcases k f hf with hold | ⟨rfl, rfl⟩
    · exact h.confirmed k f hold
    · constructor
      · intro hfate
        cases hfate
      · rintro ⟨st, hst, seq, -, -, hlive, -⟩
        exact absurd hlive (hnew st hst)
  · intro k f hf
    refine Slice.recorded_of_not ?_ (not_retires_of_op hop)
    rcases hcases k f hf with hold | ⟨rfl, rfl⟩
    · exact h.retired k f hold
    · constructor
      · intro hfate
        cases hfate
      · rintro ⟨st, hst, -, hlive, -⟩
        exact absurd hlive (hnew st hst)
  · refine h.past_append ?_
    rw [hlog, List.length_append]
    exact Nat.le_add_right _ _
  · intro n hn
    rw [hhand] at hn
    rw [hlog, List.length_append]
    exact le_trans (h.handed_le n hn) (Nat.le_add_right _ _)
  · intro k x hx
    rw [hlog] at hx
    rcases getElem?_snoc hx with hold | ⟨rfl, rfl⟩
    · exact h.stamped k x hold
    · obtain ⟨flag, hflag⟩ := hadm
      refine ⟨flag, ?_⟩
      rw [hflag, h.tracks.refines.slots.nextSeq, h.tracks.items]

theorem Chronicle.deliver (h : Chronicle tr s q) (ht : Tracks s' q.deliver) (hlog : s'.log = s.log)
    (hop : a.op = .getNextToDeliver)
    (hhand : s'.handed = if q.target < q.window.length then
      s.handed ++ [q.gone.length + q.target + 1] else s.handed) :
    Chronicle (tr ++ [⟨s, a, s'⟩]) s' q.deliver := by
  have hack : ∀ seq, a.op ≠ .ack seq := by
    intro seq
    rw [hop]
    exact BufferOp.noConfusion
  have hreset : a.op ≠ .resetDelivery := by
    rw [hop]
    exact BufferOp.noConfusion
  refine h.frames ht hlog ?_ fun k f hf => ?_
  · intro n hn
    rw [hhand] at hn
    split_ifs at hn with hlt
    · rcases List.mem_append.1 hn with hold | hnew
      · exact h.handed_le n hold
      · rw [List.mem_singleton] at hnew
        rw [hnew, h.tracks.held.length_log]
        omega
    · exact h.handed_le n hn
  -- one frame gained a handoff; no fate changed
  rw [Queue.frames_deliver_getElem?] at hf
  obtain ⟨x, hx, rfl⟩ := Option.map_eq_some_iff.1 hf
  have hfate : (if k = q.gone.length + q.target then x.send else x).fate = x.fate := by
    split_ifs <;> rfl
  rw [hfate]
  refine ⟨x, hx, ?_, (or_iff_left (not_confirms_of_op hack)).symm,
    (or_iff_left (not_retires_of_op hreset)).symm⟩
  have hsend := h.sends k x hx
  unfold handoffs at hsend ⊢
  rw [hhand]
  by_cases hk : k = q.gone.length + q.target
  · have hlt : q.target < q.window.length := by
      rw [hk, Queue.frames_getElem?_right (Nat.le_add_right _ _), Nat.add_sub_cancel_left] at hx
      exact (List.getElem?_eq_some_iff.1 hx).1
    rw [if_pos hk, if_pos hlt, hk, List.count_append, List.count_singleton_self, ← hk, ← hsend]
    rfl
  · rw [if_neg hk]
    split_ifs
    · rw [List.count_append, List.count_singleton, if_neg (by simpa using Ne.symm hk), Nat.add_zero]
      exact hsend
    · exact hsend

theorem length_gone_ack (q : Queue Admission) {i : Nat} (hi : i < q.window.length) :
    q.gone.length + (i + 1) ≤ (q.ack i).gone.length := by
  show _ ≤ ((q.gone ++ (q.window.take (i + 1)).map Frame.confirm) ++ _).length
  rw [List.length_append, List.length_append, List.length_map, List.length_take]
  omega

/-- An accepted acknowledgement confirms exactly the live frames of the removed stretch. -/
theorem Held.confirms_iff {seq : UInt64} {i : Nat} (h : Held s q) (h' : Held s' (q.ack i))
    (hop : a.op = .ack seq) (hok : (s.buf.ack a.bb seq.toNat).2.2 = none)
    (hidx : sub64 seq.toNat s.buf.firstSeqNum = i) (hi : i < q.window.length)
    (hf : q.frames[k]? = some f) : BufferStep.Confirms ⟨s, a, s'⟩ (k + 1) ↔
      f.fate = .live ∧ q.gone.length ≤ k ∧ k < q.gone.length + (i + 1) := by
  have hgone := h.gone_eq
  have hgone' := h'.gone_eq
  have hlen := length_gone_ack q hi
  constructor
  · rintro ⟨seq', hseq', -, hlive, hle, -⟩
    obtain rfl : seq = seq' := by
      have heq : BufferOp.ack seq = .ack seq' := hop.symm.trans hseq'
      injection heq
    have hpresent := hlive.1.1
    simp only [hidx] at hle
    rw [hgone] at hle hpresent
    exact ⟨(h.live_iff hf).1 hlive, by omega, by omega⟩
  · rintro ⟨hlive, h₁, h₂⟩
    refine ⟨seq, hop, hok, (h.live_iff hf).2 hlive, ?_, ?_⟩
    · simp only [hidx, hgone]
      omega
    · unfold Present
      rw [hgone']
      omega

theorem Chronicle.ack (h : Chronicle tr s q) {seq : UInt64}
    (ht : Tracks s' (q.ack (sub64 seq.toNat s.buf.firstSeqNum))) (hlog : s'.log = s.log)
    (hhand : s'.handed = s.handed) (hop : a.op = .ack seq)
    (hok : (s.buf.ack a.bb seq.toNat).2.2 = none)
    (hi : sub64 seq.toNat s.buf.firstSeqNum < q.window.length) :
    Chronicle (tr ++ [⟨s, a, s'⟩]) s' (q.ack (sub64 seq.toNat s.buf.firstSeqNum)) := by
  obtain ⟨i, hidx⟩ : ∃ i, sub64 seq.toNat s.buf.firstSeqNum = i := ⟨_, rfl⟩
  rw [hidx] at ht hi ⊢
  have hreset : a.op ≠ .resetDelivery := by
    rw [hop]
    exact BufferOp.noConfusion
  -- frame by frame: the removed prefix is confirmed, everything else is as it was
  refine h.frames ht hlog (by rw [hhand]; exact h.handed_le) fun k f hf => ?_
  rw [Queue.frames_ack_getElem?] at hf
  obtain ⟨x, hx, rfl⟩ := Option.map_eq_some_iff.1 hf
  have hsend : x.sends = s'.handoffs (k + 1) := by
    unfold handoffs
    rw [hhand]
    exact h.sends k x hx
  refine ⟨x, hx, ?_, ?_, ?_⟩
  · split_ifs
    · rw [Frame.confirm_sends]
      exact hsend
    · exact hsend
  · -- confirmed before, or live and in the prefix of this call
    rw [h.tracks.held.confirms_iff ht.held hop hok hidx hi hx]
    split_ifs with hin
    · rw [Frame.confirm_fate]
      split_ifs with hl
      · exact ⟨fun _ => .inr ⟨hl, hin⟩, fun _ => rfl⟩
      · exact ⟨.inl, fun hor => hor.elim id fun hx' => absurd hx'.1 hl⟩
    · exact ⟨.inl, fun hor => hor.elim id fun hx' => absurd hx'.2 hin⟩
  · -- a retired frame is not confirmed
    rw [or_iff_left (not_retires_of_op hreset)]
    split_ifs with hin
    · rw [Frame.confirm_fate]
      split_ifs with hl
      · simp [hl]
      · exact Iff.rfl
    · exact Iff.rfl

theorem Chronicle.reset (h : Chronicle tr s q) (ht : Tracks s' q.reset) (hlog : s'.log = s.log)
    (hhand : s'.handed = s.handed) (hop : a.op = .resetDelivery) :
    Chronicle (tr ++ [⟨s, a, s'⟩]) s' q.reset := by
  have hack : ∀ seq, a.op ≠ .ack seq := by
    intro seq
    rw [hop]
    exact BufferOp.noConfusion
  refine h.frames ht hlog (by rw [hhand]; exact h.handed_le) fun k f hf => ?_
  rw [Queue.frames_reset_getElem?] at hf
  obtain ⟨x, hx, rfl⟩ := Option.map_eq_some_iff.1 hf
  have hsend : x.sends = s'.handoffs (k + 1) := by
    unfold handoffs
    rw [hhand]
    exact h.sends k x hx
  -- the step retires exactly the live frames that used up their limit
  have hret : BufferStep.Retires ⟨s, a, s'⟩ (k + 1) ↔ x.fate = .live ∧ x.exhausted = true := by
    unfold BufferStep.Retires
    simp only [h.tracks.held.live_iff hx, h.tracks.limit_at hx, ← h.sends k x hx]
    rw [Frame.exhausted_iff]
    exact ⟨fun hr => ⟨hr.2.1, hr.2.2⟩, fun hr => ⟨hop, hr.1, hr.2⟩⟩
  have hheld : q.gone.length ≤ k → x ∈ q.window := by
    intro hk
    rw [Queue.frames_getElem?_right hk] at hx
    exact List.mem_of_getElem? hx
  refine ⟨x, hx, ?_, ?_, ?_⟩
  · split_ifs
    · rw [Frame.expire_sends]
      exact hsend
    · exact hsend
  · rw [or_iff_left (not_confirms_of_op hack)]
    split_ifs with hk
    · rw [Frame.expire_fate]
      split_ifs with he
      · -- a held frame is never confirmed
        simp [h.tracks.refines.sane.window x (hheld hk)]
      · exact Iff.rfl
    · exact Iff.rfl
  · rw [hret]
    split_ifs with hk
    · rw [Frame.expire_fate]
      split_ifs with he
      · refine ⟨fun _ => ?_, fun _ => rfl⟩
        by_cases hr : x.retired = true
        · exact .inl (of_decide_eq_true hr)
        · exact .inr ⟨h.tracks.refines.sane.live_of_mem (hheld hk) (by simpa using hr), he⟩
      · exact ⟨.inl, fun hor => hor.elim id fun hx' => absurd hx'.2 he⟩
    · refine ⟨.inl, fun hor => hor.elim id fun hx' => ?_⟩
      rw [Queue.frames_getElem?_left (by omega)] at hx
      exact absurd hx'.1 (h.tracks.refines.sane.gone x (List.mem_of_getElem? hx))

theorem FreshBuffer.chronicle (hf : FreshBuffer s) : Chronicle [] s {} := by
  obtain ⟨o, bb, hnew⟩ := hf.new
  have hnone : ∀ (k : Nat) f, ({} : Queue Admission).frames[k]? ≠ some f := by
    intro k f hf
    simp [Queue.frames] at hf
  constructor
  · exact ⟨newAckBuffer_refines hnew, hf.log.symm⟩
  · exact fun k f hf => absurd hf (hnone k f)
  · exact fun k f hf => absurd hf (hnone k f)
  · exact fun k f hf => absurd hf (hnone k f)
  · simp
  · rw [hf.handed]
    simp
  · rw [hf.log]
    simp

theorem Chronicle.step (h : Chronicle tr s q) (a : BufferAct) : ∃ q', QueueStep s q a
      (bufferMachine.next s a) q' ∧ Chronicle (tr ++ [⟨s, a, bufferMachine.next s a⟩])
      (bufferMachine.next s a) q' := by
  obtain ⟨q', hstep, ht⟩ := h.tracks.step a
  refine ⟨q', hstep, ?_⟩
  generalize bufferMachine.next s a = s' at hstep ht ⊢
  cases hstep with
  | same hlog hhand hop hack =>
    refine h.same ht hlog hhand (fun k hc => ?_) fun k => not_retires_of_op hop
    obtain ⟨seq, hseq, -⟩ := id hc
    exact not_confirms_of_same (hack seq hseq) hlog hc
  | push adm hlog hhand hop hack hadm _ => exact h.push ht hlog hhand hop hack hadm
  | deliver hlog hop hhand => exact h.deliver ht hlog hop hhand
  | ack seq hlog hhand hop hok hi => exact h.ack ht hlog hhand hop hok hi
  | reset hlog hhand hop => exact h.reset ht hlog hhand hop

/-- Every run has its queue. -/
theorem chronicle_of_run {s₀ : BufferState} (hf : FreshBuffer s₀)
    (hrun : Machine.Run bufferMachine s₀ tr s) : ∃ q, Chronicle tr s q :=
  hrun.history (fun tr s => ∃ q, Chronicle tr s q) ⟨_, FreshBuffer.chronicle hf⟩
    fun _ _ a _ ⟨_, hc⟩ => let ⟨q', _, hc'⟩ := hc.step a; ⟨q', hc'⟩

end BufferState

end UspClient
