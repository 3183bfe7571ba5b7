import UspClient.Buffer.History

/-!
# No message is lost, and limits are kept

Over every run of one buffer:

* `no_message_lost`: a message whose admission succeeded is live, confirmed or retired,
  and never two of these. `GetUnAcked` returns the live messages in order of admission.
* `transmission_limit`: a frame with a limit is handed out at most that often. It is
  retired by the first reset after its last handoff, and only then.
-/

namespace UspClient

open Word64 Replay

/-- Some step of the run confirmed frame `k`. -/
def Confirmed (tr : List BufferStep) (k : Nat) : Prop := ∃ st ∈ tr, BufferStep.Confirms st k

/-- Some step of the run retired frame `k`. -/
def Retired (tr : List BufferStep) (k : Nat) : Prop := ∃ st ∈ tr, BufferStep.Retires st k

namespace BufferState

variable {s s₀ : BufferState} {q : Queue Admission} {f : Frame Admission} {k : Nat}
variable {tr : List BufferStep} {st : BufferStep}

/-- The message of frame `k`, as it was stored. -/
def storedAt (s : BufferState) : Nat → Option DataMessage
  | 0 => none
  | k + 1 => s.log[k]?.map Admission.stored

theorem storedAt_succ (s : BufferState) (k : Nat) :
    s.storedAt (k + 1) = s.log[k]?.map Admission.stored := rfl

/-- The numbers of the live frames, in order of admission. -/
def liveNumbers (s : BufferState) : List Nat :=
  (List.range' 1 s.log.length).filter fun k => decide (s.Live k)

/-! ## The three classes -/

theorem Chronicle.frame (h : Chronicle tr s q) (hk : 1 ≤ k) (hle : k ≤ s.log.length) :
    ∃ f, q.frames[k - 1]? = some f ∧ k - 1 + 1 = k := by
  obtain ⟨f, hf⟩ := h.tracks.held.frame_at (k := k - 1) (by omega)
  exact ⟨f, hf, by omega⟩

theorem Chronicle.confirmed_iff (h : Chronicle tr s q) (hf : q.frames[k]? = some f) :
    Confirmed tr (k + 1) ↔ f.fate = .confirmed := (h.confirmed k f hf).symm

theorem Chronicle.retired_iff (h : Chronicle tr s q) (hf : q.frames[k]? = some f) :
    Retired tr (k + 1) ↔ f.fate = .retired := (h.retired k f hf).symm

/-- The class of a frame is its fate. -/
theorem Chronicle.classes (h : Chronicle tr s q) (hk : 1 ≤ k) (hle : k ≤ s.log.length) :
    (s.Live k ∧ ¬ Confirmed tr k ∧ ¬ Retired tr k) ∨
      (¬ s.Live k ∧ Confirmed tr k ∧ ¬ Retired tr k) ∨
      (¬ s.Live k ∧ ¬ Confirmed tr k ∧ Retired tr k) := by
  obtain ⟨f, hf, hkk⟩ := h.frame hk hle
  rw [← hkk, h.tracks.held.live_iff hf, h.confirmed_iff hf, h.retired_iff hf]
  cases f.fate <;> simp

/-- Only admitted frames were confirmed or retired. -/
theorem Chronicle.admitted_of_live (h : Chronicle tr s q) (hst : st ∈ tr) (hlive : st.pre.Live k) :
    1 ≤ k ∧ k ≤ s.log.length := by
  have hpast := h.past st hst
  have hpresent := hlive.1
  unfold Present at hpresent
  omega

/-- A step after which a live frame is not live any more confirmed or retired it. -/
theorem Chronicle.last_step (h : Chronicle tr s q) {q' : Queue Admission} {s' : BufferState}
    {a : BufferAct} (h' : Chronicle (tr ++ [⟨s, a, s'⟩]) s' q') (hlive : s.Live k)
    (hnot : ¬ s'.Live k) :
    BufferStep.Confirms ⟨s, a, s'⟩ k ∨ BufferStep.Retires ⟨s, a, s'⟩ k := by
  have hmem : (⟨s, a, s'⟩ : BufferStep) ∈ tr ++ [⟨s, a, s'⟩] :=
    List.mem_append_right _ List.mem_cons_self
  obtain ⟨hk, hle'⟩ := h'.admitted_of_live hmem hlive
  -- nothing was recorded about the frame before the step
  have hold : ¬ Confirmed tr k ∧ ¬ Retired tr k := by
    rcases h.classes hk hlive.1.2 with ⟨-, hno⟩ | ⟨hno, -⟩ | ⟨hno, -⟩
    · exact hno
    · exact absurd hlive hno
    · exact absurd hlive hno
  rcases h'.classes hk hle' with ⟨hl, -⟩ | ⟨-, hc, -⟩ | ⟨-, -, hr⟩
  · exact absurd hl hnot
  · exact .inl ((Slice.exists_mem_append_singleton.1 hc).resolve_left hold.1)
  · exact .inr ((Slice.exists_mem_append_singleton.1 hr).resolve_left hold.2)

/-! ## What the buffer returns -/

/-- The live frames are the frames of the window that are not retired, in order. -/
theorem Held.live_map {β : Type} (h : Held s q) {φ : Frame Admission → β} {ψ : Nat → β}
    (hψ : ∀ i x, q.frames[i]? = some x → φ x = ψ (i + 1)) :
    (q.window.filter fun f => !f.retired).map φ = s.liveNumbers.map ψ := by
  have hwindow : (q.window.filter fun f => !f.retired) = q.frames.filter fun f => f.live := by
    have hgone : (q.gone.filter fun f => f.live) = [] := by
      rw [List.filter_eq_nil_iff]
      intro x hx
      unfold Frame.live
      simpa using h.shape.gone x hx
    rw [Queue.frames, List.filter_append, hgone, List.nil_append]
    refine List.filter_congr fun x hx => ?_
    have hnc := h.shape.window x hx
    unfold Frame.retired Frame.live
    cases hfate : x.fate with
    | live => rfl
    | confirmed => exact absurd hfate hnc
    | retired => rfl
  have hlen : s.log.length = q.frames.length := by
    rw [← h.items, Queue.items, List.length_map]
  have hrange : s.liveNumbers.map ψ = ((List.range q.frames.length).filter
      fun i => decide (s.Live (i + 1))).map fun i => ψ (i + 1) := by
    unfold liveNumbers
    rw [List.range'_eq_map_range, List.filter_map, List.map_map, hlen]
    have hcomm : ∀ i : Nat, 1 + i = i + 1 := fun i => Nat.add_comm 1 i
    simp only [Function.comp_def, hcomm]
  rw [hrange, hwindow]
  refine (Slice.map_filter_range q.frames ?_ ?_).symm
  · intro i x hx
    unfold Frame.live
    exact decide_eq_decide.2 (h.live_iff hx)
  · intro i x hx _
    exact (hψ i x hx).symm

/-- `GetUnAcked` returns the live messages. -/
theorem Held.getUnAcked (h : Held s q) : s.buf.getUnAcked = s.liveNumbers.map s.storedAt := by
  rw [h.shape.slots.getUnAcked]
  refine h.live_map fun i x hx => ?_
  rw [storedAt_succ, h.item_at hx]
  rfl

theorem mem_liveNumbers : k ∈ s.liveNumbers ↔ s.Live k := by
  unfold liveNumbers
  rw [List.mem_filter, decide_eq_true_eq, List.mem_range'_1]
  refine and_iff_right_of_imp fun hlive => ?_
  obtain ⟨hgone, hle⟩ := hlive.1
  omega

theorem Held.live_frame (h : Held s q) (hlive : s.Live k) :
    ∃ i f, k = i + 1 ∧ q.frames[i]? = some f ∧ f.fate = .live := by
  have hpos : 0 < k := Nat.zero_lt_of_lt hlive.1.1
  rcases Nat.exists_eq_succ_of_ne_zero hpos.ne' with ⟨i, rfl⟩
  rcases h.frame_at (k := i) hlive.1.2 with ⟨f, hf⟩
  exact ⟨i, f, rfl, hf, (h.live_iff hf).1 hlive⟩

/-- A live frame sits at its offset from `firstSeqNum`. -/
theorem Held.slot_at (h : Held s q) (hlive : s.Live (k + 1)) :
    s.buf.buff[sub64 ((k + 1) % 2 ^ 64) s.buf.firstSeqNum]? = some (s.storedAt (k + 1)) := by
  obtain ⟨⟨hgone, hle⟩, -⟩ := id hlive
  rw [h.gone_eq] at hgone
  obtain ⟨f, hf⟩ := h.frame_at hle
  have hw : q.window[k - q.gone.length]? = some f := by
    rw [← Queue.frames_getElem?_right (by omega)]
    exact hf
  have hseq : f.item.stored.seqNum = (k + 1) % 2 ^ 64 := by
    refine h.shape.slots.seqs k f.item ?_
    rw [h.items]
    exact h.item_at hf
  have hidx := h.shape.slots.index_at hw
  rw [hseq] at hidx
  have hslot : (q.window.map AckBuffer.slot)[k - q.gone.length]? = some (some f.item.stored) := by
    rw [List.getElem?_map, hw, Option.map_some]
    unfold AckBuffer.slot Frame.retired
    rw [(h.live_iff hf).1 hlive]
    rfl
  obtain ⟨r, hr⟩ := h.shape.slots.buff
  rw [hidx, hr, List.getElem?_append_left (List.getElem?_eq_some_iff.1 hslot).1, hslot]
  rw [storedAt_succ, h.item_at hf]
  rfl

end BufferState

/-- In every run of one buffer with fewer than `2 ^ 64` admissions, each admitted message
is in exactly one of three classes: live, confirmed by an `Ack`, or retired at its limit.
`GetUnAcked` returns the live messages, once each and in order of admission. The message
of the `k`-th admission is the given one with sequence number `k` and perhaps an
acknowledgement request; while it is live, its slot is the one of sequence number `k`. -/
theorem no_message_lost {s₀ s : BufferState} {tr : List BufferStep} (hfresh : FreshBuffer s₀)
    (hrun : Machine.Run bufferMachine s₀ tr s) (hlen : s.log.length < 2 ^ 64) :
    (∀ k, 1 ≤ k → k ≤ s.log.length →
      (s.Live k ∧ ¬ Confirmed tr k ∧ ¬ Retired tr k) ∨
      (¬ s.Live k ∧ Confirmed tr k ∧ ¬ Retired tr k) ∨
      (¬ s.Live k ∧ ¬ Confirmed tr k ∧ Retired tr k)) ∧
    s.buf.getUnAcked = s.liveNumbers.map s.storedAt ∧
    (∀ (k : Nat) a, s.log[k]? = some a → ∃ flag,
      a.stored = { a.given with seqNum := k + 1, ackRequested := flag }) ∧
    (∀ k, s.Live k → s.buf.buff[sub64 k s.buf.firstSeqNum]? = some (s.storedAt k)) := by
  obtain ⟨q, hq⟩ := BufferState.chronicle_of_run hfresh hrun
  refine ⟨fun k hk hle => hq.classes hk hle, hq.tracks.held.getUnAcked, ?_, ?_⟩
  · intro k a ha
    have hk : k < s.log.length := (List.getElem?_eq_some_iff.1 ha).1
    obtain ⟨flag, hflag⟩ := hq.stamped k a ha
    rw [Nat.mod_eq_of_lt (by omega)] at hflag
    exact ⟨flag, hflag⟩
  · intro k hlive
    have hk : k ≤ s.log.length := hlive.1.2
    cases k with
    | zero => exact absurd hlive.1.1 (Nat.not_lt_zero _)
    | succ k =>
      have hslot := hq.tracks.held.slot_at hlive
      rw [Nat.mod_eq_of_lt (by omega)] at hslot
      exact hslot

/-- A new buffer without byte limits. -/
def plainBuffer : BufferState := { buf := {} }

theorem plainBuffer_fresh : FreshBuffer plainBuffer :=
  ⟨⟨{}, newByteBudget 0, rfl⟩, rfl, rfl⟩

/-- A buffer limited to 600 bytes. -/
def smallBuffer : BufferState := { buf := { maxBytes := 600, accounting := true } }

theorem smallBuffer_fresh : FreshBuffer smallBuffer :=
  ⟨⟨⟨600, false, ""⟩, newByteBudget 0, rfl⟩, rfl, rfl⟩

/-- A call that finds no shared budget. -/
def alone (op : BufferOp) : BufferAct := ⟨newByteBudget 0, op⟩

/-- Three messages, the second with limit one. All are delivered, the first is
acknowledged, and the connection is reset. -/
def threeMessages : List BufferAct :=
  [alone (.updateCapacity 4), alone (.add {} 0 none none 0), alone (.add {} 0 none (some 0) 1),
    alone (.add {} 0 none none 0), alone .getNextToDeliver, alone .getNextToDeliver,
    alone .getNextToDeliver, alone (.ack 1), alone .resetDelivery]

/-- The first message is confirmed, the second retired and the third live. -/
theorem three_messages_not_lost :
    (bufferMachine.exec plainBuffer threeMessages).buf.getUnAcked =
      [(bufferMachine.exec plainBuffer threeMessages).storedAt 3] := by
  have hlive : (bufferMachine.exec plainBuffer threeMessages).liveNumbers = [3] := by
    decide +kernel
  have hall := no_message_lost plainBuffer_fresh
    (Machine.run_exec threeMessages (by decide +kernel)) (by decide +kernel)
  rw [hall.2.1, hlive]
  rfl

/-! ## Transmission limits -/

namespace AckBuffer

/-- The entries from a pointer on. The first argument bounds the walk. -/
def entriesFrom (b : AckBuffer) : Nat → Option EntryId → List EntryId
  | 0, _ => []
  | _ + 1, none => []
  | fuel + 1, some x => x :: entriesFrom b fuel (b.entryAt x).next

/-- The list of tracked admissions, from `receiptHead` on. -/
def trackedEntries (b : AckBuffer) : List EntryId := b.entriesFrom b.nextEntry b.receiptHead

/-- The entry is for a slot at or after the delivery index. -/
def Undelivered (b : AckBuffer) (t : TrackedAdmission) : Prop :=
  b.nextIndexToDeliver ≤ sub64 t.seq b.firstSeqNum

instance (b : AckBuffer) (t : TrackedAdmission) : Decidable (b.Undelivered t) :=
  inferInstanceAs (Decidable (_ ≤ _))

variable {b : AckBuffer} {q : Queue Admission}

theorem Chain.entriesFrom_bounds (h : Chain b q) (fuel : Nat) {i x : Nat}
    (hi : trackedCount q.gone ≤ i) (hx : x ∈ b.entriesFrom fuel (ptr i b.nextEntry)) :
    trackedCount q.gone ≤ x ∧ x < b.nextEntry := by
  induction fuel generalizing i with
  | zero => simp [entriesFrom] at hx
  | succ fuel ih =>
    by_cases hlt : i < b.nextEntry
    · rw [ptr_of_lt hlt, entriesFrom, List.mem_cons] at hx
      rcases hx with rfl | hx
      · exact ⟨hi, hlt⟩
      · rw [h.links i hi hlt] at hx
        exact ih (Nat.le_succ_of_le hi) hx
    · rw [ptr_of_le (by omega)] at hx
      simp [entriesFrom] at hx

/-- An entry of the list that is not retired and not yet delivered has sends left. -/
theorem Refines.sends_lt (h : Refines b q) {x : Nat} (hx : x ∈ b.trackedEntries)
    (hret : (b.entryAt x).seq ∉ b.retired) (hnext : b.Undelivered (b.entryAt x))
    (hmax : (b.entryAt x).max ≠ 0) : (b.entryAt x).sends < (b.entryAt x).max := by
  unfold trackedEntries at hx
  rw [h.chain.head] at hx
  obtain ⟨hge, hlt⟩ := h.chain.entriesFrom_bounds _ le_entryOf hx
  obtain ⟨k, f, hf, -, -, hentry⟩ := h.chain.frame_of hge hlt
  rw [hentry.max] at hmax ⊢
  rw [hentry.sends hmax]
  have hk : q.next ≤ k := by
    unfold Undelivered at hnext
    rw [hentry.seq, h.slots.index_at hf, h.slots.next] at hnext
    exact hnext
  have hlive : f.retired = false := by
    rw [hentry.seq, h.slots.seq_at hf] at hret
    rw [← h.slots.slotRetired hf]
    exact decide_eq_false hret
  have hdrop : f ∈ q.window.drop q.next := by
    refine List.mem_of_getElem? (i := k - q.next) ?_
    rw [List.getElem?_drop, Nat.add_sub_cancel' hk]
    exact hf
  have hfresh := h.sane.fresh f hdrop (h.sane.live_of_mem (List.mem_of_getElem? hf) hlive)
  by_contra hge'
  rw [Frame.exhausted_iff.2 ⟨hmax, Nat.le_of_not_lt hge'⟩] at hfresh
  cases hfresh

end AckBuffer

/-- What the limits promise about a run that ended in `s`. -/
structure LimitsKept (tr : List BufferStep) (s : BufferState) : Prop where
  /-- A frame with a limit is handed out at most that often. -/
  handoffs_le : ∀ k, s.limit k ≠ 0 → s.handoffs k ≤ s.limit k
  /-- A live frame leaves by an accepted `Ack`, or by a reset that finds its limit used up
  exactly. -/
  leaves : ∀ st ∈ tr, ∀ k, st.pre.Live k → ¬ st.post.Live k → BufferStep.Confirms st k ∨
    (st.act.op = .resetDelivery ∧ st.pre.limit k ≠ 0 ∧ st.pre.handoffs k = st.pre.limit k)
  /-- The first reset after the last handoff ends the life of the frame. -/
  reset : ∀ st ∈ tr, ∀ k, st.act.op = .resetDelivery → st.pre.limit k ≠ 0 →
    st.pre.handoffs k = st.pre.limit k → ¬ st.post.Live k
  /-- A retired frame is not live, and was handed out no more often since. -/
  retired : ∀ k, Retired tr k → ¬ s.Live k ∧ s.handoffs k = s.limit k
  /-- Only live frames are returned as unacknowledged. -/
  unacked : s.buf.getUnAcked = s.liveNumbers.map s.storedAt
  /-- The fence of `GetNextToDeliver` is never reached. What it returns is the message of a
  live frame, and that frame is the one counted. -/
  handout : ∀ st ∈ tr, st.act.op = .getNextToDeliver →
    (st.pre.buf.getNextToDeliver st.act.bb).2.2.fenced = false ∧
    ∀ m, (st.pre.buf.getNextToDeliver st.act.bb).2.2.frame = some m →
      st.pre.Live st.post.lastHanded ∧ st.post.handed = st.pre.handed ++ [st.post.lastHanded] ∧
      ∃ stored, st.pre.storedAt st.post.lastHanded = some stored ∧
        AckBuffer.Handed st.pre.buf.isRunning stored m
  /-- An entry that is not retired and not yet delivered has sends left. -/
  entries : ∀ x ∈ s.buf.trackedEntries, (s.buf.entryAt x).seq ∉ s.buf.retired →
    s.buf.Undelivered (s.buf.entryAt x) → (s.buf.entryAt x).max ≠ 0 →
    (s.buf.entryAt x).sends < (s.buf.entryAt x).max

namespace BufferState

variable {s s' s₀ : BufferState} {q q' : Queue Admission} {f : Frame Admission} {k : Nat}
variable {tr : List BufferStep} {st : BufferStep} {a : BufferAct}

/-- A limit belongs to an admitted frame. -/
theorem Chronicle.limit_frame (h : Chronicle tr s q) (hlim : s.limit k ≠ 0) :
    ∃ f ∈ q.frames, s.limit k = f.limit ∧ s.handoffs k = f.sends ∧ 1 ≤ k ∧
      k ≤ s.log.length := by
  cases k with
  | zero => exact absurd rfl hlim
  | succ k =>
    have hlt : k < s.log.length := by
      by_contra hge
      rw [limit_succ, List.getElem?_eq_none (by omega)] at hlim
      exact hlim rfl
    obtain ⟨f, hf⟩ := h.tracks.held.frame_at hlt
    exact ⟨f, List.mem_of_getElem? hf, h.tracks.limit_at hf, (h.sends k f hf).symm, by omega,
      hlt⟩

theorem Chronicle.handoffs_le (h : Chronicle tr s q) (hlim : s.limit k ≠ 0) :
    s.handoffs k ≤ s.limit k := by
  obtain ⟨f, hf, hl, hs, -⟩ := h.limit_frame hlim
  rw [hl] at hlim ⊢
  rw [hs]
  exact h.tracks.refines.sane.sent f hf hlim

/-- A retired frame was handed out as often as its limit says. -/
theorem Chronicle.retired_handoffs (h : Chronicle tr s q) (hr : Retired tr k) :
    ¬ s.Live k ∧ s.handoffs k = s.limit k := by
  obtain ⟨st, hst, -, hlive, -⟩ := id hr
  obtain ⟨hk, hle⟩ := h.admitted_of_live hst hlive
  have hnot : ¬ s.Live k := by
    rcases h.classes hk hle with ⟨-, -, hno⟩ | ⟨hno, -⟩ | ⟨hno, -⟩
    · exact absurd hr hno
    · exact hno
    · exact hno
  refine ⟨hnot, ?_⟩
  obtain ⟨f, hf, hkk⟩ := h.frame hk hle
  rw [← hkk] at hr ⊢
  have hsane := h.tracks.refines.sane.retired f (List.mem_of_getElem? hf)
    ((h.retired_iff hf).1 hr)
  rw [h.tracks.limit_at hf, ← h.sends (k - 1) f hf]
  exact hsane.2

/-- A reset that finds the limit of a frame used up leaves it not live. -/
theorem Chronicle.reset_ends (h : Chronicle tr s q) (h' : Chronicle (tr ++ [⟨s, a, s'⟩]) s' q')
    (hop : a.op = .resetDelivery) (hlim : s.limit k ≠ 0) (hused : s.handoffs k = s.limit k) :
    ¬ s'.Live k := by
  have hmem : (⟨s, a, s'⟩ : BufferStep) ∈ tr ++ [⟨s, a, s'⟩] :=
    List.mem_append_right _ List.mem_cons_self
  obtain ⟨f, -, -, -, hk, hle⟩ := h.limit_frame hlim
  intro hlive'
  have hle' : k ≤ s'.log.length := hlive'.1.2
  -- a frame that is live after the step has no record, so it was live before the step
  rcases h'.classes hk hle' with ⟨-, hc, hr⟩ | ⟨hno, -⟩ | ⟨hno, -⟩
  · rcases h.classes hk hle with ⟨hlive, -⟩ | ⟨-, hc', -⟩ | ⟨-, -, hr'⟩
    · exact hr ⟨_, hmem, hop, hlive, hlim, le_of_eq hused.symm⟩
    · obtain ⟨st, hst, hcs⟩ := hc'
      exact hc ⟨st, List.mem_append_left _ hst, hcs⟩
    · obtain ⟨st, hst, hrs⟩ := hr'
      exact hr ⟨st, List.mem_append_left _ hst, hrs⟩
  · exact hno hlive'
  · exact hno hlive'

/-- What `GetNextToDeliver` returns is the message of a live frame. -/
theorem Held.handout (h : Held s q) (bb : ByteBudget) {m : DataMessage}
    (hfence : (s.buf.getNextToDeliver bb).2.2.fenced = false)
    (hm : (s.buf.getNextToDeliver bb).2.2.frame = some m)
    (hs' : s' = (s.apply bb .getNextToDeliver).1) :
    s.Live s'.lastHanded ∧ s'.handed = s.handed ++ [s'.lastHanded] ∧
      ∃ stored, s.storedAt s'.lastHanded = some stored ∧
        AckBuffer.Handed s.buf.isRunning stored m := by
  have hframe := (h.deliver bb hfence).2
  rw [← hs'] at hframe
  cases hw : q.window[q.target]? with
  | none =>
    rw [hw] at hframe
    rw [hframe.1] at hm
    cases hm
  | some f =>
    rw [hw] at hframe
    obtain ⟨m', hm', hh, hlast, hhand⟩ := hframe
    obtain rfl : m' = m := Option.some.inj (hm'.symm.trans hm)
    have hf : q.frames[q.gone.length + q.target]? = some f := by
      rw [Queue.frames_getElem?_right (Nat.le_add_right _ _), Nat.add_sub_cancel_left]
      exact hw
    have hlive : f.fate = .live :=
      h.shape.live_of_mem (List.mem_of_getElem? hw) (Queue.target_not_retired hw)
    refine ⟨?_, ?_, f.item.stored, ?_, hh⟩
    · rw [hlast]
      exact (h.live_iff hf).2 hlive
    · rw [hhand, hlast]
    · rw [hlast]
      rw [storedAt_succ, h.item_at hf]
      rfl

end BufferState

/-- In every run of one buffer that does not release its receipt tracking, the limits are
kept. -/
theorem transmission_limit {s₀ s : BufferState} {tr : List BufferStep} (hfresh : FreshBuffer s₀)
    (hrun : Machine.Run bufferMachine s₀ tr s) : LimitsKept tr s := by
  obtain ⟨q, hq⟩ := BufferState.chronicle_of_run hfresh hrun
  -- the queue before a step of the run, and after it
  have hsteps : ∀ st ∈ tr, ∃ tr' q₁ q₂, BufferState.Chronicle tr' st.pre q₁ ∧
      BufferState.Chronicle (tr' ++ [st]) st.post q₂ ∧
      st.post = bufferMachine.next st.pre st.act := by
    rintro ⟨pre, act, post⟩ hst
    obtain ⟨tr', hrun', -, hpost, -⟩ := hrun.step_of_mem hst
    obtain ⟨q₁, h₁⟩ := BufferState.chronicle_of_run hfresh hrun'
    obtain ⟨q₂, -, h₂⟩ := h₁.step act
    simp only at hpost
    rw [← hpost] at h₂
    exact ⟨tr', q₁, q₂, h₁, h₂, hpost⟩
  constructor
  · exact fun k hlim => hq.handoffs_le hlim
  · intro st hst k hlive hnot
    obtain ⟨tr', q₁, q₂, h₁, h₂, -⟩ := hsteps st hst
    rcases h₁.last_step h₂ hlive hnot with hc | ⟨hop, -, hlim, hle⟩
    · exact .inl hc
    · exact .inr ⟨hop, hlim, le_antisymm (h₁.handoffs_le hlim) hle⟩
  · intro st hst k hop hlim hused
    obtain ⟨tr', q₁, q₂, h₁, h₂, -⟩ := hsteps st hst
    exact h₁.reset_ends h₂ hop hlim hused
  · exact fun k hr => hq.retired_handoffs hr
  · exact hq.tracks.held.getUnAcked
  · intro st hst hop
    obtain ⟨tr', q₁, q₂, h₁, -, hpost⟩ := hsteps st hst
    have hfence := (h₁.tracks.deliver st.act.bb).2
    refine ⟨hfence, fun m hm => h₁.tracks.held.handout _ hfence hm ?_⟩
    rw [hpost, ← hop]
    rfl
  · exact fun x hx hret hnext hmax => hq.tracks.refines.sends_lt hx hret hnext hmax

/-- The second message is handed out once, and then retired. -/
theorem three_messages_limit :
    (bufferMachine.exec plainBuffer threeMessages).handoffs 2 ≤ 1 :=
  (transmission_limit plainBuffer_fresh
    (Machine.run_exec threeMessages (by decide +kernel))).handoffs_le 2 (by decide +kernel)

/-- A retired frame behind a live one keeps its entry: it is at the delivery index or
after it, and its sends are used up. -/
theorem retired_entry_used_up : ∃ tr s, FreshBuffer plainBuffer ∧
    Machine.Run bufferMachine plainBuffer tr s ∧
    ∃ x ∈ s.buf.trackedEntries, s.buf.Undelivered (s.buf.entryAt x) ∧
      (s.buf.entryAt x).max ≠ 0 ∧ ¬ (s.buf.entryAt x).sends < (s.buf.entryAt x).max := by
  refine ⟨_, _, plainBuffer_fresh, Machine.run_exec [alone (.updateCapacity 2),
    alone (.add {} 0 none none 0), alone (.add {} 0 none (some 0) 1), alone .getNextToDeliver,
    alone .getNextToDeliver, alone .resetDelivery] (by decide +kernel), 0, ?_⟩
  decide +kernel

end UspClient
