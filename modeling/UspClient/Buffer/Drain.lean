import UspClient.Buffer.Bounds
import UspClient.Buffer.Cells

/-!
# Draining

Once admission is sealed the sender hands out what is left, and asks for one more
acknowledgement, on the last frame it sends. `drain` returns when nothing is left, or gives
up with a description of what is. Both are statements about the live slots: `pending` are
those at or after the delivery index.
-/

namespace UspClient

open Word64 Replay AckBuffer

namespace AckBuffer

variable {b b' : AckBuffer} {q : Queue Admission} {f : Frame Admission} {i j k n : Nat}

/-! ## The last frame of a sealed buffer -/

/-- The live slots at or after the delivery index. -/
def pending (b : AckBuffer) : List Nat :=
  (List.range' b.nextIndexToDeliver (b.nextIndexFree - b.nextIndexToDeliver)).filter
    fun i => !b.slotRetired i

/-- The message with an acknowledgement request. -/
def askAck (m : DataMessage) : DataMessage := { m with ackRequested := true }

/-- `GetNextToDeliver` until it returns nil, at most once for each budget of the list: the
frames, whether nil was returned, and the buffer. -/
def deliverAll : List ByteBudget → AckBuffer → List DataMessage × Bool × AckBuffer
  | [], b => ([], false, b)
  | bb :: bbs, b =>
    let r := b.getNextToDeliver bb
    match r.2.2.frame with
    | none => ([], true, r.1)
    | some m =>
      let rest := deliverAll bbs r.1
      (m :: rest.1, rest.2.1, rest.2.2)

/-- What a delivery leaves alone, and the frames and `pending` depend on. -/
def stillView (b : AckBuffer) : List (Option DataMessage) × Finset Nat × Nat × Nat × Bool :=
  (b.buff, b.retired, b.firstSeqNum, b.nextIndexFree, b.isRunning)

theorem slotRetired_still (h : b'.stillView = b.stillView) (i : Nat) :
    b'.slotRetired i = b.slotRetired i := by
  simp only [stillView, Prod.mk.injEq] at h
  unfold slotRetired
  rw [h.2.1, h.2.2.1]

/-- The slots from an index on, the first of them apart. -/
theorem pending_cons (c : AckBuffer) (hlt : b.nextIndexToDeliver < b.nextIndexFree)
    (h : c.stillView = b.stillView) (hnext : c.nextIndexToDeliver = b.nextIndexToDeliver + 1) :
    b.pending = if b.slotRetired b.nextIndexToDeliver then c.pending
      else b.nextIndexToDeliver :: c.pending := by
  have hfree : c.nextIndexFree = b.nextIndexFree := congrArg (fun v => v.2.2.2.1) h
  have hrest : c.pending = (List.range' (b.nextIndexToDeliver + 1)
      (b.nextIndexFree - (b.nextIndexToDeliver + 1))).filter fun i => !b.slotRetired i := by
    unfold pending
    rw [hfree, hnext]
    exact List.filter_congr fun i _ => by rw [slotRetired_still h]
  rw [hrest]
  unfold pending
  rw [show b.nextIndexFree - b.nextIndexToDeliver =
    (b.nextIndexFree - (b.nextIndexToDeliver + 1)) + 1 by omega, List.range'_succ, List.filter_cons]
  cases b.slotRetired b.nextIndexToDeliver <;> rfl

theorem pending_nil (h : b.nextIndexFree ≤ b.nextIndexToDeliver) : b.pending = [] := by
  unfold pending
  rw [Nat.sub_eq_zero_of_le h]
  rfl

theorem countSend_still (entry : Option EntryId) :
    (b.countSend entry).stillView = b.stillView ∧
      (b.countSend entry).nextIndexToDeliver = b.nextIndexToDeliver := by
  unfold countSend
  cases b.limited entry <;> exact ⟨rfl, rfl⟩

theorem onlyRetiredAfter_still (h : b'.stillView = b.stillView) (i : Nat) :
    b'.onlyRetiredAfterLocked i = b.onlyRetiredAfterLocked i := by
  have hslot : b'.slotRetired = b.slotRetired := funext (slotRetired_still h)
  simp only [stillView, Prod.mk.injEq] at h
  unfold onlyRetiredAfterLocked
  rw [hslot, h.2.1, h.2.2.2.1]

/-- The frame handed out for a slot. -/
theorem handOut_still (h : b'.stillView = b.stillView) (i : Nat) :
    (b'.handOut i).2 = (b.handOut i).2 := by
  have honly := onlyRetiredAfter_still h i
  simp only [stillView, Prod.mk.injEq] at h
  unfold handOut
  rw [honly, h.1, h.2.2.2.2]

/-- A delivery that does not reach the fence hands out the first pending slot. -/
theorem deliverLoop_pending (bb : ByteBudget) (fuel : Nat) : ∀ b : AckBuffer,
    b.nextIndexFree ≤ b.nextIndexToDeliver + fuel →
    (deliverLoop fuel b bb false).2.2.fenced = false →
    (deliverLoop fuel b bb false).1.stillView = b.stillView ∧
      match b.pending with
      | [] => (deliverLoop fuel b bb false).2.2.frame = none
      | i :: rest => (deliverLoop fuel b bb false).2.2.frame = (b.handOut i).2 ∧
          (deliverLoop fuel b bb false).1.pending = rest := by
  induction fuel with
  | zero =>
    intro b hfuel _
    rw [pending_nil hfuel]
    exact ⟨rfl, rfl⟩
  | succ fuel ih =>
    intro b hfuel hfenced
    unfold deliverLoop at hfenced ⊢
    by_cases hlt : b.nextIndexToDeliver < b.nextIndexFree
    · rw [if_pos hlt] at hfenced ⊢
      simp only at hfenced ⊢
      obtain ⟨cursor, htake⟩ := takeCursor_eq (b := b) b.nextIndexToDeliver
      obtain ⟨⟨b₁, entry⟩, hr⟩ : ∃ r, b.takeCursor b.nextIndexToDeliver = r := ⟨_, rfl⟩
      rw [hr] at htake hfenced ⊢
      simp only at hfenced ⊢
      obtain rfl : b₁ = { b with deliverCursor := cursor } := htake
      have hslot : ({ b with deliverCursor := cursor } : AckBuffer).slotRetired
          b.nextIndexToDeliver = b.slotRetired b.nextIndexToDeliver := rfl
      cases hret : b.slotRetired b.nextIndexToDeliver with
      | true =>
        -- a retired slot is skipped
        rw [hslot, hret, if_pos rfl] at hfenced ⊢
        obtain ⟨hstill, hframe⟩ := ih { b with
          deliverCursor := cursor, nextIndexToDeliver := b.nextIndexToDeliver + 1 }
          (by show b.nextIndexFree ≤ b.nextIndexToDeliver + 1 + fuel; omega) hfenced
        have hcons := pending_cons { b with
          deliverCursor := cursor, nextIndexToDeliver := b.nextIndexToDeliver + 1 } hlt rfl rfl
        rw [hret, if_pos rfl] at hcons
        refine ⟨hstill, ?_⟩
        rw [hcons]
        exact hframe
      | false =>
        rw [hslot, hret, if_neg Bool.false_ne_true] at hfenced ⊢
        cases hfence : ({ b with deliverCursor := cursor } : AckBuffer).fence entry with
        | some c =>
          simp only [hfence, deliverLoop_fenced] at hfenced
          cases hfenced
        | none =>
          simp only
          obtain ⟨hcount, -⟩ := countSend_still
            (b := ({ b with deliverCursor := cursor } : AckBuffer)) entry
          obtain ⟨b₂, hb₂⟩ : ∃ b₂, b₂ = ({ b with deliverCursor := cursor } : AckBuffer).countSend
            entry := ⟨_, rfl⟩
          rw [← hb₂] at hcount ⊢
          have hstill : (b₂.handOut b.nextIndexToDeliver).1.stillView = b.stillView := hcount
          have hcons := pending_cons (b₂.handOut b.nextIndexToDeliver).1 hlt hstill rfl
          rw [hret, if_neg Bool.false_ne_true] at hcons
          rw [hcons]
          exact ⟨hstill, handOut_still hcount _, rfl⟩
    · rw [if_neg hlt] at hfenced ⊢
      rw [pending_nil (by omega)]
      exact ⟨rfl, rfl⟩

/-- A `GetNextToDeliver` hands out the first pending slot. -/
theorem Represented.getNextToDeliver_pending (h : Represented b) (bb : ByteBudget)
    (hfenced : (b.getNextToDeliver bb).2.2.fenced = false) :
    (b.getNextToDeliver bb).1.stillView = b.stillView ∧
      match b.pending with
      | [] => (b.getNextToDeliver bb).2.2.frame = none
      | i :: rest => (b.getNextToDeliver bb).2.2.frame = (b.handOut i).2 ∧
          (b.getNextToDeliver bb).1.pending = rest := by
  unfold getNextToDeliver at hfenced ⊢
  cases hready : b.isReadyToDeliver with
  | false =>
    have hend : b.nextIndexFree ≤ b.nextIndexToDeliver := by
      by_contra hlt
      rw [h.ready.2 (by omega)] at hready
      cases hready
    rw [pending_nil hend]
    exact ⟨rfl, rfl⟩
  | true =>
    rw [hready, Bool.not_true, if_neg Bool.false_ne_true] at hfenced
    rw [Bool.not_true, if_neg Bool.false_ne_true]
    exact deliverLoop_pending bb _ b (by omega) hfenced

theorem all_retired_iff (l : List Nat) :
    l.all b.slotRetired = true ↔ (l.filter fun i => !b.slotRetired i) = [] := by
  rw [List.all_eq_true, List.filter_eq_nil_iff]
  refine forall₂_congr fun i _ => ?_
  cases b.slotRetired i <;> simp

/-- Only retired slots are behind a slot in use. -/
theorem onlyRetiredAfter_eq (hi : i < b.nextIndexFree) : b.onlyRetiredAfterLocked i =
    (List.range' (i + 1) (b.nextIndexFree - (i + 1))).all b.slotRetired := by
  unfold onlyRetiredAfterLocked
  split_ifs with hnone
  · have hslot : ∀ j, b.slotRetired j = false := by
      intro j
      unfold slotRetired
      rw [hnone]
      exact decide_eq_false (Finset.notMem_empty _)
    rcases Nat.lt_or_ge (i + 1) b.nextIndexFree with hlt | hge
    · rw [decide_eq_false (by omega), show b.nextIndexFree - (i + 1) =
        (b.nextIndexFree - (i + 2)) + 1 by omega, List.range'_succ, List.all_cons, hslot,
        Bool.false_and]
    · rw [decide_eq_true (by omega), Nat.sub_eq_zero_of_le hge]
      rfl
  · rfl

/-- The pending slots behind the first one are the live slots behind it. -/
theorem pending_tail {rest : List Nat} (h : b.pending = i :: rest) :
    i < b.nextIndexFree ∧
      rest = (List.range' (i + 1) (b.nextIndexFree - (i + 1))).filter fun j => !b.slotRetired j := by
  generalize hn : b.nextIndexFree - b.nextIndexToDeliver = n
  induction n generalizing b with
  | zero =>
    rw [pending_nil (by omega)] at h
    exact absurd h (List.cons_ne_nil _ _).symm
  | succ n ih =>
    obtain ⟨b', hb'⟩ : ∃ b' : AckBuffer, b' = { b with
      nextIndexToDeliver := b.nextIndexToDeliver + 1 } := ⟨_, rfl⟩
    have hstill : b'.stillView = b.stillView := by rw [hb']; rfl
    have hnext : b'.nextIndexToDeliver = b.nextIndexToDeliver + 1 := by rw [hb']
    have hfree : b'.nextIndexFree = b.nextIndexFree := by rw [hb']
    have hslot : b'.slotRetired = b.slotRetired := funext (slotRetired_still hstill)
    rw [pending_cons _ (by omega) hstill hnext] at h
    split_ifs at h with hret
    · have hrec := ih h (by omega)
      rw [hfree, hslot] at hrec
      exact hrec
    · obtain ⟨rfl, rfl⟩ := List.cons.inj h
      refine ⟨by omega, ?_⟩
      unfold pending
      rw [hfree, hnext, hslot]

/-- The frame of a pending slot of a sealed buffer asks for an acknowledgement exactly if it is
the last one. -/
theorem handOut_sealed {rest : List Nat} (hrun : b.isRunning = false)
    (h : b.pending = i :: rest) :
    (b.handOut i).2 = if rest = [] then (b.buff.getD i none).map askAck else b.buff.getD i none := by
  obtain ⟨hi, hrest⟩ := pending_tail h
  have hall : b.onlyRetiredAfterLocked i = decide (rest = []) := by
    rw [Bool.eq_iff_iff, decide_eq_true_eq, onlyRetiredAfter_eq hi, all_retired_iff, ← hrest]
  unfold handOut
  simp only [hrun, hall, Bool.not_false, Bool.true_and, decide_eq_true_eq]
  rfl

/-- A live slot behind the last pending one does not exist. -/
theorem retired_after_pending (h : b.pending.getLast? = some k) (hk : k < j)
    (hj : j < b.nextIndexFree) : b.slotRetired j = true := by
  by_contra hlive
  rw [Bool.not_eq_true] at hlive
  have hge : b.nextIndexToDeliver ≤ k := by
    have hmem := List.mem_of_getLast? h
    unfold pending at hmem
    rw [List.mem_filter, List.mem_range'_1] at hmem
    exact hmem.1.1
  have hmem : j ∈ b.pending := by
    unfold pending
    rw [List.mem_filter, List.mem_range'_1, hlive]
    exact ⟨by omega, rfl⟩
  have hsorted : b.pending.Pairwise (· < ·) := List.Pairwise.filter _ List.pairwise_lt_range'
  obtain ⟨front, hfront⟩ := List.getLast?_eq_some_iff.1 h
  rw [hfront] at hmem hsorted
  rcases List.mem_append.1 hmem with hin | hlast
  · have hlt := (List.pairwise_append.1 hsorted).2.2 j hin k (List.mem_singleton_self k)
    omega
  · rw [List.mem_singleton] at hlast
    omega

theorem getUnAcked_still (h : b'.stillView = b.stillView) : b'.getUnAcked = b.getUnAcked := by
  have hslot : b'.slotRetired = b.slotRetired := funext (slotRetired_still h)
  simp only [stillView, Prod.mk.injEq] at h
  unfold getUnAcked
  rw [hslot, h.1, h.2.1, h.2.2.2.1]

/-- The frames of the slots `l` of a sealed buffer: the stored messages, and the last one asks for
an acknowledgement. -/
def sealedFrames (b : AckBuffer) (l : List Nat) : List (Option DataMessage) :=
  (l.dropLast.map fun i => b.buff.getD i none) ++
    l.getLast?.toList.map fun i => (b.buff.getD i none).map askAck

theorem sealedFrames_cons (i : Nat) (rest : List Nat) : b.sealedFrames (i :: rest) =
    (if rest = [] then (b.buff.getD i none).map askAck else b.buff.getD i none) ::
      b.sealedFrames rest := by
  cases rest with
  | nil => rfl
  | cons j rest => rfl

end AckBuffer

namespace BufferState

variable {s s' s₀ : BufferState} {q q' : Queue Admission} {f : Frame Admission} {k : Nat}
variable {a : LifeAct} {tr : List LifeStep}

/-- The calls until nil hand out the pending slots. -/
theorem Life.deliverAll (bbs : List ByteBudget) : ∀ {s : BufferState} {q : Queue Admission},
    Life s q → s.buf.isRunning = false → s.buf.pending.length < bbs.length →
    (deliverAll bbs s.buf).1.map some = s.buf.sealedFrames s.buf.pending ∧
      (deliverAll bbs s.buf).2.1 = true ∧
      (deliverAll bbs s.buf).2.2.stillView = s.buf.stillView := by
  induction bbs with
  | nil =>
    intro s q _ _ hlen
    cases hlen
  | cons bb bbs ih =>
    intro s q h hrun hlen
    have hfence := h.not_fenced bb
    obtain ⟨hstill, hframe⟩ := h.held.shape.represented.getNextToDeliver_pending bb hfence
    unfold AckBuffer.deliverAll
    simp only
    cases hpend : s.buf.pending with
    | nil =>
      rw [hpend] at hframe
      rw [hframe]
      exact ⟨rfl, rfl, hstill⟩
    | cons i rest =>
      rw [hpend] at hframe hlen
      simp only at hframe
      -- the slot holds a message
      have hsealed := handOut_sealed hrun hpend
      obtain ⟨m, hm⟩ : ∃ m, s.buf.buff.getD i none = some m := by
        obtain ⟨x, hx⟩ := h.held.shape.represented.filled i (pending_tail hpend).1
        exact ⟨x, by rw [List.getD_eq_getElem?_getD, hx]; rfl⟩
      obtain ⟨x, hx⟩ : ∃ x, (s.buf.handOut i).2 = some x := by
        rw [hsealed, hm]
        split_ifs <;> exact ⟨_, rfl⟩
      rw [hframe.1, hx]
      simp only
      obtain ⟨q', -, hlife⟩ := h.step (a := ⟨bb, .call .getNextToDeliver⟩) trivial
      have hbuf : (lifeMachine.next s ⟨bb, .call .getNextToDeliver⟩).buf =
          (s.buf.getNextToDeliver bb).1 := rfl
      have hrun' : (s.buf.getNextToDeliver bb).1.isRunning = false :=
        (congrArg (fun v => v.2.2.2.2) hstill).trans hrun
      have hbuff : (s.buf.getNextToDeliver bb).1.buff = s.buf.buff :=
        congrArg (fun v => v.1) hstill
      obtain ⟨hframes, hend, hkept⟩ := ih hlife (by rw [hbuf]; exact hrun') (by
        rw [hbuf, hframe.2]
        simpa using hlen)
      rw [hbuf] at hframes hend hkept
      refine ⟨?_, hend, hkept.trans hstill⟩
      rw [List.map_cons, hframes, hframe.2, sealedFrames_cons, ← hsealed, hx]
      unfold sealedFrames
      rw [hbuff]

end BufferState

/-- In every state that a run of one buffer reaches with admission sealed, `GetNextToDeliver` called
until it returns nil hands out the live slots at or after the delivery index, in order: the stored
messages, but the last one asks for an acknowledgement. No live slot is behind the last one, and no
stored message changes. -/
theorem drain_asks_once {s₀ s : BufferState} {tr : List LifeStep} (hfresh : FreshBuffer s₀)
    (hrun : Machine.Run lifeMachine s₀ tr s) (hsealed : s.buf.isRunning = false)
    (bbs : List ByteBudget) (hbbs : s.buf.nextIndexFree - s.buf.nextIndexToDeliver < bbs.length) :
    let r := deliverAll bbs s.buf
    r.2.1 = true ∧
    r.1.map some = s.buf.sealedFrames s.buf.pending ∧
    (∀ k, s.buf.pending.getLast? = some k →
      ∀ j, k < j → j < s.buf.nextIndexFree → s.buf.slotRetired j = true) ∧
    r.2.2.buff = s.buf.buff ∧ r.2.2.getUnAcked = s.buf.getUnAcked := by
  intro r
  obtain ⟨q, hlife, -⟩ := BufferState.recalls_of_run hfresh hrun
  have hlen : s.buf.pending.length < bbs.length := by
    refine lt_of_le_of_lt ?_ hbbs
    unfold pending
    exact (List.length_filter_le _ _).trans_eq List.length_range'
  obtain ⟨hframes, hend, hstill⟩ := hlife.deliverAll bbs hsealed hlen
  exact ⟨hend, hframes, fun k hk j hkj hj => retired_after_pending hk hkj hj,
    congrArg (fun v => v.1) hstill, getUnAcked_still hstill⟩

/-- Four messages, the last one with limit one: it is handed out once, retired by the reset, and
the third is then the last one to be sent. -/
theorem retired_tail_asks_before :
    let s := lifeMachine.exec plainBuffer [solo (.updateCapacity 9), solo (.add {} 0 none none 0),
      solo (.add {} 0 none none 0), solo (.add {} 0 none none 0), solo (.add {} 0 none (some 0) 1),
      solo .getNextToDeliver, solo .getNextToDeliver, solo .getNextToDeliver, solo .getNextToDeliver,
      solo .resetDelivery, solo .beginDrain]
    s.buf.pending = [0, 1, 2] ∧
      (deliverAll (List.replicate 5 (newByteBudget 0)) s.buf).1.map some =
        [s.buf.buff.getD 0 none, s.buf.buff.getD 1 none,
          (s.buf.buff.getD 2 none).map askAck] := by
  intro s
  have hrun : Machine.Run lifeMachine plainBuffer _ s := Machine.run_exec _ (by decide +kernel)
  have hpend : s.buf.pending = [0, 1, 2] := by decide +kernel
  have hall := drain_asks_once plainBuffer_fresh hrun (by decide +kernel)
    (List.replicate 5 (newByteBudget 0)) (by decide +kernel)
  rw [hpend] at hall
  exact ⟨hpend, hall.2.1⟩

/-! ## What `drain` reports -/

namespace AckBuffer

variable {b : AckBuffer} {q : Queue Admission}

/-- The live slots. -/
def liveSlots (b : AckBuffer) : List Nat :=
  (List.range b.nextIndexFree).filter fun i => !b.slotRetired i

theorem Slots.liveSlots_map {β : Type} (h : Slots b q) {φ : Nat → β} {ψ : Frame Admission → β}
    (hφ : ∀ (i : Nat) f, q.window[i]? = some f → f.retired = false → φ i = ψ f) :
    b.liveSlots.map φ = (q.window.filter fun f => !f.retired).map ψ := by
  unfold liveSlots
  rw [h.free]
  refine Slice.map_filter_range q.window ?_ ?_
  · intro i f hf
    rw [h.slotRetired hf]
  · intro i f hf hr
    exact hφ i f hf (by simpa using hr)

/-- The retired numbers and the live slots together are the slots. -/
theorem Slots.card_retired (h : Slots b q) :
    b.retired.card + b.liveSlots.length = b.nextIndexFree := by
  have hcard : b.retired.card =
      ((List.range b.nextIndexFree).filter fun i => b.slotRetired i).length := by
    have himage : b.retired = (((List.range b.nextIndexFree).filter fun i => b.slotRetired i).map
        (add64 b.firstSeqNum)).toFinset := by
      ext seq
      rw [List.mem_toFinset, List.mem_map, h.retired]
      constructor
      · rintro ⟨i, f, hf, hr, rfl⟩
        refine ⟨i, ?_, (h.seq_at hf).symm⟩
        rw [List.mem_filter, List.mem_range, h.slotRetired hf, h.free]
        exact ⟨(List.getElem?_eq_some_iff.1 hf).1, hr⟩
      · rintro ⟨i, hi, rfl⟩
        rw [List.mem_filter, List.mem_range, h.free] at hi
        obtain ⟨f, hf⟩ : ∃ f, q.window[i]? = some f := ⟨_, List.getElem?_eq_getElem hi.1⟩
        rw [h.slotRetired hf] at hi
        exact ⟨i, f, hf, hi.2, h.seq_at hf⟩
    -- slots have different numbers
    have hnodup : (((List.range b.nextIndexFree).filter fun i => b.slotRetired i).map
        (add64 b.firstSeqNum)).Nodup := by
      refine List.Nodup.map_on ?_ (List.nodup_range.filter _)
      intro i hi j hj heq
      rw [List.mem_filter, List.mem_range, h.free] at hi hj
      obtain ⟨f, hf⟩ : ∃ f, q.window[i]? = some f := ⟨_, List.getElem?_eq_getElem hi.1⟩
      obtain ⟨g, hg⟩ : ∃ g, q.window[j]? = some g := ⟨_, List.getElem?_eq_getElem hj.1⟩
      have hidx := h.index_at hf
      rw [h.seq_at hf, heq, ← h.seq_at hg, h.index_at hg] at hidx
      exact hidx.symm
    rw [himage, List.toFinset_card_of_nodup hnodup, List.length_map]
  have hsplit := List.length_eq_length_filter_add (l := List.range b.nextIndexFree) b.slotRetired
  rw [List.length_range] at hsplit
  unfold liveSlots
  rw [hcard]
  exact hsplit.symm

/-- The first slot is live. -/
theorem Represented.liveSlots_eq (h : Represented b) (hpos : b.nextIndexFree ≠ 0) :
    b.liveSlots = 0 :: (List.range' 1 (b.nextIndexFree - 1)).filter fun i => !b.slotRetired i := by
  unfold liveSlots
  rw [List.range_eq_range', show b.nextIndexFree = (b.nextIndexFree - 1) + 1 by omega,
    List.range'_succ, List.filter_cons, h.head (by omega)]
  rfl

/-- The bounds of `DrainError` are the first and the last live slot. -/
theorem Represented.liveSeqBounds (h : Represented b) (hpos : b.nextIndexFree ≠ 0) :
    ∃ last, b.liveSlots.getLast? = some last ∧
      b.liveSeqBoundsLocked = (b.slotSeq 0, b.slotSeq last) := by
  have hlive := h.liveSlots_eq hpos
  have hhead := h.head (by omega)
  unfold liveSeqBoundsLocked
  simp only
  split_ifs with hnone
  · -- without a retirement every slot is live
    have hslot : ∀ j, b.slotRetired j = false := by
      intro j
      unfold slotRetired
      rw [hnone]
      exact decide_eq_false (Finset.notMem_empty _)
    refine ⟨b.nextIndexFree - 1, ?_, rfl⟩
    unfold liveSlots
    rw [List.filter_eq_self.2 fun i _ => by rw [hslot]; rfl, List.getLast?_range, if_neg hpos]
  · have hfirst : b.firstLive 0 (b.nextIndexFree - 1) = 0 := by
      unfold firstLive
      cases hn : b.nextIndexFree - 1 with
      | zero => rfl
      | succ n =>
        rw [List.range'_succ, List.find?_cons_of_pos (by rw [hhead]; rfl)]
        rfl
    refine ⟨b.lastLive 0 (b.nextIndexFree - 1), ?_, by rw [hfirst]⟩
    rw [hlive, List.getLast?_cons]
    unfold lastLive
    rw [← List.head?_filter, List.filter_reverse, List.head?_reverse]
    rfl

theorem isRunning_drainRound (b : AckBuffer) (ctxDone : Bool) :
    (b.drainRound ctxDone).1.isRunning = b.isRunning := by
  rcases drainRound_cases b ctxDone with h | h <;> rw [h]
  rfl

/-- A section of `drain` that seals, or runs on a sealed buffer, leaves it sealed. -/
theorem isRunning_drainSection {first : Bool} (ctxDone : Bool)
    (h : first = true ∨ b.isRunning = false) :
    (b.drainSection first ctxDone).1.isRunning = false := by
  unfold drainSection
  split_ifs with hfirst
  · rw [isRunning_drainRound]
    rfl
  · rw [isRunning_drainRound]
    exact h.resolve_left hfirst

theorem drainSection_empty {first ctxDone : Bool}
    (h : (b.drainSection first ctxDone).2 = .empty) : b.nextIndexFree = 0 := by
  have hround : ∀ b : AckBuffer, (b.drainRound ctxDone).2 = .empty → b.nextIndexFree = 0 := by
    intro b hempty
    unfold drainRound at hempty
    split_ifs at hempty with hzero
    · exact hzero
    · cases hreason : b.drainReason ctxDone <;> rw [hreason] at hempty <;>
        cases hempty
  unfold drainSection at h
  split_ifs at h
  · exact hround b.beginDrain h
  · exact hround b h

theorem drainSection_failed {first ctxDone : Bool} {err : DrainError}
    (h : (b.drainSection first ctxDone).2 = .failed err) :
    b.nextIndexFree ≠ 0 ∧ err.unacked = (b.nextIndexFree : Int) - b.retired.card ∧
      (err.firstSeq, err.lastSeq) = b.liveSeqBoundsLocked ∧
      (err.err = .closed ↔ b.isClosed = true) := by
  have hround : ∀ b : AckBuffer, (b.drainRound ctxDone).2 = .failed err →
      b.nextIndexFree ≠ 0 ∧ err.unacked = (b.nextIndexFree : Int) - b.retired.card ∧
        (err.firstSeq, err.lastSeq) = b.liveSeqBoundsLocked ∧
        (err.err = .closed ↔ b.isClosed = true) := by
    intro b hfailed
    unfold drainRound at hfailed
    split_ifs at hfailed with hzero
    cases hreason : b.drainReason ctxDone with
    | none =>
      rw [hreason] at hfailed
      cases hfailed
    | some reason =>
      rw [hreason] at hfailed
      obtain rfl := DrainRound.failed.inj hfailed
      refine ⟨hzero, rfl, rfl, ?_⟩
      unfold drainReason at hreason
      split_ifs at hreason with hclosed
      · exact iff_of_true (Option.some.inj hreason).symm hclosed
      · exact iff_of_false (by rw [← Option.some.inj hreason]; exact DrainReason.noConfusion) hclosed
  unfold drainSection at h
  split_ifs at h
  · exact hround b.beginDrain h
  · exact hround b h

end AckBuffer

/-- The calls of a life, without the release of the metadata. -/
def calls (tr : List LifeStep) : List BufferStep :=
  tr.filterMap fun st => match st.act.op with
    | .call op => some ⟨st.pre, ⟨st.act.bb, op⟩, st.post⟩
    | .releaseReceiptTracking => none

namespace BufferState

variable {s s' s₀ : BufferState} {q q' : Queue Admission} {f : Frame Admission} {k : Nat}
variable {a : LifeAct} {tr : List LifeStep} {cs : List BufferStep}

theorem calls_append_call (bb : ByteBudget) (op : BufferOp) :
    calls (tr ++ [⟨s, ⟨bb, .call op⟩, s'⟩]) = calls tr ++ [⟨s, ⟨bb, op⟩, s'⟩] := by
  unfold calls
  rw [List.filterMap_append]
  rfl

theorem calls_append_release (bb : ByteBudget) :
    calls (tr ++ [⟨s, ⟨bb, .releaseReceiptTracking⟩, s'⟩]) = calls tr := by
  unfold calls
  rw [List.filterMap_append]
  exact List.append_nil _

/-- Every confirmed frame has the step that confirmed it, every retired one the step that
retired it. -/
def Settled (cs : List BufferStep) (q : Queue Admission) : Prop :=
  ∀ (k : Nat) f, q.frames[k]? = some f →
    (f.fate = .confirmed → Confirmed cs (k + 1)) ∧ (f.fate = .retired → Retired cs (k + 1))

theorem Settled.append (h : Settled cs q) (st : BufferStep) : Settled (cs ++ [st]) q := by
  intro k f hf
  obtain ⟨hc, hr⟩ := h k f hf
  constructor
  · intro hfate
    obtain ⟨x, hx, hconf⟩ := hc hfate
    exact ⟨x, List.mem_append_left _ hx, hconf⟩
  · intro hfate
    obtain ⟨x, hx, hret⟩ := hr hfate
    exact ⟨x, List.mem_append_left _ hx, hret⟩

theorem Chronicle.settled (h : Chronicle cs s q) : Settled cs q :=
  fun k f hf => ⟨(h.confirmed k f hf).1, (h.retired k f hf).1⟩

/-- Frames that keep their fates. -/
theorem Settled.of_fates (h : Settled cs q)
    (hfates : ∀ (k : Nat) f, q'.frames[k]? = some f → f.fate ≠ .live →
      ∃ x, q.frames[k]? = some x ∧ x.fate = f.fate) : Settled cs q' := by
  intro k f hf
  constructor
  · intro hfate
    obtain ⟨x, hx, heq⟩ := hfates k f hf (by rw [hfate]; exact Fate.noConfusion)
    exact (h k x hx).1 (heq.trans hfate)
  · intro hfate
    obtain ⟨x, hx, heq⟩ := hfates k f hf (by rw [hfate]; exact Fate.noConfusion)
    exact (h k x hx).2 (heq.trans hfate)

/-- After the release of the metadata frames are only confirmed. -/
theorem Settled.queueStep (h : Settled cs q) (hheld : Held s q) (hheld' : Held s' q')
    {a : BufferAct} (hstep : QueueStep s q a s' q') (hop : a.op ≠ .resetDelivery) :
    Settled (cs ++ [⟨s, a, s'⟩]) q' := by
  cases hstep with
  | same _ _ _ _ => exact h.append _
  | push adm _ _ _ _ _ _ =>
    refine (h.append _).of_fates fun k f hf hnot => ?_
    rw [Queue.frames_push] at hf
    rcases getElem?_snoc hf with hold | ⟨-, rfl⟩
    · exact ⟨f, hold, rfl⟩
    · exact absurd rfl hnot
  | deliver _ _ _ =>
    refine (h.append _).of_fates fun k f hf _ => ?_
    rw [Queue.frames_deliver_getElem?] at hf
    obtain ⟨x, hx, rfl⟩ := Option.map_eq_some_iff.1 hf
    refine ⟨x, hx, ?_⟩
    split_ifs <;> rfl
  | ack seq _ _ hack hok hi =>
    intro k f hf
    have hf' := hf
    rw [Queue.frames_ack_getElem?] at hf'
    obtain ⟨x, hx, hxf⟩ := Option.map_eq_some_iff.1 hf'
    obtain ⟨hc, hr⟩ := h.append ⟨s, a, s'⟩ k x hx
    split_ifs at hxf with hin
    · rw [← hxf, Frame.confirm_fate]
      split_ifs with hlive
      · -- the step confirms the frame
        refine ⟨fun _ => ⟨⟨s, a, s'⟩, List.mem_append_right _ List.mem_cons_self, ?_⟩,
          False.elim⟩
        exact (hheld.confirms_iff hheld' hack hok rfl hi hx).2 ⟨hlive, hin⟩
      · exact ⟨hc, hr⟩
    · rw [← hxf]
      exact ⟨hc, hr⟩
  | reset _ _ hreset => exact absurd hreset hop

/-- What became of the frames of a run: the chronicle up to the release of the metadata, and the
steps that ended frames after it. -/
def Told (cs : List BufferStep) (s : BufferState) : Prop :=
  (∃ q, Chronicle cs s q) ∨
    ∃ q, Detached s.buf q ∧ q.items = s.log ∧ Settled cs q

theorem Told.step (h : Told (calls tr) s) (hg : s.Allows a.op) :
    Told (calls (tr ++ [⟨s, a, lifeMachine.next s a⟩])) (lifeMachine.next s a) := by
  obtain ⟨bb, op⟩ := a
  rcases h with ⟨q, hchron⟩ | ⟨q, hdet, hitems, hsettled⟩
  · cases op with
    | call op =>
      obtain ⟨q', -, hnext⟩ := hchron.step ⟨bb, op⟩
      rw [calls_append_call]
      exact .inl ⟨q', hnext⟩
    | releaseReceiptTracking =>
      -- the metadata goes, the slots and their history stay
      have hlife : Life s q := ⟨.inl hchron.tracks.refines, hchron.tracks.items⟩
      have hrun : s.buf.isRunning = false := hg
      have hshape : Shape s.buf.releaseReceiptTracking q :=
        hlife.held.shape.congr rfl rfl rfl
      rw [calls_append_release]
      refine .inr ⟨q, ⟨hshape, ?_⟩, hlife.items, hchron.settled⟩
      show (none, none, none, s.buf.isRunning) = _
      rw [hrun]
  · cases op with
    | call op =>
      rw [calls_append_call]
      right
      -- without entries a reset retires nothing
      by_cases hop : op = .resetDelivery
      · subst hop
        exact ⟨{ q with next := 0 }, hdet.resetDelivery bb, hitems, hsettled.append _⟩
      · obtain ⟨q', hmove, hdet', hitems'⟩ := detached_step hdet hitems bb op
        refine ⟨q', hdet', hitems', ?_⟩
        cases hmove with
        | call op' q' hcall hstep =>
          obtain rfl : op = op' := LifeOp.call.inj hcall
          exact hsettled.queueStep ⟨hdet.toShape, hitems⟩ ⟨hdet'.toShape, hitems'⟩ hstep hop
        | rewind hcall _ _ => exact absurd (LifeOp.call.inj hcall) hop
        | release hcall _ _ => cases hcall
    | releaseReceiptTracking =>
      rw [calls_append_release]
      refine .inr ⟨q, ⟨hdet.toShape.congr rfl rfl rfl, ?_⟩, hitems, hsettled⟩
      have hrun : s.buf.isRunning = false := hg
      show (none, none, none, s.buf.isRunning) = _
      rw [hrun]

theorem told_of_run (hfresh : FreshBuffer s₀) (hrun : Machine.Run lifeMachine s₀ tr s) :
    Told (calls tr) s :=
  hrun.history (fun tr s => Told (calls tr) s) (.inl ⟨_, FreshBuffer.chronicle hfresh⟩)
    fun _ _ _ hg h => h.step hg

/-- Without slots every admitted message was confirmed or retired. -/
theorem Told.ended (h : Told cs s) (hzero : s.buf.nextIndexFree = 0) (hk : 1 ≤ k)
    (hle : k ≤ s.log.length) : Confirmed cs k ∨ Retired cs k := by
  obtain ⟨q, hheld, hsettled⟩ : ∃ q, Held s q ∧ Settled cs q := by
    rcases h with ⟨q, hchron⟩ | ⟨q, hdet, hitems, hsettled⟩
    · exact ⟨q, hchron.tracks.held, hchron.settled⟩
    · exact ⟨q, ⟨hdet.toShape, hitems⟩, hsettled⟩
  obtain ⟨f, hf⟩ := hheld.frame_at (k := k - 1) (by omega)
  have hempty : q.window.length = 0 := by
    rw [← hheld.shape.slots.free]
    exact hzero
  have hgone : q.gone[k - 1]? = some f := by
    have hlen := hheld.length_log
    rw [← Queue.frames_getElem?_left (by omega)]
    exact hf
  have hnot := hheld.shape.gone f (List.mem_of_getElem? hgone)
  obtain ⟨hc, hr⟩ := hsettled (k - 1) f hf
  rw [Nat.sub_add_cancel hk] at hc hr
  cases hfate : f.fate with
  | live => exact absurd hfate hnot
  | confirmed => exact .inl (hc hfate)
  | retired => exact .inr (hr hfate)

theorem life_of_run (hfresh : FreshBuffer s₀) (hrun : Machine.Run lifeMachine s₀ tr s) :
    ∃ q, Life s q :=
  hrun.invariant (fun s => ∃ q, Life s q) ⟨_, FreshBuffer.life hfresh⟩
    fun _ _ hg ⟨_, hl⟩ => let ⟨q', _, hl'⟩ := hl.step hg; ⟨q', hl'⟩

/-- A run that drained the buffer left it sealed. -/
theorem sealed_of_drain (hfresh : FreshBuffer s₀) (hrun : Machine.Run lifeMachine s₀ tr s)
    (hdrain : ∃ st ∈ tr, ∃ ctxDone, st.act.op = .call (.drain true ctxDone)) :
    s.buf.isRunning = false := by
  have hinv : (∃ q, Life s q) ∧ ((∃ st ∈ tr, ∃ ctxDone, st.act.op = .call (.drain true ctxDone)) →
      s.buf.isRunning = false) := by
    refine hrun.history (fun tr s => (∃ q, Life s q) ∧ ((∃ st ∈ tr, ∃ ctxDone,
      st.act.op = .call (.drain true ctxDone)) → s.buf.isRunning = false)) ?_ ?_
    · exact ⟨⟨_, FreshBuffer.life hfresh⟩, fun ⟨st, hst, _⟩ => absurd hst List.not_mem_nil⟩
    · rintro tr s a hg ⟨⟨q, hlife⟩, hsealed⟩
      obtain ⟨q', -, hlife'⟩ := hlife.step hg
      refine ⟨⟨q', hlife'⟩, ?_⟩
      rintro ⟨st, hst, ctxDone, hop⟩
      rcases List.mem_append.1 hst with hold | hnew
      · exact hlife.sealed_step (hsealed ⟨st, hold, ctxDone, hop⟩) a
      · -- the first section of the call
        rw [List.mem_singleton] at hnew
        subst hnew
        obtain ⟨bb, op⟩ := a
        obtain rfl : op = .call (.drain true ctxDone) := hop
        exact isRunning_drainSection _ (.inl rfl)
  exact hinv.2 hdrain

/-- The sequence numbers of the live slots are those of the live frames. -/
theorem Held.slotSeq_map (h : Held s q) :
    s.buf.liveSlots.map s.buf.slotSeq = s.liveNumbers.map (· % 2 ^ 64) := by
  calc s.buf.liveSlots.map s.buf.slotSeq
      = (q.window.filter fun f => !f.retired).map fun f => f.item.stored.seqNum := by
        refine h.shape.slots.liveSlots_map fun i f hf hr => ?_
        unfold slotSeq
        rw [h.shape.slots.getD hf]
        unfold slot
        rw [hr]
        rfl
    _ = s.liveNumbers.map (· % 2 ^ 64) := by
        refine h.live_map fun i f hf => h.shape.slots.seqs i f.item ?_
        rw [h.items]
        exact h.item_at hf

end BufferState

/-- In every state that a run of one buffer reaches, a section of `drain` that returns nil leaves
admission sealed and finds every admitted message confirmed by an accepted `Ack` or retired. One
that fails counts the messages of `GetUnAcked`, at least one, gives the sequence numbers of the
first and the last of them, and says closed exactly if the buffer is. A later section of a call
has its first one in the run. -/
theorem drain_verdict {s₀ s : BufferState} {tr : List LifeStep} (hfresh : FreshBuffer s₀)
    (hrun : Machine.Run lifeMachine s₀ tr s) (first ctxDone : Bool)
    (hcall : first = true ∨ ∃ st ∈ tr, ∃ c, st.act.op = .call (.drain true c)) :
    let r := s.buf.drainSection first ctxDone
    (r.2 = .empty → r.1.isRunning = false ∧
      ∀ k, 1 ≤ k → k ≤ s.log.length → Confirmed (calls tr) k ∨ Retired (calls tr) k) ∧
    (∀ err, r.2 = .failed err →
      err.unacked = s.buf.getUnAcked.length ∧ 1 ≤ s.buf.getUnAcked.length ∧
      (∃ k, s.liveNumbers.head? = some k ∧ s.buf.getUnAcked.head? = some (s.storedAt k) ∧
        err.firstSeq = k % 2 ^ 64) ∧
      (∃ k, s.liveNumbers.getLast? = some k ∧ s.buf.getUnAcked.getLast? = some (s.storedAt k) ∧
        err.lastSeq = k % 2 ^ 64) ∧
      (err.err = .closed ↔ s.buf.isClosed = true)) := by
  intro r
  obtain ⟨q, hlife⟩ := BufferState.life_of_run hfresh hrun
  have hheld := hlife.held
  refine ⟨fun hempty => ⟨?_, fun k hk hle => ?_⟩, fun err hfailed => ?_⟩
  · -- the first section seals, and a later one finds the seal
    rcases hcall with rfl | hdrain
    · exact isRunning_drainSection _ (.inl rfl)
    · exact isRunning_drainSection _
        (.inr (BufferState.sealed_of_drain hfresh hrun hdrain))
  · exact (BufferState.told_of_run hfresh hrun).ended (drainSection_empty hempty) hk hle
  · obtain ⟨hpos, hcount, hbounds, hreason⟩ := drainSection_failed hfailed
    have hrep := hheld.shape.represented
    have hseqs := hheld.slotSeq_map
    have hlength : s.buf.liveSlots.length = s.liveNumbers.length := by
      simpa using congrArg List.length hseqs
    have hcard := hheld.shape.slots.card_retired
    have hfirst := hrep.liveSlots_eq hpos
    obtain ⟨last, hlast, hlocked⟩ := hrep.liveSeqBounds hpos
    rw [hlocked] at hbounds
    -- the bounds are the first and the last of the live slots
    have hhead : s.liveNumbers.head?.map (· % 2 ^ 64) = some err.firstSeq := by
      rw [← List.head?_map, ← hseqs, hfirst, (Prod.mk.inj hbounds).1]
      rfl
    have hback : s.liveNumbers.getLast?.map (· % 2 ^ 64) = some err.lastSeq := by
      rw [← List.getLast?_map, ← hseqs, List.getLast?_map, hlast, (Prod.mk.inj hbounds).2]
      rfl
    obtain ⟨k, hk, hkseq⟩ := Option.map_eq_some_iff.1 hhead
    obtain ⟨l, hl, hlseq⟩ := Option.map_eq_some_iff.1 hback
    rw [hheld.getUnAcked, List.length_map, List.head?_map, List.getLast?_map, hk, hl, ← hlength]
    refine ⟨by omega, ?_, ⟨k, rfl, rfl, hkseq.symm⟩, ⟨l, rfl, rfl, hlseq.symm⟩, hreason⟩
    rw [hfirst]
    exact Nat.le_add_left _ _

/-- Four messages: the first is confirmed, the third retired. The buffer closes in `drain`. -/
def closedDrain : List LifeAct :=
  [solo (.updateCapacity 4), solo (.add {} 0 none none 0), solo (.add {} 0 none none 0),
    solo (.add {} 0 none (some 0) 1), solo (.add {} 0 none none 0), solo .getNextToDeliver,
    solo .getNextToDeliver, solo .getNextToDeliver, solo (.ack 1), solo .resetDelivery,
    solo (.drain true false), solo .close]

/-- The error counts the second and the fourth message. -/
theorem closed_drain_reports :
    let s := lifeMachine.exec plainBuffer closedDrain
    ∃ err, (s.buf.drainSection false false).2 = .failed err ∧ err.err = .closed ∧
      err.unacked = 2 ∧ s.buf.getUnAcked.length = 2 ∧
      ∃ k, s.buf.getUnAcked.getLast? = some (s.storedAt k) ∧ err.lastSeq = k % 2 ^ 64 := by
  intro s
  have hrun : Machine.Run lifeMachine plainBuffer _ s :=
    Machine.run_exec closedDrain (by decide +kernel)
  obtain ⟨st, hst, hact⟩ := Machine.exists_mem_trace (M := lifeMachine) (s := plainBuffer)
    (show solo (.drain true false) ∈ closedDrain from List.mem_of_getElem? (i := 10) rfl)
  have hverdict := drain_verdict plainBuffer_fresh hrun false false
    (.inr ⟨st, hst, false, congrArg LifeAct.op hact⟩)
  obtain ⟨err, herr⟩ : ∃ err, (s.buf.drainSection false false).2 = .failed err :=
    ⟨⟨2, 2, 4, .closed⟩, by decide +kernel⟩
  obtain ⟨hcount, -, -, ⟨k, -, hlast, hseq⟩, hclosed⟩ := hverdict.2 err herr
  have hlen : s.buf.getUnAcked.length = 2 := by decide +kernel
  exact ⟨err, herr, hclosed.2 (by decide +kernel), by rw [hcount, hlen]; rfl, hlen, k, hlast, hseq⟩

end UspClient
