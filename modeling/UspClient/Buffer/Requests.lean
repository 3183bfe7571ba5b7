import UspClient.Buffer.Delivery
import UspClient.Buffer.Meter

/-!
# Pending acknowledgement requests

A client that waits needs a live frame that asks for an acknowledgement. A refusal by the
byte limits relies on `lastFlaggedSeq` (`Flags.holdsRequest`, `refused_heldFlagged`). A
refusal by the count relies on the interval of the flags: a full window holds a multiple
of `ackEvery`. That frame may have been retired, behind a live one.

* `full_window_has_request`: in runs in which no reset retires a flagged frame behind a
  live one, a full window holds a live frame that asks for an acknowledgement.
* `full_window_without_request`: a run that ends in a full window without one.
-/

namespace UspClient

open Word64 Replay AckBuffer BufferState

namespace AckBuffer

variable {b b' : AckBuffer} {bb : ByteBudget} {q q' : Queue Admission} {f : Frame Admission}
variable {i n : Nat}

/-- The buffer holds a live message that asks for an acknowledgement. -/
def holdsRequest (b : AckBuffer) : Bool :=
  (List.range b.nextIndexFree).any fun i =>
    !b.slotRetired i && (b.buff.getD i none).any DataMessage.ackRequested

/-- Slot `i` holds one. -/
def requestAt (b : AckBuffer) (i : Nat) : Bool :=
  decide (i < b.nextIndexFree) && !b.slotRetired i &&
    (b.buff.getD i none).any DataMessage.ackRequested

theorem Slots.requestAt (h : Slots b q) (hf : q.window[i]? = some f) (hl : f.fate = .live)
    (hflag : f.item.stored.ackRequested = true) : b.requestAt i = true := by
  have hret : f.retired = false := by
    unfold Frame.retired
    rw [hl]
    rfl
  have hlt : i < b.nextIndexFree := by
    rw [h.free]
    exact (List.getElem?_eq_some_iff.1 hf).1
  unfold AckBuffer.requestAt
  rw [h.slotRetired hf, h.getD hf, hret, decide_eq_true hlt]
  unfold slot
  rw [hret]
  exact hflag

theorem Slots.holdsRequest (h : Slots b q) (hf : q.window[i]? = some f) (hl : f.fate = .live)
    (hflag : f.item.stored.ackRequested = true) : b.holdsRequest = true := by
  have hat := h.requestAt hf hl hflag
  unfold AckBuffer.requestAt at hat
  rw [Bool.and_assoc, Bool.and_eq_true, decide_eq_true_eq] at hat
  exact List.any_eq_true.2 ⟨i, List.mem_range.2 hat.1, hat.2⟩

/-! ## Refusals by the byte limits -/

/-- The frame `lastFlaggedSeq`, if it is in the buffer, is live and asks for its
acknowledgement. -/
theorem Flags.last_frame (h : Flags b q) (hs : Slots b q) (hlen : q.items.length + 1 < 2 ^ 64)
    (hheld : b.heldFlagged = true) : ∃ (i : Nat) (f : Frame Admission), q.window[i]? = some f ∧
      q.gone.length + i + 1 = b.lastFlaggedSeq ∧ f.item.stored.ackRequested = true ∧
      f.fate = .live := by
  unfold heldFlagged at hheld
  rw [decide_eq_true_eq] at hheld
  have hrange := h.range
  have hfirst := hs.first
  have hitems := q.length_items
  rw [Nat.mod_eq_of_lt (by omega)] at hfirst
  obtain ⟨f, hf⟩ : ∃ f, q.window[b.lastFlaggedSeq - 1 - q.gone.length]? = some f :=
    ⟨_, List.getElem?_eq_getElem (by omega)⟩
  have hseq : f.item.stored.seqNum = b.lastFlaggedSeq := by
    rw [hs.seqs _ _ (items_window hf), Nat.mod_eq_of_lt (by omega)]
    omega
  exact ⟨_, f, hf, by omega, h.last (by omega) _ f hf hseq⟩

theorem Flags.holdsRequest (h : Flags b q) (hs : Slots b q) (hlen : q.items.length + 1 < 2 ^ 64)
    (hheld : b.heldFlagged = true) : b.holdsRequest = true := by
  obtain ⟨i, f, hf, -, hflag, hlive⟩ := h.last_frame hs hlen hheld
  exact hs.holdsRequest hf hlive hflag

/-- A forced request is never refused, and only a forced one passes the limit. -/
theorem reserveFor_force (bb : ByteBudget) (n : Nat) (force : Bool) (og : Option GroupId)
    (w : Option WaiterId) : (force = true → (bb.reserveFor n force og w).2.ok = true) ∧
      ((bb.reserveFor n force og w).2.overshot = true → force = true) := by
  have hadmit : ∀ (bb : ByteBudget) (g : GroupId) (removed : Bool),
      (force = true → (bb.admitOrQueue n force g removed).2.ok = true) ∧
        ((bb.admitOrQueue n force g removed).2.overshot = true → force = true) := by
    intro bb g removed
    unfold ByteBudget.admitOrQueue
    cases bb.fits n g <;> cases decide ((bb.groupAt g).waiters = []) <;> cases force <;> simp
  unfold ByteBudget.reserveFor
  cases bb.fair with
  | false =>
    unfold ByteBudget.reserveLegacy
    cases decide (bb.total = 0 ∨ n ≤ bb.total ∧ bb.used ≤ bb.total - n) <;> cases force <;> simp
  | true =>
    simp only [Bool.not_true, Bool.false_eq_true, if_false]
    cases w with
    | none => exact hadmit bb _ false
    | some w =>
      simp only
      split_ifs with hgranted hforce
      · exact ⟨fun _ => rfl, fun hover => hover.elim⟩
      · exact hadmit _ _ true
      · exact ⟨fun hyes => absurd hyes hforce, fun hover => hover.elim⟩

/-- The byte limits refuse only while the buffer relies on a request it made. -/
theorem refused_heldFlagged (e : DataMessage) (size : Nat) (waiter : Option WaiterId)
    (receipt : Option ReceiptId) (m : Nat) (havail : b.isAvailable = true)
    (hno : (b.tryAddWithReceiptLocked bb e size waiter receipt m).ok = false) :
    b.heldFlagged = true := by
  have hcheck := checkBytes_step b bb size waiter
  unfold tryAddWithReceiptLocked at hno
  rw [havail] at hno
  simp only [Bool.not_true, Bool.false_eq_true, if_false] at hno
  generalize b.checkBytes bb size waiter = r at hcheck hno
  cases hcheck with
  | unmetered | alone | charged => cases hno
  | full _ _ hheld => exact hheld
  | wait _ _ _ hrefused =>
    -- a forced request would have been taken
    by_contra hheld
    rw [Bool.not_eq_true] at hheld
    rw [hheld, Bool.not_false, (reserveFor_force ..).1 rfl] at hrefused
    cases hrefused

/-! ## The interval of the flags -/

theorem float64_le (n : Nat) : float64 n ≤ 2 * n := by
  unfold float64
  split_ifs with h
  · omega
  · simp only
    obtain ⟨ulp, hulp⟩ : ∃ ulp, ulp = 2 ^ (Nat.log2 n - 52) := ⟨_, rfl⟩
    rw [← hulp]
    have hpos : 0 < ulp := by
      rw [hulp]
      exact Nat.two_pow_pos _
    have hle : ulp ≤ n := by
      have hn : n ≠ 0 := by omega
      rw [hulp]
      exact le_trans (Nat.pow_le_pow_right (by omega) (Nat.sub_le _ _)) (Nat.log2_self_le hn)
    have hq : 1 ≤ n / ulp := (Nat.one_le_div_iff hpos).2 hle
    have hmul : n / ulp * ulp ≤ n := Nat.div_mul_le_self n ulp
    have hone : ulp ≤ n / ulp * ulp := Nat.le_mul_of_pos_left ulp hq
    split_ifs
    · rw [Nat.add_mul, Nat.one_mul]
      omega
    · omega

/-- Flags come at least once per window. -/
def AckSpacing (b : AckBuffer) : Prop := 1 ≤ b.ackEvery ∧ b.ackEvery ≤ max b.currentCapacity 1

theorem ackInterval_le (c : Nat) : 1 ≤ ackInterval c ∧ ackInterval c ≤ max c 1 := by
  have hle := float64_le c
  unfold ackInterval
  omega

theorem AckSpacing.updateCapacity (h : AckSpacing b) (c : Nat) : AckSpacing (b.updateCapacity c) := by
  unfold AckBuffer.updateCapacity
  split_ifs
  · exact h
  · exact ackInterval_le c

/-- The fields the count rule depends on. -/
def windowView (b : AckBuffer) : Nat × Nat := (b.currentCapacity, b.ackEvery)

theorem windowView_of_settings (h : b'.settingsView = b.settingsView) :
    b'.windowView = b.windowView := by
  simp only [settingsView, Prod.mk.injEq] at h
  obtain ⟨-, -, h₁, h₂⟩ := h
  unfold windowView
  rw [h₁, h₂]

end AckBuffer

namespace BufferState

variable {s s' : BufferState} {q : Queue Admission} {f : Frame Admission} {k : Nat}
variable {tr : List BufferStep}

open AckBuffer

/-- Only `UpdateCapacity` changes the window. -/
theorem Tracks.windowView (h : Tracks s q) (bb : ByteBudget) {op : BufferOp}
    (hop : ∀ c, op ≠ .updateCapacity c) :
    (s.apply bb op).1.buf.windowView = s.buf.windowView := by
  cases op with
  | add e size waiter receipt m =>
    obtain ⟨r, hstep, hr⟩ := addRound_buf s.buf bb e size waiter receipt m.toNat
    have hbuf : r.buf.windowView = s.buf.windowView := by
      cases hstep with
      | refused bb' w => rfl
      | admitted bb' flag overshot step forced _ _ =>
        exact windowView_of_settings (admitLocked_settings _ _ _ _ _)
    show (s.buf.addRound bb e size waiter receipt m.toNat).1.buf.windowView = _
    rcases hr with heq | ⟨-, heq⟩
    · rw [heq]
      exact hbuf
    · rw [heq]
      exact hbuf
  | getNextToDeliver =>
    have hled := (h.refines.getNextToDeliver bb).2.1
    have hc := congrArg AckBuffer.windowView hled
    exact hc
  | ack seq =>
    have hstep := ack_step s.buf bb seq.toNat
    show (s.buf.ack bb seq.toNat).1.windowView = s.buf.windowView
    generalize s.buf.ack bb seq.toNat = r at hstep ⊢
    cases hstep with
    | rejected err => rfl
    | late _ => rfl
    | removed hfree _ =>
      rw [h.refines.slots.free] at hfree
      exact windowView_of_settings (h.refines.ackRemove_moves bb hfree).settings
  | resetDelivery => exact windowView_of_settings (h.refines.resetDelivery bb).2.settings
  | updateCapacity c => exact absurd rfl (hop c)
  | beginDrain => rfl
  | drain first ctxDone =>
    have hround : ∀ b : AckBuffer, (b.drainRound ctxDone).1.windowView = b.windowView := by
      intro b
      rcases drainRound_cases b ctxDone with heq | heq
      · rw [heq]
      · rw [heq]
        rfl
    show (s.buf.drainSection first ctxDone).1.windowView = s.buf.windowView
    unfold drainSection
    split_ifs
    · exact hround _
    · exact hround _
  | close => rfl

theorem interval_of_run {s₀ : BufferState} (hfresh : FreshBuffer s₀)
    (hrun : Machine.Run bufferMachine s₀ tr s) : AckSpacing s.buf := by
  have hall := hrun.invariant (fun s => (∃ q, Tracks s q) ∧ AckSpacing s.buf) ?_ ?_
  · exact hall.2
  · obtain ⟨o, bb, hnew⟩ := hfresh.new
    refine ⟨⟨{}, newAckBuffer_refines hnew, hfresh.log.symm⟩, ?_⟩
    obtain ⟨group, hbuf⟩ := newAckBuffer_eq hnew
    rw [hbuf]
    exact ⟨le_rfl, le_rfl⟩
  · rintro s a - ⟨⟨q, hq⟩, hint⟩
    obtain ⟨q', -, hq'⟩ := hq.step a
    refine ⟨⟨q', hq'⟩, ?_⟩
    by_cases hop : ∃ c, a.op = .updateCapacity c
    · obtain ⟨c, hc⟩ := hop
      show AckSpacing (s.apply a.bb a.op).1.buf
      rw [hc]
      exact hint.updateCapacity c.toNat
    · have hview := hq.windowView a.bb fun c hc => hop ⟨c, hc⟩
      simp only [windowView, Prod.mk.injEq] at hview
      show AckSpacing (s.apply a.bb a.op).1.buf
      unfold AckSpacing
      rw [hview.1, hview.2]
      exact hint

/-! ## Full windows -/

/-- The frame was stored with an acknowledgement request. -/
def flagged (s : BufferState) (k : Nat) : Bool := (s.storedAt k).any DataMessage.ackRequested

/-- The frame had its last handoff. -/
def Exhausted (s : BufferState) (k : Nat) : Prop := s.limit k ≠ 0 ∧ s.limit k ≤ s.handoffs k

instance (s : BufferState) (k : Nat) : Decidable (s.Exhausted k) :=
  inferInstanceAs (Decidable (_ ∧ _))

/-- The call keeps the capacity, and does not retire a flagged frame behind a frame that
stays live. -/
def KeepsRequests (s : BufferState) : BufferOp → Prop
  | .resetDelivery => ∀ k ∈ s.liveNumbers, s.Exhausted k → s.flagged k = true →
      ∀ j ∈ s.liveNumbers, j < k → s.Exhausted j
  | .updateCapacity _ => False
  | _ => True

instance (s : BufferState) (op : BufferOp) : Decidable (s.KeepsRequests op) :=
  match op with
  | .resetDelivery => inferInstanceAs (Decidable (∀ k ∈ s.liveNumbers, s.Exhausted k →
      s.flagged k = true → ∀ j ∈ s.liveNumbers, j < k → s.Exhausted j))
  | .updateCapacity _ => isFalse id
  | .add .. | .getNextToDeliver | .ack _ | .beginDrain | .drain .. | .close => isTrue trivial

/-- Every multiple of the interval is flagged, and every flagged frame is live. -/
structure Window (c : Nat) (b : AckBuffer) (q : Queue Admission) : Prop where
  capacity : b.currentCapacity = c
  every : 1 ≤ b.ackEvery ∧ b.ackEvery ≤ c
  live : ∀ f ∈ q.window, f.item.stored.ackRequested = true → f.fate = .live
  flagged : ∀ f ∈ q.window, f.item.stored.seqNum % b.ackEvery = 0 →
    f.item.stored.ackRequested = true

theorem deliver_marks (q : Queue Admission) : q.deliver.window.map mark = q.window.map mark := by
  unfold Queue.deliver
  split_ifs
  · exact map_modify_same mark Frame.send (fun _ => rfl) _ _
  · rfl

/-- What the history says about a frame of the window. -/
theorem Chronicle.window_at (h : Chronicle tr s q) {i : Nat} (hf : q.window[i]? = some f) :
    (f.fate = .live ↔ q.gone.length + i + 1 ∈ s.liveNumbers) ∧
      (s.Exhausted (q.gone.length + i + 1) ↔ f.exhausted = true) ∧
      s.flagged (q.gone.length + i + 1) = f.item.stored.ackRequested := by
  have hframe : q.frames[q.gone.length + i]? = some f := by
    rw [Queue.frames_getElem?_right (Nat.le_add_right _ _), Nat.add_sub_cancel_left]
    exact hf
  have hlt := h.tracks.held.lt_of_frame hframe
  refine ⟨?_, ?_, ?_⟩
  · rw [mem_liveNumbers, h.tracks.held.live_iff hframe]
  · unfold Exhausted
    rw [Frame.exhausted_iff, h.tracks.limit_at hframe, ← h.sends _ f hframe]
  · unfold flagged
    rw [storedAt_succ, h.tracks.held.item_at hframe]
    rfl

/-- A flagged frame that a reset retires leaves the buffer with it. -/
theorem Chronicle.reset_live (h : Chronicle tr s q) {c : Nat} (hw : Window c s.buf q)
    (hkeep : s.KeepsRequests .resetDelivery) (hf : f ∈ q.reset.window)
    (hflag : f.item.stored.ackRequested = true) : f.fate = .live := by
  have hwindow : q.reset.window = (q.window.map Frame.expire).drop
      ((q.window.map Frame.expire).takeWhile Frame.retired).length := rfl
  rw [hwindow] at hf
  obtain ⟨j, hj⟩ := List.mem_iff_getElem?.1 hf
  rw [List.getElem?_drop, List.getElem?_map] at hj
  obtain ⟨i, hi⟩ : ∃ i, i = ((q.window.map Frame.expire).takeWhile Frame.retired).length + j :=
    ⟨_, rfl⟩
  rw [← hi] at hj
  obtain ⟨x, hx, rfl⟩ := Option.map_eq_some_iff.1 hj
  rw [Frame.expire_item] at hflag
  have hlive := hw.live x (List.mem_of_getElem? hx) hflag
  obtain ⟨hnum, hex, hflagged⟩ := h.window_at hx
  by_cases hexh : x.exhausted = true
  · -- then every frame before it is retired as well, and all of them leave
    exfalso
    have hrun : i < ((q.window.map Frame.expire).takeWhile Frame.retired).length := by
      refine Slice.lt_length_takeWhile fun m hm => ?_
      obtain ⟨y, hy⟩ : ∃ y, q.window[m]? = some y :=
        ⟨_, List.getElem?_eq_getElem (by
          have hlt := (List.getElem?_eq_some_iff.1 hx).1
          omega)⟩
      refine ⟨y.expire, by rw [List.getElem?_map, hy]; rfl, ?_⟩
      obtain ⟨hnumy, hexy, -⟩ := h.window_at hy
      -- a live frame before it was used up too: that is the assumption on the reset
      have hyex : y.fate = .live → y.exhausted = true := by
        intro hyl
        rcases Nat.lt_or_ge m i with hlt | hge
        · exact hexy.1 (hkeep _ (hnum.1 hlive) (hex.2 hexh) (hflagged.trans hflag) _
            (hnumy.1 hyl) (by omega))
        · obtain rfl : m = i := by omega
          rw [hx] at hy
          cases hy
          exact hexh
      unfold Frame.retired
      rw [Frame.expire_fate, decide_eq_true_eq]
      split_ifs with he
      · rfl
      · by_contra hnr
        refine he (hyex ?_)
        refine h.tracks.refines.sane.live_of_mem (List.mem_of_getElem? hy) ?_
        unfold Frame.retired
        exact decide_eq_false hnr
    omega
  · rw [Bool.not_eq_true] at hexh
    rw [expire_of_not_exhausted hexh]
    exact hlive

/-- Every call that keeps the requests keeps the window. -/
theorem Chronicle.window_step (h : Chronicle tr s q) {c : Nat} (hw : Window c s.buf q)
    (a : BufferAct) (hkeep : s.KeepsRequests a.op) : ∃ q',
      Chronicle (tr ++ [⟨s, a, bufferMachine.next s a⟩]) (bufferMachine.next s a) q' ∧
        Window c (bufferMachine.next s a).buf q' := by
  obtain ⟨q', hstep, hc⟩ := h.step a
  refine ⟨q', hc, ?_⟩
  have hview : (bufferMachine.next s a).buf.windowView = s.buf.windowView := by
    refine h.tracks.windowView a.bb fun c hc => ?_
    rw [hc] at hkeep
    exact hkeep
  simp only [windowView, Prod.mk.injEq] at hview
  generalize bufferMachine.next s a = s' at hstep hview
  -- the capacity and the interval stay; the frames of the new window remain to be checked
  have hframes : (∀ f ∈ q'.window, f.item.stored.ackRequested = true → f.fate = .live) →
      (∀ f ∈ q'.window, f.item.stored.seqNum % s.buf.ackEvery = 0 →
        f.item.stored.ackRequested = true) → Window c s'.buf q' := by
    intro h₁ h₂
    refine ⟨hview.1.trans hw.capacity, ?_, h₁, ?_⟩
    · rw [hview.2]
      exact hw.every
    · rw [hview.2]
      exact h₂
  cases hstep with
  | same hlog hhand hop hack => exact hframes hw.live hw.flagged
  | push adm hlog hhand hop hack hadm hrule =>
    obtain ⟨flag, hflag⟩ := hadm
    have hmem : ∀ x ∈ (q.push { item := adm, limit := adm.limit }).window,
        x ∈ q.window ∨ x = { item := adm, limit := adm.limit } := by
      intro x hx
      have hx' : x ∈ q.window ++ [{ item := adm, limit := adm.limit }] := hx
      rcases List.mem_append.1 hx' with hold | hnew
      · exact .inl hold
      · exact .inr (List.mem_singleton.1 hnew)
    refine hframes ?_ ?_
    · intro x hx hxf
      rcases hmem x hx with hold | rfl
      · exact hw.live x hold hxf
      · rfl
    · intro x hx hmod
      rcases hmem x hx with hold | rfl
      · exact hw.flagged x hold hmod
      · refine hrule ?_
        have hseq : adm.stored.seqNum = s.buf.nextSeqNum := by rw [hflag]
        rw [← hseq]
        exact hmod
  | deliver hlog hop hhand =>
    have hmem : ∀ x ∈ q.deliver.window, ∃ y ∈ q.window, y.item = x.item ∧ y.fate = x.fate := by
      intro x hx
      obtain ⟨i, hi⟩ := List.mem_iff_getElem?.1 hx
      obtain ⟨y, hy, hitem, hfate⟩ := mark_at (deliver_marks q).symm hi
      exact ⟨y, List.mem_of_getElem? hy, hitem, hfate⟩
    refine hframes ?_ ?_
    · intro x hx hxf
      obtain ⟨y, hy, hitem, hfate⟩ := hmem x hx
      rw [← hfate]
      exact hw.live y hy (by rw [hitem]; exact hxf)
    · intro x hx hmod
      obtain ⟨y, hy, hitem, -⟩ := hmem x hx
      rw [← hitem] at hmod ⊢
      exact hw.flagged y hy hmod
  | ack seq hlog hhand hop hok hi =>
    have hmem : ∀ x ∈ (q.ack (sub64 seq.toNat s.buf.firstSeqNum)).window, x ∈ q.window :=
      fun x hx => List.mem_of_mem_drop (List.mem_of_mem_drop hx)
    exact hframes (fun x hx => hw.live x (hmem x hx)) fun x hx => hw.flagged x (hmem x hx)
  | reset hlog hhand hop =>
    rw [hop] at hkeep
    refine hframes (fun x hx hxf => h.reset_live hw hkeep hx hxf) ?_
    intro x hx hmod
    obtain ⟨y, hy, rfl⟩ := List.mem_map.1 (List.mem_of_mem_drop hx)
    rw [Frame.expire_item] at hmod ⊢
    exact hw.flagged y hy hmod

/-- Among `n` consecutive numbers one is a multiple of `n`. -/
theorem exists_multiple (a : Nat) {n : Nat} (hn : 1 ≤ n) : ∃ i, i < n ∧ (a + i) % n = 0 := by
  refine ⟨(n - a % n) % n, Nat.mod_lt _ hn, ?_⟩
  have hlt := Nat.mod_lt a hn
  rw [Nat.add_mod_mod, Nat.add_mod, Nat.add_mod_mod]
  rw [Nat.add_sub_cancel' hlt.le, Nat.mod_self]

/-- A full window holds a flagged frame, and flagged frames are live. -/
theorem Window.holdsRequest {c : Nat} (hw : Window c s.buf q) (ht : Tracks s q)
    (hlen : s.log.length < 2 ^ 64) (hfull : c ≤ s.buf.nextIndexFree) :
    s.buf.holdsRequest = true := by
  obtain ⟨hpos, hle⟩ := hw.every
  rw [ht.refines.slots.free] at hfull
  obtain ⟨i, hi, hmod⟩ := exists_multiple (q.gone.length + 1) hpos
  obtain ⟨f, hf⟩ : ∃ f, q.window[i]? = some f := ⟨_, List.getElem?_eq_getElem (by omega)⟩
  have hmem := List.mem_of_getElem? hf
  have hseq : f.item.stored.seqNum = q.gone.length + 1 + i := by
    have hll := ht.held.length_log
    rw [ht.refines.slots.seqs _ _ (items_window hf), Nat.mod_eq_of_lt (by omega)]
    omega
  have hflag := hw.flagged f hmem (by rw [hseq]; exact hmod)
  exact ht.refines.slots.holdsRequest hf (hw.live f hmem hflag) hflag

end BufferState

/-- Set the capacity of an empty buffer and keep it. In every run in which no reset
retires a flagged frame behind a frame that stays live, a full window holds a live message
that asks for an acknowledgement. -/
theorem full_window_has_request {s₀ s₁ s : BufferState} {tr₁ tr : List BufferStep}
    {bb : ByteBudget} {capacity : UInt64} (hfresh : FreshBuffer s₀)
    (hreach : Machine.Run bufferMachine s₀ tr₁ s₁) (hempty : s₁.buf.nextIndexFree = 0)
    (hcap : 1 ≤ capacity.toNat)
    (hrun : Machine.Run bufferMachine
      (bufferMachine.next s₁ ⟨bb, .updateCapacity capacity⟩) tr s)
    (hkeep : ∀ st ∈ tr, st.pre.KeepsRequests st.act.op) (hlen : s.log.length < 2 ^ 64)
    (hfull : capacity.toNat ≤ s.buf.nextIndexFree) : s.buf.holdsRequest = true := by
  obtain ⟨q₁, h₁⟩ := chronicle_of_run hfresh hreach
  obtain ⟨q₂, hstep, h₂⟩ := h₁.step ⟨bb, .updateCapacity capacity⟩
  have hrun₂ := hreach.step (⟨bb, .updateCapacity capacity⟩ : BufferAct) trivial
  have hint := interval_of_run hfresh hrun₂
  obtain ⟨s₂, hs₂⟩ : ∃ s₂, bufferMachine.next s₁ ⟨bb, .updateCapacity capacity⟩ = s₂ := ⟨_, rfl⟩
  have hbuf : s₂.buf = s₁.buf.updateCapacity capacity.toNat := by
    rw [← hs₂]
    rfl
  -- the window starts empty, with the new capacity
  have hcapacity : s₂.buf.currentCapacity = capacity.toNat := by
    rw [hbuf]
    unfold updateCapacity
    split_ifs with heq
    · exact heq.symm
    · rfl
  have hfree : s₂.buf.nextIndexFree = 0 := by
    rw [hbuf]
    unfold updateCapacity
    split_ifs
    · exact hempty
    · exact hempty
  rw [hs₂] at hrun h₂ hint
  have hnil : q₂.window = [] := by
    rw [← List.length_eq_zero_iff, ← h₂.tracks.refines.slots.free]
    exact hfree
  have hstart : Window capacity.toNat s₂.buf q₂ := by
    refine ⟨hcapacity, ⟨hint.1, ?_⟩, ?_, ?_⟩
    · have hle := hint.2
      rw [hcapacity] at hle
      omega
    · rw [hnil]
      simp
    · rw [hnil]
      simp
  -- from there every step keeps `Window`
  have hall := hrun.invariant_of (fun s a => s.KeepsRequests a.op)
    (fun s => ∃ tr q, Chronicle tr s q ∧
      Window capacity.toNat s.buf q) ⟨_, q₂, h₂, hstart⟩ ?_ hkeep
  · obtain ⟨tr', q, hq, hw⟩ := hall
    exact hw.holdsRequest hq.tracks hlen hfull
  · rintro s a - hka ⟨tr', q, hq, hw⟩
    obtain ⟨q', hq', hw'⟩ := hq.window_step hw a hka
    exact ⟨_, q', hq', hw'⟩

/-- A window of four, with limits on the frames that are not flagged. -/
theorem full_window_of_four :
    (bufferMachine.exec (bufferMachine.next plainBuffer (alone (.updateCapacity 4)))
      [alone (.add {} 0 none (some 0) 1), alone (.add {} 0 none none 0),
        alone (.add {} 0 none none 0), alone (.add {} 0 none none 0), alone .getNextToDeliver,
        alone .getNextToDeliver, alone (.ack 1), alone .resetDelivery,
        alone (.add {} 0 none none 0)]).buf.holdsRequest = true :=
  full_window_has_request plainBuffer_fresh .init rfl (by decide +kernel)
    (Machine.run_exec _ (by decide +kernel)) (by decide +kernel) (by decide +kernel)
    (by decide +kernel)

/-- In a window of four the second and the fourth frame are flagged. With a limit of one
on both, a reset after they were delivered retires both; the first and the third stay,
none of them flagged, and the window is full. -/
theorem full_window_without_request : ∃ tr s, FreshBuffer plainBuffer ∧
    Machine.Run bufferMachine (bufferMachine.next plainBuffer (alone (.updateCapacity 4))) tr s ∧
    s.log.length < 2 ^ 64 ∧ 4 ≤ s.buf.nextIndexFree ∧ s.buf.isAvailable = false ∧
    s.buf.holdsRequest = false := by
  refine ⟨_, _, plainBuffer_fresh, Machine.run_exec [alone (.add {} 0 none none 0),
    alone (.add {} 0 none (some 0) 1), alone (.add {} 0 none none 0),
    alone (.add {} 0 none (some 1) 1), alone .getNextToDeliver, alone .getNextToDeliver,
    alone .getNextToDeliver, alone .getNextToDeliver, alone .resetDelivery]
    (by decide +kernel), ?_⟩
  decide +kernel

end UspClient
