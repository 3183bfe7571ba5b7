import UspClient.Buffer.Cap

/-!
# What the pressure rule covers

From half of `MaxBytes` on, an admission asks for an acknowledgement once a sixteenth of the
limit was admitted since the last request. `bytesSinceFlag` is what was admitted since, and
neither acknowledgements nor retirements lower it. So it bounds what the window holds behind
the last request, and while more than half of the limit is held it is below a sixteenth.
-/

namespace UspClient

open Word64 Replay AckBuffer

namespace AckBuffer

variable {b b' : AckBuffer} {bb bb' : ByteBudget} {q q' : Queue Admission} {f : Frame Admission}
variable {i seq size : Nat} {waiter : Option WaiterId}

/-! ## The frames behind a request -/

/-- What a frame weighs if it was admitted after frame `seq`. -/
def laterSize (seq : Nat) (f : Frame Admission) : Nat :=
  if seq < f.item.stored.seqNum then heldSize f else 0

/-- The size of the live frames that were admitted after frame `seq`. -/
def laterBytes (seq : Nat) (q : Queue Admission) : Nat := (q.window.map (laterSize seq)).sum

theorem laterBytes_congr (hmark : q'.window.map mark = q.window.map mark) :
    laterBytes seq q' = laterBytes seq q := by
  have hmap := map_of_mark (φ := laterSize seq) hmark (fun m =>
    if seq < m.1.stored.seqNum then if decide (m.2 = .retired) then 0 else m.1.size else 0)
    fun _ => rfl
  unfold laterBytes
  rw [hmap]

theorem laterBytes_retire (hf : q.window[i]? = some f) :
    laterBytes seq { q with window := q.window.modify i retire } ≤ laterBytes seq q := by
  have hat : (q.window.map (laterSize seq))[i]? = some (laterSize seq f) := by
    rw [List.getElem?_map, hf, Option.map_some]
  have hzero : laterSize seq (retire f) = 0 := ite_self 0
  have hsum := Slice.sum_set_add hat 0
  unfold laterBytes
  show ((q.window.modify i retire).map (laterSize seq)).sum ≤ _
  rw [map_modify _ _ hf, hzero]
  omega

theorem laterBytes_remove (n : Nat) (g : Frame Admission → Frame Admission) :
    laterBytes seq (q.remove n g) ≤ laterBytes seq q := by
  have hsum := List.sum_take_add_sum_drop (q.window.map (laterSize seq)) n
  unfold laterBytes
  show ((q.window.drop n).map (laterSize seq)).sum ≤ _
  rw [List.map_drop]
  omega

theorem laterBytes_push (f : Frame Admission) :
    laterBytes seq (q.push f) = laterBytes seq q + laterSize seq f := by
  unfold laterBytes Queue.push
  rw [List.map_append, List.sum_append, List.map_singleton, List.sum_singleton]

/-- While the numbers do not wrap, no frame is newer than the last one admitted. -/
theorem Slots.seq_le (h : Slots b q) (hlen : q.items.length < 2 ^ 64) (hf : f ∈ q.window) :
    f.item.stored.seqNum ≤ q.items.length := by
  rcases List.mem_iff_getElem?.1 hf with ⟨i, hi⟩
  have hnum := h.seqs _ _ (items_window hi)
  have hlt := (List.getElem?_eq_some_iff.1 (items_window hi)).1
  rw [Nat.mod_eq_of_lt (by omega)] at hnum
  omega

theorem Slots.laterBytes_newest (h : Slots b q) (hlen : q.items.length < 2 ^ 64)
    (hseq : q.items.length ≤ seq) : laterBytes seq q = 0 := by
  unfold laterBytes
  refine List.sum_eq_zero fun y hy => ?_
  rcases List.mem_map.1 hy with ⟨f, hf, rfl⟩
  have hle := h.seq_le hlen hf
  exact if_neg (by omega)

/-! ## What every call keeps -/

/-- The counter bounds what was admitted behind the last request, and is small under
pressure. -/
structure Covered (b : AckBuffer) (q : Queue Admission) : Prop where
  accounting : b.accounting = true
  later : b.lastFlaggedSeq ≠ 0 → laterBytes b.lastFlaggedSeq q ≤ b.bytesSinceFlag
  pressed : b.lastFlaggedSeq ≠ 0 → b.maxBytes < 2 * windowBytes q →
    b.bytesSinceFlag < b.maxBytes / pressureStepDivisor

/-- Frames leave the window, and the last request may be forgotten. -/
theorem Covered.shrink (h : Covered b q) (hacc : b'.accounting = b.accounting)
    (hmax : b'.maxBytes = b.maxBytes) (hsince : b'.bytesSinceFlag = b.bytesSinceFlag)
    (hflag : b'.lastFlaggedSeq = b.lastFlaggedSeq ∨ b'.lastFlaggedSeq = 0)
    (hlater : laterBytes b.lastFlaggedSeq q' ≤ laterBytes b.lastFlaggedSeq q)
    (hbytes : windowBytes q' ≤ windowBytes q) : Covered b' q' := by
  constructor
  · rw [hacc]
    exact h.accounting
  · intro hne
    have hsame := hflag.resolve_right hne
    rw [hsame] at hne ⊢
    rw [hsince]
    exact hlater.trans (h.later hne)
  · intro hne hover
    have hsame := hflag.resolve_right hne
    rw [hsame] at hne
    rw [hmax] at hover
    rw [hsince, hmax]
    exact h.pressed hne (by omega)

theorem Covered.same (h : Covered b q) (hacc : b'.accounting = b.accounting)
    (hmax : b'.maxBytes = b.maxBytes) (hsince : b'.bytesSinceFlag = b.bytesSinceFlag)
    (hflag : b'.lastFlaggedSeq = b.lastFlaggedSeq) : Covered b' q :=
  h.shrink hacc hmax hsince (.inl hflag) le_rfl le_rfl

theorem Deal.covered {c c' : Account} (h : Deal c c') (hc : Covered c.1 c.2.2) :
    Covered c'.1 c'.2.2 := by
  cases h with
  | move hmove =>
    cases hmove with
    | idle b b' bb q q' hled _ hmark =>
      have hacc : b'.accounting = b.accounting := congrArg (fun b => b.accounting) hled
      have hmax : b'.maxBytes = b.maxBytes := congrArg (fun b => b.maxBytes) hled
      have hsince : b'.bytesSinceFlag = b.bytesSinceFlag :=
        congrArg (fun b => b.bytesSinceFlag) hled
      have hflag : b'.lastFlaggedSeq = b.lastFlaggedSeq :=
        congrArg (fun b => b.lastFlaggedSeq) hled
      exact Covered.shrink hc hacc hmax hsince (.inl hflag) (laterBytes_congr hmark).le
        (windowBytes_congr hmark).le
    | retire b bb q i entry f _ hf hl _ =>
      have hflag : (b.retireLocked bb i entry).1.lastFlaggedSeq =
          if b.lastFlaggedSeq = (b.entryAt entry).seq then 0 else b.lastFlaggedSeq := rfl
      have hsum := windowBytes_retire hf hl
      have hle : windowBytes { q with window := q.window.modify i retire } ≤
        windowBytes q := by omega
      refine Covered.shrink hc rfl rfl rfl ?_ (laterBytes_retire hf) hle
      rw [hflag]
      split_ifs
      · exact .inr rfl
      · exact .inl rfl
    | remove b bb q i g _ _ _ =>
      exact Covered.shrink hc rfl rfl rfl (.inl rfl) (laterBytes_remove _ g)
        (windowBytes_remove_le _ g)
  | sample | stop | close => exact Covered.same hc rfl rfl rfl rfl
  | resize b bb q n =>
    show Covered (b.updateCapacity n) q
    unfold updateCapacity
    split_ifs
    · exact hc
    · exact Covered.same hc rfl rfl rfl rfl

/-! ## Admission -/

/-- The share of the budget that an admission reads brings no step of zero: a budget of fewer
than sixteen bytes admits escapes only. -/
def Stepped (b : AckBuffer) (bb : ByteBudget) (size : Nat) (waiter : Option WaiterId) : Prop :=
  let r := bb.reserveFor size (!b.heldFlagged) b.group waiter
  b.shared = true → r.2.ok = true → r.2.overshot = false →
    r.1.total = 0 ∨ pressureStepDivisor ≤ r.1.total

/-- The step of the shared limit is used only if it is the smaller one. -/
theorem sharedStep_le {total used step : Nat} (hstep : step ≠ 0)
    (htotal : total = 0 ∨ pressureStepDivisor ≤ total) :
    sharedStep total used step ≠ 0 ∧ sharedStep total used step ≤ step := by
  unfold sharedStep
  simp only
  split_ifs with hhalf hless
  · have hpos : 0 < total / pressureStepDivisor :=
      Nat.div_pos (htotal.resolve_left hhalf.1) (by decide)
    have hlt := hless.resolve_left hstep
    omega
  · exact ⟨hstep, le_rfl⟩
  · exact ⟨hstep, le_rfl⟩

/-- From half of the limit on there is a step of at most a sixteenth, unless the message is an
escape. -/
theorem checkBytes_pressure {forced overshot : Bool} {step : Nat} (hacc : b.accounting = true)
    (hM : pressureStepDivisor ≤ b.maxBytes) (hsum : b.bytes + size < 2 ^ 63)
    (hhalf : b.maxBytes ≤ 2 * (b.bytes + size)) (hshare : b.Stepped bb size waiter)
    (h : b.checkBytes bb size waiter = (bb', .room forced overshot step)) :
    forced = true ∨ (step ≠ 0 ∧ step ≤ b.maxBytes / pressureStepDivisor) := by
  have hdiv : b.maxBytes / pressureStepDivisor ≠ 0 := (Nat.div_pos hM (by decide)).ne'
  have hpos : b.maxBytes ≠ 0 := (lt_of_lt_of_le (by decide) hM).ne'
  have hadd : add64 b.bytes size = b.bytes + size := add64_eq (by omega)
  have hdouble : add64 (b.bytes + size) (b.bytes + size) = 2 * (b.bytes + size) := by
    rw [add64_eq (by omega)]
    omega
  unfold checkBytes at h
  simp only [hacc, Bool.not_true, Bool.false_eq_true, if_false] at h
  rw [hadd, hdouble, if_pos (show b.maxBytes ≠ 0 ∧ 2 * (b.bytes + size) ≥ b.maxBytes from
    ⟨hpos, hhalf⟩)] at h
  unfold Stepped at hshare
  simp only at hshare
  split_ifs at h with hblocked halone hno
  · exact absurd (Prod.mk.inj h).2 ByteVerdict.noConfusion
  · -- the buffer stands alone
    simp only [Prod.mk.injEq, ByteVerdict.room.injEq] at h
    rw [← h.2.2.2]
    exact .inr ⟨hdiv, le_rfl⟩
  · exact absurd (Prod.mk.inj h).2 ByteVerdict.noConfusion
  · simp only [Prod.mk.injEq, ByteVerdict.room.injEq] at h
    rw [← h.2.1, ← h.2.2.2]
    cases hover : (bb.reserveFor size (!b.heldFlagged) b.group waiter).2.overshot with
    | true => exact .inl (Bool.or_true _)
    | false =>
      right
      refine sharedStep_le hdiv (hshare ?_ ?_ hover)
      · simpa using halone
      · simpa using hno

/-- A message without a request, under pressure: less than a sixteenth was admitted since the
last one. -/
theorem tryAdd_pressure {e m : DataMessage} {receipt : Option ReceiptId} {n : Nat}
    (hacc : b.accounting = true) (hM : pressureStepDivisor ≤ b.maxBytes)
    (hsum : b.bytes + size < 2 ^ 63) (hsince : b.bytesSinceFlag + size < 2 ^ 63)
    (hhalf : b.maxBytes ≤ 2 * (b.bytes + size)) (hshare : b.Stepped bb size waiter)
    (h : (b.tryAddWithReceiptLocked bb e size waiter receipt n).stored = some m)
    (hno : m.ackRequested = false) :
    b.bytesSinceFlag + size < b.maxBytes / pressureStepDivisor := by
  unfold tryAddWithReceiptLocked at h
  split_ifs at h
  rcases hr : b.checkBytes bb size waiter with ⟨bb', verdict⟩
  rw [hr] at h
  cases verdict with
  | refused w => cases h
  | room forced overshot step =>
    have hstamp : (b.stamp e size forced step).ackRequested = false := by
      rw [Option.some.inj h]
      exact hno
    unfold stamp at hstamp
    simp only [Bool.or_eq_false_iff, decide_eq_false_iff_not] at hstamp
    rcases hstamp with ⟨⟨-, hforced⟩, hstep⟩
    rcases checkBytes_pressure hacc hM hsum hhalf hshare hr with hyes | ⟨hpos, hle⟩
    · rw [hyes] at hforced
      cases hforced
    · rw [add64_eq (by omega)] at hstep
      have hlt : ¬ b.bytesSinceFlag + size ≥ step := fun hge => hstep ⟨hpos, hge⟩
      omega

/-- `admitLocked` restarts the counter at a request, and adds to it otherwise. -/
theorem admitLocked_since (e : DataMessage) (size : Nat) (overshot : Bool)
    (receipt : Option ReceiptId) (m : Nat) :
    (b.admitLocked e size overshot receipt m).bytesSinceFlag =
      if e.ackRequested then 0
      else if b.accounting then add64 b.bytesSinceFlag size else b.bytesSinceFlag := by
  have hled := admitLocked_ledger (b := b) e size overshot receipt m
  have hsince := congrArg bytesSinceFlag hled
  exact hsince

theorem Covered.admission (h : Covered b q) (hs : Slots b q) {a : Admission}
    (hlen : q.items.length + 1 < 2 ^ 64) (hseq : a.stored.seqNum = b.nextSeqNum)
    (hM : pressureStepDivisor ≤ b.maxBytes) (hsince : b.bytesSinceFlag + a.size < 2 ^ 63)
    (hpress : a.stored.ackRequested = false → b.maxBytes < 2 * (windowBytes q + a.size) →
      b.bytesSinceFlag + a.size < b.maxBytes / pressureStepDivisor) :
    Covered (b.admitLocked a.stored a.size a.overshot a.receipt a.maxTransmissions)
      (q.push { item := a, limit := a.limit }) := by
  have hflag := (admitLocked_counters (b := b) a.stored a.size a.overshot a.receipt
    a.maxTransmissions).2.2.2
  have hcount := admitLocked_since (b := b) a.stored a.size a.overshot a.receipt
    a.maxTransmissions
  have hconfig := admitLocked_config (b := b) a.stored a.size a.overshot a.receipt
    a.maxTransmissions
  have hmax : (b.admitLocked a.stored a.size a.overshot a.receipt a.maxTransmissions).maxBytes =
    b.maxBytes := congrArg (fun v => v.2.1) hconfig
  have hacc : (b.admitLocked a.stored a.size a.overshot a.receipt a.maxTransmissions).accounting =
    b.accounting := congrArg (fun v => v.1) hconfig
  have hnew : heldSize { item := a, limit := a.limit } = a.size := rfl
  have hnum : a.stored.seqNum = q.items.length + 1 := by
    rw [hseq, hs.nextSeq, Nat.mod_eq_of_lt hlen]
  rw [h.accounting, if_pos rfl, add64_eq (by omega)] at hcount
  cases hreq : a.stored.ackRequested with
  | true =>
    -- the message itself asks: nothing is behind it
    rw [hreq, if_pos rfl] at hflag hcount
    have hself : laterSize a.stored.seqNum { item := a, limit := a.limit } = 0 :=
      if_neg (Nat.lt_irrefl _)
    refine ⟨hacc.trans h.accounting, fun _ => ?_, fun _ _ => ?_⟩
    · rw [hflag, hcount, laterBytes_push, hself, hs.laterBytes_newest (by omega) (by omega)]
    · rw [hcount, hmax]
      exact Nat.div_pos hM (by decide)
  | false =>
    rw [hreq, if_neg Bool.false_ne_true] at hflag hcount
    refine ⟨hacc.trans h.accounting, fun hne => ?_, fun _ hover => ?_⟩
    · rw [hflag] at hne ⊢
      have hlater := h.later hne
      have hsize : laterSize b.lastFlaggedSeq { item := a, limit := a.limit } ≤ a.size := by
        unfold laterSize
        rw [hnew]
        split_ifs
        · exact le_rfl
        · exact Nat.zero_le _
      rw [laterBytes_push, hcount]
      omega
    · rw [windowBytes_push, hnew, hmax] at hover
      rw [hcount, hmax]
      exact hpress hreq hover

/-! ## A refusal, and the acknowledgement that ends it -/

/-- A message of at most half the limit is refused by the limit: less than a sixteenth of it is
held behind the last request. -/
theorem Covered.refused (h : Covered b q) (hm : Meter b q) (hexc : b.exceeds size = true)
    (hheld : b.heldFlagged = true) (hsize : 2 * size ≤ b.maxBytes) :
    laterBytes b.lastFlaggedSeq q < b.maxBytes / pressureStepDivisor := by
  unfold exceeds at hexc
  unfold heldFlagged at hheld
  rw [decide_eq_true_eq] at hexc hheld
  have hover := lt_of_lt_of_le hexc.2 (add64_le b.bytes size)
  have hbytes : b.bytes ≤ windowBytes q := by
    rw [hm.bytes]
    split_ifs
    · exact Nat.zero_le _
    · exact le_rfl
  exact (h.later hheld.1).trans_lt (h.pressed hheld.1 (by omega))

/-- What is left of the window after the frames up to `seq` is what was admitted after it. -/
theorem Slots.windowBytes_after (h : Slots b q) (hlen : q.items.length < 2 ^ 64)
    (hseq : seq ≤ q.gone.length + (i + 1)) (g : Frame Admission → Frame Admission) :
    windowBytes (q.remove (i + 1) g) ≤ laterBytes seq q := by
  have hsame : (q.window.drop (i + 1)).map heldSize =
      (q.window.drop (i + 1)).map (laterSize seq) := by
    refine List.map_congr_left fun f hf => ?_
    rcases List.mem_iff_getElem?.1 hf with ⟨k, hk⟩
    rw [List.getElem?_drop] at hk
    have hlt := (List.getElem?_eq_some_iff.1 (items_window hk)).1
    have hnum := h.seqs _ _ (items_window hk)
    rw [Nat.mod_eq_of_lt (by omega)] at hnum
    exact (if_pos (by omega)).symm
  have hsum := List.sum_take_add_sum_drop (q.window.map (laterSize seq)) (i + 1)
  unfold windowBytes laterBytes
  show ((q.window.drop (i + 1)).map heldSize).sum ≤ _
  rw [hsame, List.map_drop]
  omega

/-- The index of the last request, while it is held. -/
theorem Flags.index (h : Flags b q) (hs : Slots b q) (hlen : q.items.length + 1 < 2 ^ 64)
    (hheld : b.heldFlagged = true) :
    sub64 b.lastFlaggedSeq b.firstSeqNum < b.nextIndexFree ∧
      b.lastFlaggedSeq = q.gone.length + (sub64 b.lastFlaggedSeq b.firstSeqNum + 1) := by
  unfold heldFlagged at hheld
  rw [decide_eq_true_eq] at hheld
  have hrange := h.range
  have hlength := q.length_items
  have hfirst := hs.first
  rw [Nat.mod_eq_of_lt (by omega)] at hfirst
  rw [sub64_eq hheld.2 (by omega), hs.free]
  omega

end AckBuffer

namespace BufferState

variable {s : BufferState} {q : Queue Admission}

/-- The acknowledgement of the last request is accepted once its frame was delivered. -/
theorem Metered.request_accepted (h : Metered s q) (hlen : s.log.length < 2 ^ 64 - 1)
    (hheld : s.buf.heldFlagged = true) (bb : ByteBudget)
    (hdelivered : sub64 s.buf.lastFlaggedSeq s.buf.firstSeqNum < s.buf.nextIndexToDeliver) :
    (s.buf.ack bb s.buf.lastFlaggedSeq).2.2 = none := by
  have hs := h.tracks.refines.slots
  have hitems : q.items.length + 1 < 2 ^ 64 := by
    rw [h.tracks.items]
    omega
  have hflags := h.flags (by omega)
  have hfree := (hflags.index hs hitems hheld).1
  have hroom := hs.buff.length_le
  have hnext := hs.nextSeq
  have hrange := hflags.range
  rw [Nat.mod_eq_of_lt hitems] at hnext
  rw [List.length_map, ← hs.free] at hroom
  unfold heldFlagged at hheld
  rw [decide_eq_true_eq] at hheld
  have herr : s.buf.ackError s.buf.lastFlaggedSeq = none := by
    unfold ackError
    rw [if_neg (by omega), if_neg (by omega), if_neg (by omega), if_neg (by omega)]
  unfold AckBuffer.ack
  rw [herr]
  split_ifs <;> rfl

/-- The acknowledgement of the last request leaves what was admitted after it. -/
theorem Metered.ack_request (h : Metered s q) (hlen : s.log.length < 2 ^ 64 - 1)
    (hheld : s.buf.heldFlagged = true) (bb : ByteBudget)
    (hok : (s.buf.ack bb s.buf.lastFlaggedSeq).2.2 = none) :
    (s.buf.ack bb s.buf.lastFlaggedSeq).1.bytes ≤
      laterBytes s.buf.lastFlaggedSeq q := by
  have hs := h.tracks.refines.slots
  have hitems : q.items.length + 1 < 2 ^ 64 := by
    rw [h.tracks.items]
    omega
  rcases (h.flags (by omega)).index hs hitems hheld with ⟨hfree, hseq⟩
  have hstep := ack_step s.buf bb s.buf.lastFlaggedSeq
  generalize s.buf.ack bb s.buf.lastFlaggedSeq = r at hstep hok ⊢
  cases hstep with
  | rejected err => cases hok
  | late hlate =>
    -- only numbers outside the window are late
    unfold ackReleased at hlate
    split at hlate
    · cases hlate
    · rw [Bool.and_eq_true, decide_eq_true_eq] at hlate
      omega
  | removed _ _ =>
    rw [hs.free] at hfree
    have hmoves := h.tracks.refines.ackRemove_moves bb hfree
    have hm := hmoves.keep (fun c => Meter c.1 c.2.2)
      (fun _ _ hmove hc => (Move.pays hmove hc).1) h.meter
    have hbytes := hm.bytes
    have hafter := hs.windowBytes_after (by omega) hseq.le Frame.confirm
    have htrim : windowBytes (q.ack (sub64 s.buf.lastFlaggedSeq s.buf.firstSeqNum)) ≤
        windowBytes
          (q.remove (sub64 s.buf.lastFlaggedSeq s.buf.firstSeqNum + 1) Frame.confirm) :=
      windowBytes_remove_le _ id
    simp only at hbytes ⊢
    rw [hbytes]
    split_ifs
    · exact Nat.zero_le _
    · exact htrim.trans hafter

end BufferState

end UspClient
