import UspClient.Buffer.Deals

/-!
# The byte limit of one buffer

A message that would exceed `MaxBytes` is admitted only if no flagged message is in the
window, and is then flagged itself. So a buffer above its limit is above it because of one
message: the newest one, which still asks for its acknowledgement and holds back every
other add until it leaves.
-/

namespace UspClient

open Word64 Replay AckBuffer

namespace AckBuffer

variable {b b' : AckBuffer} {bb bb' : ByteBudget} {q q' : Queue Admission} {f : Frame Admission}
variable {i size : Nat} {waiter : Option WaiterId}

/-- The window is within the limit, or within it but for its last frame, which is the last
flagged one. -/
def Capped (b : AckBuffer) (q : Queue Admission) : Prop :=
  windowBytes q ≤ b.maxBytes ∨
    ∃ f, q.window.getLast? = some f ∧ f.fate = .live ∧
      f.item.stored.seqNum = b.lastFlaggedSeq ∧ f.item.stored.ackRequested = true ∧
      windowBytes q ≤ b.maxBytes + f.item.size

theorem Capped.congr (h : Capped b q) (hmax : b'.maxBytes = b.maxBytes)
    (hflag : b'.lastFlaggedSeq = b.lastFlaggedSeq) : Capped b' q := by
  unfold Capped
  rw [hmax, hflag]
  exact h

theorem Capped.idle (h : Capped b q) (hled : b'.ledger = b.ledger)
    (hmark : q'.window.map mark = q.window.map mark) : Capped b' q' := by
  have hmax : b'.maxBytes = b.maxBytes := congrArg (fun b => b.maxBytes) hled
  have hflag : b'.lastFlaggedSeq = b.lastFlaggedSeq := congrArg (fun b => b.lastFlaggedSeq) hled
  unfold Capped
  rw [windowBytes_congr hmark, hmax, hflag]
  rcases h with hle | ⟨f, hlast, hlive, hseq, hreq, hle⟩
  · exact .inl hle
  · rw [List.getLast?_eq_getElem?] at hlast
    obtain ⟨f', hf', hitem, hfate⟩ := mark_at hmark hlast
    refine .inr ⟨f', ?_, hfate.trans hlive, by rw [hitem]; exact hseq, by rw [hitem]; exact hreq,
      by rw [hitem]; exact hle⟩
    have hlen := congrArg List.length hmark
    rw [List.length_map, List.length_map] at hlen
    rw [List.getLast?_eq_getElem?, hlen]
    exact hf'

/-- Retiring the last flagged frame brings the window back within the limit. -/
theorem Capped.retire (h : Capped b q) (hs : Slots b q) (bb : ByteBudget) {entry : EntryId}
    (hf : q.window[i]? = some f) (hl : f.fate = .live)
    (hseq : (b.entryAt entry).seq = f.item.stored.seqNum) :
    Capped (b.retireLocked bb i entry).1 { q with window := q.window.modify i retire } := by
  have hbytes := windowBytes_retire hf hl
  have hflag : (b.retireLocked bb i entry).1.lastFlaggedSeq =
      if b.lastFlaggedSeq = (b.entryAt entry).seq then 0 else b.lastFlaggedSeq := rfl
  rcases h with hle | ⟨x, hlast, hlive, hxseq, hreq, hle⟩
  · left
    show _ ≤ b.maxBytes
    omega
  · rw [List.getLast?_eq_getElem?] at hlast
    rcases eq_or_ne i (q.window.length - 1) with rfl | hne
    · -- the frame that exceeds the limit is the retired one
      left
      rw [hlast] at hf
      cases hf
      show _ ≤ b.maxBytes
      omega
    · right
      refine ⟨x, ?_, hlive, ?_, hreq, ?_⟩
      · show (q.window.modify i AckBuffer.retire).getLast? = some x
        rw [List.getLast?_eq_getElem?, List.length_modify, List.getElem?_modify_ne _ _ hne]
        exact hlast
      · rw [hflag, if_neg]
        · exact hxseq
        · intro heq
          exact hne (hs.seq_inj hf hlast (hseq.symm.trans (heq.symm.trans hxseq.symm))).1
      · show _ ≤ b.maxBytes + _
        omega

theorem windowBytes_remove_le (n : Nat) (g : Frame Admission → Frame Admission) :
    windowBytes (q.remove n g) ≤ windowBytes q :=
  (Nat.le_add_right _ _).trans (windowBytes_remove n g).le

theorem Capped.remove (h : Capped b q) (bb : ByteBudget) (g : Frame Admission → Frame Admission) :
    Capped (b.removePrefixLocked bb i).1 (q.remove (i + 1) g) := by
  have hbytes : windowBytes (q.remove (i + 1) g) ≤ windowBytes q := windowBytes_remove_le _ g
  rcases h with hle | ⟨f, hlast, hlive, hseq, hreq, hle⟩
  · left
    exact hbytes.trans hle
  · rcases Nat.lt_or_ge (i + 1) q.window.length with hlt | hge
    · right
      refine ⟨f, ?_, hlive, hseq, hreq, hbytes.trans hle⟩
      show (q.window.drop (i + 1)).getLast? = some f
      rw [List.getLast?_drop, if_neg (by omega)]
      exact hlast
    · -- nothing is left
      left
      have hnil : (q.remove (i + 1) g).window = [] := List.drop_eq_nil_of_le hge
      unfold windowBytes
      rw [hnil]
      exact Nat.zero_le _

theorem updateCapacity_maxBytes (n : Nat) : (b.updateCapacity n).maxBytes = b.maxBytes ∧
    (b.updateCapacity n).lastFlaggedSeq = b.lastFlaggedSeq := by
  unfold updateCapacity
  split_ifs <;> exact ⟨rfl, rfl⟩

theorem Deal.capped {c c' : Account} (h : Deal c c') (hc : Capped c.1 c.2.2) :
    Capped c'.1 c'.2.2 := by
  cases h with
  | move hmove =>
    cases hmove with
    | idle b b' bb q q' hled _ hmark => exact Capped.idle hc hled hmark
    | retire b bb q i entry f hs hf hl hseq => exact Capped.retire hc hs bb hf hl hseq
    | remove b bb q i g _ _ _ => exact Capped.remove hc bb g
  | sample | stop | close => exact Capped.congr hc rfl rfl
  | resize b bb q n =>
    exact Capped.congr hc (updateCapacity_maxBytes n).1 (updateCapacity_maxBytes n).2

/-- A window above the limit holds the last flagged frame. -/
theorem Capped.heldFlagged (h : Capped b q) (hs : Slots b q) (hlen : q.items.length + 1 < 2 ^ 64)
    (hover : b.maxBytes < windowBytes q) : b.heldFlagged = true := by
  rcases h with hle | ⟨f, hlast, -, hseq, -, -⟩
  · omega
  · rw [List.getLast?_eq_getElem?] at hlast
    have hlt := (List.getElem?_eq_some_iff.1 hlast).1
    have hlength := q.length_items
    have hnum := hs.seqs _ _ (items_window hlast)
    have hfirst := hs.first
    unfold AckBuffer.heldFlagged
    rw [decide_eq_true_eq, ← hseq, hnum, hfirst]
    omega

/-! ## Admission -/

/-- A message that exceeds the limit finds no flagged frame, and is forced. -/
theorem checkBytes_exceeds {forced overshot : Bool} {step : Nat} (hacc : b.accounting = true)
    (hexc : b.exceeds size = true)
    (h : b.checkBytes bb size waiter = (bb', .room forced overshot step)) :
    b.heldFlagged = false ∧ forced = true := by
  unfold exceeds at hexc
  unfold checkBytes at h
  simp only [hacc, hexc, Bool.not_true, Bool.false_eq_true, if_false, Bool.true_and,
    Bool.true_or] at h
  cases hheld : b.heldFlagged with
  | true =>
    rw [hheld, if_pos rfl, Prod.mk.injEq] at h
    exact absurd h.2 ByteVerdict.noConfusion
  | false =>
    refine ⟨rfl, ?_⟩
    rw [if_neg (by rw [hheld]; exact Bool.false_ne_true)] at h
    split_ifs at h <;> simp only [Prod.mk.injEq, ByteVerdict.room.injEq, reduceCtorEq,
      and_false] at h <;> exact h.2.1.symm

theorem tryAdd_exceeds {e m : DataMessage} {receipt : Option ReceiptId} {n : Nat}
    (hacc : b.accounting = true) (hexc : b.exceeds size = true)
    (h : (b.tryAddWithReceiptLocked bb e size waiter receipt n).stored = some m) :
    b.heldFlagged = false ∧ m.ackRequested = true := by
  unfold tryAddWithReceiptLocked at h
  split_ifs at h
  obtain ⟨r, hr⟩ : ∃ r, b.checkBytes bb size waiter = r := ⟨_, rfl⟩
  rw [hr] at h
  obtain ⟨bb', verdict⟩ := r
  cases verdict with
  | refused w => cases h
  | room forced overshot step =>
    obtain ⟨hheld, hforced⟩ := checkBytes_exceeds hacc hexc hr
    refine ⟨hheld, ?_⟩
    rw [← Option.some.inj h, hforced]
    show (_ || _ || true || _) = true
    rw [Bool.or_true, Bool.true_or]

/-- While the window is above the limit, every add is refused. -/
theorem tryAdd_refused (hacc : b.accounting = true) (hexc : b.exceeds size = true)
    (hheld : b.heldFlagged = true) (bb : ByteBudget) (e : DataMessage) (waiter : Option WaiterId)
    (receipt : Option ReceiptId) (n : Nat) :
    (b.tryAddWithReceiptLocked bb e size waiter receipt n).ok = false := by
  rw [Bool.eq_false_iff]
  intro hok
  obtain ⟨m, hm⟩ := Option.isSome_iff_exists.1 hok
  rw [(tryAdd_exceeds hacc hexc hm).1] at hheld
  cases hheld

theorem Capped.admission (h : Capped b q) (hs : Slots b q) (hlen : q.items.length + 1 < 2 ^ 64)
    {a : Admission} (hbytes : b.bytes = windowBytes q) (hsum : b.bytes + a.size < 2 ^ 64)
    (hmax : b.maxBytes ≠ 0)
    (hexc : b.exceeds a.size = true → b.heldFlagged = false ∧ a.stored.ackRequested = true) :
    Capped (b.admitLocked a.stored a.size a.overshot a.receipt a.maxTransmissions)
      (q.push { item := a, limit := a.limit }) := by
  have hmax' : (b.admitLocked a.stored a.size a.overshot a.receipt a.maxTransmissions).maxBytes =
      b.maxBytes := congrArg (fun v => v.2.1) (admitLocked_config ..)
  have hnew : heldSize { item := a, limit := a.limit } = a.size := rfl
  unfold Capped
  rw [windowBytes_push, hnew, hmax', (admitLocked_counters ..).2.2.2]
  rcases Nat.lt_or_ge b.maxBytes (windowBytes q + a.size) with hover | hle
  · right
    have hexceeds : b.exceeds a.size = true := by
      unfold exceeds
      rw [decide_eq_true_eq, add64_eq hsum, hbytes]
      exact ⟨hmax, hover⟩
    obtain ⟨hheld, hreq⟩ := hexc hexceeds
    -- without a flagged frame the window was within the limit
    have hwithin : windowBytes q ≤ b.maxBytes := by
      by_contra hgt
      rw [h.heldFlagged hs hlen (by omega)] at hheld
      cases hheld
    refine ⟨{ item := a, limit := a.limit }, List.getLast?_concat, rfl, ?_, hreq, ?_⟩
    · rw [if_pos hreq]
    · show _ ≤ b.maxBytes + a.size
      omega
  · left
    exact hle

end AckBuffer

namespace BufferState

variable {s s₀ : BufferState} {q : Queue Admission} {tr : List BufferStep}

/-- The bytes held and the size of an add do not overflow. -/
def Summable (s : BufferState) : BufferOp → Prop
  | .add _ size _ _ _ => s.buf.bytes + size < 2 ^ 64
  | _ => True

instance (s : BufferState) (op : BufferOp) : Decidable (s.Summable op) :=
  match op with
  | .add .. => Nat.decLt _ _
  | .getNextToDeliver | .ack _ | .resetDelivery | .updateCapacity _ | .beginDrain | .drain ..
  | .close => isTrue trivial

/-- The admission a round of an add appended to the history. -/
theorem stored_of_apply {bb bb' : ByteBudget} {e : DataMessage} {size : Nat}
    {waiter : Option WaiterId} {receipt : Option ReceiptId} {m : UInt32} {b : AckBuffer}
    {adm : Admission} (hrun : s.buf.isRunning = true)
    (h : s.apply bb (.add e size waiter receipt m) =
      ({ s with buf := b, log := s.log ++ [adm] }, bb')) :
    (s.buf.tryAddWithReceiptLocked bb e size waiter receipt m.toNat).stored = some adm.stored := by
  have hlog : s.log ++ (((s.buf.addRound bb e size waiter receipt m.toNat).1).admission e size receipt
      m.toNat).toList = s.log ++ [adm] := congrArg (fun r => r.1.log) h
  have hadm := List.append_cancel_left hlog
  have hstored : (s.buf.addRound bb e size waiter receipt m.toNat).1.stored =
      (s.buf.tryAddWithReceiptLocked bb e size waiter receipt m.toNat).stored := by
    unfold addRound
    rw [hrun]
    simp only [Bool.not_true, Bool.false_eq_true, if_false]
    split_ifs <;> rfl
  unfold TryAdd.admission at hadm
  rw [hstored] at hadm
  cases hm : (s.buf.tryAddWithReceiptLocked bb e size waiter receipt m.toNat).stored with
  | none =>
    rw [hm] at hadm
    exact absurd hadm (List.cons_ne_nil _ _).symm
  | some x =>
    rw [hm] at hadm
    exact congrArg some (congrArg Admission.stored (List.singleton_injective hadm))

/-- What a run within the sums keeps about a buffer with the limit `M`. -/
structure Limited (M : Nat) (s : BufferState) (q : Queue Admission) : Prop where
  metered : Metered s q
  accounting : s.buf.accounting = true
  maxBytes : s.buf.maxBytes = M
  capped : s.log.length < 2 ^ 64 - 1 → Capped s.buf q

theorem Limited.step {M : Nat} (h : Limited M s q) (hM : 0 < M) {bb : ByteBudget} {op : BufferOp}
    (hsum : s.Summable op) : ∃ q', Limited M (s.apply bb op).1 q' := by
  cases hop : op.adds with
  | false =>
    obtain ⟨q', hm, hlog, hdeals⟩ := h.metered.deal bb hop
    have hconfig := hdeals.config
    refine ⟨q', hm, ?_, ?_, fun hlen => ?_⟩
    · exact (congrArg (fun v => v.1) hconfig).trans h.accounting
    · exact (congrArg (fun v => v.2.1) hconfig).trans h.maxBytes
    · rw [hlog] at hlen
      exact hdeals.keep (fun c => Capped c.1 c.2.2) (fun _ _ => Deal.capped)
        (h.capped hlen)
  | true =>
    cases op with
    | add e size waiter receipt m =>
      obtain ⟨s', bb', w, out, escaped, happ, -, -, -, hadd⟩ := added s bb e size waiter receipt m
      rw [happ]
      cases hadd with
      | closed _ => exact ⟨q, h⟩
      | refused bb' w _ _ =>
        exact ⟨q, h.metered.sampleWake, h.accounting, h.maxBytes,
          fun hlen => (h.capped hlen).congr rfl rfl⟩
      | admitted bb' adm hrun havail _ _ hseq hsize _ =>
        have hstored := stored_of_apply hrun happ
        subst hsize
        have hconfig := admitLocked_config (b := s.buf) adm.stored adm.size adm.overshot
          adm.receipt adm.maxTransmissions
        refine ⟨_, h.metered.admission hrun havail hseq hsum
          (fun hacc => absurd (h.accounting.symm.trans hacc) Bool.noConfusion), ?_, ?_,
          fun hlen => ?_⟩
        · exact (congrArg (fun v => v.1) hconfig).trans h.accounting
        · exact (congrArg (fun v => v.2.1) hconfig).trans h.maxBytes
        · have hlen' : (s.log ++ [adm]).length < 2 ^ 64 - 1 := hlen
          rw [List.length_append, List.length_singleton] at hlen'
          refine (h.capped (by omega)).admission h.metered.tracks.refines.slots ?_
            (h.metered.bytes_open hrun).2 hsum ?_ ?_
          · rw [h.metered.tracks.items]
            omega
          · rw [h.maxBytes]
            omega
          · -- beyond the limit only a message with a request is admitted
            exact fun hexc => tryAdd_exceeds h.accounting hexc hstored
    | _ => cases hop

theorem limited_of_run {M : Nat} (hfresh : FreshBuffer s₀) (hM : 0 < M)
    (hmax : s₀.buf.maxBytes = M) (hrun : Machine.Run bufferMachine s₀ tr s)
    (hsums : ∀ st ∈ tr, st.pre.Summable st.act.op) : ∃ q, Limited M s q := by
  refine hrun.invariant_of (fun s a => s.Summable a.op) (fun s => ∃ q, Limited M s q) ?_ ?_ hsums
  · obtain ⟨o, bb, hnew⟩ := hfresh.new
    obtain ⟨buf, log, handed⟩ := s₀
    obtain rfl : log = [] := hfresh.log
    have hm := newAckBuffer_metered hnew
    obtain ⟨group, hb⟩ := newAckBuffer_eq hnew
    refine ⟨{}, ⟨⟨hm.tracks.refines, hm.tracks.items⟩, hm.meter, hm.flags, hm.wired⟩, ?_, hmax,
      fun _ => .inl (Nat.zero_le _)⟩
    have hpos : o.maxBytes ≠ 0 := by
      rw [hb] at hmax
      have hmax' : o.maxBytes = M := hmax
      omega
    show buf.accounting = true
    rw [show buf = _ from hb]
    show (decide (o.maxBytes ≠ 0) || _) = true
    rw [decide_eq_true hpos, Bool.true_or]
  · rintro s ⟨bb, op⟩ - hsum ⟨q, hq⟩
    exact hq.step hM hsum

/-- The newest message is live, and the byte counter without it. -/
theorem Limited.newest {M : Nat} (h : Limited M s q) (hlen : s.log.length < 2 ^ 64 - 1)
    (hover : M < s.buf.bytes) : ∃ adm, s.log.getLast? = some adm ∧ s.Live s.log.length ∧
      adm.stored.ackRequested = true ∧ s.buf.bytes ≤ M + adm.size := by
  have hm := h.metered
  have hbytes : s.buf.bytes = windowBytes q := by
    have hb := hm.meter.bytes
    split_ifs at hb with hclosed
    · omega
    · exact hb
  rcases h.capped hlen with hle | ⟨f, hlast, hlive, -, hreq, hle⟩
  · rw [h.maxBytes] at hle
    omega
  · rw [h.maxBytes] at hle
    rw [List.getLast?_eq_getElem?] at hlast
    have hlt := (List.getElem?_eq_some_iff.1 hlast).1
    have hlog := hm.tracks.held.length_log
    have hframe : q.frames[s.log.length - 1]? = some f := by
      rw [Queue.frames_getElem?_right (by omega), hlog,
        show q.gone.length + q.window.length - 1 - q.gone.length = q.window.length - 1 by omega]
      exact hlast
    refine ⟨f.item, ?_, ?_, hreq, by rw [hbytes]; exact hle⟩
    · rw [List.getLast?_eq_getElem?]
      exact hm.tracks.held.item_at hframe
    · have hnum := (hm.tracks.held.live_iff hframe).2 hlive
      rwa [Nat.sub_add_cancel (by omega)] at hnum

end BufferState

/-- In every run of one buffer with a byte limit, the bytes held are within the limit, or the
newest message is live, asks for its acknowledgement, and the bytes without it are within the
limit. While the limit is exceeded every add is refused. The shared budget, if there is one, is
in any state at every call. -/
theorem byte_cap {s₀ s : BufferState} {tr : List BufferStep} {M : Nat} (hfresh : FreshBuffer s₀)
    (hM : 0 < M) (hmax : s₀.buf.maxBytes = M) (hrun : Machine.Run bufferMachine s₀ tr s)
    (hsums : ∀ st ∈ tr, st.pre.Summable st.act.op) (hlen : s.log.length < 2 ^ 64 - 1) :
    (s.buf.bytes ≤ M ∨ ∃ adm, s.log.getLast? = some adm ∧ s.Live s.log.length ∧
      adm.stored.ackRequested = true ∧ s.buf.bytes - adm.size ≤ M) ∧
    (M < s.buf.bytes → ∀ (bb : ByteBudget) (e : DataMessage) (waiter : Option WaiterId)
      (receipt : Option ReceiptId) (m : Nat), s.buf.bytes + s.buf.addSize e < 2 ^ 64 →
      (s.buf.tryAddWithReceiptLocked bb e (s.buf.addSize e) waiter receipt m).ok = false) := by
  obtain ⟨q, hq⟩ := BufferState.limited_of_run hfresh hM hmax hrun hsums
  constructor
  · rcases Nat.lt_or_ge M s.buf.bytes with hover | hle
    · right
      obtain ⟨adm, hlast, hlive, hreq, hle⟩ := hq.newest hlen hover
      exact ⟨adm, hlast, hlive, hreq, by omega⟩
    · left
      exact hle
  · intro hover bb e waiter receipt m hsum
    refine tryAdd_refused hq.accounting ?_ ?_ bb e waiter receipt m
    · unfold exceeds
      rw [decide_eq_true_eq, hq.maxBytes, add64_eq hsum]
      omega
    · refine (hq.capped hlen).heldFlagged hq.metered.tracks.refines.slots ?_ ?_
      · rw [hq.metered.tracks.items]
        omega
      · have hb := hq.metered.meter.bytes
        rw [hq.maxBytes]
        split_ifs at hb with hclosed <;> omega

/-- A buffer limited to 100 bytes. -/
def tightBuffer : BufferState := { buf := { maxBytes := 100, accounting := true } }

theorem tightBuffer_fresh : FreshBuffer tightBuffer :=
  ⟨⟨⟨100, false, ""⟩, newByteBudget 0, rfl⟩, rfl, rfl⟩

/-- One message of 256 bytes is admitted above the limit, and the next one is refused. -/
theorem one_above_the_cap :
    let s := bufferMachine.exec tightBuffer [alone (.updateCapacity 4),
      alone (.add {} 256 none none 0)]
    s.buf.bytes = 256 ∧
      (s.buf.tryAddWithReceiptLocked (newByteBudget 0) {} (s.buf.addSize {}) none none 0).ok =
        false := by
  intro s
  have hrun : Machine.Run bufferMachine tightBuffer _ s := Machine.run_exec _ (by decide +kernel)
  exact ⟨by decide +kernel, (byte_cap tightBuffer_fresh (by decide) rfl hrun (by decide +kernel)
    (by decide +kernel)).2 (by decide +kernel) _ _ _ _ _ (by decide +kernel)⟩

end UspClient
