import UspClient.System.Model
import UspClient.Budget.Totals

/-!
# What a step of the system does

`Moved` lists the steps, each with the condition under which it is made. At most one buffer
changes in a step, by one call. The queue behind every buffer, its byte counters and its
last flag are kept along every run (`Buffered`), as long as the sizes add up to less than
`2 ^ 64` (`Within`).
-/

namespace UspClient

open Function Word64 Replay AckBuffer BufferState

/-- What no step changes about a call. -/
def AddCall.given (c : AddCall) : Nat × DataMessage × Nat × Option ReceiptId × UInt32 :=
  (c.buffer, c.message, c.size, c.receipt, c.maxTransmissions)

namespace SystemState

variable {s s' : SystemState} {a : SystemAct} {i j : Nat} {op : BufferOp}
variable {q : Nat → Queue Admission}

/-! ## Steps -/

inductive Moved (s : SystemState) : SystemAct → SystemState → Prop where
  | newAckBuffer (o : AckBufferOptions) (bb : ByteBudget) (b : AckBuffer) :
      newAckBuffer o s.bb = (bb, .ok b) → Moved s (.newAckBuffer o)
        { s with
          bb := bb
          bufferAt := update s.bufferAt s.buffers { buf := b }
          buffers := s.buffers + 1 }
  /-- The budget asks for a group key. -/
  | rejected (o : AckBufferOptions) : Moved s (.newAckBuffer o) s
  | call (i : Nat) (op : BufferOp) : i < s.buffers → op.direct = true →
      Moved s (.call i op) (s.apply i op)
  | callAdd (i : Nat) (e : DataMessage) (receipt : Option ReceiptId) (m : UInt32) :
      i < s.buffers → Moved s (.callAdd i e receipt m)
        { s.setAdd s.adds
          { buffer := i, message := e, size := (s.bufferAt i).buf.addSize e, receipt := receipt
            maxTransmissions := m } with adds := s.adds + 1 }
  | tryAdd (j : Nat) : j < s.adds → (s.addAt j).phase = .trying → Moved s (.tryAdd j)
      ((s.apply (s.addAt j).buffer (addOp (s.addAt j))).setAdd j
        { s.addAt j with
          waiter := (s.round (s.addAt j)).1.waiter
          phase := .after (s.round (s.addAt j)).2 })
  | wakeAdd (j : Nat) : j < s.adds → s.woken (s.addAt j) = true →
      Moved s (.wakeAdd j) (s.setAdd j { s.addAt j with phase := .trying })
  | timeout (j : Nat) : j < s.adds → (∃ l p, (s.addAt j).phase = .parked l p) →
      Moved s (.timeout j) (s.setAdd j { s.addAt j with phase := .leaving })
  | cancel (j : Nat) : j < s.adds → (s.addAt j).phase = .leaving → Moved s (.cancel j)
      { s.setAdd j { s.addAt j with waiter := none, phase := .returned } with
        bb := (s.bufferAt (s.addAt j).buffer).buf.cancelShared s.bb (s.addAt j).waiter }
  | callDrain (i : Nat) : i < s.buffers → Moved s (.callDrain i)
      { s.setDrain s.drains { buffer := i } with drains := s.drains + 1 }
  | drain (j : Nat) (first ctxDone : Bool) : j < s.drains →
      (s.drainAt j).phase = .locking first → Moved s (.drain j ctxDone)
        ((s.apply (s.drainAt j).buffer (.drain first ctxDone)).setDrain j
          { s.drainAt j with
            phase := .after
              ((s.bufferAt (s.drainAt j).buffer).buf.drainSection first ctxDone).2 })
  | wakeDrain (j : Nat) (wake : ChanId) (ctxDone : Bool) : j < s.drains →
      (s.drainAt j).phase = .parked wake → Moved s (.wakeDrain j ctxDone)
        (s.setDrain j { s.drainAt j with phase := .locking false })

theorem newAckBuffer_error {o : AckBufferOptions} {bb bb' : ByteBudget}
    {err : ByteBudget.RegisterError} (h : newAckBuffer o bb = (bb', .error err)) : bb' = bb := by
  unfold newAckBuffer ByteBudget.register at h
  split_ifs at h
  · simp at h
  · obtain ⟨rfl, -⟩ := Prod.mk.inj h
    rfl
  · cases hg : bb.groups o.budgetGroup <;> simp [hg] at h
  · simp at h

theorem moved_of_act (h : s.act a = some s') : Moved s a s' := by
  cases a with
  | newAckBuffer o =>
    -- a failed registration changes nothing, so the state is the old one
    simp only [act] at h
    split at h
    case h_1 bb b hnew =>
      cases h
      exact .newAckBuffer o bb b hnew
    case h_2 bb err hnew =>
      cases h
      rw [newAckBuffer_error hnew]
      exact .rejected o
  | call i op =>
    simp only [act] at h
    split_ifs at h with hg
    cases h
    exact .call i op hg.1 hg.2
  | callAdd i e receipt m =>
    simp only [act] at h
    split_ifs at h with hg
    cases h
    exact .callAdd i e receipt m hg
  | tryAdd j =>
    simp only [act] at h
    split_ifs at h with hg
    cases h
    exact .tryAdd j hg.1 hg.2
  | wakeAdd j =>
    simp only [act] at h
    split_ifs at h with hg
    cases h
    exact .wakeAdd j hg.1 hg.2
  | timeout j =>
    simp only [act] at h
    split at h
    -- a timeout needs an add that is parked
    case h_1 l p hphase =>
      split_ifs at h with hg
      cases h
      exact .timeout j hg ⟨l, p, hphase⟩
    case h_2 => cases h
  | cancel j =>
    simp only [act] at h
    split_ifs at h with hg
    cases h
    exact .cancel j hg.1 hg.2
  | callDrain i =>
    simp only [act] at h
    split_ifs at h with hg
    cases h
    exact .callDrain i hg
  | drain j ctxDone =>
    simp only [act] at h
    split at h
    -- a section of a drain that is at its start or was woken
    case h_1 first hphase =>
      split_ifs at h with hg
      cases h
      exact .drain j first ctxDone hg hphase
    case h_2 => cases h
  | wakeDrain j ctxDone =>
    simp only [act] at h
    split at h
    case h_1 wake hphase =>
      split_ifs at h with hg
      cases h
      exact .wakeDrain j wake ctxDone hg.1 hphase
    case h_2 => cases h

theorem moved_of_guard (h : systemMachine.guard s a) : Moved s a (systemMachine.next s a) := by
  obtain ⟨s', hs'⟩ := Option.isSome_iff_exists.1 h
  refine moved_of_act ?_
  show s.act a = some ((s.act a).getD s)
  rw [hs']
  rfl

/-- A call of `addWithReceipt` starts, with a size that is known. -/
theorem callAdd_next {n : Nat} {e : DataMessage} (receipt : Option ReceiptId) (m : UInt32)
    (hi : i < s.buffers) (hsize : (s.bufferAt i).buf.addSize e = n) :
    systemMachine.next s (.callAdd i e receipt m) =
      { s.setAdd s.adds
        { buffer := i, message := e, size := n, receipt := receipt, maxTransmissions := m } with
        adds := s.adds + 1 } := by
  show ((if i < s.buffers then _ else none : Option SystemState)).getD s = _
  rw [if_pos hi, hsize]
  rfl

/-! ## Calls -/

/-- The waiter a call holds; a call that was not made holds none. -/
def waiterOf (s : SystemState) (j : Nat) : Option WaiterId :=
  if j < s.adds then (s.addAt j).waiter else none

theorem Moved.adds_le (h : Moved s a s') : s.adds ≤ s'.adds := by
  cases h with
  | callAdd => exact Nat.le_succ _
  | _ => exact le_rfl

/-- A call keeps what it was given; a new one was given it by this step. -/
theorem Moved.given (h : Moved s a s') (hj : j < s'.adds) :
    (j < s.adds ∧ (s'.addAt j).given = (s.addAt j).given) ∨
    (j = s.adds ∧ (s'.addAt j).buffer < s.buffers ∧ (s'.addAt j).waiter = none ∧
      (s'.addAt j).size =
        (s.bufferAt (s'.addAt j).buffer).buf.addSize (s'.addAt j).message) := by
  have hset : ∀ k c, c.given = (s.addAt k).given →
      (update s.addAt k c j).given = (s.addAt j).given := by
    intro k c hc
    rcases eq_or_ne j k with rfl | hjk
    · rw [update_self]
      exact hc
    · rw [update_of_ne hjk]
  cases h with
  | callAdd i e receipt m hi =>
    rcases Nat.lt_succ_iff_lt_or_eq.1 hj with hlt | rfl
    · left
      refine ⟨hlt, ?_⟩
      show (update s.addAt s.adds _ j).given = _
      rw [update_of_ne hlt.ne]
    · right
      show _ = _ ∧ (update s.addAt s.adds _ s.adds).buffer < s.buffers ∧
        (update s.addAt s.adds _ s.adds).waiter = none ∧
        (update s.addAt s.adds _ s.adds).size = (s.bufferAt
          (update s.addAt s.adds _ s.adds).buffer).buf.addSize
          (update s.addAt s.adds _ s.adds).message
      rw [update_self]
      exact ⟨rfl, hi, rfl, rfl⟩
  | tryAdd k | wakeAdd k | timeout k | cancel k => exact .inl ⟨hj, hset k _ rfl⟩
  | _ => exact .inl ⟨hj, rfl⟩

theorem Moved.drainBuffer (h : Moved s a s') (hj : j < s'.drains) :
    (j < s.drains ∧ (s'.drainAt j).buffer = (s.drainAt j).buffer) ∨
    (s'.drainAt j).buffer < s.buffers := by
  have hset : ∀ k c, c.buffer = (s.drainAt k).buffer →
      (update s.drainAt k c j).buffer = (s.drainAt j).buffer := by
    intro k c hc
    rcases eq_or_ne j k with rfl | hjk
    · rw [update_self]
      exact hc
    · rw [update_of_ne hjk]
  cases h with
  | callDrain i hi =>
    rcases Nat.lt_succ_iff_lt_or_eq.1 hj with hlt | rfl
    · left
      refine ⟨hlt, ?_⟩
      show (update s.drainAt s.drains _ j).buffer = _
      rw [update_of_ne hlt.ne]
    · right
      simp only [setDrain, update_self]
      exact hi
  | drain k | wakeDrain k => exact .inl ⟨hj, hset k _ rfl⟩
  | _ => exact .inl ⟨hj, rfl⟩

/-! ## Buffers -/

/-- The bytes the buffers hold. -/
def bytes (s : SystemState) : Nat := ∑ i ∈ Finset.range s.buffers, (s.bufferAt i).buf.bytes

/-- What is held and the size of this add come to less than `2 ^ 64`. -/
def Within (s : SystemState) : SystemAct → Prop
  | .tryAdd j => s.bytes + (s.addAt j).size < 2 ^ 64
  | _ => True

instance (s : SystemState) (a : SystemAct) : Decidable (s.Within a) :=
  match a with
  | .tryAdd _ => Nat.decLt _ _
  | .newAckBuffer _ | .call .. | .callAdd .. | .wakeAdd _ | .timeout _ | .cancel _ | .callDrain _
  | .drain .. | .wakeDrain .. => isTrue trivial

/-- The queues behind the buffers, and the buffers of the calls. -/
structure Buffered (s : SystemState) (q : Nat → Queue Admission) : Prop where
  metered : ∀ i, i < s.buffers → Metered (s.bufferAt i) (q i)
  adds : ∀ j, j < s.adds → (s.addAt j).buffer < s.buffers ∧
    (s.addAt j).size = (s.bufferAt (s.addAt j).buffer).buf.addSize (s.addAt j).message
  drains : ∀ j, j < s.drains → (s.drainAt j).buffer < s.buffers
  sizes : ∀ i, i < s.buffers → ∀ adm ∈ (s.bufferAt i).log,
    adm.size = (s.bufferAt i).buf.addSize adm.given

/-- What a step does to the budget, to the buffers and to the waiters of the adds. -/
inductive Change (s : SystemState) (q : Nat → Queue Admission) (a : SystemAct) (s' : SystemState) :
    (Nat → Queue Admission) → Prop where
  | same : s'.bb = s.bb → s'.bufferAt = s.bufferAt → s'.buffers = s.buffers →
      s'.waiterOf = s.waiterOf → Change s q a s' q
  /-- A new buffer. -/
  | fresh (o : AckBufferOptions) (b : AckBuffer) : a = .newAckBuffer o →
      newAckBuffer o s.bb = (s'.bb, .ok b) →
      s'.bufferAt = update s.bufferAt s.buffers { buf := b } →
      s'.buffers = s.buffers + 1 → s'.waiterOf = s.waiterOf →
      Change s q a s' (update q s.buffers {})
  /-- A call on a buffer that is no add. -/
  | deal (i : Nat) (b : BufferState) (qi : Queue Admission) : i < s.buffers →
      Deals ((s.bufferAt i).buf, s.bb, q i) (b.buf, s'.bb, qi) →
      b.log = (s.bufferAt i).log → s'.bufferAt = update s.bufferAt i b →
      s'.buffers = s.buffers → s'.waiterOf = s.waiterOf →
      (∃ op, b = ((s.bufferAt i).apply s.bb op).1 ∧ (op = .resetDelivery → a = .call i op)) →
      Change s q a s' (update q i qi)
  /-- A refused round of an add. -/
  | refuse (j : Nat) (b : BufferState) (w : Option WaiterId) : j < s.adds → a = .tryAdd j →
      b = s.bufferAt (s.addAt j).buffer → b.buf.isRunning = true →
      Refuses b.buf s.bb (s.addAt j).size (s.addAt j).waiter s'.bb w →
      s'.bufferAt = update s.bufferAt (s.addAt j).buffer
        { b with buf := b.buf.sampleWake.1 } →
      s'.buffers = s.buffers → s'.waiterOf = update s.waiterOf j w → Change s q a s' q
  /-- An admission. -/
  | admission (j : Nat) (b : BufferState) (adm : Admission) : j < s.adds → a = .tryAdd j →
      b = s.bufferAt (s.addAt j).buffer → b.buf.isRunning = true → b.buf.isAvailable = true →
      Admits b.buf s.bb (s.addAt j).size (s.addAt j).waiter s'.bb adm.overshot →
      (adm.overshot = true → adm.stored.ackRequested = true) →
      adm.stored.seqNum = b.buf.nextSeqNum → adm.size = (s.addAt j).size →
      adm.given = (s.addAt j).message → (s.round (s.addAt j)).1.overshot = adm.overshot →
      s'.bufferAt = update s.bufferAt (s.addAt j).buffer
        { b with
          buf := b.buf.admitLocked adm.stored adm.size adm.overshot adm.receipt
            adm.maxTransmissions
          log := b.log ++ [adm] } →
      s'.buffers = s.buffers → s'.waiterOf = update s.waiterOf j none →
      Change s q a s' (update q (s.addAt j).buffer
        ((q (s.addAt j).buffer).push { item := adm, limit := adm.limit }))
  /-- The deferred `cancel` of an add. -/
  | cancel (j : Nat) : j < s.adds → a = .cancel j →
      s'.bb = (s.bufferAt (s.addAt j).buffer).buf.cancelShared s.bb (s.addAt j).waiter →
      s'.bufferAt = s.bufferAt → s'.buffers = s.buffers →
      s'.waiterOf = update s.waiterOf j none → Change s q a s' q

theorem waiterOf_update {t : SystemState} {c : AddCall} {w : Option WaiterId} (hj : j < s.adds)
    (hadds : t.adds = s.adds) (hat : t.addAt = update s.addAt j c) (hw : c.waiter = w) :
    t.waiterOf = update s.waiterOf j w := by
  funext k
  unfold waiterOf
  rw [hadds, hat]
  rcases eq_or_ne k j with rfl | hkj
  · rw [if_pos hj, update_self, update_self, hw]
  · rw [update_of_ne hkj, update_of_ne hkj]

theorem waiterOf_same {t : SystemState} {c : AddCall} (hj : j < s.adds) (hadds : t.adds = s.adds)
    (hat : t.addAt = update s.addAt j c) (hc : c.waiter = (s.addAt j).waiter) :
    t.waiterOf = s.waiterOf := by
  rw [waiterOf_update hj hadds hat hc]
  have hself : (s.addAt j).waiter = s.waiterOf j := (if_pos hj).symm
  rw [hself, update_eq_self]

variable {q' : Nat → Queue Admission}

theorem Change.buffers_le (h : Change s q a s' q') : s.buffers ≤ s'.buffers := by
  cases h <;> omega

/-- What a step does to buffer `i`: it is made by the step, it deals with its queue, or it admits
a message. -/
inductive BufferChange (s : SystemState) (q : Nat → Queue Admission) (a : SystemAct) (i : Nat) :
    BufferState → Queue Admission → Prop where
  | fresh (o : AckBufferOptions) (bb : ByteBudget) (b : AckBuffer) : i = s.buffers →
      newAckBuffer o s.bb = (bb, .ok b) → BufferChange s q a i { buf := b } {}
  /-- The last flag changes in a call only. -/
  | deal (b : BufferState) (bb : ByteBudget) (qi : Queue Admission) : i < s.buffers →
      Deals ((s.bufferAt i).buf, s.bb, q i) (b.buf, bb, qi) →
      b.log = (s.bufferAt i).log →
      (b.buf.lastFlaggedSeq = (s.bufferAt i).buf.lastFlaggedSeq ∨
        ∃ op, b = ((s.bufferAt i).apply s.bb op).1 ∧ (op = .resetDelivery → a = .call i op)) →
      BufferChange s q a i b qi
  | admission (j : Nat) (adm : Admission) : i < s.buffers → j < s.adds → a = .tryAdd j →
      (s.addAt j).buffer = i → (s.bufferAt i).buf.isRunning = true →
      (s.bufferAt i).buf.isAvailable = true →
      (adm.overshot = true → adm.stored.ackRequested = true) →
      adm.stored.seqNum = (s.bufferAt i).buf.nextSeqNum → adm.size = (s.addAt j).size →
      adm.given = (s.addAt j).message → (s.round (s.addAt j)).1.overshot = adm.overshot →
      BufferChange s q a i
        { s.bufferAt i with
          buf := (s.bufferAt i).buf.admitLocked adm.stored adm.size adm.overshot adm.receipt
            adm.maxTransmissions
          log := (s.bufferAt i).log ++ [adm] } ((q i).push { item := adm, limit := adm.limit })

theorem Change.at (h : Change s q a s' q') (hi : i < s'.buffers) :
    BufferChange s q a i (s'.bufferAt i) (q' i) := by
  have hsame : i < s.buffers → BufferChange s q a i (s.bufferAt i) (q i) :=
    fun hlt => .deal _ s.bb _ hlt .refl rfl (.inl rfl)
  cases h with
  | same _ hat hn | cancel _ _ _ _ hat hn =>
    rw [hat]
    exact hsame (hn ▸ hi)
  | fresh o b _ hnew hat hn _ =>
    rw [hat]
    rcases Nat.lt_succ_iff_lt_or_eq.1 (hn ▸ hi) with hlt | rfl
    · rw [update_of_ne hlt.ne, update_of_ne hlt.ne]
      exact hsame hlt
    · rw [update_self, update_self]
      exact .fresh o _ b rfl hnew
  | deal k b qk hk hdeals hlog hat hn _ hop =>
    rw [hat]
    rcases eq_or_ne i k with rfl | hik
    · rw [update_self, update_self]
      exact .deal b _ qk hk hdeals hlog (.inr hop)
    · rw [update_of_ne hik, update_of_ne hik]
      exact hsame (hn ▸ hi)
  | refuse j b w _ _ hbuf _ _ hat hn _ =>
    subst hbuf
    rw [hat]
    rcases eq_or_ne i (s.addAt j).buffer with rfl | hik
    · rw [update_self]
      exact .deal _ s.bb _ (hn ▸ hi) (Deal.sample ..).deals rfl (.inl rfl)
    · rw [update_of_ne hik]
      exact hsame (hn ▸ hi)
  | admission j b adm hj ha hbuf hrun havail _ hflag hseq hsize hgiven hround hat hn _ =>
    subst hbuf
    rw [hat]
    rcases eq_or_ne i (s.addAt j).buffer with rfl | hik
    · rw [update_self, update_self]
      exact .admission j adm (hn ▸ hi) hj ha rfl hrun havail hflag hseq hsize hgiven hround
    · rw [update_of_ne hik, update_of_ne hik]
      exact hsame (hn ▸ hi)

/-- No call changes the options of a buffer. -/
theorem Change.config (h : Change s q a s' q') (hi : i < s.buffers) :
    (s'.bufferAt i).buf.configView = (s.bufferAt i).buf.configView := by
  have hat := h.at (hi.trans_le h.buffers_le)
  generalize s'.bufferAt i = b, q' i = qi at hat ⊢
  cases hat with
  | fresh _ _ _ hnew _ => exact absurd hnew hi.ne
  | deal _ _ _ _ hdeals _ _ => exact hdeals.config
  | admission => exact admitLocked_config ..

theorem addSize_congr {b b' : AckBuffer} (h : b'.configView = b.configView) (e : DataMessage) :
    b'.addSize e = b.addSize e := by
  unfold addSize
  rw [show b'.accounting = b.accounting from congrArg Prod.fst h]

/-- The messages of the buffers are those of before, and that of an admission. -/
theorem Change.log_cases (h : Change s q a s' q')
    (hi : i < s'.buffers) {adm : Admission} (hadm : adm ∈ (s'.bufferAt i).log) :
    (i < s.buffers ∧ adm ∈ (s.bufferAt i).log) ∨
      ∃ j, a = .tryAdd j ∧ j < s.adds ∧ i = (s.addAt j).buffer ∧ adm.size = (s.addAt j).size ∧
        adm.given = (s.addAt j).message := by
  have hat := h.at hi
  generalize s'.bufferAt i = b, q' i = qi at hat hadm
  cases hat with
  | fresh => cases hadm
  | deal _ _ _ hlt _ hlog _ => exact .inl ⟨hlt, hlog ▸ hadm⟩
  | admission j adm' hlt hj ha hbuf _ _ _ _ hsize hgiven _ =>
    rcases List.mem_append.1 hadm with hold | hnew
    · exact .inl ⟨hlt, hold⟩
    · rw [List.mem_singleton.1 hnew]
      exact .inr ⟨j, ha, hj, hbuf.symm, hsize, hgiven⟩

/-- A message is charged its estimate. -/
theorem Change.sizes (h : Change s q a s' q') (hb : Buffered s q)
    (hi : i < s'.buffers) (adm : Admission) (hadm : adm ∈ (s'.bufferAt i).log) :
    adm.size = (s'.bufferAt i).buf.addSize adm.given := by
  rcases h.log_cases hi hadm with ⟨hlt, hold⟩ | ⟨j, -, hj, rfl, hsize, hgiven⟩
  · rw [addSize_congr (h.config hlt)]
    exact hb.sizes i hlt adm hold
  · obtain ⟨hlt, hown⟩ := hb.adds j hj
    rw [addSize_congr (h.config hlt), hsize, hgiven]
    exact hown

/-- The calls stay on buffers that were made, and keep their sizes. -/
theorem Buffered.calls (h : Buffered s q) (hmove : Moved s a s')
    (hchange : Change s q a s' q')
    (hmet : ∀ i, i < s'.buffers → Metered (s'.bufferAt i) (q' i)) :
    Buffered s' q' := by
  refine ⟨hmet, fun j hj => ?_, fun j hj => ?_, fun i hi => hchange.sizes h hi⟩
  · rcases hmove.given hj with ⟨hlt, hgiven⟩ | ⟨-, hb, -, hsize⟩
    · obtain ⟨hb, hsize⟩ := h.adds j hlt
      simp only [AddCall.given, Prod.mk.injEq] at hgiven
      obtain ⟨hbuf, hmsg, hsz, -, -⟩ := hgiven
      rw [hbuf, hmsg, hsz, addSize_congr (hchange.config hb)]
      exact ⟨hb.trans_le hchange.buffers_le, hsize⟩
    · rw [addSize_congr (hchange.config hb)]
      exact ⟨hb.trans_le hchange.buffers_le, hsize⟩
  · rcases hmove.drainBuffer hj with ⟨hlt, heq⟩ | hb
    · rw [heq]
      exact (h.drains j hlt).trans_le hchange.buffers_le
    · exact hb.trans_le hchange.buffers_le

theorem bytes_le (hi : i < s.buffers) : (s.bufferAt i).buf.bytes ≤ s.bytes :=
  Finset.single_le_sum (f := fun i => (s.bufferAt i).buf.bytes) (fun _ _ => Nat.zero_le _)
    (Finset.mem_range.2 hi)

/-- One buffer changes, with its queue. -/
theorem metered_update {b : BufferState} {qi : Queue Admission} {n : Nat}
    (h : ∀ i, i < s.buffers → Metered (s.bufferAt i) (q i)) (k : Nat)
    (hb : Metered b qi) (hlt : ∀ i, i < n → i ≠ k → i < s.buffers) (i : Nat)
    (hi : i < n) :
    Metered (update s.bufferAt k b i) (update q k qi i) := by
  rcases eq_or_ne i k with rfl | hik
  · rw [update_self, update_self]
    exact hb
  · rw [update_of_ne hik, update_of_ne hik]
    exact h i (hlt i hi hik)

/-- What a step does to the budget, to the buffers and to the waiters. -/
theorem Buffered.change (h : Buffered s q) (hmove : Moved s a s') (hin : s.Within a) :
    ∃ q', Change s q a s' q' ∧
      ∀ i, i < s'.buffers → Metered (s'.bufferAt i) (q' i) := by
  cases hmove with
  | newAckBuffer o bb b hnew =>
    refine ⟨_, .fresh o b rfl hnew rfl rfl rfl, metered_update h.metered _
      (newAckBuffer_metered (congrArg Prod.snd hnew)) fun i hi hne => ?_⟩
    exact Nat.lt_of_le_of_ne (Nat.le_of_lt_succ hi) hne
  | rejected | callDrain | wakeDrain => exact ⟨q, .same rfl rfl rfl rfl, h.metered⟩
  | call i op hi hop =>
    have hadds : op.adds = false := by
      cases op <;> first | rfl | cases hop
    obtain ⟨qi, hm, hlog, hdeals⟩ := (h.metered i hi).deal s.bb hadds
    exact ⟨_, .deal i _ qi hi hdeals hlog rfl rfl rfl ⟨op, rfl, fun hop => by rw [hop]⟩,
      metered_update h.metered i hm fun _ hk _ => hk⟩
  | callAdd i e receipt m hi =>
    refine ⟨q, .same rfl rfl rfl ?_, h.metered⟩
    -- the new call holds no waiter
    funext k
    unfold waiterOf setAdd
    rcases lt_trichotomy k s.adds with hk | rfl | hk
    · simp only [if_pos hk, if_pos (Nat.lt_succ_of_lt hk), update_of_ne hk.ne]
    · simp only [Nat.lt_succ_self, if_true, update_self, lt_irrefl, if_false]
    · simp only [if_neg (Nat.not_lt.2 hk.le), if_neg (Nat.not_lt.2 (Nat.succ_le_of_lt hk))]
  | tryAdd j hj hphase =>
    obtain ⟨hi, hsize⟩ := h.adds j hj
    have hm := h.metered _ hi
    obtain ⟨b, bb, w, out, escaped, happ, hw, hout, hover, hadd⟩ := added
      (s.bufferAt (s.addAt j).buffer) s.bb (s.addAt j).message (s.addAt j).size (s.addAt j).waiter
      (s.addAt j).receipt (s.addAt j).maxTransmissions
    simp only [apply, addOp, setAdd, round, happ, hw, hout]
    cases hadd with
    | closed hrun =>
      refine ⟨q, .same rfl ?_ rfl (waiterOf_same hj rfl rfl rfl), fun i hi => ?_⟩
      · exact update_eq_self _ _
      · rw [update_eq_self]
        exact h.metered i hi
    | refused bb' w hrun hwhy =>
      refine ⟨q, .refuse j _ w hj rfl rfl hrun hwhy rfl rfl (waiterOf_update hj rfl rfl rfl), ?_⟩
      have hup := metered_update h.metered (s.addAt j).buffer hm.sampleWake (n := s.buffers)
        fun _ hk _ => hk
      rwa [update_eq_self] at hup
    | admitted bb' adm hrun havail hwhy hflag hseq hsz hgiven =>
      refine ⟨_, .admission j _ adm hj rfl rfl hrun havail hwhy hflag hseq hsz hgiven hover rfl rfl
        (waiterOf_update hj rfl rfl rfl), metered_update h.metered _
        (hm.admission hrun havail hseq ?_ ?_) fun _ hk _ => hk⟩
      · have hle := bytes_le hi
        have hsum : s.bytes + (s.addAt j).size < 2 ^ 64 := hin
        rw [hsz]
        omega
      · intro hacc
        rw [hsz, hsize, addSize, hacc]
        rfl
  | wakeAdd _ hj | timeout _ hj =>
    exact ⟨q, .same rfl rfl rfl (waiterOf_same hj rfl rfl rfl), h.metered⟩
  | cancel j hj _ =>
    exact ⟨q, .cancel j hj rfl rfl rfl rfl (waiterOf_update hj rfl rfl rfl), h.metered⟩
  | drain j first ctxDone hj _ =>
    obtain ⟨qi, hm, hlog, hdeals⟩ :=
      (h.metered _ (h.drains j hj)).deal s.bb (show (BufferOp.drain first ctxDone).adds = false from rfl)
    exact ⟨_, .deal _ _ qi (h.drains j hj) hdeals hlog rfl rfl rfl ⟨_, rfl, BufferOp.noConfusion⟩,
      metered_update h.metered _ hm fun _ hk _ => hk⟩

theorem Buffered.step (h : Buffered s q) (hmove : Moved s a s') (hin : s.Within a) :
    ∃ q', Buffered s' q' ∧ Change s q a s' q' := by
  obtain ⟨q', hchange, hmet⟩ := h.change hmove hin
  exact ⟨q', h.calls hmove hchange hmet, hchange⟩

/-! ## Sums over the buffers -/

/-- What the buffers and their queues weigh together. -/
def weigh (f : BufferState → Queue Admission → Nat) (s : SystemState) (q : Nat → Queue Admission) :
    Nat := ∑ i ∈ Finset.range s.buffers, f (s.bufferAt i) (q i)

variable {f : BufferState → Queue Admission → Nat} {b : BufferState} {qi : Queue Admission}

theorem weigh_update (f : BufferState → Queue Admission → Nat) (q : Nat → Queue Admission)
    (qi : Queue Admission) (hi : i < s.buffers)
    (hat : s'.bufferAt = update s.bufferAt i b) (hn : s'.buffers = s.buffers) :
    weigh f s' (update q i qi) + f (s.bufferAt i) (q i) = weigh f s q + f b qi := by
  have hfun : (fun k => f (s'.bufferAt k) (update q i qi k)) =
      update (fun k => f (s.bufferAt k) (q k)) i (f b qi) := by
    funext k
    rw [hat]
    rcases eq_or_ne k i with rfl | hk
    · rw [update_self, update_self, update_self]
    · rw [update_of_ne hk, update_of_ne hk, update_of_ne hk]
  unfold weigh
  rw [hn, hfun]
  exact Slice.sum_update_add hi _ _

theorem weigh_fresh (hat : s'.bufferAt = update s.bufferAt s.buffers b)
    (hn : s'.buffers = s.buffers + 1) :
    weigh f s' (update q s.buffers qi) = weigh f s q + f b qi := by
  unfold weigh
  rw [hn, Finset.sum_range_succ, hat, update_self, update_self]
  refine congrArg (· + f b qi) (Finset.sum_congr rfl fun k hk => ?_)
  have hne : k ≠ s.buffers := (Finset.mem_range.1 hk).ne
  rw [update_of_ne hne, update_of_ne hne]

theorem weigh_congr (hat : s'.bufferAt = s.bufferAt) (hn : s'.buffers = s.buffers) :
    weigh f s' q = weigh f s q := by
  unfold weigh
  rw [hat, hn]

/-- A buffer that changes without its weight. -/
theorem weigh_same (hi : i < s.buffers) (hat : s'.bufferAt = update s.bufferAt i b)
    (hn : s'.buffers = s.buffers) (hf : f b (q i) = f (s.bufferAt i) (q i)) :
    weigh f s' q = weigh f s q := by
  have hsum := weigh_update f q (q i) hi hat hn
  rw [update_eq_self, hf] at hsum
  omega

theorem weigh_mono {f' : BufferState → Queue Admission → Nat}
    (h : ∀ i, i < s.buffers → f (s.bufferAt i) (q i) ≤ f' (s.bufferAt i) (q i)) :
    weigh f s q ≤ weigh f' s q :=
  Finset.sum_le_sum fun i hi => h i (Finset.mem_range.1 hi)

theorem le_weigh (hi : i < s.buffers) : f (s.bufferAt i) (q i) ≤ weigh f s q :=
  Finset.single_le_sum (f := fun i => f (s.bufferAt i) (q i)) (fun _ _ => Nat.zero_le _)
    (Finset.mem_range.2 hi)

theorem buffered_of_new (h : NewSystem s) (q : Nat → Queue Admission) :
    Buffered s q := by
  refine ⟨fun i hi => ?_, fun j hj => ?_, fun j hj => ?_, fun i hi => ?_⟩
  · rw [h.buffers] at hi
    omega
  · rw [h.adds] at hj
    omega
  · rw [h.drains] at hj
    omega
  · rw [h.buffers] at hi
    omega

end SystemState

end UspClient
