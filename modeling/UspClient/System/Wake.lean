import UspClient.Buffer.Wake
import UspClient.System.Balance

/-!
# No lost wakeup

A parked add captured the wake channel of its buffer and, if the budget refused it, a channel of
the budget. The invariant says why such an add would be refused again while both are open, and
what a parked drain still waits for. Every step keeps it: a section of another call closes the
channel of the buffer or changes nothing there, and a section that frees bytes of the budget
closes the channel of those it may concern.
-/

namespace UspClient

open Function Word64 Replay ByteBudget AckBuffer

namespace SystemState

variable {s s' s₀ : SystemState} {a : SystemAct} {i j total : Nat} {q q' : Nat → Queue Admission}
variable {tr : List SystemStep} {l : ChanId} {p : Option ChanId}

/-! ## Sums -/

/-- The sizes of the adds that have not returned. -/
def inFlight (s : SystemState) : Nat :=
  ∑ k ∈ Finset.range s.adds, if (s.addAt k).phase = .returned then 0 else (s.addAt k).size

/-- No counter overflows, and neither does the sum of what is held and what is in flight. -/
def Roomy (s : SystemState) (a : SystemAct) : Prop := s.Fits a ∧ s.bytes + s.inFlight < 2 ^ 64

instance (s : SystemState) (a : SystemAct) : Decidable (s.Roomy a) :=
  inferInstanceAs (Decidable (_ ∧ _))

/-- Two adds that have not returned. -/
theorem two_in_flight {k : Nat} (hj : j < s.adds) (hk : k < s.adds) (hjk : j ≠ k)
    (hpj : (s.addAt j).phase ≠ .returned) (hpk : (s.addAt k).phase ≠ .returned) :
    (s.addAt j).size + (s.addAt k).size ≤ s.inFlight := by
  have hsub : ({j, k} : Finset Nat) ⊆ Finset.range s.adds := by
    intro x hx
    rw [Finset.mem_insert, Finset.mem_singleton] at hx
    rw [Finset.mem_range]
    rcases hx with rfl | rfl
    · exact hj
    · exact hk
  have hpair := Finset.sum_pair (f := fun k =>
    if (s.addAt k).phase = .returned then 0 else (s.addAt k).size) hjk
  simp only [if_neg hpj, if_neg hpk] at hpair
  rw [← hpair]
  exact Finset.sum_le_sum_of_subset hsub

/-! ## Parked calls -/

/-- What the parked calls wait for. -/
structure Waits (s : SystemState) : Prop where
  adds : ∀ j l p, j < s.adds → (s.addAt j).phase = .parked l p →
    (s.bufferAt (s.addAt j).buffer).buf.Listens l fun b =>
      b.isRunning = true ∧ b.Stuck s.bb (s.addAt j).size (s.addAt j).waiter p
  drains : ∀ j l, j < s.drains → (s.drainAt j).phase = .parked l →
    (s.bufferAt (s.drainAt j).buffer).buf.Listens l fun b =>
      b.isClosed = false ∧ 0 < b.nextIndexFree

/-- An add is parked by its round, and stays as it is until it wakes up. -/
theorem Moved.parked (h : Moved s a s') (hj : j < s'.adds)
    (hp : (s'.addAt j).phase = .parked l p) :
    j < s.adds ∧ (s'.addAt j = s.addAt j ∨ (a = .tryAdd j ∧ (s.addAt j).phase = .trying ∧
      s' = (s.apply (s.addAt j).buffer (addOp (s.addAt j))).setAdd j
        { s.addAt j with
          waiter := (s.round (s.addAt j)).1.waiter
          phase := .after (s.round (s.addAt j)).2 })) := by
  -- a call that this step moves out of its select is not parked
  have hset : ∀ k c, (∀ l p, c.phase ≠ .parked l p) → s'.addAt = update s.addAt k c →
      s'.addAt j = s.addAt j := by
    intro k c hc hat
    rw [hat] at hp ⊢
    rcases eq_or_ne j k with rfl | hjk
    · rw [update_self] at hp
      exact absurd hp (hc l p)
    · rw [update_of_ne hjk]
  cases h with
  | callAdd i e receipt m hi =>
    have hsame := hset s.adds _ (fun l p => AddPhase.noConfusion) rfl
    rcases Nat.lt_succ_iff_lt_or_eq.1 hj with hlt | rfl
    · exact ⟨hlt, .inl hsame⟩
    · have hnew : (AddPhase.trying : AddPhase) = .parked l p := by
        rw [← hp]
        show _ = (update s.addAt s.adds _ s.adds).phase
        rw [update_self]
      cases hnew
  | tryAdd k hk hphase =>
    refine ⟨hj, ?_⟩
    rcases eq_or_ne j k with rfl | hjk
    · exact .inr ⟨rfl, hphase, rfl⟩
    · exact .inl (update_of_ne hjk _ _)
  | wakeAdd k | timeout k | cancel k =>
    exact ⟨hj, .inl (hset k _ (fun l p => AddPhase.noConfusion) rfl)⟩
  | _ => exact ⟨hj, .inl rfl⟩

theorem Moved.drainParked (h : Moved s a s') (hj : j < s'.drains)
    (hp : (s'.drainAt j).phase = .parked l) :
    j < s.drains ∧ (s'.drainAt j = s.drainAt j ∨ ∃ first ctxDone, a = .drain j ctxDone ∧
      s' = (s.apply (s.drainAt j).buffer (.drain first ctxDone)).setDrain j
        { s.drainAt j with
          phase := .after
            ((s.bufferAt (s.drainAt j).buffer).buf.drainSection first ctxDone).2 }) := by
  cases h with
  | callDrain i hi =>
    rcases Nat.lt_succ_iff_lt_or_eq.1 hj with hlt | rfl
    · exact ⟨hlt, .inl (update_of_ne hlt.ne _ _)⟩
    · have hnew : (DrainPhase.locking true : DrainPhase) = .parked l := by
        rw [← hp]
        show _ = (update s.drainAt s.drains _ s.drains).phase
        rw [update_self]
      cases hnew
  | drain k first ctxDone hk hphase =>
    refine ⟨hj, ?_⟩
    rcases eq_or_ne j k with rfl | hjk
    · exact .inr ⟨first, ctxDone, rfl, rfl⟩
    · exact .inl (update_of_ne hjk _ _)
  | wakeDrain k wake ctxDone _ _ =>
    refine ⟨hj, .inl ?_⟩
    rcases eq_or_ne j k with rfl | hjk
    · have hnew : (DrainPhase.locking false : DrainPhase) = .parked l := by
        rw [← hp]
        show _ = (update s.drainAt j _ j).phase
        rw [update_self]
      cases hnew
    · exact update_of_ne hjk _ _
  | _ => exact ⟨hj, .inl rfl⟩

/-! ## The budget -/

/-- Whoever waits for an ungrouped budget hears of every release. -/
theorem Buffered.heard (hb : Buffered s q)
    (h : ByteBudget.Legacy s.bb total (weigh sharedBytes s q)) (hin : s.Within a)
    (hchange : Change s q a s' q') : Heard s.bb s'.bb := by
  have hreserve : ∀ j, j < s.adds → a = .tryAdd j → ∀ force og w,
      Heard s.bb (s.bb.reserveFor (s.addAt j).size force og w).1 := by
    rintro j hj rfl force og w
    have hroom := (hb.room hj hin).1
    rw [← h.used] at hroom
    exact heard_reserve h.fair hroom force og w
  cases hchange with
  | same hbb _ _ _ =>
    rw [hbb]
    exact Heard.refl _
  | fresh o b _ hnew _ _ _ =>
    rw [newAckBuffer_legacy h hnew]
    exact Heard.refl _
  | deal i b qi hi hdeals _ _ _ _ =>
    -- every release of the call signals, so does the call
    refine hdeals.pays (hb.metered i hi).meter (fun bb _ _ _ => Heard s.bb bb) ?_ ?_ (Heard.refl _)
    · intro bb _ _ _ n x hL _ _ _ _
      unfold AckBuffer.releaseShared
      split_ifs
      · exact hL.trans (heard_release (hL.fair.trans h.fair) n x _)
      · exact hL
    · intro bb hL
      have hleg : ByteBudget.Legacy bb bb.total bb.used := ⟨hL.fair.trans h.fair, rfl, rfl⟩
      rw [hleg.unregister]
      exact hL
  | refuse j b w hj ha hbuf _ hwhy _ _ _ =>
    rcases hwhy.cases with ⟨-, hbb⟩ | ⟨-, -, hbb, -⟩
    · rw [hbb, cancelShared_legacy h]
      exact Heard.refl _
    · rw [hbb]
      exact hreserve j hj ha _ _ _
  | admission j b adm hj ha hbuf _ _ hwhy _ _ _ _ _ _ _ _ =>
    rcases hwhy.cases with ⟨-, hbb⟩ | ⟨-, -, -, hbb, -⟩
    · rw [hbb]
      exact Heard.refl _
    · rw [hbb]
      exact hreserve j hj ha _ _ _
  | cancel j _ _ hbb _ _ _ =>
    rw [hbb, cancelShared_legacy h]
    exact Heard.refl _

/-- A step changes nothing for a waiter unless it closes the channel. -/
theorem Agrees.pool (h : Agrees s q) (hb : Buffered s q) (hchange : Change s q a s' q')
    (hfits : s.Fits a) : s'.bb.fair = s.bb.fair ∧
      ∀ j v n p, s.waiterOf j = some v → PoolShort s.bb n v p → PoolShort s'.bb n v p := by
  cases h with
  | legacy total hcounter _ =>
    have hheard := hb.heard hcounter hfits.within hchange
    exact ⟨hheard.fair, fun j v n p _ hshort => hshort.heard hcounter.fair hheard⟩
  | fair hfair =>
    have hc := hfair.carried hb hchange hfits fun hno => absurd hno not_false
    have hyes : s.bb.fair = true := hfair.kept.solvent.accounts.fair
    refine ⟨hc.frame.fair, fun j v n p hv hshort => ⟨fun _ => ?_, fun hno => ?_⟩⟩
    · have hold := hfair.kept.solvent.accounts.queues.fresh v (mem_outstanding.2 ⟨j, hv⟩)
      rw [(hc.frame.waiter v hold).2.2]
      exact hshort.fair hyes
    · exact absurd (hno.symm.trans (hc.frame.fair.trans hyes)) Bool.false_ne_true

/-! ## Steps -/

/-- A step closes the channel of a buffer or changes nothing there, unless it admits a message. -/
theorem Change.signals (h : Change s q a s' q') (hi : i < s.buffers) :
    Signals (s.bufferAt i).buf (s'.bufferAt i).buf ∨
      ∃ k, ∃ adm : Admission, k < s.adds ∧ a = .tryAdd k ∧ (s.addAt k).buffer = i ∧
        (s.bufferAt i).buf.isRunning = true ∧ (s.bufferAt i).buf.isAvailable = true ∧
        adm.stored.seqNum = (s.bufferAt i).buf.nextSeqNum ∧ adm.size = (s.addAt k).size ∧
        (s'.bufferAt i).buf = (s.bufferAt i).buf.admitLocked adm.stored adm.size adm.overshot
          adm.receipt adm.maxTransmissions := by
  have hat := h.at (hi.trans_le h.buffers_le)
  generalize s'.bufferAt i = b, q' i = qi at hat ⊢
  cases hat with
  | fresh _ _ _ hnew _ => exact absurd hnew hi.ne
  | deal _ _ _ _ hdeals _ _ => exact .inl hdeals.signals
  | admission k adm _ hk ha hbuf hrun havail _ hseq hsize _ _ =>
    exact .inr ⟨k, adm, hk, ha, hbuf, hrun, havail, hseq, hsize, rfl⟩

/-- Sequence numbers are not used up: the next one is new, and above those that are held. -/
theorem next_number {b : BufferState} {qi : Queue Admission} (h : BufferState.Metered b qi)
    (hlen : b.log.length < 2 ^ 64 - 1) :
    b.buf.nextSeqNum ≠ 0 ∧ b.buf.firstSeqNum ≤ b.buf.nextSeqNum := by
  have hslots := h.tracks.refines.slots
  have hfirst := hslots.first
  have hnext := hslots.nextSeq
  have hitems := qi.length_items
  rw [h.tracks.items] at hnext hitems
  rw [Nat.mod_eq_of_lt (by omega)] at hfirst hnext
  omega

theorem Moved.trying {k : Nat} (h : Moved s (.tryAdd k) s') : (s.addAt k).phase = .trying := by
  cases h with
  | tryAdd _ _ hphase => exact hphase

/-- An add that stays parked. -/
theorem Waits.add_stays (hw : Waits s) (hb : Buffered s q) (hagree : Agrees s q)
    (hmove : Moved s a s') (hchange : Change s q a s' q') (hroom : s.Roomy a) (hnum : s.Numbered)
    (hj : j < s.adds) (hp : (s.addAt j).phase = .parked l p) :
    (s'.bufferAt (s.addAt j).buffer).buf.Listens l fun b =>
      b.isRunning = true ∧ b.Stuck s'.bb (s.addAt j).size (s.addAt j).waiter p := by
  have hi := (hb.adds j hj).1
  have hpool := (hagree.pool hb hchange hroom.1).2
  have hbudget : ∀ b : AckBuffer, b.Stuck s.bb (s.addAt j).size (s.addAt j).waiter p →
      b.Stuck s'.bb (s.addAt j).size (s.addAt j).waiter p := fun b hstuck =>
    hstuck.budget fun v hv => hpool j v _ p ((waiterOf_eq hj).trans hv)
  have hold := hw.adds j l p hj hp
  rcases hchange.signals hi with hs | ⟨k, adm, hk, rfl, hbuf, hrun, havail, hseq, hsize, hnew⟩
  · -- whoever changes the buffer closes the channel
    refine (hold.signals hs fun hgate ⟨hrun, hstuck⟩ => ?_).mono fun ⟨hrun, hstuck⟩ =>
      ⟨hrun, hbudget _ hstuck⟩
    have hrunning := congrArg (fun v => v.1.1) hgate
    exact ⟨hrunning.trans hrun, hstuck.congr hgate⟩
  · -- another add was admitted
    have hjk : j ≠ k := by
      rintro rfl
      exact AddPhase.noConfusion (hp.symm.trans hmove.trying)
    have hflight := two_in_flight hj hk hjk (by rw [hp]; exact AddPhase.noConfusion)
      (by rw [hmove.trying]; exact AddPhase.noConfusion)
    have hbytes := bytes_le hi
    have hsum := hroom.2
    obtain ⟨hwake, hclosed, -, -⟩ := admitLocked_wake
      (b := (s.bufferAt (s.addAt j).buffer).buf) adm.stored adm.size adm.overshot adm.receipt
      adm.maxTransmissions
    have hset := admitLocked_settings (b := (s.bufferAt (s.addAt j).buffer).buf) adm.stored adm.size
      adm.overshot adm.receipt adm.maxTransmissions
    rw [hnew]
    intro hopen
    rw [hclosed] at hopen
    obtain ⟨hold', -, hstuck⟩ := hold hopen
    have hrunning := congrArg (fun v => v.2.1.2) hset
    refine ⟨hwake.trans hold', hrunning.trans hrun, hbudget _ (hstuck.admitted havail ?_ ?_)⟩
    · omega
    · rw [hseq]
      exact next_number (hb.metered _ hi) (hnum _ hi)

/-- An add that was refused just now. -/
theorem add_parks (hfair : s'.bb.fair = s.bb.fair)
    (hs' : s' = (s.apply (s.addAt j).buffer (addOp (s.addAt j))).setAdd j
      { s.addAt j with
        waiter := (s.round (s.addAt j)).1.waiter
        phase := .after (s.round (s.addAt j)).2 })
    (hp : (s'.addAt j).phase = .parked l p) :
    (s'.bufferAt (s'.addAt j).buffer).buf.Listens l fun b =>
      b.isRunning = true ∧ b.Stuck s'.bb (s'.addAt j).size (s'.addAt j).waiter p := by
  obtain ⟨b, bb, w, out, escaped, happ, hw, hout, -, hadd⟩ := BufferState.added
    (s.bufferAt (s.addAt j).buffer) s.bb (s.addAt j).message (s.addAt j).size (s.addAt j).waiter
    (s.addAt j).receipt (s.addAt j).maxTransmissions
  simp only [apply, addOp, setAdd, round, happ, hw, hout] at hs'
  have hat : s'.addAt j = { s.addAt j with waiter := w, phase := .after out } := by
    rw [hs']
    exact update_self _ _ _
  have hbuf : s'.bufferAt (s.addAt j).buffer = b := by
    rw [hs']
    exact update_self _ _ _
  have hbb : s'.bb = bb := by rw [hs']
  rw [hat] at hp ⊢
  rw [hbb] at hfair ⊢
  simp only at hp ⊢
  rw [hbuf]
  cases hadd with
  | closed | admitted => cases hp
  | refused bb' w hrun hwhy =>
    obtain ⟨rfl, rfl⟩ := AddPhase.parked.inj hp
    exact fun _ => ⟨sampleWake_wake _, hrun, (hwhy.stuck hfair).congr rfl⟩

/-- A drain that stays parked. -/
theorem Waits.drain_stays (hw : Waits s) (hb : Buffered s q) (hchange : Change s q a s' q')
    (hj : j < s.drains) (hp : (s.drainAt j).phase = .parked l) :
    (s'.bufferAt (s.drainAt j).buffer).buf.Listens l fun b =>
      b.isClosed = false ∧ 0 < b.nextIndexFree := by
  have hold := hw.drains j l hj hp
  rcases hchange.signals (hb.drains j hj) with hs | ⟨k, adm, -, -, -, -, -, -, -, hnew⟩
  · refine hold.signals hs fun hgate ⟨hopen, hfree⟩ => ?_
    have hclosed := congrArg (fun v => v.1.2.1) hgate
    have hslots := congrArg (fun v => v.2.1.2.2.2) hgate
    exact ⟨hclosed.trans hopen, hfree.trans_eq hslots.symm⟩
  · obtain ⟨hwake, hchan, -, hslots⟩ := admitLocked_wake
      (b := (s.bufferAt (s.drainAt j).buffer).buf) adm.stored adm.size adm.overshot adm.receipt
      adm.maxTransmissions
    have hset := admitLocked_settings (b := (s.bufferAt (s.drainAt j).buffer).buf) adm.stored
      adm.size adm.overshot adm.receipt adm.maxTransmissions
    rw [hnew]
    intro hopen
    rw [hchan] at hopen
    obtain ⟨hold', hnot, -⟩ := hold hopen
    have hclosed := congrArg (fun v => v.2.1.1) hset
    refine ⟨hwake.trans hold', hclosed.trans hnot, ?_⟩
    rw [hslots]
    exact Nat.succ_pos _

/-- A drain that parks just now. -/
theorem drain_parks {first ctxDone : Bool}
    (hs' : s' = (s.apply (s.drainAt j).buffer (.drain first ctxDone)).setDrain j
      { s.drainAt j with
        phase := .after
          ((s.bufferAt (s.drainAt j).buffer).buf.drainSection first ctxDone).2 })
    (hp : (s'.drainAt j).phase = .parked l) :
    (s'.bufferAt (s'.drainAt j).buffer).buf.Listens l fun b =>
      b.isClosed = false ∧ 0 < b.nextIndexFree := by
  have hat : (s'.drainAt j).buffer = (s.drainAt j).buffer ∧ (s'.drainAt j).phase =
      .after ((s.bufferAt (s.drainAt j).buffer).buf.drainSection first ctxDone).2 := by
    rw [hs']
    simp only [setDrain, update_self]
    exact ⟨trivial, trivial⟩
  have hbuf : (s'.bufferAt (s.drainAt j).buffer).buf =
      ((s.bufferAt (s.drainAt j).buffer).buf.drainSection first ctxDone).1 := by
    rw [hs']
    simp only [setDrain, apply, update_self]
    rfl
  rw [hat.2] at hp
  rw [hat.1, hbuf]
  refine drainSection_listens _ first ctxDone ?_
  generalize ((s.bufferAt (s.drainAt j).buffer).buf.drainSection first ctxDone).2 = round at hp ⊢
  cases round with
  | empty | failed => cases hp
  | parked wake => rw [DrainPhase.parked.inj hp]

theorem Waits.step (hw : Waits s) (hb : Buffered s q) (hagree : Agrees s q)
    (hmove : Moved s a s') (hchange : Change s q a s' q') (hroom : s.Roomy a)
    (hnum : s.Numbered) : Waits s' := by
  constructor
  · intro j l p hj hp
    obtain ⟨hlt, hsame | ⟨ha, -, hs'⟩⟩ := hmove.parked hj hp
    · rw [hsame] at hp ⊢
      exact hw.add_stays hb hagree hmove hchange hroom hnum hlt hp
    · exact add_parks (hagree.pool hb hchange hroom.1).1 hs' hp
  · intro j l hj hp
    obtain ⟨hlt, hsame | ⟨first, ctxDone, ha, hs'⟩⟩ := hmove.drainParked hj hp
    · rw [hsame] at hp ⊢
      exact hw.drain_stays hb hchange hlt hp
    · exact drain_parks hs' hp

theorem waits_of_run (hnew : NewSystem s₀) (hrun : Machine.Run systemMachine s₀ tr s)
    (hroom : ∀ t ∈ tr, t.pre.Roomy t.act) :
    ∃ q, Buffered s q ∧ Agrees s q ∧ (s.Numbered → Waits s) := by
  refine hrun.invariant_of (fun s a => s.Roomy a)
    (fun s => ∃ q, Buffered s q ∧ Agrees s q ∧ (s.Numbered → Waits s)) ?_ ?_ hroom
  · refine ⟨fun _ => {}, buffered_of_new hnew _, agrees_of_new hnew, fun _ => ⟨?_, ?_⟩⟩
    · intro j l p hj
      rw [hnew.adds] at hj
      omega
    · intro j l hj
      rw [hnew.drains] at hj
      omega
  · rintro s a hg hroom ⟨q, hb, hagree, hwaits⟩
    have hmove := moved_of_guard hg
    obtain ⟨q', hb', hchange⟩ := hb.step hmove hroom.1.within
    refine ⟨q', hb', agrees_step hb hagree hmove hchange hroom.1, fun hnum => ?_⟩
    have hold := hchange.numbered hnum
    exact (hwaits hold).step hb hagree hmove hchange hroom hold

end SystemState

/-- **No lost wakeup.** An add that is parked with both channels open would be refused again, and
a drain that is parked with its channel open still has messages to wait for. -/
theorem no_lost_wakeup {s₀ s : SystemState} {tr : List SystemStep} (hnew : NewSystem s₀)
    (hrun : Machine.Run systemMachine s₀ tr s) (hroom : ∀ t ∈ tr, t.pre.Roomy t.act)
    (hnum : s.Numbered) :
    (∀ j l p, j < s.adds → (s.addAt j).phase = .parked l p →
      (s.bufferAt (s.addAt j).buffer).buf.wakeClosed l = false → p.any s.bb.closed = false →
        (s.bufferAt (s.addAt j).buffer).buf.isRunning = true ∧
        ((s.bufferAt (s.addAt j).buffer).buf.tryAddWithReceiptLocked s.bb (s.addAt j).message
          (s.addAt j).size (s.addAt j).waiter (s.addAt j).receipt
          (s.addAt j).maxTransmissions.toNat).ok = false) ∧
    ∀ j l, j < s.drains → (s.drainAt j).phase = .parked l →
      (s.bufferAt (s.drainAt j).buffer).buf.wakeClosed l = false →
        (s.bufferAt (s.drainAt j).buffer).buf.isClosed = false ∧
        0 < (s.bufferAt (s.drainAt j).buffer).buf.nextIndexFree := by
  obtain ⟨q, hb, hagree, hwaits⟩ := SystemState.waits_of_run hnew hrun hroom
  have hw := hwaits hnum
  refine ⟨fun j l p hj hp hopen hpool => ?_, fun j l hj hp hopen => (hw.drains j l hj hp hopen).2⟩
  obtain ⟨-, hrunning, hstuck⟩ := hw.adds j l p hj hp hopen
  refine ⟨hrunning, hstuck.refused hpool (fun v hv hfair => ?_) _ _ _⟩
  cases hagree with
  | legacy total hcounter _ => exact absurd (hcounter.fair.symm.trans hfair) Bool.false_ne_true
  | fair hledger =>
    obtain ⟨c, hwake, -, hclosed⟩ := hledger.kept.solvent.accounts.queues.wake v
      (SystemState.mem_outstanding.2 ⟨j, (SystemState.waiterOf_eq hj).trans hv⟩)
    exact ⟨c, hwake, hclosed⟩

/-- The third message of `thirdWaits` waits for bytes of its group. -/
theorem third_stays_refused :
    let s := systemMachine.exec sharedStart thirdWaits
    (s.addAt 2).phase = .parked 0 (some 0) ∧
      ((s.bufferAt 0).buf.tryAddWithReceiptLocked s.bb (s.addAt 2).message (s.addAt 2).size
        (s.addAt 2).waiter (s.addAt 2).receipt (s.addAt 2).maxTransmissions.toNat).ok = false := by
  intro s
  have hrun : Machine.Run systemMachine sharedStart _ s := Machine.run_exec _ (by decide +kernel)
  have hlen : ∀ i, i < s.buffers → (s.bufferAt i).log.length < 2 ^ 64 - 1 := by decide +kernel
  have hparked : (s.addAt 2).phase = .parked 0 (some 0) := by decide +kernel
  have hwait := no_lost_wakeup sharedStart_new hrun (by decide +kernel) hlen
  exact ⟨hparked, (hwait.1 2 0 (some 0) (by decide +kernel) hparked (by decide +kernel)
    (by decide +kernel)).2⟩

/-! ## A sum that overflows -/

/-- A buffer limited to 1000 bytes holds a flagged message of 256 and keeps a second one of 900
waiting. -/
def secondWaits : List SystemAct :=
  [.newAckBuffer ⟨1000, false, ""⟩, .call 0 (.updateCapacity 10),
    .callAdd 0 { ackRequested := true } none 0, .tryAdd 0,
    .callAdd 0 { binaryPayload := List.replicate 644 0 } none 0, .tryAdd 1]

/-- The bytes of a third message bring the counter to `2 ^ 64`. -/
def thirdWraps : List SystemAct :=
  [.callAdd 0 (sharedPayload (2 ^ 64 - 256)) none 0, .tryAdd 2]

/-- The counter starts again from zero, and no one tells the waiting add, that would fit now. -/
theorem wrapped_sum_loses_wakeup :
    let s := systemMachine.exec sharedStart (secondWaits ++ thirdWraps)
    systemMachine.Enabled sharedStart (secondWaits ++ thirdWraps) ∧
      (s.addAt 1).phase = .parked 0 none ∧ (s.bufferAt 0).buf.wakeClosed 0 = false ∧
      ((s.bufferAt 0).buf.tryAddWithReceiptLocked s.bb (s.addAt 1).message (s.addAt 1).size
        (s.addAt 1).waiter (s.addAt 1).receipt (s.addAt 1).maxTransmissions.toNat).ok = true := by
  -- the estimate of the third message is known, and so not evaluated
  have hsize : ((systemMachine.exec sharedStart secondWaits).bufferAt 0).buf.addSize
      (sharedPayload (2 ^ 64 - 256)) = 2 ^ 64 - 256 := by
    unfold AckBuffer.addSize
    rw [if_pos (by decide +kernel)]
    exact sharedPayload_size (by norm_num) (by norm_num)
  have hcall := SystemState.callAdd_next none 0 (by decide +kernel) hsize
  rw [Machine.exec_append, Machine.enabled_append, thirdWraps, Machine.exec_cons,
    Machine.enabled_cons, hcall]
  decide +kernel

end UspClient
