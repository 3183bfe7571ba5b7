import UspClient.Estimate
import UspClient.Lib.Slice
import UspClient.Budget.Scarce
import UspClient.Buffer.Covered
import UspClient.System.Escape

/-!
# What a blocked buffer has asked to be acknowledged

A buffer that refuses a message because of `MaxBytes` has asked for the acknowledgement of all
but a sixteenth of the limit. The pressure rule sees to this at admission, unless the step of
the shared limit is zero: a budget of fewer than sixteen bytes. No message fits such a budget,
so whatever it admits is an escape, and asks for its acknowledgement.
-/

namespace UspClient

open Function Word64 Replay ByteBudget AckBuffer

namespace BufferState

variable {s : BufferState} {q : Queue Admission}

/-- The live messages after `seq` are the frames of the window after `seq`. -/
theorem Metered.later_live (h : Metered s q)
    (hsizes : ∀ a ∈ s.log, a.size = s.buf.addSize a.given) (hlen : s.log.length < 2 ^ 64)
    (seq : Nat) : ((s.liveNumbers.filter fun k => decide (seq < k)).map s.estimateAt).sum =
      laterBytes seq q := by
  have hmap : ((q.window.filter fun f => !f.retired).map fun f =>
      if seq < f.item.stored.seqNum then f.item.size else 0) =
      s.liveNumbers.map fun k => if seq < k then s.estimateAt k else 0 := by
    refine h.tracks.held.live_map fun i f hf => ?_
    have hitem : q.items[i]? = some f.item := by
      rw [Queue.items, List.getElem?_map, hf]
      rfl
    have hlt := (List.getElem?_eq_some_iff.1 hitem).1
    have hnum := h.tracks.refines.slots.seqs _ _ hitem
    rw [h.tracks.items] at hlt
    rw [Nat.mod_eq_of_lt (by omega)] at hnum
    rw [hnum, h.estimateAt_frame hsizes hf]
  rw [Slice.sum_map_filter, ← hmap, sum_live]
  unfold laterBytes
  congr 2
  funext f
  unfold laterSize heldSize
  split_ifs <;> rfl

end BufferState

namespace SystemState

variable {s s' s₀ : SystemState} {a : SystemAct} {i j : Nat} {q q' : Nat → Queue Admission}
variable {tr : List SystemStep}

/-! ## Sizes -/

/-- No sum reaches `2 ^ 63`: not the estimate of a message, not the sizes that are held or asked
for, not what was admitted since the last request, not the escapes that the budget counts, and
not the references to a group. -/
def Summed (s : SystemState) : SystemAct → Prop
  | .newAckBuffer _ => s.holders + 1 < 2 ^ 63
  | .tryAdd j => (s.addAt j).message.weight < 2 ^ 63 ∧
      s.bytes + s.asked j + (s.addAt j).size < 2 ^ 63 ∧
      (s.bufferAt (s.addAt j).buffer).buf.bytesSinceFlag + (s.addAt j).size < 2 ^ 63 ∧
      s.bb.escape + (s.addAt j).size < 2 ^ 63 ∧ s.holders + 1 < 2 ^ 63
  | _ => True

instance (s : SystemState) (a : SystemAct) : Decidable (s.Summed a) :=
  match a with
  | .newAckBuffer _ => Nat.decLt _ _
  | .tryAdd j => inferInstanceAs (Decidable ((s.addAt j).message.weight < 2 ^ 63 ∧
      s.bytes + s.asked j + (s.addAt j).size < 2 ^ 63 ∧
      (s.bufferAt (s.addAt j).buffer).buf.bytesSinceFlag + (s.addAt j).size < 2 ^ 63 ∧
      s.bb.escape + (s.addAt j).size < 2 ^ 63 ∧ s.holders + 1 < 2 ^ 63))
  | .call .. | .callAdd .. | .wakeAdd _ | .timeout _ | .cancel _ | .callDrain _
  | .drain .. | .wakeDrain .. => isTrue trivial

/-- An add that is accounted for asks for the overhead of a message at least. -/
theorem Buffered.overhead_le (hb : Buffered s q) (hj : j < s.adds)
    (hacc : (s.bufferAt (s.addAt j).buffer).buf.accounting = true)
    (hweight : (s.addAt j).message.weight < 2 ^ 63) :
    messageOverheadBytes ≤ (s.addAt j).size := by
  have hsize := (hb.adds j hj).2
  unfold addSize at hsize
  rw [hacc, if_pos rfl, estimateMessageSize_eq (by omega)] at hsize
  unfold DataMessage.weight at hsize
  omega

theorem Moved.tryAdd_lt (h : Moved s (.tryAdd j) s') : j < s.adds := by
  cases h with
  | tryAdd _ hj _ => exact hj

theorem Summed.fits (h : s.Summed a) (hb : Buffered s q) (hmove : Moved s a s') : s.Fits a := by
  cases a with
  | newAckBuffer o =>
    have hcount : s.holders + 1 < 2 ^ 63 := h
    show s.holders + 1 < 2 ^ 64
    omega
  | tryAdd j =>
    rcases h with ⟨hweight, hsum, -, -, hcount⟩
    have hj := hmove.tryAdd_lt
    refine ⟨by omega, fun hshared => ?_, by omega⟩
    have hacc := (hb.metered _ (hb.adds j hj).1).wired.metered hshared
    exact lt_of_lt_of_le (by decide) (hb.overhead_le hj hacc hweight)
  | _ => trivial

/-- The messages that were admitted and accounted for take the overhead of a message at least. -/
def Sized (s : SystemState) : Prop :=
  ∀ i, i < s.buffers → (s.bufferAt i).buf.accounting = true →
    ∀ adm ∈ (s.bufferAt i).log, messageOverheadBytes ≤ adm.size

theorem Sized.coarse (h : s.Sized) (hb : Buffered s q) (hi : i < s.buffers)
    (hshared : (s.bufferAt i).buf.shared = true) :
    Coarse messageOverheadBytes (q i) := by
  have hm := hb.metered i hi
  intro f hf _
  refine h i hi (hm.wired.metered hshared) f.item ?_
  rw [← hm.tracks.items]
  exact List.mem_map_of_mem (List.mem_append_right _ hf)

theorem Sized.step (h : s.Sized) (hb : Buffered s q) (hchange : Change s q a s' q')
    (hsums : s.Summed a) : s'.Sized := by
  intro i hi hacc adm hadm
  rcases hchange.log_cases hi hadm with ⟨hlt, hold⟩ | ⟨j, rfl, hj, rfl, hsize, -⟩
  · have hconfig := congrArg (fun v => v.1) (hchange.config hlt)
    exact h i hlt (hconfig.symm.trans hacc) adm hold
  · have hconfig := congrArg (fun v => v.1) (hchange.config (hb.adds j hj).1)
    rw [hsize]
    exact hb.overhead_le hj (hconfig.symm.trans hacc) hsums.1

/-! ## A budget that admits escapes only -/

/-- A fair budget that is smaller than a message. -/
def Starved (s : SystemState) : Prop :=
  0 < s.bb.total → s.bb.total < messageOverheadBytes →
    Scarce messageOverheadBytes s.bb s.outstanding

theorem Fair.reserve_scarce (h : Fair False s) (hscarce : s.Starved) (hpos : 0 < s.bb.total)
    (hsmall : s.bb.total < messageOverheadBytes) (hb : Buffered s q)
    (hsums : s.Summed (.tryAdd j)) (hj : j < s.adds) {g : GroupId} (hmay : MayReserve s j g)
    (force : Bool) :
    let r := s.fairState.reserve (s.addAt j).size force (some g) (s.addAt j).waiter
    Scarce messageOverheadBytes r.bb r.out ∧
      ((s.bb.reserveFor (s.addAt j).size force (some g) (s.addAt j).waiter).2.ok = true →
        (s.bb.reserveFor (s.addAt j).size force (some g) (s.addAt j).waiter).2.overshot = true) := by
  have hwired := (hb.metered _ (hb.adds j hj).1).wired
  have hacc := hwired.metered (hwired.grouped (by rw [hmay.group]; exact Option.some_ne_none g))
  refine h.kept.solvent.reserve_scarce (hscarce hpos hsmall) force hmay.asks
    (hb.overhead_le hj hacc hsums.1) (fun v hv => ?_) hsums.2.2.2.1
  exact (h.waiters j v ((waiterOf_eq hj).trans hv)).1

theorem Starved.step (hscarce : s.Starved) (h : Fair False s) (hb : Buffered s q)
    (hchange : Change s q a s' q') (hfits : s.Fits a) (hsums : s.Summed a) (hsized : s.Sized) :
    s'.Starved := by
  have hacc := h.kept.solvent.accounts
  have htotal := (h.carried hb hchange hfits fun hno => hno.elim).frame.total
  unfold Starved
  rw [htotal]
  intro hpos hsmall
  have hnow := hscarce hpos hsmall
  refine h.keeps hb hchange hfits (fun i hi hshared => hsized.coarse hb hi hshared) hnow ?_ ?_ ?_
    ?_ ?_
  · exact fun key => register_scarce hacc.fair hnow key
  · rintro j g rfl hj hmay force x rfl
    exact (h.reserve_scarce hscarce hpos hsmall hb hsums hj hmay force).1
  · exact fun w hw => cancel_scarce hacc hnow hw
  · intro bb held n x g hbooks hg hn hx hwhole hold
    exact releaseFor_scarce hbooks hold hg hn hx hwhole
  · exact fun bb g hold => unregister_scarce hold g

/-! ## Runs -/

/-- What a run within the sums keeps. -/
structure Covering (s : SystemState) (q : Nat → Queue Admission) : Prop where
  buffered : Buffered s q
  agrees : Agrees s q
  sized : s.Sized
  starved : s.bb.fair = true → s.Starved
  covered : ∀ i, i < s.buffers → pressureStepDivisor ≤ (s.bufferAt i).buf.maxBytes →
    (s.bufferAt i).log.length < 2 ^ 64 - 1 → Covered (s.bufferAt i).buf (q i)

/-- An add that is no escape finds a budget of sixteen bytes or more, or without a limit. -/
theorem Covering.stepped (h : Covering s q) (hsums : s.Summed (.tryAdd j))
    (hfits : s.Fits (.tryAdd j)) (hj : j < s.adds)
    (hrun : (s.bufferAt (s.addAt j).buffer).buf.isRunning = true) :
    (s.bufferAt (s.addAt j).buffer).buf.Stepped s.bb (s.addAt j).size (s.addAt j).waiter := by
  intro hshared hok hno
  have hb := h.buffered
  have hacc := (hb.metered _ (hb.adds j hj).1).wired.metered hshared
  have hsize := hb.overhead_le hj hacc hsums.1
  have hover : pressureStepDivisor ≤ messageOverheadBytes := by decide
  cases h.agrees with
  | legacy total hlegacy _ =>
    -- the message fits the total, and is longer than sixteen bytes
    have hres := hlegacy.reserve (hb.room hj hfits.within).1
      (!(s.bufferAt (s.addAt j).buffer).buf.heldFlagged)
      (s.bufferAt (s.addAt j).buffer).buf.group (s.addAt j).waiter
    rw [hres.counter.total]
    have hle := hres.fits hok hno
    omega
  | fair hfair =>
    rcases hfair.mayReserve hb hfits hj hrun hshared with ⟨g, hmay⟩
    have hstarved := h.starved hfair.kept.solvent.accounts.fair
    have htotal := (hmay.kept hfair (!(s.bufferAt (s.addAt j).buffer).buf.heldFlagged)).2.total
    have hescapes := fun hpos hsmall => (hfair.reserve_scarce hstarved hpos hsmall hb hsums hj hmay
      (!(s.bufferAt (s.addAt j).buffer).buf.heldFlagged)).2
    rw [← hmay.group] at htotal hescapes
    rw [show (ByteBudget.reserveFor _ _ _ _ _).1.total = s.bb.total from htotal]
    -- what a total of fewer than sixteen bytes admits is an escape
    by_contra hsmall
    rw [not_or] at hsmall
    have hyes := hescapes (by omega) (by omega) hok
    exact Bool.false_ne_true (hno.symm.trans hyes)

/-- The message an admission stored. -/
theorem Moved.stored (hmove : Moved s (.tryAdd j) s') {adm : Admission} {buf : AckBuffer}
    (hrun : (s.bufferAt (s.addAt j).buffer).buf.isRunning = true)
    (hat : s'.bufferAt = update s.bufferAt (s.addAt j).buffer
      { s.bufferAt (s.addAt j).buffer with
        buf := buf
        log := (s.bufferAt (s.addAt j).buffer).log ++ [adm] }) :
    ((s.bufferAt (s.addAt j).buffer).buf.tryAddWithReceiptLocked s.bb (s.addAt j).message
      (s.addAt j).size (s.addAt j).waiter (s.addAt j).receipt
      (s.addAt j).maxTransmissions.toNat).stored = some adm.stored := by
  cases hmove with
  | tryAdd _ hj hphase =>
    have happly := congrFun hat (s.addAt j).buffer
    simp only [apply, setAdd, update_self] at happly
    exact BufferState.stored_of_apply hrun (Prod.ext happly rfl)

/-- An admission by a buffer under pressure. -/
theorem Covering.admission (h : Covering s q) (hsums : s.Summed (.tryAdd j))
    (hfits : s.Fits (.tryAdd j)) (hj : j < s.adds) (hmove : Moved s (.tryAdd j) s')
    {adm : Admission} {log : List Admission}
    (hrun : (s.bufferAt (s.addAt j).buffer).buf.isRunning = true)
    (hseq : adm.stored.seqNum = (s.bufferAt (s.addAt j).buffer).buf.nextSeqNum)
    (hsize : adm.size = (s.addAt j).size)
    (hlog : log = (s.bufferAt (s.addAt j).buffer).log ++ [adm])
    (hat : s'.bufferAt = update s.bufferAt (s.addAt j).buffer
      { s.bufferAt (s.addAt j).buffer with
        buf := (s.bufferAt (s.addAt j).buffer).buf.admitLocked adm.stored adm.size adm.overshot
          adm.receipt adm.maxTransmissions
        log := log })
    (hM : pressureStepDivisor ≤ (s.bufferAt (s.addAt j).buffer).buf.maxBytes)
    (hlen : log.length < 2 ^ 64 - 1) :
    Covered ((s.bufferAt (s.addAt j).buffer).buf.admitLocked adm.stored adm.size
        adm.overshot adm.receipt adm.maxTransmissions)
      ((q (s.addAt j).buffer).push { item := adm, limit := adm.limit }) := by
  subst hlog
  rw [List.length_append, List.length_singleton] at hlen
  have hi := (h.buffered.adds j hj).1
  have hm := h.buffered.metered _ hi
  have hold := h.covered _ hi hM (by omega)
  have hbytes := (hm.bytes_open hrun).2
  have hle := bytes_le hi
  rcases hsums with ⟨hweight, hsum, hsince, hescape, hcount⟩
  refine hold.admission hm.tracks.refines.slots ?_ hseq hM (by omega) fun hno hhalf => ?_
  · rw [hm.tracks.items]
    omega
  · rw [hsize]
    refine tryAdd_pressure hold.accounting hM (by omega) hsince (by omega)
      (h.stepped ⟨hweight, hsum, hsince, hescape, hcount⟩ hfits hj hrun) (hmove.stored hrun hat) hno

theorem newAckBuffer_covered {o : AckBufferOptions} {bb : ByteBudget} {b : AckBuffer}
    (h : (newAckBuffer o bb).2 = .ok b) (hM : pressureStepDivisor ≤ b.maxBytes) :
    Covered b {} := by
  rcases newAckBuffer_eq h with ⟨group, rfl⟩
  refine ⟨?_, fun hne => absurd rfl hne, fun hne => absurd rfl hne⟩
  have hpos : o.maxBytes ≠ 0 := (lt_of_lt_of_le (by decide) hM).ne'
  show (decide (o.maxBytes ≠ 0) || _) = true
  rw [decide_eq_true hpos, Bool.true_or]

/-- Every buffer stays covered. -/
theorem Covering.covered_step (h : Covering s q) (hmove : Moved s a s')
    (hchange : Change s q a s' q') (hfits : s.Fits a) (hsums : s.Summed a) (hi : i < s'.buffers)
    (hM : pressureStepDivisor ≤ (s'.bufferAt i).buf.maxBytes)
    (hlen : (s'.bufferAt i).log.length < 2 ^ 64 - 1) :
    Covered (s'.bufferAt i).buf (q' i) := by
  have hmax : i < s.buffers → pressureStepDivisor ≤ (s.bufferAt i).buf.maxBytes := by
    intro hlt
    have hsame : (s'.bufferAt i).buf.maxBytes = (s.bufferAt i).buf.maxBytes :=
      congrArg (fun v => v.2.1) (hchange.config hlt)
    rw [← hsame]
    exact hM
  cases hchange with
  | same _ hat hn | cancel _ _ _ _ hat hn =>
    rw [hat] at hlen ⊢
    exact h.covered i (hn ▸ hi) (hmax (hn ▸ hi)) hlen
  | fresh o b _ hnew hat hn _ =>
    -- a new buffer has asked for nothing
    rcases Nat.lt_succ_iff_lt_or_eq.1 (hn ▸ hi) with hlt | rfl
    · rw [hat, update_of_ne hlt.ne] at hlen ⊢
      rw [update_of_ne hlt.ne]
      exact h.covered i hlt (hmax hlt) hlen
    · rw [hat, update_self] at hM ⊢
      rw [update_self]
      exact newAckBuffer_covered (congrArg Prod.snd hnew) hM
  | deal k b qi hk hdeals hlog hat hn _ =>
    have hlt : i < s.buffers := hn ▸ hi
    rw [hat] at hlen ⊢
    rcases eq_or_ne i k with rfl | hik
    · rw [update_self] at hlen ⊢
      rw [update_self]
      rw [hlog] at hlen
      exact hdeals.keep (fun c => Covered c.1 c.2.2) (fun _ _ => Deal.covered)
        (h.covered i hlt (hmax hlt) hlen)
    · rw [update_of_ne hik] at hlen ⊢
      rw [update_of_ne hik]
      exact h.covered i hlt (hmax hlt) hlen
  | refuse j b w hj _ hbuf _ _ hat hn _ =>
    subst hbuf
    have hlt : i < s.buffers := hn ▸ hi
    rw [hat] at hlen ⊢
    rcases eq_or_ne i (s.addAt j).buffer with rfl | hik
    · rw [update_self] at hlen ⊢
      exact (h.covered _ hlt (hmax hlt) hlen).same rfl rfl rfl rfl
    · rw [update_of_ne hik] at hlen ⊢
      exact h.covered i hlt (hmax hlt) hlen
  | admission j b adm hj ha hbuf hrun _ _ _ hseq hsize _ _ hat hn _ =>
    subst ha hbuf
    have hlt : i < s.buffers := hn ▸ hi
    rcases eq_or_ne i (s.addAt j).buffer with rfl | hik
    · rw [hat, update_self] at hlen ⊢
      rw [update_self]
      exact h.admission hsums hfits hj hmove hrun hseq hsize rfl hat (hmax hlt) hlen
    · rw [hat, update_of_ne hik] at hlen ⊢
      rw [update_of_ne hik]
      exact h.covered i hlt (hmax hlt) hlen

theorem Covering.step (h : Covering s q) (hmove : Moved s a s') (hsums : s.Summed a) :
    ∃ q', Covering s' q' := by
  have hfits := hsums.fits h.buffered hmove
  rcases h.buffered.step hmove hfits.within with ⟨q', hb', hchange⟩
  refine ⟨q', hb', agrees_step h.buffered h.agrees hmove hchange hfits,
    h.sized.step h.buffered hchange hsums, fun hfair' => ?_, fun i hi hM hlen =>
      h.covered_step hmove hchange hfits hsums hi hM hlen⟩
  cases h.agrees with
  | legacy total hlegacy _ =>
    have hlegacy' := h.buffered.counter_step hlegacy hfits.within hchange
    exact absurd (hlegacy'.fair.symm.trans hfair') Bool.false_ne_true
  | fair hfair =>
    exact (h.starved hfair.kept.solvent.accounts.fair).step hfair h.buffered hchange hfits hsums
      h.sized

theorem covering_of_new (h : NewSystem s) : Covering s fun _ => {} := by
  refine ⟨buffered_of_new h _, agrees_of_new h, fun i hi => ?_, fun hfair hpos hsmall => ?_,
    fun i hi => ?_⟩
  · rw [h.buffers] at hi
    omega
  · rcases h.budget with ⟨total, hbb⟩ | ⟨total, o, hbb⟩
    · rw [hbb] at hfair
      cases hfair
    · rcases FairState.newFairByteBudget_eq hbb with ⟨reserve, minGroup, heq, -⟩
      rw [outstanding_of_new h]
      refine ⟨hpos, hsmall, by decide, ?_, Nat.zero_le _, Or.inl ?_⟩
      · rw [heq]
        exact Nat.two_pow_pos 63
      · rw [heq]
        rfl
  · rw [h.buffers] at hi
    omega

theorem covering_of_run (hnew : NewSystem s₀) (hrun : Machine.Run systemMachine s₀ tr s)
    (hsums : ∀ t ∈ tr, t.pre.Summed t.act) : ∃ q, Covering s q := by
  refine hrun.invariant_of Summed (fun s => ∃ q, Covering s q) ⟨_, covering_of_new hnew⟩ ?_ hsums
  rintro s a hguard hsum ⟨q, hq⟩
  exact hq.step (moved_of_guard hguard) hsum

end SystemState

/-- **Requests under pressure cover almost everything.** In every run of any number of buffers,
with or without a shared budget, in which no sum reaches `2 ^ 63`: when a buffer with a limit of
sixteen bytes or more refuses a message of at most half that limit because of it, the live
messages after the last request are less than a sixteenth of the limit. The acknowledgement of
that request, accepted once its frame was delivered, leaves no more. -/
theorem requests_cover {s₀ s : SystemState} {tr : List SystemStep} (hnew : NewSystem s₀)
    (hrun : Machine.Run systemMachine s₀ tr s) (hsums : ∀ t ∈ tr, t.pre.Summed t.act) {i M m : Nat}
    (hi : i < s.buffers) (hmax : (s.bufferAt i).buf.maxBytes = M) (hM : 16 ≤ M)
    (hlen : (s.bufferAt i).log.length < 2 ^ 64 - 1) (e : DataMessage) (waiter : Option WaiterId)
    (receipt : Option ReceiptId) (hsize : 2 * (s.bufferAt i).buf.addSize e ≤ M)
    (hroom : (s.bufferAt i).buf.isAvailable = true)
    (hexceeds : (s.bufferAt i).buf.exceeds ((s.bufferAt i).buf.addSize e) = true)
    (hrefused : ((s.bufferAt i).buf.tryAddWithReceiptLocked s.bb e
      ((s.bufferAt i).buf.addSize e) waiter receipt m).ok = false) :
    let b := (s.bufferAt i).buf
    (((s.bufferAt i).liveNumbers.filter fun k => decide (b.lastFlaggedSeq < k)).map
        (s.bufferAt i).estimateAt).sum < M / 16 ∧
      ((b.ack s.bb b.lastFlaggedSeq).2.2 = none → (b.ack s.bb b.lastFlaggedSeq).1.bytes < M / 16) ∧
      (sub64 b.lastFlaggedSeq b.firstSeqNum < b.nextIndexToDeliver →
        (b.ack s.bb b.lastFlaggedSeq).2.2 = none) := by
  intro b
  subst hmax
  rcases SystemState.covering_of_run hnew hrun hsums with ⟨q, hq⟩
  have hmetered := hq.buffered.metered i hi
  have hheld : b.heldFlagged = true :=
    refused_heldFlagged e _ waiter receipt m hroom hrefused
  have hlater := (hq.covered i hi hM hlen).refused hmetered.meter hexceeds hheld hsize
  refine ⟨?_, fun hok => (hmetered.ack_request hlen hheld s.bb hok).trans_lt hlater,
    hmetered.request_accepted hlen hheld s.bb⟩
  rw [hmetered.later_live (hq.buffered.sizes i hi) (by omega)]
  exact hlater

/-- A message of `n` bytes of text. -/
def textMessage (n : Nat) : DataMessage := { textPayload := List.replicate n 0 }

/-- A buffer of 4800 bytes ships two messages of 2100 and one of 256. The second is past half of
the limit, so that an acknowledgement is requested; the third is less than a sixteenth. -/
def threeUnderPressure : List SystemAct :=
  [.newAckBuffer ⟨4800, false, ""⟩, .call 0 (.updateCapacity 8),
    .callAdd 0 (textMessage 1844) none 0, .tryAdd 0, .callAdd 0 (textMessage 1844) none 0,
    .tryAdd 1, .callAdd 0 {} none 0, .tryAdd 2, .call 0 .getNextToDeliver,
    .call 0 .getNextToDeliver]

theorem third_after_request :
    let s := systemMachine.exec { bb := newByteBudget 0 } threeUnderPressure
    (s.bufferAt 0).buf.lastFlaggedSeq = 2 ∧ (s.bufferAt 0).buf.bytes = 4456 ∧
      ((s.bufferAt 0).buf.ack s.bb (s.bufferAt 0).buf.lastFlaggedSeq).1.bytes < 4800 / 16 := by
  intro s
  have hrun : Machine.Run systemMachine { bb := newByteBudget 0 } _ s :=
    Machine.run_exec _ (by decide +kernel)
  have hrefused : ((s.bufferAt 0).buf.tryAddWithReceiptLocked s.bb (textMessage 100)
      ((s.bufferAt 0).buf.addSize (textMessage 100)) none none 0).ok = false := by decide +kernel
  have hcover := requests_cover ⟨.inl ⟨0, rfl⟩, rfl, rfl, rfl⟩ hrun (by decide +kernel)
    (by decide +kernel) (show (s.bufferAt 0).buf.maxBytes = 4800 by decide +kernel) (by decide)
    (by decide +kernel) (textMessage 100) none none (by decide +kernel) (by decide +kernel)
    (by decide +kernel) hrefused
  exact ⟨by decide +kernel, by decide +kernel, hcover.2.1 (hcover.2.2 (by decide +kernel))⟩

end UspClient
