import UspClient.System.Balance
import UspClient.Buffer.Escapes

/-!
# The escapes of a fair budget

A buffer that holds no flagged message may pass the limit with one, which a fair budget counts
as an escape. A buffer remembers one escape. Retiring a later flagged message makes the buffer
forget that it holds a flagged one, so it may escape a second time while the first escape is
held, and the budget then counts an escape that no buffer will ever return
(`second_escape_leaks`).

While no reset retires the message flagged last and keeps an escape, no add escapes a second time,
and the ledger of the escapes is exact (`escape_ledger`).
-/

namespace UspClient

open Function Word64 Replay ByteBudget AckBuffer BufferState

namespace BufferState

variable {s : BufferState} {q : Queue Admission}

/-- The held escapes are the live escapes of the window. -/
theorem Metered.heldEscapes (h : Metered s q)
    (hsizes : ∀ a ∈ s.log, a.size = s.buf.addSize a.given) :
    s.heldEscapes.map s.estimateAt =
      (q.window.filter liveEscape).map fun f => f.item.size := by
  have hpairs : ((q.window.filter fun f => !f.retired).map fun f => (f.item.overshot, f.item.size)) =
      s.liveNumbers.map fun k => (s.escapedAt k, s.estimateAt k) := by
    refine h.tracks.held.live_map fun i f hf => ?_
    have hlog : s.log[i]? = some f.item := by
      rw [← h.tracks.items, Queue.items, List.getElem?_map, hf]
      rfl
    show (f.item.overshot, f.item.size) = ((s.log[i]?.map Admission.overshot).getD false,
      (s.log[i]?.map fun a => s.buf.addSize a.given).getD 0)
    rw [hlog, hsizes _ (List.mem_of_getElem? hlog)]
    rfl
  unfold BufferState.heldEscapes
  rw [Slice.map_filter_pair, ← hpairs, ← Slice.map_filter_pair, List.filter_filter]
  congr 2
  funext f
  exact Bool.and_comm _ _

end BufferState

namespace SystemState

variable {s s' s₀ : SystemState} {a : SystemAct} {i j total : Nat} {q q' : Nat → Queue Admission}
variable {tr : List SystemStep}

/-- No reset retires the message its buffer flagged last and keeps an escape. -/
def KeepsFlags (s : SystemState) : SystemAct → Prop
  | .call i op => (s.bufferAt i).KeepsFlag op
  | _ => True

instance (s : SystemState) (a : SystemAct) : Decidable (s.KeepsFlags a) :=
  match a with
  | .call i op => inferInstanceAs (Decidable ((s.bufferAt i).KeepsFlag op))
  | .newAckBuffer _ | .callAdd .. | .tryAdd _ | .wakeAdd _ | .timeout _ | .cancel _ | .callDrain _
  | .drain .. | .wakeDrain .. => isTrue trivial

/-- Every buffer has a past of its own. -/
theorem Moved.chronicle (h : Moved s a s')
    (hpast : ∀ i, i < s.buffers → ∃ tr q, Chronicle tr (s.bufferAt i) q)
    (hi : i < s'.buffers) : ∃ tr q, Chronicle tr (s'.bufferAt i) q := by
  have hcall : ∀ k op, i < s.buffers → ∃ tr q, Chronicle tr
      (update s.bufferAt k ((s.bufferAt k).apply s.bb op).1 i) q := by
    intro k op hlt
    obtain ⟨tr, q, hc⟩ := hpast i hlt
    rcases eq_or_ne i k with rfl | hik
    · rw [update_self]
      obtain ⟨q', -, hc'⟩ := hc.step ⟨s.bb, op⟩
      exact ⟨_, q', hc'⟩
    · rw [update_of_ne hik]
      exact ⟨tr, q, hc⟩
  cases h with
  | newAckBuffer o bb b hnew =>
    show ∃ tr q, Chronicle tr (update s.bufferAt s.buffers _ i) q
    rcases Nat.lt_succ_iff_lt_or_eq.1 hi with hlt | rfl
    · rw [update_of_ne hlt.ne]
      exact hpast i hlt
    · rw [update_self]
      exact ⟨[], {}, FreshBuffer.chronicle ⟨⟨o, s.bb, congrArg Prod.snd hnew⟩, rfl, rfl⟩⟩
  | call k op _ _ => exact hcall k op hi
  | tryAdd | drain => exact hcall _ _ hi
  | _ => exact hpast i hi

/-- Every buffer flagged its escape, or a later message. -/
def AllWatched (s : SystemState) : Prop := ∀ i, i < s.buffers → (s.bufferAt i).Watched

theorem AllWatched.step (h : s.AllWatched) (hb : Buffered s q) (hb' : Buffered s' q')
    (hnum : s.Numbered) (hkeeps : s.KeepsFlags a) (hmove : Moved s a s')
    (hchange : Change s q a s' q') : s'.AllWatched := by
  intro i hi
  refine ⟨hmove.chronicle (fun i hi => (h i hi).past) hi, ?_⟩
  have hm' := hb'.metered i hi
  have hat := hchange.at hi
  generalize s'.bufferAt i = b, q' i = qi at hat hm' ⊢
  cases hat with
  | fresh o bb b _ hnew => exact fun hne => absurd (newAckBuffer_cases hnew).1.2.1 hne
  | deal _ bb _ hlt hdeals hlog hcall =>
    refine (h i hlt).deal (hb.metered i hlt) hm' (hnum i hlt) hlog hdeals (hcall.imp id ?_)
    rintro ⟨op, heq, hop⟩
    refine ⟨op, heq, ?_⟩
    cases op with
    | resetDelivery =>
      rw [hop rfl] at hkeeps
      exact hkeeps
    | _ => trivial
  | admission j adm hlt _ _ _ _ _ hflag hseq _ _ _ =>
    -- the new message has the largest number, and is flagged if it escapes
    obtain ⟨-, hescape, hbytes, hlast⟩ := admitLocked_counters
      (b := (s.bufferAt i).buf) adm.stored adm.size adm.overshot adm.receipt adm.maxTransmissions
    have hm := hb.metered i hlt
    have hlen := hnum i hlt
    have hrange := (hm.flags (by omega)).range
    have hnext := hm.tracks.refines.slots.nextSeq
    rw [hm.tracks.items] at hrange hnext
    rw [Nat.mod_eq_of_lt (by omega)] at hnext
    simp only [hescape, hbytes, hlast, hseq]
    intro hne
    rcases Bool.eq_false_or_eq_true (adm.overshot && (s.bufferAt i).buf.group.isSome) with hyes | hno
    · rw [if_pos hyes, if_pos (hflag (Bool.and_eq_true_iff.1 hyes).1)]
    · rw [hno, if_neg Bool.false_ne_true] at hne ⊢
      have hle := (h i hlt).flag hne
      split_ifs
      · omega
      · exact hle

/-- A buffer of a group remembers the escape it holds, and no other buffer has one. -/
structure Remembers (b : AckBuffer) (q : Queue Admission) : Prop where
  noted : b.group ≠ none → Noted b q
  none : b.group = none → b.escapeBytes = 0

/-- Every buffer remembers the escape it holds. -/
def AllNoted (s : SystemState) (q : Nat → Queue Admission) : Prop :=
  ∀ i, i < s.buffers → Remembers (s.bufferAt i).buf (q i)

/-- An add that escapes finds no escape in its buffer. -/
theorem Buffered.singleEscape (hb : Buffered s q) (hwatch : s.AllWatched) (hnum : s.Numbered)
    (hmove : Moved s a s') : s.SingleEscape a := by
  cases hmove with
  | tryAdd j hj _ =>
    intro hover
    have hi := (hb.adds j hj).1
    obtain ⟨b, bb, w, out, escaped, -, -, -, hesc, hadd⟩ := added
      (s.bufferAt (s.addAt j).buffer) s.bb (s.addAt j).message (s.addAt j).size (s.addAt j).waiter
      (s.addAt j).receipt (s.addAt j).maxTransmissions
    rw [show (s.round (s.addAt j)).1.overshot = escaped from hesc] at hover
    cases hadd with
    | closed | refused => cases hover
    | admitted bb' adm _ _ hwhy _ _ _ _ =>
      by_contra hne
      have hheld := ((hwatch _ hi).last_live (hb.metered _ hi) (hnum _ hi) hne).1
      exact Bool.false_ne_true ((hwhy.not_heldFlagged hover).symm.trans hheld)
  | _ => trivial

theorem Remembers.deals {b b' : AckBuffer} {bb bb' : ByteBudget} {qi qi' : Queue Admission}
    (h : Remembers b qi) (hm : Meter b qi)
    (hdeals : Deals (b, bb, qi) (b', bb', qi')) : Remembers b' qi' := by
  have hgroup : b'.group = b.group := congrArg (fun v => v.2.2.2) hdeals.config
  refine ⟨fun hsome => ?_, fun hnone => ?_⟩
  · rw [hgroup] at hsome
    exact hdeals.noted (h.noted hsome)
  · rw [hgroup] at hnone
    refine hdeals.pays hm (fun _ _ e _ => e = 0) ?_ (fun _ _ => rfl) (h.none hnone)
    intro _ _ e _ _ x he _ _ _ _
    rw [he, Nat.zero_sub]

theorem AllNoted.step (h : s.AllNoted q) (hb : Buffered s q) (hfits : s.Fits a)
    (hone : s.SingleEscape a) (hchange : Change s q a s' q') : s'.AllNoted q' := by
  intro i hi
  have hat := hchange.at hi
  generalize s'.bufferAt i = b, q' i = qi at hat ⊢
  cases hat with
  | fresh o bb b _ hnew =>
    exact ⟨fun _ _ k f hf => absurd hf (by simp), fun _ => (newAckBuffer_cases hnew).1.2.1⟩
  | deal _ _ _ hlt hdeals _ _ => exact (h i hlt).deals (hb.metered i hlt).meter hdeals
  | admission j adm hlt hj ha hbuf _ _ _ hseq hsize _ hround =>
    subst ha hbuf
    have hold := h _ hlt
    have hview : ((s.bufferAt (s.addAt j).buffer).buf.admitLocked adm.stored adm.size adm.overshot
        adm.receipt adm.maxTransmissions).group = (s.bufferAt (s.addAt j).buffer).buf.group :=
      admitLocked_view.1
    refine ⟨fun hgroup => ?_, fun hgroup => ?_⟩
    · rw [hview] at hgroup
      refine (hold.noted hgroup).admitLocked hgroup hseq ?_ fun hover => hone (hround.trans hover)
      rw [hsize]
      exact hfits.2.1 ((hb.metered _ hlt).wired.grouped hgroup)
    · rw [hview] at hgroup
      have hcount := (admitLocked_counters (b := (s.bufferAt (s.addAt j).buffer).buf)
        adm.stored adm.size adm.overshot adm.receipt adm.maxTransmissions).2.2.1
      rw [hgroup, Option.isSome_none, Bool.and_false, if_neg Bool.false_ne_true] at hcount
      exact hcount.trans (hold.none hgroup)

theorem escaping_of_run {o : FairByteBudgetOptions} (hnew : NewSystem s₀)
    (hbb : newFairByteBudget total o = some s₀.bb) (hrun : Machine.Run systemMachine s₀ tr s)
    (hfits : ∀ t ∈ tr, t.pre.Fits t.act) (hkeeps : ∀ t ∈ tr, t.pre.KeepsFlags t.act) :
    ∃ q, Buffered s q ∧ (s.Numbered → Fair True s ∧ s.AllNoted q ∧ s.AllWatched) := by
  refine hrun.invariant_of (fun s a => s.Fits a ∧ s.KeepsFlags a)
    (fun s => ∃ q, Buffered s q ∧ (s.Numbered → Fair True s ∧ s.AllNoted q ∧ s.AllWatched)) ?_ ?_
    fun t ht => ⟨hfits t ht, hkeeps t ht⟩
  · have hnone : ∀ i, ¬ i < s₀.buffers := by
      rw [hnew.buffers]
      exact Nat.not_lt_zero
    exact ⟨fun _ => {}, buffered_of_new hnew _, fun _ => ⟨fair_of_new hnew hbb,
      fun i hi => absurd hi (hnone i), fun i hi => absurd hi (hnone i)⟩⟩
  · rintro s a hg ⟨hfit, hkeep⟩ ⟨q, hb, hinv⟩
    have hmove := moved_of_guard hg
    obtain ⟨q', hb', hchange⟩ := hb.step hmove hfit.within
    refine ⟨q', hb', fun hnum' => ?_⟩
    have hnum := hchange.numbered hnum'
    obtain ⟨hfair, hnoted, hwatch⟩ := hinv hnum
    have hsingle := hb.singleEscape hwatch hnum hmove
    exact ⟨hfair.step hb hmove hchange hfit fun _ => hsingle, hnoted.step hb hfit hsingle hchange,
      hwatch.step hb hb' hnum hkeep hmove hchange⟩

/-- The open buffers remember what the budget counts. -/
theorem Fair.sum_escapes {strict : Prop} (h : Fair strict s) (hb : Buffered s q)
    (hnoted : s.AllNoted q) :
    ∑ g ∈ Finset.range s.bb.nextGroup, byGroup escapeBytes s g =
      ∑ i ∈ Finset.range s.buffers with (s.bufferAt i).buf.isClosed = false,
        (s.bufferAt i).buf.escapeBytes := by
  rw [h.sum_byGroup hb, Finset.sum_filter]
  refine Finset.sum_congr rfl fun i hi => ?_
  have hlt := Finset.mem_range.1 hi
  have hm := hb.metered i hlt
  have hzero : (s.bufferAt i).buf.escapeBytes ≠ 0 →
      (s.bufferAt i).buf.shared = true ∧ (s.bufferAt i).buf.isClosed = false := by
    intro hne
    exact ⟨hm.wired.grouped fun hnone => hne ((hnoted i hlt).none hnone), (hm.meter.escape hne).1⟩
  rcases Nat.eq_zero_or_pos (s.bufferAt i).buf.escapeBytes with h0 | hpos
  · rw [h0, ite_self, ite_self]
  · obtain ⟨hsh, hopen⟩ := hzero hpos.ne'
    rw [if_pos hsh, if_pos hopen]

end SystemState

/-- **The escape ledger of a fair budget.** In every run of any number of buffers that share a
fair budget, in which no counter overflows, no buffer admits `2 ^ 64 - 1` messages and no reset
retires the message a buffer flagged last and keeps an escape: the budget counts the escapes the
open buffers remember, and so do its groups together; an open buffer remembers the size of its
live escapes, of which it holds one at most; and escapes are part of what is used. Once every
buffer is closed none is left. -/
theorem escape_ledger {s₀ s : SystemState} {tr : List SystemStep} {total : Nat}
    {o : FairByteBudgetOptions} (hnew : NewSystem s₀)
    (hbb : newFairByteBudget total o = some s₀.bb) (hrun : Machine.Run systemMachine s₀ tr s)
    (hfits : ∀ t ∈ tr, t.pre.Fits t.act) (hlen : s.Numbered)
    (hkeeps : ∀ t ∈ tr, t.pre.KeepsFlags t.act) :
    s.bb.escape = ∑ i ∈ Finset.range s.buffers with (s.bufferAt i).buf.isClosed = false,
        (s.bufferAt i).buf.escapeBytes ∧
      s.bb.escape = ∑ g ∈ Finset.range s.bb.nextGroup, (s.bb.groupAt g).escape ∧
      (∀ i, i < s.buffers → (s.bufferAt i).buf.isClosed = false →
        (s.bufferAt i).buf.shared = true → (s.bufferAt i).buf.escapeBytes =
          ((s.bufferAt i).heldEscapes.map (s.bufferAt i).estimateAt).sum ∧
        (s.bufferAt i).heldEscapes.length ≤ 1) ∧
      s.bb.escape ≤ s.bb.used ∧
      ((∀ i, i < s.buffers → (s.bufferAt i).buf.isClosed = true) → s.bb.escape = 0) := by
  obtain ⟨q, hb, hinv⟩ := SystemState.escaping_of_run hnew hbb hrun hfits hkeeps
  obtain ⟨hfair, hnoted, -⟩ := hinv hlen
  have hsound := hfair.kept.sound trivial
  have hsum : s.bb.escape = ∑ g ∈ Finset.range s.bb.nextGroup,
      SystemState.byGroup escapeBytes s g := hsound.escapes.escape
  have hgroups : ∀ g, (s.bb.groupAt g).escape = SystemState.byGroup escapeBytes s g :=
    hsound.escapes.group_escape
  -- summed over the groups or over the open buffers
  have hopen := hsum.trans (hfair.sum_escapes hb hnoted)
  refine ⟨hopen, ?_, fun i hi hi' hsh => ?_, hsound.escape_le, fun hall => ?_⟩
  · rw [hsum]
    exact Finset.sum_congr rfl fun g _ => (hgroups g).symm
  · obtain ⟨g, hg, -⟩ := hfair.groups i hi hsh
    have hm := hb.metered i hi
    have hsome : (s.bufferAt i).buf.group ≠ none := by
      rw [hg]
      exact Option.some_ne_none g
    obtain ⟨hbytes, hlen⟩ :=
      ((hnoted i hi).noted hsome).escapes hm.meter hm.tracks.refines.slots hi'
    have hmap := hm.heldEscapes (hb.sizes i hi)
    have hlength := congrArg List.length hmap
    rw [List.length_map, List.length_map] at hlength
    rw [hmap, hlength]
    exact ⟨hbytes.symm, hlen⟩
  · rw [hopen]
    refine Finset.sum_eq_zero fun i hi => ?_
    obtain ⟨hlt, hno⟩ := Finset.mem_filter.1 hi
    rw [hall i (Finset.mem_range.1 hlt)] at hno
    cases hno

/-- A message larger than the budget of `escapeStart`. -/
def largeMessage : DataMessage := { binaryPayload := List.replicate 800 0 }

/-- A fair budget of 1000 bytes, before any call. -/
def escapeStart : SystemState where
  bb := { newByteBudget 1000 with fair := true, reserve := 125, minGroup := 256 }

theorem escapeStart_budget : newFairByteBudget 1000 ⟨125, 256⟩ = some escapeStart.bb := rfl

theorem escapeStart_new : NewSystem escapeStart :=
  ⟨.inr ⟨1000, ⟨125, 256⟩, rfl⟩, rfl, rfl, rfl⟩

/-- A message that is larger than the budget escapes. -/
def oneEscapes : List SystemAct :=
  [.newAckBuffer ⟨0, true, "A"⟩, .call 0 (.updateCapacity 4), .callAdd 0 largeMessage none 0,
    .tryAdd 0]

/-- The escape stays counted while the connection is reset. -/
theorem one_escape_counted :
    let s := systemMachine.exec escapeStart
      (oneEscapes ++ [.call 0 .getNextToDeliver, .call 0 .resetDelivery])
    s.bb.escape = 1056 ∧ s.bb.escape = ∑ i ∈ Finset.range s.buffers with
      (s.bufferAt i).buf.isClosed = false, (s.bufferAt i).buf.escapeBytes := by
  intro s
  have hrun : Machine.Run systemMachine escapeStart _ s := Machine.run_exec _ (by decide +kernel)
  exact ⟨by decide +kernel, (escape_ledger escapeStart_new escapeStart_budget hrun
    (by decide +kernel) (show ∀ i, i < _ → _ by decide +kernel) (by decide +kernel)).1⟩

/-- An escape; a flagged message with one transmission, which a reset retires; a second escape
while the first is held; then everything is delivered and acknowledged, and the buffer closed. -/
def twoEscape : List SystemAct :=
  oneEscapes ++ [.cancel 0, .callAdd 0 {} (some 0) 1, .tryAdd 1, .cancel 1,
    .call 0 .getNextToDeliver, .call 0 .getNextToDeliver, .call 0 .resetDelivery,
    .callAdd 0 largeMessage none 0, .tryAdd 2, .cancel 2, .call 0 .getNextToDeliver,
    .call 0 .getNextToDeliver, .call 0 (.ack 3), .call 0 .close]

/-- The second escape overwrites the first, so the budget keeps counting an escape that no
buffer holds: nothing is used, every buffer is closed, and `used - escape` wraps. -/
theorem second_escape_leaks : ∃ tr s, Machine.Run systemMachine escapeStart tr s ∧
    (∀ t ∈ tr, t.pre.Fits t.act) ∧ (∀ i, i < s.buffers → (s.bufferAt i).buf.isClosed = true) ∧
    (∀ j, j < s.adds → (s.addAt j).phase = .returned) ∧ s.bb.used = 0 ∧ s.bb.escape = 1056 :=
  ⟨_, _, Machine.run_exec twoEscape (by decide +kernel), by decide +kernel, by decide +kernel,
    by decide +kernel, by decide +kernel, by decide +kernel⟩

end UspClient
