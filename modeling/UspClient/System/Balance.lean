import UspClient.System.Ledger
import UspClient.System.Legacy

/-!
# The ledger of a shared budget

The counters of the buffers and of the budget they share, ungrouped or fair, agree in every
state of every run in which nothing overflows:

* an open buffer counts the estimates of its live messages, a closed one counts nothing and
  takes nothing from the budget any more;
* the budget counts what its buffers count and what it credited to the waiters of their adds;
* a fair budget does so for each group, and knows its groups by key exactly while a buffer or
  a waiter refers to them.
-/

namespace UspClient

open Word64 Replay ByteBudget

namespace BufferState

variable {s : BufferState} {q : Queue Admission} {bb : ByteBudget}

/-- The estimate of the size of frame `k`, made when it was admitted. -/
def estimateAt (s : BufferState) : Nat → Nat
  | 0 => 0
  | k + 1 => (s.log[k]?.map fun a => s.buf.addSize a.given).getD 0

/-- A retired frame counts nothing. -/
theorem sum_live (l : List (Frame Admission)) (φ : Frame Admission → Nat) :
    ((l.filter fun f => !f.retired).map φ).sum =
      (l.map fun f => if f.retired then 0 else φ f).sum := by
  induction l with
  | nil => rfl
  | cons f l ih =>
    rw [List.map_cons, List.sum_cons, ← ih, List.filter_cons]
    cases hf : f.retired with
    | true => simp
    | false => simp

theorem Metered.estimateAt_frame (h : Metered s q)
    (hsizes : ∀ a ∈ s.log, a.size = s.buf.addSize a.given) {i : Nat} {f : Frame Admission}
    (hf : q.frames[i]? = some f) : s.estimateAt (i + 1) = f.item.size := by
  have hlog : s.log[i]? = some f.item := by
    rw [← h.tracks.items, Queue.items, List.getElem?_map, hf]
    rfl
  show (s.log[i]?.map fun a => s.buf.addSize a.given).getD 0 = f.item.size
  rw [hlog]
  exact (hsizes _ (List.mem_of_getElem? hlog)).symm

/-- An open buffer counts the estimates of its live messages. -/
theorem Metered.bytes_live (h : Metered s q)
    (hsizes : ∀ a ∈ s.log, a.size = s.buf.addSize a.given) (hopen : s.buf.isClosed = false) :
    s.buf.bytes = (s.liveNumbers.map s.estimateAt).sum := by
  have hlive : ((q.window.filter fun f => !f.retired).map fun f => f.item.size) =
      s.liveNumbers.map s.estimateAt :=
    h.tracks.held.live_map fun i f hf => (h.estimateAt_frame hsizes hf).symm
  rw [h.meter.bytes, hopen, if_neg Bool.false_ne_true, ← hlive, sum_live]
  rfl

/-- Whatever is called on a closed buffer, the budget stays as it is. -/
theorem Metered.closed_pays (h : Metered s q) (hclosed : s.buf.isClosed = true) (bb : ByteBudget)
    (op : BufferOp) : (s.apply bb op).2 = bb := by
  cases hop : op.adds with
  | true =>
    cases op with
    | add e size waiter receipt m =>
      obtain ⟨s', bb', w, out, escaped, happly, -, -, -, hadd⟩ := added s bb e size waiter receipt m
      have hstop := h.meter.stopped hclosed
      rw [happly]
      cases hadd with
      | closed _ => rfl
      | refused _ _ hrun | admitted _ _ hrun =>
        exact absurd (hstop.symm.trans hrun) Bool.false_ne_true
    | _ => cases hop
  | false =>
    obtain ⟨q', -, -, hdeals⟩ := h.deal bb hop
    obtain ⟨hbytes, hescape⟩ := h.meter.closed hclosed
    have hreg : s.buf.registered = false := by
      rw [h.wired.registered, hclosed, Bool.not_true, Bool.and_false]
    -- nothing is left to release, and the group was left
    have hpaid := hdeals.pays h.meter (fun x m e r => x = bb ∧ m = 0 ∧ e = 0 ∧ r = false) ?_ ?_
      ⟨rfl, hbytes, hescape, hreg⟩
    · exact hpaid.1
    · rintro x m e r n y ⟨rfl, rfl, rfl, rfl⟩ hn hy _ _
      obtain rfl := Nat.le_zero.1 hn
      refine ⟨?_, rfl, Nat.zero_sub y, rfl⟩
      unfold AckBuffer.releaseShared
      exact ite_self _
    · rintro x ⟨-, -, -, hno⟩
      cases hno

end BufferState

namespace AckBuffer

theorem Deal.closed {c c' : Account} (h : Deal c c') (hc : c.1.isClosed = true) :
    c'.1.isClosed = true := by
  cases h with
  | move hmove => exact (congrArg (fun v => v.2.1.1) (Move.settings hmove)).trans hc
  | sample b bb q => exact hc
  | stop b bb q => exact hc
  | resize b bb q n =>
    unfold updateCapacity
    split_ifs <;> exact hc
  | close b bb q => rfl

end AckBuffer

namespace SystemState

variable {s s' s₀ : SystemState} {a : SystemAct} {i j total : Nat} {q q' : Nat → Queue Admission}
variable {tr : List SystemStep} {g : GroupId}

/-- A closed buffer stays closed. -/
theorem Change.closed (h : Change s q a s' q') (hi : i < s.buffers)
    (hc : (s.bufferAt i).buf.isClosed = true) : (s'.bufferAt i).buf.isClosed = true := by
  have hat := h.at (hi.trans_le h.buffers_le)
  generalize s'.bufferAt i = b, q' i = qi at hat ⊢
  cases hat with
  | fresh _ _ _ hnew _ => exact absurd hnew hi.ne
  | deal _ _ _ _ hdeals _ _ =>
    exact hdeals.keep (fun x => x.1.isClosed = true) (fun _ _ hdeal hx => hdeal.closed hx) hc
  | admission j adm =>
    exact (congrArg (fun v => v.2.1.1) (AckBuffer.admitLocked_settings (b := (s.bufferAt i).buf)
      adm.stored adm.size adm.overshot adm.receipt adm.maxTransmissions)).trans hc

/-! ## An ungrouped budget -/

/-- What releases and reservations of an ungrouped budget keep, every step keeps. -/
theorem Buffered.legacy_keeps (hb : Buffered s q) {P : ByteBudget → Prop}
    (hfair : ∀ bb, P bb → bb.fair = false)
    (hrelease : ∀ bb n x og, P bb → P (bb.releaseFor n x og))
    (hreserve : ∀ bb n force og w, P bb → P (bb.reserveFor n force og w).1) (h : P s.bb)
    (hchange : Change s q a s' q') : P s'.bb := by
  -- an ungrouped budget has no queue to leave
  have hcancel : ∀ (b : AckBuffer) w, P (b.cancelShared s.bb w) := by
    intro b w
    unfold AckBuffer.cancelShared
    split_ifs
    · unfold ByteBudget.cancel
      rw [hfair _ h]
      cases w <;> exact h
    · exact h
  cases hchange with
  | same hbb _ _ _ => rwa [hbb]
  | fresh o b _ hnew _ _ _ =>
    rcases (newAckBuffer_cases hnew).2 with ⟨hbb, -⟩ | hreg
    · rwa [hbb]
    · -- nor groups to register
      unfold ByteBudget.register at hreg
      rw [hfair _ h] at hreg
      exact (Prod.mk.inj hreg).1 ▸ h
  | deal i b qi hi hdeals _ _ _ _ =>
    refine hdeals.pays (hb.metered i hi).meter (fun bb _ _ _ => P bb) ?_ ?_ h
    · intro bb m e r n x hL _ _ _ _
      unfold AckBuffer.releaseShared
      split_ifs
      · exact hrelease bb n x _ hL
      · exact hL
    · intro bb hL
      unfold ByteBudget.unregister unregisterLocked
      rw [hfair _ hL]
      cases (s.bufferAt i).buf.group <;> exact hL
  | refuse j b w _ _ _ _ hwhy _ _ _ =>
    rcases hwhy.cases with ⟨-, hbb⟩ | ⟨-, -, hbb, -⟩
    · rw [hbb]
      exact hcancel _ _
    · rw [hbb]
      exact hreserve _ _ _ _ _ h
  | admission j b adm _ _ _ _ _ hwhy _ _ _ _ _ _ _ _ =>
    rcases hwhy.cases with ⟨-, hbb⟩ | ⟨-, -, -, hbb, -⟩
    · rwa [hbb]
    · rw [hbb]
      exact hreserve _ _ _ _ _ h
  | cancel j _ _ hbb _ _ _ =>
    rw [hbb]
    exact hcancel _ _

/-- The waiters of an ungrouped budget hold no credit. -/
theorem Buffered.uncredited_step (hb : Buffered s q) (h : Uncredited s.bb)
    (hchange : Change s q a s' q') : Uncredited s'.bb :=
  hb.legacy_keeps (fun _ hu => hu.fair) (fun _ n x og hu => hu.release n x og)
    (fun _ n force og w hu => hu.reserve n force og w) h hchange

/-! ## Runs -/

/-- The budget agrees with its buffers, whichever kind it is. -/
inductive Agrees (s : SystemState) (q : Nat → Queue Admission) : Prop where
  | legacy (total : Nat) : Legacy s.bb total (weigh sharedBytes s q) → Uncredited s.bb → Agrees s q
  | fair : Fair False s → Agrees s q

theorem agrees_step (hb : Buffered s q) (h : Agrees s q) (hmove : Moved s a s')
    (hchange : Change s q a s' q') (hfits : s.Fits a) : Agrees s' q' := by
  cases h with
  | legacy total hcounter hcredit =>
    exact .legacy total (hb.counter_step hcounter hfits.within hchange)
      (hb.uncredited_step hcredit hchange)
  | fair hfair => exact .fair (hfair.step hb hmove hchange hfits fun hno => absurd hno not_false)

theorem outstanding_of_new (h : NewSystem s) : s.outstanding = ∅ := by
  unfold SystemState.outstanding waitersOf
  rw [h.adds]
  rfl

theorem fair_of_new {strict : Prop} {o : FairByteBudgetOptions} (h : NewSystem s)
    (hbb : newFairByteBudget total o = some s.bb) : Fair strict s := by
  have hzero : ∀ φ, byGroup φ s = fun _ => 0 := by
    intro φ
    funext g
    unfold byGroup weigh
    rw [h.buffers]
    rfl
  have hnone : ∀ j, s.waiterOf j = none := by
    intro j
    unfold waiterOf
    rw [h.adds]
    exact if_neg (Nat.not_lt_zero j)
  have hstate : s.fairState = { bb := s.bb } := by
    unfold fairState
    rw [hzero, hzero, outstanding_of_new h]
  refine ⟨?_, fun i hi => ?_, fun j v hv => ?_, fun j k v hv => ?_⟩
  · rw [hstate, hzero]
    exact FairState.kept_of_new hbb
  · rw [h.buffers] at hi
    omega
  · rw [hnone] at hv
    cases hv
  · rw [hnone] at hv
    cases hv

theorem agrees_of_new (h : NewSystem s) : Agrees s fun _ => {} := by
  rcases h.budget with ⟨total, hbb⟩ | ⟨total, o, hbb⟩
  · have hzero : weigh sharedBytes s (fun _ => {}) = 0 := by
      unfold weigh
      rw [h.buffers]
      rfl
    refine .legacy total ?_ ?_
    · rw [hzero, hbb]
      exact newByteBudget_legacy total
    · rw [hbb]
      exact newByteBudget_uncredited total
  · exact .fair (fair_of_new h hbb)

/-- The buffers that are closed in a state of the run are closed in the last one. -/
def ClosedFor (tr : List SystemStep) (s : SystemState) : Prop :=
  ∀ t ∈ tr, ∀ i, i < t.pre.buffers → (t.pre.bufferAt i).buf.isClosed = true →
    i < s.buffers ∧ (s.bufferAt i).buf.isClosed = true

theorem ClosedFor.step (h : ClosedFor tr s) (hchange : Change s q a s' q') :
    ClosedFor (tr ++ [⟨s, a, s'⟩]) s' := by
  intro t ht i hi hc
  have hboth : i < s.buffers ∧ (s.bufferAt i).buf.isClosed = true := by
    rcases List.mem_append.1 ht with hold | hlast
    · exact h t hold i hi hc
    · obtain rfl := List.mem_singleton.1 hlast
      exact ⟨hi, hc⟩
  exact ⟨hboth.1.trans_le hchange.buffers_le, hchange.closed hboth.1 hboth.2⟩

theorem agrees_of_run (hnew : NewSystem s₀) (hrun : Machine.Run systemMachine s₀ tr s)
    (hfits : ∀ t ∈ tr, t.pre.Fits t.act) : ∃ q, Buffered s q ∧ Agrees s q ∧ ClosedFor tr s := by
  refine hrun.history_of Fits (fun tr s => ∃ q, Buffered s q ∧ Agrees s q ∧ ClosedFor tr s) ?_ ?_
    hfits
  · exact ⟨fun _ => {}, buffered_of_new hnew _, agrees_of_new hnew,
      fun t ht => absurd ht List.not_mem_nil⟩
  · rintro tr s a hg hfit ⟨q, hb, hagree, hclosed⟩
    have hmove := moved_of_guard hg
    obtain ⟨q', hb', hchange⟩ := hb.step hmove hfit.within
    exact ⟨q', hb', agrees_step hb hagree hmove hchange hfit, hclosed.step hchange⟩

/-! ## The accounts -/

/-- What the counter of a buffer means. -/
structure Balanced (s : SystemState) (i : Nat) : Prop where
  /-- While it is open it counts the estimates of its live messages. -/
  opened : (s.bufferAt i).buf.isClosed = false →
    (s.bufferAt i).buf.bytes = ((s.bufferAt i).liveNumbers.map (s.bufferAt i).estimateAt).sum
  /-- Once it is closed it counts nothing, and no call returns bytes to the budget. -/
  closed : (s.bufferAt i).buf.isClosed = true → (s.bufferAt i).buf.bytes = 0 ∧
    ∀ op, ((s.bufferAt i).apply s.bb op).2 = s.bb

/-- What the counters of a group mean. -/
structure GroupBalanced (s : SystemState) (g : GroupId) : Prop where
  used : (s.bb.groupAt g).used =
    ∑ i ∈ Finset.range s.buffers with (s.bufferAt i).buf.group = some g, (s.bufferAt i).buf.bytes +
      ∑ w ∈ s.outstanding with (s.bb.waiterAt w).group = g, (s.bb.waiterAt w).credit
  pending : (s.bb.groupAt g).pending =
    (s.outstanding.filter fun w => (s.bb.waiterAt w).group = g).card
  refs : (s.bb.groupAt g).refs = ((Finset.range s.buffers).filter fun i =>
    (s.bufferAt i).buf.group = some g ∧ (s.bufferAt i).buf.isClosed = false).card +
      (s.bb.groupAt g).pending
  known : ∀ key, s.bb.groups key = some g ↔
    (s.bb.groupAt g).key = key ∧ (s.bb.groupAt g).refs ≠ 0

theorem Buffered.balanced (hb : Buffered s q) (hi : i < s.buffers) : s.Balanced i :=
  ⟨fun hopen => (hb.metered i hi).bytes_live (hb.sizes i hi) hopen,
    fun hclosed => ⟨((hb.metered i hi).meter.closed hclosed).1,
      (hb.metered i hi).closed_pays hclosed s.bb⟩⟩

theorem byGroup_eq (φ : AckBuffer → Nat) (s : SystemState) (g : GroupId) : byGroup φ s g =
    ∑ i ∈ Finset.range s.buffers with (s.bufferAt i).buf.group = some g, φ (s.bufferAt i).buf := by
  rw [Finset.sum_filter]
  rfl

/-- The open buffers of a group are those that are registered in it. -/
theorem Buffered.byGroup_opened (hb : Buffered s q) (g : GroupId) :
    byGroup opened s g = ((Finset.range s.buffers).filter fun i =>
      (s.bufferAt i).buf.group = some g ∧ (s.bufferAt i).buf.isClosed = false).card := by
  rw [byGroup_eq, ← Finset.filter_filter, Finset.card_filter]
  refine Finset.sum_congr rfl fun i hi => ?_
  obtain ⟨hlt, hg⟩ := Finset.mem_filter.1 hi
  have hreg := (hb.metered i (Finset.mem_range.1 hlt)).wired.registered
  rw [hg, Option.isSome_some, Bool.true_and] at hreg
  unfold opened
  rw [hreg]
  cases (s.bufferAt i).buf.isClosed <;> rfl

theorem Fair.groupBalanced {strict : Prop} (h : Fair strict s) (hb : Buffered s q) (g : GroupId) :
    s.GroupBalanced g := by
  have ht := h.kept.solvent.accounts.totals
  have hpend : (s.bb.groupAt g).pending = s.bb.pendings s.outstanding g :=
    TotalsOff.group_pending ht g
  have hrefs : (s.bb.groupAt g).refs = byGroup opened s g + s.bb.pendings s.outstanding g :=
    h.kept.registered.count g
  refine ⟨?_, hpend, ?_, fun key => ?_⟩
  · rw [← byGroup_eq]
    exact TotalsOff.group_used ht g
  · rw [hpend, hrefs, hb.byGroup_opened]
  · rw [hrefs]
    exact h.kept.registered.live key g

/-- The buffers that share a fair budget are those in its groups. -/
theorem Fair.sum_byGroup {strict : Prop} (h : Fair strict s) (hb : Buffered s q)
    (φ : AckBuffer → Nat) : ∑ g ∈ Finset.range s.bb.nextGroup, byGroup φ s g =
      ∑ i ∈ Finset.range s.buffers, if (s.bufferAt i).buf.shared then φ (s.bufferAt i).buf else 0 := by
  unfold byGroup weigh grouped
  rw [Finset.sum_comm]
  refine Finset.sum_congr rfl fun i hi => ?_
  have hlt := Finset.mem_range.1 hi
  cases hsh : (s.bufferAt i).buf.shared with
  | true =>
    obtain ⟨g, hg, hgl⟩ := h.groups i hlt hsh
    rw [hg]
    simp only [Option.some.injEq, if_true]
    rw [Finset.sum_ite_eq, if_pos (Finset.mem_range.2 hgl)]
  | false =>
    have hnone : (s.bufferAt i).buf.group = none := by
      by_contra hsome
      exact Bool.false_ne_true (hsh.symm.trans ((hb.metered i hlt).wired.grouped hsome))
    rw [hnone]
    simp

/-- The budget counts the bytes of its buffers and the credits of the waiters. -/
theorem Agrees.used (h : Agrees s q) (hb : Buffered s q) : s.bb.used =
    ∑ i ∈ Finset.range s.buffers,
        (if (s.bufferAt i).buf.shared then (s.bufferAt i).buf.bytes else 0) +
      ∑ w ∈ s.outstanding, (s.bb.waiterAt w).credit := by
  cases h with
  | legacy total hcounter hcredit =>
    rw [hcounter.used, Finset.sum_eq_zero fun w _ => hcredit.credit w]
    rfl
  | fair hfair =>
    have ha := hfair.kept.solvent.accounts
    have hused : s.bb.used = ∑ g ∈ Finset.range s.bb.nextGroup,
        s.bb.balance (byGroup AckBuffer.bytes s) s.outstanding g := TotalsOff.used ha.totals
    have hcredits : ∑ g ∈ Finset.range s.bb.nextGroup, s.bb.credits s.outstanding g =
        ∑ w ∈ s.outstanding, (s.bb.waiterAt w).credit := ha.queues.sum_credits
    rw [hused, ← hcredits, ← hfair.sum_byGroup hb]
    exact Finset.sum_add_distrib

theorem Fair.active {strict : Prop} (h : Fair strict s) : s.bb.active =
    ((Finset.range s.bb.nextGroup).filter fun g =>
      (s.bb.groupAt g).used ≠ 0 ∨ (s.bb.groupAt g).pending ≠ 0).card := by
  have ht := h.kept.solvent.accounts.totals
  rw [show s.bb.active = _ from ht.active_eq]
  unfold busy
  congr 1
  refine Finset.filter_congr fun g _ => ?_
  rw [← TotalsOff.group_used ht g, ← TotalsOff.group_pending ht g]
  rfl

end SystemState

/-- **The byte and registration ledger.** In every run of any number of buffers that share a
budget, ungrouped or fair, in which no counter overflows: an open buffer counts the estimates
of its live messages, a closed one stays closed, counts nothing and returns nothing; the budget
counts the bytes of its buffers and the credits of the waiters; and a fair budget counts bytes,
waiters and references of each group, finds a group by its key exactly while it has references,
and counts the groups that hold or wait. -/
theorem byte_ledger {s₀ s : SystemState} {tr : List SystemStep} (hnew : NewSystem s₀)
    (hrun : Machine.Run systemMachine s₀ tr s) (hfits : ∀ t ∈ tr, t.pre.Fits t.act) :
    (∀ i, i < s.buffers → s.Balanced i) ∧ SystemState.ClosedFor tr s ∧
      s.bb.used = ∑ i ∈ Finset.range s.buffers,
          (if (s.bufferAt i).buf.shared then (s.bufferAt i).buf.bytes else 0) +
        ∑ w ∈ s.outstanding, (s.bb.waiterAt w).credit ∧
      (s.bb.fair = true → (∀ g, s.GroupBalanced g) ∧ s.bb.active =
        ((Finset.range s.bb.nextGroup).filter fun g =>
          (s.bb.groupAt g).used ≠ 0 ∨ (s.bb.groupAt g).pending ≠ 0).card) := by
  obtain ⟨q, hb, hagree, hclosed⟩ := SystemState.agrees_of_run hnew hrun hfits
  refine ⟨fun i hi => hb.balanced hi, hclosed, hagree.used hb, fun hfair => ?_⟩
  cases hagree with
  | legacy total hcounter _ => exact absurd (hcounter.fair.symm.trans hfair) Bool.false_ne_true
  | fair hledger => exact ⟨fun g => hledger.groupBalanced hb g, hledger.active⟩

/-- Two groups share 600 bytes. Both ship a message of 256, and the first ships another: it
waits, with the 13 bytes left outside the reserve. -/
def thirdWaits : List SystemAct :=
  [.newAckBuffer ⟨0, true, "A"⟩, .newAckBuffer ⟨0, true, "B"⟩, .callAdd 0 {} none 0, .tryAdd 0,
    .callAdd 1 {} none 0, .tryAdd 1, .call 0 (.updateCapacity 4), .callAdd 0 {} none 0, .tryAdd 2]

/-- The budget of `thirdWaits`, before any call. -/
def sharedStart : SystemState where
  bb := { newByteBudget 600 with fair := true, reserve := 75, minGroup := 256 }

theorem sharedStart_new : NewSystem sharedStart :=
  ⟨.inr ⟨600, ⟨75, 256⟩, rfl⟩, rfl, rfl, rfl⟩

theorem third_waits_balanced :
    let s := systemMachine.exec sharedStart thirdWaits
    s.bb.used = 525 ∧ (s.bb.groupAt 1).pending = 1 ∧ s.GroupBalanced 1 ∧ s.bb.used =
      ∑ i ∈ Finset.range s.buffers,
          (if (s.bufferAt i).buf.shared then (s.bufferAt i).buf.bytes else 0) +
        ∑ w ∈ s.outstanding, (s.bb.waiterAt w).credit := by
  intro s
  have hrun : Machine.Run systemMachine sharedStart _ s := Machine.run_exec _ (by decide +kernel)
  have hledger := byte_ledger sharedStart_new hrun (by decide +kernel)
  exact ⟨by decide +kernel, by decide +kernel, (hledger.2.2.2 (by decide +kernel)).1 1,
    hledger.2.2.1⟩

end UspClient
