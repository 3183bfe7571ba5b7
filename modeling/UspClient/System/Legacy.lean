import UspClient.System.Steps
import UspClient.Buffer.Unflagged
import UspClient.Budget.Legacy

/-!
# The soft limit of an ungrouped budget

A budget of `NewByteBudget` counts the bytes of its buffers. It may go over its limit: a
buffer that holds no flagged message is admitted by force, with a flagged one. The bytes
beside the last flagged message of each buffer stay within the limit, because only an
admission that fits raises them.

* `overshoot_bound`: at most one live flagged message per open buffer is over the limit.
-/

namespace UspClient

open Function Word64 Replay AckBuffer ByteBudget SystemState

namespace SystemState

variable {s s' s₀ : SystemState} {a : SystemAct} {i j total : Nat} {q q' : Nat → Queue Admission}
variable {tr : List SystemStep}

/-- The bytes a buffer has from the shared budget. -/
def sharedBytes (b : BufferState) (_ : Queue Admission) : Nat := if b.buf.shared then b.buf.bytes else 0

/-- Those beside its last flagged message. -/
def sharedRest (b : BufferState) (q : Queue Admission) : Nat :=
  if b.buf.shared then b.buf.unflaggedBytes q else 0

theorem sharedBytes_le (b : BufferState) (q : Queue Admission) : sharedBytes b q ≤ b.buf.bytes := by
  unfold sharedBytes
  split_ifs
  · exact le_rfl
  · exact Nat.zero_le _

theorem sharedRest_le {b : BufferState} {q : Queue Admission} (h : BufferState.Metered b q) :
    sharedRest b q ≤ sharedBytes b q := by
  unfold sharedRest sharedBytes
  split_ifs
  · exact h.meter.unflagged_le
  · exact le_rfl

/-- Every buffer made fewer than `2 ^ 64 - 1` admissions. -/
def Numbered (s : SystemState) : Prop :=
  ∀ i, i < s.buffers → (s.bufferAt i).log.length < 2 ^ 64 - 1

/-- The counter is the sum of the buffers', and what is beside the last flags fits. -/
structure Soft (total : Nat) (s : SystemState) (q : Nat → Queue Admission) : Prop where
  buffered : Buffered s q
  counter : Legacy s.bb total (weigh sharedBytes s q)
  rest : s.Numbered → weigh sharedRest s q ≤ total

/-! ## The counter -/

theorem weigh_sharedBytes_le : weigh sharedBytes s q ≤ s.bytes :=
  Finset.sum_le_sum fun i _ => sharedBytes_le (s.bufferAt i) (q i)

theorem releaseShared_legacy {b : AckBuffer} {bb : ByteBudget} {o m n : Nat} (x : Nat)
    (h : Legacy bb total (o + if b.shared then m else 0)) (hn : n ≤ m) :
    Legacy (b.releaseShared bb n x) total (o + if b.shared then m - n else 0) := by
  unfold releaseShared
  cases hsh : b.shared with
  | false =>
    rw [hsh] at h
    exact h
  | true =>
    rw [hsh, if_pos rfl] at h
    rw [if_pos rfl, if_pos rfl, ← Nat.add_sub_assoc hn]
    exact h.release (hn.trans (Nat.le_add_left _ _)) x b.group

/-- The calls of a buffer return to the budget what they take off its counter. -/
theorem legacy_deal {b : BufferState} {qi : Queue Admission} (hb : Buffered s q)
    (h : Legacy s.bb total (weigh sharedBytes s q)) (hi : i < s.buffers)
    (hdeals : Deals ((s.bufferAt i).buf, s.bb, q i) (b.buf, s'.bb, qi))
    (hat : s'.bufferAt = update s.bufferAt i b) (hn : s'.buffers = s.buffers) :
    Legacy s'.bb total (weigh sharedBytes s' (update q i qi)) := by
  have hsum := weigh_update sharedBytes q qi hi hat hn
  have hle : sharedBytes (s.bufferAt i) (q i) ≤ weigh sharedBytes s q := le_weigh hi
  have hshared : b.buf.shared = (s.bufferAt i).buf.shared :=
    congrArg (fun v => v.2.2.1) hdeals.config
  -- the bytes of the other buffers stay
  have hpaid := hdeals.pays (hb.metered i hi).meter (fun bb m _ _ => Legacy bb total
    (weigh sharedBytes s q - sharedBytes (s.bufferAt i) (q i) +
      if (s.bufferAt i).buf.shared then m else 0)) ?_ ?_ ?_
  · have heq : weigh sharedBytes s' (update q i qi) =
        weigh sharedBytes s q - sharedBytes (s.bufferAt i) (q i) + sharedBytes b qi := by
      omega
    have hown : sharedBytes b qi = if (s.bufferAt i).buf.shared then b.buf.bytes else 0 := by
      unfold sharedBytes
      rw [hshared]
    rw [heq, hown]
    exact hpaid
  · intro bb m e r n x hL hnm _ _ _
    exact releaseShared_legacy x hL hnm
  · intro bb hL
    rw [hL.unregister]
    exact hL
  · show Legacy s.bb total (_ + sharedBytes (s.bufferAt i) (q i))
    rw [Nat.sub_add_cancel hle]
    exact h

/-! ## Steps -/

theorem cancelShared_legacy {b : AckBuffer} {bb : ByteBudget} {m : Nat}
    (h : Legacy bb total m) (w : Option WaiterId) : b.cancelShared bb w = bb := by
  unfold cancelShared
  rw [h.cancel]
  exact ite_self bb

/-- A new buffer finds the counter as it is. -/
theorem newAckBuffer_legacy {o : AckBufferOptions} {bb bb' : ByteBudget} {b : AckBuffer} {m : Nat}
    (h : Legacy bb total m) (hnew : newAckBuffer o bb = (bb', .ok b)) : bb' = bb := by
  unfold newAckBuffer at hnew
  rw [h.register] at hnew
  split_ifs at hnew <;> exact (Prod.mk.inj hnew).1.symm

theorem newAckBuffer_holds_nothing {o : AckBufferOptions} {bb : ByteBudget} {b : AckBuffer}
    (hnew : (newAckBuffer o bb).2 = .ok b) : sharedBytes { buf := b } {} = 0 := by
  obtain ⟨group, rfl⟩ := newAckBuffer_eq hnew
  exact ite_self 0

theorem refuses_legacy {b : AckBuffer} {bb bb' : ByteBudget} {m size : Nat} {w w' : Option WaiterId}
    (h : Legacy bb total m) (hsum : m + size < 2 ^ 64)
    (hwhy : Refuses b bb size w bb' w') : Legacy bb' total m := by
  cases hwhy with
  | unavailable | full =>
    rw [cancelShared_legacy h]
    exact h
  | wait _ _ _ hno =>
    have hres := (h.reserve hsum (!b.heldFlagged) b.group w).counter
    rwa [hno, if_neg Bool.false_ne_true] at hres

theorem sharedBytes_admission {b : BufferState} {adm : Admission} (log : List Admission)
    (q q' : Queue Admission) (hsum : b.buf.bytes + adm.size < 2 ^ 64) :
    sharedBytes { b with
        buf := b.buf.admitLocked adm.stored adm.size adm.overshot adm.receipt adm.maxTransmissions
        log := log } q' =
      sharedBytes b q + if b.buf.shared = true ∧ b.buf.accounting = true then adm.size else 0 := by
  have hshared := congrArg (fun v => v.2.2.1) (admitLocked_config (b := b.buf) adm.stored
    adm.size adm.overshot adm.receipt adm.maxTransmissions)
  simp only [configView] at hshared
  simp only [sharedBytes, hshared, admitLocked_bytes hsum]
  cases b.buf.shared <;> cases b.buf.accounting <;> rfl

/-- An admission is charged to the budget, or the budget has no part in it. -/
theorem admits_legacy {b : AckBuffer} {bb bb' : ByteBudget} {m size : Nat} {w : Option WaiterId}
    {overshot : Bool} (h : Legacy bb total m)
    (hwhy : Admits b bb size w bb' overshot) (hsum : m + size < 2 ^ 64) :
    Legacy bb' total (m + if b.shared = true ∧ b.accounting = true then size else 0) ∧
      (overshot = true → b.heldFlagged = false) ∧
      (b.shared = true → b.accounting = true → overshot = false → total ≠ 0 → m + size ≤ total) := by
  cases hwhy with
  | unmetered hacc =>
    rw [hacc]
    exact ⟨by simpa using h, fun hover => absurd hover Bool.false_ne_true,
      fun _ hno => absurd hno Bool.false_ne_true⟩
  | alone hacc hsh =>
    rw [hsh]
    exact ⟨by simpa using h, fun hover => absurd hover Bool.false_ne_true,
      fun hno => absurd hno Bool.false_ne_true⟩
  | charged hacc hsh hok =>
    have hres := h.reserve hsum (!b.heldFlagged) b.group w
    have hcounter := hres.counter
    rw [hok, if_pos rfl] at hcounter
    rw [if_pos ⟨hsh, hacc⟩]
    refine ⟨hcounter, fun hover => ?_, fun _ _ hfits => hres.fits hok hfits⟩
    rw [← Bool.not_eq_true']
    exact hres.forced hover

/-- The admissions of a buffer are never forgotten. -/
theorem Change.numbered (h : Change s q a s' q') (hnum : s'.Numbered) : s.Numbered := by
  intro i hi
  have hi' := hi.trans_le h.buffers_le
  have hlen := hnum i hi'
  have hat := h.at hi'
  generalize s'.bufferAt i = b, q' i = qi at hat hlen
  cases hat with
  | fresh _ _ _ hnew _ => exact absurd hnew hi.ne
  | deal _ _ _ _ _ hlog _ => rwa [hlog] at hlen
  | admission =>
    rw [List.length_append] at hlen
    exact lt_of_le_of_lt (Nat.le_add_right _ _) hlen

theorem Buffered.room (hb : Buffered s q) (hj : j < s.adds) (hin : s.Within (.tryAdd j)) :
    weigh sharedBytes s q + (s.addAt j).size < 2 ^ 64 ∧
      (s.bufferAt (s.addAt j).buffer).buf.bytes + (s.addAt j).size < 2 ^ 64 := by
  have hsum : s.bytes + (s.addAt j).size < 2 ^ 64 := hin
  have hown := bytes_le (hb.adds j hj).1
  have hall : weigh sharedBytes s q ≤ s.bytes := weigh_sharedBytes_le
  omega

/-- The budget counts the bytes of its buffers. -/
theorem Buffered.counter_step (hbuf : Buffered s q)
    (h : Legacy s.bb total (weigh sharedBytes s q)) (hin : s.Within a)
    (hchange : Change s q a s' q') :
    Legacy s'.bb total (weigh sharedBytes s' q') := by
  cases hchange with
  | same hbb hat hn _ =>
    rw [hbb, weigh_congr hat hn]
    exact h
  | fresh o b _ hnew hat hn _ =>
    rw [newAckBuffer_legacy h hnew, weigh_fresh hat hn,
      newAckBuffer_holds_nothing (congrArg Prod.snd hnew)]
    exact h
  | deal i b qi hi hdeals _ hat hn _ => exact legacy_deal hbuf h hi hdeals hat hn
  | refuse j b w hj ha hb _ hwhy hat hn _ =>
    rw [ha] at hin
    rw [weigh_same (hbuf.adds j hj).1 hat hn (by rw [← hb]; rfl)]
    exact refuses_legacy h (hbuf.room hj hin).1 hwhy
  | admission j b adm hj ha hb _ _ hwhy _ _ hsize _ _ hat hn _ =>
    rw [ha] at hin
    obtain ⟨hsum, hbytes⟩ := hbuf.room hj hin
    have hi := (hbuf.adds j hj).1
    have hup := weigh_update sharedBytes q ((q (s.addAt j).buffer).push
      { item := adm, limit := adm.limit }) hi hat hn
    rw [sharedBytes_admission _ (q (s.addAt j).buffer) _ (by rwa [hsize, hb]), ← hb] at hup
    obtain ⟨hcounter, -⟩ := admits_legacy h hwhy hsum
    rw [← hsize] at hcounter
    refine ⟨hcounter.fair, hcounter.total, ?_⟩
    rw [hcounter.used]
    omega
  | cancel j hj _ hbb hat hn _ =>
    rw [hbb, cancelShared_legacy h, weigh_congr hat hn]
    exact h

/-- A forced admission finds no flagged message, and brings one. -/
theorem sharedRest_forced {b : BufferState} {qi : Queue Admission} {adm : Admission}
    (hm : BufferState.Metered b qi) (hlen : b.log.length < 2 ^ 64 - 1)
    (hrun : b.buf.isRunning = true) (hheld : b.buf.heldFlagged = false)
    (hflag : adm.stored.ackRequested = true) (log : List Admission) :
    sharedRest { b with
        buf := b.buf.admitLocked adm.stored adm.size adm.overshot adm.receipt adm.maxTransmissions
        log := log } (qi.push { item := adm, limit := adm.limit }) ≤ sharedRest b qi := by
  have hshared := congrArg (fun v => v.2.2.1) (admitLocked_config (b := b.buf) adm.stored
    adm.size adm.overshot adm.receipt adm.maxTransmissions)
  simp only [configView] at hshared
  simp only [sharedRest, hshared]
  split_ifs
  · have hlen' : qi.items.length + 1 < 2 ^ 64 := by
      rw [hm.tracks.items]
      omega
    exact unflagged_admission hm.tracks.refines.slots hlen' hheld (hm.bytes_open hrun).1 hflag
  · exact le_rfl

/-- What the budget has no part in is not counted. -/
theorem sharedRest_apart {b : BufferState} {qi : Queue Admission} (hm : BufferState.Metered b qi)
    (hno : ¬ (b.buf.shared = true ∧ b.buf.accounting = true)) : sharedRest b qi = 0 := by
  have hle := sharedRest_le hm
  have hzero : sharedBytes b qi = 0 := by
    unfold sharedBytes
    cases hsh : b.buf.shared with
    | false => rfl
    | true =>
      cases hacc : b.buf.accounting with
      | false => exact (hm.meter.uncounted hacc).2.1
      | true => exact absurd ⟨hsh, hacc⟩ hno
  omega

theorem Soft.rest_step (h : Soft total s q) (hin : s.Within a) (hpos : total ≠ 0)
    (hb' : Buffered s' q') (hchange : Change s q a s' q') (hnum : s'.Numbered) : weigh sharedRest s' q' ≤ total := by
  have hcounter := h.buffered.counter_step h.counter hin hchange
  have hnum' := hchange.numbered hnum
  have hle := h.rest hnum'
  cases hchange with
  | same _ hat hn | cancel _ _ _ _ hat hn => rwa [weigh_congr hat hn]
  | fresh o b _ hnew hat hn _ =>
    have hzero : sharedRest { buf := b } {} = 0 := by
      have hrest := sharedRest_le (BufferState.newAckBuffer_metered (congrArg Prod.snd hnew))
      rw [newAckBuffer_holds_nothing (congrArg Prod.snd hnew)] at hrest
      exact Nat.le_zero.1 hrest
    rwa [weigh_fresh hat hn, hzero]
  | deal i b qi hi hdeals _ hat hn _ =>
    have hup := weigh_update sharedRest q qi hi hat hn
    -- a call that admits nothing only takes bytes away
    have hdown : sharedRest b qi ≤ sharedRest (s.bufferAt i) (q i) := by
      have hshared : b.buf.shared = (s.bufferAt i).buf.shared :=
        congrArg (fun v => v.2.2.1) hdeals.config
      unfold sharedRest
      rw [hshared]
      split_ifs
      · exact hdeals.unflagged_le
      · exact le_rfl
    omega
  | refuse j b w hj _ hb _ _ hat hn _ =>
    rwa [weigh_same (h.buffered.adds j hj).1 hat hn (by rw [← hb]; rfl)]
  | admission j b adm hj ha hb hrun _ hwhy hflag _ hsize _ _ hat hn _ =>
    -- an admission: forced ones carry the last flag and do not count
    rw [ha] at hin
    have hi := (h.buffered.adds j hj).1
    have hm := h.buffered.metered _ hi
    have hm' := hb'.metered _ (hn ▸ hi)
    rw [hat, update_self, update_self] at hm'
    rw [← hb] at hm
    have hup := weigh_update sharedRest q ((q (s.addAt j).buffer).push
      { item := adm, limit := adm.limit }) hi hat hn
    rw [← hb] at hup
    obtain ⟨hlegacy, hforced, hfits⟩ := admits_legacy h.counter hwhy (h.buffered.room hj hin).1
    cases hover : adm.overshot with
    | true =>
      have hlen := hnum' _ hi
      rw [← hb] at hlen
      have hdown := sharedRest_forced hm hlen hrun (hforced hover) (hflag hover) (b.log ++ [adm])
      omega
    | false =>
      rcases em (b.buf.shared = true ∧ b.buf.accounting = true) with hpart | hapart
      · -- it fits, and so does everything
        rw [if_pos hpart] at hlegacy
        have hall : weigh sharedRest s' _ ≤ weigh sharedBytes s' _ :=
          weigh_mono fun i hi => sharedRest_le (hb'.metered i hi)
        have hused := hlegacy.used.symm.trans hcounter.used
        have hroom := hfits hpart.1 hpart.2 hover hpos
        omega
      · -- a buffer without the budget has no part in the sum
        have hconfig := admitLocked_config (b := b.buf) adm.stored adm.size adm.overshot
          adm.receipt adm.maxTransmissions
        simp only [configView, Prod.mk.injEq] at hconfig
        have hzero := sharedRest_apart hm' (by
          simp only
          rw [hconfig.1, hconfig.2.2.1]
          exact hapart)
        omega

theorem Soft.step (h : Soft total s q) (hpos : total ≠ 0) (hmove : Moved s a s')
    (hin : s.Within a) : ∃ q', Soft total s' q' := by
  obtain ⟨q', hb', hchange⟩ := h.buffered.step hmove hin
  exact ⟨q', hb', h.buffered.counter_step h.counter hin hchange,
    h.rest_step hin hpos hb' hchange⟩

theorem soft_of_new (h : NewSystem s) (hbb : s.bb = newByteBudget total) :
    Soft total s (fun _ => {}) := by
  have hzero : ∀ f, weigh f s (fun _ => {}) = 0 := by
    intro f
    unfold weigh
    rw [h.buffers]
    rfl
  refine ⟨buffered_of_new h _, ?_, fun _ => ?_⟩
  · rw [hzero, hbb]
    exact newByteBudget_legacy total
  · rw [hzero]
    exact Nat.zero_le _

theorem soft_of_run (hnew : NewSystem s₀) (hbb : s₀.bb = newByteBudget total) (hpos : total ≠ 0)
    (hrun : Machine.Run systemMachine s₀ tr s) (hin : ∀ t ∈ tr, t.pre.Within t.act) :
    ∃ q, Soft total s q := by
  refine hrun.invariant_of Within (fun s => ∃ q, Soft total s q) ⟨_, soft_of_new hnew hbb⟩ ?_ hin
  rintro s a hg hwithin ⟨q, hsoft⟩
  exact hsoft.step hpos (moved_of_guard hg) hwithin

/-- The size the buffer keeps for slot `k`. -/
def slotSize (b : AckBuffer) : Option Nat → Nat
  | some k => b.sizes.getD k 0
  | none => 0

/-- A buffer is over by its last flagged message at most. -/
theorem exists_choice {b : BufferState} {q : Queue Admission} (hm : BufferState.Metered b q)
    (hlen : b.log.length < 2 ^ 64 - 1) : ∃ choice : Option Nat,
      (∀ k, choice = some k → b.buf.isClosed = false ∧ b.buf.shared = true ∧
        b.buf.requestAt k = true) ∧
      sharedBytes b q ≤ sharedRest b q + slotSize b.buf choice := by
  have hnone : sharedBytes b q = sharedRest b q → ∃ choice : Option Nat,
      (∀ k, choice = some k → b.buf.isClosed = false ∧ b.buf.shared = true ∧
        b.buf.requestAt k = true) ∧
      sharedBytes b q ≤ sharedRest b q + slotSize b.buf choice :=
    fun heq => ⟨none, fun k hk => absurd hk (Option.some_ne_none k).symm, heq.le⟩
  rcases Bool.eq_false_or_eq_true b.buf.shared with hsh | hsh
  swap
  · refine hnone ?_
    unfold sharedBytes sharedRest
    rw [hsh]
    rfl
  have hbytes : sharedBytes b q = b.buf.bytes := if_pos hsh
  have hrest : sharedRest b q = b.buf.unflaggedBytes q := if_pos hsh
  have hle := hm.meter.unflagged_le
  rcases Nat.eq_zero_or_pos b.buf.bytes with hzero | hpos
  · exact hnone (by omega)
  -- a buffer that holds bytes counts them and is open
  have hopen : b.buf.isClosed = false := by
    by_contra hc
    rw [(hm.meter.closed (Bool.not_eq_false _ ▸ hc)).1] at hpos
    exact Nat.lt_irrefl 0 hpos
  have hacc : b.buf.accounting = true := by
    by_contra hc
    rw [(hm.meter.uncounted (Bool.not_eq_true _ ▸ hc)).2.1] at hpos
    exact Nat.lt_irrefl 0 hpos
  have hwindow : b.buf.bytes = windowBytes q := by
    rw [hm.meter.bytes, hopen, if_neg Bool.false_ne_true]
  rcases exists_flagged hm.tracks.refines.slots hopen with heq | ⟨i, f, hf, hseq, heq⟩
  · exact hnone (by omega)
  · have hne : b.buf.lastFlaggedSeq ≠ 0 := by
      have hlt := (List.getElem?_eq_some_iff.1 hf).1
      have hitems := congrArg List.length hm.tracks.items
      have hall := q.length_items
      have hnum := hm.tracks.refines.slots.seqs _ _ (items_window hf)
      rw [Nat.mod_eq_of_lt (by omega), hseq] at hnum
      omega
    obtain ⟨hflag, hlive⟩ := (hm.flags (by omega)).last hne i f hf hseq
    refine ⟨some i, fun k hk => ?_, ?_⟩
    · cases hk
      exact ⟨hopen, hsh, hm.tracks.refines.slots.requestAt hf hlive hflag⟩
    · have hsize : slotSize b.buf (some i) = heldSize f := by
        show b.buf.sizes.getD i 0 = _
        rw [hm.tracks.refines.slots.sizes hacc, List.getD_eq_getElem?_getD, List.getElem?_map, hf]
        rfl
      omega

end SystemState

/-- In every state of a run of any number of buffers that share an ungrouped budget with a
limit, the counter is over the limit by at most one live message per open buffer, each of
which asks for an acknowledgement. -/
theorem overshoot_bound {s₀ s : SystemState} {tr : List SystemStep} {total : Nat}
    (hnew : NewSystem s₀) (hbb : s₀.bb = newByteBudget total) (hpos : total ≠ 0)
    (hrun : Machine.Run systemMachine s₀ tr s) (hin : ∀ t ∈ tr, t.pre.Within t.act)
    (hlen : s.Numbered) : ∃ choice : Nat → Option Nat,
      (∀ i k, i < s.buffers → choice i = some k → (s.bufferAt i).buf.isClosed = false ∧
        (s.bufferAt i).buf.shared = true ∧ (s.bufferAt i).buf.requestAt k = true) ∧
      s.bb.used - ∑ i ∈ Finset.range s.buffers,
        slotSize (s.bufferAt i).buf (choice i) ≤ total := by
  obtain ⟨q, hsoft⟩ := soft_of_run hnew hbb hpos hrun hin
  have hpick : ∀ i, ∃ choice : Option Nat, i < s.buffers →
      (∀ k, choice = some k → (s.bufferAt i).buf.isClosed = false ∧
        (s.bufferAt i).buf.shared = true ∧ (s.bufferAt i).buf.requestAt k = true) ∧
      sharedBytes (s.bufferAt i) (q i) ≤
        sharedRest (s.bufferAt i) (q i) +
          slotSize (s.bufferAt i).buf choice := by
    intro i
    rcases Nat.lt_or_ge i s.buffers with hi | hi
    · obtain ⟨choice, hchoice⟩ := exists_choice (hsoft.buffered.metered i hi) (hlen i hi)
      exact ⟨choice, fun _ => hchoice⟩
    · exact ⟨none, fun hlt => absurd hlt (Nat.not_lt.2 hi)⟩
  choose choice hchoice using hpick
  refine ⟨choice, fun i k hi => (hchoice i hi).1 k, ?_⟩
  have hsum : weigh sharedBytes s q ≤
      weigh sharedRest s q +
        ∑ i ∈ Finset.range s.buffers, slotSize (s.bufferAt i).buf (choice i) := by
    unfold weigh
    rw [← Finset.sum_add_distrib]
    exact Finset.sum_le_sum fun i hi => (hchoice i (Finset.mem_range.1 hi)).2
  have hrest := hsoft.rest hlen
  rw [hsoft.counter.used]
  omega

/-- Two buffers share 300 bytes, and each ships a message of 256. The second is forced. -/
def twoShips : List SystemAct :=
  [.newAckBuffer ⟨0, true, ""⟩, .newAckBuffer ⟨0, true, ""⟩, .callAdd 0 {} none 0, .tryAdd 0,
    .callAdd 1 {} none 0, .tryAdd 1]

theorem two_over_limit :
    let s := systemMachine.exec { bb := newByteBudget 300 } twoShips
    s.bb.used = 512 ∧ ∃ choice : Nat → Option Nat,
      (∀ i k, i < s.buffers → choice i = some k → (s.bufferAt i).buf.isClosed = false ∧
        (s.bufferAt i).buf.shared = true ∧ (s.bufferAt i).buf.requestAt k = true) ∧
      s.bb.used - ∑ i ∈ Finset.range s.buffers,
        slotSize (s.bufferAt i).buf (choice i) ≤ 300 := by
  intro s
  have hrun : Machine.Run systemMachine { bb := newByteBudget 300 } _ s :=
    Machine.run_exec _ (by decide +kernel)
  have hlen : ∀ i, i < s.buffers → (s.bufferAt i).log.length < 2 ^ 64 - 1 := by decide +kernel
  exact ⟨by decide +kernel, overshoot_bound ⟨.inl ⟨300, rfl⟩, rfl, rfl, rfl⟩ rfl (by decide) hrun
    (by decide +kernel) hlen⟩

end UspClient
