import UspClient.Budget.Refund
import UspClient.Buffer.Blank
import UspClient.System.Balance

/-!
# An add that fails leaves no trace

`addWithReceipt` fails when its time is up or its buffer was sealed. Until then it may have made
any number of rounds, and held waiters that the budget credited. What its own steps leave behind
is at most the wake channel of its buffer: the message, the receipt and the counters are as if
the call had not been made, and the credit of every waiter it gave up was returned.

* `failed_add_no_trace`: in every run in which no counter overflows.
-/

namespace UspClient

open Function Word64 Replay ByteBudget AckBuffer SystemState

/-- The step is one of add `j`: its call, a round, a wakeup, the end of its wait or its
deferred `cancel`. -/
def SystemStep.OfAdd (t : SystemStep) (j : Nat) : Prop :=
  match t.act with
  | .callAdd .. => t.pre.adds = j
  | .tryAdd k => k = j
  | .wakeAdd k => k = j
  | .timeout k => k = j
  | .cancel k => k = j
  | _ => False

/-- Whether the action is a round of add `j`. -/
instance (a : SystemAct) (j : Nat) : Decidable (a = .tryAdd j) :=
  match a with
  | .tryAdd k =>
    if h : k = j then isTrue (h ▸ rfl) else isFalse fun heq => h (SystemAct.tryAdd.inj heq)
  | .newAckBuffer _ | .call .. | .callAdd .. | .wakeAdd _ | .timeout _ | .cancel _ | .callDrain _
  | .drain .. | .wakeDrain .. => isFalse SystemAct.noConfusion

namespace SystemState

variable {s s' s₀ : SystemState} {a : SystemAct} {i j k : Nat} {q q' : Nat → Queue Admission}
variable {tr : List SystemStep} {t : SystemStep} {w v : WaiterId} {r : ReceiptId} {strict : Prop}

/-- No round of add `j` admitted the message. -/
def Unadmitted (tr : List SystemStep) (j : Nat) : Prop :=
  ∀ t ∈ tr, t.act = .tryAdd j → (t.pre.round (t.pre.addAt j)).2 ≠ .admitted

instance (tr : List SystemStep) (j : Nat) : Decidable (Unadmitted tr j) :=
  inferInstanceAs (Decidable (∀ t ∈ tr, t.act = .tryAdd j →
    (t.pre.round (t.pre.addAt j)).2 ≠ .admitted))

/-- Add `j` returned an error. -/
structure Failed (tr : List SystemStep) (s : SystemState) (j : Nat) : Prop where
  made : j < s.adds
  returned : (s.addAt j).phase = .returned
  unadmitted : Unadmitted tr j

/-- Add `j` held the waiter at some time. -/
def HeldBy (tr : List SystemStep) (j : Nat) (w : WaiterId) : Prop :=
  ∃ t ∈ tr, t.post.waiterOf j = some w

/-- What the steps make of the message of add `j`, which was `e` before: an admission stamps it. -/
def messageAfter (tr : List SystemStep) (j : Nat) (e : DataMessage) : DataMessage :=
  tr.foldl (fun e t => match t.act with
    | .tryAdd k => if k = j then (t.pre.round (t.pre.addAt j)).1.stored.getD e else e
    | _ => e) e

/-- Nothing changes, or the wake channel of the buffer is made. -/
def OnlyWake (b b' : BufferState) : Prop :=
  b' = b ∨ (b.buf.wake = none ∧
    b' = { b with buf := { b.buf with wake := some b.buf.nextWake, nextWake := b.buf.nextWake + 1 } })

/-- What a waiter gives up is free again, or already credited to another one. -/
structure Refunded (t : SystemStep) (w : WaiterId) : Prop where
  grows : ∀ v ∈ t.post.outstanding, (t.pre.bb.waiterAt v).credit ≤ (t.post.bb.waiterAt v).credit
  bytes : t.post.bb.used + (t.pre.bb.waiterAt w).credit = t.pre.bb.used +
    ∑ v ∈ t.post.outstanding, ((t.post.bb.waiterAt v).credit - (t.pre.bb.waiterAt v).credit)

/-- What is left of add `j` after the run `tr`, which ended in `s`. -/
structure NoTrace (tr : List SystemStep) (s : SystemState) (j : Nat) : Prop where
  /-- Its steps change no buffer, except that they may make the wake channel. -/
  buffers : ∀ t ∈ tr, SystemStep.OfAdd t j → ∀ i, OnlyWake (t.pre.bufferAt i) (t.post.bufferAt i)
  /-- They do not write to the message. -/
  message : ∀ e, messageAfter tr j e = e
  /-- The cell of the receipt, which no other call was given, was not written, and no entry of the
  tracked list refers to it. -/
  receipt : ∀ r, (s.addAt j).receipt = some r →
    (∀ k, k < s.adds → k ≠ j → (s.addAt k).buffer = (s.addAt j).buffer →
      (s.addAt k).receipt ≠ some r) →
    (s.bufferAt (s.addAt j).buffer).buf.receiptAt r = .invalid ∧
      ∀ e, (s.bufferAt (s.addAt j).buffer).buf.Listed e →
        ((s.bufferAt (s.addAt j).buffer).buf.entryAt e).state ≠ r
  /-- No waiter it held is queued, or has a credit. -/
  waiters : ∀ w, HeldBy tr j w →
    (∀ g, w ∉ (s.bb.groupAt g).waiters) ∧ (s.bb.waiterAt w).credit = 0
  /-- None is counted by its group, which counts the outstanding ones. -/
  counted : s.bb.fair = true →
    (∀ w, HeldBy tr j w → w ∉ s.outstanding) ∧ ∀ g, s.GroupBalanced g
  /-- When it gave one up, the credit went back. -/
  refunded : ∀ t ∈ tr, SystemStep.OfAdd t j → ∀ w, t.pre.waiterOf j = some w →
    t.post.waiterOf j ≠ some w → Refunded t w

/-! ## The buffer and the message -/

theorem sampleWake_of_some {b : AckBuffer} {c : ChanId} (hw : b.wake = some c) :
    b.sampleWake.1 = b := by
  cases b
  subst hw
  rfl

theorem onlyWake_sample (b : BufferState) : OnlyWake b { b with buf := b.buf.sampleWake.1 } := by
  cases hw : b.buf.wake with
  | none =>
    refine .inr ⟨hw, ?_⟩
    unfold sampleWake
    rw [hw]
    rfl
  | some c =>
    rw [sampleWake_of_some hw]
    exact .inl rfl

/-- A round that does not admit the message. -/
theorem onlyWake_round (b : BufferState) (bb : ByteBudget) (c : AddCall)
    (h : (b.buf.addRound bb c.message c.size c.waiter c.receipt c.maxTransmissions.toNat).2 ≠
      .admitted) : OnlyWake b (b.apply bb (addOp c)).1 := by
  obtain ⟨hstored, hbuf⟩ := addRound_failed h
  have hlog : b.log ++ ((b.buf.addRound bb c.message c.size c.waiter c.receipt
      c.maxTransmissions.toNat).1.admission c.message c.size c.receipt
      c.maxTransmissions.toNat).toList = b.log := by
    unfold TryAdd.admission
    rw [hstored]
    exact List.append_nil _
  unfold addOp BufferState.apply
  simp only [hlog]
  rcases hbuf with hsame | hwake
  · rw [hsame]
    exact .inl rfl
  · rw [hwake]
    exact onlyWake_sample b

/-- The steps of an add that no round admits. -/
theorem Moved.onlyWake (h : Moved s a s') (hown : SystemStep.OfAdd ⟨s, a, s'⟩ j)
    (hround : a = .tryAdd j → (s.round (s.addAt j)).2 ≠ .admitted) (i : Nat) :
    OnlyWake (s.bufferAt i) (s'.bufferAt i) ∧ s'.buffers = s.buffers := by
  cases h with
  | tryAdd k hk hphase =>
    obtain rfl : k = j := hown
    refine ⟨?_, rfl⟩
    show OnlyWake (s.bufferAt i) (update s.bufferAt (s.addAt k).buffer _ i)
    rcases eq_or_ne i (s.addAt k).buffer with rfl | hi
    · rw [update_self]
      exact onlyWake_round _ _ _ (hround rfl)
    · rw [update_of_ne hi]
      exact .inl rfl
  | callAdd | wakeAdd | timeout | cancel => exact ⟨.inl rfl, rfl⟩
  | newAckBuffer | rejected | call | callDrain | drain | wakeDrain => exact hown.elim

theorem messageAfter_same (h : Unadmitted tr j) (e : DataMessage) : messageAfter tr j e = e := by
  unfold messageAfter
  induction tr with
  | nil => rfl
  | cons t tr ih =>
    have hstep : (match t.act with
        | .tryAdd k => if k = j then (t.pre.round (t.pre.addAt j)).1.stored.getD e else e
        | _ => e) = e := by
      split
      · rename_i k hk
        split_ifs with hkj
        · subst hkj
          have hround := h t List.mem_cons_self hk
          rw [show (t.pre.round (t.pre.addAt k)).1.stored = none from
            (addRound_failed hround).1]
          rfl
        · rfl
      · rfl
    rw [List.foldl_cons, hstep]
    exact ih fun t ht => h t (List.mem_cons_of_mem _ ht)

/-! ## The cell of the receipt -/

/-- Every admission is that of a call, which made it in a round. -/
def FromCalls (tr : List SystemStep) (s : SystemState) : Prop :=
  ∀ i, i < s.buffers → ∀ adm ∈ (s.bufferAt i).log, ∃ k, k < s.adds ∧ (s.addAt k).buffer = i ∧
    (s.addAt k).receipt = adm.receipt ∧
    ∃ t ∈ tr, t.act = .tryAdd k ∧ (t.pre.round (t.pre.addAt k)).2 = .admitted

/-- What a step does to the log of a buffer. -/
theorem Moved.log (h : Moved s a s') (hi : i < s'.buffers) :
    (i < s.buffers ∧ (s'.bufferAt i).log = (s.bufferAt i).log) ∨ (s'.bufferAt i).log = [] ∨
    (i < s.buffers ∧ ∃ k adm, a = .tryAdd k ∧ k < s.adds ∧ (s.addAt k).buffer = i ∧
      (s.round (s.addAt k)).2 = .admitted ∧ (s.addAt k).receipt = adm.receipt ∧
      (s'.bufferAt i).log = (s.bufferAt i).log ++ [adm]) := by
  -- a call other than an add appends nothing
  have hset : ∀ k op, op.adds = false →
      (update s.bufferAt k ((s.bufferAt k).apply s.bb op).1 i).log = (s.bufferAt i).log := by
    intro k op hop
    rcases eq_or_ne i k with rfl | hik
    · rw [update_self]
      cases op <;> first | rfl | cases hop
    · rw [update_of_ne hik]
  cases h with
  | newAckBuffer o bb b hnew =>
    rcases Nat.lt_succ_iff_lt_or_eq.1 hi with hlt | rfl
    · exact .inl ⟨hlt, congrArg BufferState.log (update_of_ne hlt.ne _ _)⟩
    · refine .inr (.inl ?_)
      show (update s.bufferAt s.buffers { buf := b } s.buffers).log = []
      rw [update_self]
  | call k op hk hop =>
    refine .inl ⟨hi, hset k op ?_⟩
    cases op <;> first | rfl | cases hop
  | drain k first ctxDone hk hphase => exact .inl ⟨hi, hset _ _ rfl⟩
  | tryAdd k hk hphase =>
    rcases eq_or_ne i (s.addAt k).buffer with rfl | hik
    · -- the log grows by the admission of the round, if it made one
      have hlog : (((s.apply (s.addAt k).buffer (addOp (s.addAt k))).setAdd k
          { s.addAt k with
            waiter := (s.round (s.addAt k)).1.waiter
            phase := .after (s.round (s.addAt k)).2 }).bufferAt (s.addAt k).buffer).log =
          (s.bufferAt (s.addAt k).buffer).log ++ ((s.round (s.addAt k)).1.admission
            (s.addAt k).message (s.addAt k).size (s.addAt k).receipt
            (s.addAt k).maxTransmissions.toNat).toList := by
        show (update s.bufferAt (s.addAt k).buffer _ (s.addAt k).buffer).log = _
        rw [update_self]
        rfl
      by_cases hround : (s.round (s.addAt k)).2 = .admitted
      · obtain ⟨⟨adm, hadm, hreceipt⟩, -⟩ := addRound_admitted hround
        refine .inr (.inr ⟨hi, k, adm, rfl, hk, rfl, hround, hreceipt.symm, ?_⟩)
        rw [hlog, show (s.round (s.addAt k)).1.admission _ _ _ _ = some adm from hadm]
        rfl
      · refine .inl ⟨hi, ?_⟩
        rw [hlog]
        unfold TryAdd.admission
        rw [show (s.round (s.addAt k)).1.stored = none from (addRound_failed hround).1]
        exact List.append_nil _
    · exact .inl ⟨hi, congrArg BufferState.log (update_of_ne hik _ _)⟩
  | _ => exact .inl ⟨hi, rfl⟩

theorem FromCalls.step (h : FromCalls tr s) (hmove : Moved s a s') :
    FromCalls (tr ++ [⟨s, a, s'⟩]) s' := by
  -- a call keeps its buffer and its receipt
  have hgiven : ∀ k, k < s.adds → k < s'.adds ∧ (s'.addAt k).buffer = (s.addAt k).buffer ∧
      (s'.addAt k).receipt = (s.addAt k).receipt := by
    intro k hk
    have hk' := hk.trans_le hmove.adds_le
    rcases hmove.given hk' with ⟨-, hsame⟩ | ⟨rfl, -⟩
    · simp only [AddCall.given, Prod.mk.injEq] at hsame
      exact ⟨hk', hsame.1, hsame.2.2.2.1⟩
    · exact absurd hk (Nat.lt_irrefl _)
  have hold : ∀ i, i < s.buffers → ∀ adm ∈ (s.bufferAt i).log, ∃ k, k < s'.adds ∧
      (s'.addAt k).buffer = i ∧ (s'.addAt k).receipt = adm.receipt ∧
      ∃ t ∈ tr ++ [⟨s, a, s'⟩], t.act = .tryAdd k ∧
        (t.pre.round (t.pre.addAt k)).2 = .admitted := by
    intro i hi adm hadm
    obtain ⟨k, hk, hbuf, hreceipt, t, ht, hround⟩ := h i hi adm hadm
    obtain ⟨hk', hbuf', hreceipt'⟩ := hgiven k hk
    exact ⟨k, hk', hbuf'.trans hbuf, hreceipt'.trans hreceipt, t, List.mem_append_left _ ht, hround⟩
  intro i hi adm hadm
  rcases hmove.log hi with ⟨hlt, hlog⟩ | hlog | ⟨hlt, k, new, hact, hk, hbuf, hround, hreceipt, hlog⟩
  · rw [hlog] at hadm
    exact hold i hlt adm hadm
  · rw [hlog] at hadm
    cases hadm
  · rw [hlog, List.mem_append, List.mem_singleton] at hadm
    rcases hadm with hmem | rfl
    · exact hold i hlt adm hmem
    · obtain ⟨hk', hbuf', hreceipt'⟩ := hgiven k hk
      exact ⟨k, hk', hbuf'.trans hbuf, hreceipt'.trans hreceipt, _,
        List.mem_append_right _ List.mem_cons_self, hact, hround⟩

/-- No buffer has written a cell that no admission brought. -/
def Blanks (s : SystemState) : Prop :=
  ∀ i, i < s.buffers → (s.bufferAt i).buf.Blank (s.bufferAt i).log

theorem Blanks.step (h : Blanks s) (hb : Buffered s q) (hmove : Moved s a s') : Blanks s' := by
  have hset : ∀ k op, k < s.buffers → ∀ i, i < s.buffers →
      (update s.bufferAt k ((s.bufferAt k).apply s.bb op).1 i).buf.Blank
        (update s.bufferAt k ((s.bufferAt k).apply s.bb op).1 i).log := by
    intro k op hk i hi
    rcases eq_or_ne i k with rfl | hik
    · rw [update_self]
      exact (hb.metered i hi).tracks.blank (h i hi) s.bb op
    · rw [update_of_ne hik]
      exact h i hi
  cases hmove with
  | newAckBuffer o bb b hnew =>
    intro i hi
    show (update s.bufferAt s.buffers { buf := b } i).buf.Blank
      (update s.bufferAt s.buffers { buf := b } i).log
    rcases Nat.lt_succ_iff_lt_or_eq.1 hi with hlt | rfl
    · rw [update_of_ne hlt.ne]
      exact h i hlt
    · rw [update_self]
      obtain ⟨group, rfl⟩ := newAckBuffer_eq (congrArg Prod.snd hnew)
      exact fun r _ => rfl
  | call k op hk _ => exact hset k op hk
  | tryAdd k hk _ => exact hset _ _ (hb.adds k hk).1
  | drain k first ctxDone hk _ => exact hset _ _ (hb.drains k hk)
  | _ => exact h

/-! ## The waiters -/

theorem Moved.returned (h : Moved s a s') (hj : j < s'.adds) (hp : (s'.addAt j).phase = .returned) :
    (j < s.adds ∧ s'.addAt j = s.addAt j) ∨ (s'.addAt j).waiter = none := by
  -- a call that moves on without returning
  have hset : ∀ k c, c.phase ≠ .returned → s'.addAt = update s.addAt k c →
      s'.addAt j = s.addAt j := by
    intro k c hc hat
    rw [hat] at hp ⊢
    rcases eq_or_ne j k with rfl | hjk
    · rw [update_self] at hp
      exact absurd hp hc
    · rw [update_of_ne hjk]
  cases h with
  | callAdd i e receipt m hi =>
    have hsame := hset s.adds _ AddPhase.noConfusion rfl
    rcases Nat.lt_succ_iff_lt_or_eq.1 hj with hlt | rfl
    · exact .inl ⟨hlt, hsame⟩
    · right
      simp only [setAdd, update_self]
  | tryAdd k _ _ =>
    refine .inl ⟨hj, hset k _ ?_ rfl⟩
    show AddPhase.after (s.round (s.addAt k)).2 ≠ .returned
    cases (s.round (s.addAt k)).2 <;> exact AddPhase.noConfusion
  | wakeAdd k | timeout k => exact .inl ⟨hj, hset k _ AddPhase.noConfusion rfl⟩
  | cancel k _ _ =>
    rcases eq_or_ne j k with rfl | hjk
    · right
      simp only [setAdd, update_self]
    · exact .inl ⟨hj, update_of_ne hjk _ _⟩
  | _ => exact .inl ⟨hj, rfl⟩

/-- A call that returned holds no waiter. -/
def EmptyHanded (s : SystemState) : Prop :=
  ∀ j, j < s.adds → (s.addAt j).phase = .returned → (s.addAt j).waiter = none

theorem EmptyHanded.step (h : EmptyHanded s) (hmove : Moved s a s') : EmptyHanded s' := by
  intro j hj hp
  rcases hmove.returned hj hp with ⟨hlt, hsame⟩ | hnone
  · rw [hsame] at hp ⊢
    exact h j hlt hp
  · exact hnone

/-- No step writes to a waiter that nobody holds, or takes a credit from one that stays held. -/
theorem Fair.spares (h : Fair strict s) (hb : Buffered s q) (hchange : Change s q a s' q')
    (hfits : s.Fits a) : Spares s.bb s'.bb s.outstanding s'.outstanding := by
  have hacc := h.kept.solvent.accounts
  refine h.keeps hb hchange hfits (fun _ _ _ _ _ _ => Nat.zero_le _)
    (P := fun bb out => Spares s.bb bb s.outstanding out) (.refl s.bb s.outstanding) ?_ ?_ ?_ ?_ ?_
  · exact fun key => register_spares hacc.fair key s.outstanding
  · rintro j g - - hmay force x rfl
    exact h.kept.solvent.reserve_spares force hmay.asks
  · exact fun w hw => cancel_spares hacc hw
  · intro bb held n x g hbooks hg hn _ _ hold
    exact hold.trans (releaseFor_spares hbooks (some g) hg hn x)
  · exact fun bb g hold => hold.trans (unregister_spares bb (some g) s.outstanding)

/-- A failing add gives its waiter up by `cancel`. -/
theorem Fair.gives_up (h : Fair strict s) (hb : Buffered s q) (hmove : Moved s a s')
    (hchange : Change s q a s' q') (hfits : s.Fits a)
    (hround : a = .tryAdd j → (s.round (s.addAt j)).2 ≠ .admitted) (hj : s.waiterOf j = some w)
    (hgone : s'.waiterOf j ≠ some w) :
    s'.waiterOf = update s.waiterOf j none ∧ s'.bb = s.bb.cancel (some w) := by
  have hlt := waiterOf_lt hj
  have hwaiter : (s.addAt j).waiter = some w := (waiterOf_eq hlt).symm.trans hj
  have hshared := (h.waiters j w hj).2.2
  have hcancel : (s.bufferAt (s.addAt j).buffer).buf.cancelShared s.bb (s.addAt j).waiter =
      s.bb.cancel (some w) := by
    unfold cancelShared
    rw [hshared, if_pos rfl, hwaiter]
  -- a step of another call
  have hother : ∀ k x, k ≠ j → s'.waiterOf ≠ update s.waiterOf k x := by
    intro k x hk hw
    refine hgone ?_
    rw [hw, update_of_ne hk.symm, hj]
  cases hchange with
  | same _ _ _ hw | fresh _ _ _ _ _ _ hw | deal _ _ _ _ _ _ _ _ hw => exact absurd (hw ▸ hj) hgone
  | refuse k b x hk ha hbuf hrun hwhy _ _ hw =>
    rcases eq_or_ne k j with rfl | hkj
    swap
    · exact absurd hw (hother k x hkj)
    subst ha hbuf
    rcases hwhy.cases with ⟨hnone, hbb⟩ | ⟨-, hno, -, hx⟩
    · rw [hnone] at hw
      exact ⟨hw, hbb.trans hcancel⟩
    · -- the budget keeps the waiter it was handed
      obtain ⟨g, hmay⟩ := h.mayReserve hb hfits hk hrun hshared
      rw [hmay.group] at hno hx
      exfalso
      rcases h.kept.solvent.refused hmay.asks hno with
        ⟨v, hv, -, hres⟩ | ⟨hv, -⟩
      · have hxv : x = some v := hx.trans (congrArg (fun r => r.2.waiter) hres)
        refine hgone ?_
        rw [hw, update_self, hxv, ← hwaiter, hv]
      · rw [hv] at hwaiter
        cases hwaiter
  | admission k b adm hk ha hbuf _ _ _ _ _ _ _ _ hat _ hw =>
    rcases eq_or_ne k j with rfl | hkj
    swap
    · exact absurd hw (hother k none hkj)
    subst ha hbuf
    -- its log would be longer
    obtain ⟨hsame, -⟩ := hmove.onlyWake (i := (s.addAt k).buffer) rfl hround
    have hlog : (s'.bufferAt (s.addAt k).buffer).log = (s.bufferAt (s.addAt k).buffer).log := by
      rcases hsame with heq | ⟨-, heq⟩ <;> rw [heq]
    rw [hat, update_self] at hlog
    exact absurd (congrArg List.length hlog) (by simp)
  | cancel k hk ha hbb _ _ hw =>
    rcases eq_or_ne k j with rfl | hkj
    · exact ⟨hw, hbb.trans hcancel⟩
    · exact absurd hw (hother k none hkj)

/-- The waiters of an add that no round admitted: it holds them, or nobody does and they have no
credit. -/
def Spent (tr : List SystemStep) (s : SystemState) : Prop :=
  ∀ j w, HeldBy tr j w → Unadmitted tr j → s.waiterOf j = some w ∨
    (w ∉ s.outstanding ∧ w < s.bb.nextWaiter ∧ (s.bb.waiterAt w).credit = 0)

theorem Spent.step (hspent : Spent tr s) (h : Fair strict s) (hb : Buffered s q)
    (hmove : Moved s a s') (hchange : Change s q a s' q') (hfits : s.Fits a) :
    Spent (tr ++ [⟨s, a, s'⟩]) s' := by
  rintro j w ⟨t, ht, hheld⟩ hno
  have hacc := h.kept.solvent.accounts
  have hspares := h.spares hb hchange hfits
  rcases List.mem_append.1 ht with hold | hlast
  swap
  · obtain rfl := List.mem_singleton.1 hlast
    exact .inl hheld
  rcases hspent j w ⟨t, hold, hheld⟩ fun t ht => hno t (List.mem_append_left _ ht) with
    hhas | ⟨hout, hlt, hzero⟩
  · by_cases hkeeps : s'.waiterOf j = some w
    · exact .inl hkeeps
    · -- it is given up now
      have hround : a = .tryAdd j → (s.round (s.addAt j)).2 ≠ .admitted :=
        hno ⟨s, a, s'⟩ (List.mem_append_right _ List.mem_cons_self)
      obtain ⟨hw, hbb⟩ := h.gives_up hb hmove hchange hfits hround hhas hkeeps
      have hmem := mem_outstanding.2 ⟨j, hhas⟩
      refine .inr ⟨?_, (hacc.queues.fresh w hmem).trans_le hspares.next, ?_⟩
      · rw [outstanding_none hw, h.apart.waitersOf_erase hhas]
        exact Finset.notMem_erase w _
      · rw [hbb]
        exact cancel_credit hacc hmem
  · refine .inr ⟨fun hmem => hout (hspares.old w hmem hlt), hlt.trans_le hspares.next, ?_⟩
    rw [hspares.rest w hout hlt, hzero]

/-! ## Runs -/

/-- What the history of a run says about its calls. -/
structure Trail (tr : List SystemStep) (s : SystemState) : Prop where
  blank : Blanks s
  calls : FromCalls tr s
  empty : EmptyHanded s
  queueless : s.bb.fair = false → Queueless s.bb
  spent : s.bb.fair = true → Spent tr s

theorem trail_of_new (hnew : NewSystem s) : Trail [] s := by
  have hnone : ∀ i, ¬ i < s.buffers := by
    intro i hi
    rw [hnew.buffers] at hi
    exact Nat.not_lt_zero i hi
  refine ⟨fun i hi => absurd hi (hnone i), fun i hi => absurd hi (hnone i), fun j hj => ?_,
    fun hfair => ?_, fun _ j w hheld => ?_⟩
  · rw [hnew.adds] at hj
    omega
  · rcases hnew.budget with ⟨total, hbb⟩ | ⟨total, o, hbb⟩
    · rw [hbb]
      exact newByteBudget_queueless total
    · have hyes := (fair_of_new hnew hbb : Fair False s).kept.solvent.accounts.fair
      exact absurd (hfair.symm.trans hyes) Bool.false_ne_true
  · obtain ⟨t, ht, -⟩ := hheld
    cases ht

theorem Trail.step (h : Trail tr s) (hb : Buffered s q) (hagree : Agrees s q)
    (hmove : Moved s a s') (hchange : Change s q a s' q') (hfits : s.Fits a) :
    Trail (tr ++ [⟨s, a, s'⟩]) s' := by
  refine ⟨h.blank.step hb hmove, h.calls.step hmove, h.empty.step hmove, ?_, ?_⟩ <;>
    intro hfair' <;> cases hagree with
    | legacy total hcounter _ => ?_
    | fair hledger => ?_
  · exact hb.legacy_keeps (fun _ hx => hx.fair) (fun _ n x og hx => hx.release n x og)
      (fun _ n force og w hx => hx.reserve n force og w) (h.queueless hcounter.fair) hchange
  · have hyes := (hledger.step hb hmove hchange hfits fun hno => hno.elim).kept.solvent.accounts.fair
    exact absurd (hfair'.symm.trans hyes) Bool.false_ne_true
  · have hno := (hb.counter_step hcounter hfits.within hchange).fair
    exact absurd (hno.symm.trans hfair') Bool.false_ne_true
  · exact (h.spent hledger.kept.solvent.accounts.fair).step hledger hb hmove hchange hfits

theorem trail_of_run (hnew : NewSystem s₀) (hrun : Machine.Run systemMachine s₀ tr s)
    (hfits : ∀ t ∈ tr, t.pre.Fits t.act) : ∃ q, Buffered s q ∧ Agrees s q ∧ Trail tr s := by
  refine hrun.history_of Fits (fun tr s => ∃ q, Buffered s q ∧ Agrees s q ∧ Trail tr s) ?_ ?_ hfits
  · exact ⟨fun _ => {}, buffered_of_new hnew _, agrees_of_new hnew, trail_of_new hnew⟩
  · rintro tr s a hg hfit ⟨q, hb, hagree, htrail⟩
    have hmove := moved_of_guard hg
    obtain ⟨q', hb', hchange⟩ := hb.step hmove hfit.within
    exact ⟨q', hb', agrees_step hb hagree hmove hchange hfit,
      htrail.step hb hagree hmove hchange hfit⟩

/-! ## What is left -/

/-- The bytes that go back with a waiter, from the two ledgers around the step. -/
theorem refunded_of_ledgers {B : Nat} {out : Finset WaiterId} (hmem : w ∈ out)
    (hout : t.post.outstanding = out.erase w)
    (hgrows : ∀ v ∈ t.post.outstanding,
      (t.pre.bb.waiterAt v).credit ≤ (t.post.bb.waiterAt v).credit)
    (hpre : t.pre.bb.used = B + ∑ v ∈ out, (t.pre.bb.waiterAt v).credit)
    (hpost : t.post.bb.used = B + ∑ v ∈ t.post.outstanding, (t.post.bb.waiterAt v).credit) :
    Refunded t w := by
  refine ⟨hgrows, ?_⟩
  have hsplit := Finset.add_sum_erase out (fun v => (t.pre.bb.waiterAt v).credit) hmem
  have hgain : ∑ v ∈ t.post.outstanding, (t.post.bb.waiterAt v).credit =
      ∑ v ∈ t.post.outstanding, ((t.post.bb.waiterAt v).credit - (t.pre.bb.waiterAt v).credit) +
        ∑ v ∈ t.post.outstanding, (t.pre.bb.waiterAt v).credit := by
    rw [← Finset.sum_add_distrib]
    exact Finset.sum_congr rfl fun v hv => (Nat.sub_add_cancel (hgrows v hv)).symm
  rw [hout] at hpost hgain ⊢
  omega

/-- A failing add that gives a waiter up returns its credit. -/
theorem refunded_step (hb : Buffered s q) (hagree : Agrees s q) (hmove : Moved s a s')
    (hfits : s.Fits a) (hown : SystemStep.OfAdd ⟨s, a, s'⟩ j)
    (hround : a = .tryAdd j → (s.round (s.addAt j)).2 ≠ .admitted) (hj : s.waiterOf j = some w)
    (hgone : s'.waiterOf j ≠ some w) : Refunded ⟨s, a, s'⟩ w := by
  obtain ⟨q', hb', hchange⟩ := hb.step hmove hfits.within
  have hpre := hagree.used hb
  have hpost := (agrees_step hb hagree hmove hchange hfits).used hb'
  -- the buffers hold what they held
  have hbytes : ∑ i ∈ Finset.range s'.buffers,
      (if (s'.bufferAt i).buf.shared then (s'.bufferAt i).buf.bytes else 0) =
      ∑ i ∈ Finset.range s.buffers,
        (if (s.bufferAt i).buf.shared then (s.bufferAt i).buf.bytes else 0) := by
    rw [(hmove.onlyWake hown hround 0).2]
    refine Finset.sum_congr rfl fun i _ => ?_
    rcases (hmove.onlyWake hown hround i).1 with heq | ⟨-, heq⟩ <;> rw [heq]
  rw [hbytes] at hpost
  cases hagree with
  | legacy total _ hcredit =>
    -- nobody has a credit
    have hcredit' := hb.uncredited_step hcredit hchange
    rw [Finset.sum_eq_zero fun v _ => hcredit.credit v] at hpre
    rw [Finset.sum_eq_zero fun v _ => hcredit'.credit v] at hpost
    refine ⟨fun v _ => ?_, ?_⟩
    · show (s.bb.waiterAt v).credit ≤ (s'.bb.waiterAt v).credit
      rw [hcredit.credit v]
      exact Nat.zero_le _
    · show s'.bb.used + (s.bb.waiterAt w).credit = s.bb.used + ∑ v ∈ s'.outstanding,
        ((s'.bb.waiterAt v).credit - (s.bb.waiterAt v).credit)
      have hnone : ∑ v ∈ s'.outstanding,
          ((s'.bb.waiterAt v).credit - (s.bb.waiterAt v).credit) = 0 := by
        refine Finset.sum_eq_zero fun v _ => ?_
        rw [hcredit'.credit v]
        exact Nat.zero_sub _
      rw [hcredit.credit w, hpre, hpost, hnone]
  | fair hledger =>
    obtain ⟨hw, -⟩ := hledger.gives_up hb hmove hchange hfits hround hj hgone
    have hout : s'.outstanding = s.outstanding.erase w := by
      rw [outstanding_none hw, hledger.apart.waitersOf_erase hj]
    have hspares := hledger.spares hb hchange hfits
    refine refunded_of_ledgers (t := ⟨s, a, s'⟩) (mem_outstanding.2 ⟨j, hj⟩) hout
      (fun v hv => hspares.grows v hv ?_) hpre hpost
    have hmem : v ∈ s.outstanding := by
      have hv' : v ∈ s'.outstanding := hv
      rw [hout] at hv'
      exact Finset.mem_of_mem_erase hv'
    exact hledger.kept.solvent.accounts.queues.fresh v hmem

/-- The cell of a failed add that no other call was given. -/
theorem Trail.receipt (h : Trail tr s) (hb : Buffered s q) (hfail : Failed tr s j)
    (hother : ∀ k, k < s.adds → k ≠ j → (s.addAt k).buffer = (s.addAt j).buffer →
      (s.addAt k).receipt ≠ some r) :
    (s.bufferAt (s.addAt j).buffer).buf.receiptAt r = .invalid ∧
      ∀ e, (s.bufferAt (s.addAt j).buffer).buf.Listed e →
        ((s.bufferAt (s.addAt j).buffer).buf.entryAt e).state ≠ r := by
  have hi := (hb.adds j hfail.made).1
  have hnever : ∀ adm ∈ (s.bufferAt (s.addAt j).buffer).log, adm.receipt ≠ some r := by
    intro adm hadm
    obtain ⟨k, hk, hbuf, hreceipt, t, ht, hact, hround⟩ := h.calls _ hi adm hadm
    rw [← hreceipt]
    refine hother k hk ?_ hbuf
    rintro rfl
    exact hfail.unadmitted t ht hact hround
  have htracks := (hb.metered _ hi).tracks
  refine ⟨h.blank _ hi r hnever, fun e he => htracks.refines.chain.untracked ?_ he⟩
  rw [htracks.items]
  exact hnever

/-- The waiters of a failed add. -/
theorem Trail.waiters (h : Trail tr s) (hagree : Agrees s q) (hfail : Failed tr s j)
    (hheld : HeldBy tr j w) :
    ((∀ g, w ∉ (s.bb.groupAt g).waiters) ∧ (s.bb.waiterAt w).credit = 0) ∧
      (s.bb.fair = true → w ∉ s.outstanding) := by
  cases hagree with
  | legacy total hcounter hcredit =>
    refine ⟨⟨fun g => ?_, hcredit.credit w⟩, fun hyes => ?_⟩
    · rw [(h.queueless hcounter.fair).queue g]
      exact List.not_mem_nil
    · exact absurd (hcounter.fair.symm.trans hyes) Bool.false_ne_true
  | fair hledger =>
    have hacc := hledger.kept.solvent.accounts
    rcases h.spent hacc.fair j w hheld hfail.unadmitted with hhas | ⟨hout, -, hzero⟩
    · rw [waiterOf_eq hfail.made, h.empty j hfail.made hfail.returned] at hhas
      cases hhas
    · refine ⟨⟨fun g hqueued => hout ((hacc.queues.mem g w).1 hqueued).1, hzero⟩, fun _ => hout⟩

end SystemState

/-- **A failed add leaves no trace.** In every run of any number of buffers, with or without a
shared budget, in which no counter overflows, and whatever the other calls do meanwhile. -/
theorem failed_add_no_trace {s₀ s : SystemState} {tr : List SystemStep} {j : Nat}
    (hnew : NewSystem s₀) (hrun : Machine.Run systemMachine s₀ tr s)
    (hfits : ∀ t ∈ tr, t.pre.Fits t.act) (hfail : Failed tr s j) :
    NoTrace tr s j := by
  obtain ⟨q, hb, hagree, htrail⟩ := trail_of_run hnew hrun hfits
  have hround : ∀ t ∈ tr, t.act = .tryAdd j → (t.pre.round (t.pre.addAt j)).2 ≠ .admitted :=
    hfail.unadmitted
  constructor
  case buffers =>
    intro t ht hown i
    obtain ⟨tr', -, hg, hpost, -⟩ := hrun.step_of_mem ht
    have hmove := moved_of_guard hg
    rw [← hpost] at hmove
    exact (hmove.onlyWake hown (hround t ht) i).1
  case message => exact messageAfter_same hfail.unadmitted
  case receipt => exact fun r _ hother => htrail.receipt hb hfail hother
  case waiters => exact fun w hheld => (htrail.waiters hagree hfail hheld).1
  case counted =>
    refine fun hyes => ⟨fun w hheld => (htrail.waiters hagree hfail hheld).2 hyes, ?_⟩
    cases hagree with
    | legacy total hcounter _ => exact absurd (hcounter.fair.symm.trans hyes) Bool.false_ne_true
    | fair hledger => exact hledger.groupBalanced hb
  case refunded =>
    intro t ht hown w hhas hgone
    obtain ⟨tr', hrun', hg, hpost, hpre⟩ := hrun.step_of_mem ht
    have hmove := moved_of_guard hg
    rw [← hpost] at hmove
    have hsub : tr' ⊆ tr := fun x hx => hpre.subset (List.mem_append_left _ hx)
    obtain ⟨q', hb', hagree', -⟩ :=
      SystemState.agrees_of_run hnew hrun' fun x hx => hfits x (hsub hx)
    exact refunded_step hb' hagree' hmove (hfits t ht) hown (hround t ht) hhas hgone

/-- The third message of `thirdWaits` runs out of time. -/
def thirdFails : List SystemAct := thirdWaits ++ [.timeout 2, .cancel 2]

/-- The 13 bytes its waiter had are free. -/
theorem third_leaves_no_trace :
    let s := systemMachine.exec sharedStart thirdFails
    NoTrace (systemMachine.trace sharedStart thirdFails) s 2 ∧
      HeldBy (systemMachine.trace sharedStart thirdFails) 2 0 ∧
      (systemMachine.exec sharedStart thirdWaits).bb.used = 525 ∧ s.bb.used = 512 := by
  intro s
  have hrun : Machine.Run systemMachine sharedStart _ s := Machine.run_exec _ (by decide +kernel)
  have hheld : ∃ t ∈ systemMachine.trace sharedStart thirdFails, t.post.waiterOf 2 = some 0 := by
    decide +kernel
  exact ⟨failed_add_no_trace sharedStart_new hrun (by decide +kernel)
    ⟨by decide +kernel, by decide +kernel, by decide +kernel⟩, hheld, by decide +kernel,
    by decide +kernel⟩

/-! ## A sum that overflows -/

/-- Beside the third message of `thirdWaits`, a new buffer of its group is made. -/
def thirdWithAnother : List SystemAct := thirdWaits ++ [.newAckBuffer ⟨0, true, "A"⟩]

/-- The message of the new buffer is admitted by force. It brings the counter of the group to
`2 ^ 64`, which is zero, so that nothing is left to take off when the third message fails: its
13 bytes are not returned. -/
theorem wrapped_sum_keeps_credit : ∃ tr s, Machine.Run systemMachine sharedStart tr s ∧
    Failed tr s 2 ∧ ¬ NoTrace tr s 2 := by
  -- the estimate of the message is known, and so not evaluated
  have hsize : ((systemMachine.exec sharedStart thirdWithAnother).bufferAt 2).buf.addSize
      (sharedPayload (2 ^ 64 - 269)) = 2 ^ 64 - 269 := by
    unfold addSize
    rw [if_pos (by decide +kernel)]
    exact sharedPayload_size (by norm_num) (by norm_num)
  have hcall := callAdd_next none 0 (by decide +kernel) hsize
  have hstart : Machine.Run systemMachine sharedStart _ _ :=
    Machine.run_exec thirdWithAnother (by decide +kernel)
  have hstep := Machine.Run.step (.callAdd 2 (sharedPayload (2 ^ 64 - 269)) none 0) hstart
    (by decide +kernel)
  rw [hcall] at hstep
  have hrun := Machine.Run.step (.cancel 2)
    (hstep.append [.tryAdd 3, .timeout 2] (by decide +kernel)) (by decide +kernel)
  refine ⟨_, _, hrun, ⟨by decide +kernel, by decide +kernel, by decide +kernel⟩, fun hno => ?_⟩
  have hback := (hno.refunded _ (List.mem_append_right _ List.mem_cons_self) rfl 0
    (by decide +kernel) (by decide +kernel)).bytes
  exact absurd hback (by decide +kernel)

end UspClient
