import UspClient.Buffer.Meter
import UspClient.Buffer.Release

/-!
# Acknowledgement is exact

`Ack` is given any 64-bit number: a stale one, a future one, one that wrapped, a forged
one. In every reachable state it changes nothing at all, or it removes the slots up to
that number, which were delivered, and the retired slots right behind them.

A number outside the buffer is accepted without effect if it is one of the last 64 that
were released locally. The ring that remembers them is related to the history of the run:
`released tr` lists the numbers of the slots that left other than by an `Ack`.
-/

namespace UspClient

open Word64 Replay AckBuffer

/-! ## The ring of released numbers -/

namespace ReleasedRetiredRing

variable {r : ReleasedRetiredRing} {l : List Nat} {x : Nat}

/-- The ring holds the last numbers of `l`, each at its position modulo the size. -/
structure Remembers (r : ReleasedRetiredRing) (l : List Nat) : Prop where
  length : r.seqs.length = releasedRetiredMemory
  n : r.n = min l.length releasedRetiredMemory
  next : r.next = l.length % releasedRetiredMemory
  seqs : ∀ (i : Nat) x, l[i]? = some x → l.length ≤ i + releasedRetiredMemory →
    r.seqs[i % releasedRetiredMemory]? = some x

theorem remembers_nil : Remembers {} [] := by
  constructor <;> simp [releasedRetiredMemory]

theorem Remembers.add (h : Remembers r l) (x : Nat) : Remembers (r.add x) (l ++ [x]) := by
  have hpos : 0 < releasedRetiredMemory := by decide
  have hlen : (l ++ [x]).length = l.length + 1 := by simp
  constructor
  · show (r.seqs.set r.next x).length = _
    rw [List.length_set, h.length]
  · show (if r.n < releasedRetiredMemory then r.n + 1 else r.n) = _
    rw [hlen, h.n]
    split_ifs <;> omega
  · show (r.next + 1) % releasedRetiredMemory = _
    rw [hlen, h.next, Nat.mod_add_mod]
  · intro i y hy hi
    rw [hlen] at hi
    show (r.seqs.set r.next x)[i % releasedRetiredMemory]? = some y
    rw [h.next, List.getElem?_set, h.length]
    rcases getElem?_snoc hy with hold | ⟨rfl, rfl⟩
    · -- two of the last 64 positions never share a place
      have hlt := (List.getElem?_eq_some_iff.1 hold).1
      have hne : l.length % releasedRetiredMemory ≠ i % releasedRetiredMemory := by
        unfold releasedRetiredMemory at hi ⊢
        omega
      rw [if_neg hne]
      exact h.seqs i y hold (by omega)
    · rw [if_pos rfl, if_pos (Nat.mod_lt _ hpos)]

theorem Remembers.foldl (h : Remembers r l) (g : Nat → Nat) (n : Nat) :
    Remembers ((List.range n).foldl (fun r i => r.add (g i)) r) (l ++ (List.range n).map g) := by
  induction n with
  | zero => simpa using h
  | succ n ih =>
    rw [List.range_succ, List.foldl_append, List.map_append, ← List.append_assoc]
    exact ih.add (g n)

/-- `has` looks through the last 64 numbers. -/
theorem Remembers.has (h : Remembers r l) :
    r.has x = true ↔ x ∈ l.drop (l.length - releasedRetiredMemory) := by
  unfold ReleasedRetiredRing.has
  rw [List.contains_iff_mem, List.mem_iff_getElem?, List.mem_iff_getElem?]
  have hmem : releasedRetiredMemory = 64 := rfl
  constructor
  · rintro ⟨j, hj⟩
    have hjn : j < r.n := by
      have hlt := (List.getElem?_eq_some_iff.1 hj).1
      rw [List.length_take] at hlt
      omega
    rw [List.getElem?_take_of_lt hjn] at hj
    rw [h.n] at hjn
    -- the position in the history that has this place
    obtain ⟨i, hi, hilen, hij⟩ : ∃ i, i < l.length ∧ l.length ≤ i + releasedRetiredMemory ∧
        i % releasedRetiredMemory = j := by
      by_cases hsmall : l.length ≤ releasedRetiredMemory
      · exact ⟨j, by omega, by omega, Nat.mod_eq_of_lt (by omega)⟩
      · refine ⟨l.length - 1 - (l.length - 1 - j) % releasedRetiredMemory, ?_, ?_, ?_⟩ <;>
          rw [hmem] at * <;> omega
    obtain ⟨y, hy⟩ : ∃ y, l[i]? = some y := ⟨_, List.getElem?_eq_getElem hi⟩
    have hseq := h.seqs i y hy hilen
    rw [hij, hj] at hseq
    refine ⟨i - (l.length - releasedRetiredMemory), ?_⟩
    rw [List.getElem?_drop, show l.length - releasedRetiredMemory +
      (i - (l.length - releasedRetiredMemory)) = i by omega, hy, hseq]
  · rintro ⟨j, hj⟩
    rw [List.getElem?_drop] at hj
    have hlt := (List.getElem?_eq_some_iff.1 hj).1
    have hseq := h.seqs _ x hj (by omega)
    refine ⟨(l.length - releasedRetiredMemory + j) % releasedRetiredMemory, ?_⟩
    rw [List.getElem?_take_of_lt, hseq]
    rw [h.n]
    by_cases hsmall : l.length ≤ releasedRetiredMemory
    · rw [Nat.mod_eq_of_lt (by omega)]
      omega
    · have hmod := Nat.mod_lt (l.length - releasedRetiredMemory + j)
        (show 0 < releasedRetiredMemory by decide)
      omega

end ReleasedRetiredRing

namespace AckBuffer

variable {b b' : AckBuffer} {q : Queue Admission} {f : Frame Admission} {i j k : Nat}
variable {bb : ByteBudget} {l : List Nat}

/-- The buffer remembers the last numbers of `l`. -/
def Recalls (b : AckBuffer) (l : List Nat) : Prop := (b.releasedRetired.getD {}).Remembers l

theorem Recalls.congr (h : Recalls b l) (hr : b'.releasedRetired = b.releasedRetired) :
    Recalls b' l := by
  unfold Recalls
  rw [hr]
  exact h

theorem dropReceiptsLocked_releasedRetired (first index : Nat) (acknowledge : Bool) :
    (b.dropReceiptsLocked first index acknowledge).releasedRetired = b.releasedRetired := by
  have hun := congrArg releasedRetired (dropReceiptsLocked_unlisted (b := b) first index acknowledge)
  exact hun

theorem resetLoop_releasedRetired (fuel : Nat) (entry : Option EntryId) (b : AckBuffer)
    (bb : ByteBudget) : (resetLoop fuel entry b bb).1.releasedRetired = b.releasedRetired := by
  induction fuel generalizing entry b bb with
  | zero => rfl
  | succ fuel ih =>
    cases entry with
    | none => rfl
    | some x =>
      unfold resetLoop
      simp only
      rw [ih]
      split_ifs <;> rfl

/-- The numbers of the retired frames at the front. -/
def headNumbers (q : Queue Admission) : List Nat :=
  (List.range q.headRun).map fun j => (q.gone.length + j + 1) % 2 ^ 64

/-- The release of a retired head remembers the numbers it removes. -/
theorem Recalls.releaseRetiredHeadLocked (h : Recalls b l) (hs : Slots b q) (bb : ByteBudget) :
    Recalls (b.releaseRetiredHeadLocked bb).1 (l ++ headNumbers q) := by
  rcases hs.releaseRetiredHead_cases bb with ⟨hz, heq⟩ | ⟨hpos, heq⟩
  · rw [heq]
    unfold headNumbers
    rw [hz]
    simpa using h
  · have hring : (b.releaseRetiredHeadLocked bb).1.releasedRetired =
        some ((List.range q.headRun).foldl (fun r i => r.add (add64 b.firstSeqNum i))
          (b.releasedRetired.getD {})) := by
      rw [heq]
      exact dropReceiptsLocked_releasedRetired _ _ _
    have hnum : headNumbers q = (List.range q.headRun).map (add64 b.firstSeqNum) := by
      unfold headNumbers
      refine List.map_congr_left fun j _ => ?_
      rw [hs.first]
      unfold add64
      omega
    unfold Recalls
    rw [hring, hnum]
    exact ReleasedRetiredRing.Remembers.foldl h (add64 b.firstSeqNum) q.headRun

theorem admitLocked_releasedRetired (e : DataMessage) (size : Nat) (overshot : Bool)
    (receipt : Option ReceiptId) (n : Nat) :
    (b.admitLocked e size overshot receipt n).releasedRetired = b.releasedRetired := by
  unfold admitLocked track
  cases receipt <;> rfl

theorem updateCapacity_releasedRetired (c : Nat) :
    (b.updateCapacity c).releasedRetired = b.releasedRetired := by
  unfold updateCapacity
  split_ifs <;> rfl

theorem drainSection_releasedRetired (first ctxDone : Bool) :
    (b.drainSection first ctxDone).1.releasedRetired = b.releasedRetired := by
  have hround : ∀ b : AckBuffer, (b.drainRound ctxDone).1.releasedRetired = b.releasedRetired := by
    intro b
    unfold drainRound
    split_ifs
    · rfl
    · cases b.drainReason ctxDone <;> rfl
  unfold drainSection
  split_ifs
  · exact hround _
  · exact hround _

end AckBuffer

/-- How many slots the `Ack` of the step asked to remove. -/
def LifeStep.acked (st : LifeStep) : Nat :=
  match st.act.op with
  | .call (.ack seq) => sub64 seq.toNat st.pre.buf.firstSeqNum + 1
  | _ => 0

/-- The sequence numbers of the slots that left in the step, except those its `Ack` asked
to remove. -/
def LifeStep.released (st : LifeStep) : List Nat :=
  (List.range (st.post.gone - (st.pre.gone + LifeStep.acked st))).map fun j =>
    (st.pre.gone + LifeStep.acked st + j + 1) % 2 ^ 64

/-- The sequence numbers `releaseRetiredHeadLocked` released in a run, in order. -/
def released (tr : List LifeStep) : List Nat := tr.flatMap LifeStep.released

namespace BufferState

variable {s s' s₀ : BufferState} {q q' : Queue Admission} {k : Nat} {a : LifeAct}
variable {tr : List LifeStep} {l : List Nat}

/-- A step in which no slot leaves. -/
theorem released_nil (hgone : s'.gone = s.gone) : LifeStep.released ⟨s, a, s'⟩ = [] := by
  unfold LifeStep.released
  simp only [hgone]
  rw [show s.gone - (s.gone + _) = 0 by omega]
  rfl

theorem addRound_releasedRetired (b : AckBuffer) (bb : ByteBudget) (e : DataMessage) (size : Nat)
    (waiter : Option WaiterId) (receipt : Option ReceiptId) (n : Nat) :
    (b.addRound bb e size waiter receipt n).1.buf.releasedRetired = b.releasedRetired := by
  obtain ⟨r, hstep, hr⟩ := addRound_buf b bb e size waiter receipt n
  have hbuf : (b.addRound bb e size waiter receipt n).1.buf.releasedRetired =
      r.buf.releasedRetired := by
    rcases hr with heq | ⟨-, heq⟩
    · rw [heq]
    · rw [heq]
      rfl
  rw [hbuf]
  cases hstep with
  | refused => rfl
  | admitted => exact admitLocked_releasedRetired _ _ _ _ _

theorem length_gone_trim (q : Queue Admission) :
    q.trim.gone.length = q.gone.length + q.headRun :=
  Queue.length_gone_remove q.headRun_le_length

/-- A step that ends with the release of the retired frames at the front of `q₁`. -/
theorem released_headNumbers (q₁ : Queue Admission)
    (hacked : s.gone + LifeStep.acked ⟨s, a, s'⟩ = q₁.gone.length)
    (hgone : s'.gone = q₁.gone.length + q₁.headRun) :
    LifeStep.released ⟨s, a, s'⟩ = headNumbers q₁ := by
  unfold LifeStep.released headNumbers
  simp only
  rw [hacked, hgone, Nat.add_sub_cancel_left]

/-- An `Ack` remembers what it released beyond its own prefix. -/
theorem recalls_ack (h : Life s q) (hr : Recalls s.buf l) (bb : ByteBudget)
    (seq : UInt64) :
    Recalls (s.apply bb (.ack seq)).1.buf (l ++ LifeStep.released
      ⟨s, ⟨bb, .call (.ack seq)⟩, (s.apply bb (.ack seq)).1⟩) := by
  have hack := ack_step s.buf bb seq.toNat
  have hbuf : (s.apply bb (.ack seq)).1.buf = (s.buf.ack bb seq.toNat).1 := rfl
  have hlog : (s.apply bb (.ack seq)).1.log = s.log := rfl
  generalize (s.apply bb (.ack seq)).1 = s' at hbuf hlog ⊢
  -- a call that changes nothing releases nothing
  have hsame : s'.buf = s.buf → Recalls s'.buf (l ++ LifeStep.released
      ⟨s, ⟨bb, .call (.ack seq)⟩, s'⟩) := by
    intro heq
    rw [released_nil (by unfold gone; rw [heq, hlog]), List.append_nil, heq]
    exact hr
  generalize hres : s.buf.ack bb seq.toNat = r at hack hbuf
  cases hack with
  | rejected | late => exact hsame hbuf
  | removed hfree hdel =>
    obtain ⟨i, hi⟩ : ∃ i, sub64 seq.toNat s.buf.firstSeqNum = i := ⟨_, rfl⟩
    rw [hi] at hfree hbuf
    have hwin : i < q.window.length := by
      rw [← h.held.shape.slots.free]
      exact hfree
    -- only the second removal feeds the ring
    have hs := (h.held.shape.slots.removePrefixLocked bb hwin fun f => Frame.confirm_item).congr
      (dropReceiptsLocked_slotView s.buf.firstSeqNum i true)
    have hr₁ : Recalls ((s.buf.removePrefixLocked bb i).1.dropReceiptsLocked
        s.buf.firstSeqNum i true) l :=
      hr.congr (dropReceiptsLocked_releasedRetired _ _ _)
    have hheld' : Held s' (q.ack i) := by
      refine ⟨?_, ?_⟩
      · rw [hbuf]
        exact h.held.shape.ackRemove bb hwin
      · rw [Queue.items_ack, h.items, hlog]
    have hlen : (q.remove (i + 1) Frame.confirm).gone.length = q.gone.length + (i + 1) :=
      Queue.length_gone_remove hwin
    rw [released_headNumbers (q.remove (i + 1) Frame.confirm) ?_ ?_, hbuf]
    · exact hr₁.releaseRetiredHeadLocked hs _
    · rw [hlen, h.held.gone_eq]
      show q.gone.length + (sub64 seq.toNat s.buf.firstSeqNum + 1) = _
      rw [hi]
    · rw [hheld'.gone_eq]
      exact length_gone_trim _

/-- A reset remembers what it released. -/
theorem recalls_reset (h : Life s q) (hr : Recalls s.buf l) (bb : ByteBudget) :
    Recalls (s.apply bb .resetDelivery).1.buf (l ++ LifeStep.released
      ⟨s, ⟨bb, .call .resetDelivery⟩, (s.apply bb .resetDelivery).1⟩) := by
  have hgone := h.held.gone_eq
  rcases h.phase with href | hdet
  · obtain ⟨hs, -, -⟩ := href.resetLoop bb (keptByRetire_moves (s.buf, bb, q))
      (Move.idle s.buf s.buf.rewound bb q { q with next := 0 } rfl rfl rfl).moves
    have hr₁ : Recalls (resetLoop s.buf.nextEntry s.buf.receiptHead
        s.buf.rewound bb).1 l := hr.congr (resetLoop_releasedRetired _ _ _ _)
    have hheld' : Held (s.apply bb .resetDelivery).1 q.reset := by
      refine ⟨(href.resetDelivery bb).1.shape, ?_⟩
      rw [Queue.items_reset, h.items]
      rfl
    rw [released_headNumbers (Queue.expireAll { q with next := 0 }) ?_ ?_]
    · exact (hr₁.releaseRetiredHeadLocked hs _).congr rfl
    · exact hgone
    · rw [hheld'.gone_eq]
      exact length_gone_trim _
  · have hheld' : Held (s.apply bb .resetDelivery).1 { q with next := 0 } :=
      ⟨(hdet.resetDelivery bb).toShape, h.items⟩
    rw [released_nil (by rw [hheld'.gone_eq, hgone]), List.append_nil]
    refine hr.congr ?_
    show (s.buf.resetDelivery bb).1.releasedRetired = _
    rw [hdet.resetDelivery_eq]
    rfl

/-- No slot leaves except by an `Ack` or a reset. -/
theorem LifeMove.gone_eq (h : LifeMove s q a s' q') (hack : ∀ seq, a.op ≠ .call (.ack seq))
    (hreset : a.op ≠ .call .resetDelivery) : q'.gone = q.gone := by
  cases h with
  | call op _ hop hstep =>
    cases hstep with
    | same => rfl
    | push => rfl
    | deliver =>
      unfold Queue.deliver
      split_ifs <;> rfl
    | ack seq _ _ hop' =>
      simp only at hop'
      exact absurd (hop.trans (congrArg LifeOp.call hop')) (hack seq)
    | reset _ _ hop' =>
      simp only at hop'
      exact absurd (hop.trans (congrArg LifeOp.call hop')) hreset
  | rewind => rfl
  | release => rfl

/-- Every call keeps the ring up to date. -/
theorem Life.recalls (h : Life s q) (hr : Recalls s.buf l)
    (hmove : LifeMove s q a (lifeMachine.next s a) q') (hlife : Life (lifeMachine.next s a) q') :
    Recalls (lifeMachine.next s a).buf
      (l ++ LifeStep.released ⟨s, a, lifeMachine.next s a⟩) := by
  -- a call that releases nothing and leaves the ring alone
  have hquiet : (∀ seq, a.op ≠ .call (.ack seq)) → a.op ≠ .call .resetDelivery →
      (lifeMachine.next s a).buf.releasedRetired = s.buf.releasedRetired →
      Recalls (lifeMachine.next s a).buf
        (l ++ LifeStep.released ⟨s, a, lifeMachine.next s a⟩) := by
    intro hack hreset hring
    rw [released_nil, List.append_nil]
    · exact hr.congr hring
    · rw [hlife.held.gone_eq, h.held.gone_eq, hmove.gone_eq hack hreset]
  obtain ⟨bb, op⟩ := a
  cases op with
  | releaseReceiptTracking => exact hquiet (fun _ => LifeOp.noConfusion) LifeOp.noConfusion rfl
  | call op =>
    cases op with
    | ack seq => exact recalls_ack h hr bb seq
    | resetDelivery => exact recalls_reset h hr bb
    | add e size waiter receipt m =>
      exact hquiet (by simp) (by simp) (addRound_releasedRetired _ _ _ _ _ _ _)
    | getNextToDeliver =>
      refine hquiet (by simp) (by simp) ?_
      have hrest := congrArg releasedRetired
        (getNextToDeliver_atRest (h.not_fenced bb))
      exact hrest
    | updateCapacity c =>
      exact hquiet (by simp) (by simp) (updateCapacity_releasedRetired _)
    | beginDrain | close => exact hquiet (by simp) (by simp) rfl
    | drain first ctxDone =>
      exact hquiet (by simp) (by simp) (drainSection_releasedRetired _ _)

/-- The queue and the ring of a run. -/
theorem recalls_of_run (hf : FreshBuffer s₀) (hrun : Machine.Run lifeMachine s₀ tr s) :
    ∃ q, Life s q ∧ Recalls s.buf (released tr) := by
  refine hrun.history (fun tr s => ∃ q, Life s q ∧ Recalls s.buf (released tr)) ?_ ?_
  · refine ⟨_, FreshBuffer.life hf, ?_⟩
    obtain ⟨o, bb, hnew⟩ := hf.new
    obtain ⟨group, hbuf⟩ := newAckBuffer_eq hnew
    rw [hbuf]
    exact ReleasedRetiredRing.remembers_nil
  · rintro tr s a hg ⟨q, hlife, hr⟩
    obtain ⟨q', hmove, hlife'⟩ := hlife.step hg
    refine ⟨q', hlife', ?_⟩
    have happ : released (tr ++ [⟨s, a, lifeMachine.next s a⟩]) =
        released tr ++ LifeStep.released ⟨s, a, lifeMachine.next s a⟩ := by
      unfold released
      rw [List.flatMap_append, List.flatMap_cons, List.flatMap_nil, List.append_nil]
    rw [happ]
    exact hlife.recalls hr hmove hlife'

end BufferState

/-! ## What an accepted acknowledgement removes -/

/-- The slots `0..i` of `b` were removed, and the `run` retired slots behind them, which
are followed by no other retired one. What is left is as it was. -/
structure AckBuffer.Removed (b b' : AckBuffer) (i run : Nat) : Prop where
  bound : i + run < b.nextIndexFree
  retired : ∀ j, i < j → j ≤ i + run → b.slotRetired j = true
  maximal : i + run + 1 < b.nextIndexFree → b.slotRetired (i + run + 1) = false
  free : b'.nextIndexFree = b.nextIndexFree - (i + run + 1)
  /-- Every remaining slot keeps its message and its sequence number. -/
  slots : ∀ j < b'.nextIndexFree, b'.buff[j]? = b.buff[i + run + 1 + j]? ∧
    add64 b'.firstSeqNum j = add64 b.firstSeqNum (i + run + 1 + j) ∧
    b'.slotRetired j = b.slotRetired (i + run + 1 + j)
  /-- It is delivered exactly if it was. -/
  delivered : ∀ j < b'.nextIndexFree,
    (j < b'.nextIndexToDeliver ↔ i + run + 1 + j < b.nextIndexToDeliver)
  /-- It keeps its byte charge. -/
  charges : b.accounting = true → b'.sizes = b.sizes.drop (i + run + 1)

/-- The charges of the slots `0..i` of `b` went back, with the escape if it was there. The `run`
retired slots behind them had given theirs back before. -/
structure AckBuffer.Refunded (b : AckBuffer) (bb : ByteBudget) (b' : AckBuffer) (bb' : ByteBudget)
    (i run : Nat) : Prop where
  bytes : b'.bytes =
    if b.accounting then b.bytes - min (sum64 (b.sizes.take (i + 1))) b.bytes else b.bytes
  escape : b'.escapeBytes =
    if b.accounting && decide (sub64 b.escapeSeq b.firstSeqNum ≤ i + run) then 0 else b.escapeBytes
  budget : bb' = if b.accounting then
    b.releaseShared bb (min (sum64 (b.sizes.take (i + 1))) b.bytes)
      (if sub64 b.escapeSeq b.firstSeqNum ≤ i then b.escapeBytes else 0) else bb

namespace AckBuffer

variable {b b' : AckBuffer} {q : Queue Admission} {f : Frame Admission} {i j : Nat}

theorem Slots.getElem? (h : Slots b q) (hf : q.window[j]? = some f) :
    b.buff[j]? = some (slot f) := by
  have hslot : (q.window.map slot)[j]? = some (slot f) := by
    rw [List.getElem?_map, hf]
    rfl
  obtain ⟨r, hr⟩ := h.buff
  rw [hr, List.getElem?_append_left (List.getElem?_eq_some_iff.1 hslot).1, hslot]

theorem dropReceiptsLocked_accounting (first index : Nat) (acknowledge : Bool) :
    (b.dropReceiptsLocked first index acknowledge).accounting = b.accounting := by
  have hun := congrArg accounting (dropReceiptsLocked_unlisted (b := b) first index acknowledge)
  exact hun

theorem releaseRetiredHeadLocked_accounting (bb : ByteBudget) :
    (b.releaseRetiredHeadLocked bb).1.accounting = b.accounting := by
  unfold releaseRetiredHeadLocked
  simp only
  split_ifs
  · rfl
  · rfl
  · exact dropReceiptsLocked_accounting _ _ _

theorem ackRemove_accounting (bb : ByteBudget) (i : Nat) :
    (b.ackRemove bb i).1.accounting = b.accounting :=
  (releaseRetiredHeadLocked_accounting _).trans (dropReceiptsLocked_accounting _ _ _)

/-- The retired frames at the front are followed by a frame that is not retired. -/
theorem headRun_maximal (hf : q.window[q.headRun]? = some f) : f.retired = false := by
  refine Queue.trimmed_trim (q := q) f ?_
  show (q.window.drop q.headRun).head? = some f
  rw [List.head?_drop, hf]

theorem headRun_retired_at (hf : q.window[j]? = some f) (hj : j < q.headRun) :
    f.retired = true := by
  have hmem : f ∈ q.window.take q.headRun := by
    refine List.mem_of_getElem? (i := j) ?_
    rw [List.getElem?_take_of_lt hj, hf]
  exact decide_eq_true (Queue.headRun_retired hmem)

/-- Slots that follow an acknowledgement of the queue show what was removed. -/
theorem Slots.removed (h : Slots b q) (h' : Slots b' (q.ack i)) (hi : i < q.window.length)
    (hacc : b'.accounting = b.accounting) :
    b.Removed b' i (q.remove (i + 1) Frame.confirm).headRun := by
  obtain ⟨q₁, hq₁⟩ : ∃ q₁, q.remove (i + 1) Frame.confirm = q₁ := ⟨_, rfl⟩
  have hwin₁ : q₁.window = q.window.drop (i + 1) := by rw [← hq₁]; rfl
  have hack : q.ack i = q₁.trim := congrArg Queue.trim hq₁
  rw [hq₁]
  obtain ⟨run, hrun⟩ : ∃ run, q₁.headRun = run := ⟨_, rfl⟩
  have hle : run ≤ q.window.length - (i + 1) := by
    have hlen := q₁.headRun_le_length
    rwa [hwin₁, List.length_drop, hrun] at hlen
  -- the window and the delivery index after both removals
  have hwin : (q.ack i).window = q.window.drop (i + run + 1) := by
    rw [hack, ← hrun]
    show q₁.window.drop q₁.headRun = _
    rw [hwin₁, List.drop_drop]
    congr 1
    omega
  have hnext : (q.ack i).next = q.next - (i + run + 1) := by
    rw [hack, ← hrun]
    show q₁.next - q₁.headRun = _
    rw [show q₁.next = q.next - (i + 1) by rw [← hq₁]; rfl]
    omega
  have hfree : b'.nextIndexFree = q.window.length - (i + run + 1) := by
    rw [h'.free, hwin, List.length_drop]
  rw [hrun]
  constructor
  · rw [h.free]
    omega
  · -- what is removed behind the acknowledged slot is retired
    intro j hj hjrun
    obtain ⟨f, hf⟩ : ∃ f, q.window[j]? = some f := ⟨_, List.getElem?_eq_getElem (by omega)⟩
    rw [h.slotRetired hf]
    refine headRun_retired_at (q := q₁) (j := j - (i + 1)) ?_ (by omega)
    rw [hwin₁, List.getElem?_drop, show i + 1 + (j - (i + 1)) = j by omega, hf]
  · -- the slot behind the removed ones is not retired
    intro hlt
    rw [h.free] at hlt
    obtain ⟨f, hf⟩ : ∃ f, q.window[i + run + 1]? = some f :=
      ⟨_, List.getElem?_eq_getElem hlt⟩
    rw [h.slotRetired hf]
    refine headRun_maximal (q := q₁) ?_
    rw [hrun, hwin₁, List.getElem?_drop, show i + 1 + run = i + run + 1 by omega, hf]
  · rw [hfree, h.free]
  · -- the remaining slots moved to the front
    intro j hj
    rw [hfree] at hj
    obtain ⟨f, hf⟩ : ∃ f, q.window[i + run + 1 + j]? = some f :=
      ⟨_, List.getElem?_eq_getElem (by omega)⟩
    have hf' : (q.ack i).window[j]? = some f := by rw [hwin, List.getElem?_drop, hf]
    refine ⟨?_, ?_, ?_⟩
    · rw [h'.getElem? hf', h.getElem? hf]
    · rw [← h'.seq_at hf', ← h.seq_at hf]
    · rw [h'.slotRetired hf', h.slotRetired hf]
  · intro j _
    rw [h'.next, h.next, hnext]
    omega
  · intro hb
    rw [h'.sizes (hacc.trans hb), h.sizes hb, hwin, List.map_drop]

theorem removePrefixLocked_refunded (bb : ByteBudget) (i : Nat) :
    b.Refunded bb (b.removePrefixLocked bb i).1 (b.removePrefixLocked bb i).2 i 0 := by
  have hescape : (b.removePrefixLocked bb i).1.escapeBytes = if b.accounting &&
      decide (b.escapeBytes ≠ 0 ∧ sub64 b.escapeSeq b.firstSeqNum ≤ i) then 0
        else b.escapeBytes := rfl
  have hbudget : (b.removePrefixLocked bb i).2 = if b.accounting then
      b.releaseShared bb (min (sum64 (b.sizes.take (i + 1))) b.bytes)
        (if decide (b.escapeBytes ≠ 0 ∧ sub64 b.escapeSeq b.firstSeqNum ≤ i) then b.escapeBytes
          else 0) else bb := rfl
  -- without an escape both sides are zero
  by_cases hzero : b.escapeBytes = 0
  · refine ⟨rfl, ?_, ?_⟩
    · rw [hescape, hzero, ite_self, ite_self]
    · rw [hbudget, hzero, ite_self, ite_self]
  · have hgone : decide (b.escapeBytes ≠ 0 ∧ sub64 b.escapeSeq b.firstSeqNum ≤ i) =
        decide (sub64 b.escapeSeq b.firstSeqNum ≤ i) := decide_eq_decide.2 (and_iff_right hzero)
    rw [hgone] at hescape hbudget
    simp only [decide_eq_true_eq] at hbudget
    exact ⟨rfl, hescape, hbudget⟩

/-- The retired slots at the front hold no charge, so nothing is given back for them. -/
theorem Slots.releaseRetiredHead_refunded (hs : Slots b q) (bb : ByteBudget) :
    (b.releaseRetiredHeadLocked bb).1.bytes = b.bytes ∧ (b.releaseRetiredHeadLocked bb).2 = bb ∧
      (b.releaseRetiredHeadLocked bb).1.escapeBytes =
        if b.accounting && decide (sub64 b.escapeSeq b.firstSeqNum < q.headRun) then 0
        else b.escapeBytes := by
  rcases hs.releaseRetiredHead_cases bb with ⟨hzero, heq⟩ | ⟨hpos, heq⟩
  · rw [heq, hzero, decide_eq_false (Nat.not_lt_zero _), Bool.and_false]
    exact ⟨rfl, rfl, rfl⟩
  · have hfreed : b.accounting = true → sum64 (b.sizes.take q.headRun) = 0 := by
      intro hacc
      have hsum : ((q.window.map heldSize).take q.headRun).sum = 0 := by
        rw [← List.map_take]
        refine List.sum_eq_zero fun x hx => ?_
        obtain ⟨f, hf, rfl⟩ := List.mem_map.1 hx
        exact if_pos (decide_eq_true (Queue.headRun_retired hf))
      rw [hs.sizes hacc, sum64_eq (by rw [hsum]; decide), hsum]
    obtain ⟨hbytes, hescape, hbudget⟩ :=
      removePrefixLocked_refunded (b := b.remember q.headRun) bb (q.headRun - 1)
    rw [Nat.sub_add_cancel hpos] at hbytes hbudget
    have hdrop := dropReceiptsLocked_unlisted
      (b := ((b.remember q.headRun).removePrefixLocked bb (q.headRun - 1)).1) b.firstSeqNum
      (q.headRun - 1) false
    have hbytes' := congrArg bytes hdrop
    have hescape' := congrArg escapeBytes hdrop
    rw [heq]
    refine ⟨hbytes'.trans (hbytes.trans ?_), hbudget.trans ?_, hescape'.trans (hescape.trans ?_)⟩
    · show (if b.accounting then b.bytes - min (sum64 (b.sizes.take q.headRun)) b.bytes
        else b.bytes) = _
      split_ifs with hacc
      · rw [hfreed hacc, Nat.zero_min, Nat.sub_zero]
      · rfl
    · show (if b.accounting then b.releaseShared bb
        (min (sum64 (b.sizes.take q.headRun)) b.bytes) _ else bb) = bb
      split_ifs with hacc
      · rw [hfreed hacc, Nat.zero_min, releaseShared_zero]
      · rw [hfreed hacc, Nat.zero_min, releaseShared_zero]
      · rfl
    · show (if b.accounting && decide (sub64 b.escapeSeq b.firstSeqNum ≤ q.headRun - 1 + 0) then 0
        else b.escapeBytes) = _
      rw [decide_eq_decide.2 (show _ ↔ sub64 b.escapeSeq b.firstSeqNum < q.headRun by omega)]

/-- An accepted acknowledgement gives back the charges of its prefix. -/
theorem Slots.refunded (h : Slots b q) (bb : ByteBudget) (hi : i < q.window.length) :
    b.Refunded bb (b.ackRemove bb i).1 (b.ackRemove bb i).2 i
      (q.remove (i + 1) Frame.confirm).headRun := by
  obtain ⟨hbytes, hescape, hbudget⟩ := removePrefixLocked_refunded (b := b) bb i
  have hs := (h.removePrefixLocked bb hi fun f => Frame.confirm_item).congr
    (dropReceiptsLocked_slotView b.firstSeqNum i true)
  have hdrop := dropReceiptsLocked_unlisted (b := (b.removePrefixLocked bb i).1) b.firstSeqNum i true
  obtain ⟨hbytes', hbudget', hescape'⟩ := hs.releaseRetiredHead_refunded (b.removePrefixLocked bb i).2
  have hkept := congrArg (fun x : AckBuffer => if x.accounting && decide (sub64 x.escapeSeq
    x.firstSeqNum < (q.remove (i + 1) Frame.confirm).headRun) then 0 else x.escapeBytes) hdrop
  have hrun : (q.remove (i + 1) Frame.confirm).headRun ≤ q.window.length - (i + 1) := by
    have hlen := (q.remove (i + 1) Frame.confirm).headRun_le_length
    rwa [Queue.remove, List.length_drop] at hlen
  have hbound := lt_of_le_of_lt h.window_le h.bound
  -- the escape leaves with the prefix, or with the retired slots behind it
  have hnear : sub64 b.escapeSeq b.firstSeqNum ≤ i + (q.remove (i + 1) Frame.confirm).headRun ↔
      sub64 b.escapeSeq (add64 b.firstSeqNum (i + 1)) < (q.remove (i + 1) Frame.confirm).headRun ∨
        sub64 b.escapeSeq b.firstSeqNum ≤ i := by
    unfold add64 sub64
    omega
  refine ⟨hbytes'.trans ((congrArg bytes hdrop).trans hbytes),
    hescape'.trans (hkept.trans ?_), hbudget'.trans hbudget⟩
  show (if b.accounting && decide (sub64 b.escapeSeq (add64 b.firstSeqNum (i + 1)) < _) then 0
    else (b.removePrefixLocked bb i).1.escapeBytes) = _
  rw [hescape]
  cases b.accounting with
  | false => rfl
  | true => simp only [Bool.true_and, decide_eq_true_eq, Nat.add_zero, hnear, ite_or]

end AckBuffer

namespace BufferState

variable {s s₀ : BufferState} {tr : List LifeStep}

/-- The number is accepted without effect: it lies outside the buffer and is one of the
last 64 that were released locally. -/
def LateAck (s : BufferState) (tr : List LifeStep) (seq : Nat) : Prop :=
  s.buf.nextIndexFree ≤ sub64 seq s.buf.firstSeqNum ∧
    seq ∈ (released tr).drop ((released tr).length - releasedRetiredMemory)

/-- `Ack` changes nothing, or it removes exactly the slots up to its number and the retired
ones behind them, and gives back what was charged for them. -/
theorem ack_exact (hfresh : FreshBuffer s₀) (hrun : Machine.Run lifeMachine s₀ tr s)
    (bb : ByteBudget) (seq : UInt64) :
    let r := s.buf.ack bb seq.toNat
    (r.2.2 ≠ none → r.1 = s.buf ∧ r.2.1 = bb) ∧
    (r.2.2 = none →
      (r.1 = s.buf ∧ r.2.1 = bb ∧ LateAck s tr seq.toNat) ∨
        ∃ i run, seq.toNat = add64 s.buf.firstSeqNum i ∧ i < s.buf.nextIndexFree ∧
          (i < s.buf.nextIndexToDeliver ∨ i = 0 ∧ s.buf.nextIndexToDeliver = 0) ∧
          s.buf.Removed r.1 i run ∧ s.buf.Refunded bb r.1 r.2.1 i run) := by
  obtain ⟨q, hlife, hrecalls⟩ := recalls_of_run hfresh hrun
  intro r
  have hstep : AckStep s.buf bb seq.toNat r := ack_step s.buf bb seq.toNat
  clear_value r
  cases hstep with
  | rejected err => exact ⟨fun _ => ⟨rfl, rfl⟩, fun h => absurd h (Option.some_ne_none err)⟩
  | late hlate =>
    refine ⟨fun _ => ⟨rfl, rfl⟩, fun _ => .inl ⟨rfl, rfl, ?_⟩⟩
    unfold ackReleased at hlate
    unfold Recalls at hrecalls
    -- the ring answers for the latest released numbers
    cases hring : s.buf.releasedRetired with
    | none =>
      rw [hring] at hlate
      cases hlate
    | some r =>
      rw [hring] at hlate hrecalls
      simp only [Bool.and_eq_true, decide_eq_true_eq] at hlate
      exact ⟨hlate.1, hrecalls.has.1 hlate.2⟩
  | removed hfree hdel =>
    have hs := hlife.held.shape
    have hwin := hfree
    rw [hs.slots.free] at hwin
    refine ⟨fun h => absurd rfl h, fun _ => .inr ⟨_, _, ?_, hfree, hdel.imp id And.symm,
      hs.slots.removed (hs.ackRemove bb hwin).slots hwin ?_, hs.slots.refunded bb hwin⟩⟩
    · -- the index is the distance, so adding it gives the number back
      have hseq := seq.toNat_lt
      unfold add64 sub64
      omega
    · exact ackRemove_accounting bb _

/-- Two messages of 256 bytes, the second with limit one, are delivered and the connection is
reset, which retires the second and makes room for a third. The acknowledgement of the first then
removes both, and the third stays charged. -/
theorem retired_second_removed :
    let s := lifeMachine.exec smallBuffer [solo (.updateCapacity 4),
      solo (.add {} 256 none none 0), solo (.add {} 256 none (some 0) 1), solo .getNextToDeliver,
      solo .getNextToDeliver, solo .resetDelivery, solo (.add {} 256 none none 0),
      solo .getNextToDeliver]
    s.buf.sizes = [256, 0, 256] ∧ s.buf.bytes = 512 ∧
      ∃ i run, s.buf.Removed (s.buf.ack (newByteBudget 0) 1).1 i run ∧
        (s.buf.ack (newByteBudget 0) 1).1.sizes = [256] ∧
        (s.buf.ack (newByteBudget 0) 1).1.bytes = 256 := by
  intro s
  have hexact := (ack_exact smallBuffer_fresh (Machine.run_exec _ (by decide +kernel) : Machine.Run
    lifeMachine smallBuffer _ s) (newByteBudget 0) 1).2 (by decide +kernel)
  refine ⟨by decide +kernel, by decide +kernel, ?_⟩
  rcases hexact with ⟨-, -, hlate, -⟩ | ⟨i, run, -, -, -, hrem, -⟩
  · exact absurd hlate (by decide +kernel)
  · exact ⟨i, run, hrem, by decide +kernel, by decide +kernel⟩

end BufferState

end UspClient
