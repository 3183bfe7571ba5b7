import UspClient.Buffer.Delivery

/-!
# Receipts tell the truth

`ShipWithReceiptOptions` makes a cell for each call, so no two admissions share one
(`OwnCells`). The cell of a tracked frame then reads what became of the frame
(`Cells`): retained while it is live, acknowledged once an `Ack` confirmed it, retired
once a reset retired it. Only three things write a cell: admission, the compare-and-swap
of an `Ack` on the entries of the removed prefix, and retirement.

* `receipts_true`: over every run before `releaseReceiptTracking`, every cell reads the
  class of its frame, final states are never overwritten, an `Ack` that removes nothing
  changes no cell, and the release of a retired head changes none either.
-/

namespace UspClient

open Function Word64 Replay AckBuffer BufferState

/-- No two admissions share a receipt cell. -/
def OwnCells (log : List Admission) : Prop :=
  ∀ (j k : Nat) a a' r, log[j]? = some a → log[k]? = some a' → a.receipt = some r →
    a'.receipt = some r → j = k

theorem OwnCells.append {log : List Admission} (h : OwnCells log) {a : Admission}
    (hnew : ∀ r, a.receipt = some r → ∀ x ∈ log, x.receipt ≠ some r) : OwnCells (log ++ [a]) := by
  intro j k x y r hx hy hxr hyr
  rcases getElem?_snoc hx with hold | ⟨hj, rfl⟩
  · rcases getElem?_snoc hy with hold' | ⟨hk, rfl⟩
    · exact h j k x y r hold hold' hxr hyr
    · exact absurd hxr (hnew r hyr x (List.mem_of_getElem? hold))
  · rcases getElem?_snoc hy with hold' | ⟨hk, rfl⟩
    · exact absurd hyr (hnew r hxr y (List.mem_of_getElem? hold'))
    · omega

namespace AckBuffer

variable {b b' b₀ : AckBuffer} {q : Queue Admission} {f : Frame Admission} {i k : Nat}
variable {bb : ByteBudget}

/-- What the cell of a frame reads. -/
def cell : Fate → ReceiptFrameState
  | .live => .retained
  | .confirmed => .acknowledged
  | .retired => .retired

/-- The compare-and-swap of an acknowledgement. -/
def ackCell (c : ReceiptFrameState) : ReceiptFrameState :=
  if c = .retained then .acknowledged else c

theorem ackCell_ackCell (c : ReceiptFrameState) : ackCell (ackCell c) = ackCell c := by
  cases c <;> rfl

theorem ackCell_cell : ackCell (cell f.fate) = cell f.confirm.fate := by
  rw [Frame.confirm_fate]
  cases f.fate <;> rfl

/-- The cells in `S` are acknowledged, the others keep their state. -/
def AcksCells (S : ReceiptId → Prop) (c c' : ReceiptId → ReceiptFrameState) : Prop :=
  ∀ r, (S r → c' r = ackCell (c r)) ∧ (¬ S r → c' r = c r)

/-- Every tracked frame and its cell. -/
def Cells (b : AckBuffer) (q : Queue Admission) : Prop :=
  ∀ (k : Nat) f r, q.frames[k]? = some f → f.item.receipt = some r → b.receiptAt r = cell f.fate

/-! ## Cells that are not written -/

theorem dropLoop_receiptAt (first index : Nat) (fuel : Nat) (b : AckBuffer) (removed : Bool) :
    (dropLoop first index false fuel b removed).1.receiptAt = b.receiptAt :=
  dropLoop_keep receiptAt (fun _ _ _ _ hcells => hcells rfl) first index fuel b removed

/-- After the loop only the ends of the list and the cursor are written. -/
theorem dropReceiptsLocked_receiptAt (first index : Nat) (acknowledge : Bool) :
    (b.dropReceiptsLocked first index acknowledge).receiptAt =
      (dropLoop first index acknowledge b.nextEntry b false).1.receiptAt := by
  unfold dropReceiptsLocked
  simp only
  split_ifs <;> rfl

/-- The local release of a retired head is no acknowledgement. -/
theorem releaseRetiredHeadLocked_receiptAt (b : AckBuffer) (bb : ByteBudget) :
    (b.releaseRetiredHeadLocked bb).1.receiptAt = b.receiptAt := by
  unfold releaseRetiredHeadLocked
  split_ifs with hempty
  · rfl
  · simp only
    split_ifs with hn
    · rfl
    · rw [dropReceiptsLocked_receiptAt, dropLoop_receiptAt]
      rfl

theorem updateCapacity_receiptAt (c : Nat) : (b.updateCapacity c).receiptAt = b.receiptAt := by
  unfold updateCapacity
  split_ifs <;> rfl

theorem drainRound_receiptAt (ctxDone : Bool) :
    (b.drainRound ctxDone).1.receiptAt = b.receiptAt := by
  unfold drainRound
  split_ifs
  · rfl
  · cases b.drainReason ctxDone <;> rfl

theorem drainSection_receiptAt (first ctxDone : Bool) :
    (b.drainSection first ctxDone).1.receiptAt = b.receiptAt := by
  unfold drainSection
  split_ifs
  · exact drainRound_receiptAt ctxDone
  · exact drainRound_receiptAt ctxDone

/-- What a delivery leaves alone. -/
def atRest (b : AckBuffer) : AckBuffer :=
  { b with
    deliverCursor := none, entryAt := fun _ => {}, nextIndexToDeliver := 0
    isReadyToDeliver := false, isEmpty := false }

theorem countSend_atRest (entry : Option EntryId) : (b.countSend entry).atRest = b.atRest := by
  unfold countSend
  cases b.limited entry <;> rfl

/-- A delivery that does not reach the fence only moves on. -/
theorem deliverLoop_atRest (fuel : Nat) (b : AckBuffer) (bb : ByteBudget)
    (h : (deliverLoop fuel b bb false).2.2.fenced = false) :
    (deliverLoop fuel b bb false).1.atRest = b.atRest := by
  induction fuel generalizing b bb with
  | zero => rfl
  | succ fuel ih =>
    unfold deliverLoop at h ⊢
    by_cases hlt : b.nextIndexToDeliver < b.nextIndexFree
    · rw [if_pos hlt] at h ⊢
      simp only at h ⊢
      obtain ⟨cursor, htake⟩ := takeCursor_eq (b := b) b.nextIndexToDeliver
      generalize b.takeCursor b.nextIndexToDeliver = r at h htake ⊢
      obtain ⟨b₁, entry⟩ := r
      simp only at h htake ⊢
      have hrest : b₁.atRest = b.atRest := by
        rw [htake]
        rfl
      by_cases hret : b₁.slotRetired b.nextIndexToDeliver = true
      · rw [if_pos hret] at h ⊢
        rw [ih _ _ h]
        exact hrest
      · rw [if_neg hret] at h ⊢
        cases hfence : b₁.fence entry with
        | some c =>
          simp only [hfence, deliverLoop_fenced] at h
          cases h
        | none => exact (countSend_atRest entry).trans hrest
    · rw [if_neg hlt]
      rfl

theorem getNextToDeliver_atRest (h : (b.getNextToDeliver bb).2.2.fenced = false) :
    (b.getNextToDeliver bb).1.atRest = b.atRest := by
  unfold getNextToDeliver at h ⊢
  split_ifs at h ⊢
  · rfl
  · exact deliverLoop_atRest _ _ _ h

theorem getNextToDeliver_receiptAt (h : (b.getNextToDeliver bb).2.2.fenced = false) :
    (b.getNextToDeliver bb).1.receiptAt = b.receiptAt := by
  have hrest := congrArg receiptAt (getNextToDeliver_atRest h)
  exact hrest

/-! ## The acknowledged cells -/

theorem takeOff_receiptAt (b : AckBuffer) (x : Nat) (r : ReceiptId) :
    (b.takeOff true x).receiptAt r =
      if (b.entryAt x).state = r then ackCell (b.receiptAt r) else b.receiptAt r := by
  show (if true && decide (b.receiptAt (b.entryAt x).state = .retained) then
    update b.receiptAt (b.entryAt x).state .acknowledged else b.receiptAt) r = _
  by_cases hr : (b.entryAt x).state = r
  · subst hr
    rw [if_pos rfl]
    unfold ackCell
    by_cases hret : b.receiptAt (b.entryAt x).state = .retained
    · simp [hret]
    · simp [hret]
  · rw [if_neg hr]
    split_ifs
    · exact update_of_ne (Ne.symm hr) _ _
    · rfl

/-- The loop acknowledges the cells of the entries it drops. -/
theorem Chain.dropLoop_cells (h : Chain b₀ q) {first : Nat}
    (hseq : ∀ (k : Nat) f, q.window[k]? = some f → sub64 f.item.stored.seqNum first = k) :
    AcksCells (fun r => ∃ y, trackedCount q.gone ≤ y ∧ y < entryOf q (i + 1) ∧
      (b₀.entryAt y).state = r) b₀.receiptAt
      (AckBuffer.dropLoop first i true b₀.nextEntry b₀ false).1.receiptAt := by
  refine (h.dropLoop hseq (fun x b _ => AcksCells (fun r => ∃ y, trackedCount q.gone ≤ y ∧ y < x ∧
    (b₀.entryAt y).state = r) b₀.receiptAt b.receiptAt) ?_ ?_).2
  · rintro x b - hx - hw hcells r
    obtain ⟨hin, hout⟩ := hcells r
    rw [takeOff_receiptAt, hw.rest x le_rfl]
    by_cases hex : ∃ y, trackedCount q.gone ≤ y ∧ y < x ∧ (b₀.entryAt y).state = r
    · -- acknowledged before: a second swap fails
      rw [hin hex, ackCell_ackCell, ite_self]
      obtain ⟨y, hy₁, hy₂, hy⟩ := hex
      exact ⟨fun _ => rfl, fun hno => absurd ⟨y, hy₁, by omega, hy⟩ hno⟩
    · rw [hout hex]
      by_cases hr : (b₀.entryAt x).state = r
      · rw [if_pos hr]
        exact ⟨fun _ => rfl, fun hno => absurd ⟨x, hx, by omega, hr⟩ hno⟩
      · rw [if_neg hr]
        refine ⟨?_, fun _ => rfl⟩
        rintro ⟨y, hy₁, hy₂, hy⟩
        rcases Nat.lt_succ_iff_lt_or_eq.1 hy₂ with hlt | rfl
        · exact absurd ⟨y, hy₁, hlt, hy⟩ hex
        · exact absurd hy hr
  · intro r
    refine ⟨?_, fun _ => rfl⟩
    rintro ⟨y, hy₁, hy₂, -⟩
    omega

/-- Dropping the entries of the first `i + 1` slots acknowledges their cells. -/
theorem Chain.ackReceiptsLocked_cells (h : Chain b q) (first : Nat)
    (hseq : ∀ (k : Nat) f, q.window[k]? = some f → sub64 f.item.stored.seqNum first = k) :
    AcksCells (fun r => ∃ (k : Nat) (f : Frame Admission), k ≤ i ∧ q.window[k]? = some f ∧
      f.item.receipt = some r) b.receiptAt (b.ackReceiptsLocked first i).receiptAt := by
  have hloop := h.dropLoop_cells (i := i) hseq
  -- the dropped entries are those of the tracked frames up to index `i`
  have hset : ∀ r, (∃ y, trackedCount q.gone ≤ y ∧ y < entryOf q (i + 1) ∧
      (b.entryAt y).state = r) ↔ ∃ (k : Nat) (f : Frame Admission), k ≤ i ∧ q.window[k]? = some f ∧
      f.item.receipt = some r := by
    intro r
    constructor
    · rintro ⟨y, h₁, h₂, rfl⟩
      obtain ⟨k, f, hf, ht, hk, he⟩ := h.frame_of h₁ (by have := h.entryOf_le (k := i + 1); omega)
      rw [← hk, lt_entryOf_iff hf ht] at h₂
      exact ⟨k, f, by omega, hf, he.receipt⟩
    · rintro ⟨k, f, hk, hf, hr⟩
      have ht : tracked f = true := by
        unfold tracked
        rw [hr]
        rfl
      have he := (h.entries k f hf ht).receipt
      rw [hr] at he
      exact ⟨entryOf q k, le_entryOf, (lt_entryOf_iff hf ht).2 (by omega),
        (Option.some.inj he).symm⟩
  intro r
  unfold ackReceiptsLocked
  rw [dropReceiptsLocked_receiptAt]
  obtain ⟨hin, hout⟩ := hloop r
  exact ⟨fun hr => hin ((hset r).2 hr), fun hr => hout (mt (hset r).1 hr)⟩

/-! ## What the methods do to the cells -/

theorem Cells.congr (h : Cells b q) (hr : b'.receiptAt = b.receiptAt) : Cells b' q := by
  intro k f r hf hfr
  rw [hr]
  exact h k f r hf hfr

theorem own_frames (hown : OwnCells q.items) {j k : Nat} {f g : Frame Admission} {r : ReceiptId}
    (hf : q.frames[j]? = some f) (hg : q.frames[k]? = some g) (hfr : f.item.receipt = some r)
    (hgr : g.item.receipt = some r) : j = k := by
  refine hown j k f.item g.item r ?_ ?_ hfr hgr
  · rw [Queue.items, List.getElem?_map, hf]
    rfl
  · rw [Queue.items, List.getElem?_map, hg]
    rfl

theorem frames_window (hf : q.window[k]? = some f) : q.frames[q.gone.length + k]? = some f := by
  rw [Queue.frames_getElem?_right (Nat.le_add_right _ _), Nat.add_sub_cancel_left]
  exact hf

/-- An accepted acknowledgement writes the cells of the frames it confirms. -/
theorem Cells.ackRemove (h : Cells b q) (href : Refines b q) (hown : OwnCells q.items)
    (bb : ByteBudget) : Cells (b.ackRemove bb i).1 (q.ack i) := by
  have hchain : Chain (b.removePrefixLocked bb i).1 q :=
    href.chain.congr (removePrefixLocked_receiptView bb)
  have hacks := hchain.ackReceiptsLocked_cells (i := i) b.firstSeqNum
    fun k f hf => href.slots.index_at hf
  have hcells : (b.ackRemove bb i).1.receiptAt =
      ((b.removePrefixLocked bb i).1.ackReceiptsLocked b.firstSeqNum i).receiptAt :=
    releaseRetiredHeadLocked_receiptAt _ _
  intro k f r hf hfr
  rw [hcells]
  obtain ⟨hin, hout⟩ := hacks r
  rw [Queue.frames_ack_getElem?] at hf
  obtain ⟨x, hx, rfl⟩ := Option.map_eq_some_iff.1 hf
  have hxr : x.item.receipt = some r := by
    split_ifs at hfr
    · rwa [Frame.confirm_item] at hfr
    · exact hfr
  have hold : b.receiptAt r = cell x.fate := h k x r hx hxr
  split_ifs with hstretch
  · -- the frame is in the removed prefix
    have hw : q.window[k - q.gone.length]? = some x := by
      rw [← Queue.frames_getElem?_right hstretch.1]
      exact hx
    rw [hin ⟨k - q.gone.length, x, by omega, hw, hxr⟩]
    show ackCell (b.receiptAt r) = _
    rw [hold, ackCell_cell]
  · -- no other frame has its cell
    rw [hout]
    · exact hold
    · rintro ⟨j, y, hj, hy, hyr⟩
      have hk := own_frames hown hx (frames_window hy) hxr hyr
      omega

/-- After one frame of the window changed, a frame is that one or as before. -/
theorem frames_modify {x : Frame Admission} {g : Frame Admission → Frame Admission}
    (hf : q.window[i]? = some f)
    (hx : ({ q with window := q.window.modify i g } : Queue Admission).frames[k]? = some x) :
    (k = q.gone.length + i ∧ x = g f) ∨ (k ≠ q.gone.length + i ∧ q.frames[k]? = some x) := by
  have hx' : (q.gone ++ q.window.modify i g)[k]? = some x := hx
  by_cases hk : k < q.gone.length
  · rw [List.getElem?_append_left hk] at hx'
    refine .inr ⟨by omega, ?_⟩
    rw [Queue.frames_getElem?_left hk]
    exact hx'
  · rw [List.getElem?_append_right (by omega), List.getElem?_modify] at hx'
    by_cases hki : i = k - q.gone.length
    · rw [← hki, hf] at hx'
      refine .inl ⟨by omega, ?_⟩
      simpa using hx'.symm
    · refine .inr ⟨by omega, ?_⟩
      rw [Queue.frames_getElem?_right (by omega)]
      simpa [hki] using hx'

/-- Retirement writes the cell of the frame. -/
theorem keptByRetire_cells : KeptByRetire fun c => OwnCells c.2.2.items ∧ Cells c.1 c.2.2 := by
  rintro b bb q i entry f hs hf hl he ⟨hown, hcells⟩
  have hitems : ({ q with window := q.window.modify i retire } : Queue Admission).items = q.items :=
    items_modify retire fun _ => rfl
  refine ⟨?_, ?_⟩
  · simp only [hitems]
    exact hown
  · intro k x r hx hxr
    show update b.receiptAt (b.entryAt entry).state .retired r = cell x.fate
    have hfi := frames_window hf
    have hfr := he.receipt
    rcases frames_modify hf hx with ⟨-, rfl⟩ | ⟨hk, hold⟩
    · have hr : r = (b.entryAt entry).state := by
        have hxr' : f.item.receipt = some r := hxr
        rw [hfr] at hxr'
        exact (Option.some.inj hxr').symm
      rw [hr, update_self]
      rfl
    · have hne : r ≠ (b.entryAt entry).state := by
        rintro rfl
        exact hk (own_frames hown hold hfi hxr hfr)
      rw [update_of_ne hne]
      exact hcells k x r hold hxr

theorem Cells.resetDelivery (h : Cells b q) (href : Refines b q) (hown : OwnCells q.items)
    (bb : ByteBudget) : Cells (b.resetDelivery bb).1 q.reset := by
  obtain ⟨-, -, -, hcells⟩ := href.resetLoop bb keptByRetire_cells ⟨hown, h⟩
  have hrelease : (b.resetDelivery bb).1.receiptAt =
      (resetLoop b.nextEntry b.receiptHead b.rewound bb).1.receiptAt :=
    releaseRetiredHeadLocked_receiptAt _ _
  intro k f r hf hfr
  rw [hrelease]
  refine hcells k f r ?_ hfr
  unfold Queue.reset at hf
  rwa [Queue.frames_trim] at hf

theorem track_receiptAt (seq : Nat) (receipt : Option ReceiptId) (maxTransmissions : Nat) :
    (b.track seq receipt maxTransmissions).receiptAt =
      match receipt with
      | some r => update b.receiptAt r .retained
      | none => b.receiptAt := by
  unfold track
  cases receipt <;> rfl

/-- Admission makes the cell of the new frame. -/
theorem Cells.admitLocked (h : Cells b q) {a : Admission}
    (hnew : ∀ r, a.receipt = some r → ∀ x ∈ q.items, x.receipt ≠ some r) :
    Cells (b.admitLocked a.stored a.size a.overshot a.receipt a.maxTransmissions)
      (q.push { item := a, limit := a.limit }) := by
  have hcells : (b.admitLocked a.stored a.size a.overshot a.receipt a.maxTransmissions).receiptAt =
      match a.receipt with
      | some r => update b.receiptAt r .retained
      | none => b.receiptAt := track_receiptAt _ _ _
  intro k f r hf hfr
  rw [hcells]
  rw [Queue.frames_push] at hf
  rcases getElem?_snoc hf with hold | ⟨-, rfl⟩
  · have hmem : f.item ∈ q.items := List.mem_map_of_mem (List.mem_of_getElem? hold)
    cases har : a.receipt with
    | none => exact h k f r hold hfr
    | some r' =>
      have hne : r ≠ r' := by
        rintro rfl
        exact hnew r har f.item hmem hfr
      show update b.receiptAt r' .retained r = _
      rw [update_of_ne hne]
      exact h k f r hold hfr
  · have hfr' : a.receipt = some r := hfr
    rw [hfr']
    exact update_self _ _ _

end AckBuffer

namespace BufferState

variable {s s₀ : BufferState} {q q' : Queue Admission} {a : BufferAct} {k : Nat} {r : ReceiptId}
variable {tr : List BufferStep} {st : BufferStep}

/-- The receipt cell of frame `k`, if it was admitted with one. -/
def receiptOf (s : BufferState) : Nat → Option ReceiptId
  | 0 => none
  | k + 1 => s.log[k]?.bind Admission.receipt

/-- The cell of an add is not the cell of an earlier admission: `ShipWithReceiptOptions`
makes one for each call. -/
def NewCell (s : BufferState) : BufferOp → Prop
  | .add _ _ _ (some r) _ => ∀ a ∈ s.log, a.receipt ≠ some r
  | _ => True

instance (s : BufferState) (op : BufferOp) : Decidable (s.NewCell op) := by
  unfold NewCell
  split <;> infer_instance

/-! ## Every call keeps the cells true -/

/-- An add that was refused writes no cell, one that was admitted makes its own. -/
theorem cells_add (h : Tracks s q) (hc : Cells s.buf q) (hown : OwnCells s.log)
    {bb : ByteBudget} {e : DataMessage} {size : Nat} {waiter : Option WaiterId}
    {receipt : Option ReceiptId} {m : UInt32} (hnew : s.NewCell (.add e size waiter receipt m))
    (hstep : QueueStep s q ⟨bb, .add e size waiter receipt m⟩
      (s.apply bb (.add e size waiter receipt m)).1 q') :
    Cells (s.apply bb (.add e size waiter receipt m)).1.buf q' ∧
      OwnCells (s.apply bb (.add e size waiter receipt m)).1.log := by
  -- the queue and the buffer have to agree on whether the message was admitted;
  -- the log decides it
  obtain ⟨r, htry, hr⟩ := addRound_buf s.buf bb e size waiter receipt m.toNat
  have hlog : (s.apply bb (.add e size waiter receipt m)).1.log = s.log ++
      ((s.buf.addRound bb e size waiter receipt m.toNat).1.admission e size receipt
        m.toNat).toList := rfl
  have hbuf : (s.apply bb (.add e size waiter receipt m)).1.buf =
      (s.buf.addRound bb e size waiter receipt m.toNat).1.buf := rfl
  generalize (s.apply bb (.add e size waiter receipt m)).1 = s' at hstep hlog hbuf ⊢
  generalize s.buf.addRound bb e size waiter receipt m.toNat = round at hr hlog hbuf
  obtain ⟨r', out⟩ := round
  simp only at hr hlog hbuf
  cases htry with
  | refused bb' w =>
    have hadm : r'.admission e size receipt m.toNat = none := by
      rcases hr with rfl | ⟨-, rfl⟩ <;> rfl
    have hcell : r'.buf.receiptAt = s.buf.receiptAt := by
      rcases hr with rfl | ⟨-, rfl⟩ <;> rfl
    rw [hadm, Option.toList_none, List.append_nil] at hlog
    rw [hlog, hbuf]
    refine ⟨?_, hown⟩
    cases hstep with
    | same => exact hc.congr hcell
    | push adm hpush => simp [hlog] at hpush
    | deliver _ hop | ack _ _ _ hop | reset _ _ hop => cases hop
  | admitted bb' flag overshot pressureStep forced havail hstamp =>
    rcases hr with rfl | ⟨hnone, -⟩
    · obtain ⟨adm, hadm⟩ : ∃ adm : Admission, adm =
          ⟨e, { e with seqNum := s.buf.nextSeqNum, ackRequested := flag }, size, receipt, m.toNat,
            overshot⟩ := ⟨_, rfl⟩
      have hlog' : s'.log = s.log ++ [adm] := by
        rw [hlog, hadm]
        rfl
      have hbuf' : s'.buf = s.buf.admitLocked adm.stored adm.size adm.overshot adm.receipt
          adm.maxTransmissions := by
        rw [hbuf, hadm]
      have hreceipt : adm.receipt = receipt := by rw [hadm]
      -- the cell of the new entry is not the cell of an old one
      have hfresh : ∀ r, adm.receipt = some r → ∀ x ∈ s.log, x.receipt ≠ some r := by
        intro r hr
        rw [hreceipt] at hr
        subst hr
        exact hnew
      refine ⟨?_, hlog' ▸ hown.append hfresh⟩
      cases hstep with
      | same hsame => simp [hlog'] at hsame
      | push adm' hpush =>
        rw [hlog'] at hpush
        obtain rfl : adm = adm' := by simpa using hpush
        rw [hbuf']
        exact hc.admitLocked (h.items ▸ hfresh)
      | deliver _ hop | ack _ _ _ hop | reset _ _ hop => cases hop
    · cases hnone

/-- A call that writes no cell and changes no fate. -/
theorem cells_of_same {s' : BufferState} (hc : Cells s.buf q) (hstep : QueueStep s q a s' q')
    (hcell : s'.buf.receiptAt = s.buf.receiptAt) (hlog : s'.log = s.log)
    (hreset : a.op ≠ .resetDelivery) (hack : ∀ seq, a.op ≠ .ack seq) :
    Cells s'.buf q' := by
  cases hstep with
  | same => exact hc.congr hcell
  | push adm hpush => simp [hlog] at hpush
  | deliver =>
    intro k f r hf hfr
    rw [hcell]
    rw [Queue.frames_deliver_getElem?] at hf
    obtain ⟨x, hx, rfl⟩ := Option.map_eq_some_iff.1 hf
    split_ifs at hfr ⊢
    · exact hc k x r hx hfr
    · exact hc k x r hx hfr
  | ack seq _ _ hop => exact absurd hop (hack seq)
  | reset _ _ hop => exact absurd hop hreset

theorem cells_ack (h : Tracks s q) (hc : Cells s.buf q) (hown : OwnCells s.log)
    {bb : ByteBudget} {seq : UInt64}
    (hstep : QueueStep s q ⟨bb, .ack seq⟩ (s.apply bb (.ack seq)).1 q') :
    Cells (s.apply bb (.ack seq)).1.buf q' := by
  have hbuf : (s.apply bb (.ack seq)).1.buf = (s.buf.ack bb seq.toNat).1 := rfl
  have hack := ack_step s.buf bb seq.toNat
  generalize (s.apply bb (.ack seq)).1 = s' at hstep hbuf ⊢
  cases hstep with
  | same _ _ _ hsame =>
    rw [hsame seq rfl]
    exact hc
  | push adm _ _ _ hop => exact absurd rfl (hop seq)
  | deliver _ hop | reset _ _ hop => cases hop
  | ack seq' _ _ hop hok hi =>
    obtain rfl : seq = seq' := by injection hop
    rw [hbuf]
    simp only at hok
    generalize s.buf.ack bb seq.toNat = r at hack hok ⊢
    cases hack with
    | rejected err => cases hok
    | late hlate =>
      -- a late acknowledgement is for a number outside the buffer
      exfalso
      unfold ackReleased at hlate
      cases hring : s.buf.releasedRetired with
      | none => simp [hring] at hlate
      | some ring =>
        simp only [hring, Bool.and_eq_true, decide_eq_true_eq] at hlate
        have hfree := h.refines.slots.free
        omega
    | removed hfree hdel => exact hc.ackRemove h.refines (h.items ▸ hown) bb

/-- Every call keeps the cells true. -/
theorem Tracks.cells (h : Tracks s q) (hc : Cells s.buf q) (hown : OwnCells s.log)
    (hnew : s.NewCell a.op) (hstep : QueueStep s q a (bufferMachine.next s a) q') :
    Cells (bufferMachine.next s a).buf q' ∧ OwnCells (bufferMachine.next s a).log := by
  obtain ⟨bb, op⟩ := a
  cases op with
  | add e size waiter receipt m => exact cells_add h hc hown hnew hstep
  | ack seq => exact ⟨cells_ack h hc hown hstep, hown⟩
  | resetDelivery =>
    refine ⟨?_, hown⟩
    cases hstep with
    | same _ _ hop | push _ _ _ hop => exact absurd rfl hop
    | deliver _ hop | ack _ _ _ hop => cases hop
    | reset => exact hc.resetDelivery h.refines (h.items ▸ hown) bb
  | getNextToDeliver =>
    have hcell : (bufferMachine.next s ⟨bb, .getNextToDeliver⟩).buf.receiptAt = s.buf.receiptAt :=
      getNextToDeliver_receiptAt (h.deliver bb).2
    exact ⟨cells_of_same hc hstep hcell rfl BufferOp.noConfusion fun _ => BufferOp.noConfusion, hown⟩
  | updateCapacity c =>
    exact ⟨cells_of_same hc hstep (updateCapacity_receiptAt _) rfl BufferOp.noConfusion
      fun _ => BufferOp.noConfusion, hown⟩
  | beginDrain | close =>
    exact ⟨cells_of_same hc hstep rfl rfl BufferOp.noConfusion fun _ => BufferOp.noConfusion, hown⟩
  | drain first ctxDone =>
    exact ⟨cells_of_same hc hstep (drainSection_receiptAt _ _) rfl BufferOp.noConfusion
      fun _ => BufferOp.noConfusion, hown⟩

/-- A cell and the class of its frame. -/
structure CellReads (tr : List BufferStep) (s : BufferState) (k : Nat) (r : ReceiptId) : Prop where
  retained : s.buf.receiptAt r = .retained ↔ s.Live k
  acknowledged : s.buf.receiptAt r = .acknowledged ↔ Confirmed tr k
  retired : s.buf.receiptAt r = .retired ↔ Retired tr k

theorem Chronicle.cellReads (h : Chronicle tr s q) (hc : Cells s.buf q)
    (hr : s.receiptOf k = some r) : CellReads tr s k r := by
  cases k with
  | zero => cases hr
  | succ k =>
    obtain ⟨adm, hadm, hrec⟩ := Option.bind_eq_some_iff.1 hr
    obtain ⟨f, hf⟩ := h.tracks.held.frame_at (List.getElem?_eq_some_iff.1 hadm).1
    have hitem := h.tracks.held.item_at hf
    rw [hadm] at hitem
    have hcell := hc k f r hf (by rw [← Option.some.inj hitem]; exact hrec)
    constructor
    · rw [hcell, h.tracks.held.live_iff hf]
      cases f.fate <;> simp [cell]
    · rw [hcell, h.confirmed_iff hf]
      cases f.fate <;> simp [cell]
    · rw [hcell, h.retired_iff hf]
      cases f.fate <;> simp [cell]

theorem FreshBuffer.cells (hf : FreshBuffer s) : Cells s.buf {} ∧ OwnCells s.log := by
  refine ⟨fun k f r hk _ => ?_, fun j k a a' r hj => ?_⟩
  · simp [Queue.frames] at hk
  · simp [hf.log] at hj

end BufferState

/-- Runs of one buffer in which every tracked add brings its own cell. -/
def receiptMachine : Machine BufferState BufferAct where
  guard s a := s.Sized a.op ∧ s.NewCell a.op
  next := bufferMachine.next

instance (s : BufferState) (a : BufferAct) : Decidable (receiptMachine.guard s a) :=
  inferInstanceAs (Decidable (_ ∧ _))

namespace BufferState

variable {s s₀ : BufferState} {tr : List BufferStep}

/-- The queue and the cells of a run. -/
theorem cells_of_run (hf : FreshBuffer s₀) (hrun : Machine.Run receiptMachine s₀ tr s) :
    ∃ q, Chronicle tr s q ∧ Cells s.buf q ∧ OwnCells s.log := by
  refine hrun.history (fun tr s => ∃ q, Chronicle tr s q ∧ Cells s.buf q ∧ OwnCells s.log)
    ⟨_, FreshBuffer.chronicle hf, FreshBuffer.cells hf⟩ ?_
  rintro tr s a ⟨-, hnew⟩ ⟨q, hchron, hc, hown⟩
  obtain ⟨q', hstep, hchron'⟩ := hchron.step a
  exact ⟨q', hchron', hchron.tracks.cells hc hown hnew hstep⟩

end BufferState

/-- What receipts promise about a run that ended in `s`. -/
structure ReceiptsTrue (tr : List BufferStep) (s : BufferState) : Prop where
  /-- Every cell reads what became of its frame. -/
  reads : ∀ k r, s.receiptOf k = some r → CellReads tr s k r
  /-- Acknowledged and retired are final. -/
  final : ∀ st ∈ tr, ∀ k r, st.pre.receiptOf k = some r →
    st.pre.buf.receiptAt r = .acknowledged ∨ st.pre.buf.receiptAt r = .retired →
    st.post.buf.receiptAt r = st.pre.buf.receiptAt r
  /-- Only an `Ack` whose prefix holds the live frame acknowledges its cell. -/
  acknowledged : ∀ st ∈ tr, ∀ k r, st.pre.receiptOf k = some r →
    st.pre.buf.receiptAt r ≠ .acknowledged → st.post.buf.receiptAt r = .acknowledged →
    BufferStep.Confirms st k
  /-- An `Ack` that fails, or that comes late for a released frame, writes no cell. -/
  noop : ∀ bb seq, (s.buf.ack bb seq).2.2 ≠ none ∨ s.buf.ackReleased seq = true →
    (s.buf.ack bb seq).1.receiptAt = s.buf.receiptAt
  /-- The local release of a retired head writes no cell. -/
  release : ∀ bb, (s.buf.releaseRetiredHeadLocked bb).1.receiptAt = s.buf.receiptAt

theorem receiptOf_log {s s' : BufferState} (hlog : s.log <+: s'.log) {k : Nat} {r : ReceiptId}
    (hr : s.receiptOf k = some r) : s'.receiptOf k = some r := by
  cases k with
  | zero => exact hr
  | succ k =>
    obtain ⟨adm, hadm, hrec⟩ := Option.bind_eq_some_iff.1 hr
    obtain ⟨l, hl⟩ := hlog
    refine Option.bind_eq_some_iff.2 ⟨adm, ?_, hrec⟩
    rw [← hl, List.getElem?_append_left (List.getElem?_eq_some_iff.1 hadm).1]
    exact hadm

/-- In every run of one buffer before `releaseReceiptTracking`, with any mix of tracked
and untracked admissions and any number of them, the receipts tell the truth. -/
theorem receipts_true {s₀ s : BufferState} {tr : List BufferStep} (hfresh : FreshBuffer s₀)
    (hrun : Machine.Run receiptMachine s₀ tr s) : ReceiptsTrue tr s := by
  obtain ⟨q, hq, hc, -⟩ := cells_of_run hfresh hrun
  -- the cells before a step of the run, and after it
  have hsteps : ∀ st ∈ tr, ∃ tr', ∀ k r, st.pre.receiptOf k = some r →
      CellReads tr' st.pre k r ∧ CellReads (tr' ++ [st]) st.post k r := by
    rintro ⟨pre, act, post⟩ hst
    obtain ⟨tr', hrun', hg, hpost, -⟩ := hrun.step_of_mem hst
    simp only at hrun' hg hpost
    subst hpost
    obtain ⟨q₁, h₁, hc₁, hown₁⟩ := cells_of_run hfresh hrun'
    obtain ⟨q₂, hstep, h₂⟩ := h₁.step act
    have hc₂ := (h₁.tracks.cells hc₁ hown₁ hg.2 hstep).1
    have hlog : pre.log <+: (bufferMachine.next pre act).log := by
      cases hstep with
      | same hlog | deliver hlog | ack _ hlog | reset hlog => rw [hlog]
      | push adm hlog => exact ⟨_, hlog.symm⟩
    exact ⟨tr', fun k r hr => ⟨h₁.cellReads hc₁ hr, h₂.cellReads hc₂ (receiptOf_log hlog hr)⟩⟩
  constructor
  · exact fun k r hr => hq.cellReads hc hr
  · intro st hst k r hr hfinal
    obtain ⟨tr', hcells⟩ := hsteps st hst
    obtain ⟨hpre, hpost⟩ := hcells k r hr
    rcases hfinal with hack | hret
    · obtain ⟨x, hx, hconf⟩ := hpre.acknowledged.1 hack
      rw [hack, hpost.acknowledged]
      exact ⟨x, List.mem_append_left _ hx, hconf⟩
    · obtain ⟨x, hx, hretd⟩ := hpre.retired.1 hret
      rw [hret, hpost.retired]
      exact ⟨x, List.mem_append_left _ hx, hretd⟩
  · intro st hst k r hr hnot hack
    obtain ⟨tr', hcells⟩ := hsteps st hst
    obtain ⟨hpre, hpost⟩ := hcells k r hr
    have hconf := Slice.exists_mem_append_singleton.1 (hpost.acknowledged.1 hack)
    exact hconf.resolve_left fun hold => hnot (hpre.acknowledged.2 hold)
  · intro bb seq hno
    have hstep := ack_step s.buf bb seq
    rcases hno with herr | hlate
    · generalize s.buf.ack bb seq = r at hstep herr ⊢
      cases hstep with
      | rejected err => rfl
      | late _ => rfl
      | removed _ _ => exact absurd rfl herr
    · unfold AckBuffer.ack
      rw [if_pos hlate]
  · exact fun bb => releaseRetiredHeadLocked_receiptAt s.buf bb

/-- Three tracked messages, the second with limit one. All are delivered, the first is
acknowledged, and the connection is reset: the third stays retained. -/
theorem three_receipts_true :
    (receiptMachine.exec plainBuffer [alone (.updateCapacity 4), alone (.add {} 0 none (some 0) 0),
      alone (.add {} 0 none (some 1) 1), alone (.add {} 0 none (some 2) 0),
      alone .getNextToDeliver, alone .getNextToDeliver, alone .getNextToDeliver, alone (.ack 1),
      alone .resetDelivery]).buf.receiptAt 2 = .retained :=
  ((receipts_true plainBuffer_fresh (Machine.run_exec _ (by decide +kernel))).reads 3 2
    (by decide +kernel)).retained.2 (by decide +kernel)

end UspClient
