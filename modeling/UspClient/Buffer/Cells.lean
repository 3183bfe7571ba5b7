import UspClient.Buffer.Meter
import UspClient.Buffer.Release

/-!
# Receipt cells over the whole life of a buffer

While the metadata is attached, the cell of a tracked frame says what became of it
(`Cells`). After the release no call writes a cell, so an acknowledgement that comes then
leaves it retained (`LateCells`). Over any run a cell changes at most once: an `Ack` or a
`ResetDelivery` finds it retained (`CellMove`).
-/

namespace UspClient

open Word64 Replay AckBuffer

namespace AckBuffer

variable {b : AckBuffer} {q : Queue Admission}

/-- The metadata is released, and adds are refused. -/
def Released (b : AckBuffer) : Prop := b.trackingView = (none, none, none, false)

/-- Cells after the release: an acknowledgement may have come too late to be written. -/
def LateCells (b : AckBuffer) (q : Queue Admission) : Prop :=
  ∀ (k : Nat) f r, q.frames[k]? = some f → f.item.receipt = some r →
    b.receiptAt r = cell f.fate ∨ (b.receiptAt r = .retained ∧ f.fate = .confirmed)

theorem Cells.late (h : Cells b q) : LateCells b q :=
  fun k f r hf hr => .inl (h k f r hf hr)

/-! ## After the release no cell is written -/

theorem dropReceiptsLocked_receiptAt_released (h : b.Released) (first index : Nat)
    (acknowledge : Bool) : (b.dropReceiptsLocked first index acknowledge).receiptAt = b.receiptAt := by
  have hhead : b.receiptHead = none := congrArg Prod.fst h
  rw [dropReceiptsLocked_receiptAt]
  cases b.nextEntry with
  | zero => rfl
  | succ n =>
    unfold dropLoop
    rw [hhead]

theorem ack_receiptAt_released (h : b.Released) (bb : ByteBudget) (seq : Nat) :
    (b.ack bb seq).1.receiptAt = b.receiptAt := by
  have hstep := ack_step b bb seq
  generalize b.ack bb seq = r at hstep ⊢
  cases hstep with
  | rejected err => rfl
  | late _ => rfl
  | removed hfree hdel =>
    have hrelease : (b.ackRemove bb (sub64 seq b.firstSeqNum)).1.receiptAt =
        ((b.removePrefixLocked bb (sub64 seq b.firstSeqNum)).1.ackReceiptsLocked b.firstSeqNum
          (sub64 seq b.firstSeqNum)).receiptAt := releaseRetiredHeadLocked_receiptAt _ _
    have hrel : (b.removePrefixLocked bb (sub64 seq b.firstSeqNum)).1.Released := h
    exact hrelease.trans (dropReceiptsLocked_receiptAt_released hrel _ _ _)

end AckBuffer

namespace BufferState

variable {s s' s₀ : BufferState} {q q' : Queue Admission} {a : LifeAct} {k : Nat} {r : ReceiptId}

theorem released_receiptAt (h : Detached s.buf q) (bb : ByteBudget) (op : BufferOp) :
    (s.apply bb op).1.buf.receiptAt = s.buf.receiptAt := by
  have hrun : s.buf.isRunning = false := congrArg (fun v => v.2.2.2) h.detached
  cases op with
  | add e size waiter receipt m => rw [apply_add_sealed hrun]
  | getNextToDeliver =>
    exact getNextToDeliver_receiptAt (getNextToDeliver_detached bb h.detached).1
  | ack seq => exact ack_receiptAt_released h.detached bb seq.toNat
  | resetDelivery =>
    have hreset := congrArg (fun p => p.1.receiptAt) (h.resetDelivery_eq bb)
    exact hreset
  | updateCapacity c => exact updateCapacity_receiptAt _
  | beginDrain => rfl
  | drain first ctxDone => exact drainSection_receiptAt _ _
  | close => rfl

theorem log_of_sealed (hrun : s.buf.isRunning = false) (a : LifeAct) :
    (lifeMachine.next s a).log = s.log := by
  obtain ⟨bb, op⟩ := a
  cases op with
  | releaseReceiptTracking => rfl
  | call op =>
    cases op with
    | add e size waiter receipt m => exact congrArg log (apply_add_sealed hrun ..)
    | _ => rfl

/-! ## What a call does to the cells -/

/-- The cell an add brings is its own. -/
def OwnCell (s : BufferState) : LifeOp → Prop
  | .call op => s.NewCell op
  | .releaseReceiptTracking => True

/-- The cell of an admitted frame keeps its state, or is retained and takes a final one. -/
def CellMove (s : BufferState) (a : LifeAct) (s' : BufferState) : Prop :=
  ∀ k r, s.receiptOf k = some r → s'.buf.receiptAt r = s.buf.receiptAt r ∨
    (s.buf.receiptAt r = .retained ∧
      ((∃ seq, a.op = .call (.ack seq)) ∧ s'.buf.receiptAt r = .acknowledged ∨
        a.op = .call .resetDelivery ∧ s'.buf.receiptAt r = .retired))

theorem cellMove_of_same (h : s'.buf.receiptAt = s.buf.receiptAt) : CellMove s a s' :=
  fun _ r _ => .inl (congrFun h r)

/-- The queue of a buffer, with the cells in both phases. -/
structure Kept (s : BufferState) (q : Queue Admission) : Prop where
  attached : ¬ s.buf.Released → Refines s.buf q ∧ Cells s.buf q
  late : LateCells s.buf q
  held : Held s q
  own : OwnCells s.log

theorem Kept.life (h : Kept s q) : Life s q := by
  refine ⟨?_, h.held.items⟩
  by_cases hrel : s.buf.Released
  · exact .inr ⟨h.held.shape, hrel⟩
  · exact .inl (h.attached hrel).1

/-- The frame of a receipt and its cell. -/
theorem Kept.cell_at (h : Kept s q) (hr : s.receiptOf k = some r) : ∃ i f, k = i + 1 ∧
    q.frames[i]? = some f ∧ f.item.receipt = some r ∧ (s.buf.receiptAt r = cell f.fate ∨
      (s.buf.receiptAt r = .retained ∧ f.fate = .confirmed)) := by
  cases k with
  | zero => cases hr
  | succ i =>
    obtain ⟨adm, hadm, hrec⟩ := Option.bind_eq_some_iff.1 hr
    obtain ⟨f, hf⟩ := h.held.frame_at (List.getElem?_eq_some_iff.1 hadm).1
    have hitem := h.held.item_at hf
    rw [hadm] at hitem
    have hfr : f.item.receipt = some r := by
      rw [← Option.some.inj hitem]
      exact hrec
    exact ⟨i, f, rfl, hf, hfr, h.late i f r hf hfr⟩

/-- With the metadata, the cells before and after a call tell what it did. -/
theorem cellMove_of_queue (h : Held s q) {op : BufferOp} {bb : ByteBudget}
    (hc : Cells s.buf q) (hc' : Cells s'.buf q')
    (hstep : QueueStep s q ⟨bb, op⟩ s' q') : CellMove s ⟨bb, .call op⟩ s' := by
  intro k r hr
  cases k with
  | zero => cases hr
  | succ i =>
    obtain ⟨adm, hadm, hrec⟩ := Option.bind_eq_some_iff.1 hr
    obtain ⟨f, hf⟩ := h.frame_at (List.getElem?_eq_some_iff.1 hadm).1
    have hitem := h.item_at hf
    rw [hadm] at hitem
    have hfr : f.item.receipt = some r := by
      rw [← Option.some.inj hitem]
      exact hrec
    rw [hc i f r hf hfr]
    cases hstep with
    | same => exact .inl (hc' i f r hf hfr)
    | push adm' =>
      refine .inl (hc' i f r ?_ hfr)
      rw [Queue.frames_push, List.getElem?_append_left (List.getElem?_eq_some_iff.1 hf).1, hf]
    | deliver =>
      -- a handoff changes no fate
      have hx : q.deliver.frames[i]? = some (if i = q.gone.length + q.target then f.send else f) := by
        rw [Queue.frames_deliver_getElem?, hf, Option.map_some]
      have hcell := hc' i _ r hx (by split_ifs <;> exact hfr)
      left
      rw [hcell]
      split_ifs <;> rfl
    | ack seq _ _ hop hok hi =>
      simp only at hop
      have hx := Queue.frames_ack_getElem? (q := q) (sub64 seq.toNat s.buf.firstSeqNum) i
      rw [hf, Option.map_some] at hx
      by_cases hin : q.gone.length ≤ i ∧
          i < q.gone.length + (sub64 seq.toNat s.buf.firstSeqNum + 1)
      · rw [if_pos hin] at hx
        rw [hc' i _ r hx (by rw [Frame.confirm_item]; exact hfr), Frame.confirm_fate]
        cases hfate : f.fate with
        | live => exact .inr ⟨rfl, .inl ⟨⟨seq, congrArg LifeOp.call hop⟩, rfl⟩⟩
        | confirmed | retired => exact .inl rfl
      · rw [if_neg hin] at hx
        exact .inl (hc' i f r hx hfr)
    | reset _ _ hop =>
      simp only at hop
      have hx := Queue.frames_reset_getElem? (q := q) i
      rw [hf, Option.map_some] at hx
      by_cases hin : q.gone.length ≤ i
      · rw [if_pos hin] at hx
        rw [hc' i _ r hx (by rw [Frame.expire_item]; exact hfr), Frame.expire_fate]
        -- a frame of the window is live or retired
        have hw : q.window[i - q.gone.length]? = some f := by
          rw [← Queue.frames_getElem?_right hin, hf]
        have hnot := h.shape.window f (List.mem_of_getElem? hw)
        split_ifs
        · cases hfate : f.fate with
          | live => exact .inr ⟨rfl, .inr ⟨congrArg LifeOp.call hop, rfl⟩⟩
          | confirmed => exact absurd hfate hnot
          | retired => exact .inl rfl
        · exact .inl rfl
      · rw [if_neg hin] at hx
        exact .inl (hc' i f r hx hfr)

/-- After the release the fates of the frames change without their cells. -/
theorem late_step (hl : LateCells s.buf q) (hmove : LifeMove s q a s' q')
    (hcell : s'.buf.receiptAt = s.buf.receiptAt) (hlog : s'.log = s.log)
    (hreset : a.op = .call .resetDelivery → q' = { q with next := 0 }) :
    LateCells s'.buf q' := by
  intro k f r hf hfr
  rw [hcell]
  cases hmove with
  | call op q' hop hstep =>
    cases hstep with
    | same => exact hl k f r hf hfr
    | push adm hpush =>
      rw [hlog] at hpush
      simp at hpush
    | deliver =>
      rw [Queue.frames_deliver_getElem?] at hf
      obtain ⟨x, hx, rfl⟩ := Option.map_eq_some_iff.1 hf
      split_ifs at hfr ⊢
      · exact hl k x r hx hfr
      · exact hl k x r hx hfr
    | ack seq =>
      rw [Queue.frames_ack_getElem?] at hf
      obtain ⟨x, hx, rfl⟩ := Option.map_eq_some_iff.1 hf
      split_ifs at hfr ⊢
      · rw [Frame.confirm_item] at hfr
        rw [Frame.confirm_fate]
        -- a live frame is confirmed now, and its cell is not written any more
        rcases hl k x r hx hfr with hat | ⟨hat, hfate⟩
        · cases hfate : x.fate with
          | live =>
            rw [hfate] at hat
            exact .inr ⟨hat, rfl⟩
          | confirmed | retired => exact .inl (by rw [hat, hfate]; rfl)
        · exact .inr ⟨hat, by rw [hfate]; rfl⟩
      · exact hl k x r hx hfr
    | reset _ _ hop' =>
      simp only at hop'
      rw [hreset (hop.trans (congrArg LifeOp.call hop'))] at hf
      exact hl k f r hf hfr
  | rewind | release => exact hl k f r hf hfr

/-- What a call does to the queue and to the cells. -/
structure KeptStep (s : BufferState) (q : Queue Admission) (a : LifeAct) (q' : Queue Admission) :
    Prop where
  move : LifeMove s q a (lifeMachine.next s a) q'
  kept : Kept (lifeMachine.next s a) q'
  cells : CellMove s a (lifeMachine.next s a)
  released : s.buf.Released → (lifeMachine.next s a).buf.Released ∧
    (lifeMachine.next s a).buf.receiptAt = s.buf.receiptAt

theorem Kept.step_released (h : Kept s q) (hrel : s.buf.Released) (a : LifeAct) :
    ∃ q', KeptStep s q a q' := by
  have hdet : Detached s.buf q := ⟨h.held.shape, hrel⟩
  have hrun : s.buf.isRunning = false := congrArg (fun v => v.2.2.2) hrel
  have hlog := log_of_sealed hrun a
  have hown : OwnCells (lifeMachine.next s a).log := hlog.symm ▸ h.own
  -- the queue after the call, its metadata and its cells
  have hstep : ∃ q', LifeMove s q a (lifeMachine.next s a) q' ∧
      Detached (lifeMachine.next s a).buf q' ∧
      q'.items = (lifeMachine.next s a).log ∧
      (lifeMachine.next s a).buf.receiptAt = s.buf.receiptAt ∧
      (a.op = .call .resetDelivery → q' = { q with next := 0 }) := by
    obtain ⟨bb, op⟩ := a
    cases op with
    | releaseReceiptTracking =>
      refine ⟨q, .release rfl rfl rfl, ⟨h.held.shape.congr rfl rfl rfl, ?_⟩, h.held.items, rfl,
        fun hop => LifeOp.noConfusion hop⟩
      show (none, none, none, s.buf.isRunning) = _
      rw [hrun]
    | call op =>
      have hcell := released_receiptAt hdet bb op
      by_cases hop : op = .resetDelivery
      · subst hop
        exact ⟨_, .rewind rfl rfl rfl, hdet.resetDelivery bb, h.held.items, hcell, fun _ => rfl⟩
      · obtain ⟨q', hmove, hdet', hitems⟩ := detached_step hdet h.held.items bb op
        exact ⟨q', hmove, hdet', hitems, hcell, fun hreset => absurd (LifeOp.call.inj hreset) hop⟩
  obtain ⟨q', hmove, hdet', hitems, hcell, hreset⟩ := hstep
  refine ⟨q', hmove, ?_, cellMove_of_same hcell, fun _ => ⟨hdet'.detached, hcell⟩⟩
  exact ⟨fun hnot => absurd hdet'.detached hnot, late_step h.late hmove hcell hlog hreset,
    ⟨hdet'.toShape, hitems⟩, hown⟩

theorem Kept.step (h : Kept s q) (hg : s.Allows a.op) (hnew : s.OwnCell a.op) :
    ∃ q', KeptStep s q a q' := by
  by_cases hrel : s.buf.Released
  · exact h.step_released hrel a
  · obtain ⟨href, hcells⟩ := h.attached hrel
    have ht : Tracks s q := ⟨href, h.held.items⟩
    obtain ⟨bb, op⟩ := a
    cases op with
    | releaseReceiptTracking =>
      have hrun : s.buf.isRunning = false := hg
      have hrel' : (lifeMachine.next s ⟨bb, .releaseReceiptTracking⟩).buf.Released := by
        show (none, none, none, s.buf.isRunning) = _
        rw [hrun]
      refine ⟨q, .release rfl rfl rfl, ?_, cellMove_of_same rfl, fun hr => absurd hr hrel⟩
      exact ⟨fun hnot => absurd hrel' hnot, h.late, ⟨h.held.shape.congr rfl rfl rfl, h.held.items⟩,
        h.own⟩
    | call op =>
      obtain ⟨q', hstep, ht'⟩ := ht.step ⟨bb, op⟩
      have hnew' : s.NewCell op := hnew
      obtain ⟨hcells', hown'⟩ := ht.cells hcells h.own hnew' hstep
      refine ⟨q', .call op q' rfl hstep, ?_, cellMove_of_queue h.held hcells hcells' hstep,
        fun hr => absurd hr hrel⟩
      exact ⟨fun _ => ⟨ht'.refines, hcells'⟩, hcells'.late, ht'.held, hown'⟩

/-- A sealed buffer stays sealed. -/
theorem Life.sealed_step (h : Life s q) (hrun : s.buf.isRunning = false) (a : LifeAct) :
    (lifeMachine.next s a).buf.isRunning = false := by
  have hsettings : ∀ {b : AckBuffer}, b.settingsView = s.buf.settingsView →
      b.isRunning = false := by
    intro b hb
    have hview : b.isRunning = s.buf.isRunning := congrArg (fun v => v.2.1.2) hb
    rw [hview, hrun]
  obtain ⟨bb, op⟩ := a
  cases op with
  | releaseReceiptTracking => exact hrun
  | call op =>
    -- after the release of the receipts the detached buffer makes the steps
    rcases h.phase with href | hdet
    swap
    · obtain ⟨q', -, hdet', -⟩ := detached_step hdet h.items bb op
      exact congrArg (fun v => v.2.2.2) hdet'.detached
    cases op with
    | add e size waiter receipt m =>
      show (s.apply bb (.add e size waiter receipt m)).1.buf.isRunning = false
      rw [apply_add_sealed hrun]
      exact hrun
    | getNextToDeliver =>
      have hrest := congrArg isRunning
        (getNextToDeliver_atRest (h.not_fenced bb))
      exact hrest.trans hrun
    | ack seq =>
      show (s.buf.ack bb seq.toNat).1.isRunning = false
      have hstep := ack_step s.buf bb seq.toNat
      generalize s.buf.ack bb seq.toNat = r at hstep ⊢
      cases hstep with
      | rejected err => exact hrun
      | late _ => exact hrun
      | removed hfree hdel =>
        rw [href.slots.free] at hfree
        exact hsettings (href.ackRemove_moves bb hfree).settings
    | resetDelivery => exact hsettings (href.resetDelivery bb).2.settings
    | updateCapacity c =>
      show (s.buf.updateCapacity c.toNat).isRunning = false
      unfold updateCapacity
      split_ifs <;> exact hrun
    | beginDrain => rfl
    | drain first ctxDone =>
      show (s.buf.drainSection first ctxDone).1.isRunning = false
      -- a round of a drain parks or leaves the buffer alone
      have hround : ∀ b : AckBuffer, b.isRunning = false →
          (b.drainRound ctxDone).1.isRunning = false := by
        intro b hb
        rcases drainRound_cases b ctxDone with heq | heq
        · rw [heq]
          exact hb
        · rw [heq]
          exact hb
      unfold drainSection
      split_ifs
      · exact hround _ rfl
      · exact hround _ hrun
    | close => rfl

/-- Only an ACK confirms frames. -/
theorem LifeMove.confirmed_before (hmove : LifeMove s q a s' q')
    (hop : ∀ seq, a.op ≠ .call (.ack seq)) {i : Nat} {f : Frame Admission}
    (hf : q'.frames[i]? = some f) (hfate : f.fate = .confirmed) :
    ∃ x, q.frames[i]? = some x ∧ x.item = f.item ∧ x.fate = .confirmed := by
  cases hmove with
  | call op q' hcall hstep =>
    cases hstep with
    | same => exact ⟨f, hf, rfl, hfate⟩
    | push adm =>
      rw [Queue.frames_push] at hf
      rcases getElem?_snoc hf with hold | ⟨-, rfl⟩
      · exact ⟨f, hold, rfl, hfate⟩
      · -- the new frame is live
        cases hfate
    | deliver =>
      rw [Queue.frames_deliver_getElem?] at hf
      obtain ⟨x, hx, rfl⟩ := Option.map_eq_some_iff.1 hf
      refine ⟨x, hx, ?_⟩
      split_ifs at hfate ⊢
      · exact ⟨rfl, hfate⟩
      · exact ⟨rfl, hfate⟩
    | ack seq _ _ hack =>
      simp only at hack
      exact absurd (hcall.trans (congrArg LifeOp.call hack)) (hop seq)
    | reset =>
      rw [Queue.frames_reset_getElem?] at hf
      obtain ⟨x, hx, rfl⟩ := Option.map_eq_some_iff.1 hf
      refine ⟨x, hx, ?_⟩
      split_ifs at hfate ⊢
      · rw [Frame.expire_fate] at hfate
        rw [Frame.expire_item]
        split_ifs at hfate
        exact ⟨rfl, hfate⟩
      · exact ⟨rfl, hfate⟩
  | rewind | release => exact ⟨f, hf, rfl, hfate⟩

/-- After the release the cells stay exact as long as no ACK comes. -/
theorem KeptStep.cells_exact (hstep : KeptStep s q a q') (hrel : s.buf.Released)
    (hc : Cells s.buf q) (hop : ∀ seq, a.op ≠ .call (.ack seq)) :
    Cells (lifeMachine.next s a).buf q' := by
  intro i f r hf hr
  rcases hstep.kept.late i f r hf hr with heq | ⟨hret, hconf⟩
  · exact heq
  · obtain ⟨x, hx, hitem, hfate⟩ := hstep.move.confirmed_before hop hf hconf
    have hold := hc i x r hx (by rw [hitem]; exact hr)
    rw [(hstep.released hrel).2, hold, hfate] at hret
    cases hret

end BufferState

end UspClient
