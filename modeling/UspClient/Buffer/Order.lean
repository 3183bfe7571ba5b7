import UspClient.Buffer.Exact
import UspClient.Lib.Order

/-!
# The order of delivery, and what an acknowledgement may confirm

Over every run of one buffer, its release included:

* `delivered_in_order`: between two resets the frames are handed out in order of admission.
  The first one is the oldest live message, and a frame that is skipped was acknowledged or
  retired before.
* `removed_was_handed_out`: what an accepted `Ack` removes was handed out before, provided
  that an `Ack` of the head at delivery index zero finds a head that was handed out.
  `fresh_head_confirmed` is the run in which it was not.
-/

namespace UspClient

open Word64 Replay

/-- The step is a call of `ResetDelivery`. -/
def LifeStep.isReset (st : LifeStep) : Bool :=
  match st.act.op with
  | .call .resetDelivery => true
  | _ => false

/-- The numbers of the frames `GetNextToDeliver` returned in the step. -/
def LifeStep.handout (st : LifeStep) : List Nat := st.post.handed.drop st.pre.handed.length

/-- The numbers of the frames that were returned since the last `ResetDelivery`. -/
def sinceReset (tr : List LifeStep) : List Nat :=
  tr.foldl (fun l st => if LifeStep.isReset st then [] else l ++ LifeStep.handout st) []

/-- The step is an accepted `Ack` that covers the live frame `k`. -/
def LifeStep.Confirms (st : LifeStep) (k : Nat) : Prop :=
  ∃ op, st.act.op = .call op ∧ BufferStep.Confirms ⟨st.pre, ⟨st.act.bb, op⟩, st.post⟩ k

/-- The step is a `ResetDelivery` that retires the live frame `k`. -/
def LifeStep.Retires (st : LifeStep) (k : Nat) : Prop :=
  st.act.op = .call .resetDelivery ∧ st.pre.Live k ∧ ¬ st.post.Live k

/-- The step is an `Ack` that returned nil and removed frame `k`, live or retired. -/
def LifeStep.Removes (st : LifeStep) (k : Nat) : Prop :=
  ∃ seq, st.act.op = .call (.ack seq) ∧ (st.pre.buf.ack st.act.bb seq.toNat).2.2 = none ∧
    st.pre.Present k ∧ ¬ st.post.Present k

namespace BufferState

variable {s s' s₀ : BufferState} {q q' : Queue Admission} {f : Frame Admission} {k : Nat}
variable {a : LifeAct} {tr : List LifeStep}

theorem sinceReset_append (tr : List LifeStep) (st : LifeStep) : sinceReset (tr ++ [st]) =
    if LifeStep.isReset st then [] else sinceReset tr ++ LifeStep.handout st := by
  unfold sinceReset
  rw [List.foldl_append]
  rfl

/-- A step that hands out nothing. -/
theorem handout_nil (h : s'.handed = s.handed) : LifeStep.handout ⟨s, a, s'⟩ = [] := by
  unfold LifeStep.handout
  simp only [h, List.drop_length]

theorem isReset_iff : LifeStep.isReset ⟨s, a, s'⟩ = true ↔ a.op = .call .resetDelivery := by
  obtain ⟨bb, op⟩ := a
  unfold LifeStep.isReset
  cases op with
  | releaseReceiptTracking => simp
  | call op => cases op <;> simp

/-! ## One step -/

/-- The deliveries since the last reset follow the queue. -/
theorem LifeMove.paced (hmove : LifeMove s q a s' q') (h : Held s q)
    (hp : Queue.Paced (sinceReset tr) q) :
    Queue.Paced (sinceReset (tr ++ [⟨s, a, s'⟩])) q' := by
  rw [sinceReset_append]
  have hnot : ∀ {op}, a.op = .call op → op ≠ .resetDelivery →
      ¬ LifeStep.isReset ⟨s, a, s'⟩ = true := by
    intro op hop hne hreset
    exact hne (by simpa [hop] using isReset_iff.1 hreset)
  cases hmove with
  | call op q' hop hstep =>
    cases hstep with
    | same _ hhand hne _ =>
      rw [if_neg (hnot hop hne), handout_nil hhand, List.append_nil]
      exact hp
    | push adm _ hhand hne _ _ _ =>
      rw [if_neg (hnot hop hne), handout_nil hhand, List.append_nil]
      exact hp.push h.shape.next_le
    | deliver _ hdel hhand =>
      have hne : op ≠ .resetDelivery := by
        simp only at hdel
        rw [hdel]
        exact BufferOp.noConfusion
      -- a delivery appends the number of the target, if there is one
      have hout : sinceReset tr ++ LifeStep.handout ⟨s, a, s'⟩ =
          if q.target < q.window.length then sinceReset tr ++ [q.gone.length + q.target + 1]
          else sinceReset tr := by
        unfold LifeStep.handout
        simp only [hhand]
        split_ifs
        · rw [List.drop_left]
        · rw [List.drop_length, List.append_nil]
      rw [if_neg (hnot hop hne), hout]
      exact hp.deliver
    | ack seq _ hhand hack _ hi =>
      have hne : op ≠ .resetDelivery := by
        simp only at hack
        rw [hack]
        exact BufferOp.noConfusion
      rw [if_neg (hnot hop hne), handout_nil hhand, List.append_nil]
      exact hp.ack hi
    | reset _ _ hreset =>
      simp only at hreset
      rw [if_pos (isReset_iff.2 (hop.trans (congrArg LifeOp.call hreset)))]
      exact Queue.Paced.reset
  -- once the receipts are released a reset only rewinds
  | rewind hop _ _ =>
    rw [if_pos (isReset_iff.2 hop)]
    exact Queue.paced_nil rfl
  | release hop _ hhand =>
    have hne : ¬ LifeStep.isReset ⟨s, a, s'⟩ = true := by
      rw [isReset_iff, hop]
      exact LifeOp.noConfusion
    rw [if_neg hne, handout_nil hhand, List.append_nil]
    exact hp

/-- A live frame leaves by an accepted `Ack` or by a reset. -/
theorem LifeMove.ends (hmove : LifeMove s q a s' q') (h : Held s q) (h' : Held s' q')
    (hlive : s.Live k) (hnot : ¬ s'.Live k) :
    LifeStep.Confirms ⟨s, a, s'⟩ k ∨ LifeStep.Retires ⟨s, a, s'⟩ k := by
  obtain ⟨k, rfl⟩ : ∃ j, k = j + 1 := ⟨k - 1, by have := hlive.1.1; omega⟩
  obtain ⟨f, hf⟩ := h.frame_at (k := k) hlive.1.2
  have hfate := (h.live_iff hf).1 hlive
  -- a frame that keeps its fate stays live
  have hkeep : ∀ x : Frame Admission, q'.frames[k]? = some x → x.fate ≠ .live :=
    fun x hx hl => hnot ((h'.live_iff hx).2 hl)
  cases hmove with
  | call op q' hop hstep =>
    cases hstep with
    | same => exact absurd hfate (hkeep f hf)
    | push adm =>
      refine absurd hfate (hkeep f ?_)
      rw [Queue.frames_push, List.getElem?_append_left (List.getElem?_eq_some_iff.1 hf).1, hf]
    | deliver =>
      refine absurd ?_ (hkeep (if k = q.gone.length + q.target then f.send else f) ?_)
      · split_ifs
        · exact hfate
        · exact hfate
      · rw [Queue.frames_deliver_getElem?, hf]
        rfl
    | ack seq _ _ hack hok hi =>
      by_cases hin : q.gone.length ≤ k ∧ k < q.gone.length + (sub64 seq.toNat s.buf.firstSeqNum + 1)
      · exact .inl ⟨op, hop, (h.confirms_iff h' hack hok rfl hi hf).2 ⟨hfate, hin⟩⟩
      · refine absurd hfate (hkeep f ?_)
        rw [Queue.frames_ack_getElem?, hf, Option.map_some, if_neg hin]
    | reset _ _ hreset =>
      simp only at hreset
      exact .inr ⟨hop.trans (congrArg LifeOp.call hreset), hlive, hnot⟩
  | rewind hop => exact .inr ⟨hop, hlive, hnot⟩
  | release => exact absurd hfate (hkeep f hf)

/-- An admitted frame is live at first. -/
theorem LifeMove.admits (hmove : LifeMove s q a s' q') (h : Held s q) (h' : Held s' q')
    (hnew : s.log.length < k) (hle : k ≤ s'.log.length) : s'.Live k := by
  have hsame : s'.log = s.log → s'.Live k := by
    intro hlog
    rw [hlog] at hle
    omega
  cases hmove with
  | call op q' hop hstep =>
    cases hstep with
    | same hlog | deliver hlog | ack _ hlog | reset hlog => exact hsame hlog
    | push adm hlog =>
      rw [hlog, List.length_append, List.length_singleton] at hle
      obtain rfl : k = s.log.length + 1 := by omega
      refine (h'.live_iff (f := { item := adm, limit := adm.limit }) ?_).2 rfl
      have hlen : q.frames.length = s.log.length := by
        rw [← h.items, Queue.items, List.length_map]
      rw [Queue.frames_push, ← hlen, List.getElem?_concat_length]
  | rewind _ hlog | release _ hlog => exact hsame hlog

/-! ## A whole run -/

/-- The queue of a run, its deliveries since the last reset, and what became of the frames
that are not live. -/
structure Course (tr : List LifeStep) (s : BufferState) (q : Queue Admission) : Prop where
  life : Life s q
  paced : Queue.Paced (sinceReset tr) q
  ended : ∀ k, 1 ≤ k → k ≤ s.log.length → s.Live k ∨
    ∃ st ∈ tr, LifeStep.Confirms st k ∨ LifeStep.Retires st k

theorem Course.step (h : Course tr s q) (hg : s.Allows a.op) :
    ∃ q', Course (tr ++ [⟨s, a, lifeMachine.next s a⟩]) (lifeMachine.next s a) q' := by
  obtain ⟨q', hmove, hlife⟩ := h.life.step hg
  refine ⟨q', hlife, hmove.paced h.life.held h.paced, ?_⟩
  intro k hk hle
  have hmem : (⟨s, a, lifeMachine.next s a⟩ : LifeStep) ∈
      tr ++ [⟨s, a, lifeMachine.next s a⟩] := List.mem_append_right _ List.mem_cons_self
  by_cases hlive' : (lifeMachine.next s a).Live k
  · exact .inl hlive'
  · right
    by_cases hold : k ≤ s.log.length
    · rcases h.ended k hk hold with hlive | ⟨st, hst, hend⟩
      · exact ⟨_, hmem, hmove.ends h.life.held hlife.held hlive hlive'⟩
      · exact ⟨st, List.mem_append_left _ hst, hend⟩
    · exact absurd (hmove.admits h.life.held hlife.held (by omega) hle) hlive'

theorem course_of_run (hf : FreshBuffer s₀) (hrun : Machine.Run lifeMachine s₀ tr s) :
    ∃ q, Course tr s q := by
  refine hrun.history (fun tr s => ∃ q, Course tr s q) ⟨{}, FreshBuffer.life hf, ?_, ?_⟩ ?_
  · exact Queue.paced_nil rfl
  · intro k hk hle
    rw [hf.log, List.length_nil] at hle
    omega
  · rintro tr s a hg ⟨q, hq⟩
    exact hq.step hg

end BufferState

/-- What a run that ended in `s` has handed out since the last reset, and what the next
`GetNextToDeliver` returns. -/
structure InOrder (tr : List LifeStep) (s : BufferState) : Prop where
  /-- The frames returned since the last reset are in order of admission. -/
  increasing : (sinceReset tr).Pairwise (· < ·)
  /-- The next one is a live message behind them. -/
  next : ∀ bb m k, (s.buf.getNextToDeliver bb).2.2.frame = some m →
    k = (s.apply bb .getNextToDeliver).1.lastHanded →
    (∃ stored, s.storedAt k = some stored ∧ AckBuffer.Handed s.buf.isRunning stored m) ∧
    s.Live k ∧ ∀ j ∈ sinceReset tr, j < k
  /-- The first one is the oldest live message. -/
  first : ∀ bb m j, (s.buf.getNextToDeliver bb).2.2.frame = some m → sinceReset tr = [] →
    s.Live j → (s.apply bb .getNextToDeliver).1.lastHanded ≤ j
  /-- A message between the one before and the next one was acknowledged or retired. -/
  skipped : ∀ bb m j, (s.buf.getNextToDeliver bb).2.2.frame = some m → 1 ≤ j →
    j < (s.apply bb .getNextToDeliver).1.lastHanded → (∀ i ∈ sinceReset tr, i < j) →
    ¬ s.Live j ∧ ∃ st ∈ tr, LifeStep.Confirms st j ∨ LifeStep.Retires st j
  /-- Nothing is returned exactly if no live message is at the delivery index or after it. -/
  none : ∀ bb, s.buf.isReadyToDeliver = true →
    ((s.buf.getNextToDeliver bb).2.2.frame = none ↔ ∀ j, s.Live j → j ≤ s.lastHanded)

namespace BufferState

variable {s s' s₀ : BufferState} {q q' : Queue Admission} {f : Frame Admission} {k : Nat}
variable {a : LifeAct} {tr : List LifeStep}

/-- A live frame that comes before the next one was handed out since the last reset. -/
theorem Course.handed_of_lt (h : Course tr s q) (hlive : s.Live k)
    (hlt : k < q.gone.length + q.target + 1) : k ∈ sinceReset tr := by
  obtain ⟨⟨hgone, hle⟩, -⟩ := id hlive
  rw [h.life.held.gone_eq] at hgone
  obtain ⟨i, rfl⟩ : ∃ i, k = q.gone.length + i + 1 := ⟨k - q.gone.length - 1, by omega⟩
  obtain ⟨f, hf⟩ := h.life.held.frame_at (k := q.gone.length + i) hle
  have hfate := (h.life.held.live_iff hf).1 hlive
  rw [Queue.frames_getElem?_right (Nat.le_add_right _ _), Nat.add_sub_cancel_left] at hf
  exact h.paced.covered.target hf hfate (by omega)

/-- What the next `GetNextToDeliver` returns is the frame at the target of the queue. -/
theorem Course.target (h : Course tr s q) {bb : ByteBudget} {m : DataMessage}
    (hm : (s.buf.getNextToDeliver bb).2.2.frame = some m) :
    (s.apply bb .getNextToDeliver).1.lastHanded = q.gone.length + q.target + 1 := by
  have hframe := (h.life.held.deliver bb (h.life.not_fenced bb)).2
  cases hw : q.window[q.target]? with
  | none =>
    rw [hw] at hframe
    rw [hframe.1] at hm
    cases hm
  | some f =>
    rw [hw] at hframe
    obtain ⟨-, -, -, hlast, -⟩ := hframe
    exact hlast

/-- The target of the queue is at the end exactly if no live frame is left to deliver. -/
theorem Course.none_iff (h : Course tr s q) (bb : ByteBudget) :
    (s.buf.getNextToDeliver bb).2.2.frame = none ↔ ∀ j, s.Live j → j ≤ s.lastHanded := by
  have hheld := h.life.held
  have hframe := (hheld.deliver bb (h.life.not_fenced bb)).2
  have hlast : s.lastHanded = q.gone.length + q.next := by
    unfold lastHanded
    rw [hheld.gone_eq, hheld.shape.slots.next]
  rw [hlast]
  cases hw : q.window[q.target]? with
  | none =>
    rw [hw] at hframe
    rw [hframe.1]
    refine iff_of_true rfl fun j hlive => ?_
    -- behind the delivery index there are only retired frames
    obtain ⟨⟨hgone, hle⟩, -⟩ := id hlive
    rw [hheld.gone_eq] at hgone
    by_contra hgt
    obtain ⟨i, rfl⟩ : ∃ i, j = q.gone.length + i + 1 := ⟨j - q.gone.length - 1, by omega⟩
    obtain ⟨f, hf⟩ := hheld.frame_at (k := q.gone.length + i) hle
    have hfate := (hheld.live_iff hf).1 hlive
    rw [Queue.frames_getElem?_right (Nat.le_add_right _ _), Nat.add_sub_cancel_left] at hf
    have hlt := (List.getElem?_eq_some_iff.1 hf).1
    have hend := List.getElem?_eq_none_iff.1 hw
    have hret := of_decide_eq_true (Queue.retired_of_skipped (by omega) (by omega) hf)
    rw [hfate] at hret
    cases hret
  | some f =>
    rw [hw] at hframe
    obtain ⟨m, hm, -⟩ := hframe
    rw [hm]
    refine iff_of_false (Option.some_ne_none m) fun hall => ?_
    have hf : q.frames[q.gone.length + q.target]? = some f := by
      rw [Queue.frames_getElem?_right (Nat.le_add_right _ _), Nat.add_sub_cancel_left, hw]
    have hlive := (hheld.live_iff hf).2 (hheld.shape.live_of_mem (List.mem_of_getElem? hw)
      (Queue.target_not_retired hw))
    have hle := hall _ hlive
    have hnt := Queue.le_target (q := q)
    omega

end BufferState

/-- In every run of one buffer the frames of a connection are delivered in order and
without a gap. -/
theorem delivered_in_order {s₀ s : BufferState} {tr : List LifeStep} (hfresh : FreshBuffer s₀)
    (hrun : Machine.Run lifeMachine s₀ tr s) : InOrder tr s := by
  obtain ⟨q, hq⟩ := BufferState.course_of_run hfresh hrun
  constructor
  · exact hq.paced.increasing
  · rintro bb m k hm rfl
    obtain ⟨hlive, -, hstored⟩ := hq.life.held.handout bb (hq.life.not_fenced bb) hm rfl
    refine ⟨hstored, hlive, fun j hj => ?_⟩
    have hb := hq.paced.bound j hj
    have hnt := Queue.le_target (q := q)
    rw [hq.target hm]
    omega
  · intro bb m j hm hnil hlive
    by_contra hlt
    rw [hq.target hm] at hlt
    have hmem := hq.handed_of_lt hlive (by omega)
    rw [hnil] at hmem
    cases hmem
  · intro bb m j hm hj hlt hbehind
    have hlast := (hq.life.held.handout bb (hq.life.not_fenced bb) hm rfl).1.1.2
    have hnot : ¬ s.Live j := by
      intro hlive
      rw [hq.target hm] at hlt
      exact absurd (hbehind j (hq.handed_of_lt hlive hlt)) (lt_irrefl j)
    exact ⟨hnot, (hq.ended j hj (by omega)).resolve_left hnot⟩
  · exact fun bb _ => hq.none_iff bb

/-- Two messages are delivered, the first is acknowledged, and the connection is reset: the
next message is the second, the oldest one that is left. -/
theorem replay_starts_at_second :
    let s := lifeMachine.exec plainBuffer [solo (.updateCapacity 4), solo (.add {} 0 none none 0),
      solo (.add {} 0 none none 0), solo .getNextToDeliver, solo .getNextToDeliver,
      solo (.ack 1), solo .resetDelivery]
    s.Live 2 ∧ (s.apply (newByteBudget 0) .getNextToDeliver).1.lastHanded ≤ 2 := by
  intro s
  have hrun : Machine.Run lifeMachine plainBuffer _ s := Machine.run_exec _ (by decide +kernel)
  obtain ⟨m, hm⟩ : ∃ m, (s.buf.getNextToDeliver (newByteBudget 0)).2.2.frame = some m :=
    Option.isSome_iff_exists.1 (by decide +kernel)
  have hlive : s.Live 2 := by decide +kernel
  exact ⟨hlive, (delivered_in_order plainBuffer_fresh hrun).first _ m 2 hm (by decide +kernel) hlive⟩

/-! ## What an acknowledgement removes was handed out -/

/-- The call is no `Ack` of a head that was never handed out, at delivery index zero. -/
def HeadHandedOut (s : BufferState) (a : LifeAct) : Prop :=
  match a.op with
  | .call (.ack seq) => ¬ (s.buf.nextIndexToDeliver = 0 ∧
      sub64 seq.toNat s.buf.firstSeqNum = 0 ∧ 0 < s.buf.nextIndexFree ∧ s.handoffs (s.gone + 1) = 0)
  | _ => True

instance (s : BufferState) (a : LifeAct) : Decidable (HeadHandedOut s a) :=
  match a with
  | ⟨_, .call (.ack seq)⟩ => inferInstanceAs (Decidable (¬ (s.buf.nextIndexToDeliver = 0 ∧
      sub64 seq.toNat s.buf.firstSeqNum = 0 ∧ 0 < s.buf.nextIndexFree ∧
      s.handoffs (s.gone + 1) = 0)))
  | ⟨_, .call (.add ..)⟩ | ⟨_, .call .getNextToDeliver⟩ | ⟨_, .call .resetDelivery⟩
  | ⟨_, .call (.updateCapacity _)⟩ | ⟨_, .call .beginDrain⟩ | ⟨_, .call (.drain ..)⟩
  | ⟨_, .call .close⟩ | ⟨_, .releaseReceiptTracking⟩ => isTrue trivial

namespace BufferState

variable {s s' s₀ : BufferState} {q q' : Queue Admission} {f : Frame Admission} {k : Nat}
variable {a : LifeAct} {tr : List LifeStep}

/-- What is before the delivery index, and what is retired, was handed out. -/
structure Seen (s : BufferState) (q : Queue Admission) : Prop where
  sends : ∀ (k : Nat) f, q.frames[k]? = some f → f.sends ≤ s.handoffs (k + 1)
  spent : q.Spent
  covered : Queue.Covered (fun k => 0 < s.handoffs k) q

theorem seen_empty (s : BufferState) : Seen s {} := by
  refine ⟨?_, Queue.spent_empty, Queue.covered_zero rfl⟩
  intro k f hf
  simp [Queue.frames] at hf

theorem Seen.congr (h : Seen s q) (hhand : s'.handed = s.handed) : Seen s' q := by
  have hcount : s'.handoffs = s.handoffs := by
    unfold handoffs
    rw [hhand]
  refine ⟨?_, h.spent, ?_⟩
  · rw [hcount]
    exact h.sends
  · rw [hcount]
    exact h.covered

theorem Seen.push (h : Seen s q) (hle : q.next ≤ q.window.length) (adm : Admission) :
    Seen s (q.push { item := adm, limit := adm.limit }) := by
  refine ⟨?_, h.spent.push rfl, h.covered.push hle⟩
  intro k f hf
  rw [Queue.frames_push] at hf
  rcases getElem?_snoc hf with hold | ⟨-, rfl⟩
  · exact h.sends k f hold
  · exact Nat.zero_le _

theorem Seen.deliver (h : Seen s q) (hhand : s'.handed = if q.target < q.window.length then
    s.handed ++ [q.gone.length + q.target + 1] else s.handed) : Seen s' q.deliver := by
  have hcount : ∀ k, s.handoffs k ≤ s'.handoffs k := by
    intro k
    unfold handoffs
    rw [hhand]
    split_ifs
    · rw [List.count_append]
      exact Nat.le_add_right _ _
    · exact le_rfl
  have hnew : q.target < q.window.length → s'.handoffs (q.gone.length + q.target + 1) =
      s.handoffs (q.gone.length + q.target + 1) + 1 := by
    intro hlt
    unfold handoffs
    rw [hhand, if_pos hlt, List.count_append, List.count_singleton_self]
  refine ⟨?_, h.spent.deliver, ?_⟩
  · intro k f hf
    rw [Queue.frames_deliver_getElem?] at hf
    obtain ⟨x, hx, rfl⟩ := Option.map_eq_some_iff.1 hf
    have hold := h.sends k x hx
    split_ifs with hk
    · have hlt : q.target < q.window.length := by
        rw [hk, Queue.frames_getElem?_right (Nat.le_add_right _ _), Nat.add_sub_cancel_left] at hx
        exact (List.getElem?_eq_some_iff.1 hx).1
      rw [hk] at hold ⊢
      rw [hnew hlt, Frame.send_sends]
      omega
    · exact le_trans hold (hcount _)
  · refine (h.covered.mono fun k hk => lt_of_lt_of_le hk (hcount k)).deliver fun hlt => ?_
    rw [hnew hlt]
    exact Nat.succ_pos _

theorem Seen.ack (h : Seen s q) {i : Nat} (hi : i < q.window.length) : Seen s (q.ack i) := by
  refine ⟨?_, h.spent.ack, h.covered.ack hi⟩
  intro k f hf
  rw [Queue.frames_ack_getElem?] at hf
  obtain ⟨x, hx, rfl⟩ := Option.map_eq_some_iff.1 hf
  have hold := h.sends k x hx
  split_ifs
  · rw [Frame.confirm_sends]
    exact hold
  · exact hold

theorem Seen.reset (h : Seen s q) : Seen s q.reset := by
  refine ⟨?_, h.spent.reset, Queue.covered_reset⟩
  intro k f hf
  rw [Queue.frames_reset_getElem?] at hf
  obtain ⟨x, hx, rfl⟩ := Option.map_eq_some_iff.1 hf
  have hold := h.sends k x hx
  split_ifs
  · rw [Frame.expire_sends]
    exact hold
  · exact hold

theorem LifeMove.seen (hmove : LifeMove s q a s' q') (h : Held s q) (hs : Seen s q) :
    Seen s' q' := by
  cases hmove with
  | call op q' hop hstep =>
    cases hstep with
    | same _ hhand => exact hs.congr hhand
    | push adm _ hhand => exact (hs.push h.shape.next_le adm).congr hhand
    | deliver _ _ hhand => exact hs.deliver hhand
    | ack seq _ hhand _ _ hi => exact (hs.ack hi).congr hhand
    | reset _ hhand => exact hs.reset.congr hhand
  | rewind _ _ hhand => exact Seen.congr ⟨hs.sends, hs.spent, Queue.covered_zero rfl⟩ hhand
  | release _ _ hhand => exact hs.congr hhand

theorem seen_of_run (hf : FreshBuffer s₀) (hrun : Machine.Run lifeMachine s₀ tr s) :
    ∃ q, Life s q ∧ Seen s q := by
  refine hrun.invariant (fun s => ∃ q, Life s q ∧ Seen s q)
    ⟨{}, FreshBuffer.life hf, seen_empty _⟩ ?_
  rintro s a hg ⟨q, hlife, hseen⟩
  obtain ⟨q', hmove, hlife'⟩ := hlife.step hg
  exact ⟨q', hlife', hmove.seen hlife.held hseen⟩

/-- A frame before the delivery index or a retired one was handed out. -/
theorem Seen.handed (h : Seen s q) (hheld : Held s q) {j : Nat} (hf : q.window[j]? = some f)
    (hor : j < q.next ∨ f.retired = true) : 0 < s.handoffs (q.gone.length + j + 1) := by
  have hframe : q.frames[q.gone.length + j]? = some f := by
    rw [Queue.frames_getElem?_right (Nat.le_add_right _ _), Nat.add_sub_cancel_left, hf]
  by_cases hret : f.retired = true
  · have hsent := h.spent f (List.mem_of_getElem? hframe) (of_decide_eq_true hret)
    exact lt_of_lt_of_le hsent (h.sends _ f hframe)
  · have hlive := hheld.shape.live_of_mem (List.mem_of_getElem? hf) (by simpa using hret)
    exact h.covered j f hf hlive (hor.resolve_right hret)

/-- What an accepted `Ack` removes was handed out. -/
theorem Seen.removed (h : Seen s q) (hlife : Life s q) (hhead : HeadHandedOut s a)
    (hrem : LifeStep.Removes ⟨s, a, lifeMachine.next s a⟩ k) : 0 < s.handoffs k := by
  obtain ⟨bb, op⟩ := a
  obtain ⟨seq, hop, hok, ⟨hgone, hle⟩, hnot⟩ := hrem
  obtain rfl : op = .call (.ack seq) := hop
  have hheld := hlife.held
  have hs := hheld.shape.slots
  have hlen := hheld.length_log
  simp only at hgone hle hok
  have hnot' : k ≤ s.log.length - (s.buf.ack bb seq.toNat).1.nextIndexFree := by
    by_contra hlt
    exact hnot ⟨Nat.lt_of_not_le hlt, hle⟩
  have hstep := AckBuffer.ack_step s.buf bb seq.toNat
  generalize s.buf.ack bb seq.toNat = r at hok hnot' hstep
  cases hstep with
  | rejected err => cases hok
  | late _ =>
    -- a late acknowledgement removes nothing
    unfold gone at hgone
    exact absurd hnot' (by simp only; omega)
  | removed hfree hdel =>
    obtain ⟨i, hidx⟩ : ∃ i, sub64 seq.toNat s.buf.firstSeqNum = i := ⟨_, rfl⟩
    rw [hidx] at hfree hdel hnot'
    have hwin : i < q.window.length := by rwa [hs.free] at hfree
    have hrem := hs.removed (hheld.shape.ackRemove bb hwin).slots hwin
      (AckBuffer.ackRemove_accounting bb i)
    simp only [hrem.free] at hnot'
    have hbound := hrem.bound
    have hret := hrem.retired
    generalize (q.remove (i + 1) Frame.confirm).headRun = run at hnot' hbound hret
    rw [hs.free] at hnot' hbound
    rw [hheld.gone_eq] at hgone
    -- frame `k` is at slot `j`
    obtain ⟨j, rfl⟩ : ∃ j, k = q.gone.length + j + 1 := ⟨k - q.gone.length - 1, by omega⟩
    obtain ⟨f, hf⟩ : ∃ f, q.window[j]? = some f := ⟨_, List.getElem?_eq_getElem (by omega)⟩
    by_cases hji : i < j
    · -- behind the acknowledged prefix only retired frames leave
      exact h.handed hheld hf (.inr (by rw [← hs.slotRetired hf]; exact hret j hji (by omega)))
    · rcases hdel with hlt | ⟨hzero, hi⟩
      · rw [hs.next] at hlt
        exact h.handed hheld hf (.inl (by omega))
      · -- the first frame after a reset: the assumption says it was handed out
        obtain rfl : j = 0 := by omega
        refine Nat.pos_of_ne_zero fun hnever => hhead ⟨hzero, hidx.trans hi, by omega, ?_⟩
        rw [hheld.gone_eq]
        exact hnever

end BufferState

/-- In every run in which no `Ack` of the head comes before its first delivery, every message
that an accepted `Ack` removes was handed out before. -/
theorem removed_was_handed_out {s₀ s : BufferState} {tr : List LifeStep} (hfresh : FreshBuffer s₀)
    (hrun : Machine.Run lifeMachine s₀ tr s) (hheads : ∀ st ∈ tr, HeadHandedOut st.pre st.act) :
    ∀ st ∈ tr, ∀ k, LifeStep.Removes st k → 0 < st.pre.handoffs k := by
  rintro ⟨pre, act, post⟩ hst k hrem
  obtain ⟨tr', hrun', -, hpost, -⟩ := hrun.step_of_mem hst
  simp only at hpost
  rw [hpost] at hrem
  obtain ⟨q, hlife, hseen⟩ := BufferState.seen_of_run hfresh hrun'
  exact hseen.removed hlife (hheads _ hst) hrem

/-- A message is delivered and the connection is reset. Its acknowledgement comes while the
delivery index is zero again. -/
def replayedHead : List LifeAct :=
  [solo (.updateCapacity 4), solo (.add {} 0 none none 0), solo .getNextToDeliver,
    solo .resetDelivery, solo (.ack 1)]

theorem replayed_head_was_handed_out : ∃ st ∈ lifeMachine.trace plainBuffer replayedHead,
    LifeStep.Removes st 1 ∧ 0 < st.pre.handoffs 1 := by
  obtain ⟨st, hst, hrem⟩ : ∃ st ∈ lifeMachine.trace plainBuffer replayedHead,
      LifeStep.Removes st 1 := by
    refine ⟨_, List.mem_of_getElem? (i := 4) rfl, 1, rfl, ?_, ?_, ?_⟩
    · decide +kernel
    · decide +kernel
    · decide +kernel
  exact ⟨st, hst, hrem, removed_was_handed_out plainBuffer_fresh
    (Machine.run_exec replayedHead (by decide +kernel)) (by decide +kernel) st hst 1 hrem⟩

/-- One message is added and acknowledged. No delivery was needed. -/
theorem fresh_head_confirmed : ∃ tr s, FreshBuffer plainBuffer ∧
    Machine.Run lifeMachine plainBuffer tr s ∧
    ∃ st ∈ tr, LifeStep.Removes st 1 ∧ st.pre.handoffs 1 = 0 := by
  refine ⟨_, _, plainBuffer_fresh, Machine.run_exec [solo (.add {} 0 none none 0), solo (.ack 1)]
    (by decide +kernel), _, List.mem_cons_of_mem _ List.mem_cons_self, ⟨1, rfl, ?_, ?_, ?_⟩, ?_⟩
  · decide +kernel
  · decide +kernel
  · decide +kernel
  · decide +kernel

end UspClient
