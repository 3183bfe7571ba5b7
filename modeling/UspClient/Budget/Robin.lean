import UspClient.Lib.Line
import UspClient.Budget.Calls

/-!
# Round robin between groups

A turn takes its group from the front of one of two lists: `waiting` while there is room outside
the reserve, and what is left of `reserveReady` after that. A group that gets a credit goes to the
back of both, so it cannot come to the front again of a list in which another group stays and gets
no credit. Both lists are treated at once: `line base` is the list of one kind of turn.
-/

namespace UspClient

open Word64 ByteBudget Line

namespace ByteBudget

variable {bb s t : ByteBudget} {g h : GroupId} {w : WaiterId} {out : Finset WaiterId}

/-- The list a turn takes its group from. -/
def line (bb : ByteBudget) (base : Bool) : List GroupId :=
  if base then bb.waiting else bb.reserveReady

theorem Lists.line_nodup (hl : Lists bb) (base : Bool) : (bb.line base).Nodup := by
  cases base with
  | true => exact hl.waiting_nodup
  | false => exact hl.reserve_nodup

theorem SameIndex.line (hs : SameIndex bb s) (base : Bool) : s.line base = bb.line base := by
  cases base with
  | true => exact hs.waiting
  | false => exact hs.reserveReady

/-! ## How the lists change -/

theorem edit_leaveWaiting (bb : ByteBudget) (g : GroupId) :
    Edit g bb.waiting (bb.leaveWaiting g).waiting := by
  unfold leaveWaiting
  split_ifs
  · exact .leave
  · exact .same

theorem edit_enterWaiting (bb : ByteBudget) (g : GroupId) :
    Edit g bb.waiting (bb.enterWaiting g).waiting := by
  unfold enterWaiting
  split_ifs
  · exact .same
  · exact .join

theorem edit_leaveReserve (bb : ByteBudget) (g : GroupId) :
    Edit g bb.reserveReady (bb.leaveReserve g).reserveReady := by
  unfold leaveReserve
  split_ifs
  · exact .leave
  · exact .same

theorem edit_enterReserve (bb : ByteBudget) (g : GroupId) :
    Edit g bb.reserveReady (bb.enterReserve g).reserveReady := by
  unfold enterReserve
  split_ifs
  · exact .same
  · exact .join

theorem leaveBlocked_lists (hl : Lists bb) (ho : HeapOrderedOff bb g) :
    (bb.leaveBlocked g).waiting = bb.waiting ∧
      (bb.leaveBlocked g).reserveReady = bb.reserveReady :=
  have hrest := (leaveBlocked_spec hl ho).rest
  ⟨waiting_of_heapless hrest, reserveReady_of_heapless hrest⟩

theorem enterBlocked_lists (hl : Lists bb) (ho : HeapOrderedOff bb g) :
    (bb.enterBlocked g).waiting = bb.waiting ∧
      (bb.enterBlocked g).reserveReady = bb.reserveReady :=
  have hrest := (enterBlocked_spec hl ho).rest
  ⟨waiting_of_heapless hrest, reserveReady_of_heapless hrest⟩

/-- A refresh edits both lists at the group it refreshes. -/
theorem refreshLocked_edit (hi : IndexOff bb g) (base : Bool) :
    Edit g (bb.line base) ((bb.refreshLocked g).line base) := by
  have hl := hi.toLists
  unfold refreshLocked
  simp only
  split_ifs
  · -- the group leaves
    obtain ⟨hw, hr⟩ := leaveBlocked_lists ((hl.leaveWaiting g).leaveReserve g)
      (hi.ord.of_core (by simp) ((leaveReserve_core _ g).trans (leaveWaiting_core _ g)))
    cases base with
    | true =>
      show Edit g bb.waiting (leaveBlocked _ g).waiting
      rw [hw, leaveReserve_waiting]
      exact edit_leaveWaiting bb g
    | false =>
      show Edit g bb.reserveReady (leaveBlocked _ g).reserveReady
      rw [hr]
      have he := edit_leaveReserve (bb.leaveWaiting g) g
      rwa [leaveWaiting_reserveReady] at he
  · -- the group may draw on the reserve
    obtain ⟨hw, hr⟩ := leaveBlocked_lists (hl.enterWaiting g)
      (hi.ord.of_core (by simp) (enterWaiting_core _ g))
    cases base with
    | true =>
      show Edit g bb.waiting (enterReserve _ g).waiting
      rw [enterReserve_waiting, hw]
      exact edit_enterWaiting bb g
    | false =>
      show Edit g bb.reserveReady (enterReserve _ g).reserveReady
      have he := edit_enterReserve ((bb.enterWaiting g).leaveBlocked g) g
      rwa [hr, enterWaiting_reserveReady] at he
  · -- the group may not
    obtain ⟨hw, hr⟩ := enterBlocked_lists ((hl.enterWaiting g).leaveReserve g)
      (hi.ord.of_core (by simp) ((leaveReserve_core _ g).trans (enterWaiting_core _ g)))
    cases base with
    | true =>
      show Edit g bb.waiting (enterBlocked _ g).waiting
      rw [hw, leaveReserve_waiting]
      exact edit_enterWaiting bb g
    | false =>
      show Edit g bb.reserveReady (enterBlocked _ g).reserveReady
      rw [hr]
      have he := edit_leaveReserve (bb.enterWaiting g) g
      rwa [enterWaiting_reserveReady] at he

theorem rotate_line (hl : Lists bb) (g : GroupId) (base : Bool) :
    (bb.rotate g).line base = moveToBack g (bb.line base) := by
  cases base with
  | true => exact rotate_waiting hl g
  | false => exact rotate_reserveReady hl g

theorem Lined.touch_edit (hl : Lined bb out) (ht : Touches bb s g) (base : Bool) :
    Edit g (bb.line base)
      ((if (s.groupAt g).waiters = [] then s else s.refreshLocked g).line base) := by
  rw [← ht.index.line base]
  split_ifs
  · exact .same
  · exact refreshLocked_edit (hl.index.off_touches ht) base

theorem Lined.removed_edit (hl : Lined bb out) (hw : w ∈ out) (base : Bool) :
    Edit (bb.waiterAt w).group (bb.line base) ((bb.removeWaiterLocked w).line base) := by
  have hrem := remove_spec hl.queues hw rfl
  rw [← hrem.index.line base]
  exact refreshLocked_edit (hl.index.off_removed hl.queues hrem rfl) base

theorem Lined.enqueued_edit (hl : Lined bb out) (n : Nat) (g : GroupId) (base : Bool) :
    Edit g (bb.line base)
      ((((bb.enqueue n g).activateLocked g).refreshLocked g).line base) := by
  have hs := (enqueue_spec bb n g).index.trans (activateLocked_touches (bb.enqueue n g) g).index
  rw [← hs.line base]
  exact refreshLocked_edit (enqueue_off hl.index hl.queues n g) base

/-! ## Rounds -/

/-- A pick drops groups from the front of a list and adds groups at its back. -/
theorem Picked.line (hp : Picked bb t) (hi : Index bb) (base : Bool) :
    ∃ front more, bb.line base ++ more = front ++ t.line base ∧ (bb.line base ++ more).Nodup := by
  cases base with
  | true =>
    refine ⟨[], [], ?_, ?_⟩
    · rw [List.append_nil, List.nil_append]
      exact hp.waiting.symm
    · rw [List.append_nil]
      exact hi.waiting_nodup
  | false => exact hp.reserve

theorem turn_line (hf : bb.fair = true) (hi : Index bb) {k : Turn} (hk : bb.turn = some k) :
    (bb.chosen.line k.base).head? = some k.group := by
  obtain ⟨hbase, hreserve, -⟩ := turn_front hf hi hk
  cases hb : k.base with
  | true => exact (congrArg List.head? (chosen_picked hf hi).waiting).trans (hbase hb)
  | false => exact hreserve hb

/-- The lists after a credit: the group is refreshed, then it goes to the back. -/
theorem Lined.credited_line (hl : Lined bb out) {k : Turn} (hk : bb.turn = some k)
    (hne : k.credit ≠ 0) (base : Bool) :
    ∃ l, Edit k.group (bb.chosen.line base) l ∧ l.Nodup ∧
      bb.scheduleRound.1.line base = moveToBack k.group l := by
  have hpicked := chosen_picked hl.fair hl.index
  rcases hl.turn_head hk with ⟨l, hhead, hout, -, -, -⟩
  rcases hl.turn_credit hk hne with ⟨hle, -, -, hgave, -⟩
  have hw : k.waiter ∈ (bb.chosen.groupAt k.group).waiters := by
    rw [waiters_of_core hpicked.core, hhead]
    exact List.mem_cons_self
  have hlt := hl.chosen.lt k.waiter hout
  have hsmall : (bb.chosen.waiterAt k.waiter).credit + k.credit < 2 ^ 64 := by omega
  have hoff := giveCredit_off hpicked.index hl.chosen.queues hw hsmall
  have hlists := (refreshLocked_index hoff).toLists
  refine ⟨_, ?_, hlists.line_nodup base, ?_⟩
  · rw [← hgave.index.line base]
    exact refreshLocked_edit hoff base
  · rw [round_of_credit hk hne, rotate_line hlists]

/-- A group that gets no credit in a round keeps its place in a list it does not leave. -/
theorem Lined.ahead_round (hl : Lined bb out) {base : Bool}
    (hno : ∀ k, bb.turn = some k → k.credit ≠ 0 → k.group ≠ h)
    (hh : h ∈ bb.scheduleRound.1.line base) (ha : Ahead h g (bb.line base)) :
    Ahead h g (bb.chosen.line base) ∧ Ahead h g (bb.scheduleRound.1.line base) := by
  -- picking
  have hchosen : h ∈ bb.chosen.line base → Ahead h g (bb.chosen.line base) := by
    intro hin
    obtain ⟨front, more, heq, hnd⟩ := (chosen_picked hl.fair hl.index).line hl.index base
    have hmore := ha.append more
    rw [heq] at hmore hnd
    exact hmore.drop hnd hin
  by_cases hcredit : ∃ k, bb.turn = some k ∧ k.credit ≠ 0
  · obtain ⟨k, hk, hne⟩ := hcredit
    have hkh := hno k hk hne
    obtain ⟨l, hedit, hnd, hline⟩ := hl.credited_line hk hne base
    rw [hline] at hh ⊢
    have hin : h ∈ l := (moveToBack_perm _ _).mem_iff.1 hh
    have hahead := hchosen ((hedit.mem_of_ne hkh.symm).1 hin)
    have hnodup := (chosen_picked hl.fair hl.index).index.line_nodup base
    exact ⟨hahead, (hahead.edit hedit hnodup hin).moveToBack hkh⟩
  · rw [round_of_no_credit hcredit] at hh ⊢
    exact ⟨hchosen hh, hchosen hh⟩

end ByteBudget

/-! ## Events -/

/-- The step charges a credit to the group. -/
def TurnStep.CreditEvent (st : TurnStep) (g : GroupId) : Prop :=
  ∃ k, TurnStep.Credits st k ∧ k.group = g

instance (st : TurnStep) (g : GroupId) : Decidable (TurnStep.CreditEvent st g) :=
  decidable_of_iff (∃ k ∈ TurnStep.turn st, k.credit ≠ 0 ∧ k.group = g)
    ⟨fun ⟨k, hk, hc, hg⟩ => ⟨k, ⟨hk, hc⟩, hg⟩, fun ⟨k, ⟨hk, hc⟩, hg⟩ => ⟨k, hk, hc, hg⟩⟩

/-- The step charges a credit to a group it took from the front of `waiting`. -/
def TurnStep.BaseEvent (st : TurnStep) (g : GroupId) : Prop :=
  ∃ k, TurnStep.Credits st k ∧ k.base = true ∧ k.group = g

/-- The step asked `nextReserveLocked`, which chose the group. -/
def TurnStep.ReserveChoice (st : TurnStep) (g : GroupId) : Prop :=
  ∃ k, TurnStep.turn st = some k ∧ k.base = false ∧ k.group = g

/-- What the step charges to the group on one of the two paths. -/
def TurnStep.creditOn (base : Bool) (g : GroupId) (st : TurnStep) : Nat :=
  match TurnStep.turn st with
  | some k => if k.base = base ∧ k.group = g then k.credit else 0
  | none => 0

theorem TurnStep.creditOn_ne_zero {base : Bool} {g : GroupId} {st : TurnStep}
    (hne : TurnStep.creditOn base g st ≠ 0) :
    ∃ k, TurnStep.Credits st k ∧ k.base = base ∧ k.group = g ∧
      TurnStep.creditOn base g st = k.credit := by
  unfold creditOn at hne ⊢
  cases hk : TurnStep.turn st with
  | none =>
    rw [hk] at hne
    exact absurd rfl hne
  | some k =>
    rw [hk] at hne
    simp only at hne ⊢
    split_ifs at hne ⊢ with hmatch
    · exact ⟨k, ⟨hk, hne⟩, hmatch.1, hmatch.2, rfl⟩
    · exact absurd rfl hne

namespace TurnState

variable {s s₁ s₂ : TurnState} {a : TurnAct} {g h : GroupId} {base : Bool} {mid : List TurnStep}

theorem opening_edit (hl : Lined s.bb s.out) {op : BudgetOp} (hown : s.Owns op)
    (base : Bool) : ∃ x, Edit x (s.bb.line base) ((s.opening op).bb.line base) := by
  cases op with
  | reserveFor n force og w =>
    obtain ⟨-, hw⟩ := hown
    cases w with
    | none =>
      unfold opening
      simp only
      split_ifs
      · exact ⟨_, hl.touch_edit (charge_touches s.bb n.toNat (group og) _) base⟩
      · exact ⟨_, hl.enqueued_edit n.toNat (group og) base⟩
    | some w =>
      unfold opening
      simp only
      split_ifs
      · -- a grant that is taken up changes no list
        refine ⟨0, ?_⟩
        rw [(settle_touches s.bb (group og)).index.line base]
        exact .same
      · exact ⟨_, hl.removed_edit (hw w rfl).1 base⟩
      · exact ⟨0, .same⟩
  | cancel w =>
    cases w with
    | none => exact ⟨0, .same⟩
    | some w => exact ⟨_, hl.removed_edit (hown w rfl) base⟩
  | releaseFor n escape og =>
    unfold opening
    simp only
    split_ifs
    · exact ⟨0, .same⟩
    · exact ⟨_, hl.touch_edit (releaseLocked_touches s.bb n.toNat escape.toNat (group og)) base⟩
  | register key =>
    have hline : (s.bb.register key).1.line base = s.bb.line base := by
      rcases register_cases hl.fair key with heq | ⟨g, -, heq⟩ | ⟨-, heq⟩ <;> rw [heq] <;> rfl
    refine ⟨0, ?_⟩
    show Edit 0 _ ((s.bb.register key).1.line base)
    rw [hline]
    exact .same
  | unregister og =>
    cases og with
    | none => exact ⟨0, .same⟩
    | some g =>
      have hline := (unregisterLocked_touches s.bb g).index.line base
      refine ⟨0, ?_⟩
      show Edit 0 _ ((s.bb.unregisterLocked g).line base)
      rw [hline]
      exact .same

/-- A step that gives `h` no credit leaves it before `g`, and does not pick `g` from that list. -/
theorem ahead_step (hl : Lined s.bb s.out) (hg : s.Opens a) (hne : g ≠ h)
    (hno : ¬ TurnStep.CreditEvent ⟨s, a, s.next a⟩ h) (hh : h ∈ (s.next a).bb.line base)
    (ha : Ahead h g (s.bb.line base)) :
    Ahead h g ((s.next a).bb.line base) ∧
      ∀ k, TurnStep.turn ⟨s, a, s.next a⟩ = some k → k.base = base → k.group ≠ g := by
  have hnd := hl.index.line_nodup base
  cases a with
  | call op =>
    obtain ⟨x, hedit⟩ := opening_edit hl hg.2 base
    exact ⟨ha.edit hedit hnd hh, fun k hk => absurd hk.symm (Option.some_ne_none k)⟩
  | charge =>
    refine ⟨?_, fun k hk => absurd hk.symm (Option.some_ne_none k)⟩
    unfold next at hh ⊢
    cases hp : s.phase with
    | replacing n x =>
      rw [hp] at hh
      exact ha.edit (hl.touch_edit (charge_touches s.bb n x _) base) hnd hh
    | idle => exact absurd hp hg.1
    | scheduling => exact absurd hp hg.2
  | round =>
    obtain ⟨hchosen, hnext⟩ := hl.ahead_round
      (fun k hk hc hkh => hno ⟨k, ⟨hk, hc⟩, hkh⟩) hh ha
    refine ⟨hnext, ?_⟩
    rintro k hk rfl rfl
    exact hchosen.head_ne hne (turn_line hl.fair hl.index hk)

/-- A credit to `g` sends it behind every other group. -/
theorem ahead_credit (hl : Lined s.bb s.out) (hne : g ≠ h)
    (hcredit : TurnStep.CreditEvent ⟨s, a, s.next a⟩ g) (hh : h ∈ (s.next a).bb.line base) :
    Ahead h g ((s.next a).bb.line base) := by
  obtain ⟨k, ⟨hk, hpos⟩, rfl⟩ := hcredit
  cases a with
  | call | charge => cases hk
  | round =>
    obtain ⟨l, -, hnd, hline⟩ := hl.credited_line hk hpos base
    show Ahead h k.group (s.bb.scheduleRound.1.line base)
    have hh : h ∈ s.bb.scheduleRound.1.line base := hh
    rw [hline] at hh ⊢
    exact ahead_moveToBack ((moveToBack_perm _ _).mem_iff.1 hh) hne hnd

/-- The invariant of an interval: once `g` has had a credit it stays behind `h`. -/
theorem turns_after_credit (hl : Lined s₁.bb s₁.out) (hmid : Machine.Run sectionMachine s₁ mid s₂)
    (hne : g ≠ h) (hno : ∀ st ∈ mid, ¬ TurnStep.CreditEvent st h)
    (hh : ∀ st ∈ mid, h ∈ st.post.bb.line base) :
    ((∃ st ∈ mid, TurnStep.CreditEvent st g) → Ahead h g (s₂.bb.line base)) ∧
      mid.Pairwise fun st st' => TurnStep.CreditEvent st g →
        ∀ k, TurnStep.turn st' = some k → k.base = base → k.group ≠ g := by
  induction hmid with
  | init => exact ⟨fun ⟨st, hst, _⟩ => absurd hst List.not_mem_nil, List.Pairwise.nil⟩
  | @step tr s a hrun hg ih =>
    obtain ⟨hahead, hpair⟩ := ih (fun st hst => hno st (List.mem_append_left _ hst))
      (fun st hst => hh st (List.mem_append_left _ hst))
    have hs := lined_of_run hl hrun
    have hlast := List.mem_append_right tr
      (List.mem_singleton_self (⟨s, a, s.next a⟩ : TurnStep))
    have hstep := ahead_step hs hg hne (hno _ hlast) (hh _ hlast)
    refine ⟨?_, List.pairwise_append.2 ⟨hpair, List.pairwise_singleton _ _, ?_⟩⟩
    · rintro ⟨st, hst, hcredit⟩
      rcases List.mem_append.1 hst with hbefore | hnow
      · exact (hstep (hahead ⟨st, hbefore, hcredit⟩)).1
      · rw [List.mem_singleton.1 hnow] at hcredit
        exact ahead_credit hs hne hcredit (hh _ hlast)
    · intro st hst st' hst' hcredit
      rw [List.mem_singleton.1 hst']
      exact (hstep (hahead ⟨st, hst, hcredit⟩)).2

/-- On one path a group gets at most one quantum in the interval. -/
theorem creditOn_le_quantum (hl : Lined s₁.bb s₁.out)
    (hmid : Machine.Run sectionMachine s₁ mid s₂)
    (honce : mid.Pairwise fun st st' => TurnStep.CreditEvent st g →
      ∀ k, TurnStep.turn st' = some k → k.base = base → k.group ≠ g) :
    (mid.map (TurnStep.creditOn base g)).sum ≤ budgetQuantum := by
  refine sum_le_of_once (fun st hst => ?_) (honce.imp fun {st st'} hafter hpos => ?_)
  · obtain ⟨tr', hrun, -, -⟩ := hmid.step_of_mem hst
    by_cases hzero : TurnStep.creditOn base g st = 0
    · rw [hzero]
      exact Nat.zero_le _
    · obtain ⟨k, ⟨hk, -⟩, -, -, heq⟩ := TurnStep.creditOn_ne_zero hzero
      rw [heq]
      obtain ⟨pre, a, post⟩ := st
      cases a with
      | call | charge => cases hk
      | round =>
        obtain ⟨l, -, -, -, -, hquantum⟩ := (lined_of_run hl hrun).turn_head hk
        exact hquantum
  · by_contra hmore
    obtain ⟨k, hk, -, hkg, -⟩ := TurnStep.creditOn_ne_zero hpos
    obtain ⟨k', hk', hbase, hkg', -⟩ := TurnStep.creditOn_ne_zero hmore
    exact hafter ⟨k, hk, hkg⟩ k' hk'.1 hbase hkg'

end TurnState

/-- **Round robin between groups.** In an interval in which `h` gets no credit, another group gets
no base turn after its first credit while `h` has a queued waiter, and is not chosen for the
reserve after it while `h` is in `reserveReady`. On either path it gets one quantum at most. -/
theorem round_robin {s₀ s₁ s₂ : TurnState} {tr mid : List TurnStep} (hf : FreshTurns s₀)
    (hrun : Machine.Run sectionMachine s₀ tr s₁) (hmid : Machine.Run sectionMachine s₁ mid s₂)
    {g h : GroupId} (hne : g ≠ h) (hno : ∀ st ∈ mid, ¬ TurnStep.CreditEvent st h) :
    ((∀ st ∈ mid, (st.pre.bb.groupAt h).waiters ≠ [] ∧ (st.post.bb.groupAt h).waiters ≠ []) →
      (mid.Pairwise fun st st' => TurnStep.CreditEvent st g → ¬ TurnStep.BaseEvent st' g) ∧
        (mid.map (TurnStep.creditOn true g)).sum ≤ budgetQuantum) ∧
    ((∀ st ∈ mid, h ∈ st.pre.bb.reserveReady ∧ h ∈ st.post.bb.reserveReady) →
      (mid.Pairwise fun st st' => TurnStep.CreditEvent st g → ¬ TurnStep.ReserveChoice st' g) ∧
        (mid.map (TurnStep.creditOn false g)).sum ≤ budgetQuantum) := by
  have hl := TurnState.lined_of_run (TurnState.lined_fresh hf) hrun
  constructor
  · intro hqueued
    have hin : ∀ st ∈ mid, h ∈ st.post.bb.line true := by
      intro st hst
      obtain ⟨tr', hpre, hg, hpost, -⟩ := hmid.step_of_mem hst
      have hafter := TurnState.lined_of_run hl (hpre.step st.act hg)
      rw [← hpost] at hafter
      exact (hafter.index.queued h).2 (hqueued st hst).2
    have hafter := (TurnState.turns_after_credit hl hmid hne hno hin).2
    refine ⟨hafter.imp fun {st st'} hturn hcredit => ?_,
      TurnState.creditOn_le_quantum hl hmid hafter⟩
    rintro ⟨k, hk, hbase, hkg⟩
    exact hturn hcredit k hk.1 hbase hkg
  · intro hready
    have hin : ∀ st ∈ mid, h ∈ st.post.bb.line false := fun st hst => (hready st hst).2
    have hafter := (TurnState.turns_after_credit hl hmid hne hno hin).2
    refine ⟨hafter.imp fun {st st'} hturn hcredit => ?_,
      TurnState.creditOn_le_quantum hl hmid hafter⟩
    rintro ⟨k, hk, hbase, hkg⟩
    exact hturn hcredit k hk hbase hkg

/-- The third of three groups fills the room outside the reserve, then the other two queue up. -/
def twoQueues : List TurnAct :=
  [.call (.register "A"), .call (.register "B"), .call (.register "C"),
    .call (.reserveFor 900 false (some 3) none), .call (.reserveFor 500 false (some 1) none),
    .round, .round, .call (.reserveFor 500 false (some 2) none), .round]

/-- The third group gives bytes back, which go to the first. -/
def firstServed : List TurnAct := [.call (.releaseFor 150 0 (some 3)), .round, .round]

/-- The same with small requests, which may draw on the reserve. -/
def twoSmallQueues : List TurnAct :=
  [.call (.register "A"), .call (.register "B"), .call (.register "C"),
    .call (.reserveFor 900 false (some 3) none), .call (.reserveFor 190 false (some 1) none),
    .round, .round, .call (.reserveFor 50 false (some 2) none), .round]

def firstFromReserve : List TurnAct := [.call (.releaseFor 30 0 (some 3)), .round, .round]

theorem second_queue_is_next :
    (0 < ((sectionMachine.trace (sectionMachine.exec (TurnState.ofFair fairStart) twoQueues)
        firstServed).map (TurnStep.creditOn true 1)).sum ∧
      (sectionMachine.trace (sectionMachine.exec (TurnState.ofFair fairStart) twoQueues)
        firstServed).Pairwise fun st st' =>
          TurnStep.CreditEvent st 1 → ¬ TurnStep.BaseEvent st' 1) ∧
    (0 < ((sectionMachine.trace (sectionMachine.exec (TurnState.ofFair fairStart) twoSmallQueues)
        firstFromReserve).map (TurnStep.creditOn false 1)).sum ∧
      (sectionMachine.trace (sectionMachine.exec (TurnState.ofFair fairStart) twoSmallQueues)
        firstFromReserve).Pairwise fun st st' =>
          TurnStep.CreditEvent st 1 → ¬ TurnStep.ReserveChoice st' 1) := by
  have hfresh : FreshTurns (TurnState.ofFair fairStart) := ⟨⟨1000, ⟨100, 256⟩, rfl⟩, rfl, rfl⟩
  refine ⟨⟨by decide +kernel, ?_⟩, by decide +kernel, ?_⟩
  · exact ((round_robin (g := 1) (h := 2) hfresh (Machine.run_exec twoQueues (by decide +kernel))
      (Machine.run_exec firstServed (by decide +kernel)) (by decide) (by decide +kernel)).1
      (by decide +kernel)).1
  · exact ((round_robin (g := 1) (h := 2) hfresh
      (Machine.run_exec twoSmallQueues (by decide +kernel))
      (Machine.run_exec firstFromReserve (by decide +kernel)) (by decide) (by decide +kernel)).2
      (by decide +kernel)).1

end UspClient
