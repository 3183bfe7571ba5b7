import UspClient.Lib.Loop
import UspClient.Budget.Calls

/-!
# The loops of the scheduler end

`scheduleLocked` is a loop without a bound, and `nextReserveLocked` holds two more. The model runs
each of them on fuel; here they are the loops of the source, and the results of the model are
theirs. The first loop of `nextReserveLocked` ends as each turn takes a group out of the heap, the
second as each turn takes one out of `reserveReady` and none comes back, and `scheduleLocked` as
each round hands out some of the bytes that the queued waiters lack.
-/

namespace UspClient

open Word64 ByteBudget

namespace ByteBudget

variable {bb t u : ByteBudget} {g : GroupId} {out : Finset WaiterId}

/-! ## The loops of the source -/

/-- The body of the first loop of `nextReserveLocked`. -/
def promoteBody (bb : ByteBudget) : ByteBudget ⊕ ByteBudget :=
  match bb.blocked with
  | [] => .inl bb
  | g :: _ =>
    if bb.groupNeed g > bb.share g then .inl bb
    else
      let bb := bb.heapPop
      .inr { (bb.setGroup g fun x => { x with reserveElem := true }) with
        reserveReady := bb.reserveReady ++ [g] }

/-- The body of the second loop. -/
def demoteBody (bb : ByteBudget) : (ByteBudget × Option GroupId) ⊕ ByteBudget :=
  match bb.reserveReady with
  | [] => .inl (bb, none)
  | g :: _ =>
    if bb.groupNeed g ≤ bb.share g then .inl (bb, some g) else .inr (bb.refreshLocked g)

/-- The body of the loop of `scheduleLocked`. -/
def scheduleBody (bb : ByteBudget) : ByteBudget ⊕ ByteBudget :=
  match bb.scheduleRound with
  | (bb, false) => .inl bb
  | (bb, true) => .inr bb

theorem promoteLoop_eq (fuel : Nat) (bb : ByteBudget) :
    promoteLoop fuel bb = Loop.bounded promoteBody id fuel bb := by
  induction fuel generalizing bb with
  | zero => rfl
  | succ fuel ih =>
    unfold promoteLoop Loop.bounded promoteBody
    cases bb.blocked with
    | nil => rfl
    | cons g l =>
      simp only
      split_ifs
      · rfl
      · exact ih _

theorem demoteLoop_eq (fuel : Nat) (bb : ByteBudget) :
    demoteLoop fuel bb = Loop.bounded demoteBody (fun bb => (bb, none)) fuel bb := by
  induction fuel generalizing bb with
  | zero => rfl
  | succ fuel ih =>
    unfold demoteLoop Loop.bounded demoteBody
    cases bb.reserveReady with
    | nil => rfl
    | cons g l =>
      simp only
      split_ifs
      · rfl
      · exact ih _

theorem scheduleLoop_eq (fuel : Nat) (bb : ByteBudget) :
    scheduleLoop fuel bb = Loop.bounded scheduleBody id fuel bb := by
  induction fuel generalizing bb with
  | zero => rfl
  | succ fuel ih =>
    unfold scheduleLoop Loop.bounded scheduleBody
    rcases bb.scheduleRound with ⟨t, go⟩
    cases go with
    | false => rfl
    | true => exact ih t

/-! ## The loops of `nextReserveLocked` -/

theorem promoteBody_again (hi : Index t) (h : promoteBody t = .inr u) :
    Index u ∧ u.blocked.length < t.blocked.length := by
  unfold promoteBody at h
  cases hb : t.blocked with
  | nil =>
    rw [hb] at h
    cases h
  | cons g l =>
    have hg : t.blocked[0]? = some g := by
      rw [hb]
      rfl
    rw [hb] at h
    simp only at h
    split_ifs at h
    rw [promote_eq hi hg] at h
    rcases promote_index hi hg with ⟨hu, -, -, hlen⟩
    cases Sum.inr.inj h
    rw [hb] at hlen
    exact ⟨hu, by omega⟩

theorem promoteLoop_ends (hi : Index bb) :
    Loop.Ends promoteBody bb (promoteLoop bb.blocked.length bb) := by
  rw [promoteLoop_eq]
  refine Loop.ends_bounded Index (fun t => t.blocked.length) id
    (fun t u => promoteBody_again) (fun t _ hzero => ?_) _ hi le_rfl
  unfold promoteBody
  rw [List.length_eq_zero_iff.1 hzero]
  rfl

theorem demoteBody_again (hf : t.fair = true) (hi : Index t) (h : demoteBody t = .inr u) :
    (u.fair = true ∧ Index u) ∧ u.reserveReady.length < t.reserveReady.length := by
  unfold demoteBody at h
  cases hr : t.reserveReady with
  | nil =>
    rw [hr] at h
    cases h
  | cons g l =>
    rw [hr] at h
    simp only at h
    split_ifs at h with hneed
    have hnot : t.eligible g = false := by
      unfold eligible
      rw [hf, decide_eq_false hneed]
      rfl
    rcases demote_index hi hr hnot with ⟨hu, hcore, -, hready⟩
    cases Sum.inr.inj h
    refine ⟨⟨(fair_of_core hcore).trans hf, hu⟩, ?_⟩
    rw [hready, List.length_cons]
    exact Nat.lt_succ_self _

theorem demoteLoop_ends (hf : bb.fair = true) (hi : Index bb) :
    Loop.Ends demoteBody bb (demoteLoop bb.reserveReady.length bb) := by
  rw [demoteLoop_eq]
  refine Loop.ends_bounded (fun t => t.fair = true ∧ Index t) (fun t => t.reserveReady.length) _
    (fun t u ht => demoteBody_again ht.1 ht.2) (fun t _ hzero => ?_) _ ⟨hf, hi⟩ le_rfl
  unfold demoteBody
  rw [List.length_eq_zero_iff.1 hzero]

theorem nextReserveLocked_ends (hf : bb.fair = true) (hi : Index bb) :
    ∃ s, Loop.Ends promoteBody bb s ∧ Loop.Ends demoteBody s bb.nextReserveLocked := by
  rcases promoteLoop_spec bb.blocked.length bb hi le_rfl with ⟨hi', hcore, -⟩
  exact ⟨_, promoteLoop_ends hi, demoteLoop_ends ((fair_of_core hcore).trans hf) hi'⟩

/-- The group that the second loop stops at may draw on the reserve. -/
theorem demoteLoop_eligible (fuel : Nat) (bb : ByteBudget)
    (hg : (demoteLoop fuel bb).2 = some g) : (demoteLoop fuel bb).1.eligible g = true := by
  induction fuel generalizing bb with
  | zero => cases hg
  | succ fuel ih =>
    unfold demoteLoop at hg ⊢
    cases hr : bb.reserveReady with
    | nil =>
      rw [hr] at hg
      cases hg
    | cons k l =>
      rw [hr] at hg
      simp only at hg ⊢
      split_ifs at hg ⊢ with hneed
      · cases Option.some.inj hg
        unfold eligible
        rw [decide_eq_true hneed, Bool.or_true]
      · exact ih _ hg

/-! ## The rounds of `scheduleLocked` -/

/-- Every queued waiter asks for some bytes. -/
def Asking (bb : ByteBudget) (out : Finset WaiterId) : Prop :=
  ∀ w ∈ out, (bb.waiterAt w).granted = false → 0 < (bb.waiterAt w).n

/-- The room of a turn: outside the reserve for the front of `waiting`, in the reserve for a group
that may draw on it. -/
theorem turn_room (hl : Lined bb out) {k : Turn} (hk : bb.turn = some k) :
    bb.total = 0 ∨ (sub64 bb.used bb.escape < bb.total ∧
      (bb.eligible k.group = true ∨ bb.baseRoom ≠ 0)) := by
  have hcore := (chosen_picked hl.fair hl.index).core
  unfold turn at hk
  split_ifs at hk with hidle
  rcases Option.map_eq_some_iff.1 hk with ⟨g, hg, rfl⟩
  have hchosen : bb.chosen = (bb.pickGroup bb.baseRoom).1 := if_neg hidle
  by_cases htotal : bb.total = 0
  · exact .inl htotal
  · have hroom : sub64 bb.used bb.escape < bb.total := by
      by_contra hfull
      exact hidle (.inr ⟨htotal, Nat.le_of_not_lt hfull⟩)
    refine .inr ⟨hroom, ?_⟩
    by_cases hbase : bb.baseRoom = 0
    · -- no room outside the reserve: the group comes from `nextReserveLocked`
      have hpick : bb.pickGroup bb.baseRoom = bb.nextReserveLocked := by
        unfold pickGroup
        rw [if_neg]
        rw [hl.fair, not_or]
        exact ⟨not_not.2 hbase, Bool.false_ne_true⟩
      rw [hpick] at hg hchosen
      have helig : bb.chosen.core.eligible g = true := by
        rw [hchosen]
        exact demoteLoop_eligible _ _ hg
      rw [hcore] at helig
      exact .inl helig
    · exact .inr hbase

/-- A turn has some bytes to hand out. -/
theorem turn_credit_pos (hl : Lined bb out) (hask : Asking bb out) {k : Turn}
    (hk : bb.turn = some k) : 0 < k.credit := by
  rcases hl.turn_head hk with ⟨l, -, hout, hgranted, -⟩
  rcases turn_front hl.fair hl.index hk with ⟨-, -, -, hcredit⟩
  have hlack : 0 < sub64 (bb.waiterAt k.waiter).n (bb.waiterAt k.waiter).credit := by
    rw [sub64_eq (hl.queues.credit_le hout) (hl.lt _ hout)]
    have hn := hask _ hout hgranted
    rcases hl.queues.short _ hout hgranted with hzero | hless <;> omega
  rw [hcredit]
  exact creditFor_pos hlack (turn_room hl hk)

/-- A round that goes on charges the credit of its turn. -/
theorem scheduleBody_again (hl : Lined t out) (h : scheduleBody t = .inr u) :
    u = t.scheduleRound.1 ∧ t.scheduleRound.2 = true ∧ ∃ k, t.turn = some k ∧ k.credit ≠ 0 ∧
      u.charges = t.chosen.chargeRecord k.credit k.group false :: t.charges := by
  have hround : t.scheduleRound = (u, true) := by
    unfold scheduleBody at h
    generalize t.scheduleRound = r at h ⊢
    rcases r with ⟨v, go⟩
    cases go with
    | false => cases h
    | true => rw [Sum.inr.inj h]
  rw [hround]
  refine ⟨rfl, rfl, ?_⟩
  rw [scheduleRound_eq] at hround
  cases hk : t.turn with
  | none =>
    rw [hk] at hround
    exact absurd (congrArg Prod.snd hround) Bool.false_ne_true
  | some k =>
    rw [hk] at hround
    simp only at hround
    split_ifs at hround with hzero
    · exact absurd (congrArg Prod.snd hround) Bool.false_ne_true
    refine ⟨k, rfl, hzero, ?_⟩
    rcases hl.turn_credit hk hzero with ⟨-, -, -, -, hcore⟩
    rcases Prod.mk.inj hround with ⟨rfl, -⟩
    have hcharges := congrArg ByteBudget.charges hcore
    have hbefore := congrArg ByteBudget.charges (chosen_picked hl.fair hl.index).core
    simp only [core] at hcharges hbefore
    rw [hcharges, giveCredit_charges, charge_charges hl.chosen.fair, hbefore]

/-- A round asks for nothing: it takes waiters out of the queues and leaves the others. -/
theorem Asking.round (hl : Lined bb out) (hask : Asking bb out) :
    Asking bb.scheduleRound.1 out := by
  have hat : bb.chosen.waiterAt = bb.waiterAt :=
    waiterAt_of_core (chosen_picked hl.fair hl.index).core
  rw [scheduleRound_eq]
  cases hk : bb.turn with
  | none =>
    intro w hw hgranted
    rw [hat] at hgranted ⊢
    exact hask w hw hgranted
  | some k =>
    simp only
    split_ifs with hzero
    · intro w hw hgranted
      rw [hat] at hgranted ⊢
      exact hask w hw hgranted
    · rcases hl.turn_credit hk hzero with ⟨-, -, hrigid, hgave, hcore⟩
      intro v hv hgranted
      rw [hrigid.waiter_n, hat]
      rw [waiterAt_of_core hcore] at hgranted
      refine hask v hv ?_
      by_cases hvw : v = k.waiter
      · rw [hvw, hgave.waiter] at hgranted
        rw [hvw, ← hat]
        exact (Bool.or_eq_false_iff.1 hgranted).1
      · rw [hgave.rest v hvw, hat] at hgranted
        exact hgranted

theorem scheduleLocked_ends (hl : Lined bb out) :
    Loop.Ends scheduleBody bb bb.scheduleLocked := by
  unfold scheduleLocked
  rw [scheduleLoop_eq, backlog_eq hl.index hl.queues]
  refine Loop.ends_bounded (fun t => Lined t out) (fun t => t.lacking out + 1) id
    (fun t u ht h => ?_) (fun t _ hzero => absurd hzero (Nat.succ_ne_zero _)) _ hl le_rfl
  rcases scheduleBody_again ht h with ⟨rfl, hgo, -⟩
  rcases ht.round with ⟨hnext, hless⟩
  exact ⟨hnext, Nat.succ_lt_succ (hless hgo)⟩

/-- What the loop of `scheduleLocked` does when it comes to the state `t`. -/
structure Productive (t : ByteBudget) : Prop where
  /-- The loops of `nextReserveLocked` end. -/
  reserve : ∃ s, Loop.Ends promoteBody t s ∧ Loop.Ends demoteBody s t.nextReserveLocked
  /-- The round does not return at `credit == 0`. -/
  guard : ∀ k, t.turn = some k → k.credit ≠ 0
  /-- A round that does not return charges some bytes to the group it picked. -/
  charge : ∀ u, scheduleBody t = .inr u → ∃ k c, t.turn = some k ∧ u.charges = c :: t.charges ∧
    c.group = k.group ∧ c.n = k.credit ∧ 0 < c.n

theorem Lined.productive (hl : Lined t out) (hask : Asking t out) : Productive t := by
  constructor
  · exact nextReserveLocked_ends hl.fair hl.index
  · exact fun k hk => (turn_credit_pos hl hask hk).ne'
  · intro u hu
    rcases scheduleBody_again hl hu with ⟨-, -, k, hk, hne, hcharges⟩
    exact ⟨k, _, hk, hcharges, rfl, rfl, Nat.pos_of_ne_zero hne⟩

/-- Every state the loop comes to has its queues in order and nobody waits for no bytes. -/
theorem Lined.visits (hl : Lined bb out) (hask : Asking bb out)
    (h : Loop.Visits scheduleBody bb t) : Lined t out ∧ Asking t out := by
  refine Loop.Visits.invariant (fun t => Lined t out ∧ Asking t out) ⟨hl, hask⟩ ?_ h
  intro t u ht hu
  rcases scheduleBody_again ht.1 hu with ⟨rfl, -⟩
  exact ⟨ht.1.round.1, ht.2.round ht.1⟩

end ByteBudget

/-- **Scheduling ends**, and every round that goes on makes progress. -/
theorem scheduling_ends {s₀ s : TurnState} {tr : List TurnStep} (hf : FreshTurns s₀)
    (hrun : Machine.Run sectionMachine s₀ tr s)
    (hask : ∀ g, ∀ w ∈ (s.bb.groupAt g).waiters, 0 < (s.bb.waiterAt w).n) :
    Loop.Ends scheduleBody s.bb s.bb.scheduleLocked ∧
      ∀ t, Loop.Visits scheduleBody s.bb t → Productive t := by
  have hl := TurnState.lined_of_run (TurnState.lined_fresh hf) hrun
  have hasking : Asking s.bb s.out := fun w hw hgranted =>
    hask (s.bb.waiterAt w).group w ((hl.queues.mem _ _).2 ⟨hw, rfl, hgranted⟩)
  refine ⟨scheduleLocked_ends hl, fun t ht => ?_⟩
  rcases hl.visits hasking ht with ⟨hlt, haskt⟩
  exact hlt.productive haskt

/-- A group uses all that is not reserved, and another asks for 300 bytes. -/
def drawReserve : List TurnAct :=
  [.call (.register "A"), .call (.register "B"), .call (.reserveFor 900 false (some 1) none),
    .call (.reserveFor 300 false (some 2) none)]

theorem draw_reserve_ends :
    Loop.Ends scheduleBody (sectionMachine.exec ⟨fairStart.bb, ∅, .idle⟩ drawReserve).bb
        (sectionMachine.exec ⟨fairStart.bb, ∅, .idle⟩ drawReserve).bb.scheduleLocked ∧
      (sectionMachine.exec ⟨fairStart.bb, ∅, .idle⟩ drawReserve).bb.turn = some ⟨2, 0, false, 100⟩ ∧
      (sectionMachine.exec ⟨fairStart.bb, ∅, .idle⟩ drawReserve).bb.scheduleRound.2 = true := by
  have hfresh : FreshTurns ⟨fairStart.bb, ∅, .idle⟩ := ⟨⟨1000, ⟨100, 256⟩, rfl⟩, rfl, rfl⟩
  have hrun := Machine.run_exec drawReserve
    (TurnState.enabled_sections (s := ⟨fairStart.bb, ∅, .idle⟩) (by decide +kernel))
  have hl := TurnState.lined_of_run (TurnState.lined_fresh hfresh) hrun
  have hall : ∀ w ∈ (sectionMachine.exec ⟨fairStart.bb, ∅, .idle⟩ drawReserve).out,
      0 < ((sectionMachine.exec ⟨fairStart.bb, ∅, .idle⟩ drawReserve).bb.waiterAt w).n := by
    decide +kernel
  exact ⟨(scheduling_ends hfresh hrun fun g w hw => hall w ((hl.queues.mem g w).1 hw).1).1,
    by decide +kernel, by decide +kernel⟩

end UspClient
