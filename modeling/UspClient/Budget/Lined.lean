import UspClient.Budget.Fair

/-!
# Queues and indexes, whatever the counters are

The queues and the indexes of a fair budget do not depend on its counters, so nothing here
assumes that they do not overflow. `Lined` is what every section of a fair budget keeps: the
queues hold the outstanding waiters that are not granted, and the indexes agree with them. A
round of `scheduleLocked` is cut into its pick (`chosen`, `turn`) and its credit.
-/

namespace UspClient

open Word64 ByteBudget

/-- What a round of `scheduleLocked` picks: a group and its head, whether the group was taken
from the front of `waiting`, and the credit. -/
structure Turn where
  group : GroupId
  waiter : WaiterId
  base : Bool
  credit : Nat
deriving DecidableEq, Repr

namespace ByteBudget

variable {bb s t : ByteBudget} {g h : GroupId} {w v : WaiterId} {n c : Nat}
variable {out : Finset WaiterId}

/-! ## The group of a round -/

/-- A round that does not look at the groups. -/
def Idle (bb : ByteBudget) : Prop :=
  bb.waiting = [] ∨ (bb.total ≠ 0 ∧ bb.total ≤ sub64 bb.used bb.escape)

instance (bb : ByteBudget) : Decidable bb.Idle := inferInstanceAs (Decidable (_ ∨ _))

/-- The budget once the round has picked. -/
def chosen (bb : ByteBudget) : ByteBudget :=
  if bb.Idle then bb else (bb.pickGroup bb.baseRoom).1

/-- The pick of a round, if it makes one. -/
def turn (bb : ByteBudget) : Option Turn :=
  if bb.Idle then none
  else (bb.pickGroup bb.baseRoom).2.map fun g =>
    let w := (bb.chosen.groupAt g).waiters.headD 0
    ⟨g, w, decide (bb.baseRoom ≠ 0), bb.chosen.creditFor bb.baseRoom g w⟩

/-- A round without a credit returns; one with a credit hands it out and rotates the lists. -/
theorem scheduleRound_eq (bb : ByteBudget) :
    bb.scheduleRound = match bb.turn with
      | none => (bb.chosen, false)
      | some k =>
        if k.credit = 0 then (bb.chosen, false)
        else (((bb.chosen.giveCredit k.group k.waiter k.credit).refreshLocked k.group).rotate
          k.group, true) := by
  by_cases hidle : bb.Idle
  · have hturn : bb.turn = none := if_pos hidle
    have hchosen : bb.chosen = bb := if_pos hidle
    rw [hturn, hchosen]
    unfold scheduleRound
    rcases hidle with hempty | hfull
    · rw [if_pos hempty]
    · rw [if_pos hfull, ite_self]
  · have hchosen : bb.chosen = (bb.pickGroup bb.baseRoom).1 := if_neg hidle
    have hturn : bb.turn = (bb.pickGroup bb.baseRoom).2.map fun g => _ := if_neg hidle
    rw [hturn, hchosen]
    unfold Idle at hidle
    rw [not_or] at hidle
    unfold scheduleRound
    rw [if_neg hidle.1, if_neg hidle.2]
    simp only
    cases (bb.pickGroup bb.baseRoom).2 with
    | none => rfl
    | some g => rfl

theorem round_of_credit {k : Turn} (hk : bb.turn = some k) (hne : k.credit ≠ 0) :
    bb.scheduleRound.1 =
      ((bb.chosen.giveCredit k.group k.waiter k.credit).refreshLocked k.group).rotate k.group := by
  rw [scheduleRound_eq, hk]
  simp only
  rw [if_neg hne]

theorem round_of_no_credit (hno : ¬ ∃ k, bb.turn = some k ∧ k.credit ≠ 0) :
    bb.scheduleRound.1 = bb.chosen := by
  rw [scheduleRound_eq]
  cases hk : bb.turn with
  | none => rfl
  | some k =>
    have hzero : k.credit = 0 := by
      by_contra hne
      exact hno ⟨k, hk, hne⟩
    simp only
    rw [if_pos hzero]

/-! ## Picking -/

/-- The second loop of `nextReserveLocked` drops groups from the front of `reserveReady`, and
answers the group it stops at. -/
theorem demoteLoop_front (fuel : Nat) (bb : ByteBudget) (hf : bb.fair = true) (hi : Index bb) :
    Index (demoteLoop fuel bb).1 ∧ (demoteLoop fuel bb).1.core = bb.core ∧
      (demoteLoop fuel bb).1.waiting = bb.waiting ∧
      (∃ front, bb.reserveReady = front ++ (demoteLoop fuel bb).1.reserveReady) ∧
      ∀ g, (demoteLoop fuel bb).2 = some g →
        (demoteLoop fuel bb).1.reserveReady.head? = some g := by
  induction fuel generalizing bb with
  | zero => exact ⟨hi, rfl, rfl, ⟨[], rfl⟩, fun g hg => absurd hg (Option.some_ne_none g).symm⟩
  | succ fuel ih =>
    unfold demoteLoop
    cases hr : bb.reserveReady with
    | nil =>
      refine ⟨hi, rfl, rfl, ⟨[], ?_⟩, fun g hg => absurd hg (Option.some_ne_none g).symm⟩
      exact hr.symm
    | cons g l =>
      simp only
      split_ifs with hneed
      · refine ⟨hi, rfl, rfl, ⟨[], hr.symm⟩, fun g' hg' => ?_⟩
        rw [hr]
        exact hg'
      · have hnot : bb.eligible g = false := by
          unfold eligible
          rw [hf, decide_eq_false hneed]
          rfl
        obtain ⟨hi', hc', hw', hl'⟩ := demote_index hi hr hnot
        obtain ⟨hi₁, hc₁, hw₁, ⟨front, hfront⟩, hhead⟩ :=
          ih (bb.refreshLocked g) ((fair_of_core hc').trans hf) hi'
        refine ⟨hi₁, hc₁.trans hc', hw₁.trans hw', ⟨g :: front, ?_⟩, hhead⟩
        rw [List.cons_append, ← hfront, hl']

/-- The first loop appends groups to `reserveReady`. -/
theorem promoteLoop_back (fuel : Nat) (bb : ByteBudget) (hi : Index bb) :
    ∃ more, (promoteLoop fuel bb).reserveReady = bb.reserveReady ++ more := by
  induction fuel generalizing bb with
  | zero => exact ⟨[], (List.append_nil _).symm⟩
  | succ fuel ih =>
    unfold promoteLoop
    cases hb : bb.blocked with
    | nil => exact ⟨[], (List.append_nil _).symm⟩
    | cons g l =>
      have hg : bb.blocked[0]? = some g := by
        rw [hb]
        rfl
      simp only
      split_ifs
      · exact ⟨[], (List.append_nil _).symm⟩
      · have hready : bb.heapPop.reserveReady = bb.reserveReady :=
          reserveReady_of_heapless (heapPop_spec hi.back hi.ord hg).rest
        have hpushed : (bb.heapPop.enterReserve g).reserveReady = bb.reserveReady ++ [g] := by
          rw [← hready, ← promote_eq hi hg]
        rw [promote_eq hi hg]
        obtain ⟨more, hmore⟩ := ih _ (promote_index hi hg).1
        refine ⟨g :: more, ?_⟩
        rw [hmore, hpushed, List.append_assoc]
        rfl

/-- What picking a group changes: groups move between `reserveReady` and the heap. They leave
`reserveReady` at its front and join it at its back. -/
structure Picked (bb t : ByteBudget) : Prop where
  index : Index t
  core : t.core = bb.core
  waiting : t.waiting = bb.waiting
  reserve : ∃ front more, bb.reserveReady ++ more = front ++ t.reserveReady ∧
    (bb.reserveReady ++ more).Nodup

theorem Picked.refl (hi : Index bb) : Picked bb bb := by
  refine ⟨hi, rfl, rfl, [], [], List.append_nil _, ?_⟩
  rw [List.append_nil]
  exact hi.reserve_nodup

theorem nextReserveLocked_picked (hf : bb.fair = true) (hi : Index bb) :
    Picked bb bb.nextReserveLocked.1 ∧ ∀ g, bb.nextReserveLocked.2 = some g →
      bb.nextReserveLocked.1.reserveReady.head? = some g := by
  obtain ⟨hi₁, hc₁, hw₁, -⟩ := promoteLoop_spec bb.blocked.length bb hi le_rfl
  obtain ⟨more, hmore⟩ := promoteLoop_back bb.blocked.length bb hi
  obtain ⟨hi₂, hc₂, hw₂, ⟨front, hfront⟩, hhead⟩ := demoteLoop_front
    (promoteLoop bb.blocked.length bb).reserveReady.length _ ((fair_of_core hc₁).trans hf) hi₁
  refine ⟨⟨hi₂, hc₂.trans hc₁, hw₂.trans hw₁, front, more, ?_⟩, hhead⟩
  rw [← hmore]
  exact ⟨hfront, hi₁.reserve_nodup⟩

theorem chosen_picked (hf : bb.fair = true) (hi : Index bb) : Picked bb bb.chosen := by
  unfold chosen pickGroup
  split_ifs
  · exact Picked.refl hi
  · exact Picked.refl hi
  · exact (nextReserveLocked_picked hf hi).1

/-- A turn goes to the front of `waiting`, or of what is left of `reserveReady`. -/
theorem turn_front (hf : bb.fair = true) (hi : Index bb) {k : Turn} (hk : bb.turn = some k) :
    (k.base = true → bb.waiting.head? = some k.group) ∧
      (k.base = false → bb.chosen.reserveReady.head? = some k.group) ∧
      k.waiter = (bb.groupAt k.group).waiters.headD 0 ∧
      k.credit = bb.creditFor bb.baseRoom k.group k.waiter := by
  have hcore := (chosen_picked hf hi).core
  unfold turn at hk
  split_ifs at hk with hidle
  obtain ⟨g, hg, rfl⟩ := Option.map_eq_some_iff.1 hk
  have hchosen : bb.chosen = (bb.pickGroup bb.baseRoom).1 := if_neg hidle
  simp only
  rw [waiters_of_core hcore]
  have hcredit : ∀ w, bb.chosen.core.creditFor bb.baseRoom g w =
      bb.core.creditFor bb.baseRoom g w := fun w => by rw [hcore]
  refine ⟨fun hbase => ?_, fun hbase => ?_, rfl, hcredit _⟩
  · unfold pickGroup at hg
    rw [if_pos (.inl (of_decide_eq_true hbase))] at hg
    exact hg
  · have hzero : ¬ (bb.baseRoom ≠ 0 ∨ (!bb.fair) = true) := by
      rw [hf, not_or]
      exact ⟨of_decide_eq_false hbase, Bool.false_ne_true⟩
    unfold pickGroup at hg hchosen
    rw [if_neg hzero] at hg hchosen
    rw [hchosen]
    exact (nextReserveLocked_picked hf hi).2 g hg

theorem turn_mem (hf : bb.fair = true) (hi : Index bb) {k : Turn} (hk : bb.turn = some k) :
    k.group ∈ bb.waiting := by
  obtain ⟨hbase, hreserve, -⟩ := turn_front hf hi hk
  have hpicked := chosen_picked hf hi
  cases hb : k.base with
  | true => exact List.mem_of_mem_head? (hbase hb)
  | false =>
    rw [← hpicked.waiting, hpicked.index.both]
    exact .inl (List.mem_of_mem_head? (hreserve hb))

/-! ## What every section keeps -/

/-- The queues of a fair budget. -/
structure Lanes (bb : ByteBudget) (out : Finset WaiterId) : Prop where
  fair : bb.fair = true
  queues : Queues bb out
  lt : ∀ w ∈ out, (bb.waiterAt w).n < 2 ^ 64

/-- The queues with the indexes between two sections. -/
structure Lined (bb : ByteBudget) (out : Finset WaiterId) : Prop extends Lanes bb out where
  index : Index bb

theorem Lanes.of_core (hl : Lanes bb out) (hc : s.core = bb.core) : Lanes s out := by
  refine ⟨(fair_of_core hc).trans hl.fair, hl.queues.of_core hc, ?_⟩
  rw [waiterAt_of_core hc]
  exact hl.lt

theorem Lanes.of_touches (hl : Lanes bb out) (ht : Touches bb s g) : Lanes s out := by
  refine ⟨ht.fair.trans hl.fair, hl.queues.of_touches ht, ?_⟩
  rw [ht.waiterAt]
  exact hl.lt

theorem Lanes.refresh (hl : Lanes bb out) (hi : IndexOff bb g) : Lined (bb.refreshLocked g) out :=
  ⟨hl.of_core (refreshLocked_core hi), refreshLocked_index hi⟩

theorem Lined.of_core (hl : Lined bb out) (hc : s.core = bb.core) (hi : Index s) : Lined s out :=
  ⟨hl.toLanes.of_core hc, hi⟩

/-- A section that writes to the counters of `g`, and refreshes it if it has a queue. -/
theorem Lined.touch (hl : Lined bb out) (ht : Touches bb s g) :
    Lined (if (s.groupAt g).waiters = [] then s else s.refreshLocked g) out := by
  split_ifs with hempty
  · refine ⟨hl.toLanes.of_touches ht, hl.index.of_touches ht ?_⟩
    rw [← ht.waiters]
    exact hempty
  · exact (hl.toLanes.of_touches ht).refresh (hl.index.off_touches ht)

theorem Lanes.remove (hl : Lanes bb out) (hrem : Removed bb s g w) : Lanes s (out.erase w) := by
  refine ⟨hrem.frame.fair.trans hl.fair, hl.queues.remove hrem, ?_⟩
  intro v hv
  rw [hrem.rest v (Finset.ne_of_mem_erase hv)]
  exact hl.lt v (Finset.mem_of_mem_erase hv)

theorem Lined.removeWaiterLocked (hl : Lined bb out) (hw : w ∈ out) :
    Lined (bb.removeWaiterLocked w) (out.erase w) := by
  have hrem := remove_spec hl.queues hw rfl
  exact (hl.toLanes.remove hrem).refresh (hl.index.off_removed hl.queues hrem rfl)

theorem Lined.settle (hl : Lined bb out) (hgr : (bb.waiterAt w).granted = true) (g : GroupId) :
    Lined (bb.settle g) (out.erase w) :=
  ⟨hl.toLanes.remove (settle_removed hl.queues hgr), settle_index hl.index g⟩

theorem Lanes.enqueue (hl : Lanes bb out) (hg : g < bb.nextGroup) (hlt : n < 2 ^ 64) :
    Lanes (bb.enqueue n g) (insert bb.nextWaiter out) := by
  have he := enqueue_spec bb n g
  refine ⟨he.frame.fair.trans hl.fair, hl.queues.insert hg he rfl rfl rfl rfl, ?_⟩
  intro w hw
  rcases Finset.mem_insert.1 hw with rfl | hin
  · rw [he.waiter]
    exact hlt
  · rw [he.rest w (hl.queues.fresh w hin).ne]
    exact hl.lt w hin

theorem Lined.enqueue (hl : Lined bb out) (hg : g < bb.nextGroup) (hlt : n < 2 ^ 64) :
    Lined (((bb.enqueue n g).activateLocked g).refreshLocked g) (insert bb.nextWaiter out) :=
  ((hl.toLanes.enqueue hg hlt).of_touches (activateLocked_touches (bb.enqueue n g) g)).refresh
    (enqueue_off hl.index hl.queues n g)

/-- A turn goes to the head of a queue, and its credit is part of what the head lacks. -/
theorem Lined.turn_head (hl : Lined bb out) {k : Turn} (hk : bb.turn = some k) :
    ∃ l, (bb.groupAt k.group).waiters = k.waiter :: l ∧ k.waiter ∈ out ∧
      (bb.waiterAt k.waiter).granted = false ∧
      k.credit ≤ (bb.waiterAt k.waiter).n - (bb.waiterAt k.waiter).credit ∧
      k.credit ≤ budgetQuantum := by
  rcases turn_front hl.fair hl.index hk with ⟨-, -, hwaiter, hcredit⟩
  have hne := (hl.index.queued k.group).1 (turn_mem hl.fair hl.index hk)
  rcases List.exists_cons_of_ne_nil hne with ⟨w, l, hcons⟩
  have hw : k.waiter = w := by
    rw [hwaiter, hcons]
    rfl
  have hmem : k.waiter ∈ (bb.groupAt k.group).waiters := by
    rw [hcons, hw]
    exact List.mem_cons_self
  rcases (hl.queues.mem _ _).1 hmem with ⟨hout, -, hgranted⟩
  rcases creditFor_le bb bb.baseRoom k.group k.waiter with ⟨hlack, hquantum⟩
  rw [← hcredit, sub64_eq (hl.queues.credit_le hout) (hl.lt _ hout)] at hlack
  exact ⟨l, by rw [hcons, hw], hout, hgranted, hlack, hcredit ▸ hquantum⟩

/-- The state a credit leaves. -/
theorem Lined.credit (hl : Lined t out) (hw : w ∈ (t.groupAt g).waiters) (hpos : 0 < c)
    (hc : c ≤ (t.waiterAt w).n - (t.waiterAt w).credit) :
    Lined (((t.giveCredit g w c).refreshLocked g).rotate g) out ∧
      Rigid t (((t.giveCredit g w c).refreshLocked g).rotate g) ∧
      Gave t (t.giveCredit g w c) g w c (decide ((t.waiterAt w).credit + c = (t.waiterAt w).n)) ∧
      (((t.giveCredit g w c).refreshLocked g).rotate g).core = (t.giveCredit g w c).core := by
  rcases (hl.queues.mem g w).1 hw with ⟨hout, -, -⟩
  have hlt := hl.lt w hout
  have hsmall : (t.waiterAt w).credit + c < 2 ^ 64 := by omega
  have hrigid := giveCredit_rigid t g w c
  have hgave := giveCredit_spec (g := g) hsmall
  have hoff := giveCredit_off hl.index hl.queues hw hsmall
  have hlanes : Lanes (t.giveCredit g w c) out := by
    refine ⟨hrigid.fair.trans hl.fair, hl.queues.give hw hrigid hpos hc hgave, ?_⟩
    intro v hv
    rw [hrigid.waiter_n]
    exact hl.lt v hv
  have hfresh := hlanes.refresh hoff
  have hcore : (((t.giveCredit g w c).refreshLocked g).rotate g).core = (t.giveCredit g w c).core :=
    (rotate_core _ g).trans (refreshLocked_core hoff)
  exact ⟨hfresh.of_core (rotate_core _ g) (rotate_index hfresh.index g),
    hrigid.trans (Rigid.of_core hcore), hgave, hcore⟩

theorem Lined.chosen (hl : Lined bb out) : Lined bb.chosen out :=
  have hpicked := chosen_picked hl.fair hl.index
  hl.of_core hpicked.core hpicked.index

/-- The credit of a turn. -/
theorem Lined.turn_credit (hl : Lined bb out) {k : Turn} (hk : bb.turn = some k)
    (hne : k.credit ≠ 0) :
    k.credit ≤ (bb.chosen.waiterAt k.waiter).n - (bb.chosen.waiterAt k.waiter).credit ∧
      Lined (((bb.chosen.giveCredit k.group k.waiter k.credit).refreshLocked k.group).rotate
        k.group) out ∧
      Rigid bb.chosen (((bb.chosen.giveCredit k.group k.waiter k.credit).refreshLocked
        k.group).rotate k.group) ∧
      Gave bb.chosen (bb.chosen.giveCredit k.group k.waiter k.credit) k.group k.waiter k.credit
        (decide ((bb.chosen.waiterAt k.waiter).credit + k.credit =
          (bb.chosen.waiterAt k.waiter).n)) ∧
      (((bb.chosen.giveCredit k.group k.waiter k.credit).refreshLocked k.group).rotate
        k.group).core = (bb.chosen.giveCredit k.group k.waiter k.credit).core := by
  have hpicked := chosen_picked hl.fair hl.index
  rcases hl.turn_head hk with ⟨l, hhead, -, -, hle, -⟩
  have hw : k.waiter ∈ (bb.chosen.groupAt k.group).waiters := by
    rw [waiters_of_core hpicked.core, hhead]
    exact List.mem_cons_self
  rw [← waiterAt_of_core hpicked.core] at hle
  exact ⟨hle, hl.chosen.credit hw (Nat.pos_of_ne_zero hne) hle⟩

/-- One round keeps the queues, and a round that goes on leaves less to hand out. -/
theorem Lined.round (hl : Lined bb out) :
    Lined bb.scheduleRound.1 out ∧
      (bb.scheduleRound.2 = true → bb.scheduleRound.1.lacking out < bb.lacking out) := by
  have hat : bb.chosen.waiterAt = bb.waiterAt :=
    waiterAt_of_core (chosen_picked hl.fair hl.index).core
  rw [scheduleRound_eq]
  cases hk : bb.turn with
  | none => exact ⟨hl.chosen, nofun⟩
  | some k =>
    simp only
    split_ifs with hzero
    · exact ⟨hl.chosen, nofun⟩
    · rcases hl.turn_head hk with ⟨-, -, hout, -⟩
      rcases hl.turn_credit hk hzero with ⟨hle, hnext, -, hgave, hcore⟩
      refine ⟨hnext, fun _ => ?_⟩
      rw [lacking_congr (waiterAt_of_core hcore), ← lacking_congr hat]
      exact lacking_give hout hgave (Nat.pos_of_ne_zero hzero) hle

/-! ## Registrations -/

theorem Lined.of_same (hl : Lined bb out) (hs : Reregistered bb s) : Lined s out := by
  refine ⟨⟨hs.fair.trans hl.fair, hl.queues.congr hs.waiterAt hs.waiters hs.nextWaiter hs.nextGroup
    hs.closed hs.nextChan, ?_⟩, hl.index.of_same hs.index hs.waiters ?_⟩
  · rw [hs.waiterAt]
    exact hl.lt
  · intro h hne
    unfold groupNeed
    rw [hs.waiters, hs.waiterAt, hs.used h hne]

theorem Lined.register_reregistered (hl : Lined bb out) (key : String) :
    Reregistered bb (bb.register key).1 :=
  ByteBudget.register_reregistered hl.fair hl.index hl.queues key

end ByteBudget

end UspClient
