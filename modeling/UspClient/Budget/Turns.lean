import UspClient.Budget.Calls

/-!
# Turns of the scheduler

The order in which a fair budget serves its waiters does not depend on its counters either.
`Orderly` adds to `Lined` that a queue is in the order of the requests, that only its head has a
credit, and that every request is for some bytes; every section of `turnMachine` keeps it.
-/

namespace UspClient

open Word64 ByteBudget

namespace ByteBudget

variable {bb s t : ByteBudget} {g h : GroupId} {w v : WaiterId} {n c : Nat}
variable {out : Finset WaiterId}

/-! ## The order of the requests -/

/-- The queue of a group is in the order of its requests, only its head has a credit, and no
request behind a queued one is granted. -/
structure InOrder (bb : ByteBudget) (out : Finset WaiterId) : Prop where
  sorted : ∀ g, (bb.groupAt g).waiters.Pairwise (· < ·)
  tail : ∀ g, ∀ v ∈ (bb.groupAt g).waiters.tail, (bb.waiterAt v).credit = 0
  behind : ∀ g, ∀ w ∈ (bb.groupAt g).waiters, ∀ v ∈ out, (bb.waiterAt v).group = g → w < v →
    (bb.waiterAt v).granted = false

theorem InOrder.congr (ho : InOrder bb out) (hat : s.waiterAt = bb.waiterAt)
    (hqs : ∀ g, (s.groupAt g).waiters = (bb.groupAt g).waiters) : InOrder s out := by
  constructor
  · intro g
    rw [hqs]
    exact ho.sorted g
  · intro g v hv
    rw [hqs] at hv
    rw [hat]
    exact ho.tail g v hv
  · intro g w hw v hv
    rw [hqs] at hw
    rw [hat]
    exact ho.behind g w hw v hv

/-- A request leaves its queue. -/
theorem InOrder.erase (ho : InOrder bb out) (hat : ∀ v, v ≠ w → s.waiterAt v = bb.waiterAt v)
    (hq : ∀ g, (bb.groupAt g).waiters.Nodup)
    (hqs : ∀ g, (s.groupAt g).waiters = (bb.groupAt g).waiters.erase w) :
    InOrder s (out.erase w) := by
  have hne : ∀ g v, v ∈ (s.groupAt g).waiters → v ≠ w := by
    intro g v hv
    rw [hqs, (hq g).mem_erase_iff] at hv
    exact hv.1
  constructor
  · intro g
    rw [hqs]
    exact (ho.sorted g).sublist List.erase_sublist
  · intro g v hv
    rw [hat v (hne g v (List.mem_of_mem_tail hv))]
    rw [hqs] at hv
    refine ho.tail g v ?_
    -- the tail only loses a request
    cases hl : (bb.groupAt g).waiters with
    | nil =>
      rw [hl] at hv
      exact hv
    | cons a l =>
      rw [hl, List.erase_cons] at hv
      split_ifs at hv
      · exact List.mem_of_mem_tail hv
      · exact List.mem_of_mem_erase hv
  · intro g x hx v hv hgrp hlt
    have hvw := Finset.ne_of_mem_erase hv
    rw [hat v hvw] at hgrp ⊢
    rw [hqs] at hx
    exact ho.behind g x (List.mem_of_mem_erase hx) v (Finset.mem_of_mem_erase hv) hgrp hlt

/-- A new request goes to the back. -/
theorem InOrder.insert (ho : InOrder bb out) (hq : Queues bb out) (he : Enqueued bb s n g) :
    InOrder s (insert bb.nextWaiter out) := by
  have hold : ∀ h, ∀ v ∈ (bb.groupAt h).waiters, v < bb.nextWaiter := fun h v hv =>
    hq.fresh v ((hq.mem h v).1 hv).1
  -- one queue grew at its end, by the largest index so far
  have hqs : ∀ h, (s.groupAt h).waiters = (bb.groupAt h).waiters ∨
      h = g ∧ (s.groupAt h).waiters = (bb.groupAt h).waiters ++ [bb.nextWaiter] := by
    intro h
    by_cases hh : h = g
    · subst hh
      exact .inr ⟨rfl, he.queue⟩
    · exact .inl (by rw [he.other h hh])
  constructor
  · intro h
    rcases hqs h with heq | ⟨-, heq⟩
    · rw [heq]
      exact ho.sorted h
    · rw [heq, List.pairwise_append]
      refine ⟨ho.sorted h, List.pairwise_singleton _ _, fun v hv x hx => ?_⟩
      rw [List.mem_singleton.1 hx]
      exact hold h v hv
  · intro h v hv
    rcases hqs h with heq | ⟨-, heq⟩
    · rw [heq] at hv
      rw [he.rest v (hold h v (List.mem_of_mem_tail hv)).ne]
      exact ho.tail h v hv
    · rw [heq] at hv
      cases hl : (bb.groupAt h).waiters with
      | nil =>
        rw [hl] at hv
        cases hv
      | cons a l =>
        rw [hl, List.cons_append, List.tail_cons] at hv
        rcases List.mem_append.1 hv with hin | hnew
        · have hmem : v ∈ (bb.groupAt h).waiters.tail := by
            rw [hl]
            exact hin
          rw [he.rest v (hold h v (List.mem_of_mem_tail hmem)).ne]
          exact ho.tail h v hmem
        · -- the newcomer has no credit yet
          rw [List.mem_singleton.1 hnew, he.waiter]
  · intro h x hx v hv hgrp hlt
    rcases Finset.mem_insert.1 hv with rfl | hin
    · rw [he.waiter]
    · have hvlt := hq.fresh v hin
      rw [he.rest v hvlt.ne] at hgrp ⊢
      rcases hqs h with heq | ⟨-, heq⟩
      · rw [heq] at hx
        exact ho.behind h x hx v hin hgrp hlt
      · rw [heq] at hx
        rcases List.mem_append.1 hx with hxin | hnew
        · exact ho.behind h x hxin v hin hgrp hlt
        · rw [List.mem_singleton.1 hnew] at hlt
          -- nobody has a larger index than the newcomer
          exact absurd hlt hvlt.not_gt

/-- The head of a queue gets a credit. -/
theorem InOrder.give (ho : InOrder bb out) (hq : Queues bb out) {l : List WaiterId} {full : Bool}
    (hhead : (bb.groupAt g).waiters = w :: l) (hgave : Gave bb s g w c full) (hr : Rigid bb s) :
    InOrder s out := by
  have hw : w ∈ (bb.groupAt g).waiters := by
    rw [hhead]
    exact List.mem_cons_self
  have hsorted := ho.sorted g
  rw [hhead, List.pairwise_cons] at hsorted
  have hqs : ∀ h, (s.groupAt h).waiters = (bb.groupAt h).waiters ∨
      h = g ∧ (s.groupAt h).waiters = l := by
    intro h
    by_cases hh : h = g
    · subst hh
      cases full with
      | false => exact .inl hgave.queue
      | true =>
        refine .inr ⟨rfl, ?_⟩
        rw [hgave.queue, hhead]
        simp
    · exact .inl (by rw [hgave.other h hh])
  -- a waiter of a queue that is not its head
  have hrest : ∀ h, ∀ v ∈ (bb.groupAt h).waiters.tail, v ≠ w := by
    rintro h v hv rfl
    obtain rfl : h = g :=
      ((hq.mem h v).1 (List.mem_of_mem_tail hv)).2.1.symm.trans ((hq.mem g v).1 hw).2.1
    rw [hhead] at hv
    exact absurd (hsorted.1 v hv) (lt_irrefl v)
  constructor
  · intro h
    rcases hqs h with heq | ⟨-, heq⟩
    · rw [heq]
      exact ho.sorted h
    · rw [heq]
      exact hsorted.2
  · intro h v hv
    rcases hqs h with heq | ⟨rfl, heq⟩
    · rw [heq] at hv
      rw [hgave.rest v (hrest h v hv)]
      exact ho.tail h v hv
    · rw [heq] at hv
      have htail : v ∈ (bb.groupAt h).waiters.tail := by
        rw [hhead]
        exact List.mem_of_mem_tail hv
      rw [hgave.rest v (hrest h v htail)]
      exact ho.tail h v htail
  · intro h x hx v hv hgrp hlt
    have hxin : x ∈ (bb.groupAt h).waiters := by
      rcases hqs h with heq | ⟨rfl, heq⟩
      · rw [heq] at hx
        exact hx
      · rw [heq] at hx
        rw [hhead]
        exact List.mem_cons_of_mem _ hx
    rw [hr.waiter_group] at hgrp
    by_cases hvw : v = w
    · -- nobody of the group is before its head
      subst hvw
      obtain rfl : h = g := hgrp.symm.trans ((hq.mem g v).1 hw).2.1
      rw [hhead] at hxin
      rcases List.mem_cons.1 hxin with rfl | hin
      · exact absurd hlt (lt_irrefl _)
      · exact absurd hlt (hsorted.1 x hin).not_gt
    · rw [hgave.rest v hvw]
      exact ho.behind h x hxin v hv hgrp hlt

/-! ## What every section keeps -/

/-- The queues of a fair budget, whatever its counters are. -/
structure Ranks (bb : ByteBudget) (out : Finset WaiterId) : Prop where
  fair : bb.fair = true
  queues : Queues bb out
  order : InOrder bb out
  pos : ∀ w ∈ out, 0 < (bb.waiterAt w).n
  lt : ∀ w ∈ out, (bb.waiterAt w).n < 2 ^ 64

/-- The queues with the indexes between two sections. -/
structure Orderly (bb : ByteBudget) (out : Finset WaiterId) : Prop extends Ranks bb out where
  index : Index bb

theorem Ranks.lanes (hr : Ranks bb out) : Lanes bb out := ⟨hr.fair, hr.queues, hr.lt⟩

theorem Orderly.lined (ho : Orderly bb out) : Lined bb out := ⟨ho.toRanks.lanes, ho.index⟩

theorem Lanes.ranks (hl : Lanes bb out) (ho : InOrder bb out)
    (hpos : ∀ w ∈ out, 0 < (bb.waiterAt w).n) : Ranks bb out :=
  ⟨hl.fair, hl.queues, ho, hpos, hl.lt⟩

theorem Ranks.of_core (hr : Ranks bb out) (hc : s.core = bb.core) : Ranks s out := by
  have hat := waiterAt_of_core hc
  refine (hr.lanes.of_core hc).ranks (hr.order.congr hat (waiters_of_core hc)) ?_
  rw [hat]
  exact hr.pos

theorem Ranks.of_touches (hr : Ranks bb out) (ht : Touches bb s g) : Ranks s out := by
  refine (hr.lanes.of_touches ht).ranks (hr.order.congr ht.waiterAt ht.waiters) ?_
  rw [ht.waiterAt]
  exact hr.pos

theorem Ranks.refresh (hr : Ranks bb out) (hi : IndexOff bb g) :
    Orderly (bb.refreshLocked g) out :=
  ⟨hr.of_core (refreshLocked_core hi), refreshLocked_index hi⟩

theorem Orderly.of_core (ho : Orderly bb out) (hc : s.core = bb.core) (hi : Index s) :
    Orderly s out := ⟨ho.toRanks.of_core hc, hi⟩

/-- A section that writes to the counters of `g`, and refreshes it if it has a queue. -/
theorem Orderly.touch (ho : Orderly bb out) (ht : Touches bb s g) :
    Orderly (if (s.groupAt g).waiters = [] then s else s.refreshLocked g) out := by
  refine ⟨?_, (ho.lined.touch ht).index⟩
  split_ifs
  · exact ho.toRanks.of_touches ht
  · exact ((ho.toRanks.of_touches ht).refresh (ho.index.off_touches ht)).toRanks

theorem Ranks.remove (hr : Ranks bb out) (hrem : Removed bb s g w) : Ranks s (out.erase w) := by
  refine (hr.lanes.remove hrem).ranks (hr.order.erase hrem.rest hr.queues.nodup hrem.queue) ?_
  intro v hv
  rw [hrem.rest v (Finset.ne_of_mem_erase hv)]
  exact hr.pos v (Finset.mem_of_mem_erase hv)

theorem Orderly.removeWaiterLocked (ho : Orderly bb out) (hw : w ∈ out) :
    Orderly (bb.removeWaiterLocked w) (out.erase w) := by
  have hrem := remove_spec ho.queues hw rfl
  exact (ho.toRanks.remove hrem).refresh (ho.index.off_removed ho.queues hrem rfl)

theorem Orderly.settle (ho : Orderly bb out) (hgr : (bb.waiterAt w).granted = true) (g : GroupId) :
    Orderly (bb.settle g) (out.erase w) :=
  ⟨ho.toRanks.remove (settle_removed ho.queues hgr), settle_index ho.index g⟩

theorem Orderly.enqueue (ho : Orderly bb out) (hg : g < bb.nextGroup) (hpos : 0 < n)
    (hlt : n < 2 ^ 64) :
    Orderly (((bb.enqueue n g).activateLocked g).refreshLocked g) (insert bb.nextWaiter out) := by
  have he := enqueue_spec bb n g
  have hranks : Ranks (bb.enqueue n g) (insert bb.nextWaiter out) := by
    refine (ho.lined.toLanes.enqueue hg hlt).ranks (ho.order.insert ho.queues he) ?_
    intro w hw
    rcases Finset.mem_insert.1 hw with rfl | hin
    · rw [he.waiter]
      exact hpos
    · rw [he.rest w (ho.queues.fresh w hin).ne]
      exact ho.pos w hin
  exact (hranks.of_touches (activateLocked_touches (bb.enqueue n g) g)).refresh
    (enqueue_off ho.index ho.queues n g)

/-- A turn with a credit: it goes to the head of a queue, and is part of what the head lacks. -/
theorem Orderly.turn_head (ho : Orderly bb out) {k : Turn} (hk : bb.turn = some k) :
    ∃ l, (bb.groupAt k.group).waiters = k.waiter :: l ∧ k.waiter ∈ out ∧
      (bb.waiterAt k.waiter).granted = false ∧
      k.credit ≤ (bb.waiterAt k.waiter).n - (bb.waiterAt k.waiter).credit ∧
      k.credit ≤ budgetQuantum := ho.lined.turn_head hk

/-- The state a credit leaves. -/
theorem Orderly.credit (ho : Orderly t out) {l : List WaiterId}
    (hhead : (t.groupAt g).waiters = w :: l) (hpos : 0 < c)
    (hc : c ≤ (t.waiterAt w).n - (t.waiterAt w).credit) :
    Orderly (((t.giveCredit g w c).refreshLocked g).rotate g) out ∧
      Rigid t (((t.giveCredit g w c).refreshLocked g).rotate g) ∧
      Gave t (t.giveCredit g w c) g w c (decide ((t.waiterAt w).credit + c = (t.waiterAt w).n)) ∧
      (((t.giveCredit g w c).refreshLocked g).rotate g).core = (t.giveCredit g w c).core := by
  have hw : w ∈ (t.groupAt g).waiters := by
    rw [hhead]
    exact List.mem_cons_self
  rcases ho.lined.credit hw hpos hc with ⟨hlined, hrigid, hgave, hcore⟩
  refine ⟨⟨hlined.toLanes.ranks ?_ ?_, hlined.index⟩, hrigid, hgave, hcore⟩
  · -- the lists are refreshed and rotated, the queues are those of the credit
    exact (ho.order.give ho.queues hhead hgave (giveCredit_rigid t g w c)).congr
      (waiterAt_of_core hcore) (waiters_of_core hcore)
  · intro v hv
    rw [hrigid.waiter_n]
    exact ho.pos v hv

theorem Orderly.chosen (ho : Orderly bb out) : Orderly bb.chosen out :=
  have hpicked := chosen_picked ho.fair ho.index
  ho.of_core hpicked.core hpicked.index

/-- One round keeps the queues in order. -/
theorem Orderly.round (ho : Orderly bb out) : Orderly bb.scheduleRound.1 out := by
  have hpicked := chosen_picked ho.fair ho.index
  by_cases hcredit : ∃ k, bb.turn = some k ∧ k.credit ≠ 0
  · rcases hcredit with ⟨k, hk, hne⟩
    rcases ho.turn_head hk with ⟨l, hhead, -, -, hle, -⟩
    rw [← waiters_of_core hpicked.core] at hhead
    rw [← waiterAt_of_core hpicked.core] at hle
    rw [round_of_credit hk hne]
    exact (ho.chosen.credit hhead (Nat.pos_of_ne_zero hne) hle).1
  · rw [round_of_no_credit hcredit]
    exact ho.chosen

/-- A change that only registrations see. -/
theorem Orderly.of_same (ho : Orderly bb out) (hs : Reregistered bb s) : Orderly s out := by
  have hlined := ho.lined.of_same hs
  refine ⟨hlined.toLanes.ranks (ho.order.congr hs.waiterAt hs.waiters) ?_, hlined.index⟩
  rw [hs.waiterAt]
  exact ho.pos

end ByteBudget

namespace TurnState

variable {s s₀ : TurnState} {a : TurnAct} {tr : List TurnStep}

theorem charged_orderly {out : Finset WaiterId} {bb : ByteBudget} (ho : Orderly bb out) (n : Nat)
    (g : GroupId) : Orderly (charged bb n g) out :=
  ho.touch (charge_touches bb n g _)

theorem orderly_opening (ho : Orderly s.bb s.out) {op : BudgetOp} (hc : s.Contract op) :
    Orderly (s.opening op).bb (s.opening op).out := by
  cases op with
  | reserveFor n force og w =>
    obtain ⟨hpos, hg, hw⟩ := hc
    cases w with
    | none =>
      unfold opening
      simp only
      split_ifs
      · exact charged_orderly ho _ _
      · exact ho.enqueue hg hpos n.toNat_lt
    | some w =>
      unfold opening
      simp only
      split_ifs with hgr
      · exact ho.settle hgr _
      · exact ho.removeWaiterLocked (hw w rfl).1
      · exact ho
  | cancel w =>
    cases w with
    | none => exact ho
    | some w => exact ho.removeWaiterLocked (hc w rfl)
  | releaseFor n escape og =>
    unfold opening
    simp only
    split_ifs
    · exact ho
    · exact ho.touch (releaseLocked_touches s.bb n.toNat escape.toNat (group og))
  | register key => exact ho.of_same (ho.lined.register_reregistered key)
  | unregister g => exact ho.of_same (unregister_reregistered s.bb g)

theorem orderly_step (ho : Orderly s.bb s.out) (hg : s.Allows a) :
    Orderly (s.next a).bb (s.next a).out := by
  cases a with
  | call op => exact orderly_opening ho hg.2
  | charge =>
    unfold next
    cases s.phase with
    | replacing n g => exact charged_orderly ho n g
    | idle => exact ho
    | scheduling => exact ho
  | round => exact ho.round

theorem orderly_fresh (hf : FreshTurns s) : Orderly s.bb s.out := by
  have hlined := lined_fresh hf
  rcases hf.new with ⟨total, o, hnew⟩
  have hempty : ∀ g, (s.bb.groupAt g).waiters = [] := by
    rcases FairState.newFairByteBudget_eq hnew with ⟨reserve, minGroup, heq, -⟩
    intro g
    rw [heq]
    rfl
  refine ⟨hlined.toLanes.ranks ⟨fun g => ?_, fun g v hv => ?_, fun g w hw => ?_⟩ ?_, hlined.index⟩
  · rw [hempty]
    exact List.Pairwise.nil
  · rw [hempty] at hv
    cases hv
  · rw [hempty] at hw
    cases hw
  · rw [hf.out]
    exact fun w hw => absurd hw (Finset.notMem_empty w)

theorem orderly_of_run (ho : Orderly s₀.bb s₀.out) (hrun : Machine.Run turnMachine s₀ tr s) :
    Orderly s.bb s.out :=
  hrun.invariant (fun s => Orderly s.bb s.out) ho fun _ _ hg ho => orderly_step ho hg

/-! ## Calls are turns -/

theorem contract_of_guard {s : FairState} {op : BudgetOp} (hg : fairMachine.guard s op) :
    (ofFair s).Contract op := by
  cases op with
  | reserveFor n force og w => exact hg
  | cancel w => exact hg
  | releaseFor | register | unregister => trivial

/-- The ledger of the callers does not change what a call does. -/
theorem ofFair_next (s : FairState) (op : BudgetOp) :
    ofFair (fairMachine.next s op) = (callMachine.next ⟨s.bb, s.out⟩ op).idle := by
  cases op with
  | reserveFor n force og w =>
    have hwithout : s.without w = w.elim s.out s.out.erase := by cases w <;> rfl
    have hwith : ∀ v, s.withWaiter v = v.elim s.out fun x => insert x s.out := by
      intro v
      cases v <;> rfl
    show ofFair (s.reserve n.toNat force og w) = _
    unfold ofFair FairState.reserve callMachine CallState.next CallState.idle
    simp only
    by_cases hok : (s.bb.reserveFor n.toNat force og w).2.ok = true
    · rw [if_pos hok, if_pos hok, hwithout]
    · rw [if_neg hok, if_neg hok, hwith]
  | cancel w => cases w <;> rfl
  | releaseFor | register | unregister => rfl

/-- Every run of calls is a run of turns. -/
theorem turns_of_calls {c₀ c : FairState} {tr : List (Machine.Step FairState BudgetOp)}
    (ho : Orderly c₀.bb c₀.out) (hrun : Machine.Run fairMachine c₀ tr c) :
    ∃ turns, Machine.Run turnMachine (ofFair c₀) turns (ofFair c) := by
  refine hrun.invariant (fun c => ∃ turns, Machine.Run turnMachine (ofFair c₀) turns (ofFair c))
    ⟨[], .init⟩ ?_
  rintro c op hg ⟨turns, hturns⟩
  have hcontract := contract_of_guard hg
  rcases call_finishes (s := ⟨c.bb, c.out⟩) (orderly_of_run ho hturns).lined hcontract.owns with
    ⟨⟨es, hen, hexec⟩, hout⟩
  have hallow : turnMachine.guard (ofFair c) (.call op) := ⟨rfl, hcontract⟩
  have hrest := (Machine.Run.step _ hturns hallow).append es hen
  have hfinal : turnMachine.exec (turnMachine.next (ofFair c) (.call op)) es =
      ofFair (fairMachine.next c op) := by
    refine Eq.trans hexec ?_
    rw [ofFair_next, hout]
    rfl
  rw [hfinal] at hrest
  exact ⟨_, hrest⟩

end TurnState

end UspClient
