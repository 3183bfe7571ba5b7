import UspClient.Budget.Turns

/-!
# First in, first out

The requests of one group are served in order. Waiters are numbered in the order in which their
requests were queued, so a later request of a group is one with a larger number, or one that was
not queued yet. A step of the machine of turns hands out at most one credit, to the head of a
queue (`GrantsOnce`).
-/

namespace UspClient

open Function Word64 ByteBudget

namespace ByteBudget

variable {bb s : ByteBudget} {g : GroupId} {w : WaiterId} {n : Nat} {out : Finset WaiterId}

theorem closed_of_core (hc : s.core = bb.core) : s.closed = bb.closed := by
  show s.core.closed = bb.core.closed
  rw [hc]

/-- A write to the counters of a group, and its refresh, leave waiters and channels alone. -/
theorem Touches.frame_waiters (hi : Index bb) (ht : Touches bb s g) :
    (if (s.groupAt g).waiters = [] then s else s.refreshLocked g).waiterAt = bb.waiterAt ∧
      (if (s.groupAt g).waiters = [] then s else s.refreshLocked g).closed = bb.closed := by
  split_ifs
  · exact ⟨ht.waiterAt, ht.closed⟩
  · have hcore := refreshLocked_core (hi.off_touches ht)
    exact ⟨(waiterAt_of_core hcore).trans ht.waiterAt, (closed_of_core hcore).trans ht.closed⟩

theorem Orderly.removed_frame (ho : Orderly bb out) (hw : w ∈ out) :
    (∀ v, v ≠ w → (bb.removeWaiterLocked w).waiterAt v = bb.waiterAt v) ∧
      (bb.removeWaiterLocked w).closed = bb.closed := by
  have hrem := remove_spec ho.queues hw rfl
  have hcore := refreshLocked_core (ho.index.off_removed ho.queues hrem rfl)
  refine ⟨fun v hv => ?_, (closed_of_core hcore).trans hrem.closed⟩
  exact (congrFun (waiterAt_of_core hcore) v).trans (hrem.rest v hv)

theorem Orderly.enqueued_frame (ho : Orderly bb out) (n : Nat) (g : GroupId) :
    (∀ v, v ≠ bb.nextWaiter →
        (((bb.enqueue n g).activateLocked g).refreshLocked g).waiterAt v = bb.waiterAt v) ∧
      (((bb.enqueue n g).activateLocked g).refreshLocked g).closed = bb.closed := by
  have ht := activateLocked_touches (bb.enqueue n g) g
  have hcore := refreshLocked_core (enqueue_off ho.index ho.queues n g)
  refine ⟨fun v hv => ?_, (closed_of_core hcore).trans ht.closed⟩
  rw [waiterAt_of_core hcore, ht.waiterAt, (enqueue_spec bb n g).rest v hv]

/-- A round with a credit writes to one waiter, and closes its channel with the last byte. -/
theorem Orderly.credited (ho : Orderly bb out) {k : Turn} (hk : bb.turn = some k)
    (hne : k.credit ≠ 0) :
    (bb.scheduleRound.1.waiterAt k.waiter = { bb.waiterAt k.waiter with
        credit := (bb.waiterAt k.waiter).credit + k.credit
        elem := (bb.scheduleRound.1.waiterAt k.waiter).elem
        granted := decide ((bb.waiterAt k.waiter).credit + k.credit = (bb.waiterAt k.waiter).n) }) ∧
      (∀ v, v ≠ k.waiter → bb.scheduleRound.1.waiterAt v = bb.waiterAt v) ∧
      ∀ c, bb.scheduleRound.1.closed c = (bb.closed c ||
        (decide ((bb.waiterAt k.waiter).credit + k.credit = (bb.waiterAt k.waiter).n) &&
          decide ((bb.waiterAt k.waiter).wake = some c))) := by
  have hpicked := chosen_picked ho.fair ho.index
  have hat := waiterAt_of_core hpicked.core
  rcases ho.turn_head hk with ⟨l, -, -, hgranted, -, -⟩
  rcases ho.lined.turn_credit hk hne with ⟨-, -, -, hgave, hcore⟩
  rw [← hat] at hgranted
  rw [round_of_credit hk hne, waiterAt_of_core hcore, closed_of_core hcore, ← hat,
    ← closed_of_core hpicked.core]
  refine ⟨?_, hgave.rest, hgave.closed⟩
  rw [hgave.waiter, hgranted]
  rfl

/-- A queued waiter is granted with its last byte. -/
theorem Ranks.granted_iff (hr : Ranks bb out) (hw : w ∈ out) :
    (bb.waiterAt w).granted = true ↔ (bb.waiterAt w).credit = (bb.waiterAt w).n := by
  refine ⟨hr.queues.full w hw, fun hfull => ?_⟩
  by_contra hnot
  have hpos := hr.pos w hw
  rcases hr.queues.short w hw (Bool.eq_false_iff.2 hnot) with hzero | hless <;> omega

end ByteBudget

/-! ## States -/

/-- What first in, first out means in a state. -/
structure Fifo (s : TurnState) : Prop where
  /-- While a request of a group is queued, a new request of the group is not admitted. -/
  refused : ∀ og w, w ∈ (s.bb.groupAt (group og)).waiters →
    ∀ n, (s.bb.reserveFor n false og none).2.ok = false
  /-- A later request of the group is not granted, holds no credit, and is not admitted. -/
  behind : ∀ og w, w ∈ (s.bb.groupAt (group og)).waiters → ∀ v ∈ s.out,
    (s.bb.waiterAt v).group = group og → w < v →
      (s.bb.waiterAt v).granted = false ∧ (s.bb.waiterAt v).credit = 0 ∧
        ∀ n, (s.bb.reserveFor n false og (some v)).2.ok = false
  /-- Only the head of a queue has a credit. -/
  head : ∀ g, ∀ v ∈ (s.bb.groupAt g).waiters, (s.bb.waiterAt v).credit ≠ 0 →
    (s.bb.groupAt g).waiters.head? = some v
  /-- A waiter is granted exactly if its credit is its size. -/
  granted : ∀ w ∈ s.out,
    (s.bb.waiterAt w).granted = true ↔ (s.bb.waiterAt w).credit = (s.bb.waiterAt w).n
  /-- Its wake channel is closed exactly if it is granted. -/
  wake : ∀ w ∈ s.out, ∃ c, (s.bb.waiterAt w).wake = some c ∧
    s.bb.closed c = (s.bb.waiterAt w).granted

theorem ByteBudget.Orderly.fifo {s : TurnState} (ho : Orderly s.bb s.out) : Fifo s := by
  constructor
  · intro og w hw n
    -- a group with a queue is not admitted directly
    have hstep := reserveFor_step ho.fair n false og none
    generalize s.bb.reserveFor n false og none = r at hstep ⊢
    cases hstep with
    | admitted escaped hroom _ =>
      rcases hroom with ⟨-, hempty⟩ | hforce
      · rw [hempty] at hw
        cases hw
      · cases hforce
    | queue _ _ => rfl
  · intro og w hw v hv hgrp hlt
    -- who came later is not granted, has no credit and is refused again
    have hnot := ho.order.behind (group og) w hw v hv hgrp hlt
    have hin : v ∈ (s.bb.groupAt (group og)).waiters := (ho.queues.mem _ v).2 ⟨hv, hgrp, hnot⟩
    refine ⟨hnot, ho.order.tail (group og) v ?_, fun n => ?_⟩
    · -- the head of the queue is `w` or before it
      have hsorted := ho.order.sorted (group og)
      cases hl : (s.bb.groupAt (group og)).waiters with
      | nil =>
        rw [hl] at hin
        cases hin
      | cons a l =>
        rw [hl] at hw hin hsorted
        rcases List.mem_cons.1 hin with rfl | hrest
        · rcases List.mem_cons.1 hw with rfl | hafter
          · exact absurd hlt (lt_irrefl _)
          · exact absurd hlt ((List.pairwise_cons.1 hsorted).1 w hafter).not_gt
        · exact hrest
    · have hstep := reserveFor_step ho.fair n false og (some v)
      generalize s.bb.reserveFor n false og (some v) = r at hstep ⊢
      cases hstep with
      | consume _ hgr => exact absurd hgr (ne_true_of_eq_false hnot)
      | wait _ _ _ => rfl
      | replace _ _ _ hforce _ => cases hforce
  · -- a credit is only at the head
    intro g v hv hcredit
    cases hl : (s.bb.groupAt g).waiters with
    | nil =>
      rw [hl] at hv
      cases hv
    | cons a l =>
      rw [hl] at hv
      rcases List.mem_cons.1 hv with rfl | hrest
      · rfl
      · refine absurd (ho.order.tail g v ?_) hcredit
        rw [hl]
        exact hrest
  · exact fun w hw => ho.granted_iff hw
  · intro w hw
    obtain ⟨c, hc, -, hclosed⟩ := ho.queues.wake w hw
    exact ⟨c, hc, hclosed⟩

/-! ## Steps -/

/-- What a step does to the waiters: at most one credit is handed out, to a waiter that is not
granted and whose channel is open. With its last byte it is granted and its channel is closed.
Nothing else grants a waiter or closes a channel. -/
structure GrantsOnce (st : TurnStep) : Prop where
  credit : ∀ k, TurnStep.Credits st k → ∃ c,
    (st.pre.bb.waiterAt k.waiter).wake = some c ∧ st.pre.bb.closed c = false ∧
      (st.pre.bb.waiterAt k.waiter).granted = false ∧
      (st.post.bb.waiterAt k.waiter).credit = (st.pre.bb.waiterAt k.waiter).credit + k.credit ∧
      ((st.post.bb.waiterAt k.waiter).granted = true ↔
        (st.post.bb.waiterAt k.waiter).credit = (st.pre.bb.waiterAt k.waiter).n) ∧
      st.post.bb.closed = update st.pre.bb.closed c
        (st.post.bb.waiterAt k.waiter).granted
  rest : ∀ v ∈ st.pre.out, v ∈ st.post.out → (∀ k, TurnStep.Credits st k → k.waiter ≠ v) →
    st.post.bb.waiterAt v = st.pre.bb.waiterAt v
  closed : (∀ k, ¬ TurnStep.Credits st k) → st.post.bb.closed = st.pre.bb.closed

namespace TurnState

variable {s : TurnState} {a : TurnAct}

theorem charged_frame {out : Finset WaiterId} {bb : ByteBudget} (ho : Orderly bb out) (n : Nat)
    (g : GroupId) :
    (charged bb n g).waiterAt = bb.waiterAt ∧ (charged bb n g).closed = bb.closed :=
  (charge_touches bb n g _).frame_waiters ho.index

/-- A call leaves the waiters that stay and the channels alone until it schedules. -/
theorem opening_frame (ho : Orderly s.bb s.out) {op : BudgetOp} (hc : s.Contract op) :
    (∀ v ∈ s.out, v ∈ (s.opening op).out → (s.opening op).bb.waiterAt v = s.bb.waiterAt v) ∧
      (s.opening op).bb.closed = s.bb.closed := by
  -- a section that writes to no waiter
  have hsame : ∀ t : TurnState, t.bb.waiterAt = s.bb.waiterAt → t.bb.closed = s.bb.closed →
      (∀ v ∈ s.out, v ∈ t.out → t.bb.waiterAt v = s.bb.waiterAt v) ∧
        t.bb.closed = s.bb.closed :=
    fun t hat hcl => ⟨fun v _ _ => by rw [hat], hcl⟩
  have hremoved : ∀ w ∈ s.out, ∀ phase,
      (∀ v ∈ s.out, v ∈ s.out.erase w →
        (TurnState.mk (s.bb.removeWaiterLocked w) (s.out.erase w) phase).bb.waiterAt v =
          s.bb.waiterAt v) ∧ (s.bb.removeWaiterLocked w).closed = s.bb.closed := by
    intro w hw phase
    obtain ⟨hrest, hcl⟩ := ho.removed_frame hw
    exact ⟨fun v _ hv => hrest v (Finset.ne_of_mem_erase hv), hcl⟩
  cases op with
  | reserveFor n force og w =>
    obtain ⟨hpos, hg, hw⟩ := hc
    cases w with
    | none =>
      unfold opening
      simp only
      split_ifs
      · obtain ⟨hat, hcl⟩ := charged_frame ho n.toNat (group og)
        exact hsame _ hat hcl
      · obtain ⟨hrest, hcl⟩ := ho.enqueued_frame n.toNat (group og)
        exact ⟨fun v hv _ => hrest v (ho.queues.fresh v hv).ne, hcl⟩
    | some w =>
      unfold opening
      simp only
      split_ifs
      · have ht := settle_touches s.bb (group og)
        exact hsame _ ht.waiterAt ht.closed
      · exact hremoved w (hw w rfl).1 _
      · exact hsame s rfl rfl
  | cancel w =>
    cases w with
    | none => exact hsame s rfl rfl
    | some w => exact hremoved w (hc w rfl) .scheduling
  | releaseFor n escape og =>
    unfold opening
    simp only
    split_ifs
    · exact hsame s rfl rfl
    · obtain ⟨hat, hcl⟩ := (releaseLocked_touches s.bb n.toNat escape.toNat
        (group og)).frame_waiters ho.index
      exact hsame _ hat hcl
  | register key =>
    have hreg : (s.bb.register key).1.waiterAt = s.bb.waiterAt ∧
        (s.bb.register key).1.closed = s.bb.closed := by
      rcases register_cases ho.fair key with heq | ⟨g, -, heq⟩ | ⟨-, heq⟩ <;> rw [heq] <;>
        exact ⟨rfl, rfl⟩
    exact hsame _ hreg.1 hreg.2
  | unregister og =>
    cases og with
    | none => exact hsame s rfl rfl
    | some g =>
      have ht := unregisterLocked_touches s.bb g
      exact hsame _ ht.waiterAt ht.closed

theorem grantsOnce_step (ho : Orderly s.bb s.out) (hg : s.Allows a) :
    GrantsOnce ⟨s, a, s.next a⟩ := by
  -- a step without a credit
  have hquiet : (∀ k, ¬ TurnStep.Credits ⟨s, a, s.next a⟩ k) →
      (∀ v ∈ s.out, v ∈ (s.next a).out → (s.next a).bb.waiterAt v = s.bb.waiterAt v) →
      (s.next a).bb.closed = s.bb.closed → GrantsOnce ⟨s, a, s.next a⟩ := by
    intro hno hrest hclosed
    exact ⟨fun k hk => absurd hk (hno k), fun v hv hv' _ => hrest v hv hv', fun _ => hclosed⟩
  cases a with
  | call op =>
    obtain ⟨hrest, hclosed⟩ := opening_frame ho hg.2
    exact hquiet (fun k hk => Option.some_ne_none k hk.1.symm) hrest hclosed
  | charge =>
    suffices h : (s.next .charge).bb.waiterAt = s.bb.waiterAt ∧
        (s.next .charge).bb.closed = s.bb.closed from
      hquiet (fun k hk => Option.some_ne_none k hk.1.symm) (fun v _ _ => by rw [h.1]) h.2
    unfold next
    cases s.phase with
    | replacing n g => exact charged_frame ho n g
    | idle | scheduling => exact ⟨rfl, rfl⟩
  | round =>
    have hpicked := chosen_picked ho.fair ho.index
    have hat := waiterAt_of_core hpicked.core
    have hcl := closed_of_core hpicked.core
    by_cases hcredit : ∃ k, s.bb.turn = some k ∧ k.credit ≠ 0
    · obtain ⟨k, hk, hne⟩ := hcredit
      obtain ⟨l, -, hout, hgranted, -, -⟩ := ho.turn_head hk
      obtain ⟨c, hwake, -, hopen⟩ := ho.queues.wake k.waiter hout
      obtain ⟨hwaiter, hrest, hclosed⟩ := ho.credited hk hne
      have honly : ∀ k', TurnStep.Credits ⟨s, .round, s.next .round⟩ k' → k' = k :=
        fun k' hk' => Option.some.inj (hk'.1.symm.trans hk)
      refine ⟨fun k' hk' => ?_, fun v _ _ hv => ?_, fun hno => absurd ⟨hk, hne⟩ (hno k)⟩
      · obtain rfl := honly k' hk'
        refine ⟨c, hwake, hopen.trans hgranted, hgranted, ?_, ?_, ?_⟩
        · show (s.bb.scheduleRound.1.waiterAt k'.waiter).credit = _
          rw [hwaiter]
        · show (s.bb.scheduleRound.1.waiterAt k'.waiter).granted = true ↔
            (s.bb.scheduleRound.1.waiterAt k'.waiter).credit = _
          rw [hwaiter, decide_eq_true_eq]
        · show s.bb.scheduleRound.1.closed = update s.bb.closed c
            (s.bb.scheduleRound.1.waiterAt k'.waiter).granted
          funext x
          rw [hwaiter, hclosed x, hwake, update_apply]
          by_cases hx : x = c
          · subst hx
            rw [if_pos rfl, hopen, hgranted, decide_eq_true rfl, Bool.and_true]
            rfl
          · rw [if_neg hx, decide_eq_false (fun h => hx (Option.some.inj h).symm), Bool.and_false,
              Bool.or_false]
      · exact hrest v (hv k ⟨hk, hne⟩).symm
    · have hno : ∀ k, ¬ TurnStep.Credits ⟨s, .round, s.next .round⟩ k :=
        fun k hk => hcredit ⟨k, hk⟩
      have hbb : (s.next .round).bb = s.bb.chosen := round_of_no_credit hcredit
      refine hquiet hno (fun v _ _ => ?_) ?_
      · rw [hbb, hat]
      · rw [hbb, hcl]

end TurnState

/-- **First in, first out within a group.** -/
theorem fifo_within_group {s₀ s : TurnState} {tr : List TurnStep} (hf : FreshTurns s₀)
    (hrun : Machine.Run turnMachine s₀ tr s) : Fifo s ∧ ∀ st ∈ tr, GrantsOnce st := by
  have hfresh := TurnState.orderly_fresh hf
  refine ⟨(TurnState.orderly_of_run hfresh hrun).fifo, fun st hst => ?_⟩
  obtain ⟨tr', hpre, hg, hpost, -⟩ := hrun.step_of_mem hst
  obtain ⟨pre, a, post⟩ := st
  obtain rfl : post = turnMachine.next pre a := hpost
  exact TurnState.grantsOnce_step (TurnState.orderly_of_run hfresh hpre) hg

/-- A group that holds 700 bytes asks for 300 more and gets a partial credit. Then it asks for 50,
which wait behind. -/
def secondRequest : List TurnAct :=
  [.call (.register "A"), .call (.reserveFor 700 false (some 1) none),
    .call (.reserveFor 300 false (some 1) none), .round, .round,
    .call (.reserveFor 50 false (some 1) none), .round]

theorem second_request_waits :
    ((turnMachine.exec (TurnState.ofFair fairStart) secondRequest).bb.waiterAt 0).credit = 200 ∧
      ((turnMachine.exec (TurnState.ofFair fairStart) secondRequest).bb.waiterAt 1).granted = false ∧
      ((turnMachine.exec (TurnState.ofFair fairStart) secondRequest).bb.waiterAt 1).credit = 0 := by
  have hfresh : FreshTurns (TurnState.ofFair fairStart) := ⟨⟨1000, ⟨100, 256⟩, rfl⟩, rfl, rfl⟩
  obtain ⟨hgranted, hcredit, -⟩ := (fifo_within_group hfresh
    (Machine.run_exec secondRequest (by decide +kernel))).1.behind (some 1) 0
    (by decide +kernel) 1 (by decide +kernel) (by decide +kernel) (by decide)
  exact ⟨by decide +kernel, hgranted, hcredit⟩

end UspClient
