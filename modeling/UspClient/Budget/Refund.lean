import UspClient.Budget.Fair

/-!
# Credits of the waiters

A waiter that no caller holds any more is out of the reach of the budget: no operation writes to
it. One that its caller holds on to loses no credit, whatever the other callers do. So a credit
goes back only with the waiter it was given to, and `cancel` leaves that waiter without one.
-/

namespace UspClient

open Word64

namespace ByteBudget

variable {bb s t : ByteBudget} {g : GroupId} {w v : WaiterId} {n : Nat}
variable {out out' out'' : Finset WaiterId} {held : GroupId → Nat}

/-- What becomes of the credits: `out` are the waiters that callers held before, `out'` those
they hold now. -/
structure Spares (bb s : ByteBudget) (out out' : Finset WaiterId) : Prop where
  next : bb.nextWaiter ≤ s.nextWaiter
  old : ∀ v ∈ out', v < bb.nextWaiter → v ∈ out
  rest : ∀ v, v ∉ out → v < bb.nextWaiter → (s.waiterAt v).credit = (bb.waiterAt v).credit
  grows : ∀ v ∈ out', v < bb.nextWaiter → (bb.waiterAt v).credit ≤ (s.waiterAt v).credit

theorem Spares.trans (h₁ : Spares bb s out out') (h₂ : Spares s t out' out'') :
    Spares bb t out out'' := by
  refine ⟨h₁.next.trans h₂.next, fun v hv hlt => ?_, fun v hv hlt => ?_, fun v hv hlt => ?_⟩
  · exact h₁.old v (h₂.old v hv (hlt.trans_le h₁.next)) hlt
  · have hout : v ∉ out' := fun hmem => hv (h₁.old v hmem hlt)
    exact (h₂.rest v hout (hlt.trans_le h₁.next)).trans (h₁.rest v hv hlt)
  · have hout := h₂.old v hv (hlt.trans_le h₁.next)
    exact (h₁.grows v hout hlt).trans (h₂.grows v hv (hlt.trans_le h₁.next))

/-- An operation that writes to no waiter. -/
theorem Spares.of_waiterAt (hat : s.waiterAt = bb.waiterAt) (hnext : s.nextWaiter = bb.nextWaiter)
    (hsub : out' ⊆ out) : Spares bb s out out' := by
  refine ⟨hnext.ge, fun v hv _ => hsub hv, fun v _ _ => ?_, fun v _ _ => ?_⟩
  · rw [hat]
  · rw [hat]

theorem Spares.refl (bb : ByteBudget) (out : Finset WaiterId) : Spares bb bb out out :=
  .of_waiterAt rfl rfl Finset.Subset.rfl

theorem Touches.spares (ht : Touches bb s g) (out : Finset WaiterId) : Spares bb s out out :=
  .of_waiterAt ht.waiterAt ht.nextWaiter Finset.Subset.rfl

theorem nextWaiter_of_core (hc : s.core = bb.core) : s.nextWaiter = bb.nextWaiter := by
  show s.core.nextWaiter = bb.core.nextWaiter
  rw [hc]

/-- The indexes are no concern of the waiters. -/
theorem Spares.of_core (hc : s.core = bb.core) (out : Finset WaiterId) : Spares bb s out out :=
  .of_waiterAt (waiterAt_of_core hc) (nextWaiter_of_core hc) Finset.Subset.rfl

/-! ## Scheduling -/

theorem Gave.spares {c : Nat} {full : Bool} (hgave : Gave bb s g w c full) (hw : w ∈ out)
    (hnext : s.nextWaiter = bb.nextWaiter) : Spares bb s out out := by
  refine ⟨hnext.ge, fun v hv _ => hv, fun v hv _ => ?_, fun v _ _ => ?_⟩
  · rw [hgave.rest v fun heq => hv (heq ▸ hw)]
  · rcases eq_or_ne v w with rfl | hne
    · rw [hgave.waiter]
      exact Nat.le_add_right _ _
    · rw [hgave.rest v hne]

/-- A round credits a waiter of a queue, if any. -/
theorem scheduleRound_spares (ha : Accounts bb held out) :
    Spares bb bb.scheduleRound.1 out out := by
  have hround := scheduleRound_spec ha
  generalize bb.scheduleRound = r at hround ⊢
  cases hround with
  | stop t hc _ _ _ => exact .of_core hc out
  | credit t g w c hc hi hhead hpos hle _ _ =>
    have hat := ha.of_core hc hi
    have hqueued : w ∈ (t.groupAt g).waiters := by
      rw [waiters_of_core hc]
      exact mem_of_head? hhead
    have hout := ((hat.queues.mem g w).1 hqueued).1
    rw [← waiterAt_of_core hc] at hle
    have hlt := hat.waiter_lt hout
    obtain ⟨-, -, hcore, -⟩ := credit_accounts hat hqueued hpos hle
    have hgave : Gave t (t.giveCredit g w c) g w c _ := giveCredit_spec (by omega)
    exact ((Spares.of_core hc out).trans
      (hgave.spares hout (giveCredit_rigid t g w c).nextWaiter)).trans (.of_core hcore out)

theorem scheduleLocked_spares (ha : Accounts bb held out) : Spares bb bb.scheduleLocked out out :=
  scheduleLocked_keeps (fun t => Spares bb t out out)
    (fun _ hat h => h.trans (scheduleRound_spares hat)) ha (.refl bb out)

/-! ## Giving a waiter up -/

theorem removeWaiterLocked_spares (ha : Accounts bb held out) (hw : w ∈ out) :
    Spares bb (bb.removeWaiterLocked w) out (out.erase w) := by
  obtain ⟨-, hframe, -, hrest⟩ := removeWaiterLocked_accounts ha hw
  refine ⟨hframe.nextWaiter, fun v hv _ => Finset.mem_of_mem_erase hv, fun v hv _ => ?_,
    fun v hv _ => ?_⟩
  · rw [hrest v fun heq => hv (heq ▸ hw)]
  · rw [hrest v (Finset.ne_of_mem_erase hv)]

/-- The credit is returned. -/
theorem removeWaiterLocked_credit (ha : Accounts bb held out) (hw : w ∈ out) :
    ((bb.removeWaiterLocked w).waiterAt w).credit = 0 := by
  have hcore := refreshLocked_core (remove_off ha hw)
  have hsettle := (settle_touches ((bb.unqueue w).refund w) (bb.waiterAt w).group).waiterAt
  have hat : (bb.removeWaiterLocked w).waiterAt = ((bb.unqueue w).refund w).waiterAt :=
    (waiterAt_of_core hcore).trans hsettle
  rw [hat]
  rcases refund_cases (bb.unqueue w) w with ⟨hzero, heq⟩ | ⟨-, heq⟩
  · rw [heq]
    exact hzero
  · rw [heq, setWaiter_waiterAt, Function.update_self]

theorem cancel_spares (ha : Accounts bb held out) (hw : w ∈ out) :
    Spares bb (bb.cancel (some w)) out (out.erase w) := by
  rw [cancel_eq ha.fair]
  exact (removeWaiterLocked_spares ha hw).trans
    (scheduleLocked_spares (removeWaiterLocked_accounts ha hw).1)

/-- A waiter that was given up keeps nothing. -/
theorem cancel_credit (ha : Accounts bb held out) (hw : w ∈ out) :
    ((bb.cancel (some w)).waiterAt w).credit = 0 := by
  obtain ⟨hacc, hframe, -⟩ := removeWaiterLocked_accounts ha hw
  have hlt := (ha.queues.fresh w hw).trans_le hframe.nextWaiter
  rw [cancel_eq ha.fair, (scheduleLocked_spares hacc).rest w (Finset.notMem_erase w out) hlt]
  exact removeWaiterLocked_credit ha hw

/-! ## The other operations -/

/-- A write to the counters of a group, and its refresh. -/
theorem Touches.refresh_spares (hi : Index bb) (ht : Touches bb s g) (out : Finset WaiterId) :
    Spares bb (if (s.groupAt g).waiters = [] then s else s.refreshLocked g) out out := by
  split_ifs
  · exact ht.spares out
  · exact (ht.spares out).trans (.of_core (refreshLocked_core (hi.off_touches ht)) out)

theorem admitted_spares (ha : Accounts bb held out) (hroom : Room bb held out n g)
    (escape removed : Bool) : Spares bb (bb.admitted n g escape removed) out out := by
  have ht := charge_touches bb n g escape
  have hcharge := ht.refresh_spares ha.index out
  unfold admitted
  cases removed with
  | false => exact hcharge
  | true =>
    exact hcharge.trans
      (scheduleLocked_spares (ha.touch_refresh ht (charge_books ha.toBooks hroom escape)))

/-- A new waiter has a new number. -/
theorem enqueue_spares (ha : Accounts bb held out) (hroom : Room bb held out n g) :
    Spares bb (((bb.enqueue n g).activateLocked g).refreshLocked g).scheduleLocked out
      (insert bb.nextWaiter out) := by
  obtain ⟨hacc, hframe⟩ := enqueue_accounts ha hroom
  have hcore := refreshLocked_core (enqueue_off ha.index ha.queues n g)
  have ht := activateLocked_touches (bb.enqueue n g) g
  have hat : ∀ v, v < bb.nextWaiter →
      (((bb.enqueue n g).activateLocked g).refreshLocked g).waiterAt v = bb.waiterAt v := by
    intro v hv
    rw [waiterAt_of_core hcore, ht.waiterAt, (enqueue_spec bb n g).rest v hv.ne]
  have hnew : Spares bb (((bb.enqueue n g).activateLocked g).refreshLocked g) out
      (insert bb.nextWaiter out) := by
    refine ⟨hframe.nextWaiter, fun v hv hlt => ?_, fun v _ hlt => ?_, fun v _ hlt => ?_⟩
    · exact (Finset.mem_insert.1 hv).resolve_left hlt.ne
    · rw [hat v hlt]
    · rw [hat v hlt]
  exact hnew.trans (scheduleLocked_spares hacc)

theorem releaseFor_spares (ha : Accounts bb held out) (og : Option GroupId)
    (hg : group og < bb.nextGroup) (hn : n ≤ held (group og)) (escape : Nat) :
    Spares bb (bb.releaseFor n escape og) out out := by
  rcases eq_or_ne n 0 with rfl | hne
  · have hsame : bb.releaseFor 0 escape og = bb := if_pos rfl
    rw [hsame]
    exact .refl bb out
  · rw [releaseFor_eq ha.fair hne]
    exact ((releaseLocked_touches bb n escape (group og)).refresh_spares ha.index out).trans
      (scheduleLocked_spares (released_accounts ha hg hn escape).1)

theorem unregister_spares (bb : ByteBudget) (og : Option GroupId) (out : Finset WaiterId) :
    Spares bb (bb.unregister og) out out := by
  cases og with
  | none => exact .refl bb out
  | some g => exact (unregisterLocked_touches bb g).spares out

theorem register_spares (hf : bb.fair = true) (key : String) (out : Finset WaiterId) :
    Spares bb (bb.register key).1 out out := by
  rcases register_cases hf key with heq | ⟨g, -, heq⟩ | ⟨-, heq⟩
  · rw [heq]
    exact .refl bb out
  · rw [heq]
    exact .of_waiterAt rfl rfl Finset.Subset.rfl
  · rw [heq]
    exact .of_waiterAt rfl rfl Finset.Subset.rfl

end ByteBudget

namespace FairState

open ByteBudget

variable {s : FairState} {n : Nat}

/-- Everything `reserveFor` can do. -/
theorem Solvent.reserve_spares {og : Option GroupId} {w : Option WaiterId} (hs : Solvent s)
    (force : Bool) (h : Asks s n og w) :
    Spares s.bb (s.reserve n force og w).bb s.out (s.reserve n force og w).out := by
  have hres := hs.reserved force h
  generalize s.reserve n force og w = s' at hres ⊢
  cases hres with
  | consume v hout hgrp hgr =>
    have ht := settle_touches s.bb (group og)
    exact .of_waiterAt ht.waiterAt ht.nextWaiter (Finset.erase_subset v s.out)
  | wait => exact .refl s.bb s.out
  | replace v escaped hout hroom =>
    exact (removeWaiterLocked_spares hs.accounts hout).trans
      (admitted_spares (hs.remove hout).accounts hroom escaped true)
  | admitted escaped hroom => exact admitted_spares hs.accounts hroom escaped false
  | queue hroom => exact enqueue_spares hs.accounts hroom

end FairState

end UspClient
