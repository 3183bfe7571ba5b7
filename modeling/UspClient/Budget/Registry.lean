import UspClient.Budget.Fair

/-!
# Registrations (byte_budget.go)

A group is found by its key as long as something refers to it: an open buffer, or a waiter
that is queued or granted and not consumed. `Registry` says what the reference counts are;
a key has one group with references at most.
-/

namespace UspClient

open Function Word64 ByteBudget

namespace ByteBudget

variable {bb s : ByteBudget} {g h : GroupId} {w : WaiterId} {n : Nat} {refs : GroupId → Nat}
variable {out : Finset WaiterId} {held : GroupId → Nat} {key : String}

/-- The map of the groups and the reference counts. -/
structure Registry (bb : ByteBudget) (refs : GroupId → Nat) : Prop where
  first : 0 < bb.nextGroup
  count : ∀ g, (bb.groupAt g).refs = refs g
  bound : ∀ g, refs g < 2 ^ 64
  live : ∀ key g, bb.groups key = some g ↔ (bb.groupAt g).key = key ∧ refs g ≠ 0
  unused : ∀ g, g = 0 ∨ bb.nextGroup ≤ g → refs g = 0

/-- The fields `Registry` speaks about. -/
def registryView (bb : ByteBudget) : (String → Option GroupId) × (GroupId → String × Nat) × GroupId :=
  (bb.groups, fun g => ((bb.groupAt g).key, (bb.groupAt g).refs), bb.nextGroup)

theorem registryView_eq (hgroups : s.groups = bb.groups)
    (hat : ∀ g, (s.groupAt g).key = (bb.groupAt g).key ∧ (s.groupAt g).refs = (bb.groupAt g).refs)
    (hnext : s.nextGroup = bb.nextGroup) : s.registryView = bb.registryView := by
  unfold registryView
  rw [hgroups, hnext]
  refine congrArg (fun x => (bb.groups, x, bb.nextGroup)) (funext fun g => ?_)
  rw [(hat g).1, (hat g).2]

theorem Registry.congr (hr : Registry bb refs) (h : s.registryView = bb.registryView) :
    Registry s refs := by
  obtain ⟨hgroups, hat, hnext⟩ : s.groups = bb.groups ∧
      (∀ g, ((s.groupAt g).key, (s.groupAt g).refs) = ((bb.groupAt g).key, (bb.groupAt g).refs)) ∧
      s.nextGroup = bb.nextGroup := by
    unfold registryView at h
    exact ⟨congrArg Prod.fst h, fun g => congrFun (congrArg (fun v => v.2.1) h) g,
      congrArg (fun v => v.2.2) h⟩
  have hkey : ∀ g, (s.groupAt g).key = (bb.groupAt g).key := fun g => congrArg Prod.fst (hat g)
  have hrefs : ∀ g, (s.groupAt g).refs = (bb.groupAt g).refs := fun g => congrArg Prod.snd (hat g)
  refine ⟨hnext ▸ hr.first, fun g => (hrefs g).trans (hr.count g), hr.bound, fun key g => ?_, ?_⟩
  · rw [hgroups, hkey]
    exact hr.live key g
  · rw [hnext]
    exact hr.unused

theorem Rigid.registryView (hr : Rigid bb s) : s.registryView = bb.registryView :=
  registryView_eq hr.groups (fun g => ⟨hr.key g, hr.refs g⟩) hr.nextGroup

theorem registryView_setGroup {f : BudgetGroup → BudgetGroup}
    (hf : ∀ x, (f x).key = x.key ∧ (f x).refs = x.refs) :
    (bb.setGroup g f).registryView = bb.registryView := by
  refine registryView_eq rfl (fun h => ?_) rfl
  rcases eq_or_ne h g with rfl | hh
  · rw [setGroup_groupAt, update_self]
    exact hf _
  · rw [setGroup_groupAt, update_of_ne hh]
    exact ⟨rfl, rfl⟩

theorem charge_registryView (bb : ByteBudget) (n : Nat) (g : GroupId) (escape : Bool) :
    (bb.charge n g escape).registryView = bb.registryView := by
  unfold charge
  split_ifs
  · rfl
  · rw [(activateLocked_rigid _ g).registryView]
    have hset : (bb.setGroup g fun x =>
        { x with used := add64 x.used n
                 escape := if escape then add64 x.escape n else x.escape }).registryView =
        bb.registryView := registryView_setGroup fun x => ⟨rfl, rfl⟩
    exact hset

theorem releaseLocked_registryView (bb : ByteBudget) (n escape : Nat) (g : GroupId) :
    (bb.releaseLocked n escape g).registryView = bb.registryView := by
  unfold releaseLocked
  split_ifs
  · rfl
  · rw [(activateLocked_rigid _ g).registryView]
    have hset : (bb.setGroup g fun x =>
        { x with used := x.used - min (min n (bb.groupAt g).used) bb.used
                 escape := sub64 x.escape escape }).registryView =
        bb.registryView := registryView_setGroup fun x => ⟨rfl, rfl⟩
    exact hset

/-! ## One reference more or less -/

/-- Only the count of group `g` changes, and the key of `g` is found or not accordingly. -/
theorem Registry.recount (hr : Registry bb refs) {k : Nat} (hg : g ≠ 0) (hlt : g < bb.nextGroup)
    (hk : k < 2 ^ 64) (hlive : refs g ≠ 0)
    (hnext : s.nextGroup = bb.nextGroup)
    (hat : ∀ h, (s.groupAt h).key = (bb.groupAt h).key ∧
      (s.groupAt h).refs = if h = g then k else (bb.groupAt h).refs)
    (hgroups : s.groups = if k = 0 then update bb.groups (bb.groupAt g).key none
      else bb.groups) : Registry s (update refs g k) := by
  refine ⟨hnext ▸ hr.first, fun h => ?_, fun h => ?_, fun key h => ?_, fun h hh => ?_⟩
  · rw [(hat h).2]
    split_ifs with hh
    · rw [hh, update_self]
    · rw [update_of_ne hh]
      exact hr.count h
  · rcases eq_or_ne h g with rfl | hh
    · rwa [update_self]
    · rw [update_of_ne hh]
      exact hr.bound h
  · -- the key leads to `g`, since `g` had references
    have hown := (hr.live (bb.groupAt g).key g).2 ⟨rfl, hlive⟩
    rw [hgroups, (hat h).1]
    rcases eq_or_ne h g with rfl | hh
    · rw [update_self]
      split_ifs with hzero
      · -- the group is forgotten with its last reference
        rcases eq_or_ne key (bb.groupAt h).key with rfl | hkey
        · rw [update_self]
          exact ⟨fun hno => absurd hno (Option.some_ne_none h).symm, fun hno => absurd hzero hno.2⟩
        · rw [update_of_ne hkey, hr.live]
          exact ⟨fun hyes => absurd hyes.1.symm hkey, fun hyes => absurd hyes.1.symm hkey⟩
      · rw [hr.live]
        exact ⟨fun hyes => ⟨hyes.1, hzero⟩, fun hyes => ⟨hyes.1, hlive⟩⟩
    · rw [update_of_ne hh]
      split_ifs with hzero
      · rcases eq_or_ne key (bb.groupAt g).key with rfl | hkey
        · -- no other group of this key has references
          rw [update_self]
          refine ⟨fun hno => absurd hno (Option.some_ne_none h).symm, fun hother => ?_⟩
          have hsame := (hr.live _ h).2 hother
          rw [hown] at hsame
          exact absurd (Option.some.inj hsame).symm hh
        · rw [update_of_ne hkey]
          exact hr.live key h
      · exact hr.live key h
  · rw [hnext] at hh
    have hne : h ≠ g := by
      rintro rfl
      rcases hh with hzero | hge
      · exact hg hzero
      · exact absurd hlt (Nat.not_lt.2 hge)
    rw [update_of_ne hne]
    exact hr.unused h hh

theorem Registry.group_pos (hr : Registry bb refs) (hg : refs g ≠ 0) : g ≠ 0 ∧ g < bb.nextGroup := by
  constructor
  · exact fun hzero => hg (hr.unused g (.inl hzero))
  · by_contra hge
    exact hg (hr.unused g (.inr (Nat.not_lt.1 hge)))

theorem Registry.unregisterLocked (hr : Registry bb refs) (hf : bb.fair = true) (hg : refs g ≠ 0) :
    Registry (bb.unregisterLocked g) (update refs g (refs g - 1)) := by
  obtain ⟨hpos, hlt⟩ := hr.group_pos hg
  have hbound := hr.bound g
  have hsub : sub64 (bb.groupAt g).refs 1 = refs g - 1 := by
    rw [hr.count, sub64_eq (Nat.one_le_iff_ne_zero.2 hg) hbound]
  have hat : ∀ h, ((bb.setGroup g fun x => { x with refs := sub64 x.refs 1 }).groupAt h).key =
      (bb.groupAt h).key ∧ ((bb.setGroup g fun x => { x with refs := sub64 x.refs 1 }).groupAt h).refs =
        if h = g then refs g - 1 else (bb.groupAt h).refs := by
    intro h
    rcases eq_or_ne h g with rfl | hh
    · rw [setGroup_groupAt, update_self, if_pos rfl]
      exact ⟨rfl, hsub⟩
    · rw [setGroup_groupAt, update_of_ne hh, if_neg hh]
      exact ⟨rfl, rfl⟩
  unfold ByteBudget.unregisterLocked
  simp only [hf, Bool.not_true, Bool.false_eq_true, if_false]
  have hown := hat g
  rw [if_pos rfl] at hown
  rw [hown.1, hown.2]
  split_ifs with hzero
  · refine hr.recount (s := ByteBudget.setGroups _ _) hpos hlt (by omega) hg rfl hat ?_
    rw [if_pos hzero]
    rfl
  · refine hr.recount hpos hlt (by omega) hg rfl hat ?_
    rw [if_neg hzero]
    rfl

/-- One waiter less refers to the group. -/
theorem Registry.settle (hr : Registry bb refs) (hf : bb.fair = true) (hg : refs g ≠ 0) :
    Registry (bb.settle g) (update refs g (refs g - 1)) := by
  have hview : ((bb.setGroup g fun x => { x with pending := sub64 x.pending 1 }).activateLocked
      g).registryView = bb.registryView := by
    rw [(activateLocked_rigid _ g).registryView]
    exact registryView_setGroup fun x => ⟨rfl, rfl⟩
  have hfair : ((bb.setGroup g fun x => { x with pending := sub64 x.pending 1 }).activateLocked
      g).fair = true := by
    rw [(activateLocked_rigid _ g).fair]
    exact hf
  exact (hr.congr hview).unregisterLocked hfair hg

theorem refund_registryView (bb : ByteBudget) (w : WaiterId) :
    (bb.refund w).registryView = bb.registryView := by
  rcases refund_cases bb w with ⟨-, heq⟩ | ⟨-, heq⟩
  · rw [heq]
  · rw [heq]
    exact releaseLocked_registryView bb _ 0 _

/-- A waiter is given up. -/
theorem Registry.removeWaiterLocked (hr : Registry bb refs) (ha : Accounts bb held out)
    (hw : w ∈ out) (hgrp : (bb.waiterAt w).group = g) (hg : refs g ≠ 0) :
    Registry (bb.removeWaiterLocked w) (update refs g (refs g - 1)) := by
  have hu := unqueue_spec ha.queues hw hgrp
  have hview : ((bb.unqueue w).refund w).registryView = bb.registryView :=
    (refund_registryView _ w).trans hu.rigid.registryView
  have hfair : ((bb.unqueue w).refund w).fair = true := by
    rcases refund_cases (bb.unqueue w) w with ⟨-, heq⟩ | ⟨-, heq⟩
    · rw [heq, hu.rigid.fair, ha.fair]
    · rw [heq]
      exact (releaseLocked_touches _ _ _ _).fair.trans (hu.rigid.fair.trans ha.fair)
  have hoff := remove_off ha hw
  rw [hgrp] at hoff
  have hdone := ((hr.congr hview).settle hfair hg).congr
    (Rigid.of_core (refreshLocked_core hoff)).registryView
  unfold ByteBudget.removeWaiterLocked
  rw [hgrp]
  exact hdone

/-- A new waiter refers to the group of its caller. -/
theorem Registry.enqueue (hr : Registry bb refs) (n : Nat) (hg : refs g ≠ 0)
    (hsum : refs g + 1 < 2 ^ 64) :
    Registry (bb.enqueue n g) (update refs g (refs g + 1)) := by
  obtain ⟨hpos, hlt⟩ := hr.group_pos hg
  refine hr.recount hpos hlt hsum hg rfl (fun h => ?_) rfl
  unfold ByteBudget.enqueue
  rcases eq_or_ne h g with rfl | hh
  · rw [setGroup_groupAt, update_self, if_pos rfl]
    refine ⟨rfl, ?_⟩
    show add64 (bb.groupAt h).refs 1 = _
    rw [hr.count, add64_eq hsum]
  · rw [setGroup_groupAt, update_of_ne hh, if_neg hh]
    exact ⟨rfl, rfl⟩

/-- `register` adds a reference, to the group of the key or to a new one. -/
theorem Registry.register (hr : Registry bb refs) (hf : bb.fair = true) {og : Option GroupId}
    (hreg : bb.register key = (s, .ok og)) (hsum : ∀ g, refs g + 1 < 2 ^ 64) :
    ∃ g, og = some g ∧ g ≠ 0 ∧ g < s.nextGroup ∧
      Registry s (update refs g (refs g + 1)) := by
  unfold ByteBudget.register at hreg
  simp only [hf, Bool.not_true, Bool.false_eq_true, if_false] at hreg
  split_ifs at hreg with hkey
  · exact absurd (Prod.mk.inj hreg).2 (by simp)
  cases hfind : bb.groups key with
  | some g =>
    rw [hfind] at hreg
    simp only [Prod.mk.injEq, Except.ok.injEq] at hreg
    obtain ⟨rfl, rfl⟩ := hreg
    have hlive := ((hr.live key g).1 hfind).2
    obtain ⟨hpos, hlt⟩ := hr.group_pos hlive
    refine ⟨g, rfl, hpos, hlt, hr.recount hpos hlt (hsum g) hlive rfl (fun h => ?_) rfl⟩
    rcases eq_or_ne h g with rfl | hh
    · rw [setGroup_groupAt, update_self, if_pos rfl]
      refine ⟨rfl, ?_⟩
      show add64 (bb.groupAt h).refs 1 = _
      rw [hr.count, add64_eq (hsum h)]
    · rw [setGroup_groupAt, update_of_ne hh, if_neg hh]
      exact ⟨rfl, rfl⟩
  | none =>
    rw [hfind] at hreg
    simp only [Prod.mk.injEq, Except.ok.injEq] at hreg
    obtain ⟨rfl, rfl⟩ := hreg
    have hzero := hr.unused bb.nextGroup (.inr le_rfl)
    refine ⟨bb.nextGroup, rfl, hr.first.ne', Nat.lt_succ_self _, ?_⟩
    -- no group of this key has references
    have hnone : ∀ g, (bb.groupAt g).key = key → refs g = 0 := by
      intro g hg
      by_contra hne
      have hsome := (hr.live key g).2 ⟨hg, hne⟩
      rw [hfind] at hsome
      cases hsome
    have hat : ∀ h, h ≠ bb.nextGroup →
        (bb.setGroup bb.nextGroup fun _ => { key := key, refs := 1 }).groupAt h = bb.groupAt h :=
      fun h hh => update_of_ne hh _ _
    have hnew : (bb.setGroup bb.nextGroup fun _ => { key := key, refs := 1 }).groupAt bb.nextGroup =
        { key := key, refs := 1 } := update_self _ _ _
    refine ⟨Nat.succ_pos _, fun h => ?_, fun h => ?_, fun key' h => ?_, fun h hh => ?_⟩
    · rcases eq_or_ne h bb.nextGroup with rfl | hh
      · rw [update_self, hzero]
        exact congrArg BudgetGroup.refs hnew
      · rw [update_of_ne hh]
        exact (congrArg BudgetGroup.refs (hat h hh)).trans (hr.count h)
    · rcases eq_or_ne h bb.nextGroup with rfl | hh
      · rw [update_self]
        exact hsum _
      · rw [update_of_ne hh]
        exact hr.bound h
    · show update bb.groups key (some bb.nextGroup) key' = some h ↔
        ((bb.setGroup bb.nextGroup fun _ => { key := key, refs := 1 }).groupAt h).key = key' ∧ _
      rcases eq_or_ne h bb.nextGroup with rfl | hh
      · rw [hnew, update_self, hzero]
        rcases eq_or_ne key' key with rfl | hk
        · rw [update_self]
          exact ⟨fun _ => ⟨rfl, Nat.one_ne_zero⟩, fun _ => rfl⟩
        · rw [update_of_ne hk, hr.live, hzero]
          exact ⟨fun hno => absurd rfl hno.2, fun hno => absurd hno.1.symm hk⟩
      · rw [hat h hh, update_of_ne hh]
        rcases eq_or_ne key' key with rfl | hk
        · rw [update_self]
          exact ⟨fun hno => absurd (Option.some.inj hno).symm hh, fun hno => absurd (hnone h hno.1) hno.2⟩
        · rw [update_of_ne hk]
          exact hr.live key' h
    · have hne : h ≠ bb.nextGroup := by
        rintro rfl
        rcases hh with hz | hge
        · exact hr.first.ne' hz
        · exact absurd hge (Nat.not_succ_le_self _)
      rw [update_of_ne hne]
      refine hr.unused h (hh.imp id fun hge => ?_)
      exact (Nat.le_succ _).trans hge

end ByteBudget

namespace FairState

variable {s : FairState} {opens : GroupId → Nat} {n : Nat} {v : WaiterId} {g : GroupId}

/-- The references are those of the open buffers, and of the outstanding waiters. -/
def Registered (opens : GroupId → Nat) (s : FairState) : Prop :=
  Registry s.bb fun g => opens g + s.bb.pendings s.out g

/-- The same group for every outstanding waiter, so the same counts. -/
theorem Registered.congr (hr : Registered opens s) {bb : ByteBudget}
    (hview : bb.registryView = s.bb.registryView)
    (hgroup : ∀ v ∈ s.out, (bb.waiterAt v).group = (s.bb.waiterAt v).group) :
    Registered opens { s with bb := bb } := by
  unfold Registered
  rw [pendings_congr s.bb hgroup]
  exact Registry.congr hr hview

theorem refs_erase (hv : v ∈ s.out) (hgrp : (s.bb.waiterAt v).group = g) :
    (update (fun h => opens h + s.bb.pendings s.out h) g
      (opens g + s.bb.pendings s.out g - 1)) =
      fun h => opens h + s.bb.pendings (s.out.erase v) h := by
  have hpos := pendings_pos hv hgrp
  funext h
  rw [pendings_erase hv hgrp]
  rcases eq_or_ne h g with rfl | hh
  · rw [update_self, update_self]
    omega
  · rw [update_of_ne hh, update_of_ne hh]

theorem Registered.refs_ne (hv : v ∈ s.out) (hgrp : (s.bb.waiterAt v).group = g) :
    opens g + s.bb.pendings s.out g ≠ 0 := by
  have hpos := pendings_pos hv hgrp
  omega

theorem Registered.remove (hr : Registered opens s) (hs : Solvent s) (hv : v ∈ s.out) :
    Registered opens { s with bb := s.bb.removeWaiterLocked v, out := s.out.erase v } := by
  have hreg := Registry.removeWaiterLocked hr hs.accounts hv rfl (Registered.refs_ne hv rfl)
  rw [refs_erase hv rfl] at hreg
  obtain ⟨-, -, -, hrest⟩ := removeWaiterLocked_accounts hs.accounts hv
  have hpend : (s.bb.removeWaiterLocked v).pendings (s.out.erase v) =
      s.bb.pendings (s.out.erase v) := pendings_congr s.bb
    fun x hx => by rw [hrest x (Finset.ne_of_mem_erase hx)]
  unfold Registered
  rw [hpend]
  exact hreg

theorem Registered.schedule (hr : Registered opens s) (hs : Solvent s) :
    Registered opens { s with bb := s.bb.scheduleLocked } := by
  obtain ⟨-, hrigid⟩ := scheduleLocked_accounts hs.accounts
  exact hr.congr hrigid.registryView fun v _ => hrigid.waiter_group v

theorem Registered.cancel (hr : Registered opens s) (hs : Solvent s) (hv : v ∈ s.out) :
    Registered opens { s with bb := s.bb.cancel (some v), out := s.out.erase v } := by
  rw [cancel_eq hs.accounts.fair]
  exact (hr.remove hs hv).schedule (hs.remove hv)

theorem Registered.admitted (hr : Registered opens s) (hs : Solvent s)
    (hroom : Room s.bb s.held s.out n g) (escaped removed : Bool) (held esc : GroupId → Nat) :
    Registered opens ⟨s.bb.admitted n g escaped removed, held, esc, s.out⟩ := by
  have hrigid := admit_rigid hs.accounts hroom escaped removed
  refine hr.congr (hrigid.registryView.trans (charge_registryView s.bb n g escaped)) fun v _ => ?_
  rw [hrigid.waiter_group, (charge_touches s.bb n g escaped).waiterAt]

theorem Registered.release (hr : Registered opens s) (hs : Solvent s) {og : Option GroupId}
    (hg : group og < s.bb.nextGroup) (hn : n ≤ s.held (group og)) (e : Nat)
    (held esc : GroupId → Nat) :
    Registered opens ⟨s.bb.releaseFor n e og, held, esc, s.out⟩ := by
  rcases Nat.eq_zero_or_pos n with rfl | hpos
  · exact hr
  rw [releaseFor_eq hs.accounts.fair hpos.ne']
  obtain ⟨hacc, -⟩ := released_accounts hs.accounts hg hn e
  have ht := releaseLocked_touches s.bb n e (group og)
  have hrigid : Rigid (s.bb.releaseLocked n e (group og)) (s.bb.released n e (group og)) := by
    unfold released
    split_ifs
    · exact Rigid.refl _
    · exact Rigid.of_core (refreshLocked_core (hs.accounts.index.off_touches ht))
  have hall := hrigid.trans (scheduleLocked_accounts hacc).2
  refine hr.congr (hall.registryView.trans (releaseLocked_registryView ..)) fun v _ => ?_
  rw [hall.waiter_group, ht.waiterAt]

/-- A queued request. -/
theorem Registered.enqueue (hr : Registered opens s) (hs : Solvent s)
    (hroom : Room s.bb s.held s.out n g) (hopen : opens g ≠ 0)
    (hsum : opens g + s.bb.pendings s.out g + 1 < 2 ^ 64) :
    Registered opens { s with
      bb := ((s.bb.enqueue n g).activateLocked g).refreshLocked g
      out := insert s.bb.nextWaiter s.out } := by
  have hreg := Registry.enqueue hr n (g := g) (by omega) hsum
  have hrigid : Rigid (s.bb.enqueue n g) (((s.bb.enqueue n g).activateLocked g).refreshLocked g) :=
    (activateLocked_rigid _ g).trans
      (Rigid.of_core (refreshLocked_core (enqueue_off hs.accounts.index hs.accounts.queues n g)))
  have hnew := enqueue_waiter hs.accounts n g
  have hfresh : s.bb.nextWaiter ∉ s.out :=
    fun hm => absurd (hs.accounts.queues.fresh _ hm) (Nat.lt_irrefl _)
  have hold : ∀ v ∈ s.out,
      ((((s.bb.enqueue n g).activateLocked g).refreshLocked g).waiterAt v).group =
        (s.bb.waiterAt v).group := fun v hv =>
    ((enqueue_accounts hs.accounts hroom).2.waiter v (hs.accounts.queues.fresh v hv)).2.1
  have hpend : (((s.bb.enqueue n g).activateLocked g).refreshLocked g).pendings
      (insert s.bb.nextWaiter s.out) =
      update (s.bb.pendings s.out) g (s.bb.pendings s.out g + 1) := by
    rw [pendings_insert hfresh (congrArg BudgetWaiter.group hnew), pendings_congr s.bb hold]
  unfold Registered
  have hrefs : (fun h => opens h + (((s.bb.enqueue n g).activateLocked g).refreshLocked g).pendings
      (insert s.bb.nextWaiter s.out) h) =
      update (fun h => opens h + s.bb.pendings s.out h) g
        (opens g + s.bb.pendings s.out g + 1) := by
    funext h
    rw [hpend]
    rcases eq_or_ne h g with rfl | hh
    · rw [update_self, update_self]
      rfl
    · rw [update_of_ne hh, update_of_ne hh]
  show Registry _ fun h => opens h + _
  rw [hrefs]
  exact hreg.congr hrigid.registryView

/-- `reserveFor` by an open buffer. -/
theorem Registered.reserve {og : Option GroupId} {w : Option WaiterId} (hr : Registered opens s)
    (hs : Solvent s) (force : Bool) (h : Asks s n og w) (hopen : opens (group og) ≠ 0)
    (hsum : opens (group og) + s.bb.pendings s.out (group og) + 1 < 2 ^ 64) :
    Registered opens (s.reserve n force og w) := by
  have hres := hs.reserved force h
  generalize s.reserve n force og w = s' at hres ⊢
  cases hres with
  | consume v hout hgrp hgr =>
    have hreg := Registry.settle hr hs.accounts.fair (Registered.refs_ne hout hgrp)
    rw [refs_erase hout hgrp] at hreg
    have hpend : (s.bb.settle (group og)).pendings (s.out.erase v) =
        s.bb.pendings (s.out.erase v) := pendings_congr s.bb
      fun x _ => by rw [(settle_touches s.bb (group og)).waiterAt]
    rw [← hpend] at hreg
    exact hreg
  | wait => exact hr
  | replace v escaped hout hroom =>
    exact (hr.remove hs hout).admitted (hs.remove hout) hroom escaped true _ _
  | admitted escaped hroom => exact hr.admitted hs hroom escaped false _ _
  | queue hroom => exact (hr.enqueue hs hroom hopen hsum).schedule (hs.enqueue hroom h.pos)

/-- A new buffer refers to its group. -/
theorem Registered.register (hr : Registered opens s) (hs : Solvent s) {key : String}
    {bb : ByteBudget} {og : Option GroupId} (hreg : s.bb.register key = (bb, .ok og))
    (hsum : ∀ g, opens g + s.bb.pendings s.out g + 1 < 2 ^ 64) : ∃ g, og = some g ∧ g ≠ 0 ∧
      g < bb.nextGroup ∧
      Registered (update opens g (opens g + 1)) { s with bb := bb } := by
  obtain ⟨g, rfl, hpos, hlt, hnew⟩ := Registry.register hr hs.accounts.fair hreg hsum
  refine ⟨g, rfl, hpos, hlt, ?_⟩
  obtain ⟨-, hfr⟩ := register_accounts hs.accounts (hs.held_of_unused le_rfl) key
  rw [hreg] at hfr
  have hpend : bb.pendings s.out = s.bb.pendings s.out := pendings_congr s.bb fun v hv =>
    (hfr.waiter v (hs.accounts.queues.fresh v hv)).2.1
  have hrefs : (fun h => update opens g (opens g + 1) h + bb.pendings s.out h) =
      update (fun h => opens h + s.bb.pendings s.out h) g
        (opens g + s.bb.pendings s.out g + 1) := by
    funext h
    rw [hpend]
    rcases eq_or_ne h g with rfl | hh
    · rw [update_self, update_self]
      omega
    · rw [update_of_ne hh, update_of_ne hh]
  unfold Registered
  rw [hrefs]
  exact hnew

/-- A closed buffer does not. -/
theorem Registered.unregister (hr : Registered opens s) (hs : Solvent s) (hg : opens g ≠ 0) :
    Registered (update opens g (opens g - 1)) { s with bb := s.bb.unregister (some g) } := by
  have hnew := Registry.unregisterLocked (g := g) hr hs.accounts.fair (by omega)
  have hpend : (s.bb.unregisterLocked g).pendings s.out = s.bb.pendings s.out :=
    pendings_congr s.bb fun v _ => by
    rw [(unregisterLocked_touches s.bb g).waiterAt]
  have hrefs : (fun h => update opens g (opens g - 1) h +
      (s.bb.unregisterLocked g).pendings s.out h) =
      update (fun h => opens h + s.bb.pendings s.out h) g
        (opens g + s.bb.pendings s.out g - 1) := by
    funext h
    rw [hpend]
    rcases eq_or_ne h g with rfl | hh
    · rw [update_self, update_self]
      omega
    · rw [update_of_ne hh, update_of_ne hh]
  rw [← hrefs] at hnew
  exact hnew

theorem registered_of_new {total : Nat} {o : FairByteBudgetOptions} {bb : ByteBudget}
    (hnew : newFairByteBudget total o = some bb) : Registered (fun _ => 0) { bb := bb } := by
  obtain ⟨reserve, minGroup, rfl, -⟩ := newFairByteBudget_eq hnew
  have hzero : ∀ g, 0 + ByteBudget.pendings { newByteBudget total with
      fair := true, reserve := reserve, minGroup := minGroup } ∅ g = 0 := fun g => rfl
  refine ⟨Nat.one_pos, fun g => rfl, fun g => ?_, fun key g => ?_, fun g _ => rfl⟩
  · rw [hzero]
    exact Nat.two_pow_pos 64
  · rw [hzero]
    exact ⟨fun hno => absurd hno (Option.some_ne_none g).symm, fun hno => absurd rfl hno.2⟩

/-! ## Everything the callers can rely on -/

/-- The ledger of bytes and of registrations and, if the callers keep it as well, the one of
the escapes. -/
structure Kept (strict : Prop) (opens : GroupId → Nat) (s : FairState) : Prop where
  solvent : Solvent s
  registered : Registered opens s
  sound : strict → Sound s

variable {strict : Prop} {og : Option GroupId} {w : Option WaiterId}

theorem kept_of_new {total : Nat} {o : FairByteBudgetOptions} {bb : ByteBudget}
    (hnew : newFairByteBudget total o = some bb) : Kept strict (fun _ => 0) { bb := bb } :=
  ⟨(sound_of_new hnew).toSolvent, registered_of_new hnew, fun _ => sound_of_new hnew⟩

/-- Only the ledger of the escapes looks at them. -/
theorem Kept.escapes (h : Kept strict opens s) {esc : GroupId → Nat} (hesc : strict → esc = s.esc) :
    Kept strict opens { s with esc := esc } := by
  refine ⟨⟨h.solvent.accounts, h.solvent.pos⟩, h.registered, fun hstrict => ?_⟩
  rw [hesc hstrict]
  exact h.sound hstrict

theorem Kept.reserve (h : Kept strict opens s) (force : Bool) (hask : Asks s n og w)
    (hopen : opens (group og) ≠ 0)
    (hsum : opens (group og) + s.bb.pendings s.out (group og) + 1 < 2 ^ 64) :
    Kept strict opens (s.reserve n force og w) ∧ Frame s.bb (s.reserve n force og w).bb := by
  obtain ⟨hs, hfr⟩ := h.solvent.reserve force hask
  exact ⟨⟨hs, h.registered.reserve h.solvent force hask hopen hsum,
    fun hstrict => (h.sound hstrict).reserve force hask⟩, hfr⟩

/-- A refusal: the waiter stays queued, or a new one is queued for the size asked for. -/
theorem Solvent.refused (hs : Solvent s) {force : Bool} (h : Asks s n og w)
    (hno : (s.bb.reserveFor n force og w).2.ok = false) :
    (∃ v, w = some v ∧ (s.bb.waiterAt v).granted = false ∧
      s.bb.reserveFor n force og w = (s.bb, ⟨false, false, s.bb.used, some v⟩)) ∨
    (w = none ∧ (s.bb.reserveFor n force og w).2.waiter = some s.bb.nextWaiter ∧
      ((s.bb.reserveFor n force og w).1.waiterAt s.bb.nextWaiter).n = n ∧
      ((s.bb.reserveFor n force og w).1.waiterAt s.bb.nextWaiter).group = group og) := by
  have hstep := reserveFor_step hs.accounts.fair n force og w
  generalize s.bb.reserveFor n force og w = r at hstep hno ⊢
  cases hstep with
  | consume | replace | admitted => cases hno
  | wait v hgr _ => exact .inl ⟨v, rfl, hgr, rfl⟩
  | queue _ _ =>
    obtain ⟨hacc, -⟩ := enqueue_accounts hs.accounts (hs.room h.group_lt h.pos h.demand)
    have hrigid := (scheduleLocked_accounts hacc).2
    refine .inr ⟨rfl, rfl, ?_, ?_⟩
    · rw [hrigid.waiter_n, enqueue_waiter hs.accounts]
    · rw [hrigid.waiter_group, enqueue_waiter hs.accounts]

theorem Kept.release (h : Kept strict opens s) (n e : Nat) (og : Option GroupId)
    (hg : group og < s.bb.nextGroup)
    (hn : n ≤ s.held (group og)) (hen : e ≤ n)
    (hesc : strict → e ≤ s.esc (group og) ∧ n - e ≤ s.held (group og) - s.esc (group og)) :
    Kept strict opens (s.release n e og) ∧ Frame s.bb (s.release n e og).bb :=
  ⟨⟨h.solvent.release hg hn e _, h.registered.release h.solvent hg hn e _ _,
    fun hstrict => (h.sound hstrict).release hg hen (hesc hstrict).1 (hesc hstrict).2⟩,
    (releaseFor_accounts h.solvent.accounts hg hn e).2⟩

theorem Kept.cancel (h : Kept strict opens s) (hv : v ∈ s.out) :
    Kept strict opens { s with bb := s.bb.cancel (some v), out := s.out.erase v } ∧
      Frame s.bb (s.bb.cancel (some v)) :=
  ⟨⟨h.solvent.cancel hv, h.registered.cancel h.solvent hv, fun hstrict => (h.sound hstrict).cancel hv⟩,
    (cancel_accounts h.solvent.accounts hv).2⟩

theorem Kept.register (h : Kept strict opens s) {key : String} {bb : ByteBudget}
    (hreg : s.bb.register key = (bb, .ok og))
    (hsum : ∀ g, opens g + s.bb.pendings s.out g + 1 < 2 ^ 64) : ∃ g, og = some g ∧ g ≠ 0 ∧
      g < bb.nextGroup ∧ Kept strict (update opens g (opens g + 1)) { s with bb := bb } ∧
      Frame s.bb bb := by
  obtain ⟨g, rfl, hpos, hlt, hnew⟩ := h.registered.register h.solvent hreg hsum
  have heq : bb = (s.bb.register key).1 := (congrArg Prod.fst hreg).symm
  rw [heq] at hlt hnew ⊢
  exact ⟨g, rfl, hpos, hlt, ⟨h.solvent.register key, hnew,
    fun hstrict => (h.sound hstrict).register key⟩,
    (register_accounts h.solvent.accounts (h.solvent.held_of_unused le_rfl) key).2⟩

theorem Kept.unregister (h : Kept strict opens s) (hg : opens g ≠ 0) :
    Kept strict (update opens g (opens g - 1)) { s with bb := s.bb.unregister (some g) } ∧
      Frame s.bb (s.bb.unregister (some g)) :=
  ⟨⟨h.solvent.unregister _, h.registered.unregister h.solvent hg,
    fun hstrict => (h.sound hstrict).unregister _⟩, (unregister_accounts h.solvent.accounts _).2⟩

end FairState

end UspClient
