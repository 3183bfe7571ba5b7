import UspClient.Budget.Fair

/-!
# The cap and the reserve of a fair budget

Immediate admissions check the cap in `fits`, the scheduler in its own room
computation. `Guarded` is what both enforce: the bytes that are no escapes stay
within the total, each group's within the unreserved part or its share, and every
single charge that is no escape left room for newcomers or stayed within the share
its group had. Two results follow, for runs without overflow: the protection of cap
and reserve, and the runway of a newcomer against one borrower.
-/

namespace UspClient

open Function Word64 ByteBudget

namespace ByteBudget

variable {bb t : ByteBudget} {g h : GroupId} {w : WaiterId} {n : Nat}

/-- What one group can hold besides escapes. -/
def groupCap (bb : ByteBudget) : Nat := max (bb.total - bb.reserve) (max (bb.total / 2) bb.minGroup)

/-- A charge that is no escape left the reserve alone, or stayed within the share. -/
def Charge.Protected (c : Charge) (total reserve : Nat) : Prop :=
  c.escape ≤ c.used ∧ (c.used - c.escape ≤ total - reserve ∨ c.groupUsed ≤ c.share)

/-- The bytes that are no escapes respect the cap and the reserve. -/
structure Guarded (bb : ByteBudget) : Prop where
  cap : bb.used - bb.escape ≤ bb.total
  group_cap : ∀ g, (bb.groupAt g).used - (bb.groupAt g).escape ≤ bb.groupCap
  records : ∀ c ∈ bb.charges, c.escaped = false → Charge.Protected c bb.total bb.reserve

theorem Guarded.congr (hg : Guarded bb) (hu : t.used = bb.used) (he : t.escape = bb.escape)
    (ht : t.total = bb.total) (hr : t.reserve = bb.reserve) (hm : t.minGroup = bb.minGroup)
    (hc : t.charges = bb.charges)
    (hat : ∀ g, (t.groupAt g).used = (bb.groupAt g).used ∧
      (t.groupAt g).escape = (bb.groupAt g).escape) : Guarded t := by
  refine ⟨?_, ?_, ?_⟩
  · rw [hu, he, ht]
    exact hg.cap
  · intro g
    unfold groupCap
    rw [(hat g).1, (hat g).2, ht, hr, hm]
    exact hg.group_cap g
  · rw [hc, ht, hr]
    exact hg.records

theorem Guarded.of_core (hg : Guarded bb) (hc : t.core = bb.core) : Guarded t := by
  have hproj : ∀ {α : Type} (f : ByteBudget → α), f t.core = f bb.core := fun f => congrArg f hc
  exact hg.congr (hproj used) (hproj escape) (hproj total)
    (hproj reserve) (hproj minGroup) (hproj charges) fun g =>
      ⟨hproj fun x => (x.groupAt g).used, hproj fun x => (x.groupAt g).escape⟩

/-! ## Operations that charge nothing -/

theorem activateLocked_guarded (hg : Guarded bb) (g : GroupId) : Guarded (bb.activateLocked g) := by
  have hr := activateLocked_rigid bb g
  have hcount : (bb.activateLocked g).used = bb.used ∧
      (bb.activateLocked g).charges = bb.charges := by
    unfold activateLocked
    simp only
    split_ifs <;> exact ⟨by simp only [setActive_used, setGroup_used],
      by simp only [setActive_charges, setGroup_charges]⟩
  exact hg.congr hcount.1 hr.escape hr.total hr.reserve hr.minGroup hcount.2 fun h =>
    ⟨activateLocked_used bb g h, hr.group_escape h⟩

/-- Writing a group's bookkeeping, not its bytes. -/
theorem Guarded.setGroup (hg : Guarded bb) {f : BudgetGroup → BudgetGroup}
    (hf : ∀ x, (f x).used = x.used ∧ (f x).escape = x.escape) : Guarded (bb.setGroup g f) := by
  refine hg.congr rfl rfl rfl rfl rfl rfl ?_
  intro h
  by_cases hh : h = g
  · subst hh
    simpa using hf _
  · simp [hh]

theorem unregisterLocked_guarded (hg : Guarded bb) (g : GroupId) :
    Guarded (bb.unregisterLocked g) := by
  have hset : Guarded (bb.setGroup g fun x => { x with refs := sub64 x.refs 1 }) :=
    hg.setGroup (by intro x; exact ⟨rfl, rfl⟩)
  unfold unregisterLocked
  simp only
  split_ifs
  · exact hg
  · exact hset.congr rfl rfl rfl rfl rfl rfl fun _ => ⟨rfl, rfl⟩
  · exact hset

theorem settle_guarded (hg : Guarded bb) (g : GroupId) : Guarded (bb.settle g) := by
  unfold settle
  refine unregisterLocked_guarded (activateLocked_guarded ?_ g) g
  exact hg.setGroup (by intro x; exact ⟨rfl, rfl⟩)

theorem unqueue_guarded (hg : Guarded bb) (w : WaiterId) : Guarded (bb.unqueue w) := by
  rcases unqueue_cases bb w with ⟨-, heq⟩ | ⟨-, heq⟩
  · rw [heq]
    exact hg
  · rw [heq]
    have hset : Guarded (bb.setGroup (bb.waiterAt w).group
        fun x => { x with waiters := x.waiters.erase w }) :=
      hg.setGroup (by intro x; exact ⟨rfl, rfl⟩)
    exact hset.congr rfl rfl rfl rfl rfl rfl fun _ => ⟨rfl, rfl⟩

theorem enqueue_guarded (hg : Guarded bb) (n : Nat) (g : GroupId) : Guarded (bb.enqueue n g) := by
  have hset : Guarded (bb.setGroup g fun x =>
      { x with waiters := x.waiters ++ [bb.nextWaiter], pending := add64 x.pending 1,
               refs := add64 x.refs 1 }) := hg.setGroup (by intro x; exact ⟨rfl, rfl⟩)
  exact hset.congr rfl rfl rfl rfl rfl rfl fun _ => ⟨rfl, rfl⟩

/-- No share is larger than the cap of a group. -/
theorem share_le_groupCap (bb : ByteBudget) (g : GroupId) : bb.share g ≤ bb.groupCap := by
  have hdiv : ∀ k : Nat, bb.total / (if k < 2 then 2 else k) ≤ bb.total / 2 := by
    intro k
    refine Nat.div_le_div_left ?_ (by norm_num)
    split_ifs <;> omega
  have hd := hdiv (if (bb.groupAt g).active then bb.active else add64 bb.active 1)
  unfold share groupCap
  simp only
  split_ifs at hd ⊢ <;> omega

/-- Releasing bytes with the escape part they were charged with. -/
theorem releaseLocked_guarded {bal pend esc : GroupId → Nat} {e : Nat} (hf : bb.fair = true)
    (htot : Totals bb bal pend) (hesc : Escapes bb esc) (hg : Guarded bb)
    (hglt : g < bb.nextGroup) (hn : n ≤ bal g) (hen : e ≤ n) (hle : e ≤ esc g) :
    Guarded (bb.releaseLocked n e g) := by
  have ht := releaseLocked_touches bb n e g
  have htot' := releaseLocked_totals hf hglt htot hn e
  have hesc' := releaseLocked_escapes (n := n) hf hglt hesc hle
  -- the counters go down by what the group gives back
  have hused : (bb.releaseLocked n e g).used + n = bb.used := by
    have h₁ := TotalsOff.used htot'
    have h₂ := TotalsOff.used htot
    have h₃ := Slice.sum_update_add hglt bal (bal g - n)
    rw [ht.nextGroup] at h₁
    omega
  have hescape : (bb.releaseLocked n e g).escape + e = bb.escape := by
    have h₁ := hesc'.escape
    have h₂ := hesc.escape
    have h₃ := Slice.sum_update_add hglt esc (esc g - e)
    rw [ht.nextGroup] at h₁
    omega
  have hcharges : (bb.releaseLocked n e g).charges = bb.charges := by
    unfold releaseLocked activateLocked subCharge
    simp only
    split_ifs <;> simp only [setCounters_charges, setActive_charges, setGroup_charges]
  refine ⟨?_, ?_, ?_⟩
  · have hcap := hg.cap
    rw [ht.total]
    omega
  · intro h
    have hcapeq : (bb.releaseLocked n e g).groupCap = bb.groupCap := by
      unfold groupCap
      rw [ht.total, ht.reserve, ht.minGroup]
    have hold := hg.group_cap h
    rw [hcapeq, TotalsOff.group_used htot', hesc'.group_escape]
    rw [TotalsOff.group_used htot, hesc.group_escape] at hold
    by_cases hh : h = g
    · subst hh
      rw [update_self, update_self]
      omega
    · rw [update_of_ne hh, update_of_ne hh]
      exact hold
  · rw [hcharges, ht.total, ht.reserve]
    exact hg.records

end ByteBudget

namespace FairState

variable {s : FairState} {g : GroupId} {n : Nat}

/-- A group's bytes without its escapes are among the budget's. -/
theorem Sound.group_le (hs : Sound s) (g : GroupId) :
    (s.bb.groupAt g).used - (s.bb.groupAt g).escape ≤ s.bb.used - s.bb.escape := by
  have hle : ∀ h ∈ Finset.range s.bb.nextGroup, s.esc h ≤ s.bb.balance s.held s.out h := by
    intro h _
    exact le_trans (hs.esc_le h) (Nat.le_add_right _ _)
  rw [TotalsOff.group_used hs.accounts.totals, hs.escapes.group_escape,
    TotalsOff.used hs.accounts.totals, hs.escapes.escape, ← Finset.sum_tsub_distrib _ hle]
  rcases Nat.lt_or_ge g s.bb.nextGroup with hg | hg
  · exact Finset.single_le_sum (f := fun h => s.bb.balance s.held s.out h - s.esc h)
      (fun _ _ => Nat.zero_le _) (Finset.mem_range.2 hg)
  · rw [(TotalsOff.support hs.accounts.totals g hg).1, Nat.zero_sub]
    exact Nat.zero_le _

/-- The counters of every group after a charge. -/
theorem charge_groups (hs : Sound s) (hsum : s.bb.used + n < 2 ^ 64) (g : GroupId) (escaped : Bool)
    (h : GroupId) :
    ((s.bb.charge n g escaped).groupAt h).used =
        (s.bb.groupAt h).used + (if h = g then n else 0) ∧
      ((s.bb.charge n g escaped).groupAt h).escape =
        (s.bb.groupAt h).escape + if h = g ∧ escaped = true then n else 0 := by
  have hle := hs.accounts.totals.le_used g
  rw [← TotalsOff.group_used hs.accounts.totals] at hle
  have hesc := hs.escapes.le_escape g
  rw [← hs.escapes.group_escape] at hesc
  have hused := hs.escape_le
  by_cases hh : h = g
  · subst hh
    refine ⟨?_, ?_⟩
    · rw [charge_group_used hs.accounts.fair (by omega) escaped, if_pos rfl]
    · unfold charge
      rw [if_neg (by simp [hs.accounts.fair]), (activateLocked_rigid _ h).group_escape]
      simp only [addCharge, pushCharge_groupAt, setCounters_groupAt, setGroup_groupAt,
        update_self, true_and]
      split_ifs
      · exact add64_eq (by omega)
      · rw [Nat.add_zero]
  · rw [(charge_touches s.bb n g escaped).other h hh]
    simp [hh]

/-- A charge that respects the cap, and the reserve or the share, keeps the budget
guarded. -/
theorem charge_guarded (hs : Sound s) (hg : Guarded s.bb) (hsum : s.bb.used + n < 2 ^ 64)
    (hcap : s.bb.used - s.bb.escape + n ≤ s.bb.total)
    (hin : s.bb.used - s.bb.escape + n ≤ s.bb.total - s.bb.reserve ∨
      (s.bb.groupAt g).used + n ≤ s.bb.share g) : Guarded (s.bb.charge n g false) := by
  have ht := charge_touches s.bb n g false
  have hle := hs.escape_le
  obtain ⟨hu, he⟩ := charge_counters hs.accounts.fair hsum (by omega) g false
  simp only [Bool.false_eq_true, if_false, Nat.add_zero] at he
  refine ⟨?_, ?_, ?_⟩
  · rw [hu, he, ht.total]
    omega
  · intro h
    have hcapeq : (s.bb.charge n g false).groupCap = s.bb.groupCap := by
      unfold groupCap
      rw [ht.total, ht.reserve, ht.minGroup]
    obtain ⟨hgu, hge⟩ := charge_groups hs hsum g false h
    rw [hcapeq, hgu, hge]
    simp only [Bool.false_eq_true, and_false, if_false, Nat.add_zero]
    have hold := hg.group_cap h
    by_cases hh : h = g
    · subst hh
      rw [if_pos rfl]
      rcases hin with hin | hin
      · have hgrp := hs.group_le h
        have hmax : s.bb.total - s.bb.reserve ≤ s.bb.groupCap := le_max_left _ _
        omega
      · have hshare := share_le_groupCap s.bb h
        omega
    · rw [if_neg hh, Nat.add_zero]
      exact hold
  · rw [charge_charges hs.accounts.fair, ht.total, ht.reserve, List.forall_mem_cons]
    refine ⟨fun _ => ?_, hg.records⟩
    -- the record of this charge
    have hgle := hs.accounts.totals.le_used g
    rw [← TotalsOff.group_used hs.accounts.totals] at hgle
    have hru : (s.bb.chargeRecord n g false).used = s.bb.used + n := by
      show add64 s.bb.used n = _
      exact add64_eq hsum
    have hre : (s.bb.chargeRecord n g false).escape = s.bb.escape := rfl
    have hrg : (s.bb.chargeRecord n g false).groupUsed = (s.bb.groupAt g).used + n := by
      simp only [chargeRecord, addCharge, setCounters_groupAt, setGroup_groupAt, update_self]
      exact add64_eq (by omega)
    have hrs : (s.bb.chargeRecord n g false).share = s.bb.share g := rfl
    unfold Charge.Protected
    rw [hru, hre, hrg, hrs]
    omega

/-- An escape changes neither the bytes that are no escapes nor any normal charge. -/
theorem escape_guarded (hs : Sound s) (hg : Guarded s.bb) (hsum : s.bb.used + n < 2 ^ 64)
    (g : GroupId) : Guarded (s.bb.charge n g true) := by
  have ht := charge_touches s.bb n g true
  have hle := hs.escape_le
  obtain ⟨hu, he⟩ := charge_counters hs.accounts.fair hsum (by omega) g true
  rw [if_pos rfl] at he
  refine ⟨?_, ?_, ?_⟩
  · have hcap := hg.cap
    rw [hu, he, ht.total]
    omega
  · intro h
    have hcapeq : (s.bb.charge n g true).groupCap = s.bb.groupCap := by
      unfold groupCap
      rw [ht.total, ht.reserve, ht.minGroup]
    obtain ⟨hgu, hge⟩ := charge_groups hs hsum g true h
    have hold := hg.group_cap h
    rw [hcapeq, hgu, hge]
    simp only [and_true]
    split_ifs <;> omega
  · rw [charge_charges hs.accounts.fair, ht.total, ht.reserve, List.forall_mem_cons]
    exact ⟨fun hesc => absurd hesc (by simp [chargeRecord]), hg.records⟩

/-! ## The scheduler -/

/-- A credit is a charge that respects the cap and the reserve. -/
theorem giveCredit_guarded (hs : Sound s) (hg : Guarded s.bb) (htot : 0 < s.bb.total) {c : Nat}
    {w : WaiterId} (hhead : (s.bb.groupAt g).waiters.head? = some w)
    (hc : c ≤ (s.bb.waiterAt w).n - (s.bb.waiterAt w).credit)
    (hcap : s.bb.total = 0 ∨ sub64 s.bb.used s.bb.escape + c ≤ s.bb.total)
    (hin : s.bb.total = 0 ∨ sub64 s.bb.used s.bb.escape + c ≤ s.bb.total - s.bb.reserve ∨
      s.bb.groupNeed g ≤ s.bb.share g) : Guarded (s.bb.giveCredit g w c) := by
  have hmem := mem_of_head? hhead
  obtain ⟨hout, -, -⟩ := (hs.accounts.queues.mem g w).1 hmem
  have hlack := hs.accounts.toBooks.lack_le hout
  have hlt := hs.accounts.toBooks.waiter_lt hout
  have hcle := hs.accounts.queues.credit_le hout
  have hdiff := hs.sub64_used
  rw [hdiff] at hcap hin
  have hcharge : Guarded (s.bb.charge c g false) := by
    refine charge_guarded hs hg (by omega) (by omega) ?_
    rcases hin with h0 | hin | hin
    · omega
    · exact Or.inl hin
    · -- the head's whole need is within the share
      right
      have hgle := hs.accounts.totals.le_used g
      rw [← TotalsOff.group_used hs.accounts.totals] at hgle
      have hheadD : (s.bb.groupAt g).waiters.headD 0 = w := by
        rw [List.headD_eq_head?_getD, hhead, Option.getD_some]
      unfold groupNeed at hin
      simp only [hheadD, sub64_eq hcle hlt] at hin
      split_ifs at hin with hsat
      · simp only [maxWord] at hsat
        omega
      · omega
  obtain ⟨h₁, -, -, h₄⟩ := giveCredit_counters s.bb g w c
  have hr := giveCredit_rigid s.bb g w c
  have hrc := charge_rigid s.bb c g
  exact hcharge.congr h₁ (hr.escape.trans hrc.escape.symm) (hr.total.trans hrc.total.symm)
    (hr.reserve.trans hrc.reserve.symm) (hr.minGroup.trans hrc.minGroup.symm)
    (giveCredit_charges s.bb g w c) fun h =>
      ⟨(h₄ h).1, (hr.group_escape h).trans (hrc.group_escape h).symm⟩

theorem scheduleRound_guarded (hs : Sound s) (hg : Guarded s.bb) (htot : 0 < s.bb.total) :
    Guarded s.bb.scheduleRound.1 := by
  have hround := scheduleRound_spec hs.accounts
  generalize s.bb.scheduleRound = r at hround
  cases hround with
  | stop t hc _ _ _ => exact hg.of_core hc
  | credit t g w c hc hi hhead hpos hle hcap hin =>
    have hacc := hs.accounts.of_core hc hi
    have hst : Sound { s with bb := t } := hs.reschedule hacc (Rigid.of_core hc)
    have hproj : ∀ {α : Type} (f : ByteBudget → α), f t.core = f s.bb.core := fun f => congrArg f hc
    have hut : t.used = s.bb.used := hproj used
    have het : t.escape = s.bb.escape := hproj escape
    have htt : t.total = s.bb.total := hproj total
    have hrt : t.reserve = s.bb.reserve := hproj ByteBudget.reserve
    have hheadt : (t.groupAt g).waiters.head? = some w := by
      rw [waiters_of_core hc]
      exact hhead
    have hat := waiterAt_of_core hc
    have hgt : Guarded (t.giveCredit g w c) := by
      refine giveCredit_guarded hst (hg.of_core hc) (by rw [htt]; exact htot) hheadt ?_ ?_ ?_
      · rw [hat]
        exact hle
      · rw [htt, hut, het]
        exact hcap
      · rw [htt, hut, het, hrt, share_of_core hc, groupNeed_of_core hc]
        exact hin
    obtain ⟨-, -, hcore, -⟩ := credit_accounts hacc (mem_of_head? hheadt) hpos (by rw [hat]; exact hle)
    exact hgt.of_core hcore

theorem scheduleLocked_guarded (hs : Sound s) (hg : Guarded s.bb) (htot : 0 < s.bb.total) :
    Guarded s.bb.scheduleLocked := by
  have hkeep := @scheduleLocked_keeps s.bb s.out s.held
    (fun t => Guarded t ∧ Sound { s with bb := t } ∧ 0 < t.total) ?_ hs.accounts ⟨hg, hs, htot⟩
  · exact hkeep.1
  · rintro t hacc ⟨hgt, hst, htt⟩
    obtain ⟨hround, hr, -⟩ := scheduleRound_accounts hacc
    refine ⟨scheduleRound_guarded hst hgt htt, ?_, ?_⟩
    · have hnext := hst.reschedule hround hr
      exact hnext
    · rw [hr.total]
      exact htt

/-! ## The calls -/

theorem refresh_guarded {bb : ByteBudget} (hg : Guarded bb) (hi : IndexOff bb g) :
    Guarded (bb.refreshLocked g) :=
  hg.of_core (refreshLocked_core hi)

/-- An admission that fits is no escape, any other one is. -/
theorem admit_guarded (hs : Sound s) (hg : Guarded s.bb) (htot : 0 < s.bb.total)
    (hroom : Room s.bb s.held s.out n g) {escaped : Bool} (removed : Bool)
    (hesc : escaped = false → s.bb.fits n g = true) : Guarded (s.bb.admitted n g escaped removed) := by
  have hdem := hroom.demand
  have hsum := hs.accounts.toBooks.used_add
  have ht := charge_touches s.bb n g escaped
  have hbooks := charge_books hs.accounts.toBooks hroom escaped
  have hacc := hs.accounts.touch_refresh ht hbooks
  have hcharge : Guarded (s.bb.charge n g escaped) := by
    cases escaped with
    | true => exact escape_guarded hs hg (by omega) g
    | false =>
      have hfits := hesc rfl
      unfold fits at hfits
      rw [if_neg (by omega), hs.sub64_used] at hfits
      simp only [hs.accounts.fair, Bool.not_true, Bool.false_eq_true, false_or] at hfits
      split_ifs at hfits with hbig hbase
      · exact charge_guarded hs hg (by omega) (by omega) (Or.inl hbase)
      · rw [decide_eq_true_eq] at hfits
        exact charge_guarded hs hg (by omega) (by omega) (Or.inr (by omega))
  have hrefresh : Guarded (if ((s.bb.charge n g escaped).groupAt g).waiters = []
      then s.bb.charge n g escaped else (s.bb.charge n g escaped).refreshLocked g) := by
    split_ifs
    · exact hcharge
    · exact refresh_guarded hcharge (hs.accounts.index.off_touches ht)
  unfold admitted
  cases removed with
  | false => exact hrefresh
  | true =>
    have hst := hs.admitted hroom escaped false
    have htot' : 0 < (s.bb.admitted n g escaped false).total := by
      rw [(admit_rigid hs.accounts hroom escaped false).total, ht.total]
      exact htot
    exact scheduleLocked_guarded hst hrefresh htot'

theorem removeWaiterLocked_guarded (hs : Sound s) (hg : Guarded s.bb) {v : WaiterId}
    (hv : v ∈ s.out) : Guarded (s.bb.removeWaiterLocked v) := by
  refine refresh_guarded (settle_guarded ?_ _) (remove_off hs.accounts hv)
  have hu := unqueue_spec hs.accounts.queues hv rfl
  have hgu := unqueue_guarded hg v
  rcases refund_cases (s.bb.unqueue v) v with ⟨-, heq⟩ | ⟨-, heq⟩
  · rw [heq]
    exact hgu
  · -- returning a credit releases normal bytes of the group
    rw [heq, hu.rigid.waiter_group, hu.credit]
    have hcle := credit_le_credits s.bb hv rfl
    have hrel := releaseLocked_guarded (n := (s.bb.waiterAt v).credit)
      (hu.rigid.fair.trans hs.accounts.fair) (hu.totals hs.accounts.totals)
      (hs.escapes.of_rigid hu.rigid) hgu (hu.rigid.nextGroup ▸ hs.accounts.queues.group_lt v hv)
      (by unfold balance; omega) (Nat.zero_le _) (Nat.zero_le _)
    exact hrel.congr rfl rfl rfl rfl rfl rfl fun _ => ⟨rfl, rfl⟩

theorem reserve_guarded {og : Option GroupId} {w : Option WaiterId} (hs : Sound s)
    (hg : Guarded s.bb) (htot : 0 < s.bb.total) (force : Bool) (h : Asks s n og w) :
    Guarded (s.reserve n force og w).bb := by
  have hres := hs.toSolvent.reserved force h
  generalize s.reserve n force og w = s' at hres ⊢
  cases hres with
  | consume v hout hgrp hgr => exact settle_guarded hg _
  | wait => exact hg
  | replace v escaped hout hroom hfits =>
    obtain ⟨-, hfr, -, -⟩ := removeWaiterLocked_accounts hs.accounts hout
    exact admit_guarded (hs.remove hout) (removeWaiterLocked_guarded hs hg hout)
      (show 0 < (s.bb.removeWaiterLocked v).total by rw [hfr.total]; exact htot) hroom true hfits
  | admitted escaped hroom hfits => exact admit_guarded hs hg htot hroom false hfits
  | queue hroom =>
    obtain ⟨-, hfr⟩ := enqueue_accounts hs.accounts hroom
    refine scheduleLocked_guarded (hs.enqueue hroom h.pos) ?_ ?_
    · exact refresh_guarded (activateLocked_guarded (enqueue_guarded hg n _) _)
        (enqueue_off hs.accounts.index hs.accounts.queues n _)
    · show 0 < (((s.bb.enqueue n (group og)).activateLocked (group og)).refreshLocked
        (group og)).total
      rw [hfr.total]
      exact htot

/-- Every call keeps the budget guarded. -/
theorem Sound.next_guarded (hs : Sound s) (hg : Guarded s.bb) (htot : 0 < s.bb.total)
    {op : BudgetOp} (hguard : fairMachine.guard s op) (hin : s.Within op) :
    Guarded (fairMachine.next s op).bb := by
  cases op with
  | reserveFor n force og w =>
    obtain ⟨hn, hglt, hw⟩ := hguard
    exact reserve_guarded hs hg htot force ⟨hn, hglt, hw, hin⟩
  | cancel w =>
    cases w with
    | none => exact hg
    | some v =>
      obtain ⟨-, hfr, -, -⟩ := removeWaiterLocked_accounts hs.accounts (hguard v rfl)
      have hrest : 0 < (s.bb.removeWaiterLocked v).total := by
        rw [hfr.total]
        exact htot
      -- the credits of the waiter come back, then the schedule hands them out
      show Guarded (s.bb.cancel (some v))
      rw [cancel_eq hs.accounts.fair]
      exact scheduleLocked_guarded (hs.remove (hguard v rfl))
        (removeWaiterLocked_guarded hs hg (hguard v rfl)) hrest
  | releaseFor n escape og =>
    obtain ⟨hglt, hen, hle, hrest⟩ := hguard
    show Guarded (s.bb.releaseFor n.toNat escape.toNat og)
    -- a release of no bytes is no release
    by_cases h0 : n.toNat = 0
    · rw [h0]
      exact hg
    · have hesc := hs.esc_le (group og)
      have ht := releaseLocked_touches s.bb n.toNat escape.toNat (group og)
      have hrel := releaseLocked_guarded (n := n.toNat) (e := escape.toNat) hs.accounts.fair
        hs.accounts.totals hs.escapes hg hglt (by unfold balance; omega) hen hle
      rw [releaseFor_eq hs.accounts.fair h0]
      refine scheduleLocked_guarded (hs.released hglt hen hle hrest) ?_ ?_
      · show Guarded (s.bb.released n.toNat escape.toNat (group og))
        unfold ByteBudget.released
        split_ifs
        · exact hrel
        · exact refresh_guarded hrel (hs.accounts.index.off_touches ht)
      · have hfr := (released_accounts hs.accounts hglt
          (show n.toNat ≤ s.held (group og) by omega) escape.toNat).2
        show 0 < (s.bb.released n.toNat escape.toNat (group og)).total
        rw [hfr.total]
        exact htot
  | register key =>
    show Guarded (s.bb.register key).1
    rcases register_cases hs.accounts.fair key with heq | ⟨g, -, heq⟩ | ⟨-, heq⟩
    · rw [heq]
      exact hg
    · rw [heq]
      exact hg.setGroup (by intro x; exact ⟨rfl, rfl⟩)
    · -- the new group holds nothing, as its index did before
      have hu := (hs.accounts.unused (le_refl s.bb.nextGroup)).1
      have he := hs.escapes.group_escape s.bb.nextGroup
      rw [hs.escapes.support _ le_rfl] at he
      rw [heq]
      refine hg.congr rfl rfl rfl rfl rfl rfl ?_
      intro h
      by_cases hh : h = s.bb.nextGroup
      · subst hh
        simp [hu, he]
      · simp [hh]
  | unregister g =>
    cases g with
    | none => exact hg
    | some g => exact unregisterLocked_guarded hg g

theorem Sound.run_guarded {total : Nat} {o : FairByteBudgetOptions} {s₀ : FairState}
    {tr : List (Machine.Step FairState BudgetOp)} (hf : FreshFair total o s₀)
    (hrun : Machine.Run fairMachine s₀ tr s) (hin : ∀ st ∈ tr, st.pre.Within st.act) :
    Sound s ∧ Guarded s.bb ∧ s.bb.total = s₀.bb.total ∧ s.bb.reserve = s₀.bb.reserve ∧
      s.bb.minGroup = s₀.bb.minGroup := by
  obtain ⟨reserve, minGroup, hbb, -⟩ := newFairByteBudget_eq hf.new
  have htot : 0 < s₀.bb.total := by
    rw [hbb]
    exact hf.total_pos
  refine hrun.invariant_of Within (fun s => Sound s ∧ Guarded s.bb ∧ s.bb.total = s₀.bb.total ∧
    s.bb.reserve = s₀.bb.reserve ∧ s.bb.minGroup = s₀.bb.minGroup)
    ⟨FreshFair.sound hf, ?_, rfl, rfl, rfl⟩ ?_ hin
  · rw [hbb]
    exact ⟨Nat.zero_le _, fun _ => Nat.zero_le _, by simp [newByteBudget]⟩
  · rintro s op hguard hw ⟨hs, hg, ht, hr, hm⟩
    have hfr := hs.next_frame hguard hw
    exact ⟨hs.next hguard hw, hs.next_guarded hg (by rw [ht]; exact htot) hguard hw,
      hfr.total.trans ht, hfr.reserve.trans hr, hfr.minGroup.trans hm⟩

end FairState

/-- **Cap and reserve protection.** In every state of a run without overflow the bytes
that are no escapes stay within the total, and every charge that was no escape, an
admission or one credit of the scheduler, left them within the unreserved part or its
group within the share it had at that moment. -/
theorem fair_cap_and_reserve {total : Nat} {o : FairByteBudgetOptions} {s₀ s : FairState}
    {tr : List (Machine.Step FairState BudgetOp)} (hf : FreshFair total o s₀)
    (hrun : Machine.Run fairMachine s₀ tr s) (hin : ∀ st ∈ tr, st.pre.Within st.act) :
    s.bb.escape ≤ s.bb.used ∧ s.bb.used - s.bb.escape ≤ s.bb.total ∧
      ∀ c ∈ s.bb.charges, c.escaped = false → c.escape ≤ c.used ∧
        (c.used - c.escape ≤ s.bb.total - s.bb.reserve ∨ c.groupUsed ≤ c.share) := by
  obtain ⟨hs, hg, -⟩ := FairState.Sound.run_guarded hf hrun hin
  exact ⟨hs.escape_le, hg.cap, hg.records⟩

theorem crowded_cap_and_reserve :
    (fairMachine.exec fairStart crowded).bb.charges ≠ [] ∧
      (fairMachine.exec fairStart crowded).bb.used - (fairMachine.exec fairStart crowded).bb.escape ≤
        (fairMachine.exec fairStart crowded).bb.total := by
  refine ⟨by decide +kernel, ?_⟩
  exact (fair_cap_and_reserve fairStart_fresh
    (Machine.run_exec crowded (by decide +kernel)) (by decide +kernel)).2.1

/-- Three forced escapes of `2 ^ 63` bytes wrap the counters; releasing two of them
with their escape part leaves `used - escape` at `2 ^ 63`, far above the total. -/
theorem forced_wrap_breaks_cap :
    ∃ tr s, Machine.Run fairMachine fairStart tr s ∧
      ¬ sub64 s.bb.used s.bb.escape ≤ s.bb.total := by
  refine ⟨_, _, Machine.run_exec [.register "A",
    .reserveFor 9223372036854775808 true (some 1) none,
    .reserveFor 9223372036854775808 true (some 1) none,
    .reserveFor 9223372036854775808 true (some 1) none,
    .releaseFor 9223372036854775808 9223372036854775808 (some 1),
    .releaseFor 9223372036854775808 9223372036854775808 (some 1)] (by decide +kernel), ?_⟩
  decide +kernel

/-! ## The runway of a newcomer -/

namespace FairState

variable {s : FairState} {A B g : GroupId} {n : Nat}

/-- Only groups `A` and `B` hold bytes or wait. -/
def OnlyTwo (A B : GroupId) (s : FairState) : Prop :=
  ∀ g, g ≠ A → g ≠ B → s.held g = 0 ∧ ∀ w ∈ s.out, (s.bb.waiterAt w).group ≠ g

/-- The call is not a `reserveFor` of a third group. -/
def ByTwo (A B : GroupId) : BudgetOp → Prop
  | .reserveFor _ _ g _ => group g = A ∨ group g = B
  | _ => True

instance (A B : GroupId) (op : BudgetOp) : Decidable (ByTwo A B op) :=
  match op with
  | .reserveFor _ _ g _ => inferInstanceAs (Decidable (group g = A ∨ group g = B))
  | .cancel _ => isTrue trivial
  | .releaseFor _ _ _ => isTrue trivial
  | .register _ => isTrue trivial
  | .unregister _ => isTrue trivial

/-- Waiters keep their group, so a smaller set of them still waits for two groups. -/
theorem OnlyTwo.of_frame (hs : Sound s) (htwo : OnlyTwo A B s) {s' : FairState}
    (hfr : Frame s.bb s'.bb) (hheld : ∀ g, g ≠ A → g ≠ B → s'.held g ≤ s.held g)
    (hout : s'.out ⊆ s.out) : OnlyTwo A B s' := by
  intro g hA hB
  obtain ⟨h₁, h₂⟩ := htwo g hA hB
  refine ⟨?_, ?_⟩
  · have hle := hheld g hA hB
    omega
  · intro w hw
    rw [(hfr.waiter w (hs.accounts.queues.fresh w (hout hw))).2.1]
    exact h₂ w (hout hw)

theorem update_le_of_two {f : GroupId → Nat} {k : Nat} (hg : g = A ∨ g = B) :
    ∀ h, h ≠ A → h ≠ B → update f g k h ≤ f h := by
  intro h hA hB
  have hne : h ≠ g := by
    rintro rfl
    rcases hg with rfl | rfl
    · exact hA rfl
    · exact hB rfl
  rw [update_of_ne hne]

theorem OnlyTwo.next (hs : Sound s) (htwo : OnlyTwo A B s) {op : BudgetOp}
    (hguard : fairMachine.guard s op) (hin : s.Within op) (hby : ByTwo A B op) :
    OnlyTwo A B (fairMachine.next s op) := by
  have hfr := hs.next_frame hguard hin
  cases op with
  | reserveFor n force og w =>
    obtain ⟨hn, hg, hw⟩ := hguard
    have hres := hs.toSolvent.reserved force ⟨hn, hg, hw, hin⟩
    change Frame s.bb (s.reserve n.toNat force og w).bb at hfr
    show OnlyTwo A B (s.reserve n.toNat force og w)
    generalize s.reserve n.toNat force og w = s' at hres hfr ⊢
    cases hres with
    | consume | replace =>
      exact htwo.of_frame hs hfr (update_le_of_two hby) (Finset.erase_subset _ _)
    | wait => exact htwo
    | admitted => exact htwo.of_frame hs hfr (update_le_of_two hby) (Finset.Subset.refl _)
    | queue hroom =>
      -- the new waiter is of the group of the call, which is one of the two
      obtain ⟨hacc, -⟩ := enqueue_accounts hs.accounts hroom
      intro g hA hB
      obtain ⟨h₁, h₂⟩ := htwo g hA hB
      refine ⟨h₁, ?_⟩
      show ∀ w ∈ insert s.bb.nextWaiter s.out,
        ((((s.bb.enqueue n.toNat (group og)).activateLocked (group og)).refreshLocked
          (group og)).scheduleLocked.waiterAt w).group ≠ g
      rw [Finset.forall_mem_insert, (scheduleLocked_accounts hacc).2.waiter_group,
        enqueue_waiter hs.accounts]
      refine ⟨?_, fun w hw => ?_⟩
      · rintro rfl
        rcases hby with h | h
        · exact hA h
        · exact hB h
      · have hgrp := (hfr.waiter w (hs.accounts.queues.fresh w hw)).2.1
        exact fun heq => h₂ w hw (hgrp.symm.trans heq)
  | cancel w =>
    refine htwo.of_frame hs hfr (fun _ _ _ => le_rfl) ?_
    cases w with
    | none => exact Finset.Subset.refl _
    | some v => exact Finset.erase_subset _ _
  | releaseFor n escape g =>
    refine htwo.of_frame hs hfr ?_ (Finset.Subset.refl _)
    intro h _ _
    show update s.held (group g) (s.held (group g) - n.toNat) h ≤ s.held h
    by_cases hh : h = group g
    · rw [hh, update_self]
      exact Nat.sub_le _ _
    · rw [update_of_ne hh]
  | register | unregister => exact htwo.of_frame hs hfr (fun _ _ _ => le_rfl) (Finset.Subset.refl _)

/-- A third group is not busy. -/
theorem OnlyTwo.idle (htwo : OnlyTwo A B s) (hA : g ≠ A) (hB : g ≠ B) :
    s.bb.balance s.held s.out g = 0 ∧ s.bb.pendings s.out g = 0 := by
  obtain ⟨h₁, h₂⟩ := htwo g hA hB
  have hnone : (s.out.filter fun w => (s.bb.waiterAt w).group = g) = ∅ := by
    rw [Finset.filter_eq_empty_iff]
    exact fun {w} hw => h₂ w hw
  unfold balance credits pendings
  rw [h₁, hnone, Finset.sum_empty, Finset.card_empty]
  exact ⟨rfl, rfl⟩

theorem OnlyTwo.active_le (hs : Sound s) (htwo : OnlyTwo A B s) :
    s.bb.active ≤ 2 ∧ ((s.bb.groupAt B).active = false → s.bb.active ≤ 1) := by
  have hsub : s.bb.busy (s.bb.balance s.held s.out) (s.bb.pendings s.out) ⊆ {A, B} := by
    intro g hg
    rw [busy, Finset.mem_filter] at hg
    rw [Finset.mem_insert, Finset.mem_singleton]
    by_contra hne
    rw [not_or] at hne
    obtain ⟨h₁, h₂⟩ := htwo.idle hne.1 hne.2
    rcases hg.2 with h | h
    · exact h h₁
    · exact h h₂
  rw [hs.accounts.totals.active_eq]
  refine ⟨le_trans (Finset.card_le_card hsub) Finset.card_le_two, ?_⟩
  intro hB
  rw [TotalsOff.flag hs.accounts.totals B trivial, decide_eq_false_iff_not] at hB
  have hsub' : s.bb.busy (s.bb.balance s.held s.out) (s.bb.pendings s.out) ⊆ {A} := by
    intro g hg
    have hmem := hsub hg
    rw [Finset.mem_insert, Finset.mem_singleton] at hmem
    rw [Finset.mem_singleton]
    rcases hmem with h | rfl
    · exact h
    · rw [busy, Finset.mem_filter] at hg
      exact absurd hg.2 hB
  exact le_trans (Finset.card_le_card hsub') (Finset.card_singleton A).le

/-- With two groups the share of each is half the budget, or the minimum. -/
theorem OnlyTwo.share_eq (hs : Sound s) (htwo : OnlyTwo A B s) :
    s.bb.share B = max (s.bb.total / 2) s.bb.minGroup := by
  obtain ⟨h₁, h₂⟩ := htwo.active_le hs
  have hn : (if (if (s.bb.groupAt B).active then s.bb.active else add64 s.bb.active 1) < 2 then 2
      else if (s.bb.groupAt B).active then s.bb.active else add64 s.bb.active 1) = 2 := by
    cases hact : (s.bb.groupAt B).active with
    | true =>
      simp only [if_true]
      split_ifs <;> omega
    | false =>
      have hle := h₂ hact
      have hadd : add64 s.bb.active 1 = s.bb.active + 1 := add64_eq (by omega)
      simp only [Bool.false_eq_true, if_false, hadd]
      split_ifs <;> omega
  unfold share
  simp only [hn]
  split_ifs <;> omega

/-- The bytes that are no escapes are those of the two groups. -/
theorem OnlyTwo.used_le (hs : Sound s) (htwo : OnlyTwo A B s) :
    s.bb.used - s.bb.escape ≤ ((s.bb.groupAt A).used - (s.bb.groupAt A).escape) +
      ((s.bb.groupAt B).used - (s.bb.groupAt B).escape) := by
  have hle : ∀ h ∈ Finset.range s.bb.nextGroup, s.esc h ≤ s.bb.balance s.held s.out h := by
    intro h _
    exact le_trans (hs.esc_le h) (Nat.le_add_right _ _)
  obtain ⟨f, hf⟩ : ∃ f : GroupId → Nat, f = fun h => s.bb.balance s.held s.out h - s.esc h :=
    ⟨_, rfl⟩
  have hat : ∀ g, (s.bb.groupAt g).used - (s.bb.groupAt g).escape = f g := by
    intro g
    rw [TotalsOff.group_used hs.accounts.totals, hs.escapes.group_escape, hf]
  have hterm : ∀ h ∈ Finset.range s.bb.nextGroup,
      f h ≤ (if h = A then f A else 0) + if h = B then f B else 0 := by
    intro h _
    by_cases hA : h = A
    · rw [if_pos hA, hA]
      exact Nat.le_add_right _ _
    · by_cases hB : h = B
      · rw [if_pos hB, hB]
        exact Nat.le_add_left _ _
      · rw [hf]
        simp only [(htwo.idle hA hB).1, Nat.zero_sub]
        exact Nat.zero_le _
  rw [TotalsOff.used hs.accounts.totals, hs.escapes.escape, ← Finset.sum_tsub_distrib _ hle, hat,
    hat]
  calc ∑ h ∈ Finset.range s.bb.nextGroup, (s.bb.balance s.held s.out h - s.esc h)
      = ∑ h ∈ Finset.range s.bb.nextGroup, f h := by rw [hf]
    _ ≤ ∑ h ∈ Finset.range s.bb.nextGroup, ((if h = A then f A else 0) + if h = B then f B else 0) :=
        Finset.sum_le_sum hterm
    _ ≤ f A + f B := by
        rw [Finset.sum_add_distrib, Finset.sum_ite_eq', Finset.sum_ite_eq']
        split_ifs <;> omega

/-- The request of the newcomer fits. -/
theorem newcomer_fits (hs : Sound s) (hg : Guarded s.bb) (htwo : OnlyTwo A B s)
    (htot : 0 < s.bb.total) (hres : s.bb.reserve < s.bb.total)
    (hcond : max (s.bb.total / 2) s.bb.minGroup ≤ s.bb.total - s.bb.reserve)
    (hn : (s.bb.groupAt B).used + n ≤ min s.bb.reserve (max (s.bb.total / 2) s.bb.minGroup)) :
    s.bb.fits n B = true := by
  have hused := htwo.used_le hs
  have hA := hg.group_cap A
  have hcap : s.bb.groupCap = s.bb.total - s.bb.reserve := max_eq_left hcond
  have hB : (s.bb.groupAt B).used - (s.bb.groupAt B).escape ≤ (s.bb.groupAt B).used := Nat.sub_le _ _
  have hn₁ := le_trans hn (min_le_left _ _)
  have hn₂ := le_trans hn (min_le_right _ _)
  unfold fits
  rw [if_neg (by omega), hs.sub64_used, htwo.share_eq hs]
  simp only [hs.accounts.fair, Bool.not_true, Bool.false_eq_true, false_or]
  rw [if_neg (by omega)]
  split_ifs
  · rfl
  · rw [decide_eq_true_eq]
    omega

theorem OnlyTwo.run {total : Nat} {o : FairByteBudgetOptions} {s₀ : FairState}
    {tr : List (Machine.Step FairState BudgetOp)} (hf : FreshFair total o s₀)
    (hrun : Machine.Run fairMachine s₀ tr s)
    (hin : ∀ st ∈ tr, st.pre.Within st.act ∧ ByTwo A B st.act) : OnlyTwo A B s := by
  have hinv := hrun.invariant_of (fun s op => s.Within op ∧ ByTwo A B op)
    (fun s => Sound s ∧ OnlyTwo A B s) ⟨FreshFair.sound hf, ?_⟩ ?_ hin
  · exact hinv.2
  · intro g _ _
    rw [hf.held, hf.out]
    exact ⟨rfl, by simp⟩
  · rintro s op hguard ⟨hw, hby⟩ ⟨hs, htwo⟩
    exact ⟨hs.next hguard hw, htwo.next hs hguard hw hby⟩

end FairState

/-- **Newcomer runway against one borrower.** While only two groups charge or wait,
without overflow, a request of `B` that keeps it within the reserve and within half
the budget (or the group minimum) is admitted at once and not as an escape, whatever
the other group did before. -/
theorem newcomer_runway {total : Nat} {o : FairByteBudgetOptions} {s₀ s : FairState}
    {A : GroupId} {B : Option GroupId} {tr : List (Machine.Step FairState BudgetOp)}
    (hf : FreshFair total o s₀)
    (hcond : max (total / 2) s₀.bb.minGroup ≤ total - s₀.bb.reserve)
    (hrun : Machine.Run fairMachine s₀ tr s)
    (hin : ∀ st ∈ tr, st.pre.Within st.act ∧ FairState.ByTwo A (group B) st.act)
    (hq : (s.bb.groupAt (group B)).waiters = []) (n : Nat)
    (hn : (s.bb.groupAt (group B)).used + n ≤
      min s₀.bb.reserve (max (total / 2) s₀.bb.minGroup)) :
    (s.bb.reserveFor n false B none).2.ok = true ∧
      (s.bb.reserveFor n false B none).2.overshot = false ∧
      (s.bb.reserveFor n false B none).1.escape = s.bb.escape := by
  obtain ⟨hs, hg, ht, hr, hm⟩ := FairState.Sound.run_guarded hf hrun fun st hst => (hin st hst).1
  have htwo := FairState.OnlyTwo.run hf hrun hin
  obtain ⟨reserve, minGroup, hbb, hlt⟩ := FairState.newFairByteBudget_eq hf.new
  have htotal : s₀.bb.total = total := by rw [hbb]; rfl
  have hreserve : s₀.bb.reserve < total := by rw [hbb]; exact hlt hf.total_pos
  have hpos := hf.total_pos
  -- the configuration is that of the new budget
  have hfits : s.bb.fits n (group B) = true := by
    refine FairState.newcomer_fits hs hg htwo ?_ ?_ ?_ ?_
    · rw [ht, htotal]
      exact hpos
    · rw [ht, hr, htotal]
      exact hreserve
    · rw [ht, hr, hm, htotal]
      exact hcond
    · rw [ht, hr, hm, htotal]
      exact hn
  have hstep := reserveFor_step hs.accounts.fair n false B none
  generalize s.bb.reserveFor n false B none = r at hstep ⊢
  cases hstep with
  | admitted escaped _ hesc =>
    obtain rfl := hesc.2 ⟨hfits, hq⟩
    refine ⟨rfl, rfl, ?_⟩
    -- nobody waits, so nothing is scheduled after the charge
    have hempty : ((s.bb.charge n (group B) false).groupAt (group B)).waiters = [] := by
      rw [(charge_touches s.bb n (group B) false).waiters]
      exact hq
    show (s.bb.admitted n (group B) false false).escape = s.bb.escape
    unfold admitted
    simp only [hempty, if_true, Bool.false_eq_true, if_false]
    exact (charge_rigid s.bb n (group B)).escape
  | queue hwhy _ => exact absurd ⟨hfits, hq⟩ hwhy

/-- The borrower fills the unreserved part; the newcomer asks for the reserve. -/
theorem borrowed_newcomer_runway :
    ((fairMachine.exec fairStart [.register "A", .register "B",
      .reserveFor 900 false (some 1) none]).bb.reserveFor 100 false (some 2) none).2.ok = true :=
  (newcomer_runway (A := 1) (B := some 2) fairStart_fresh (by decide +kernel)
    (Machine.run_exec [.register "A", .register "B", .reserveFor 900 false (some 1) none]
      (by decide +kernel)) (by decide +kernel) (by decide +kernel) 100 (by decide +kernel)).1

/-- The borrower's forced escape of almost `2 ^ 64` bytes wraps what it holds to zero,
so its next request passes for a newcomer's and eats the reserve; the newcomer's
request of 50 bytes is then queued. -/
theorem forced_wrap_eats_runway :
    ∃ tr s, Machine.Run fairMachine fairStart tr s ∧
      (∀ st ∈ tr, FairState.ByTwo 1 2 st.act) ∧
      max (s.bb.total / 2) s.bb.minGroup ≤ s.bb.total - s.bb.reserve ∧
      (s.bb.groupAt 2).waiters = [] ∧
      (s.bb.groupAt 2).used + 50 ≤ min s.bb.reserve (max (s.bb.total / 2) s.bb.minGroup) ∧
      (s.bb.reserveFor 50 false (some 2) none).2.ok = false := by
  refine ⟨_, _, Machine.run_exec [.register "A", .register "B",
    .reserveFor 900 false (some 1) none, .reserveFor 18446744073709550716 true (some 1) none,
    .reserveFor 100 false (some 1) none] (by decide +kernel), ?_⟩
  decide +kernel

end UspClient
