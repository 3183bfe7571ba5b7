import UspClient.Budget.Fair

/-!
# A fair budget smaller than every request

When every request asks for more than the total, nothing fits: whatever is admitted is an
escape, and the credits that waiters collect never make a grant. This does not need the
escape counter to agree with the escapes that are held. A release may name fewer bytes as
an escape than were charged as one. Then the counter is ahead of the bytes that are held, by
more than the total if only whole requests are released, so that the bytes in use without the
escapes wrap around and the scheduler finds no room.
-/

namespace UspClient

open Word64 ByteBudget

namespace ByteBudget

variable {bb s : ByteBudget} {g : GroupId} {w : WaiterId} {n c least : Nat}
variable {out out' : Finset WaiterId} {held held' : GroupId → Nat}

/-- The bytes credited to the outstanding waiters. -/
def credited (bb : ByteBudget) (out : Finset WaiterId) : Nat := ∑ w ∈ out, (bb.waiterAt w).credit

/-- The bytes the callers hold. -/
def holding (bb : ByteBudget) (held : GroupId → Nat) : Nat :=
  ∑ g ∈ Finset.range bb.nextGroup, held g

/-- What is used is held by buffers or credited to requests. -/
theorem Books.used_eq (hb : Books bb held out) : bb.used = bb.holding held + bb.credited out := by
  rw [TotalsOff.used hb.totals]
  unfold balance holding credited
  rw [Finset.sum_add_distrib, hb.queues.sum_credits]

theorem holding_update (bb : ByteBudget) (held : GroupId → Nat) (hg : g < bb.nextGroup) (k : Nat) :
    bb.holding (Function.update held g k) + held g = bb.holding held + k :=
  Slice.sum_update_add hg held k

theorem le_holding (bb : ByteBudget) (held : GroupId → Nat) (hg : g < bb.nextGroup) :
    held g ≤ bb.holding held :=
  Finset.single_le_sum (f := held) (fun _ _ => Nat.zero_le _) (Finset.mem_range.2 hg)

theorem credited_congr (hat : ∀ v ∈ out, s.waiterAt v = bb.waiterAt v) :
    s.credited out = bb.credited out :=
  Finset.sum_congr rfl fun v hv => by rw [hat v hv]

/-- The credit of a request that is gone is gone. -/
theorem credited_erase (bb : ByteBudget) (hw : w ∈ out) :
    bb.credited (out.erase w) + (bb.waiterAt w).credit = bb.credited out :=
  Finset.sum_erase_add out (fun w => (bb.waiterAt w).credit) hw

theorem credit_le_credited (hw : w ∈ out) : (bb.waiterAt w).credit ≤ bb.credited out :=
  Finset.single_le_sum (f := fun w => (bb.waiterAt w).credit) (fun _ _ => Nat.zero_le _) hw

/-- The total is smaller than a request, of at least `least`, and the credits stay within it. The
escape counter is what the callers hold, or ahead of it by a request. -/
structure Scarce (least : Nat) (bb : ByteBudget) (out : Finset WaiterId) : Prop where
  pos : 0 < bb.total
  small : bb.total < least
  least_le : least ≤ 2 ^ 63
  escape_lt : bb.escape < 2 ^ 63
  credits : bb.credited out ≤ bb.total
  ahead : bb.escape + bb.credited out = bb.used ∨
    bb.used + least ≤ bb.escape + bb.credited out

/-- The invariant reads the totals and the requests. -/
theorem Scarce.congr (h : Scarce least bb out) (htotal : s.total = bb.total)
    (hescape : s.escape = bb.escape) (hused : s.used = bb.used)
    (hat : s.waiterAt = bb.waiterAt) : Scarce least s out := by
  have hcredits : s.credited out = bb.credited out := credited_congr fun v _ => by rw [hat]
  refine ⟨?_, ?_, h.least_le, ?_, ?_, ?_⟩
  · rw [htotal]
    exact h.pos
  · rw [htotal]
    exact h.small
  · rw [hescape]
    exact h.escape_lt
  · rw [hcredits, htotal]
    exact h.credits
  · rw [hcredits, hescape, hused]
    exact h.ahead

theorem Scarce.of_core (h : Scarce least bb out) (hc : s.core = bb.core) : Scarce least s out := by
  have hproj : ∀ {α : Type} (f : ByteBudget → α), f s.core = f bb.core := fun f => congrArg f hc
  exact h.congr (hproj total) (hproj escape) (hproj used)
    (waiterAt_of_core hc)

/-- The counter is ahead of the callers by `d` more than before. -/
theorem Scarce.shift (h : Scarce least bb out) (hb : Books bb held out) (hs : Books s held' out')
    (htotal : s.total = bb.total) (hescape : s.escape < 2 ^ 63)
    (hcredits : s.credited out' ≤ bb.total) (d : Nat) (hd : d = 0 ∨ least ≤ d)
    (hsum : s.escape + bb.holding held = bb.escape + s.holding held' + d) : Scarce least s out' := by
  have hused := hb.used_eq
  have hused' := hs.used_eq
  have hahead := h.ahead
  have hpos := h.pos
  have hsmall := h.small
  have hleast := h.least_le
  constructor <;> omega

/-! ## Scheduling -/

/-- A credit is given only while the counter is what the callers hold, so it stays within the
total. -/
theorem giveCredit_scarce (ha : Accounts bb held out) (h : Scarce least bb out)
    (hw : w ∈ (bb.groupAt g).waiters) (hpos : 0 < c)
    (hc : c ≤ (bb.waiterAt w).n - (bb.waiterAt w).credit)
    (hcap : bb.total = 0 ∨ sub64 bb.used bb.escape + c ≤ bb.total) :
    Scarce least (bb.giveCredit g w c) out := by
  rcases (ha.queues.mem g w).1 hw with ⟨hout, -, -⟩
  have hlt := ha.toBooks.waiter_lt hout
  have hgave : Gave bb (bb.giveCredit g w c) g w c _ := giveCredit_spec (by omega)
  have hr := giveCredit_rigid bb g w c
  have hcredited : (bb.giveCredit g w c).credited out = bb.credited out + c := by
    have hrest : (bb.giveCredit g w c).credited (out.erase w) = bb.credited (out.erase w) :=
      credited_congr fun v hv => hgave.rest v (Finset.ne_of_mem_erase hv)
    have hcell : ((bb.giveCredit g w c).waiterAt w).credit = (bb.waiterAt w).credit + c := by
      rw [hgave.waiter]
    have hold := credited_erase bb hout
    have hnew := credited_erase (bb.giveCredit g w c) hout
    omega
  refine h.shift ha.toBooks (giveCredit_books ha.toBooks hw hpos hc) hr.total ?_ ?_ 0 (.inl rfl) ?_
  · rw [hr.escape]
    exact h.escape_lt
  · -- the wrapped difference would be beyond the total
    have hroom := hcap.resolve_left h.pos.ne'
    have hescape := h.escape_lt
    have hsmall := h.small
    have hleast := h.least_le
    have hcredits := h.credits
    have hbound := TotalsOff.bound ha.totals
    rw [hcredited]
    unfold sub64 at hroom
    rcases h.ahead with heq | hgt <;> omega
  · unfold holding
    rw [hr.escape, hr.nextGroup, Nat.add_zero]

/-- A round keeps the credits within the total. -/
theorem scheduleRound_scarce (ha : Accounts bb held out) (h : Scarce least bb out) :
    Scarce least bb.scheduleRound.1 out := by
  have hround := scheduleRound_spec ha
  generalize bb.scheduleRound = r at hround ⊢
  cases hround with
  | stop t hc _ _ _ => exact h.of_core hc
  | credit t g w c hc hi hhead hpos hle hcap _ =>
    have hat := ha.of_core hc hi
    have hproj : ∀ {α : Type} (f : ByteBudget → α), f t.core = f bb.core :=
      fun f => congrArg f hc
    have hqueued : w ∈ (t.groupAt g).waiters := by
      rw [waiters_of_core hc]
      exact mem_of_head? hhead
    rw [← waiterAt_of_core hc] at hle
    rw [← show t.total = bb.total from hproj total,
      ← show t.used = bb.used from hproj used,
      ← show t.escape = bb.escape from hproj escape] at hcap
    rcases credit_accounts hat hqueued hpos hle with ⟨-, -, hcore, -⟩
    exact (giveCredit_scarce hat (h.of_core hc) hqueued hpos hle hcap).of_core hcore

theorem scheduleLocked_scarce (ha : Accounts bb held out) (h : Scarce least bb out) :
    Scarce least bb.scheduleLocked out :=
  scheduleLocked_keeps (fun t => Scarce least t out) (fun _ hat ht => scheduleRound_scarce hat ht) ha h

/-! ## Giving a waiter up -/

theorem unregisterLocked_counters (bb : ByteBudget) (g : GroupId) :
    (bb.unregisterLocked g).used = bb.used ∧ (bb.unregisterLocked g).escape = bb.escape := by
  unfold unregisterLocked
  simp only
  split_ifs <;> exact ⟨rfl, rfl⟩

theorem settle_escape (bb : ByteBudget) (g : GroupId) : (bb.settle g).escape = bb.escape := by
  unfold settle
  rw [(unregisterLocked_counters _ g).2, (activateLocked_rigid _ g).escape]
  rfl

theorem releaseLocked_escape (hf : bb.fair = true) (n x : Nat) (g : GroupId) :
    (bb.releaseLocked n x g).escape = sub64 bb.escape x := by
  unfold releaseLocked
  rw [if_neg (by simp [hf]), (activateLocked_rigid _ g).escape]
  rfl

/-- A credit that is returned is no escape. -/
theorem removeWaiterLocked_escape (ha : Accounts bb held out) (hw : w ∈ out)
    (hlt : bb.escape < 2 ^ 64) : (bb.removeWaiterLocked w).escape = bb.escape := by
  have hu := unqueue_spec ha.queues hw rfl
  have hcore := congrArg escape (refreshLocked_core (remove_off ha hw))
  refine (hcore.trans (settle_escape _ _)).trans ?_
  rcases refund_cases (bb.unqueue w) w with ⟨-, heq⟩ | ⟨-, heq⟩
  · rw [heq]
    exact hu.rigid.escape
  · rw [heq]
    show ((bb.unqueue w).releaseLocked _ 0 _).escape = _
    rw [releaseLocked_escape (hu.rigid.fair.trans ha.fair), hu.rigid.escape,
      sub64_eq (Nat.zero_le _) hlt, Nat.sub_zero]

/-- A request that leaves gives its credit back. -/
theorem removeWaiterLocked_scarce (ha : Accounts bb held out) (h : Scarce least bb out) (hw : w ∈ out) :
    Scarce least (bb.removeWaiterLocked w) (out.erase w) := by
  rcases removeWaiterLocked_accounts ha hw with ⟨hacc, hfr, hnext, hrest⟩
  have hlt := h.escape_lt
  have hescape := removeWaiterLocked_escape ha hw (by omega)
  refine h.shift ha.toBooks hacc.toBooks hfr.total ?_ ?_ 0 (.inl rfl) ?_
  · rw [hescape]
    exact hlt
  · have hsame : (bb.removeWaiterLocked w).credited (out.erase w) = bb.credited (out.erase w) :=
      credited_congr fun v hv => hrest v (Finset.ne_of_mem_erase hv)
    have herase := credited_erase bb hw
    have hcredits := h.credits
    omega
  · unfold holding
    rw [hescape, hnext, Nat.add_zero]

theorem cancel_scarce (ha : Accounts bb held out) (h : Scarce least bb out) (hw : w ∈ out) :
    Scarce least (bb.cancel (some w)) (out.erase w) := by
  rw [cancel_eq ha.fair]
  exact scheduleLocked_scarce (removeWaiterLocked_accounts ha hw).1
    (removeWaiterLocked_scarce ha h hw)

/-! ## The other operations -/

/-- An escape is charged, and counted as one. -/
theorem admitted_scarce (ha : Accounts bb held out) (h : Scarce least bb out)
    (hroom : Room bb held out n g) (hescape : bb.escape + n < 2 ^ 63) (removed : Bool) :
    Scarce least (bb.admitted n g true removed) out := by
  have ht := charge_touches bb n g true
  have hbooks := charge_books ha.toBooks hroom true
  have hacc := ha.touch_refresh ht hbooks
  have hdemand := hroom.demand
  have hsum := ha.toBooks.used_add
  have hcount := (FairState.charge_counters (s := { bb := bb }) ha.fair
    (show bb.used + n < 2 ^ 64 by omega) (show bb.escape + n < 2 ^ 64 by omega) g true).2
  have hcharge : Scarce least (bb.charge n g true) out := by
    refine h.shift ha.toBooks hbooks ht.total ?_ ?_ 0 (.inl rfl) ?_
    · rw [hcount]
      exact hescape
    · have hsame : (bb.charge n g true).credited out = bb.credited out :=
        credited_congr fun v _ => by rw [ht.waiterAt]
      rw [hsame]
      exact h.credits
    · have hheld := holding_update (bb.charge n g true) held
        (ht.nextGroup ▸ hroom.group_lt) (held g + n)
      have hsame : (bb.charge n g true).holding held = bb.holding held := by
        unfold holding
        rw [ht.nextGroup]
      have hcount' : (bb.charge n g true).escape = bb.escape + n := hcount
      omega
  have hrefresh : Scarce least (if ((bb.charge n g true).groupAt g).waiters = [] then
      bb.charge n g true else (bb.charge n g true).refreshLocked g) out := by
    split_ifs
    · exact hcharge
    · exact hcharge.of_core (refreshLocked_core (ha.index.off_touches ht))
  unfold admitted
  cases removed with
  | false => exact hrefresh
  | true => exact scheduleLocked_scarce hacc hrefresh

/-- A new waiter has no credit yet. -/
theorem enqueue_scarce (ha : Accounts bb held out) (h : Scarce least bb out)
    (hroom : Room bb held out n g) :
    Scarce least (((bb.enqueue n g).activateLocked g).refreshLocked g).scheduleLocked
      (insert bb.nextWaiter out) := by
  rcases enqueue_accounts ha hroom with ⟨hacc, hfr⟩
  refine scheduleLocked_scarce hacc ?_
  have hcore := refreshLocked_core (enqueue_off ha.index ha.queues n g)
  have hescape : (((bb.enqueue n g).activateLocked g).refreshLocked g).escape = bb.escape :=
    (congrArg escape hcore).trans (activateLocked_rigid _ g).escape
  have hnext : (((bb.enqueue n g).activateLocked g).refreshLocked g).nextGroup = bb.nextGroup :=
    (congrArg nextGroup hcore).trans (activateLocked_rigid _ g).nextGroup
  have hfresh : bb.nextWaiter ∉ out := fun hm => absurd (ha.queues.fresh _ hm) (Nat.lt_irrefl _)
  refine h.shift ha.toBooks hacc.toBooks hfr.total ?_ ?_ 0 (.inl rfl) ?_
  · rw [hescape]
    exact h.escape_lt
  · have hsame : (((bb.enqueue n g).activateLocked g).refreshLocked g).credited out =
        bb.credited out := by
      refine credited_congr fun v hv => ?_
      have hne : v ≠ bb.nextWaiter := fun heq => hfresh (heq ▸ hv)
      rw [waiterAt_of_core hcore, (activateLocked_touches _ g).waiterAt,
        (enqueue_spec bb n g).rest v hne]
    unfold credited at hsame ⊢
    rw [Finset.sum_insert hfresh, enqueue_waiter ha, hsame, Nat.zero_add]
    exact h.credits
  · unfold holding
    rw [hescape, hnext, Nat.add_zero]

/-- A release that leaves out some of the escapes puts the counter ahead by at least one
request. -/
theorem releaseFor_scarce (ha : Accounts bb held out) (h : Scarce least bb out) (hg : g < bb.nextGroup)
    (hn : n ≤ held g) {x : Nat} (hx : x ≤ n) (hwhole : x = n ∨ x + least ≤ n) :
    Scarce least (bb.releaseFor n x (some g)) out := by
  rcases eq_or_ne n 0 with rfl | hne
  · exact h
  rw [releaseFor_eq ha.fair hne]
  show Scarce least (bb.released n x g).scheduleLocked out
  rcases released_accounts ha hg hn x with ⟨hacc, hfr⟩
  refine scheduleLocked_scarce hacc ?_
  have ht := releaseLocked_touches bb n x g
  have hlt := h.escape_lt
  have hle := le_holding bb held hg
  have hused := ha.toBooks.used_eq
  have hahead := h.ahead
  have hrefresh : (bb.released n x g).core = (bb.releaseLocked n x g).core := by
    unfold released
    split_ifs
    · rfl
    · exact refreshLocked_core (ha.index.off_touches ht)
  have hescape : (bb.released n x g).escape = bb.escape - x := by
    refine (congrArg escape hrefresh).trans ((releaseLocked_escape ha.fair n x g).trans ?_)
    exact sub64_eq (by omega) (by omega)
  have hnext : (bb.released n x g).nextGroup = bb.nextGroup :=
    (congrArg nextGroup hrefresh).trans ht.nextGroup
  refine h.shift ha.toBooks hacc.toBooks hfr.total (by omega) ?_ (n - x) (by omega) ?_
  · have hsame : (bb.released n x g).credited out = bb.credited out :=
      credited_congr fun v _ => by rw [waiterAt_of_core hrefresh, ht.waiterAt]
    rw [hsame]
    exact h.credits
  · have hheld := holding_update (bb.released n x g) held (hnext ▸ hg) (held g - n)
    have hsame : (bb.released n x g).holding held = bb.holding held := by
      unfold holding
      rw [hnext]
    omega

theorem register_scarce (hf : bb.fair = true) (h : Scarce least bb out) (key : String) :
    Scarce least (bb.register key).1 out := by
  rcases register_cases hf key with heq | ⟨g, -, heq⟩ | ⟨-, heq⟩
  · rw [heq]
    exact h
  · rw [heq]
    exact h.congr rfl rfl rfl rfl
  · rw [heq]
    exact h.congr rfl rfl rfl rfl

theorem unregister_scarce (h : Scarce least bb out) (g : GroupId) :
    Scarce least (bb.unregister (some g)) out := by
  have ht := unregisterLocked_touches bb g
  rcases unregisterLocked_counters bb g with ⟨hused, hescape⟩
  exact h.congr ht.total hescape hused ht.waiterAt

/-- What fits is no more than the total. -/
theorem fits_le (hpos : 0 < bb.total) (hfits : bb.fits n g = true) : n ≤ bb.total := by
  unfold fits at hfits
  rw [if_neg hpos.ne'] at hfits
  simp only at hfits
  split_ifs at hfits <;> omega

end ByteBudget

namespace FairState

open ByteBudget

variable {s : FairState} {n least : Nat}

/-- No request is granted: what a `reserveFor` admits is an escape. -/
theorem Solvent.reserve_scarce (hs : Solvent s) (h : Scarce least s.bb s.out) (force : Bool)
    {og : Option GroupId} {w : Option WaiterId} (hask : Asks s n og w) (hn : least ≤ n)
    (hsize : ∀ v ∈ w, (s.bb.waiterAt v).n = n) (hescape : s.bb.escape + n < 2 ^ 63) :
    Scarce least (s.reserve n force og w).bb (s.reserve n force og w).out ∧
      ((s.bb.reserveFor n force og w).2.ok = true →
        (s.bb.reserveFor n force og w).2.overshot = true) := by
  have hstep := reserveFor_step hs.accounts.fair n force og w
  have hpos := h.pos
  have hsmall := h.small
  unfold FairState.reserve
  generalize s.bb.reserveFor n force og w = r at hstep ⊢
  cases hstep with
  | consume v hgr =>
    -- its credit would be more than the total
    have hout := (hask.waiter v rfl).1
    have hfull := hs.accounts.queues.full v hout hgr
    have hle : (s.bb.waiterAt v).credit ≤ s.bb.credited s.out := credit_le_credited hout
    have hcredits := h.credits
    have hasked := hsize v rfl
    omega
  | wait v _ _ =>
    have hout := (hask.waiter v rfl).1
    refine ⟨?_, fun hno => absurd hno Bool.noConfusion⟩
    show Scarce least s.bb (insert v s.out)
    rw [Finset.insert_eq_of_mem hout]
    exact h
  | replace v escaped _ _ hesc =>
    rcases hask.waiter v rfl with ⟨hout, hgrp⟩
    have hremoved := removeWaiterLocked_scarce hs.accounts h hout
    rcases removeWaiterLocked_accounts hs.accounts hout with ⟨hacc, hfr, -, -⟩
    have htotal := hfr.total
    have hlt := h.escape_lt
    have hkeep := removeWaiterLocked_escape hs.accounts hout (by omega)
    obtain rfl : escaped = true := by
      by_contra hno
      have hfits := fits_le hremoved.pos (hesc.1 (Bool.eq_false_of_not_eq_true hno)).1
      omega
    refine ⟨?_, fun _ => rfl⟩
    exact admitted_scarce hacc hremoved (hs.replace_room hout hgrp hask.demand) (by omega) true
  | admitted escaped _ hesc =>
    obtain rfl : escaped = true := by
      by_contra hno
      have hfits := fits_le hpos (hesc.1 (Bool.eq_false_of_not_eq_true hno)).1
      omega
    refine ⟨?_, fun _ => rfl⟩
    exact admitted_scarce hs.accounts h (hs.room hask.group_lt hask.pos hask.demand) hescape false
  | queue _ _ =>
    refine ⟨?_, fun hno => absurd hno Bool.noConfusion⟩
    exact enqueue_scarce hs.accounts h (hs.room hask.group_lt hask.pos hask.demand)

end FairState

end UspClient
