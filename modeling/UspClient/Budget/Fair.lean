import UspClient.Budget.Ledger
import UspClient.Lib.Machine

/-!
# Runs of a fair budget

The callers of a fair budget as a machine: any sequence of `reserveFor`, `cancel`,
`releaseFor`, `register` and `unregister`, with the ledger of what the callers were
charged (`held`, of it `esc` as escapes) and of the waiters they hold (`out`). A
caller hands back only a waiter it was given, to the group it was queued for, and
releases only bytes it was charged, with the escape part they were charged with.

Main result: the scheduler is work-conserving, in every run in which the bytes
charged and asked for stay below `2 ^ 64`.
-/

namespace UspClient

open Function Word64 ByteBudget

/-- The budget and what its callers hold. -/
structure FairState where
  bb : ByteBudget
  held : GroupId → Nat := fun _ => 0
  esc : GroupId → Nat := fun _ => 0
  out : Finset WaiterId := ∅

inductive BudgetOp where
  | reserveFor (n : UInt64) (force : Bool) (g : Option GroupId) (w : Option WaiterId)
  | cancel (w : Option WaiterId)
  | releaseFor (n escape : UInt64) (g : Option GroupId)
  | register (key : String)
  | unregister (g : Option GroupId)

namespace FairState

variable {s : FairState} {g : GroupId} {n : Nat}

/-- The bytes charged to callers or asked for by them. -/
def demand (s : FairState) : Nat := s.bb.demand s.held s.out

/-- What a successful `reserveFor` charges: a granted waiter brings its own bytes. -/
def charged (s : FairState) (n : Nat) (w : Option WaiterId) : Nat :=
  match w with
  | some w => if (s.bb.waiterAt w).granted then (s.bb.waiterAt w).n else n
  | none => n

/-- The outstanding waiters without the one handed back. -/
def without (s : FairState) (w : Option WaiterId) : Finset WaiterId :=
  match w with
  | some w => s.out.erase w
  | none => s.out

/-- The waiters after a refused `reserveFor`, which returns one. -/
def withWaiter (s : FairState) (w : Option WaiterId) : Finset WaiterId :=
  match w with
  | some w => insert w s.out
  | none => s.out

def reserve (s : FairState) (n : Nat) (force : Bool) (og : Option GroupId) (w : Option WaiterId) :
    FairState :=
  let r := s.bb.reserveFor n force og w
  let g := group og
  if r.2.ok then
    { bb := r.1
      held := update s.held g (s.held g + s.charged n w)
      esc := update s.esc g (s.esc g + if r.2.overshot then n else 0)
      out := s.without w }
  else { s with bb := r.1, out := s.withWaiter r.2.waiter }

def release (s : FairState) (n escape : Nat) (og : Option GroupId) : FairState :=
  { s with
    bb := s.bb.releaseFor n escape og
    held := update s.held (group og) (s.held (group og) - n)
    esc := update s.esc (group og) (s.esc (group og) - escape) }

end FairState

/-- The callers of a fair budget. -/
def fairMachine : Machine FairState BudgetOp where
  guard s
    | .reserveFor n _ g w => 0 < n.toNat ∧ group g < s.bb.nextGroup ∧
        ∀ v ∈ w, v ∈ s.out ∧ (s.bb.waiterAt v).group = group g
    | .cancel w => ∀ v ∈ w, v ∈ s.out
    | .releaseFor n escape g => group g < s.bb.nextGroup ∧ escape.toNat ≤ n.toNat ∧
        escape.toNat ≤ s.esc (group g) ∧
        n.toNat - escape.toNat ≤ s.held (group g) - s.esc (group g)
    | .register _ => True
    | .unregister g => group g < s.bb.nextGroup
  next s
    | .reserveFor n force g w => s.reserve n.toNat force g w
    | .cancel w => { s with bb := s.bb.cancel w, out := s.without w }
    | .releaseFor n escape g => s.release n.toNat escape.toNat g
    | .register key => { s with bb := (s.bb.register key).1 }
    | .unregister g => { s with bb := s.bb.unregister g }

instance (s : FairState) (op : BudgetOp) : Decidable (fairMachine.guard s op) :=
  match op with
  | .reserveFor n _ g w => inferInstanceAs (Decidable (0 < n.toNat ∧ group g < s.bb.nextGroup ∧
      ∀ v ∈ w, v ∈ s.out ∧ (s.bb.waiterAt v).group = group g))
  | .cancel w => inferInstanceAs (Decidable (∀ v ∈ w, v ∈ s.out))
  | .releaseFor n escape g => inferInstanceAs (Decidable (group g < s.bb.nextGroup ∧
      escape.toNat ≤ n.toNat ∧ escape.toNat ≤ s.esc (group g) ∧
      n.toNat - escape.toNat ≤ s.held (group g) - s.esc (group g)))
  | .register _ => isTrue trivial
  | .unregister g => inferInstanceAs (Decidable (group g < s.bb.nextGroup))

/-- A budget from `NewFairByteBudget`, before any call. -/
structure FreshFair (total : Nat) (o : FairByteBudgetOptions) (s : FairState) : Prop where
  new : newFairByteBudget total o = some s.bb
  total_pos : 0 < total
  held : s.held = fun _ => 0
  esc : s.esc = fun _ => 0
  out : s.out = ∅

/-! ## One step -/

namespace FairState

variable {s : FairState} {g : GroupId} {n : Nat}

/-- The byte ledger agrees with the counters, and every waiter asked for a byte. -/
structure Solvent (s : FairState) : Prop where
  accounts : Accounts s.bb s.held s.out
  pos : ∀ w ∈ s.out, 0 < (s.bb.waiterAt w).n

/-- The ledger of the escapes agrees as well. -/
structure Sound (s : FairState) : Prop extends Solvent s where
  escapes : Escapes s.bb s.esc
  esc_le : ∀ g, s.esc g ≤ s.held g

theorem Solvent.held_of_unused (hs : Solvent s) (hg : s.bb.nextGroup ≤ g) : s.held g = 0 := by
  have hb := (TotalsOff.support hs.accounts.totals g hg).1
  unfold balance at hb
  omega

theorem Solvent.card_le_requested (hs : Solvent s) : s.out.card ≤ s.bb.requested s.out := by
  unfold requested
  rw [Finset.card_eq_sum_ones]
  exact Finset.sum_le_sum fun w hw => hs.pos w hw

/-- Every busy group holds or asks for a byte. -/
theorem Solvent.busy_le_demand (hs : Solvent s) :
    (s.bb.busy (s.bb.balance s.held s.out) (s.bb.pendings s.out)).card ≤ s.demand := by
  have hterm : ∀ g, (if s.bb.balance s.held s.out g ≠ 0 ∨ s.bb.pendings s.out g ≠ 0 then 1 else 0) ≤
      s.held g + s.bb.pendings s.out g := by
    intro g
    split_ifs with h
    · unfold balance at h
      rcases Nat.eq_zero_or_pos (s.bb.pendings s.out g) with hp | hp
      · have hc : s.bb.credits s.out g = 0 := by
          unfold pendings at hp
          unfold credits
          rw [Finset.card_eq_zero.1 hp, Finset.sum_empty]
        omega
      · omega
    · exact Nat.zero_le _
  unfold busy
  rw [Finset.card_filter]
  calc ∑ g ∈ Finset.range s.bb.nextGroup,
        (if s.bb.balance s.held s.out g ≠ 0 ∨ s.bb.pendings s.out g ≠ 0 then 1 else 0)
      ≤ ∑ g ∈ Finset.range s.bb.nextGroup, (s.held g + s.bb.pendings s.out g) :=
        Finset.sum_le_sum fun g _ => hterm g
    _ = ∑ g ∈ Finset.range s.bb.nextGroup, s.held g + s.out.card := by
        rw [Finset.sum_add_distrib, hs.accounts.queues.sum_pendings]
    _ ≤ s.demand := Nat.add_le_add_left hs.card_le_requested _

/-- Room for a new request follows from the bytes alone. -/
theorem Solvent.room (hs : Solvent s) (hg : g < s.bb.nextGroup) (hn : 0 < n)
    (hdem : s.demand + n < 2 ^ 64) : Room s.bb s.held s.out n g := by
  have hb := hs.busy_le_demand
  have hc := hs.card_le_requested
  have hle : s.bb.requested s.out ≤ s.demand := Nat.le_add_left _ _
  refine ⟨hg, hdem, by omega, ?_⟩
  have hi := Finset.card_insert_le g (s.bb.busy (s.bb.balance s.held s.out) (s.bb.pendings s.out))
  omega

theorem Solvent.pos_erase (hs : Solvent s) {bb : ByteBudget} (hfr : Frame s.bb bb) (v : WaiterId) :
    ∀ w ∈ s.out.erase v, 0 < (bb.waiterAt w).n := by
  intro w hw
  have hout := Finset.mem_of_mem_erase hw
  rw [(hfr.waiter w (hs.accounts.queues.fresh w hout)).1]
  exact hs.pos w hout

theorem Solvent.pos_frame (hs : Solvent s) {bb : ByteBudget} (hfr : Frame s.bb bb) :
    ∀ w ∈ s.out, 0 < (bb.waiterAt w).n := by
  intro w hw
  rw [(hfr.waiter w (hs.accounts.queues.fresh w hw)).1]
  exact hs.pos w hw

/-! ### The byte ledger -/

theorem Solvent.admitted (hs : Solvent s) (hroom : Room s.bb s.held s.out n g)
    (escaped removed : Bool) (esc : GroupId → Nat) :
    Solvent ⟨s.bb.admitted n g escaped removed, update s.held g (s.held g + n), esc,
      s.out⟩ := by
  obtain ⟨hacc, hfr⟩ := admit_accounts hs.accounts hroom escaped removed
  exact ⟨hacc, hs.pos_frame hfr⟩

/-- Giving up a waiter. -/
theorem Solvent.remove (hs : Solvent s) {v : WaiterId} (hv : v ∈ s.out) :
    Solvent ⟨s.bb.removeWaiterLocked v, s.held, s.esc, s.out.erase v⟩ := by
  obtain ⟨hacc, hfr, -, -⟩ := removeWaiterLocked_accounts hs.accounts hv
  exact ⟨hacc, hs.pos_erase hfr v⟩

/-- Queueing a request. -/
theorem Solvent.enqueue (hs : Solvent s) (hroom : Room s.bb s.held s.out n g) (hn : 0 < n) :
    Solvent ⟨((s.bb.enqueue n g).activateLocked g).refreshLocked g, s.held, s.esc,
      insert s.bb.nextWaiter s.out⟩ := by
  obtain ⟨hacc, hfr⟩ := enqueue_accounts hs.accounts hroom
  refine ⟨hacc, ?_⟩
  show ∀ w ∈ insert s.bb.nextWaiter s.out,
    0 < ((((s.bb.enqueue n g).activateLocked g).refreshLocked g).waiterAt w).n
  rw [Finset.forall_mem_insert, enqueue_waiter hs.accounts]
  exact ⟨hn, hs.pos_frame hfr⟩

/-- The same ledger over the state scheduling leaves. -/
theorem Solvent.reschedule (hs : Solvent s) {bb : ByteBudget} (hacc : Accounts bb s.held s.out)
    (hr : Rigid s.bb bb) : Solvent { s with bb := bb } :=
  ⟨hacc, hs.pos_frame hr.frame⟩

theorem Solvent.schedule (hs : Solvent s) : Solvent { s with bb := s.bb.scheduleLocked } := by
  obtain ⟨hacc, hr⟩ := scheduleLocked_accounts hs.accounts
  exact hs.reschedule hacc hr

/-- Releasing bytes. -/
theorem Solvent.release (hs : Solvent s) {og : Option GroupId} (hg : group og < s.bb.nextGroup)
    (hn : n ≤ s.held (group og)) (e : Nat) (esc : GroupId → Nat) :
    Solvent { s with
      bb := s.bb.releaseFor n e og
      held := update s.held (group og) (s.held (group og) - n)
      esc := esc } := by
  obtain ⟨hacc, hfr⟩ := releaseFor_accounts hs.accounts hg hn e
  exact ⟨hacc, hs.pos_frame hfr⟩

theorem Solvent.cancel (hs : Solvent s) {v : WaiterId} (hv : v ∈ s.out) :
    Solvent { s with bb := s.bb.cancel (some v), out := s.out.erase v } := by
  rw [cancel_eq hs.accounts.fair]
  exact (hs.remove hv).schedule

theorem Solvent.register (hs : Solvent s) (key : String) :
    Solvent { s with bb := (s.bb.register key).1 } := by
  obtain ⟨hacc, hfr⟩ := register_accounts hs.accounts (hs.held_of_unused le_rfl) key
  exact ⟨hacc, hs.pos_frame hfr⟩

theorem Solvent.unregister (hs : Solvent s) (og : Option GroupId) :
    Solvent { s with bb := s.bb.unregister og } := by
  obtain ⟨hacc, hfr⟩ := unregister_accounts hs.accounts og
  exact ⟨hacc, hs.pos_frame hfr⟩

/-- Room for the forced charge that replaces a waiter. -/
theorem Solvent.replace_room (hs : Solvent s) {v : WaiterId} (hv : v ∈ s.out)
    (hgrp : (s.bb.waiterAt v).group = g)
    (hdem : s.bb.demand s.held (s.out.erase v) + n < 2 ^ 64) :
    Room (s.bb.removeWaiterLocked v) s.held (s.out.erase v) n g := by
  have hc := hs.card_le_requested
  have hd := hs.accounts.demand
  unfold ByteBudget.demand at hd
  exact remove_room hs.accounts hv hgrp hdem (by omega)

/-- What a caller of `reserveFor` keeps: it asks for some bytes, for a group that exists, with a
waiter of its own, and the sums do not wrap. -/
structure Asks (s : FairState) (n : Nat) (og : Option GroupId) (w : Option WaiterId) : Prop where
  pos : 0 < n
  group_lt : group og < s.bb.nextGroup
  waiter : ∀ v ∈ w, v ∈ s.out ∧ (s.bb.waiterAt v).group = group og
  demand : s.bb.demand s.held (s.without w) + n < 2 ^ 64

/-- Everything `reserveFor` can do to the budget and the ledger of its callers. -/
inductive Reserved (s : FairState) (n : Nat) (g : GroupId) : FairState → Prop where
  /-- A granted waiter: its credits become held bytes. -/
  | consume (v : WaiterId) : v ∈ s.out → (s.bb.waiterAt v).group = g →
      (s.bb.waiterAt v).granted = true →
      Reserved s n g ⟨s.bb.settle g, update s.held g (s.held g + (s.bb.waiterAt v).n),
        s.esc, s.out.erase v⟩
  | wait : Reserved s n g s
  /-- A forced caller gives its credits back and is charged in one piece. -/
  | replace (v : WaiterId) (escaped : Bool) : v ∈ s.out →
      Room (s.bb.removeWaiterLocked v) s.held (s.out.erase v) n g →
      (escaped = false → (s.bb.removeWaiterLocked v).fits n g = true) →
      Reserved s n g ⟨(s.bb.removeWaiterLocked v).admitted n g escaped true,
        update s.held g (s.held g + n),
        update s.esc g (s.esc g + if escaped then n else 0), s.out.erase v⟩
  | admitted (escaped : Bool) : Room s.bb s.held s.out n g →
      (escaped = false → s.bb.fits n g = true) →
      Reserved s n g ⟨s.bb.admitted n g escaped false, update s.held g (s.held g + n),
        update s.esc g (s.esc g + if escaped then n else 0), s.out⟩
  | queue : Room s.bb s.held s.out n g →
      Reserved s n g ⟨(((s.bb.enqueue n g).activateLocked g).refreshLocked g).scheduleLocked,
        s.held, s.esc, insert s.bb.nextWaiter s.out⟩

variable {og : Option GroupId} {w : Option WaiterId}

theorem Solvent.reserved (hs : Solvent s) (force : Bool) (h : Asks s n og w) :
    Reserved s n (group og) (s.reserve n force og w) := by
  have hstep := reserveFor_step hs.accounts.fair n force og w
  unfold FairState.reserve
  generalize s.bb.reserveFor n force og w = r at hstep ⊢
  cases hstep with
  | consume v hgr =>
    obtain ⟨hout, hgrp⟩ := h.waiter v rfl
    have hcharged : s.charged n (some v) = (s.bb.waiterAt v).n := by simp [charged, hgr]
    show Reserved s n (group og) ⟨_, update _ _ (_ + s.charged n (some v)),
      update s.esc (group og) (s.esc (group og) + 0), s.out.erase v⟩
    rw [hcharged, Nat.add_zero, update_eq_self]
    exact .consume v hout hgrp hgr
  | wait v hgr hforce =>
    show Reserved s n (group og) { s with out := insert v s.out }
    rw [Finset.insert_eq_of_mem (h.waiter v rfl).1]
    exact .wait
  | replace v escaped hgr hforce hesc =>
    obtain ⟨hout, hgrp⟩ := h.waiter v rfl
    have hcharged : s.charged n (some v) = n := by simp [charged, hgr]
    show Reserved s n (group og) ⟨_, update _ _ (_ + s.charged n (some v)), _, _⟩
    rw [hcharged]
    exact .replace v escaped hout (hs.replace_room hout hgrp h.demand) fun he => (hesc.1 he).1
  | admitted escaped _ hesc =>
    exact .admitted escaped (hs.room h.group_lt h.pos h.demand) fun he => (hesc.1 he).1
  | queue _ hforce => exact .queue (hs.room h.group_lt h.pos h.demand)

/-- `reserveFor` keeps the ledger while nothing overflows, and the configuration. -/
theorem Solvent.reserve (hs : Solvent s) (force : Bool) (h : Asks s n og w) :
    Solvent (s.reserve n force og w) ∧ Frame s.bb (s.reserve n force og w).bb := by
  have hres := hs.reserved force h
  generalize s.reserve n force og w = s' at hres ⊢
  cases hres with
  | consume v hout hgrp hgr =>
    have hfr := (settle_touches s.bb (group og)).frame
    exact ⟨⟨consume_accounts hs.accounts hout hgrp hgr, hs.pos_erase hfr v⟩, hfr⟩
  | wait => exact ⟨hs, (Rigid.refl s.bb).frame⟩
  | replace v escaped hout hroom =>
    obtain ⟨-, hfr, -, -⟩ := removeWaiterLocked_accounts hs.accounts hout
    exact ⟨(hs.remove hout).admitted hroom escaped true _,
      hfr.trans (admit_accounts (hs.remove hout).accounts hroom escaped true).2⟩
  | admitted escaped hroom =>
    exact ⟨hs.admitted hroom escaped false _, (admit_accounts hs.accounts hroom escaped false).2⟩
  | queue hroom =>
    obtain ⟨hacc, hfr⟩ := enqueue_accounts hs.accounts hroom
    exact ⟨(hs.enqueue hroom h.pos).schedule, hfr.trans (scheduleLocked_accounts hacc).2.frame⟩

/-! ### The ledger of the escapes -/

/-- Escapes are part of what the budget counts as used. -/
theorem Sound.escape_le (hs : Sound s) : s.bb.escape ≤ s.bb.used := by
  rw [hs.escapes.escape, TotalsOff.used hs.accounts.totals]
  refine Finset.sum_le_sum fun g _ => ?_
  unfold balance
  exact le_trans (hs.esc_le g) (Nat.le_add_right _ _)

theorem esc_le_charge (hs : Sound s) (g : GroupId) (n : Nat) (escaped : Bool) (h : GroupId) :
    update s.esc g (s.esc g + if escaped then n else 0) h ≤
      update s.held g (s.held g + n) h := by
  by_cases hh : h = g
  · subst hh
    have hle := hs.esc_le h
    rw [update_self, update_self]
    split_ifs <;> omega
  · rw [update_of_ne hh, update_of_ne hh]
    exact hs.esc_le h

/-- What an admission by a sound state leaves. -/
theorem Sound.admitted (hs : Sound s) (hroom : Room s.bb s.held s.out n g) (escaped removed : Bool) :
    Sound ⟨s.bb.admitted n g escaped removed, update s.held g (s.held g + n),
      update s.esc g (s.esc g + if escaped then n else 0), s.out⟩ := by
  have hsum : s.bb.escape + n < 2 ^ 64 := by
    have h₁ := hs.escape_le
    have h₂ := hs.accounts.toBooks.used_add
    have h₃ := hroom.demand
    omega
  exact ⟨hs.toSolvent.admitted hroom escaped removed _,
    admit_escapes hs.accounts hroom hs.escapes hsum escaped removed, esc_le_charge hs g n escaped⟩

theorem Sound.remove (hs : Sound s) {v : WaiterId} (hv : v ∈ s.out) :
    Sound ⟨s.bb.removeWaiterLocked v, s.held, s.esc, s.out.erase v⟩ :=
  ⟨hs.toSolvent.remove hv, removeWaiterLocked_escapes hs.accounts hv hs.escapes, hs.esc_le⟩

theorem Sound.enqueue (hs : Sound s) (hroom : Room s.bb s.held s.out n g) (hn : 0 < n) :
    Sound ⟨((s.bb.enqueue n g).activateLocked g).refreshLocked g, s.held, s.esc,
      insert s.bb.nextWaiter s.out⟩ :=
  ⟨hs.toSolvent.enqueue hroom hn, enqueue_escapes hs.accounts hs.escapes n g, hs.esc_le⟩

theorem Sound.reschedule (hs : Sound s) {bb : ByteBudget} (hacc : Accounts bb s.held s.out)
    (hr : Rigid s.bb bb) : Sound { s with bb := bb } :=
  ⟨hs.toSolvent.reschedule hacc hr, hs.escapes.of_rigid hr, hs.esc_le⟩

/-- Releasing bytes with the escape part they were charged with. -/
theorem Sound.released (hs : Sound s) {e : Nat} (hg : g < s.bb.nextGroup) (hen : e ≤ n)
    (hle : e ≤ s.esc g) (hrest : n - e ≤ s.held g - s.esc g) :
    Sound { s with
      bb := s.bb.released n e g
      held := update s.held g (s.held g - n)
      esc := update s.esc g (s.esc g - e) } := by
  have hesc := hs.esc_le g
  obtain ⟨hacc, hfr⟩ := released_accounts hs.accounts hg (show n ≤ s.held g by omega) e
  refine ⟨⟨hacc, hs.pos_frame hfr⟩, released_escapes hs.accounts hs.escapes hg hle, ?_⟩
  intro h
  show update s.esc g (s.esc g - e) h ≤ update s.held g (s.held g - n) h
  by_cases hh : h = g
  · subst hh
    rw [update_self, update_self]
    omega
  · rw [update_of_ne hh, update_of_ne hh]
    exact hs.esc_le h

theorem Sound.schedule (hs : Sound s) : Sound { s with bb := s.bb.scheduleLocked } := by
  obtain ⟨hacc, hr⟩ := scheduleLocked_accounts hs.accounts
  exact hs.reschedule hacc hr

/-- `reserveFor` keeps the ledger sound while nothing overflows. -/
theorem Sound.reserve (hs : Sound s) (force : Bool) (h : Asks s n og w) :
    Sound (s.reserve n force og w) := by
  have hsolvent := (hs.toSolvent.reserve force h).1
  have hres := hs.toSolvent.reserved force h
  generalize s.reserve n force og w = s' at hsolvent hres ⊢
  cases hres with
  | consume v hout hgrp hgr =>
    refine ⟨hsolvent, settle_escapes hs.escapes, fun g => ?_⟩
    have hle := hs.esc_le g
    show s.esc g ≤ update s.held (group og) _ g
    by_cases hg : g = group og
    · subst hg
      rw [update_self]
      omega
    · rw [update_of_ne hg]
      exact hle
  | wait => exact hs
  | replace v escaped hout hroom => exact (hs.remove hout).admitted hroom escaped true
  | admitted escaped hroom => exact hs.admitted hroom escaped false
  | queue hroom => exact (hs.enqueue hroom h.pos).schedule

/-- Releasing bytes with the escape part they were charged with, and scheduling. -/
theorem Sound.release (hs : Sound s) {e : Nat} {og : Option GroupId}
    (hg : group og < s.bb.nextGroup) (hen : e ≤ n) (hle : e ≤ s.esc (group og))
    (hrest : n - e ≤ s.held (group og) - s.esc (group og)) : Sound (s.release n e og) := by
  unfold FairState.release
  by_cases h0 : n = 0
  · -- nothing is released, as an escape or otherwise
    have he0 : e = 0 := by omega
    rw [h0, he0, Nat.sub_zero, Nat.sub_zero, update_eq_self, update_eq_self]
    exact hs
  · rw [releaseFor_eq hs.accounts.fair h0]
    exact (hs.released hg hen hle hrest).schedule

theorem Sound.cancel (hs : Sound s) {v : WaiterId} (hv : v ∈ s.out) :
    Sound { s with bb := s.bb.cancel (some v), out := s.out.erase v } := by
  rw [cancel_eq hs.accounts.fair]
  exact (hs.remove hv).schedule

theorem Sound.register (hs : Sound s) (key : String) :
    Sound { s with bb := (s.bb.register key).1 } :=
  ⟨hs.toSolvent.register key, register_escapes hs.accounts hs.escapes key, hs.esc_le⟩

theorem Sound.unregister (hs : Sound s) (og : Option GroupId) :
    Sound { s with bb := s.bb.unregister og } := by
  refine ⟨hs.toSolvent.unregister og, ?_, hs.esc_le⟩
  cases og with
  | none => exact hs.escapes
  | some g => exact unregisterLocked_escapes hs.escapes

/-! ### Every call -/

/-- The call overflows no counter: what is charged and asked for, this request
included, is below `2 ^ 64`. -/
def Within (s : FairState) : BudgetOp → Prop
  | .reserveFor n _ _ w => s.bb.demand s.held (s.without w) + n.toNat < 2 ^ 64
  | _ => True

instance (s : FairState) (op : BudgetOp) : Decidable (s.Within op) :=
  match op with
  | .reserveFor n _ _ w =>
    inferInstanceAs (Decidable (s.bb.demand s.held (s.without w) + n.toNat < 2 ^ 64))
  | .cancel _ => isTrue trivial
  | .releaseFor _ _ _ => isTrue trivial
  | .register _ => isTrue trivial
  | .unregister _ => isTrue trivial

/-- Every call keeps the ledger sound. -/
theorem Sound.next (hs : Sound s) {op : BudgetOp} (hguard : fairMachine.guard s op)
    (hin : s.Within op) : Sound (fairMachine.next s op) := by
  cases op with
  | reserveFor n force g w =>
    obtain ⟨hn, hg, hw⟩ := hguard
    exact hs.reserve force ⟨hn, hg, hw, hin⟩
  | cancel w =>
    cases w with
    | none => exact hs
    | some v => exact hs.cancel (hguard v rfl)
  | releaseFor n escape g =>
    obtain ⟨hg, hen, hle, hrest⟩ := hguard
    exact hs.release hg hen hle hrest
  | register key => exact hs.register key
  | unregister g => exact hs.unregister g

/-- Every call keeps the configuration of the budget. -/
theorem Sound.next_frame (hs : Sound s) {op : BudgetOp} (hguard : fairMachine.guard s op)
    (hin : s.Within op) : Frame s.bb (fairMachine.next s op).bb := by
  cases op with
  | reserveFor n force og w =>
    obtain ⟨hn, hg, hw⟩ := hguard
    exact (hs.toSolvent.reserve force ⟨hn, hg, hw, hin⟩).2
  | cancel w =>
    cases w with
    | none => exact (Rigid.refl s.bb).frame
    | some v => exact (cancel_accounts hs.accounts (hguard v rfl)).2
  | releaseFor n escape g =>
    obtain ⟨hg, hen, hle, hrest⟩ := hguard
    have hesc := hs.esc_le (group g)
    exact (releaseFor_accounts hs.accounts hg (show n.toNat ≤ s.held (group g) by omega)
      escape.toNat).2
  | register key => exact (register_accounts hs.accounts (hs.held_of_unused le_rfl) key).2
  | unregister g => exact (unregister_accounts hs.accounts g).2

/-! ## The initial state -/

theorem newFairByteBudget_eq {total : Nat} {o : FairByteBudgetOptions} {bb : ByteBudget}
    (h : newFairByteBudget total o = some bb) :
    ∃ reserve minGroup, bb = { newByteBudget total with
      fair := true, reserve := reserve, minGroup := minGroup } ∧ (0 < total → reserve < total) := by
  unfold newFairByteBudget at h
  simp only at h
  obtain ⟨reserve, hres⟩ : ∃ r, (if o.reserveBytes = 0 then total / 8 else o.reserveBytes) = r :=
    ⟨_, rfl⟩
  rw [hres] at h
  split_ifs at h with hbad
  · refine ⟨reserve, _, (Option.some.inj h).symm, ?_⟩
    intro hpos
    by_contra hle
    exact hbad (Or.inr ⟨by omega, by omega⟩)
  · refine ⟨reserve, _, (Option.some.inj h).symm, ?_⟩
    intro hpos
    by_contra hle
    exact hbad (Or.inr ⟨by omega, by omega⟩)

/-- Before any call nothing is held. -/
theorem sound_of_new {total : Nat} {o : FairByteBudgetOptions} {bb : ByteBudget}
    (hnew : newFairByteBudget total o = some bb) : Sound { bb := bb } := by
  obtain ⟨reserve, minGroup, rfl, -⟩ := newFairByteBudget_eq hnew
  refine ⟨⟨⟨⟨rfl, ?_, ?_, ?_⟩, ?_⟩, by simp⟩, ?_, fun _ => le_rfl⟩
  · exact ⟨by simp, by simp, fun _ => List.nodup_nil, fun g w => by simp [newByteBudget], by simp,
      by simp, by simp, by simp, by simp, fun _ _ => rfl⟩
  · have hz : ∀ bb : ByteBudget, bb.balance (fun _ => 0) ∅ = fun _ => 0 := fun bb => by
      funext g
      simp [balance, credits]
    have hp : ∀ bb : ByteBudget, bb.pendings ∅ = fun _ => 0 := fun bb => by
      funext g
      simp [pendings]
    rw [hz, hp]
    exact ⟨fun _ => rfl, fun _ => rfl, by simp [newByteBudget], by simp [newByteBudget],
      fun _ _ => ⟨rfl, rfl⟩, fun _ _ => by simp [newByteBudget], by simp [newByteBudget],
      by simp [busy], fun _ => by simp⟩
  · simp [ByteBudget.demand, requested]
  · refine ⟨⟨List.nodup_nil, List.nodup_nil, ?_, ?_, ?_⟩, ?_, ?_, ?_, ?_⟩
    · simp [newByteBudget]
    · simp [newByteBudget]
    · intro g i
      simp [newByteBudget]
    · simp [newByteBudget]
    · simp [newByteBudget]
    · simp [newByteBudget]
    · intro c hc hlt
      simp [newByteBudget] at hlt
  · exact ⟨fun _ => rfl, by simp [newByteBudget], by simp [newByteBudget], fun _ _ => rfl⟩

theorem FreshFair.sound {total : Nat} {o : FairByteBudgetOptions} (hf : FreshFair total o s) :
    Sound s := by
  have hnew := sound_of_new hf.new
  obtain ⟨bb, held, esc, out⟩ := s
  obtain ⟨-, -, h₁, h₂, h₃⟩ := hf
  simp only at h₁ h₂ h₃
  subst h₁ h₂ h₃
  exact hnew

end FairState

/-! ## Work conservation -/

namespace ByteBudget

variable {bb t : ByteBudget} {g h : GroupId} {n : Nat}
variable {out : Finset WaiterId} {held held' : GroupId → Nat}

theorem baseRoom_eq_zero : bb.baseRoom = 0 ↔
    bb.total ≠ 0 ∧ bb.total - bb.reserve ≤ sub64 bb.used bb.escape := by
  unfold baseRoom
  split_ifs with h0 hlt
  · have hmax : maxWord ≠ 0 := by decide
    simp [h0, hmax]
  · constructor
    · intro hz
      omega
    · intro hz
      omega
  · simp only [true_iff]
    exact ⟨h0, Nat.le_of_not_lt hlt⟩

/-- Nothing becomes grantable when no room is freed, no share grows and no need
shrinks. -/
theorem Quiet.mono (hq : Quiet bb) (hw : ∀ h, h ∈ t.waiting → h ∈ bb.waiting)
    (ht : t.total = bb.total) (hr : t.reserve = bb.reserve)
    (hu : sub64 bb.used bb.escape ≤ sub64 t.used t.escape)
    (hsn : ∀ h, h ∈ bb.waiting → t.share h ≤ bb.share h ∧ bb.groupNeed h ≤ t.groupNeed h) :
    Quiet t := by
  rcases hq with hnil | ⟨h0, hfull⟩ | ⟨hbase, hall⟩
  · left
    rw [List.eq_nil_iff_forall_not_mem]
    intro h hh
    have hmem := hw h hh
    rw [hnil] at hmem
    cases hmem
  · right
    left
    rw [ht]
    exact ⟨h0, hfull.trans hu⟩
  · right
    right
    rw [baseRoom_eq_zero] at hbase ⊢
    rw [ht, hr]
    refine ⟨⟨hbase.1, hbase.2.trans hu⟩, ?_⟩
    intro h hh
    obtain ⟨h₁, h₂⟩ := hsn h (hw h hh)
    have h₃ := hall h (hw h hh)
    omega

theorem share_mono (hact : (bb.groupAt h).active = true) (hact' : (t.groupAt h).active = true)
    (hle : bb.active ≤ t.active) (ht : t.total = bb.total) (hm : t.minGroup = bb.minGroup) :
    t.share h ≤ bb.share h := by
  have hdiv : t.total / (if t.active < 2 then 2 else t.active) ≤
      bb.total / (if bb.active < 2 then 2 else bb.active) := by
    rw [ht]
    refine Nat.div_le_div_left ?_ ?_
    · split_ifs <;> omega
    · split_ifs <;> omega
  unfold share
  simp only [hact, hact', if_true, hm]
  split_ifs at hdiv ⊢ <;> omega

theorem groupNeed_mono (hq : (t.groupAt h).waiters = (bb.groupAt h).waiters)
    (hat : t.waiterAt = bb.waiterAt) (hu : (bb.groupAt h).used ≤ (t.groupAt h).used) :
    bb.groupNeed h ≤ t.groupNeed h := by
  have hsat : ∀ a b r : Nat, a ≤ b →
      (if r > maxWord - a then maxWord else a + r) ≤ if r > maxWord - b then maxWord else b + r := by
    intro a b r hab
    split_ifs <;> omega
  unfold groupNeed
  rw [hq, hat]
  exact hsat _ _ _ hu

/-- The number of active groups grows with the busy ones. -/
theorem Books.active_le (hb : Books bb held out) {out' : Finset WaiterId} (ht : Books t held' out')
    (hsub : ∀ g, (bb.balance held out g ≠ 0 ∨ bb.pendings out g ≠ 0) →
      t.balance held' out' g ≠ 0 ∨ t.pendings out' g ≠ 0)
    (hng : bb.nextGroup = t.nextGroup) : bb.active ≤ t.active := by
  rw [hb.totals.active_eq, ht.totals.active_eq]
  exact busy_mono hng hsub

end ByteBudget

namespace FairState

variable {s : FairState} {g : GroupId} {n : Nat}

/-- The difference the scheduler computes does not wrap. -/
theorem Sound.sub64_used (hs : Sound s) :
    sub64 s.bb.used s.bb.escape = s.bb.used - s.bb.escape :=
  sub64_eq hs.escape_le (TotalsOff.bound hs.accounts.totals)

theorem charge_counters (hf : s.bb.fair = true) (hsum : s.bb.used + n < 2 ^ 64)
    (hesc : s.bb.escape + n < 2 ^ 64) (g : GroupId) (escaped : Bool) :
    (s.bb.charge n g escaped).used = s.bb.used + n ∧
      (s.bb.charge n g escaped).escape = s.bb.escape + if escaped then n else 0 := by
  have hact : ∀ x : ByteBudget, (x.activateLocked g).used = x.used := by
    intro x
    unfold activateLocked
    simp only
    split_ifs <;> simp only [setActive_used, setGroup_used]
  unfold charge
  rw [if_neg (by simp [hf])]
  refine ⟨?_, ?_⟩
  · rw [hact]
    simp only [addCharge, pushCharge_used, setCounters_used]
    exact add64_eq hsum
  · rw [(activateLocked_rigid _ g).escape]
    simp only [addCharge, pushCharge_escape, setCounters_escape]
    split_ifs
    · exact add64_eq hesc
    · rw [Nat.add_zero]

theorem charge_group_used (hf : s.bb.fair = true) (hsum : (s.bb.groupAt g).used + n < 2 ^ 64)
    (escaped : Bool) :
    ((s.bb.charge n g escaped).groupAt g).used = (s.bb.groupAt g).used + n := by
  unfold charge
  rw [if_neg (by simp [hf]), activateLocked_used]
  simp only [addCharge, pushCharge_groupAt, setCounters_groupAt, setGroup_groupAt,
    update_self]
  exact add64_eq hsum

/-- An admission that schedules nothing leaves nothing to schedule. -/
theorem admit_quiet (hs : Sound s) (hq : Quiet s.bb) (hroom : Room s.bb s.held s.out n g)
    (escaped : Bool) : Quiet (s.bb.admitted n g escaped false) := by
  have hsound := hs.admitted hroom escaped false
  have ht := charge_touches s.bb n g escaped
  have hbooks := charge_books hs.accounts.toBooks hroom escaped
  have hacc := hs.accounts.touch_refresh ht hbooks
  -- the state after the refresh has the counters of the charge
  have hcore : (s.bb.admitted n g escaped false).core = (s.bb.charge n g escaped).core := by
    unfold ByteBudget.admitted
    simp only [Bool.false_eq_true, if_false]
    split_ifs
    · rfl
    · exact refreshLocked_core (hs.accounts.index.off_touches ht)
  have hrigid := admit_rigid hs.accounts hroom escaped false
  have hdem := hroom.demand
  have hused := hs.accounts.toBooks.used_add
  have hle := hs.escape_le
  obtain ⟨hcu, hce⟩ := charge_counters hs.accounts.fair (show s.bb.used + n < 2 ^ 64 by omega)
    (by omega) g escaped
  have hu : (s.bb.admitted n g escaped false).used = s.bb.used + n := by
    have hp := congrArg (fun x : ByteBudget => x.used) hcore
    exact hp.trans hcu
  have he : (s.bb.admitted n g escaped false).escape = s.bb.escape + if escaped then n else 0 :=
    hrigid.escape.trans hce
  have hqueue : ∀ h, ((s.bb.admitted n g escaped false).groupAt h).waiters =
      (s.bb.groupAt h).waiters := fun h => (waiters_of_core hcore h).trans (ht.waiters h)
  have hwait : ∀ h, h ∈ (s.bb.admitted n g escaped false).waiting → h ∈ s.bb.waiting := by
    intro h hh
    rw [hs.accounts.index.queued, ← hqueue]
    exact (hsound.accounts.index.queued h).1 hh
  refine hq.mono hwait (hrigid.total.trans ht.total) (hrigid.reserve.trans ht.reserve) ?_ ?_
  · have h₁ := hs.sub64_used
    have h₂ := hsound.sub64_used
    simp only at h₂
    rw [h₁, h₂, hu, he]
    split_ifs <;> omega
  · intro h hh
    have hne := (hs.accounts.index.queued h).1 hh
    have hmem := headD_mem hne
    rw [share_of_core hcore, groupNeed_of_core hcore]
    refine ⟨share_mono (hs.accounts.active_of_queue hmem)
      (hbooks.active_of_queue (by rw [ht.waiters]; exact hmem)) ?_ ht.total ht.minGroup, ?_⟩
    · refine hs.accounts.toBooks.active_le hbooks ?_ ht.nextGroup.symm
      intro k hk
      have hcred : (s.bb.charge n g escaped).credits s.out = s.bb.credits s.out :=
        credits_congr _ fun v _ => by rw [ht.waiterAt]; exact ⟨rfl, rfl⟩
      rw [pendings_congr s.bb fun v _ => by rw [ht.waiterAt]]
      unfold balance at hk ⊢
      rw [hcred]
      by_cases hkg : k = g
      · subst hkg
        rw [update_self]
        omega
      · rw [update_of_ne hkg]
        exact hk
    · refine groupNeed_mono (ht.waiters h) ht.waiterAt ?_
      by_cases hhg : h = g
      · subst hhg
        have hbound := hs.accounts.totals.le_used h
        rw [← TotalsOff.group_used hs.accounts.totals] at hbound
        rw [charge_group_used hs.accounts.fair (by omega) escaped]
        exact Nat.le_add_right _ _
      · rw [ht.other h hhg]

/-- Consuming a grant leaves nothing to schedule. -/
theorem settle_quiet (hs : Sound s) (hq : Quiet s.bb) {v : WaiterId} (hv : v ∈ s.out)
    (hgrp : (s.bb.waiterAt v).group = g) (hgr : (s.bb.waiterAt v).granted = true) :
    Quiet (s.bb.settle g) := by
  have ht := settle_touches s.bb g
  have hacc := consume_accounts hs.accounts hv hgrp hgr
  have hpos := hs.pos v hv
  have hused : (s.bb.settle g).used = s.bb.used := by
    have hset := TotalsOff.used (settle_totals hs.accounts.fair
      (hgrp ▸ hs.accounts.queues.group_lt v hv) hs.accounts.totals (pendings_pos hv hgrp))
    rw [hset, ht.nextGroup]
    exact (TotalsOff.used hs.accounts.totals).symm
  have hesc : (s.bb.settle g).escape = s.bb.escape := by
    have h₁ := (settle_escapes (g := g) hs.escapes).escape
    rw [h₁, ht.nextGroup]
    exact hs.escapes.escape.symm
  refine hq.mono ?_ ht.total ht.reserve ?_ ?_
  · rw [ht.index.waiting]
    exact fun _ hh => hh
  · rw [hused, hesc]
  · intro h hh
    have hne := (hs.accounts.index.queued h).1 hh
    have hmem := headD_mem hne
    refine ⟨share_mono (hs.accounts.active_of_queue hmem)
      (hacc.active_of_queue (by rw [ht.waiters]; exact hmem)) ?_ ht.total ht.minGroup,
      groupNeed_mono (ht.waiters h) ht.waiterAt (by rw [settle_used])⟩
    -- the group keeps the bytes of the grant, so it stays active
    refine hs.accounts.toBooks.active_le hacc.toBooks ?_ ht.nextGroup.symm
    intro k hk
    have hcred : (s.bb.settle g).credits (s.out.erase v) = s.bb.credits (s.out.erase v) :=
      credits_congr _ fun w _ => by rw [ht.waiterAt]; exact ⟨rfl, rfl⟩
    have hpend : (s.bb.settle g).pendings (s.out.erase v) = s.bb.pendings (s.out.erase v) :=
      pendings_congr _ fun w _ => by rw [ht.waiterAt]
    unfold balance at hk ⊢
    rw [hcred, hpend, credits_erase _ hv hgrp, pendings_erase hv hgrp]
    by_cases hkg : k = g
    · subst hkg
      rw [update_self]
      left
      omega
    · rw [update_of_ne hkg, update_of_ne hkg, update_of_ne hkg]
      exact hk

/-- Quietness when only registrations changed. -/
theorem quiet_of_registrations (hs : Sound s) (hq : Quiet s.bb) {bb : ByteBudget}
    (hacc : Accounts bb s.held s.out) (hfr : Frame s.bb bb) (hw : bb.waiting = s.bb.waiting)
    (hu : bb.used = s.bb.used) (he : bb.escape = s.bb.escape) (ha : bb.active = s.bb.active)
    (hwa : bb.waiterAt = s.bb.waiterAt)
    (hat : ∀ h, (s.bb.groupAt h).waiters ≠ [] → (bb.groupAt h).waiters = (s.bb.groupAt h).waiters ∧
      (bb.groupAt h).used = (s.bb.groupAt h).used) : Quiet bb := by
  refine hq.mono (by rw [hw]; exact fun _ hh => hh) hfr.total hfr.reserve (by rw [hu, he]) ?_
  intro h hh
  have hne := (hs.accounts.index.queued h).1 hh
  obtain ⟨h₁, h₂⟩ := hat h hne
  have hmem := headD_mem hne
  exact ⟨share_mono (hs.accounts.active_of_queue hmem)
    (hacc.active_of_queue (by rw [h₁]; exact hmem)) ha.ge hfr.total hfr.minGroup,
    groupNeed_mono h₁ hwa h₂.ge⟩

theorem unregister_quiet (hs : Sound s) (hq : Quiet s.bb) (og : Option GroupId) :
    Quiet (s.bb.unregister og) := by
  cases og with
  | none => exact hq
  | some g =>
    obtain ⟨hacc, hfr⟩ := unregister_accounts hs.accounts (some g)
    have ht := unregisterLocked_touches s.bb g
    have hcount : (s.bb.unregisterLocked g).used = s.bb.used ∧
        (s.bb.unregisterLocked g).escape = s.bb.escape ∧
        (s.bb.unregisterLocked g).active = s.bb.active := by
      unfold unregisterLocked
      simp only
      split_ifs <;> exact ⟨rfl, rfl, rfl⟩
    exact quiet_of_registrations hs hq hacc hfr ht.index.waiting hcount.1 hcount.2.1 hcount.2.2
      ht.waiterAt fun h _ => ⟨ht.waiters h, unregisterLocked_used _ _ h⟩

theorem register_quiet (hs : Sound s) (hq : Quiet s.bb) (key : String) :
    Quiet (s.bb.register key).1 := by
  obtain ⟨hacc, hfr⟩ := register_accounts hs.accounts (hs.held_of_unused le_rfl) key
  obtain ⟨bb, hbb⟩ : ∃ bb, (s.bb.register key).1 = bb := ⟨_, rfl⟩
  rw [hbb] at hacc hfr ⊢
  rcases register_cases hs.accounts.fair key with heq | ⟨g, -, heq⟩ | ⟨-, heq⟩
  · rw [← hbb, heq]
    exact hq
  · rw [hbb] at heq
    refine quiet_of_registrations hs hq hacc hfr (by rw [heq]; rfl) (by rw [heq]; rfl)
      (by rw [heq]; rfl) (by rw [heq]; rfl) (by rw [heq]; rfl) ?_
    intro h _
    rw [heq]
    by_cases hh : h = g
    · subst hh
      simp
    · simp [hh]
  · rw [hbb] at heq
    refine quiet_of_registrations hs hq hacc hfr (by rw [heq]; rfl) (by rw [heq]; rfl)
      (by rw [heq]; rfl) (by rw [heq]; rfl) (by rw [heq]; rfl) ?_
    -- a group with a queue is not the new one
    intro h hne
    have hh : h ≠ s.bb.nextGroup := by
      rintro rfl
      exact hne (hs.accounts.unused le_rfl).2.2.2.1
    rw [heq]
    simp [hh]

/-- Every call leaves nothing to schedule. -/
theorem Sound.next_quiet (hs : Sound s) (hq : Quiet s.bb) {op : BudgetOp}
    (hguard : fairMachine.guard s op) (hin : s.Within op) : Quiet (fairMachine.next s op).bb := by
  cases op with
  | reserveFor n force og w =>
    obtain ⟨hn, hg, hw⟩ := hguard
    have hres := hs.toSolvent.reserved force ⟨hn, hg, hw, hin⟩
    show Quiet (s.reserve n.toNat force og w).bb
    generalize s.reserve n.toNat force og w = s' at hres ⊢
    cases hres with
    | consume v hout hgrp hgr => exact settle_quiet hs hq hout hgrp hgr
    | wait => exact hq
    | replace v escaped hout hroom =>
      -- the credits of the waiter are back before the caller is charged
      have hrem := hs.remove hout
      have ht := charge_touches (s.bb.removeWaiterLocked v) n.toNat (group og) escaped
      have hacc := hrem.accounts.touch_refresh ht (charge_books hrem.accounts.toBooks hroom escaped)
      exact scheduleLocked_quiet hacc
        (hrem.pos_frame (ht.frame_refresh hrem.accounts.index))
    | admitted escaped hroom => exact admit_quiet hs hq hroom escaped
    -- the newcomer may have room at once
    | queue hroom =>
      have henq := hs.enqueue hroom hn
      exact scheduleLocked_quiet henq.accounts henq.pos
  | cancel w =>
    cases w with
    | none => exact hq
    | some v =>
      have hrem := hs.remove (hguard v rfl)
      show Quiet (s.bb.cancel (some v))
      rw [cancel_eq hs.accounts.fair]
      exact scheduleLocked_quiet hrem.accounts hrem.pos
  | releaseFor n escape g =>
    obtain ⟨hg, hen, hle, hrest⟩ := hguard
    show Quiet (s.bb.releaseFor n.toNat escape.toNat g)
    by_cases h0 : n.toNat = 0
    · rw [h0]
      exact hq
    · have hrel := hs.released hg hen hle hrest
      rw [releaseFor_eq hs.accounts.fair h0]
      exact scheduleLocked_quiet hrel.accounts hrel.pos
  | register key => exact register_quiet hs hq key
  | unregister g => exact unregister_quiet hs hq g

theorem Sound.run {total : Nat} {o : FairByteBudgetOptions} {s₀ : FairState}
    {tr : List (Machine.Step FairState BudgetOp)} (hf : FreshFair total o s₀)
    (hrun : Machine.Run fairMachine s₀ tr s) (hin : ∀ st ∈ tr, st.pre.Within st.act) :
    Sound s ∧ Quiet s.bb := by
  refine hrun.invariant_of Within (fun s => Sound s ∧ Quiet s.bb) ⟨FreshFair.sound hf, ?_⟩ ?_ hin
  · obtain ⟨reserve, minGroup, hbb, -⟩ := newFairByteBudget_eq hf.new
    left
    rw [hbb]
    rfl
  · intro s op hguard hw hinv
    exact ⟨hinv.1.next hguard hw, hinv.1.next_quiet hinv.2 hguard hw⟩

end FairState

/-- **Fair scheduling is work-conserving.** After every call, while some group has a
queued waiter, the room outside the reserve is used up, and either the whole budget
is or no queued head is entitled to the rest. -/
theorem fair_scheduling_work_conserving {total : Nat} {o : FairByteBudgetOptions}
    {s₀ s : FairState} {tr : List (Machine.Step FairState BudgetOp)} (hf : FreshFair total o s₀)
    (hrun : Machine.Run fairMachine s₀ tr s) (hin : ∀ st ∈ tr, st.pre.Within st.act)
    (hqueued : ∃ g, (s.bb.groupAt g).waiters ≠ []) :
    s.bb.total - s.bb.reserve ≤ sub64 s.bb.used s.bb.escape ∧
      (s.bb.total ≤ sub64 s.bb.used s.bb.escape ∨
        ∀ g, (s.bb.groupAt g).waiters ≠ [] → s.bb.share g < s.bb.groupNeed g) := by
  obtain ⟨hs, hq⟩ := FairState.Sound.run hf hrun hin
  obtain ⟨g, hg⟩ := hqueued
  rcases hq with hnil | ⟨-, hfull⟩ | ⟨hbase, hall⟩
  · -- some group waits
    have hmem := (hs.accounts.index.queued g).2 hg
    rw [hnil] at hmem
    cases hmem
  · exact ⟨le_trans (Nat.sub_le _ _) hfull, Or.inl hfull⟩
  · refine ⟨(baseRoom_eq_zero.1 hbase).2, Or.inr ?_⟩
    intro h hh
    exact hall h ((hs.accounts.index.queued h).2 hh)

/-- A budget of 1000 bytes, 100 of them in reserve, before any call. -/
def fairStart : FairState where
  bb := { newByteBudget 1000 with fair := true, reserve := 100, minGroup := 256 }

theorem fairStart_fresh : FreshFair 1000 ⟨100, 256⟩ fairStart :=
  ⟨rfl, by decide, rfl, rfl, rfl⟩

/-- Two groups fill 900 bytes, then the first asks for 200 more and is queued. -/
def crowded : List BudgetOp :=
  [.register "A", .register "B", .reserveFor 500 false (some 2) none,
    .reserveFor 400 false (some 1) none, .reserveFor 200 false (some 1) none]

theorem crowded_work_conserving :
    ((fairMachine.exec fairStart crowded).bb.groupAt 1).waiters ≠ [] ∧
      (fairMachine.exec fairStart crowded).bb.total - (fairMachine.exec fairStart crowded).bb.reserve ≤
        sub64 (fairMachine.exec fairStart crowded).bb.used
          (fairMachine.exec fairStart crowded).bb.escape := by
  refine ⟨by decide +kernel, ?_⟩
  exact (fair_scheduling_work_conserving fairStart_fresh
    (Machine.run_exec crowded (by decide +kernel)) (by decide +kernel) ⟨1, by decide +kernel⟩).1

/-- A forced escape of almost `2 ^ 64` bytes wraps the bytes its group holds, so that
the queued head of the group becomes entitled to the reserve, and nobody schedules
it: the bytes stay idle. -/
theorem forced_wrap_leaves_entitled_head :
    ∃ tr s, Machine.Run fairMachine fairStart tr s ∧ (s.bb.groupAt 1).waiters ≠ [] ∧
      ¬ (s.bb.total ≤ sub64 s.bb.used s.bb.escape ∨
        ∀ g, (s.bb.groupAt g).waiters ≠ [] → s.bb.share g < s.bb.groupNeed g) := by
  refine ⟨_, _, Machine.run_exec
    (crowded ++ [.reserveFor 18446744073709551316 true (some 1) none]) (by decide +kernel),
    by decide +kernel, ?_⟩
  rintro (hfull | hall)
  · exact absurd hfull (by decide +kernel)
  · exact absurd (hall 1 (by decide +kernel)) (by decide +kernel)

end UspClient
