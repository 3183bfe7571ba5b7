import UspClient.Lib.Refine
import UspClient.Client.Crew

/-!
# Nobody waits forever

Who waits for whom in a client: a goroutine for the holder of `connMutex`, the holder in
`disconnect` for the workers of the connection, and a worker that has not started for the
goroutine that launches it. That goroutine waits for nobody (`exists_ready`).

* `close_terminates`: once `isClosing` is set, every schedule is bounded apart from the messages
  of the peer, and until a `Close` has returned somebody can go on without help of the peer, of
  the buffer or of a backoff, if `isClosing` was not set while a reconnect goroutine was about to
  clear `isStop`.
* `open_client_connects`: from every state of an open client, whatever failed before, there is a
  schedule after which it is connected, with its three workers running.

The measures count the steps that are left to a goroutine. They differ because a failed
connection attempt ends a closing client and is repeated by an open one.
-/

namespace UspClient

open Protocol

namespace Pc

/-- The goroutine has returned. -/
def finished : Pc → Bool
  | .idle | .done | .closed | .exited _ _ => true
  | _ => false

/-- The goroutine has returned, works, or is a `Close` that has not begun. -/
def settled : Pc → Bool
  | .work _ | .closeStore => true
  | a => a.finished

/-- The goroutine may have to wait for another one. -/
def blocks : Pc → Bool
  | .lockDisconnect | .lockConnect | .closeLock | .join | .closeJoin | .waitStart _ => true
  | _ => false

variable {a : Pc} {w : Worker}

theorem free_of_launching (h : a.launching = true) : a.settled = false ∧ a.blocks = false := by
  revert h
  unfold launching
  split <;> simp [settled, finished, blocks]

theorem not_finished_of_worker (h : a.worker = some w) : a.finished = false := by
  revert h
  unfold finished
  split <;> simp

theorem not_settled_of_owns (h : a.owns = true) : a.settled = false := by
  revert h
  unfold owns
  split <;> simp [settled, finished]

theorem not_settled_of_holds (h : a.holds = true) : a.settled = false := by
  revert h
  unfold holds
  split <;> simp [settled, finished]

theorem not_finished_of_closing (h : a.closing = true) (hne : a ≠ .closed) :
    a.finished = false := by
  revert h hne
  unfold closing
  split <;> simp [finished]

theorem cancelled_of_blocks (h : a.closing = true) (hb : a.blocks = true) :
    a.cancelled = true := by
  revert h hb
  unfold closing
  split <;> simp [blocks]

theorem not_finished (h : a.settled = false) : a.finished = false := by
  unfold settled at h
  split at h
  next => cases h
  next => cases h
  next => exact h

theorem blocks_cases (h : a.blocks = true) :
    (a = .lockDisconnect ∨ a = .lockConnect ∨ a = .closeLock) ∨ (a = .join ∨ a = .closeJoin) ∨
      ∃ w, a = .waitStart w := by
  revert h
  unfold blocks
  split <;> simp

end Pc

namespace Protocol

variable {p p₁ p' : Protocol} {t u : Nat} {a b d : Pc} {r : Pc → Nat} {e : ProtocolAct}

/-! ## Who can go on -/

/-- Nothing keeps the goroutine from its next access. -/
inductive Ready (p : Protocol) (u : Nat) : Prop where
  | free (hf : (p.pc u).finished = false) (hb : (p.pc u).blocks = false)
  | lock (hm : p.connMutex = none)
      (hpc : p.pc u = .lockDisconnect ∨ p.pc u = .lockConnect ∨ p.pc u = .closeLock)
  | join (hj : p.joined = true) (hpc : p.pc u = .join ∨ p.pc u = .closeJoin)
  | start (hs : p.isStart = true) {w : Worker} (hpc : p.pc u = .waitStart w)

/-- Somebody can go on that `t` may be waiting for. A worker at work is one of them only if a
`disconnect` waits for it. -/
def Way (p : Protocol) (t : Nat) : Prop :=
  ∃ u, Ready p u ∧ (p.pc u = .closeStore → u = t) ∧
    ∀ w, p.pc u = .work w → u = t ∨ ∃ v, p.pc v = .join ∨ p.pc v = .closeJoin

theorem Ready.way (h : Ready p t) : Way p t := ⟨t, h, fun _ => rfl, fun _ _ => .inl rfl⟩

theorem Ready.way_of_settled (h : Ready p u) (hs : (p.pc u).settled = false) : Way p t := by
  refine ⟨u, h, fun hpc => ?_, fun w hpc => ?_⟩
  · rw [hpc] at hs; cases hs
  · rw [hpc] at hs; cases hs

/-- The goroutine that launches the workers waits for nobody. -/
theorem way_of_launching (h : (p.pc u).launching = true) : Way p t := by
  rcases Pc.free_of_launching h with ⟨hs, hfree⟩
  exact (Ready.free (Pc.not_finished hs) hfree).way_of_settled hs

theorem way_of_waitStart (hcrew : Crew p) {w : Worker} (hpc : p.pc u = .waitStart w) :
    Way p t := by
  rcases hcrew.armed u w (by rw [hpc]; rfl) with hstart | ⟨v, hv⟩
  · exact (Ready.start hstart hpc).way_of_settled (by rw [hpc]; rfl)
  · exact way_of_launching hv

/-- A goroutine that waits for nobody, or a worker that waits for its start. -/
theorem way_of_worker (hcrew : Crew p) {w : Worker} (hw : (p.pc u).worker = some w)
    (hjoin : ∃ v, p.pc v = .join ∨ p.pc v = .closeJoin) : Way p t := by
  by_cases hblocks : (p.pc u).blocks = true
  · rcases Pc.blocks_cases hblocks with (hpc | hpc | hpc) | (hpc | hpc) | ⟨v, hpc⟩
    any_goals
      rw [hpc] at hw
      cases hw
    exact way_of_waitStart hcrew hpc
  · refine ⟨u, .free (Pc.not_finished_of_worker hw) (Bool.eq_false_of_not_eq_true hblocks),
      fun hpc => ?_, fun _ _ => .inr hjoin⟩
    rw [hpc] at hw
    cases hw

theorem way_of_join (hcrew : Crew p) (hpc : p.pc u = .join ∨ p.pc u = .closeJoin) : Way p t := by
  by_cases hj : p.joined = true
  · refine (Ready.join hj hpc).way_of_settled ?_
    rcases hpc with hpc | hpc <;> rw [hpc] <;> rfl
  · -- the worker group is not empty
    simp only [joined, List.all_eq_true, List.mem_range, not_forall] at hj
    rcases hj with ⟨v, _, hv⟩
    have hsome : (p.pc v).worker ≠ none := fun hn => hv (by rw [hn]; rfl)
    rcases Option.ne_none_iff_exists'.1 hsome with ⟨w, hw⟩
    exact way_of_worker hcrew hw ⟨u, hpc⟩

theorem way_of_holder (hinv : Inv p) (hcrew : Crew p) (hm : p.connMutex = some u) : Way p t := by
  have hholds := (hinv.mutex u).2 hm
  by_cases hblocks : (p.pc u).blocks = true
  · rcases Pc.blocks_cases hblocks with (hpc | hpc | hpc) | hjoin | ⟨v, hpc⟩
    any_goals
      rw [hpc] at hholds
      cases hholds
    exact way_of_join hcrew hjoin
  · have hs := Pc.not_settled_of_holds hholds
    exact (Ready.free (Pc.not_finished hs) (Bool.eq_false_of_not_eq_true hblocks)).way_of_settled hs

/-- If somebody is not finished, somebody can go on. -/
theorem exists_ready (hinv : Inv p) (hcrew : Crew p) (ht : (p.pc t).finished = false) :
    Way p t := by
  by_cases hblocks : (p.pc t).blocks = true
  · rcases Pc.blocks_cases hblocks with hlock | hjoin | ⟨w, hwait⟩
    · cases hm : p.connMutex with
      | none => exact (Ready.lock hm hlock).way
      | some u => exact way_of_holder hinv hcrew hm
    · exact way_of_join hcrew hjoin
    · exact way_of_waitStart hcrew hwait
  · exact (Ready.free ht (Bool.eq_false_of_not_eq_true hblocks)).way

/-! ## Closing -/

/-- A step that is not a message of the peer to a listener. -/
def Quiet (p : Protocol) : ProtocolAct → Prop
  | .step t (.message _) => (p.pc t).worker = none
  | .step _ _ => True
  | _ => False

instance (p : Protocol) : ∀ a, Decidable (Quiet p a)
  | .step t (.message _) => decidable_of_iff ((p.pc t).worker.isNone = true) Option.isNone_iff_eq_none
  | .step _ .go | .step _ .fail | .step _ .stop => isTrue trivial
  | .callClose | .callReconnect => isFalse id

/-- Whoever is ready goes on, unless it depends on the environment. -/
theorem Ready.go (h : Ready p u) (hh : p.pc u ≠ .handshake) (hw : ¬∃ w, p.pc u = .work w) :
    (p.step u .go).isSome = true := by
  cases h with
  | lock hm hpc => rcases hpc with hpc | hpc | hpc <;> simp [step, hpc, Protocol.lock, hm]
  | join hj hpc => rcases hpc with hpc | hpc <;> simp [step, hpc, finishDisconnect, hj]
  | start hs hpc => simp [step, hpc, hs]
  | free hf hb =>
    cases hpc : p.pc u with
    | handshake => exact absurd hpc hh
    | work w => exact absurd ⟨w, hpc⟩ hw
    | swapReconnecting k =>
      simp only [step, hpc]
      split <;> rfl
    | idle | done | closed | exited => rw [hpc] at hf; cases hf
    | lockDisconnect | lockConnect | closeLock | join | closeJoin | waitStart =>
      rw [hpc] at hb; cases hb
    | _ => simp [step, hpc]

theorem toClose_le (a : Pc) : a.toClose ≤ 19 := by
  unfold Pc.toClose
  split <;> decide

theorem total_toClose_le (p : Protocol) : total Pc.toClose p ≤ 19 * p.spawned := by
  have hsum := Finset.sum_le_card_nsmul (Finset.range p.spawned) (fun t => (p.pc t).toClose) 19
    fun t _ => toClose_le (p.pc t)
  rw [Finset.card_range, smul_eq_mul, Nat.mul_comm] at hsum
  exact hsum

/-- A step the code makes by itself. It waits for no message of the peer, and relies on no frame
to write and on no backoff: a dial and a handshake end once `closeCtx` is cancelled, and a worker
leaves its loop once `isStop` is set and a `disconnect` has closed its socket. -/
def Sure (p : Protocol) : ProtocolAct → Prop
  | .step _ .go => True
  | .step t .fail => p.pc t = .handshake ∧ p.closeDone = true
  | .step t .stop =>
    (∃ w, p.pc t = .work w) ∧ p.isStop = true ∧ ∃ u, p.pc u = .join ∨ p.pc u = .closeJoin
  | _ => False

/-- A `Close` that sets `isClosing` finds no reconnect goroutine between its last check of
`isClosing` and the clearing of `isStop`. -/
def ClosesApart (p : Protocol) : ProtocolAct → Prop
  | .step t _ => p.pc t = .closeStore → ∀ u, u < p.spawned → p.pc u ≠ .clearStop
  | _ => True

instance (p : Protocol) : ∀ a, Decidable (ClosesApart p a)
  | .step t _ => inferInstanceAs
      (Decidable (p.pc t = .closeStore → ∀ u, u < p.spawned → p.pc u ≠ .clearStop))
  | .callClose | .callReconnect => isTrue trivial

/-- What a client keeps whose `Close` calls came apart: a stop request lasts, and nobody is about
to clear it once the client is closing. -/
structure Apart (p : Protocol) : Prop where
  inv : Inv p
  crew : Crew p
  cancelled : ∀ t, (p.pc t).cancelled = true → p.closeDone = true
  stops : p.isClosing = true → Stopped p
  cleared : p.isClosing = true → ∀ t, p.pc t ≠ .clearStop

theorem Apart.stopped (h : Apart p) : Stopped p := by
  cases hc : p.isClosing with
  | false => exact h.crew.stops hc
  | true => exact h.stops hc

theorem Apart.spawn (h : Apart p) (hs : p.act e = some (p.spawn b)) (hb : b.cancelled = false)
    (hst : b.stopping = false) (hne : b ≠ .clearStop) : Apart (p.spawn b) := by
  refine ⟨h.inv.act hs, h.crew.act h.inv hs, fun t ht => ?_, fun _ => h.stopped.spawn hst,
    fun hc t => ?_⟩
  · rw [spawn_pc] at ht
    split_ifs at ht
    · rw [hb] at ht; cases ht
    · exact h.cancelled t ht
  · rw [spawn_pc]
    split_ifs
    · exact hne
    · exact h.cleared hc t

theorem Apart.step (h : Apart p) {c : Choice} (hs : p.step t c = some p')
    (hapart : ClosesApart p (.step t c)) : Apart p' := by
  rcases step_goes h.inv hs with ⟨b, d, hshift, hspawns, hmoved⟩
  have hdone : ∀ u, (p'.pc u).cancelled = true → p'.closeDone = true := by
    refine hmoved.forall (P := fun a => a.cancelled = true → p'.closeDone = true) ?_ ?_ ?_
    · intro hb
      rcases hshift.cancelled hb with ha | hdone
      · exact hshift.closeDone (h.cancelled t ha)
      · exact hdone
    · -- nobody starts as a `Close` that has cancelled
      intro x hx hb
      cases hspawns with
      | nobody => cases hx
      | owner | worker => cases hx; cases hb
    · exact fun u _ hu => hshift.closeDone (h.cancelled u hu)
  have hclear : p'.isClosing = true → ∀ u, p'.pc u ≠ .clearStop := by
    intro hc
    refine hmoved.forall (P := (· ≠ .clearStop)) ?_ ?_ ?_
    · intro hb
      rw [hshift.clearStop hb] at hc
      cases hc
    · rintro x hx rfl
      cases hspawns with
      | nobody | owner | worker => cases hx
    · -- if the client is closing only now, the step is the one that the assumption is about
      intro u _ hu
      rcases hshift.isClosing with heq | ⟨hstore, _⟩
      · exact h.cleared (heq.symm.trans hc) u hu
      · exact hapart hstore u (h.inv.lt_spawned (by rw [hu]; exact Pc.noConfusion)) hu
  refine ⟨h.inv.act (a := .step t c) hs, h.crew.act h.inv (a := .step t c) hs, hdone, fun _ => ?_,
    hclear⟩
  refine h.stopped.act h.inv (a := .step t c) hs ?_
  rintro ⟨hpc, hc⟩
  exact h.cleared hc t hpc

theorem Apart.act (h : Apart p) {a : ProtocolAct} (ha : p.act a = some p')
    (hapart : ClosesApart p a) : Apart p' := by
  cases a with
  | callClose => cases ha; exact h.spawn (e := .callClose) rfl rfl rfl Pc.noConfusion
  | callReconnect => cases ha; exact h.spawn (e := .callReconnect) rfl rfl rfl Pc.noConfusion
  | step t c => exact h.step ha hapart

theorem apart_newClient : Apart newClient := by
  refine ⟨inv_newClient, crew_newClient, fun t ht => ?_, fun hc => ?_, fun hc => ?_⟩
  · -- all it has are workers
    simp only [newClient, spawn_pc] at ht
    split_ifs at ht <;> cases ht
  · cases hc
  · cases hc

theorem apart_of_run {tr : List ProtocolStep} (hrun : protocolMachine.Run newClient tr p)
    (hapart : ∀ st ∈ tr, ClosesApart st.pre st.act) : Apart p :=
  hrun.invariant_of ClosesApart Apart apart_newClient
    (fun _ _ hg hc h => h.act (next_of_guard hg) hc) hapart

/-- In a closing client every quiet step leaves fewer steps. -/
theorem Apart.next (h : Apart p ∧ p.isClosing = true) {a : ProtocolAct}
    (hg : protocolMachine.guard p a) (hq : Quiet p a) :
    (Apart (protocolMachine.next p a) ∧ (protocolMachine.next p a).isClosing = true) ∧
      total Pc.toClose (protocolMachine.next p a) < total Pc.toClose p := by
  rcases h with ⟨hapart, hclosing⟩
  have hact := next_of_guard hg
  cases a with
  | callClose => exact hq.elim
  | callReconnect => exact hq.elim
  | step t c =>
    rcases step_goes hapart.inv hact with ⟨b, d, hshift, _, hmoved⟩
    have hlt := hshift.toClose hclosing fun m hm => by rw [hm] at hq; exact hq
    have htotal := hmoved.total Pc.toClose
    refine ⟨⟨hapart.act hact fun _ u _ => hapart.cleared hclosing u, ?_⟩, by omega⟩
    refine Bool.eq_true_of_not_eq_false fun ho => ?_
    rw [hshift.open ho] at hclosing
    cases hclosing

/-- As long as a `Close` has not returned, somebody can go on by itself. -/
theorem Apart.progress (h : Apart p) (ht : (p.pc t).closing = true) (hnot : p.pc t ≠ .closed) :
    ∃ u c, Sure p (.step u c) ∧ (p.step u c).isSome = true := by
  have hunfinished := Pc.not_finished_of_closing ht hnot
  have hh : ∀ a : Pc, a.closing = false → p.pc t ≠ a := fun a ha hpc => by
    rw [hpc, ha] at ht; cases ht
  by_cases hblocks : (p.pc t).blocks = true
  · -- it waits for the mutex or for the workers, so `closeCtx` is cancelled
    have hdone := h.cancelled t (Pc.cancelled_of_blocks ht hblocks)
    rcases exists_ready h.inv h.crew hunfinished with ⟨u, hready, _, hwork⟩
    by_cases hshake : p.pc u = .handshake
    · exact ⟨u, .fail, ⟨hshake, hdone⟩, by simp [Protocol.step, hshake]⟩
    by_cases hw : ∃ w, p.pc u = .work w
    · rcases hw with ⟨w, hpc⟩
      rcases hwork w hpc with rfl | ⟨v, hv⟩
      · exact absurd hpc (hh _ rfl)
      · have hstop : p.isStop = true := h.stopped v (by rcases hv with hv | hv <;> rw [hv] <;> rfl)
        exact ⟨u, .stop, ⟨⟨w, hpc⟩, hstop, v, hv⟩, by simp [Protocol.step, hpc, hstop]⟩
    · exact ⟨u, .go, trivial, hready.go hshake hw⟩
  · refine ⟨t, .go, trivial, ?_⟩
    refine (Ready.free hunfinished (Bool.eq_false_of_not_eq_true hblocks)).go (hh _ rfl) ?_
    rintro ⟨w, hw⟩
    exact hh _ rfl hw

/-! ## Connecting -/

/-- Nothing fails, the peer answers the handshake, and no `Close` begins. -/
def Cooperates (p : Protocol) : ProtocolAct → Prop
  | .step t c =>
    match p.pc t with
    | .handshake => c = .message .ready
    | .work _ => c = .stop
    | .closeStore => False
    | _ => True
  | _ => False

theorem cooperates_go (hh : p.pc t ≠ .handshake) (hw : ∀ w, p.pc t ≠ .work w)
    (hc : p.pc t ≠ .closeStore) : Cooperates p (.step t .go) := by
  simp only [Cooperates]

theorem Cooperates.handshake {c : Choice} (h : Cooperates p (.step t c)) (hpc : p.pc t = .handshake) :
    c = .message .ready := by
  simpa [Cooperates, hpc] using h

theorem Cooperates.work {c : Choice} (h : Cooperates p (.step t c)) {w : Worker}
    (hpc : p.pc t = .work w) : c = .stop := by
  simpa [Cooperates, hpc] using h

theorem Cooperates.close {c : Choice} (h : Cooperates p (.step t c)) : p.pc t ≠ .closeStore := by
  intro hpc
  simp [Cooperates, hpc] at h

/-- The workers of the current connection run, and nobody does anything else. -/
structure Connected (p : Protocol) : Prop where
  conn : p.conn = some p.latest
  isStart : p.isStart = true
  isStop : p.isStop = false
  isReconnecting : p.isReconnecting = false
  connMutex : p.connMutex = none
  workers : ∀ k, ∃ t, p.pc t = .work ⟨p.latest, k⟩
  settled : ∀ t, (p.pc t).settled = true

theorem Ready.cooperates (h : Ready p u) (hclose : p.pc u ≠ .closeStore)
    (hwork : ∀ w, p.pc u = .work w → p.isStop = true) :
    ∃ c, Cooperates p (.step u c) ∧ (p.step u c).isSome = true := by
  by_cases hh : p.pc u = .handshake
  · exact ⟨.message .ready, by simp [Cooperates, hh], by simp [step, hh]⟩
  by_cases hw : ∃ w, p.pc u = .work w
  · rcases hw with ⟨w, hpc⟩
    exact ⟨.stop, by simp [Cooperates, hpc], by simp [step, hpc, hwork w hpc]⟩
  · exact ⟨.go, cooperates_go hh (not_exists.1 hw) hclose, h.go hh hw⟩

/-- In an open client every cooperating step leaves fewer steps. -/
theorem Inv.toConnect_lt (hinv : Inv p) (hopen : p.isClosing = false) {c : Choice}
    (hs : p.step t c = some p') (hq : Cooperates p (.step t c)) :
    p'.isClosing = false ∧ total Pc.toConnect p' < total Pc.toConnect p := by
  rcases step_goes hinv hs with ⟨b, d, hshift, _, hmoved⟩
  have hdone : p.closeDone = false := by
    refine Bool.eq_false_of_not_eq_true fun hd => ?_
    rw [hinv.cancelled hd] at hopen
    cases hopen
  have hlt := hshift.toConnect hopen hdone (hinv.not_closing hopen t) hq.handshake (fun _ => hq.work) hq.close
  have htotal := hmoved.total Pc.toConnect
  refine ⟨?_, by omega⟩
  rcases hshift.isClosing with heq | ⟨hpc, _⟩
  · exact heq.trans hopen
  · exact absurd hpc hq.close

/-- What an open client keeps. -/
def Open (p : Protocol) : Prop := Inv p ∧ Crew p ∧ p.isClosing = false

theorem Open.next (h : Open p) {a : ProtocolAct} (hg : protocolMachine.guard p a)
    (hq : Cooperates p a) : Open (protocolMachine.next p a) ∧
      total Pc.toConnect (protocolMachine.next p a) < total Pc.toConnect p := by
  rcases h with ⟨hinv, hcrew, hopen⟩
  have hact := next_of_guard hg
  cases a with
  | callClose => exact hq.elim
  | callReconnect => exact hq.elim
  | step t c =>
    rcases hinv.toConnect_lt hopen hact hq with ⟨hopen', hlt⟩
    exact ⟨⟨hinv.act hact, hcrew.act hinv hact, hopen'⟩, hlt⟩

theorem work_of_settled {w : Worker} (h : a.worker = some w) (hs : a.settled = true) :
    a = .work w := by
  revert h hs
  unfold Pc.worker
  split <;> simp [Pc.settled, Pc.finished]

/-- An open client in which everybody has settled is connected. -/
theorem Open.connected (h : Open p) (hs : ∀ t, (p.pc t).settled = true) : Connected p := by
  rcases h with ⟨hinv, hcrew, hopen⟩
  -- an owner of the reconnect and a holder of the mutex have not settled
  have hown : ∀ u, ¬(p.pc u).owns = true := fun u hu =>
    Bool.false_ne_true ((Pc.not_settled_of_owns hu).symm.trans (hs u))
  have hholds : ∀ u, ¬(p.pc u).holds = true := fun u hu =>
    Bool.false_ne_true ((Pc.not_settled_of_holds hu).symm.trans (hs u))
  have hworkers : ∀ k, ∃ t, p.pc t = .work ⟨p.latest, k⟩ := by
    intro k
    rcases hcrew.staff hopen k with ⟨t, ht⟩ | ⟨u, hu, _⟩
    · exact ⟨t, work_of_settled ht (hs t)⟩
    · exact absurd hu (hown u)
  constructor
  · rcases hcrew.attached hopen with hconn | ⟨u, hu⟩
    · exact hconn
    · exact absurd (Pc.owns_of_unconnected hu) (hown u)
  · rcases hworkers .listener with ⟨t, ht⟩
    rcases hcrew.armed t _ (by rw [ht]; rfl) with hstart | ⟨u, hu⟩
    · exact hstart
    · exact absurd (Pc.holds_of_starting (Pc.starting_of_launching hu)) (hholds u)
  · refine Bool.eq_false_of_not_eq_true fun hstop => ?_
    rcases hcrew.withdrawn hopen hstop with ⟨u, hu⟩
    exact hown u (Pc.owns_of_halting hu).1
  · refine Bool.eq_false_of_not_eq_true fun hflag => ?_
    rcases hinv.flag.1 hflag with ⟨u, hu⟩
    exact hown u hu
  · cases hm : p.connMutex with
    | none => rfl
    | some u => exact absurd ((hinv.mutex u).2 hm) (hholds u)
  · exact hworkers
  · exact hs

/-- As long as an open client is not connected, somebody can go on towards it. -/
theorem Open.progress (h : Open p) (hnot : ¬Connected p) :
    ∃ u c, Cooperates p (.step u c) ∧ (p.step u c).isSome = true := by
  rcases h with ⟨hinv, hcrew, hopen⟩
  -- somebody has not settled
  have hex : ∃ t, ¬(p.pc t).settled = true := by
    by_contra hall
    push Not at hall
    exact hnot (Open.connected ⟨hinv, hcrew, hopen⟩ hall)
  rcases hex with ⟨t, ht⟩
  have hunfinished := Pc.not_finished (Bool.eq_false_of_not_eq_true ht)
  rcases exists_ready hinv hcrew hunfinished with ⟨u, hready, hclose, hwork⟩
  have hbegun : p.pc u ≠ .closeStore := fun hpc => by
    rw [hclose hpc] at hpc
    exact ht (by rw [hpc]; rfl)
  have hstop : ∀ w, p.pc u = .work w → p.isStop = true := by
    intro w hpc
    rcases hwork w hpc with rfl | ⟨v, hv⟩
    · exact absurd (by rw [hpc]; rfl) ht
    · exact hcrew.stops hopen v (by rcases hv with hv | hv <;> rw [hv] <;> rfl)
  rcases hready.cooperates hbegun hstop with ⟨c, hc, hsome⟩
  exact ⟨u, c, hc, hsome⟩

end Protocol

/-- If no `Close` sets `isClosing` while a reconnect goroutine is between its last check of
`isClosing` and the clearing of `isStop`, then `Close` returns: once `isClosing` is set, no
schedule of the goroutines takes more than 19 steps of each, the messages of the peer apart; and
after every such schedule, as long as a `Close` has not returned, somebody can make a step that
needs no message, no frame to write and no backoff. -/
theorem close_terminates {tr : List ProtocolStep} {p : Protocol}
    (hrun : protocolMachine.Run newClient tr p)
    (hapart : ∀ st ∈ tr, ClosesApart st.pre st.act) (hclosing : p.isClosing = true)
    {es : List ProtocolAct} (hen : protocolMachine.Enabled p es)
    (hq : protocolMachine.Allowed Quiet p es) :
    es.length ≤ 19 * p.spawned ∧
      ∀ t, ((protocolMachine.exec p es).pc t).closing = true →
        (protocolMachine.exec p es).pc t ≠ .closed →
        ∃ u c, Sure (protocolMachine.exec p es) (.step u c) ∧
          ((protocolMachine.exec p es).step u c).isSome = true := by
  have hbound := Machine.length_le_rank (fun q a h hg hok => Apart.next h hg hok)
    ⟨apart_of_run hrun hapart, hclosing⟩ hen hq
  rcases hbound with ⟨⟨hapart', _⟩, hle⟩
  have htotal := p.total_toClose_le
  exact ⟨by omega, fun t ht hnot => hapart'.progress ht hnot⟩

/-- `Close` is called and sets `isClosing`. -/
def closeBegun : List ProtocolAct := [.callClose, .step 3 .go]

/-- The first half of what is left. -/
def closeContinued : List ProtocolAct :=
  [.step 3 .go, .step 3 .go, .step 0 .go, .step 0 .fail, .step 0 .go, .step 1 .go, .step 3 .go,
    .step 3 .go, .step 3 .go, .step 1 .stop]

theorem close_goes_on :
    closeContinued.length ≤ 19 * 4 ∧
      ∃ u c, Sure (protocolMachine.exec newClient (closeBegun ++ closeContinued)) (.step u c) ∧
        ((protocolMachine.exec newClient (closeBegun ++ closeContinued)).step u c).isSome = true := by
  have hen : protocolMachine.Enabled newClient closeBegun := by decide +kernel
  have hen' : protocolMachine.Enabled (protocolMachine.exec newClient closeBegun) closeContinued := by
    decide +kernel
  have hclose := close_terminates (Machine.run_exec _ hen) (by decide +kernel) (by decide +kernel)
    hen' (by decide +kernel)
  rw [Machine.exec_append]
  exact ⟨hclose.1, hclose.2 3 (by decide +kernel) (by decide +kernel)⟩

/-- From every state of a client that is not closing, whatever failed before, there is a
schedule in which nothing else fails and after which the client is connected: its three workers
run and nobody reconnects. -/
theorem open_client_connects {tr : List ProtocolStep} {p : Protocol}
    (hrun : protocolMachine.Run newClient tr p) (hopen : p.isClosing = false) :
    protocolMachine.Reaches Cooperates p Connected := by
  rcases crew_of_run hrun with ⟨hinv, hcrew⟩
  have hway : protocolMachine.Reaches Cooperates p fun q =>
      Open q ∧ Connected q := by
    refine Machine.reaches_of_rank Open (total Pc.toConnect) ?_
      ⟨hinv, hcrew, hopen⟩
    intro q hq hgoal
    rcases hq.progress hgoal with ⟨u, c, hc, hsome⟩
    exact ⟨.step u c, hsome, hc, hq.next hsome hc⟩
  exact hway.trans fun _ h => .here h.2

/-- The listener fails, and the attempt to connect again is refused. -/
def refused : List ProtocolAct :=
  [.step 0 .go, .step 0 .fail, .step 0 .go, .step 0 .go, .step 3 .go, .step 3 .go, .step 1 .go,
    .step 1 .stop, .step 2 .go, .step 2 .stop, .step 3 .go, .step 3 .go, .step 3 .go, .step 3 .go,
    .step 3 .go, .step 3 .go, .step 3 .fail, .step 3 .go, .step 3 .go]

theorem refused_client_connects :
    (protocolMachine.exec newClient refused).pc 3 = .sleep ∧
      protocolMachine.Reaches Cooperates (protocolMachine.exec newClient refused)
        Connected := by
  have hen : protocolMachine.Enabled newClient refused := by decide +kernel
  exact ⟨by decide +kernel, open_client_connects (Machine.run_exec _ hen) (by decide +kernel)⟩

end UspClient
