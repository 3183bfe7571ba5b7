import UspClient.Lib.Pipe
import UspClient.Client.Sent
import UspClient.Client.Crew

/-!
# What the peer received

A client with its peer at the other end of every connection. What a sender writes goes into the
pipe of its connection; the peer reads each pipe in order, and how far it gets is not up to the
client: the frames of a connection that broke may still arrive, or never. An honest peer
acknowledges frames that it has read, on whichever connection it likes.

* `confirmed_was_received`: what an acknowledgement confirms, and whatever a receipt reads as
  acknowledged, has been received.
* `connection_in_order`: the frames of a connection are in order, and none that is still owed
  is left out.
* `idle_sender_wrote_all`: a sender that finds nothing to deliver has written everything that
  is owed to its own connection.

All three assume `Session.Fair` of every step: a message that cannot be encoded is skipped, so
younger ones are written without it.
-/

namespace UspClient

open Function Word64 Replay Protocol ClientState

structure Session where
  client : ClientState
  /-- The frames that were written to a connection. -/
  sent : Nat → List Nat := fun _ => []
  /-- How many of them the peer has read. -/
  got : Nat → Nat := fun _ => 0
  /-- The frames that the peer has read, from all connections. -/
  received : List Nat := []

inductive SessionAct where
  | client (a : ClientAct)
  | receive (n : Nat)

/-- The frame that a step of the client puts on the wire, and the connection. A write that
failed may have reached it. -/
def ClientAct.output (c : ClientState) : ClientAct → Option (Nat × Nat)
  | .write t ok reached =>
    match c.proto.pc t, c.hand t with
    | .work ⟨n, .sender⟩, .encoded k => if ok || reached then some (n, k) else none
    | _, _ => none
  | _ => none

namespace Session

/-- A frame goes into the pipe of a connection. -/
def put (s : Session) : Option (Nat × Nat) → Nat → List Nat
  | some (n, k) => update s.sent n (s.sent n ++ [k])
  | none => s.sent

def act (encodes : DataMessage → Bool) (s : Session) : SessionAct → Option Session
  | .client a =>
    (s.client.act encodes a).map fun c => { s with client := c, sent := s.put (a.output s.client) }
  | .receive n =>
    (s.sent n)[s.got n]?.map fun k =>
      { s with
        got := update s.got n (s.got n + 1)
        received := s.received ++ [k] }

end Session

def sessionMachine (encodes : DataMessage → Bool) : Machine Session SessionAct where
  guard s a := (s.act encodes a).isSome = true
  next s a := (s.act encodes a).getD s

instance (encodes : DataMessage → Bool) (s : Session) (a : SessionAct) :
    Decidable ((sessionMachine encodes).guard s a) := inferInstanceAs (Decidable (_ = true))

abbrev SessionStep := Machine.Step Session SessionAct

/-- The peer acknowledges the sequence number of a frame that it has read. -/
def Session.Honest (s : Session) : SessionAct → Prop
  | .client (.step _ (.message (.ack seq)) _) => ∃ k ∈ s.received, k % 2 ^ 64 = seq.toNat
  | _ => True

instance (s : Session) (a : SessionAct) : Decidable (s.Honest a) := by
  unfold Session.Honest
  split <;> infer_instance

def Session.EncodesNext (encodes : DataMessage → Bool) (s : Session) : SessionAct → Prop
  | .client a => UspClient.EncodesNext encodes s.client a
  | .receive _ => True

instance (encodes : DataMessage → Bool) (s : Session) : ∀ a, Decidable (s.EncodesNext encodes a)
  | .client a => inferInstanceAs (Decidable (UspClient.EncodesNext encodes s.client a))
  | .receive _ => isTrue trivial

/-- What is assumed of a step: an honest peer, frames that can be encoded, and sequence numbers
that have not wrapped around. -/
structure Session.Fair (encodes : DataMessage → Bool) (s : Session) (a : SessionAct) : Prop where
  honest : s.Honest a
  encodes : s.EncodesNext encodes a
  few : s.client.buffer.log.length < 2 ^ 64

instance (encodes : DataMessage → Bool) (s : Session) (a : SessionAct) :
    Decidable (s.Fair encodes a) :=
  decidable_of_iff (s.Honest a ∧ s.EncodesNext encodes a ∧ s.client.buffer.log.length < 2 ^ 64)
    ⟨fun ⟨h₁, h₂, h₃⟩ => ⟨h₁, h₂, h₃⟩, fun ⟨h₁, h₂, h₃⟩ => ⟨h₁, h₂, h₃⟩⟩

theorem Pc.role_of_worker {a : Pc} {w : Worker} (h : a.worker = some w) : a.role = some w := by
  cases a with
  | exited => cases h
  | _ => exact h

namespace BufferState

variable {s s' : BufferState} {q q' : Queue Admission} {x : LifeAct} {P : Nat → Prop}

theorem LifeMove.fades (hmove : LifeMove s q x s' q') : Queue.Fades q q' := by
  cases hmove with
  | call op q' hop hstep =>
    cases hstep with
    | same => exact Queue.fades_of_frames rfl
    | push adm => exact Queue.fades_push
    | deliver => exact Queue.fades_deliver
    | ack seq => exact Queue.fades_ack
    | reset => exact Queue.fades_reset
  | rewind | release => exact Queue.fades_of_frames rfl

theorem LifeMove.items_le (hmove : LifeMove s q x s' q') : q.items.length ≤ q'.items.length := by
  cases hmove with
  | call op q' hop hstep =>
    cases hstep with
    | push adm =>
      rw [Queue.items_push, List.length_append]
      exact Nat.le_add_right _ _
    | same => exact le_rfl
    | deliver => rw [Queue.items_deliver]
    | ack seq => rw [Queue.items_ack]
    | reset => rw [Queue.items_reset]
  | rewind => exact le_rfl
  | release => exact le_rfl

theorem LifeMove.covered (hmove : LifeMove s q x s' q') (h : Queue.Covered P q) (hheld : Held s q)
    (hnew : x.op = .call .getNextToDeliver → q.target < q.window.length →
      P (q.gone.length + q.target + 1)) : Queue.Covered P q' := by
  cases hmove with
  | call op q' hop hstep =>
    cases hstep with
    | same => exact h
    | push adm => exact h.push hheld.shape.next_le
    | deliver _ hop' =>
      simp only at hop'
      exact h.deliver (hnew (hop.trans (congrArg LifeOp.call hop')))
    | ack seq _ _ _ _ hi => exact h.ack hi
    | reset => exact Queue.covered_reset
  | rewind => exact Queue.covered_zero rfl
  | release => exact h

end BufferState

namespace Session

variable {encodes : DataMessage → Bool} {s : Session} {c' : ClientState} {a : ClientAct}
variable {q q' : Queue Admission} {t k : Nat}

/-! ## The invariant -/

/-- Frame `k` was written to the current connection, or its sender has it in hand. -/
def Carried (s : Session) (k : Nat) : Prop :=
  k ∈ s.sent s.client.proto.latest ∨ s.client.InHand k

structure Linked (s : Session) (q : Queue Admission) : Prop where
  covered : Queue.Covered s.Carried q
  piped : ∀ n, Queue.Piped (s.sent n) q
  later : ∀ n, s.client.proto.latest < n → s.sent n = []
  writer : s.sent s.client.proto.latest ≠ [] →
    ∃ t, (s.client.proto.pc t).role = some ⟨s.client.proto.latest, .sender⟩
  /-- The next frame of a sender is newer than what it has written. -/
  below : ∀ t, (s.client.proto.pc t).mayWrite = true → ∀ j ∈ s.sent s.client.proto.latest,
    j ≤ q.gone.length + q.next ∧ ∀ k, (s.client.hand t).number = some k → j < k
  reads : ∀ n, s.got n ≤ (s.sent n).length
  arrived : ∀ n, ∀ j ∈ (s.sent n).take (s.got n), j ∈ s.received
  trail : Queue.Trail (· ∈ s.received) (fun _ => True) q
  written : ∀ n, ∀ k ∈ s.sent n, k ∈ s.client.written
  known : ∀ k ∈ s.received, k ∈ s.client.written

/-- The one goroutine that may write to the current connection. -/
theorem role_of_mayWrite {c : ClientState} (hinv : Inv c.proto)
    (ht : (c.proto.pc t).mayWrite = true) :
    (c.proto.pc t).role = some ⟨c.proto.latest, .sender⟩ := by
  rcases Pc.worker_of_mayWrite ht with ⟨n, hw⟩
  have hn : n = c.proto.latest := hinv.current t _ hw
  rw [← hn]
  exact Pc.role_of_worker hw

theorem mayWrite_of_sending {c : ClientState} (ht : c.sending t = true) :
    (c.proto.pc t).mayWrite = true := by
  rcases sending_iff.1 ht with ⟨n, hpc⟩
  rw [hpc]
  rfl

/-! ## Steps of the client -/

/-- The buffer is called, but for no delivery. -/
theorem Linked.life (h : Linked s q) (hs : Sound s.client q) {x : LifeAct}
    (hkept : BufferState.KeptStep s.client.buffer q x q')
    (hsteady : Steady s.client.proto (· ∈ s.received) x.op)
    (hlen : s.client.buffer.log.length < 2 ^ 64) : Linked s q' := by
  have hmove := hkept.move
  refine { h with covered := ?_, piped := ?_, below := ?_, trail := ?_ }
  · exact hmove.covered h.covered hs.kept.held fun hop => absurd hop hsteady.deliver
  · exact fun n => (h.piped n).fades hmove.fades hmove.items_le
  · intro t ht j hj
    rcases h.below t ht j hj with ⟨hle, hlast⟩
    refine ⟨?_, hlast⟩
    by_cases hop : x.op = .call .resetDelivery
    · -- nobody writes while the delivery is reset
      rcases Pc.worker_of_mayWrite ht with ⟨n, hw⟩
      rw [hsteady.reset hop t] at hw
      cases hw
    · exact le_trans hle (hmove.index_le hop)
  · exact hmove.trail h.trail hs.kept.held (fun _ _ => .inr trivial)
      fun seq hop hi => hs.acked h.trail hlen (hsteady.ack seq hop) hi

/-- The client moves on: the workers keep their roles, and the hands what they hold. -/
theorem Linked.client (h : Linked s q)
    (hinv' : Inv c'.proto) (hroles : Roles c'.proto)
    (hlatest : c'.proto.latest = s.client.proto.latest)
    (hrole : ∀ u w, (s.client.proto.pc u).role = some w → (c'.proto.pc u).role = some w)
    (hmay : ∀ u, s.client.proto.pc u ≠ .idle → (c'.proto.pc u).mayWrite = true →
      (s.client.proto.pc u).mayWrite = true)
    (hnum : ∀ u, (c'.hand u).number = (s.client.hand u).number)
    (hwritten : c'.written = s.client.written) : Linked { s with client := c' } q := by
  have hsender : ∀ u, (s.client.proto.pc u).role = some ⟨s.client.proto.latest, .sender⟩ →
      (c'.proto.pc u).role = some ⟨c'.proto.latest, .sender⟩ := by
    intro u hu
    rw [hlatest]
    exact hrole u _ hu
  constructor
  · refine h.covered.mono ?_
    rintro k (hk | ⟨u, hu, hk⟩)
    · left
      show k ∈ s.sent c'.proto.latest
      rw [hlatest]
      exact hk
    · exact .inr ⟨u, hsender u hu, (hnum u).trans hk⟩
  · exact h.piped
  · intro n hn
    exact h.later n (hlatest ▸ hn)
  · intro hne
    rcases h.writer (hlatest ▸ hne) with ⟨u, hu⟩
    exact ⟨u, hsender u hu⟩
  · intro t ht j hj
    have hj' : j ∈ s.sent s.client.proto.latest := hlatest ▸ hj
    -- the sender of this connection was there when the frame was written
    rcases h.writer (List.ne_nil_of_mem hj') with ⟨u, hu⟩
    obtain rfl := hroles.unique t u _ (role_of_mayWrite hinv' ht) (hsender u hu)
    have hbusy : s.client.proto.pc t ≠ .idle := fun hidle => by
      rw [hidle] at hu
      cases hu
    rcases h.below t (hmay t hbusy ht) j hj' with ⟨hle, hlast⟩
    exact ⟨hle, fun k hk => hlast k ((hnum t).symm.trans hk)⟩
  · exact h.reads
  · exact h.arrived
  · exact h.trail
  · exact fun n k hk => hwritten.symm ▸ h.written n k hk
  · exact fun k hk => hwritten.symm ▸ h.known k hk

/-- What the invariant reads of the client did not change. -/
theorem Linked.same (h : Linked s q) (hinv : Inv s.client.proto)
    (hroles : Roles s.client.proto) (hproto : c'.proto = s.client.proto)
    (hnum : ∀ u, (c'.hand u).number = (s.client.hand u).number)
    (hwritten : c'.written = s.client.written) : Linked { s with client := c' } q := by
  refine h.client (hproto ▸ hinv) (hproto ▸ hroles) (by rw [hproto]) ?_ ?_ hnum hwritten
  · intro u w hu
    rw [hproto]
    exact hu
  · intro u _ hu
    rw [hproto] at hu
    exact hu

/-- A goroutine of a user is started. -/
theorem Linked.spawn (h : Linked s q) (hinv : Inv s.client.proto) {d : Pc}
    (hd : d.mayWrite = false) (hinv' : Inv (s.client.proto.spawn d))
    (hroles : Roles (s.client.proto.spawn d)) :
    Linked { s with client := { s.client with proto := s.client.proto.spawn d } } q := by
  refine h.client hinv' hroles rfl ?_ ?_ (fun _ => rfl) rfl
  · intro u w hu
    have hne : u ≠ s.client.proto.spawned := by
      rintro rfl
      rw [hinv.idle _ le_rfl] at hu
      cases hu
    show ((s.client.proto.spawn d).pc u).role = some w
    rw [spawn_pc, if_neg hne]
    exact hu
  · exact fun u _ hu => spawn_class hd hu

/-- A goroutine makes an access. -/
theorem Linked.access (h : Linked s q) (hinv : Inv s.client.proto)
    {choice : Choice} {p : Protocol} (hs : s.client.proto.step t choice = some p)
    (hz : s.client.proto.pc t = .setConn → q.next = 0) (hinv' : Inv p)
    (hroles : Roles p) : Linked { s with client := { s.client with proto := p } } q := by
  have hlatest : p.latest = s.client.proto.latest ∨
      s.client.proto.pc t = .setConn ∧ p.latest = s.client.proto.latest + 1 := by
    rcases step_effect hs with ⟨p₁, b, heff, ⟨rfl, _⟩ | ⟨d, _, rfl⟩⟩
    · exact heff.latest
    · exact heff.latest
  rcases hlatest with hsame | ⟨hset, hnew⟩
  · rcases step_others hs with ⟨_, _, hothers⟩
    refine h.client hinv' hroles hsame ?_ ?_ (fun _ => rfl) rfl
    · intro u w hu
      have hlt : u < s.client.proto.spawned := by
        refine hinv.lt_spawned fun hidle => ?_
        rw [hidle] at hu
        cases hu
      show (p.pc u).role = some w
      rw [(hothers u hlt).1]
      exact hu
    · exact fun u hbusy hu => mayWrite_of_step hinv hs hbusy hu
  · -- the next connection: nothing was written to it, and the delivery was reset
    have hempty : s.sent p.latest = [] := h.later _ (by omega)
    refine { h with covered := ?_, later := ?_, writer := ?_, below := ?_ }
    · exact Queue.covered_zero (hz hset)
    · intro n hn
      have hn' : p.latest < n := hn
      exact h.later n (by omega)
    · exact fun hne => absurd hempty hne
    · intro u _ j hj
      have hj' : j ∈ s.sent p.latest := hj
      rw [hempty] at hj'
      cases hj'

/-- The number of the frame that a sender takes. -/
theorem number_of_deliver {c : ClientState} (hs : Sound c q) {bb : ByteBudget}
    (hmove : Moved encodes c (.deliver t bb) c') : (c'.hand t).number =
      if q.target < q.window.length then some (q.gone.length + q.target + 1) else none := by
  have hframe := (hs.kept.held.deliver bb (hs.kept.life.not_fenced bb)).2
  cases hmove with
  | deliver _ _ hd _ _ hhand =>
    simp only [update_self]
    split_ifs with hlt
    · rw [List.getElem?_eq_getElem hlt] at hframe
      rcases hframe with ⟨m, hm, _, hnum, _⟩
      rw [hm] at hhand
      rw [hhand]
      exact congrArg some hnum
    · rw [List.getElem?_eq_none (not_lt.1 hlt)] at hframe
      rw [hframe.1] at hhand
      rw [hhand]
      rfl

/-- A sender takes the next frame from the buffer. -/
theorem Linked.deliver (h : Linked s q) (hs : Sound s.client q) {bb : ByteBudget}
    {hd : Hand} (hsend : s.client.sending t = true) (hempty : s.client.hand t = .empty)
    (hnew : hd.number =
      if q.target < q.window.length then some (q.gone.length + q.target + 1) else none)
    (hkept : BufferState.KeptStep s.client.buffer q ⟨bb, .call .getNextToDeliver⟩ q') :
    Linked { s with client := { s.client with
      buffer := (s.client.buffer.apply bb .getNextToDeliver).1
      hand := update s.client.hand t hd } } q' := by
  have hmove := hkept.move
  have hother : ∀ u, u ≠ t → update s.client.hand t hd u = s.client.hand u :=
    fun u hu => update_of_ne hu hd s.client.hand
  refine { h with covered := ?_, piped := ?_, below := ?_, trail := ?_ }
  · refine hmove.covered (h.covered.mono ?_) hs.kept.held fun _ hlt => ?_
    · rintro k (hk | ⟨u, hu, hk⟩)
      · exact .inl hk
      · refine .inr ⟨u, hu, ?_⟩
        have hut : u ≠ t := by
          rintro rfl
          rw [hempty] at hk
          cases hk
        show (update s.client.hand t hd u).number = some k
        rw [hother u hut]
        exact hk
    · refine .inr ⟨t, (role_of_sending hs.proto hsend).1, ?_⟩
      show (update s.client.hand t hd t).number = _
      rw [update_self, hnew, if_pos hlt]
  · exact fun n => (h.piped n).fades hmove.fades hmove.items_le
  · intro u hu j hj
    rcases h.below u hu j hj with ⟨hle, hlast⟩
    refine ⟨le_trans hle (hmove.index_le fun hop => BufferOp.noConfusion (LifeOp.call.inj hop)), ?_⟩
    intro k hk
    have hk' : (update s.client.hand t hd u).number = some k := hk
    by_cases hut : u = t
    · rw [hut, update_self, hnew] at hk'
      split_ifs at hk' with hlt
      have hnt := Queue.le_target (q := q)
      have hk'' := Option.some.inj hk'
      omega
    · rw [hother u hut] at hk'
      exact hlast k hk'
  · exact hmove.trail h.trail hs.kept.held (fun _ _ => .inr trivial)
      fun seq hop => BufferOp.noConfusion (LifeOp.call.inj hop)

theorem put_apply (s : Session) (n k m : Nat) :
    s.put (some (n, k)) m = if m = n then s.sent m ++ [k] else s.sent m := by
  show update _ _ _ m = _
  rw [update_apply]
  split_ifs with hm
  · rw [hm]
  · rfl

/-- The frame in the hand of the sender goes into the pipe of the current connection. -/
theorem Linked.write (h : Linked s q) (hs : Sound s.client q)
    (hsent : Sent s.client q) (hsend : s.client.sending t = true)
    (hhand : s.client.hand t = .encoded k) (hinv' : Inv c'.proto)
    (hroles' : Roles c'.proto) (hlatest : c'.proto.latest = s.client.proto.latest)
    (hrole' : (c'.proto.pc t).role = (s.client.proto.pc t).role)
    (hstop : (c'.proto.pc t).mayWrite = true → (c'.hand t).number = none)
    (hwritten : c'.written = s.client.written ++ [k]) :
    Linked { s with client := c', sent := s.put (some (s.client.proto.latest, k)) } q := by
  have hnum : (s.client.hand t).number = some k := by rw [hhand]; rfl
  rcases role_of_sending hs.proto hsend with ⟨hrole, _, hworker⟩
  rw [hrole, ← hlatest] at hrole'
  have hk := hsent.held t k hnum hworker
  have hlast : ∀ j ∈ s.sent s.client.proto.latest, j < k := fun j hj =>
    (h.below t (mayWrite_of_sending hsend) j hj).2 k hnum
  have hcov : Queue.Covered (fun j => j ∈ s.sent s.client.proto.latest ∨ j = k) q :=
    h.covered.mono fun j => Or.imp id (hsent.only hs.proto hsend hnum)
  have hpipe := put_apply s s.client.proto.latest k
  generalize s.put (some (s.client.proto.latest, k)) = sent at hpipe ⊢
  have hmem : ∀ j, j ∈ sent c'.proto.latest ↔ j ∈ s.sent s.client.proto.latest ∨ j = k := by
    intro j
    rw [hlatest, hpipe, if_pos rfl, List.mem_append, List.mem_singleton]
  constructor
  · exact hcov.mono fun j hj => .inl ((hmem j).2 hj)
  · intro n
    show Queue.Piped (sent n) q
    rw [hpipe]
    split_ifs with hn
    · subst hn
      exact (h.piped _).write hs.kept.held.shape.gone hs.kept.held.shape.next_le hcov hk hlast
    · exact h.piped n
  · intro n hn
    have hn' : s.client.proto.latest < n := hlatest ▸ hn
    show sent n = []
    rw [hpipe, if_neg hn'.ne']
    exact h.later n hn'
  · exact fun _ => ⟨t, hrole'⟩
  · intro u hu j hj
    constructor
    · rcases (hmem j).1 hj with hold | rfl
      · exact (le_of_lt (hlast j hold)).trans hk
      · exact hk
    · -- nobody else writes to the connection
      intro i hi
      obtain rfl := hroles'.unique u t _ (role_of_mayWrite hinv' hu) hrole'
      cases (hstop hu).symm.trans hi
  · intro n
    show s.got n ≤ (sent n).length
    have hread := h.reads n
    rw [hpipe]
    split_ifs
    · rw [List.length_append]
      omega
    · exact hread
  · intro n j hj
    have hj' : j ∈ (sent n).take (s.got n) := hj
    refine h.arrived n j ?_
    rw [hpipe] at hj'
    split_ifs at hj'
    · rw [List.take_append_of_le_length (h.reads n)] at hj'
      exact hj'
    · exact hj'
  · exact h.trail
  · intro n j hj
    show j ∈ c'.written
    have hj' : j ∈ sent n := hj
    rw [hpipe] at hj'
    rw [hwritten]
    split_ifs at hj'
    · rcases List.mem_append.1 hj' with hold | hnew
      · exact List.mem_append_left _ (h.written n j hold)
      · exact List.mem_append_right _ hnew
    · exact List.mem_append_left _ (h.written n j hj')
  · intro j hj
    show j ∈ c'.written
    rw [hwritten]
    exact List.mem_append_left _ (h.known j hj)

/-- An access of a goroutine with its call on the buffer. -/
theorem Linked.goroutine (h : Linked s q) (hs : Sound s.client q)
    (hsent : Sent s.client q) {choice : Choice} {bb : ByteBudget} {p : Protocol}
    (hp : s.client.proto.step t choice = some p)
    (hcalls : Calls s.client q (.step t choice bb) c' q')
    (hfair : s.Fair encodes (.client (.step t choice bb))) (hinv' : Inv p)
    (hroles : Roles p) : Linked { s with client := { s.client with proto := p } } q' := by
  cases hcalls with
  | silent hcall hbuf =>
    exact h.access hs.proto hp (fun hset => hsent.rewound t (by rw [hset]; rfl)) hinv' hroles
  | called x q' hcall hbuf hkept =>
    rcases Option.map_eq_some_iff.1 hcall with ⟨op, hop, rfl⟩
    have hsteady := steady_of_step hs.proto hop fun seq hseq => by
      subst hseq
      exact hfair.honest
    refine (h.life hs hkept hsteady hfair.few).access hs.proto hp (fun hset => ?_) hinv' hroles
    rw [hset] at hop
    cases hop

/-- What a sender writes goes to the current connection. -/
theorem output_write {c : ClientState} (hinv : Inv c.proto) (hsend : c.sending t = true)
    (hhand : c.hand t = .encoded k) (ok reached : Bool) : (ClientAct.write t ok reached).output c =
      if ok || reached then some (c.proto.latest, k) else none := by
  rcases sending_iff.1 hsend with ⟨n, hpc⟩
  have hn : n = c.proto.latest := hinv.current t ⟨n, .sender⟩ (by rw [hpc]; rfl)
  rw [ClientAct.output, hpc, hhand, hn]

/-- A step of the client, with what it puts on the wire. -/
theorem Linked.step (h : Linked s q) (hs : Sound s.client q)
    (hsent : Sent s.client q) (hmove : Moved encodes s.client a c')
    (hcalls : Calls s.client q a c' q') (hs' : Sound c' q')
    (hsent' : Sent c' q') (hfair : s.Fair encodes (.client a)) :
    Linked { s with client := c', sent := s.put (a.output s.client) } q' := by
  cases hmove with
  | callClose | callReconnect =>
    obtain rfl := hcalls.same rfl
    exact h.spawn hs.proto rfl hs'.proto hsent'.roles
  | step t choice bb p _ hp =>
    have hgo := h.goroutine hs hsent hp hcalls hfair hs'.proto hsent'.roles
    refine hgo.client hs'.proto hsent'.roles rfl (fun _ _ hu => hu) (fun _ _ hu => hu) ?_
      (stores_rest t).2
    intro u
    show ((s.client.stores t).hand u).number = _
    rw [(stores_rest t).1]
  | deliver t bb hd hsend hempty hhand =>
    have hnew := number_of_deliver hs (.deliver t bb hd hsend hempty hhand : Moved encodes _ _ _)
    simp only [update_self] at hnew
    exact h.deliver hs hsend hempty hnew (hcalls.moved rfl).2
  | encode t k m hsend hhand =>
    obtain rfl := hcalls.same rfl
    have hok : encodes m = true := by
      have henc := hfair.encodes
      simp only [Session.EncodesNext, UspClient.EncodesNext, hhand] at henc
      exact henc
    refine h.same hs.proto hsent.roles rfl (fun u => ?_) rfl
    show (update s.client.hand t _ u).number = _
    rw [update_apply]
    split_ifs with hu
    · rw [hu, hhand]
      rfl
    · rfl
  | write t k reached hsend hhand =>
    obtain rfl := hcalls.same rfl
    rw [output_write hs.proto hsend hhand]
    refine h.write hs hsent hsend hhand hs'.proto hsent'.roles rfl rfl (fun _ => ?_) rfl
    simp only [update_self]
    rfl
  | fail t k reached p hsend hhand hp =>
    obtain rfl := hcalls.same rfl
    rw [output_write hs.proto hsend hhand]
    rcases sending_iff.1 hsend with ⟨n, hpc⟩
    cases reached with
    | false =>
      exact h.access hs.proto hp (fun hset => by rw [hset] at hpc; cases hpc) hs'.proto hsent'.roles
    | true =>
      unfold step at hp
      rw [hpc] at hp
      cases hp
      refine h.write hs hsent hsend hhand hs'.proto hsent'.roles rfl ?_ (fun hu => ?_) rfl
      · simp only [goto_pc, if_true, hpc]
        rfl
      · -- the sender has left its loop
        simp only [goto_pc, if_true] at hu
        cases hu
  | ship | beginDrain | drain =>
    have hlife := h.life hs (hcalls.moved rfl).2 (steady_of_user BufferOp.noConfusion
      BufferOp.noConfusion fun _ => BufferOp.noConfusion) hfair.few
    exact hlife.same hs.proto hsent.roles rfl (fun _ => rfl) rfl
  | owner | callObserve =>
    obtain rfl := hcalls.same rfl
    exact h.same hs.proto hsent.roles rfl (fun _ => rfl) rfl
  | observe i o _ =>
    obtain rfl := hcalls.same rfl
    rcases advance_rest (c := s.client) i o with ⟨h₁, _, _, _, _, h₂, h₃, _⟩
    exact h.same hs.proto hsent.roles h₁ (fun u => by rw [h₂]) h₃

/-! ## The peer -/

/-- The peer reads the next frame of a connection. -/
theorem Linked.receive (h : Linked s q) {n : Nat} (hk : (s.sent n)[s.got n]? = some k) :
    Linked { s with
      got := update s.got n (s.got n + 1)
      received := s.received ++ [k] } q := by
  have hlt : s.got n < (s.sent n).length := (List.getElem?_eq_some_iff.1 hk).1
  refine { h with reads := ?_, arrived := ?_, trail := ?_, known := ?_ }
  · intro m
    show update s.got n (s.got n + 1) m ≤ (s.sent m).length
    by_cases hm : m = n
    · rw [hm, update_self]
      exact hlt
    · rw [update_of_ne hm]
      exact h.reads m
  · intro m j hj
    have hj' : j ∈ (s.sent m).take (update s.got n (s.got n + 1) m) := hj
    by_cases hm : m = n
    · rw [hm, update_self, List.take_add_one, hk, List.mem_append] at hj'
      rcases hj' with hold | hnew
      · exact List.mem_append_left _ (h.arrived n j hold)
      · exact List.mem_append_right _ hnew
    · rw [update_of_ne hm] at hj'
      exact List.mem_append_left _ (h.arrived m j hj')
  · have hmem : (fun j => j ∈ s.received ++ [k]) = fun j => j ∈ s.received ∨ j = k := by
      funext j
      rw [List.mem_append, List.mem_singleton]
    show Queue.Trail (fun j => j ∈ s.received ++ [k]) _ q
    rw [hmem]
    exact h.trail.receive (h.piped n) hk (h.arrived n)
  · intro j hj
    rcases List.mem_append.1 hj with hold | hnew
    · exact h.known j hold
    · rw [List.mem_singleton.1 hnew]
      exact h.written n k (List.mem_of_getElem? hk)

/-- A client that has just connected, and a peer that has read nothing. -/
theorem linked_new {c : ClientState} (hnew : NewClient c) (hs : Sound c q) :
    Linked { client := c } q := by
  have hsent := hnew.sent hs
  have hwritten : c.written = [] := by rw [hnew.fresh]
  have htrail := hsent.trail
  rw [hwritten] at htrail
  constructor
  · refine htrail.covered.mono fun k hk => ?_
    rcases hk with hk | hk
    · cases hk
    · exact .inr hk
  · exact fun _ => Queue.piped_nil
  · exact fun _ _ => rfl
  · exact fun hne => absurd rfl hne
  · exact fun _ _ j hj => absurd hj List.not_mem_nil
  · exact fun _ => le_rfl
  · exact fun _ j hj => absurd hj List.not_mem_nil
  · exact htrail.hand fun _ _ => trivial
  · exact fun _ k hk => absurd hk List.not_mem_nil
  · exact fun k hk => absurd hk List.not_mem_nil

/-- What holds of a client and its peer. -/
structure Joint (s : Session) : Prop where
  crew : Crew s.client.proto
  linked : ∃ q, Sound s.client q ∧ Sent s.client q ∧ Linked s q

theorem Linked.peerAcks (h : Linked s q) (hfair : s.Honest (.client a)) : PeerAcks s.client a := by
  unfold PeerAcks
  split
  · rcases hfair with ⟨k, hk, hseq⟩
    exact ⟨k, h.known k hk, hseq⟩
  · trivial

theorem next_of_act {x : SessionAct} {s' : Session} (hact : s.act encodes x = some s') :
    (sessionMachine encodes).guard s x ∧ (sessionMachine encodes).next s x = s' :=
  ⟨congrArg Option.isSome hact, congrArg (·.getD s) hact⟩

theorem Joint.act (h : s.Joint) {x : SessionAct} {s' : Session} (hs' : s.act encodes x = some s')
    (hfair : s.Fair encodes x) : s'.Joint := by
  rcases h with ⟨hcrew, q, hs, hsent, hlinked⟩
  cases x with
  | client a =>
    rcases Option.map_eq_some_iff.1 hs' with ⟨c', hc', rfl⟩
    have hmove := moved_of_act hc'
    rcases hs.step hmove with ⟨q', hcalls, hsound'⟩
    have hsent' := hsent.step hs hmove hcalls (hlinked.peerAcks hfair.honest)
      hfair.encodes hfair.few
    refine ⟨?_, q', hsound', hsent', hlinked.step hs hsent hmove hcalls hsound' hsent' hfair⟩
    show Crew c'.proto
    rcases hmove.proto with hsame | ⟨pa, hpa⟩
    · rw [hsame]
      exact hcrew
    · exact hcrew.act hs.proto hpa
  | receive n =>
    rcases Option.map_eq_some_iff.1 hs' with ⟨k, hk, rfl⟩
    exact ⟨hcrew, q, hs, hsent, hlinked.receive hk⟩

variable {tr : List SessionStep} {c₀ : ClientState}

theorem joint_new (hnew : NewClient c₀) : Joint { client := c₀ } := by
  rcases hnew.sound with ⟨q, hq⟩
  refine ⟨?_, q, hq, hnew.sent hq, linked_new hnew hq⟩
  show Crew c₀.proto
  rw [hnew.proto_eq]
  exact crew_newClient

theorem joint_of_run (hnew : NewClient c₀)
    (hrun : (sessionMachine encodes).Run { client := c₀ } tr s)
    (hfair : ∀ st ∈ tr, st.pre.Fair encodes st.act) : s.Joint := by
  refine hrun.invariant_of (Fair encodes) Joint (joint_new hnew) ?_ hfair
  intro s x hg hx h
  rcases Option.isSome_iff_exists.1 hg with ⟨s', hact⟩
  rw [(next_of_act hact).2]
  exact h.act hact hx

end Session

section Sessions

variable {encodes : DataMessage → Bool} {c₀ : ClientState} {s : Session} {tr : List SessionStep}

/-- With an honest peer, messages that can be encoded and fewer than `2 ^ 64` admissions, every
message that an acknowledgement confirms has been received by the peer, on this connection or an
earlier one; and so has the message of every receipt that reads `ReceiptAcknowledged`. -/
theorem confirmed_was_received (hnew : NewClient c₀)
    (hrun : (sessionMachine encodes).Run { client := c₀ } tr s)
    (hfair : ∀ st ∈ tr, st.pre.Fair encodes st.act) :
    (∀ st ∈ tr, ∀ a k, st.act = .client a →
      ClientStep.Confirms ⟨st.pre.client, a, st.post.client⟩ k → k ∈ st.pre.received) ∧
    ∀ k r, s.client.buffer.receiptOf k = some r →
      s.client.buffer.buf.receiptAt r = .acknowledged → k ∈ s.received := by
  constructor
  · rintro ⟨pre, act, post⟩ hst a k rfl hconf
    rcases hrun.step_of_mem hst with ⟨tr', hrun', hg, hpost, hprefix⟩
    have hsub : ∀ st ∈ tr', st ∈ tr := fun st hmem =>
      hprefix.subset (List.mem_append_left _ hmem)
    rcases Session.joint_of_run hnew hrun' fun st hmem => hfair st (hsub st hmem) with
      ⟨_, q, hs, _, hlinked⟩
    rcases Option.isSome_iff_exists.1 hg with ⟨s', hs'⟩
    rcases Option.map_eq_some_iff.1 hs' with ⟨c', hc', rfl⟩
    have hclient : post.client = c' :=
      congrArg Session.client (hpost.trans (Session.next_of_act hs').2)
    simp only [hclient] at hconf
    refine hs.confirms hlinked.trail (moved_of_act hc') (hfair _ hst).few ?_ hconf
    rintro t seq bb rfl
    exact (hfair _ hst).honest
  · intro k r hr hack
    rcases Session.joint_of_run hnew hrun hfair with ⟨_, q, hs, _, hlinked⟩
    rcases hs.kept.confirmed_of_receipt hr hack with ⟨i, f, rfl, hf, hconf⟩
    exact hlinked.trail.confirmed i f hf hconf

/-- Three messages are written to the first connection, the second with a receipt. The peer
reads them and acknowledges the third. -/
def readThree : List SessionAct :=
  (shipThree {} [.write 1 true true]).dropLast.map .client ++ [.receive 1, .receive 1, .receive 1] ++
  [.client (.step 0 (.message (.ack 3)) (newByteBudget 0))]

theorem three_received :
    let s := (sessionMachine fun m => m.textPayload.isEmpty).exec { client := wideClient } readThree
    s.client.buffer.receiptOf 2 = some 0 ∧ s.client.buffer.buf.receiptAt 0 = .acknowledged ∧
      2 ∈ s.received := by
  intro s
  have hen : (sessionMachine fun m => m.textPayload.isEmpty).Enabled { client := wideClient }
      readThree := by decide +kernel
  have hrun := Machine.run_exec _ hen
  have hreceipt : s.client.buffer.receiptOf 2 = some 0 := by decide +kernel
  have hack : s.client.buffer.buf.receiptAt 0 = .acknowledged := by decide +kernel
  exact ⟨hreceipt, hack,
    (confirmed_was_received wideClient_new hrun (by decide +kernel)).2 2 0 hreceipt hack⟩

/-- The connection breaks while the second of three messages is written. The client
reconnects, and the sender of the new connection goes through the buffer. -/
def replayThree : List ClientAct :=
  let bb := newByteBudget 0
  let send (t : Nat) : List ClientAct := [.deliver t bb, .encode t, .write t true true]
  [.ship bb {} none none 0, .ship bb {} none none 0, .ship bb {} none none 0,
    .step 0 .go bb, .step 1 .go bb] ++ send 1 ++ [.deliver 1 bb, .encode 1, .write 1 false true,
    .step 1 .go bb, .step 1 .go bb, .step 3 .go bb, .step 3 .go bb, .step 0 .stop bb,
    .step 2 .go bb, .step 2 .stop bb, .step 3 .go bb, .step 3 .go bb, .step 3 .go bb,
    .step 3 .go bb, .step 3 .go bb, .step 3 .go bb, .step 3 (.message (.flow 4)) bb,
    .step 3 .go bb, .step 3 .go bb, .step 3 .go bb, .step 3 .go bb, .step 3 .go bb, .step 3 .go bb,
    .step 3 .go bb, .step 3 .go bb, .step 3 .go bb, .step 5 .go bb] ++ send 5 ++ send 5 ++ send 5

/-- Under the same assumptions, when a sender finds nothing to deliver, every message that is still
to be confirmed has been written to its own connection: a reconnect sends everything again. -/
theorem idle_sender_wrote_all (hnew : NewClient c₀)
    (hrun : (sessionMachine encodes).Run { client := c₀ } tr s)
    (hfair : ∀ st ∈ tr, st.pre.Fair encodes st.act) {t : Nat} {bb : ByteBudget} {c : ClientState}
    (hdeliver : s.client.act encodes (.deliver t bb) = some c) (hidle : (c.hand t).number = none) :
    ∀ k, s.client.buffer.Live k → k ∈ s.sent s.client.proto.latest := by
  intro k hlive
  rcases Session.joint_of_run hnew hrun hfair with ⟨_, q, hs, hsent, hlinked⟩
  have hheld := hs.kept.held
  have hmove := moved_of_act hdeliver
  -- nothing was handed out, so every frame of the window is retired or before the index
  have hend : ¬q.target < q.window.length := by
    intro hlt
    have hnumber := Session.number_of_deliver hs hmove
    rw [hidle, if_pos hlt] at hnumber
    cases hnumber
  rcases hheld.live_frame hlive with ⟨i, f, rfl, hf, hfate⟩
  have hin : q.gone.length ≤ i := by
    have := hlive.1.1
    rw [hheld.gone_eq] at this
    omega
  have hlt : i < q.gone.length + q.window.length := by
    have := hlive.1.2
    rw [hheld.length_log] at this
    omega
  rw [Queue.frames_getElem?_right hin] at hf
  have hcarried := hlinked.covered.target hf hfate (by omega)
  rw [Nat.add_sub_cancel' hin] at hcarried
  cases hmove with
  | deliver _ _ _ hsend hempty _ =>
    rcases hcarried with hwritten | ⟨u, hu, hk⟩
    · exact hwritten
    · -- the hand of the sender was empty
      rw [hsent.roles.unique u t _ hu (role_of_sending hs.proto hsend).1, hempty] at hk
      cases hk

theorem replayThree_wrote_all :
    let s := (sessionMachine fun _ => true).exec { client := wideClient } (replayThree.map .client)
    s.client.buffer.Live 2 ∧ 2 ∈ s.sent s.client.proto.latest := by
  intro s
  have hen : (sessionMachine fun _ => true).Enabled { client := wideClient }
      (replayThree.map .client) := by decide +kernel
  have hlive : s.client.buffer.Live 2 := by decide +kernel
  have hsome : (s.client.act (fun _ => true) (.deliver 5 (newByteBudget 0))).isSome = true := by
    decide +kernel
  have hidle : (s.client.act (fun _ => true) (.deliver 5 (newByteBudget 0))).all
      (fun c => (c.hand 5).number.isNone) = true := by decide +kernel
  rcases Option.isSome_iff_exists.1 hsome with ⟨c, hc⟩
  rw [hc] at hidle
  have hrun : (sessionMachine fun _ => true).Run { client := wideClient } _ s :=
    Machine.run_exec _ hen
  exact ⟨hlive, idle_sender_wrote_all wideClient_new hrun (by decide +kernel) hc
    (Option.isNone_iff_eq_none.1 hidle) 2 hlive⟩

end Sessions

end UspClient
