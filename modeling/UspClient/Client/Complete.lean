import UspClient.Buffer.Empties
import UspClient.Client.Link
import UspClient.Client.Progress

/-!
# Everything can be delivered

No state of a client is a dead end for the messages it holds, if they can be encoded and the
sequence numbers have not wrapped around. From every state of an open client, whatever failed
before, there is a schedule in which nothing else fails and after which the buffer is empty: the
client connects, the sender writes what is left, and the peer reads it and acknowledges it frame by
frame.

The way has two legs, each with a rank that every step of it makes smaller: to the connection
(`Serving.connects`), where a sender that was stopped first finishes the frame in its hand, and
from the connection to the empty buffer (`Serving.empties`).
-/

namespace UspClient

open Function Word64 Replay Protocol ClientState

/-- What a sender has to do before its hand is empty. -/
def Hand.rank : Hand → Nat
  | .empty => 0
  | .encoded _ => 2
  | .message _ _ => 3

theorem Hand.rank_le (h : Hand) : h.rank ≤ 3 := by
  cases h <;> simp [Hand.rank]

namespace Protocol

variable {p p' : Protocol} {t : Nat}

/-- Only a handshake and a listener take messages. -/
theorem step_message {m : ControlMessage} (hs : p.step t (.message m) = some p') :
    p.pc t = .handshake ∨ ∃ w, p.pc t = .work w := by
  unfold step at hs
  split at hs
  case h_12 hpc heq => exact .inl hpc
  case h_37 w m' hpc heq => exact .inr ⟨w, hpc⟩
  case h_38 => cases hs
  all_goals
    rename_i heq
    cases heq

theorem goto_self (p : Protocol) (t : Nat) : p.goto t (p.pc t) = p := by
  unfold goto
  rw [update_eq_self]

end Protocol

namespace Session

variable {encodes : DataMessage → Bool} {s s' : Session} {x : SessionAct} {t : Nat}
variable {L : List Admission}

/-- Nothing fails and users do nothing: the goroutines cooperate to connect, senders write, and
the peer reads what was written and acknowledges what it has read. -/
def Cooperates (s : Session) : SessionAct → Prop
  | .client (.step t choice _) =>
    Protocol.Cooperates s.client.proto (.step t choice) ∨
      ∃ w seq, s.client.proto.pc t = .work w ∧ choice = .message (.ack seq) ∧
        ∃ k ∈ s.received, k % 2 ^ 64 = seq.toNat
  | .client (.deliver _ _) | .client (.encode _) | .receive _ => True
  | .client (.write _ ok _) => ok = true
  | _ => False

/-- What the senders have in hand. -/
def load (s : Session) : Nat :=
  ∑ t ∈ Finset.range s.client.proto.spawned, (s.client.hand t).rank

/-- The frames of the current connection that the peer has not read. -/
def unread (s : Session) : Nat :=
  (s.sent s.client.proto.latest).length - s.got s.client.proto.latest

/-- An open client with the admissions `L`. -/
structure Serving (L : List Admission) (s : Session) : Prop where
  joint : s.Joint
  isClosing : s.client.proto.isClosing = false
  log : s.client.buffer.log = L

theorem Serving.inv (h : Serving L s) : Inv s.client.proto := by
  rcases h.joint with ⟨_, q, hs, _⟩
  exact hs.proto

theorem Serving.open (h : Serving L s) : Open s.client.proto :=
  ⟨h.inv, h.joint.crew, h.isClosing⟩

theorem act_client {a : ClientAct} {c' : ClientState} (hact : s.client.act encodes a = some c') :
    s.act encodes (.client a) =
      some { s with client := c', sent := s.put (a.output s.client) } := by
  rw [Session.act, hact]
  rfl

/-- One cooperating step leads to `P`. -/
def Gets (encodes : DataMessage → Bool) (s : Session) (P : Session → Prop) : Prop :=
  ∃ x s', s.act encodes x = some s' ∧ s.Cooperates x ∧ P s'

/-- As long as the goal is not reached, one step makes the rank smaller. -/
theorem reaches {goal : Session → Prop} (inv : Session → Prop) (rank : Session → Nat)
    (hstep : ∀ s, inv s → ¬goal s → s.Gets encodes fun s' => inv s' ∧ rank s' < rank s)
    (h : inv s) : (sessionMachine encodes).Reaches Cooperates s fun s' => inv s' ∧ goal s' := by
  refine Machine.reaches_of_rank inv rank ?_ h
  intro s hs hnot
  rcases hstep s hs hnot with ⟨x, s', hact, hc, hgoal⟩
  rcases next_of_act hact with ⟨hg, hnext⟩
  exact ⟨x, hg, hc, hnext.symm ▸ hgoal⟩

/-- Whoever cooperates is fair. -/
theorem Cooperates.fair (hc : s.Cooperates x) (hact : s.act encodes x = some s')
    (henc : ∀ m, encodes m = true) (hfew : s.client.buffer.log.length < 2 ^ 64) :
    s.Fair encodes x := by
  refine ⟨?_, ?_, hfew⟩
  · unfold Honest
    split
    case h_2 => trivial
    case h_1 t seq bb =>
      rcases hc with hc | ⟨w, seq', _, hseq, hk⟩
      · -- the goroutines get no acknowledgement on the way to the connection
        rcases Option.map_eq_some_iff.1 hact with ⟨c', hc', _⟩
        cases moved_of_act hc' with
        | step _ _ _ p _ hp =>
          rcases step_message hp with hpc | ⟨w, hpc⟩
          · cases hc.handshake hpc
          · cases hc.work hpc
      · cases hseq
        exact hk
  · cases x with
    | receive n => trivial
    | client a =>
      show UspClient.EncodesNext encodes s.client a
      unfold UspClient.EncodesNext
      split
      · split
        · exact henc _
        · trivial
      · trivial

/-- The calls of the goroutines admit nothing. -/
theorem calls_log {s : BufferState} {bb : ByteBudget} {a : Pc} {choice : Choice} :
    (s.calls bb (a.call choice)).log = s.log := by
  cases hcall : a.call choice with
  | none => rfl
  | some op => cases Pc.called hcall <;> rfl

theorem Serving.next (h : Serving L s) (hL : L.length < 2 ^ 64) (henc : ∀ m, encodes m = true)
    (hact : s.act encodes x = some s') (hc : s.Cooperates x) : Serving L s' := by
  have hjoint : s'.Joint := h.joint.act hact (hc.fair hact henc (by rw [h.log]; exact hL))
  cases x with
  | receive n =>
    rcases Option.map_eq_some_iff.1 hact with ⟨k, _, rfl⟩
    exact ⟨hjoint, h.isClosing, h.log⟩
  | client a =>
    rcases Option.map_eq_some_iff.1 hact with ⟨c', hc', rfl⟩
    cases moved_of_act hc' with
    | step t choice bb p _ hp =>
      refine ⟨hjoint, ?_, calls_log.trans ?_⟩
      · rcases hc with hc | ⟨w, seq, hpc, rfl, _⟩
        · exact (h.inv.toConnect_lt h.isClosing hp hc).1
        · -- the listener goes on
          unfold step at hp
          rw [hpc] at hp
          simp only at hp
          split_ifs at hp
          cases hp
          exact h.isClosing
      · exact h.log
    | deliver | encode | write => exact ⟨hjoint, h.isClosing, h.log⟩
    | fail => cases hc
    | _ => exact hc.elim

/-! ## The way to the connection -/

/-- A new goroutine has nothing in hand. -/
theorem Serving.load_step (h : Serving L s) {choice : Choice} {p : Protocol}
    (hp : s.client.proto.step t choice = some p) :
    ∑ u ∈ Finset.range p.spawned, (s.client.hand u).rank = s.load := by
  rcases h.joint with ⟨_, q, _, hsent, _⟩
  have hle := (step_others hp).1
  refine (Finset.sum_subset (Finset.range_mono hle) ?_).symm
  intro u _ hu
  rw [hsent.spare u (by simpa using hu)]
  rfl

/-- The sum changes by what one hand changes. -/
theorem load_update {c : ClientState} (hd : Hand) (ht : t < c.proto.spawned) :
    ∑ u ∈ Finset.range c.proto.spawned, (update c.hand t hd u).rank + (c.hand t).rank =
      ∑ u ∈ Finset.range c.proto.spawned, (c.hand u).rank + hd.rank := by
  simp only [apply_update fun _ => Hand.rank]
  exact Slice.sum_update_add ht _ _

/-- A sender goes on with the frame in its hand. -/
theorem Serving.unload (h : Serving L s) (henc : ∀ m, encodes m = true)
    (hsend : s.client.sending t = true) (hne : s.client.hand t ≠ .empty) :
    s.Gets encodes fun s' => s'.client.proto = s.client.proto ∧
      s'.client.buffer = s.client.buffer ∧ s'.load < s.load ∧
      s'.load + s'.unread < s.load + s.unread := by
  have hlt := (role_of_sending h.inv hsend).2.1
  cases hhand : s.client.hand t with
  | empty => exact absurd hhand hne
  | message k m =>
    have hsum := load_update (.encoded k) hlt
    rw [hhand] at hsum
    change _ + 3 = s.load + 2 at hsum
    have hact : s.client.act encodes (.encode t) =
        some { s.client with hand := update s.client.hand t (.encoded k) } := by
      simp only [ClientState.act, hsend, hhand, henc, if_true]
    have hload : ∑ u ∈ Finset.range s.client.proto.spawned,
        (update s.client.hand t (.encoded k) u).rank < s.load := by omega
    exact ⟨.client (.encode t), _, act_client hact, trivial, rfl, rfl, hload,
      Nat.add_lt_add_right hload _⟩
  | encoded k =>
    have hsum := load_update .empty hlt
    rw [hhand] at hsum
    change _ + 2 = s.load + 0 at hsum
    have hact : s.client.act encodes (.write t true true) =
        some { s.client with
          hand := update s.client.hand t .empty
          written := s.client.written ++ [k] } := by
      simp only [ClientState.act, hsend, hhand, if_true]
    have hpipe : (s.put (some (s.client.proto.latest, k)) s.client.proto.latest).length =
        (s.sent s.client.proto.latest).length + 1 := by
      rw [put_apply, if_pos rfl, List.length_append]
      rfl
    have hs' := act_client hact
    rw [output_write h.inv hsend hhand, Bool.or_true, if_pos rfl] at hs'
    refine ⟨.client (.write t true true), _, hs', rfl, rfl, rfl, ?_, ?_⟩
    · dsimp only [load] at hsum ⊢
      omega
    · dsimp only [load, unread] at hsum ⊢
      rw [hpipe]
      omega

/-- A step of the protocol is a step of the client, unless a sender has to finish first. -/
theorem free_or_sending {c : ClientState} {u : Nat} {choice : Choice}
    (hc : Protocol.Cooperates c.proto (.step u choice)) :
    c.free u choice = true ∨ c.sending u = true ∧ c.hand u ≠ .empty := by
  by_cases hsend : c.sending u = true
  · rcases sending_iff.1 hsend with ⟨n, hpc⟩
    obtain rfl := hc.work hpc
    by_cases hempty : c.hand u = .empty
    · left
      simp only [free, hpc, hempty]
    · exact .inr ⟨hsend, hempty⟩
  · left
    have hnot : ∀ n, c.proto.pc u ≠ .work ⟨n, .sender⟩ := fun n hpc =>
      hsend (sending_iff.2 ⟨n, hpc⟩)
    unfold free
    split
    case h_1 => exact absurd ‹c.proto.pc u = .work ⟨_, .sender⟩› (hnot _)
    case h_2 => rfl
    case h_3 => exact absurd ‹c.proto.pc u = .work ⟨_, .sender⟩› (hnot _)
    case h_4 => rfl

theorem Serving.connects (h : Serving L s) (hL : L.length < 2 ^ 64)
    (henc : ∀ m, encodes m = true) : (sessionMachine encodes).Reaches Cooperates s fun s' =>
      Serving L s' ∧ Connected s'.client.proto := by
  refine reaches (Serving L) (fun s => total Pc.toConnect s.client.proto + s.load) ?_ h
  intro s h hnot
  rcases h.open.progress hnot with ⟨u, choice, hc, hsome⟩
  rcases free_or_sending hc with hfree | ⟨hsend, hne⟩
  · -- the goroutine goes on
    rcases Option.isSome_iff_exists.1 hsome with ⟨p, hp⟩
    have hact : s.client.act encodes (.step u choice (newByteBudget 0)) =
        some { s.client.stores u with
          proto := p
          buffer := s.client.buffer.calls (newByteBudget 0) ((s.client.proto.pc u).call choice) } := by
      simp only [ClientState.act, hfree, if_true, hp, Option.map_some]
    refine ⟨_, _, act_client hact, .inl hc, h.next hL henc (act_client hact) (.inl hc), ?_⟩
    have htotal := (h.inv.toConnect_lt h.isClosing hp hc).2
    have hload := h.load_step hp
    dsimp only [load] at hload ⊢
    rw [(stores_rest u).1]
    omega
  · -- a sender that is to stop finishes its frame
    rcases h.unload henc hsend hne with ⟨x, s', hact, hcoop, hproto, _, hload, _⟩
    refine ⟨x, s', hact, hcoop, h.next hL henc hact hcoop, ?_⟩
    rw [hproto]
    omega

/-! ## The way to the empty buffer -/

/-- What is left to do on the connection. -/
def rest (s : Session) : Nat :=
  4 * (s.client.buffer.buf.nextIndexFree - s.client.buffer.buf.nextIndexToDeliver) + s.load +
    s.unread + s.client.buffer.buf.nextIndexFree

/-- The sender takes the next frame. -/
theorem Serving.take (h : Serving L s) (hsend : s.client.sending t = true)
    (hempty : s.client.hand t = .empty)
    (hlt : s.client.buffer.buf.nextIndexToDeliver < s.client.buffer.buf.nextIndexFree) :
    s.Gets encodes fun s' => s'.client.proto = s.client.proto ∧ s'.rest < s.rest := by
  rcases h.joint with ⟨_, q, hs, _, _⟩
  rcases hs.kept.held.deliver_next (hs.kept.life.not_fenced (newByteBudget 0)) hlt with ⟨hnext, hfree⟩
  have hsome : (s.client.act encodes (.deliver t (newByteBudget 0))).isSome = true := by
    simp only [ClientState.act, hsend, hempty]
    rfl
  rcases Option.isSome_iff_exists.1 hsome with ⟨c', hact⟩
  have hs' := act_client hact
  cases moved_of_act hact with
  | deliver _ _ hd _ _ _ =>
    refine ⟨_, _, hs', trivial, rfl, ?_⟩
    have hsum := load_update hd (role_of_sending h.inv hsend).2.1
    rw [hempty] at hsum
    change _ + 0 = _ at hsum
    have hrank := hd.rank_le
    dsimp only [rest, load, unread, ClientAct.output, put]
    rw [hfree]
    omega

/-- The peer reads the next frame. -/
theorem read (h : 0 < s.unread) :
    s.Gets encodes fun s' => s'.client = s.client ∧ s'.rest < s.rest := by
  unfold unread at h
  have hlt : s.got s.client.proto.latest < (s.sent s.client.proto.latest).length := by omega
  have hact : s.act encodes (.receive s.client.proto.latest) = some { s with
      got := update s.got s.client.proto.latest (s.got s.client.proto.latest + 1)
      received := s.received ++ [(s.sent s.client.proto.latest)[s.got s.client.proto.latest]] } := by
    rw [Session.act, List.getElem?_eq_getElem hlt]
    rfl
  refine ⟨_, _, hact, trivial, rfl, ?_⟩
  dsimp only [rest, load, unread]
  rw [update_self]
  omega

/-- The peer acknowledges the oldest frame. -/
theorem Serving.acknowledge (h : Serving L s) (hL : L.length < 2 ^ 64)
    (hconn : Connected s.client.proto) (hsend : s.client.sending t = true)
    (hempty : s.client.hand t = .empty)
    (hdel : s.client.buffer.buf.nextIndexFree ≤ s.client.buffer.buf.nextIndexToDeliver)
    (hread : s.unread = 0) (hne : s.client.buffer.buf.nextIndexFree ≠ 0) :
    s.Gets encodes fun s' => s'.client.proto = s.client.proto ∧ s'.rest < s.rest := by
  rcases h.joint with ⟨_, q, hs, hsent, hlinked⟩
  have hfew : s.client.buffer.log.length < 2 ^ 64 := by rw [h.log]; exact hL
  rcases hs.kept.held.ack_front hfew (by omega) hne with ⟨seq, f, hseq, hf, hlive, hack⟩
  -- the sender has written the frame, and the peer has read everything
  have hmem : q.gone.length + 1 ∈ s.received := by
    have hnext := hs.kept.held.shape.slots.next
    rcases hlinked.covered 0 f hf hlive (by omega) with hwritten | ⟨u, hu, hk⟩
    · refine hlinked.arrived s.client.proto.latest _ ?_
      rw [List.take_of_length_le (by unfold unread at hread; omega)]
      exact hwritten
    · rw [hsent.roles.unique u t _ hu (role_of_sending hs.proto hsend).1, hempty] at hk
      cases hk
  rcases hconn.workers .listener with ⟨u, hu⟩
  have hfree : s.client.free u (.message (.ack seq)) = true := by
    simp only [free, hu]
  have hstep : s.client.proto.step u (.message (.ack seq)) = some s.client.proto := by
    unfold step
    rw [hu]
    simp only [if_true, afterMessage, ← hu, goto_self]
  have hcall : (s.client.proto.pc u).call (.message (.ack seq)) = some (.call (.ack seq)) := by
    rw [hu]
    rfl
  have hact : s.client.act encodes (.step u (.message (.ack seq)) (newByteBudget 0)) =
      some { s.client.stores u with
        proto := s.client.proto
        buffer := (s.client.buffer.apply (newByteBudget 0) (.ack seq)).1 } := by
    simp only [ClientState.act, hfree, if_true, hstep, Option.map_some, hcall]
    rfl
  refine ⟨_, _, act_client hact, .inr ⟨_, _, hu, rfl, _, hmem, ?_⟩, rfl, ?_⟩
  · rw [← hseq, Nat.mod_eq_of_lt seq.toNat_lt]
  · rcases hack (newByteBudget 0) with ⟨n, hafter, hnext⟩
    dsimp only [rest, load, unread, ClientAct.output, put]
    rw [hafter, hnext, (stores_rest u).1]
    omega

theorem Serving.empties (h : Serving L s) (hconn : Connected s.client.proto)
    (hL : L.length < 2 ^ 64) (henc : ∀ m, encodes m = true) :
    (sessionMachine encodes).Reaches Cooperates s fun s' =>
      (Serving L s' ∧ Connected s'.client.proto) ∧
        s'.client.buffer.buf.nextIndexFree = 0 := by
  refine reaches (fun s => Serving L s ∧ Connected s.client.proto) rest ?_ ⟨h, hconn⟩
  rintro s ⟨h, hconn⟩ hne
  have hstep : (s.Gets encodes fun s' => s'.client.proto = s.client.proto ∧ s'.rest < s.rest) →
      s.Gets encodes fun s' =>
        (Serving L s' ∧ Connected s'.client.proto) ∧ s'.rest < s.rest := by
    rintro ⟨x, s', hact, hc, hproto, hlt⟩
    exact ⟨x, s', hact, hc, ⟨h.next hL henc hact hc, hproto ▸ hconn⟩, hlt⟩
  rcases hconn.workers .sender with ⟨t, ht⟩
  have hsend : s.client.sending t = true := sending_iff.2 ⟨_, ht⟩
  apply hstep
  by_cases hempty : s.client.hand t = .empty
  · by_cases hlt : s.client.buffer.buf.nextIndexToDeliver < s.client.buffer.buf.nextIndexFree
    · exact h.take hsend hempty hlt
    by_cases hread : 0 < s.unread
    · rcases read hread with ⟨x, s', hact, hc, hclient, hrest⟩
      exact ⟨x, s', hact, hc, by rw [hclient], hrest⟩
    · exact h.acknowledge hL hconn hsend hempty (not_lt.1 hlt) (by omega) hne
  · rcases h.unload henc hsend hempty with ⟨x, s', hact, hc, hproto, hbuf, _, hlt⟩
    refine ⟨x, s', hact, hc, hproto, ?_⟩
    unfold rest
    rw [hbuf]
    omega

end Session

end UspClient
