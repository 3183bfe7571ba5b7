import UspClient.Client.Steps
import UspClient.Buffer.Order

/-!
# A confirmed message was written

The peer acknowledges only frames it received, and it receives only what a sender wrote.
A sender takes a frame from the buffer, encodes it and writes it; acknowledgements are
cumulative. So a confirmed frame was written as long as every frame that was taken is
written before a later one, which is what `Sent` says: the frames before the delivery index
were written or are in the hand of the sender of the current connection.

* `confirmed_was_written`: it holds in every run in which encoding succeeds.
* `unencodable_confirmed`: a sender that cannot encode a frame goes on with the next one,
  and the acknowledgement of that one confirms both.
-/

namespace UspClient

open Function Word64 Replay Protocol BufferState

/-! ## The goroutine of a worker -/

def WorkerKind.rank : WorkerKind → Nat
  | .listener => 0
  | .sender => 1
  | .keepAliveSender => 2

namespace Protocol

variable {p p' : Protocol} {t u : Nat}

/-- Every worker has one goroutine. The workers of a connection are started in order. -/
structure Roles (p : Protocol) : Prop where
  unique : ∀ t u w, (p.pc t).role = some w → (p.pc u).role = some w → t = u
  old : ∀ t w, (p.pc t).role = some w → w.conn ≤ p.latest
  next : ∀ t k u w, p.pc t = .launch k → (p.pc u).role = some w → w.conn = p.latest →
    w.kind.rank < k.rank

/-- A goroutine keeps its role. -/
theorem Effect.role_at {p₁ : Protocol} {b : Pc} (heff : Effect p p₁ (p.pc t) b) (u : Nat) :
    ((p₁.goto t b).pc u).role = (p.pc u).role := by
  rw [goto_pc, heff.pc]
  split_ifs with hu
  · rw [hu]
    exact heff.role
  · rfl

/-- A new goroutine that is no worker. -/
theorem Roles.spawn (h : Roles p) (hidle : (p.pc p.spawned).role = none) {d : Pc}
    (hd : d.role = none) (hlaunch : ∀ k, d ≠ .launch k) : Roles (p.spawn d) := by
  have hrole : ∀ u, ((p.spawn d).pc u).role = (p.pc u).role := by
    intro u
    rw [spawn_pc]
    split_ifs with hu
    · rw [hu, hidle, hd]
    · rfl
  refine ⟨?_, ?_, ?_⟩
  · intro t u w ht hu
    rw [hrole] at ht hu
    exact h.unique t u w ht hu
  · intro t w ht
    rw [hrole] at ht
    exact h.old t w ht
  · intro t k u w ht hu hw
    rw [hrole] at hu
    rw [spawn_pc] at ht
    split_ifs at ht
    · exact absurd ht (hlaunch k)
    · exact h.next t k u w ht hu hw

/-- A goroutine that starts no worker. -/
theorem Roles.goto (h : Roles p) (hinv : Inv p) {p₁ : Protocol} {b : Pc}
    (heff : Effect p p₁ (p.pc t) b) (hnot : ∀ k, p.pc t ≠ .launch k) : Roles (p₁.goto t b) := by
  have hrole := heff.role_at
  have hle : p.latest ≤ p₁.latest := by
    rcases heff.latest with hsame | ⟨-, hnew⟩
    · exact le_of_eq hsame.symm
    · omega
  refine ⟨?_, ?_, ?_⟩
  · intro t u w ht hu
    rw [hrole] at ht hu
    exact h.unique t u w ht hu
  · intro t w ht
    rw [hrole] at ht
    exact le_trans (h.old t w ht) hle
  · intro s k u w hs hu hw
    rw [hrole] at hu
    have hold := h.old u w hu
    have hw' : w.conn = p₁.latest := hw
    rw [goto_pc, heff.pc] at hs
    split_ifs at hs
    · -- the owner has just installed the connection
      rcases heff.launch k hs with ⟨-, hnew⟩ | ⟨k', hk', -⟩
      · omega
      · exact absurd hk' (hnot k')
    · rcases heff.latest with hsame | ⟨hset, -⟩
      · exact h.next s k u w hs hu (hw'.trans hsame)
      · have hst := hinv.owner s t (by rw [hs]; rfl) (by rw [hset]; rfl)
        rw [← hst, hs] at hset
        cases hset

/-- The owner starts the next worker. -/
theorem Roles.launch (h : Roles p) (hinv : Inv p) {p₁ : Protocol} {k : WorkerKind}
    (hpc : p.pc t = .launch k) (heff : Effect p p₁ (p.pc t) (afterLaunch k)) :
    Roles ((p₁.goto t (afterLaunch k)).spawn (.waitStart ⟨p.latest, k⟩)) := by
  have hlatest : p₁.latest = p.latest := by
    rcases heff.latest with hsame | ⟨hset, -⟩
    · exact hsame
    · rw [hpc] at hset
      cases hset
  have hrole : ∀ u, (((p₁.goto t (afterLaunch k)).spawn (.waitStart ⟨p.latest, k⟩)).pc u).role =
      if u = p.spawned then some ⟨p.latest, k⟩ else (p.pc u).role := by
    intro u
    have hsp : (p₁.goto t (afterLaunch k)).spawned = p.spawned := heff.spawned
    rw [spawn_pc, hsp]
    split_ifs with hu
    · rfl
    · exact heff.role_at u
  -- the new worker is the first of its kind
  have hnone : ∀ u, (p.pc u).role ≠ some ⟨p.latest, k⟩ := fun u hu =>
    absurd (h.next t k u _ hpc hu rfl) (lt_irrefl _)
  refine ⟨?_, ?_, ?_⟩
  · intro s u w hs hu
    rw [hrole] at hs hu
    split_ifs at hs hu with h₁ h₂ h₂
    · exact h₁.trans h₂.symm
    · rw [← hs] at hu
      exact absurd hu (hnone u)
    · rw [← hu] at hs
      exact absurd hs (hnone s)
    · exact h.unique s u w hs hu
  · intro u w hu
    rw [hrole] at hu
    show w.conn ≤ p₁.latest
    rw [hlatest]
    split_ifs at hu
    · cases hu
      exact le_rfl
    · exact h.old u w hu
  · intro s k' u w hs hu hw
    have hw' : w.conn = p.latest := by
      rw [← hlatest]
      exact hw
    -- the owner is the only goroutine that starts workers
    have hst : s = t ∧ afterLaunch k = .launch k' := by
      rw [spawn_pc, goto_pc, heff.pc] at hs
      split_ifs at hs with h₁ h₂
      · exact ⟨h₂, hs⟩
      · have howner := hinv.owner s t (by rw [hs]; rfl) (by rw [hpc]; rfl)
        exact absurd howner h₂
    have hrank : k.rank < k'.rank := by
      have hk := hst.2
      cases k with
      | listener | sender =>
        obtain rfl := Pc.launch.inj hk
        decide
      | keepAliveSender => cases hk
    rw [hrole] at hu
    split_ifs at hu
    · cases hu
      exact hrank
    · exact lt_trans (h.next t k u w hpc hu hw') hrank

theorem Roles.act (h : Roles p) (hinv : Inv p) {a : ProtocolAct} (hs : p.act a = some p') :
    Roles p' := by
  have hfresh : (p.pc p.spawned).role = none := by
    rw [hinv.idle p.spawned le_rfl]
    rfl
  cases a with
  | callClose | callReconnect =>
    cases hs
    exact h.spawn hfresh rfl fun _ => Pc.noConfusion
  | step t c =>
    obtain ⟨p₁, b, heff, hp⟩ := step_effect hs
    rcases hp with ⟨rfl, hnot⟩ | ⟨d, hd, rfl⟩
    · exact h.goto hinv heff hnot
    · cases hd with
      | owner hnot =>
        refine (h.goto hinv heff hnot).spawn ?_ rfl fun _ => Pc.noConfusion
        rw [heff.role_at]
        show (p.pc p₁.spawned).role = none
        rw [heff.spawned]
        exact hfresh
      | worker k hpc hb =>
        subst hb
        exact h.launch hinv hpc heff

/-- What a step of one goroutine does to the others and to the fields of a connection. -/
theorem step_others {c : Choice} (hs : p.step t c = some p') : p.spawned ≤ p'.spawned ∧
    (p'.latest = p.latest ∨ p.pc t = .setConn) ∧
    (∀ u, u < p.spawned → (p'.pc u).role = (p.pc u).role ∧
      ((p'.pc u).worker ≠ none → (p.pc u).worker ≠ none)) := by
  obtain ⟨p₁, b, heff, hp⟩ := step_effect hs
  have hlatest : p₁.latest = p.latest ∨ p.pc t = .setConn := heff.latest.imp id And.left
  have hgoto : ∀ u, ((p₁.goto t b).pc u).role = (p.pc u).role ∧
      (((p₁.goto t b).pc u).worker ≠ none → (p.pc u).worker ≠ none) := by
    intro u
    refine ⟨heff.role_at u, fun hw => ?_⟩
    rw [goto_pc, heff.pc] at hw
    split_ifs at hw with hu
    · rcases heff.worker with hsame | hnone
      · rw [hu, ← hsame]
        exact hw
      · exact absurd hnone hw
    · exact hw
  rcases hp with ⟨rfl, -⟩ | ⟨d, -, rfl⟩
  · exact ⟨le_of_eq heff.spawned.symm, hlatest, fun u _ => hgoto u⟩
  · refine ⟨?_, hlatest, fun u hu => ?_⟩
    · show p.spawned ≤ p₁.spawned + 1
      rw [heff.spawned]
      exact Nat.le_succ _
    · have hne : u ≠ (p₁.goto t b).spawned := by
        show u ≠ p₁.spawned
        rw [heff.spawned]
        exact hu.ne
      rw [spawn_pc, if_neg hne]
      exact hgoto u

theorem roles_newClient : Roles newClient := by
  have hrole : ∀ t w, (newClient.pc t).role = some w → (t = 0 ∧ w = ⟨1, .listener⟩) ∨
      (t = 1 ∧ w = ⟨1, .sender⟩) ∨ (t = 2 ∧ w = ⟨1, .keepAliveSender⟩) := by
    intro t w hw
    unfold newClient at hw
    simp only [spawn_pc] at hw
    split_ifs at hw with h₂ h₁ h₀
    · exact .inr (.inr ⟨h₂, (Option.some.inj hw).symm⟩)
    · exact .inr (.inl ⟨h₁, (Option.some.inj hw).symm⟩)
    · exact .inl ⟨h₀, (Option.some.inj hw).symm⟩
    · cases hw
  refine ⟨?_, ?_, ?_⟩
  · intro t u w ht hu
    rcases hrole t w ht with ⟨rfl, rfl⟩ | ⟨rfl, rfl⟩ | ⟨rfl, rfl⟩ <;>
      rcases hrole u _ hu with ⟨rfl, hw⟩ | ⟨rfl, hw⟩ | ⟨rfl, hw⟩ <;> first | rfl | cases hw
  · intro t w ht
    rcases hrole t w ht with ⟨-, rfl⟩ | ⟨-, rfl⟩ | ⟨-, rfl⟩ <;> exact le_rfl
  · intro t k u w ht
    unfold newClient at ht
    simp only [spawn_pc] at ht
    split_ifs at ht

end Protocol

/-! ## What the sender holds -/

def Hand.number : Hand → Option Nat
  | .empty => none
  | .message k _ => some k
  | .encoded k => some k

/-- The peer acknowledges the sequence number of a frame it received. -/
def PeerAcks (c : ClientState) : ClientAct → Prop
  | .step _ (.message (.ack seq)) _ => ∃ k ∈ c.written, k % 2 ^ 64 = seq.toNat
  | _ => True

instance (c : ClientState) (a : ClientAct) : Decidable (PeerAcks c a) := by
  unfold PeerAcks
  split <;> infer_instance

/-- The frame that a sender is about to encode can be encoded. -/
def EncodesNext (encodes : DataMessage → Bool) (c : ClientState) : ClientAct → Prop
  | .encode t =>
    match c.hand t with
    | .message _ m => encodes m = true
    | _ => True
  | _ => True

instance (encodes : DataMessage → Bool) (c : ClientState) (a : ClientAct) :
    Decidable (EncodesNext encodes c a) := by
  unfold EncodesNext
  split
  · split <;> infer_instance
  · infer_instance

namespace BufferState

variable {s s' : BufferState} {q q' : Queue Admission} {x : LifeAct} {W H : Nat → Prop}

theorem LifeMove.trail (hmove : LifeMove s q x s' q') (h : Queue.Trail W H q)
    (hheld : Held s q) (hnew : x.op = .call .getNextToDeliver → q.target < q.window.length →
      W (q.gone.length + q.target + 1) ∨ H (q.gone.length + q.target + 1))
    (hack : ∀ seq, x.op = .call (.ack seq) → sub64 seq.toNat s.buf.firstSeqNum < q.window.length →
      W (q.gone.length + sub64 seq.toNat s.buf.firstSeqNum + 1)) : Queue.Trail W H q' := by
  cases hmove with
  | call op q' hop hstep =>
    cases hstep with
    | same => exact h
    | push adm => exact h.push hheld.shape.next_le rfl
    | deliver _ hop' =>
      simp only at hop'
      exact h.deliver (hnew (hop.trans (congrArg LifeOp.call hop')))
    | ack seq _ _ hop' _ hi =>
      simp only at hop'
      exact h.ack hi (hack seq (hop.trans (congrArg LifeOp.call hop')) hi)
    | reset => exact h.reset
  | rewind => exact h.rewind
  | release => exact h

/-- Only a reset moves the delivery back. -/
theorem LifeMove.index_le (hmove : LifeMove s q x s' q') (hreset : x.op ≠ .call .resetDelivery) :
    q.gone.length + q.next ≤ q'.gone.length + q'.next := by
  cases hmove with
  | call op q' hop hstep =>
    cases hstep with
    | same | push => exact le_rfl
    | deliver => exact Queue.index_deliver
    | ack seq _ _ _ _ hi => exact Queue.index_ack hi
    | reset _ _ hop' =>
      simp only at hop'
      exact absurd (hop.trans (congrArg LifeOp.call hop')) hreset
  | rewind hop => exact absurd hop hreset
  | release => exact le_rfl

theorem LifeMove.next_zero (hmove : LifeMove s q x s' q') (hdel : x.op ≠ .call .getNextToDeliver)
    (hz : q.next = 0) : q'.next = 0 := by
  cases hmove with
  | call op q' hop hstep =>
    cases hstep with
    | same => exact hz
    | push adm => exact hz
    | deliver _ hop' =>
      simp only at hop'
      exact absurd (hop.trans (congrArg LifeOp.call hop')) hdel
    | ack seq =>
      show q.next - _ - _ = 0
      rw [hz, Nat.zero_sub, Nat.zero_sub]
    | reset => exact Nat.zero_sub _
  | rewind => rfl
  | release => exact hz

theorem LifeMove.next_reset (hmove : LifeMove s q x s' q') (hreset : x.op = .call .resetDelivery) :
    q'.next = 0 := by
  cases hmove with
  | call op q' hop hstep =>
    have hop' : op = .resetDelivery := LifeOp.call.inj (hop.symm.trans hreset)
    cases hstep with
    | same _ _ hne | push _ _ _ hne => exact absurd hop' hne
    | deliver _ hdel =>
      simp only at hdel
      rw [hdel] at hop'
      cases hop'
    | ack seq _ _ hack =>
      simp only at hack
      rw [hack] at hop'
      cases hop'
    | reset => exact Nat.zero_sub _
  | rewind => rfl
  | release hop =>
    rw [hreset] at hop
    cases hop

end BufferState

namespace ClientState

variable {encodes : DataMessage → Bool} {c c' : ClientState} {a : ClientAct} {t : Nat}
variable {q q' : Queue Admission}

/-- Frame `k` is in the hand of the sender of the current connection. -/
def InHand (c : ClientState) (k : Nat) : Prop :=
  ∃ t, (c.proto.pc t).role = some ⟨c.proto.latest, .sender⟩ ∧ (c.hand t).number = some k

structure Sent (c : ClientState) (q : Queue Admission) : Prop where
  roles : Roles c.proto
  spare : ∀ t, c.proto.spawned ≤ t → c.hand t = .empty
  /-- What a worker holds was delivered since the last reset. -/
  held : ∀ t k, (c.hand t).number = some k → (c.proto.pc t).worker ≠ none →
    k ≤ q.gone.length + q.next
  rewound : ∀ t, (c.proto.pc t).rewound = true → q.next = 0
  trail : Queue.Trail (· ∈ c.written) c.InHand q

theorem sending_iff : c.sending t = true ↔ ∃ n, c.proto.pc t = .work ⟨n, .sender⟩ := by
  unfold sending
  split
  case h_1 n hpc => exact iff_of_true rfl ⟨n, hpc⟩
  case h_2 hne =>
    refine iff_of_false Bool.false_ne_true ?_
    rintro ⟨n, hpc⟩
    exact hne n hpc

/-- A sender in its loop is the sender of the current connection. -/
theorem role_of_sending (hinv : Inv c.proto) (h : c.sending t = true) :
    (c.proto.pc t).role = some ⟨c.proto.latest, .sender⟩ ∧ t < c.proto.spawned ∧
      (c.proto.pc t).worker ≠ none := by
  obtain ⟨n, hpc⟩ := sending_iff.1 h
  have hn : n = c.proto.latest := hinv.current t ⟨n, .sender⟩ (by rw [hpc]; rfl)
  rw [hpc, ← hn]
  refine ⟨rfl, hinv.lt_spawned ?_, Option.some_ne_none _⟩
  rw [hpc]
  exact Pc.noConfusion

/-- Nothing changed that `Sent` reads. -/
theorem Sent.congr (h : Sent c q) (h₁ : c'.proto = c.proto) (h₂ : c'.hand = c.hand)
    (h₃ : c'.written = c.written) : Sent c' q := by
  have hin : c'.InHand = c.InHand := by
    unfold InHand
    rw [h₁, h₂]
  constructor
  · rw [h₁]
    exact h.roles
  · rw [h₁, h₂]
    exact h.spare
  · rw [h₁, h₂]
    exact h.held
  · rw [h₁]
    exact h.rewound
  · rw [hin, h₃]
    exact h.trail

/-- Without a wrap an acknowledged number in the window is that of a frame the peer saw. -/
theorem Sound.acked (hs : Sound c q) {W H : Nat → Prop} (h : Queue.Trail W H q)
    (hlen : c.buffer.log.length < 2 ^ 64) {seq : UInt64}
    (hpeer : ∃ k, W k ∧ k % 2 ^ 64 = seq.toNat)
    (hi : sub64 seq.toNat c.buffer.buf.firstSeqNum < q.window.length) :
    W (q.gone.length + sub64 seq.toNat c.buffer.buf.firstSeqNum + 1) := by
  obtain ⟨k, hk, hseq⟩ := hpeer
  have hb := h.bound k hk
  rw [hs.kept.held.items] at hb
  have hlog := hs.kept.held.length_log
  have hfirst := hs.kept.held.shape.slots.first
  have hk' : q.gone.length + sub64 seq.toNat c.buffer.buf.firstSeqNum + 1 = k := by
    rw [← hseq, hfirst] at hi ⊢
    unfold sub64 at hi ⊢
    omega
  rw [hk']
  exact hk

/-- A call that delivers nothing, resets the delivery only if no worker runs, and acknowledges
only what the peer saw. -/
structure Steady (p : Protocol) (saw : Nat → Prop) (op : LifeOp) : Prop where
  deliver : op ≠ .call .getNextToDeliver
  reset : op = .call .resetDelivery → NoWorkers p
  ack : ∀ seq, op = .call (.ack seq) → ∃ k, saw k ∧ k % 2 ^ 64 = seq.toNat

/-- The calls of the goroutines are steady. -/
theorem steady_of_step {p : Protocol} (hinv : Inv p) {saw : Nat → Prop} {choice : Choice}
    {op : LifeOp} (hop : (p.pc t).call choice = some op)
    (hpeer : ∀ seq, choice = .message (.ack seq) → ∃ k, saw k ∧ k % 2 ^ 64 = seq.toNat) :
    Steady p saw op := by
  have hcalled := Pc.called hop
  constructor
  · rintro rfl
    cases hcalled
  · rintro rfl
    cases hcalled with
    | resetDelivery hpc => exact fun u => hinv.cleared t u (by rw [hpc]; rfl)
  · rintro seq rfl
    cases hcalled with
    | ack _ _ => exact hpeer seq rfl

/-- So are those of the users. -/
theorem steady_of_user {p : Protocol} {saw : Nat → Prop} {op : BufferOp}
    (hdel : op ≠ .getNextToDeliver) (hreset : op ≠ .resetDelivery) (hack : ∀ seq, op ≠ .ack seq) :
    Steady p saw (.call op) :=
  ⟨fun h => hdel (LifeOp.call.inj h), fun h => absurd (LifeOp.call.inj h) hreset,
    fun seq h => absurd (LifeOp.call.inj h) (hack seq)⟩

/-- The buffer is called, but for no delivery. -/
theorem Sent.life (h : Sent c q) (hs : Sound c q) {x : LifeAct}
    (hkept : KeptStep c.buffer q x q') (hsteady : Steady c.proto (· ∈ c.written) x.op)
    (hlen : c.buffer.log.length < 2 ^ 64) : Sent c q' := by
  have hmove := hkept.move
  refine ⟨h.roles, h.spare, ?_, fun t ht => hmove.next_zero hsteady.deliver (h.rewound t ht), ?_⟩
  · intro t k hk hw
    by_cases hop : x.op = .call .resetDelivery
    · exact absurd (hsteady.reset hop t) hw
    · exact le_trans (h.held t k hk hw) (hmove.index_le hop)
  · exact hmove.trail h.trail hs.kept.held (fun hop => absurd hop hsteady.deliver)
      fun seq hop hi => hs.acked h.trail hlen (hsteady.ack seq hop) hi

/-- A goroutine that holds nothing is started. -/
theorem Sent.spawn (h : Sent c q) (hinv : Inv c.proto) {d : Pc} (hrole : d.role = none)
    (hlaunch : ∀ k, d ≠ .launch k) (hrew : d.rewound = false) :
    Sent { c with proto := c.proto.spawn d } q := by
  have hidle : (c.proto.pc c.proto.spawned).role = none := by
    rw [hinv.idle _ le_rfl]
    rfl
  refine ⟨h.roles.spawn hidle hrole hlaunch, ?_, ?_, ?_, ?_⟩
  · intro t ht
    have ht' : c.proto.spawned + 1 ≤ t := ht
    exact h.spare t (by omega)
  · intro t k hk hw
    simp only [spawn_pc] at hw
    split_ifs at hw with ht
    · have hspare : c.hand t = .empty := h.spare t (le_of_eq ht.symm)
      have hk' : (c.hand t).number = some k := hk
      rw [hspare] at hk'
      cases hk'
    · exact h.held t k hk hw
  · exact fun t ht => h.rewound t (spawn_class hrew ht)
  · refine h.trail.hand ?_
    rintro k ⟨t, ht, hk⟩
    refine ⟨t, ?_, hk⟩
    show ((c.proto.spawn d).pc t).role = _
    rw [spawn_pc, if_neg]
    · exact ht
    · rintro rfl
      rw [hidle] at ht
      cases ht

/-- A goroutine makes an access. -/
theorem Sent.access (h : Sent c q) (hinv : Inv c.proto) {choice : Choice} {p : Protocol}
    (hs : c.proto.step t choice = some p) (hz : c.proto.pc t = .resetDelivery → q.next = 0) :
    Sent { c with proto := p } q := by
  obtain ⟨hspawned, hlatest, hothers⟩ := step_others hs
  refine ⟨h.roles.act hinv (a := .step t choice) hs, ?_, ?_, ?_, ?_⟩
  · exact fun u hu => h.spare u (le_trans hspawned hu)
  · intro u k hk hw
    have hk' : (c.hand u).number = some k := hk
    by_cases hlt : u < c.proto.spawned
    · exact h.held u k hk' ((hothers u hlt).2 hw)
    · rw [h.spare u (by omega)] at hk'
      cases hk'
  · intro u hu
    rcases step_class (f := Pc.rewound) (e := .resetDelivery) hs
      (fun p₁ b heff => heff.rewound) rfl (fun _ => rfl) hu with hold | ⟨-, hpc⟩
    · exact h.rewound u hold
    · exact hz hpc
  · rcases hlatest with hsame | hset
    · refine h.trail.hand ?_
      rintro k ⟨u, hu, hk⟩
      have hlt : u < c.proto.spawned := by
        refine hinv.lt_spawned fun hidle => ?_
        rw [hidle] at hu
        cases hu
      refine ⟨u, ?_, hk⟩
      show (p.pc u).role = some ⟨p.latest, .sender⟩
      rw [(hothers u hlt).1, hsame]
      exact hu
    · -- a new connection begins with a delivery that was reset
      exact h.trail.start (h.rewound t (by rw [hset]; rfl))

/-- The hands hold the same frames as before. -/
theorem Sent.hands (h : Sent c q) {hand : Nat → Hand}
    (hnum : ∀ u, (hand u).number = (c.hand u).number)
    (hspare : ∀ u, c.proto.spawned ≤ u → hand u = .empty) : Sent { c with hand := hand } q := by
  refine ⟨h.roles, hspare, ?_, h.rewound, h.trail.hand ?_⟩
  · intro u k hk
    rw [hnum] at hk
    exact h.held u k hk
  · rintro k ⟨u, hu, hk⟩
    exact ⟨u, hu, (hnum u).trans hk⟩

/-- The sender of the current connection holds at most one frame. -/
theorem Sent.only (h : Sent c q) (hinv : Inv c.proto) (hsend : c.sending t = true)
    {k j : Nat} (hk : (c.hand t).number = some k) (hj : c.InHand j) : j = k := by
  obtain ⟨u, hu, hju⟩ := hj
  obtain rfl := h.roles.unique u t _ hu (role_of_sending hinv hsend).1
  exact Option.some.inj (hju.symm.trans hk)

/-- A sender takes the next frame from the buffer. -/
theorem Sent.deliver (h : Sent c q) (hs : Sound c q) {bb : ByteBudget} {hd : Hand}
    (hsend : c.sending t = true) (hempty : c.hand t = .empty)
    (hhand : match (c.buffer.buf.getNextToDeliver bb).2.2.frame with
      | some m => hd = .message (c.buffer.apply bb .getNextToDeliver).1.lastHanded m
      | none => hd = .empty)
    (hkept : KeptStep c.buffer q ⟨bb, .call .getNextToDeliver⟩ q') :
    Sent { c with
      buffer := (c.buffer.apply bb .getNextToDeliver).1
      hand := update c.hand t hd } q' := by
  obtain ⟨hrole, hlt, hworker⟩ := role_of_sending hs.proto hsend
  have hmove := hkept.move
  have hnumber : ∀ u, (update c.hand t hd u) = if u = t then hd else c.hand u :=
    update_apply _ _ _
  have hlast : (c.buffer.apply bb .getNextToDeliver).1.lastHanded =
      q'.gone.length + q'.next := by
    have hheld : Held (c.buffer.apply bb .getNextToDeliver).1 q' := hkept.kept.held
    unfold lastHanded
    rw [hheld.gone_eq, hheld.shape.slots.next]
  -- what is in hand afterwards: the new frame, and the frames of the other senders
  refine ⟨h.roles, ?_, ?_, ?_, ?_⟩
  · intro u hu
    show update c.hand t hd u = .empty
    rw [hnumber, if_neg]
    · exact h.spare u hu
    · rintro rfl
      exact absurd hu (by show ¬ c.proto.spawned ≤ u; omega)
  · intro u k hk hw
    have hk' : (update c.hand t hd u).number = some k := hk
    rw [hnumber] at hk'
    split_ifs at hk' with hut
    · -- the frame it took is the one at the delivery index
      cases hframe : (c.buffer.buf.getNextToDeliver bb).2.2.frame with
      | none =>
        rw [hframe] at hhand
        rw [hhand] at hk'
        cases hk'
      | some m =>
        rw [hframe] at hhand
        rw [hhand] at hk'
        rw [← hlast]
        exact le_of_eq (Option.some.inj hk').symm
    · -- another hand holds what it held, and the delivery index did not go back
      exact le_trans (h.held u k hk' hw) (hmove.index_le fun hop =>
        BufferOp.noConfusion (LifeOp.call.inj hop))
  · -- nobody resets the delivery while a worker runs
    intro u hu
    exact absurd (hs.proto.cleared u t (Pc.cleared_of_rewound hu)) hworker
  · refine hmove.trail (h.trail.hand ?_) hs.kept.held (fun _ hlt => .inr ?_) ?_
    · rintro k ⟨u, hu, hk⟩
      refine ⟨u, hu, ?_⟩
      show (update c.hand t hd u).number = some k
      rw [hnumber, if_neg]
      · exact hk
      · rintro rfl
        rw [hempty] at hk
        cases hk
    · -- a frame that was handed out is in the hand of this sender
      have hframe := (hs.kept.held.deliver bb (hs.kept.life.not_fenced bb)).2
      rw [List.getElem?_eq_getElem hlt] at hframe
      obtain ⟨m, hm, -, hnum, -⟩ := hframe
      rw [hm] at hhand
      refine ⟨t, hrole, ?_⟩
      show (update c.hand t hd t).number = _
      rw [hnumber, if_pos rfl, hhand]
      exact congrArg some hnum
    · exact fun seq hop => BufferOp.noConfusion (LifeOp.call.inj hop)

/-- The frame in the hand of a sender goes out. -/
theorem Sent.write (h : Sent c q) (hs : Sound c q) (hsend : c.sending t = true) {k : Nat}
    (hk : (c.hand t).number = some k) {hand : Nat → Hand}
    (hnum : ∀ u j, (hand u).number = some j → (c.hand u).number = some j)
    (hspare : ∀ u, c.proto.spawned ≤ u → hand u = .empty) :
    Sent { c with hand := hand, written := c.written ++ [k] } q := by
  have hmem : (fun j => j ∈ c.written ++ [k]) = fun j => j ∈ c.written ∨ j = k := by
    funext j
    simp
  refine ⟨h.roles, hspare, fun u j hj => h.held u j (hnum u j hj), h.rewound, ?_⟩
  show Queue.Trail (fun j => j ∈ c.written ++ [k]) _ q
  rw [hmem]
  exact h.trail.write hs.kept.held.shape.gone hs.kept.held.shape.next_le
    (fun j hj => h.only hs.proto hsend hk hj)
    (h.held t k hk (role_of_sending hs.proto hsend).2.2)

theorem stores_rest (t : Nat) : (c.stores t).hand = c.hand ∧ (c.stores t).written = c.written := by
  unfold stores
  split <;> exact ⟨rfl, rfl⟩

/-- An access of a goroutine with its call on the buffer. -/
theorem Sent.goroutine (h : Sent c q) (hs : Sound c q) {choice : Choice} {bb : ByteBudget}
    {p : Protocol} (hp : c.proto.step t choice = some p)
    (hcalls : Calls c q (.step t choice bb) c' q') (hpeer : PeerAcks c (.step t choice bb))
    (hlen : c.buffer.log.length < 2 ^ 64) : Sent { c with proto := p } q' := by
  cases hcalls with
  | silent hcall hbuf =>
    refine h.access hs.proto hp fun hpc => ?_
    obtain rfl := step_plain hp (by rw [hpc]; rfl)
    rw [ClientAct.call, hpc] at hcall
    cases hcall
  | called x q' hcall hbuf hkept =>
    obtain ⟨op, hop, rfl⟩ := Option.map_eq_some_iff.1 hcall
    have hsteady := steady_of_step hs.proto hop fun seq hseq => by
      subst hseq
      exact hpeer
    refine (h.life hs hkept hsteady hlen).access hs.proto hp fun hpc => ?_
    obtain rfl := step_plain hp (by rw [hpc]; rfl)
    rw [hpc] at hop
    cases hop
    exact hkept.move.next_reset rfl

/-- Every step keeps `Sent`, if the peer is honest and encoding succeeds. -/
theorem Sent.step (h : Sent c q) (hs : Sound c q) (hmove : Moved encodes c a c')
    (hcalls : Calls c q a c' q') (hpeer : PeerAcks c a) (henc : EncodesNext encodes c a)
    (hlen : c.buffer.log.length < 2 ^ 64) : Sent c' q' := by
  cases hmove with
  | callClose | callReconnect =>
    obtain rfl := hcalls.same rfl
    exact h.spawn hs.proto rfl (fun _ => Pc.noConfusion) rfl
  | step t choice bb p _ hp =>
    exact (h.goroutine hs hp hcalls hpeer hlen).congr rfl (stores_rest t).1 (stores_rest t).2
  | deliver t bb hd hsend hempty hhand =>
    exact h.deliver hs hsend hempty hhand (hcalls.moved rfl).2
  | encode t k m hsend hhand =>
    obtain rfl := hcalls.same rfl
    have hok : encodes m = true := by
      simp only [EncodesNext, hhand] at henc
      exact henc
    refine h.hands ?_ ?_
    · intro u
      rw [update_apply]
      split_ifs with hu
      · rw [hu, hhand]
        rfl
      · rfl
    · intro u hu
      have hlt := (role_of_sending hs.proto hsend).2.1
      rw [update_of_ne (by omega)]
      exact h.spare u hu
  | write t k reached hsend hhand =>
    obtain rfl := hcalls.same rfl
    refine h.write hs hsend (by rw [hhand]; rfl) ?_ ?_
    · intro u j hj
      rw [update_apply] at hj
      split_ifs at hj with hu
      · cases hj
      · exact hj
    · intro u hu
      have hlt := (role_of_sending hs.proto hsend).2.1
      rw [update_of_ne (by omega)]
      exact h.spare u hu
  | fail t k reached p hsend hhand hp =>
    obtain rfl := hcalls.same rfl
    have hz : c.proto.pc t = .resetDelivery → q'.next = 0 := by
      intro hpc
      obtain ⟨n, hn⟩ := sending_iff.1 hsend
      rw [hpc] at hn
      cases hn
    cases reached with
    | true =>
      have hw : Sent { c with written := c.written ++ [k] } q' :=
        h.write hs hsend (by rw [hhand]; rfl) (fun _ _ hj => hj) h.spare
      exact hw.access hs.proto hp hz
    | false => exact h.access hs.proto hp hz
  | ship | beginDrain | drain =>
    exact (h.life hs (hcalls.moved rfl).2 (steady_of_user BufferOp.noConfusion
      BufferOp.noConfusion fun _ => BufferOp.noConfusion) hlen).congr rfl rfl rfl
  | owner | callObserve =>
    obtain rfl := hcalls.same rfl
    exact h.congr rfl rfl rfl
  | observe i o _ =>
    obtain rfl := hcalls.same rfl
    obtain ⟨h₁, -, -, -, -, h₂, h₃, -⟩ := advance_rest (c := c) i o
    exact h.congr h₁ h₂ h₃

end ClientState

theorem NewClient.sent {c : ClientState} {q : Queue Admission} (h : NewClient c)
    (hs : ClientState.Sound c q) : ClientState.Sent c q := by
  have hitems : q.items = [] := hs.kept.held.items.trans h.log_eq
  have hframes : q.frames = [] := List.map_eq_nil_iff.1 hitems
  have hwindow : q.window = [] := (List.append_eq_nil_iff.1 hframes).2
  have hnext : q.next = 0 := by
    have hle := hs.kept.held.shape.next_le
    rw [hwindow] at hle
    exact Nat.le_zero.1 hle
  have hhand : c.hand = fun _ => .empty := by rw [h.fresh]
  have hwritten : c.written = [] := by rw [h.fresh]
  constructor
  · rw [h.proto_eq]
    exact roles_newClient
  · intro t _
    rw [hhand]
  · intro t k hk
    rw [hhand] at hk
    cases hk
  · exact fun _ _ => hnext
  · constructor
    · exact Queue.covered_zero hnext
    · intro k hk
      rw [hwritten] at hk
      cases hk
    · intro i f hf
      rw [hframes] at hf
      cases hf
    · intro k hk
      rw [hwritten] at hk
      cases hk

/-- The step is an accepted `Ack` that covers the live frame `k`. -/
def ClientStep.Confirms (st : ClientStep) (k : Nat) : Prop :=
  ∃ x, st.act.call st.pre = some x ∧ LifeStep.Confirms ⟨st.pre.buffer, x, st.post.buffer⟩ k

namespace ClientState

variable {encodes : DataMessage → Bool} {c c' c₀ : ClientState} {a : ClientAct} {k : Nat}
variable {q q' : Queue Admission} {tr : List ClientStep}

/-- An accepted acknowledgement removes at least one frame. -/
theorem index_of_confirms {s s' : BufferState} {bb : ByteBudget} {seq : UInt64}
    (hs' : s' = (s.apply bb (.ack seq)).1) (hok : (s.buf.ack bb seq.toNat).2.2 = none)
    (hpres : s.Present k) (hnot : ¬ s'.Present k) :
    sub64 seq.toNat s.buf.firstSeqNum < s.buf.nextIndexFree := by
  have hbuf : s'.buf = (s.buf.ack bb seq.toNat).1 := by rw [hs']; rfl
  have hlog : s'.log = s.log := by rw [hs']; rfl
  have hstep := AckBuffer.ack_step s.buf bb seq.toNat
  generalize s.buf.ack bb seq.toNat = r at hok hbuf hstep
  cases hstep with
  | rejected err => cases hok
  | late _ =>
    refine absurd ?_ hnot
    unfold Present gone at hpres ⊢
    rw [hbuf, hlog]
    exact hpres
  | removed hfree _ => exact hfree

/-- What a step confirms, the peer saw, if it saw what it acknowledges. -/
theorem Sound.confirms (hs : Sound c q) {W H : Nat → Prop} (h : Queue.Trail W H q)
    (hmove : Moved encodes c a c') (hlen : c.buffer.log.length < 2 ^ 64)
    (hpeer : ∀ t seq bb, a = .step t (.message (.ack seq)) bb →
      ∃ k, W k ∧ k % 2 ^ 64 = seq.toNat)
    (hconf : ClientStep.Confirms ⟨c, a, c'⟩ k) : W k := by
  obtain ⟨⟨bb, op'⟩, hcall, op, hop, seq, hseq, hok, hlive, hle, hnot⟩ := hconf
  simp only at hop hseq hok hlive hle hnot
  obtain rfl : op' = .call (.ack seq) := hop.trans (congrArg LifeOp.call hseq)
  -- the peer sent it, and its index is in the buffer
  obtain ⟨t, choice, rfl, hcalled⟩ := call_inside hcall rfl
  have hseen : ∃ k, W k ∧ k % 2 ^ 64 = seq.toNat := by
    cases hcalled with
    | ack _ _ => exact hpeer _ _ _ rfl
  have hbuf : c'.buffer = (c.buffer.apply bb (.ack seq)).1 := by
    rcases hmove.buffer with ⟨hnone, -⟩ | ⟨y, hy, hbuf, -⟩
    · rw [hcall] at hnone
      cases hnone
    · obtain rfl := Option.some.inj (hcall.symm.trans hy)
      exact hbuf
  have hheld := hs.kept.held
  have hi := index_of_confirms hbuf hok hlive.1 hnot
  rw [hheld.shape.slots.free] at hi
  have hsaw := hs.acked h hlen hseen hi
  rw [hheld.gone_eq] at hle
  -- the frame is the acknowledged one, or a live one before it
  obtain ⟨i, f, rfl, hf, hfate⟩ := hheld.live_frame hlive
  rcases Nat.lt_or_eq_of_le hle with hlt | heq
  · exact h.closed _ hsaw i f hf hfate hlt
  · rw [heq]
    exact hsaw

theorem sent_of_run (hnew : NewClient c₀) (hrun : Machine.Run (clientMachine encodes) c₀ tr c)
    (hpeer : ∀ st ∈ tr, PeerAcks st.pre st.act)
    (henc : ∀ st ∈ tr, EncodesNext encodes st.pre st.act)
    (hlen : ∀ st ∈ tr, st.pre.buffer.log.length < 2 ^ 64) : ∃ q, Sound c q ∧ Sent c q := by
  refine hrun.invariant_of (fun c a => PeerAcks c a ∧ EncodesNext encodes c a ∧
    c.buffer.log.length < 2 ^ 64) (fun c => ∃ q, Sound c q ∧ Sent c q) ?_ ?_
    fun st hst => ⟨hpeer st hst, henc st hst, hlen st hst⟩
  · obtain ⟨q, hq⟩ := hnew.sound
    exact ⟨q, hq, hnew.sent hq⟩
  · rintro c a hg ⟨h₁, h₂, h₃⟩ ⟨q, hs, hsent⟩
    have hmove := moved_of_guard hg
    obtain ⟨q', hcalls, hs'⟩ := hs.step hmove
    exact ⟨q', hs', hsent.step hs hmove hcalls h₁ h₂ h₃⟩

end ClientState

/-- The frame of a receipt that reads acknowledged was confirmed. -/
theorem BufferState.Kept.confirmed_of_receipt {s : BufferState} {q : Queue Admission} {k : Nat}
    {r : ReceiptId} (h : Kept s q) (hr : s.receiptOf k = some r)
    (hack : s.buf.receiptAt r = .acknowledged) :
    ∃ i f, k = i + 1 ∧ q.frames[i]? = some f ∧ f.fate = .confirmed := by
  rcases h.cell_at hr with ⟨i, f, hk, hf, _, hcell | ⟨hret, _⟩⟩
  · refine ⟨i, f, hk, hf, ?_⟩
    rw [hack] at hcell
    cases hfate : f.fate with
    | confirmed => rfl
    | live | retired =>
      rw [hfate] at hcell
      cases hcell
  · rw [hack] at hret
    cases hret

/-- In every run with a peer that acknowledges only what it received, in which every frame
that a sender takes can be encoded (and with fewer than `2 ^ 64` admissions), every message
that an acknowledgement confirms was written to a connection before, and so was the message
of every receipt that reads `ReceiptAcknowledged`. -/
theorem confirmed_was_written {encodes : DataMessage → Bool} {c₀ c : ClientState}
    {tr : List ClientStep} (hnew : NewClient c₀)
    (hrun : Machine.Run (clientMachine encodes) c₀ tr c)
    (hpeer : ∀ st ∈ tr, PeerAcks st.pre st.act)
    (henc : ∀ st ∈ tr, EncodesNext encodes st.pre st.act)
    (hlen : ∀ st ∈ tr, st.pre.buffer.log.length < 2 ^ 64) :
    (∀ st ∈ tr, ∀ k, ClientStep.Confirms st k → k ∈ st.pre.written) ∧
    ∀ k r, c.buffer.receiptOf k = some r → c.buffer.buf.receiptAt r = .acknowledged →
      k ∈ c.written := by
  constructor
  · rintro ⟨pre, act, post⟩ hst k hconf
    obtain ⟨tr', hrun', hg, hpost, hprefix⟩ := hrun.step_of_mem hst
    have hsub : ∀ st ∈ tr', st ∈ tr := fun st hmem =>
      hprefix.subset (List.mem_append_left _ hmem)
    obtain ⟨q, hs, hsent⟩ := ClientState.sent_of_run hnew hrun'
      (fun st hmem => hpeer st (hsub st hmem)) (fun st hmem => henc st (hsub st hmem))
      (fun st hmem => hlen st (hsub st hmem))
    simp only at hg hpost
    have hmove := ClientState.moved_of_guard hg
    rw [← hpost] at hmove
    refine hs.confirms hsent.trail hmove (hlen _ hst) ?_ hconf
    rintro t seq bb rfl
    exact hpeer _ hst
  · intro k r hr hack
    obtain ⟨q, hs, hsent⟩ := ClientState.sent_of_run hnew hrun hpeer henc hlen
    obtain ⟨i, f, rfl, hf, hconf⟩ := hs.kept.confirmed_of_receipt hr hack
    exact hsent.trail.confirmed i f hf hconf

/-- A payload that cannot be encoded. -/
def unencodable : DataMessage := { textPayload := [0] }

/-- Three messages are shipped, the second with receipt 0. The sender goes through the
buffer, and the peer acknowledges the third message. -/
def shipThree (second : DataMessage) (sent : List ClientAct) : List ClientAct :=
  let bb := newByteBudget 0
  [.ship bb {} none none 0, .ship bb second none (some 0) 0, .ship bb {} none none 0,
    .step 0 .go bb, .step 1 .go bb, .deliver 1 bb, .encode 1, .write 1 true true] ++
  [.deliver 1 bb, .encode 1] ++ sent ++
  [.deliver 1 bb, .encode 1, .write 1 true true, .step 0 (.message (.ack 3)) bb]

/-- All three are written, and the receipt of the second reads acknowledged. -/
theorem three_written :
    let c := (clientMachine fun m => m.textPayload.isEmpty).exec wideClient
      (shipThree {} [.write 1 true true])
    c.buffer.receiptOf 2 = some 0 ∧ c.buffer.buf.receiptAt 0 = .acknowledged ∧ 2 ∈ c.written := by
  intro c
  have hrun : Machine.Run (clientMachine fun m => m.textPayload.isEmpty) wideClient _ c :=
    Machine.run_exec _ (by decide +kernel)
  have hreceipt : c.buffer.receiptOf 2 = some 0 := by decide +kernel
  have hack : c.buffer.buf.receiptAt 0 = .acknowledged := by decide +kernel
  exact ⟨hreceipt, hack, (confirmed_was_written wideClient_new hrun (by decide +kernel)
    (by decide +kernel) (by decide +kernel)).2 2 0 hreceipt hack⟩

/-- The second message cannot be encoded: it is never written, and confirmed. -/
theorem unencodable_confirmed : ∃ tr c, NewClient wideClient ∧
    Machine.Run (clientMachine fun m => m.textPayload.isEmpty) wideClient tr c ∧
    (∀ st ∈ tr, PeerAcks st.pre st.act) ∧ c.buffer.receiptOf 2 = some 0 ∧
    c.buffer.buf.receiptAt 0 = .acknowledged ∧ 2 ∉ c.written := by
  refine ⟨_, _, wideClient_new, Machine.run_exec (shipThree unencodable []) (by decide +kernel), ?_⟩
  decide +kernel

end UspClient
