import UspClient.Client.Model
import UspClient.Buffer.Cells

/-!
# What a step of a client does

`Moved` lists the steps of a client, each with the condition under which it is made. Every
step makes at most one call on the buffer and at most one access of the protocol, so the
invariants of both carry over (`Sound`): the protocol of the goroutines, the queue behind
the buffer with its receipt cells, and that a `Close` past its call of `AckBuffer.Close`
finds the buffer sealed.
-/

namespace UspClient

open Function Replay Protocol BufferState

/-- The call on the buffer that a step of the client makes. -/
def ClientAct.call (c : ClientState) : ClientAct → Option LifeAct
  | .step t choice bb => ((c.proto.pc t).call choice).map fun op => ⟨bb, op⟩
  | .deliver _ bb => some ⟨bb, .call .getNextToDeliver⟩
  | .ship bb e waiter receipt maxTransmissions =>
    some ⟨bb, .call (.add e (c.buffer.buf.addSize e) waiter receipt maxTransmissions)⟩
  | .beginDrain => some (solo .beginDrain)
  | .drain first ctxDone => some (solo (.drain first ctxDone))
  | _ => none

/-- The calls of the goroutines on the buffer. -/
inductive Pc.Called (a : Pc) : Choice → LifeOp → Prop where
  | updateCapacity (choice : Choice) (n : UInt64) : Called a choice (.call (.updateCapacity n))
  | resetDelivery : a = .resetDelivery → Called a .go (.call .resetDelivery)
  | ack (seq : UInt64) : (a = .handshake ∨ ∃ w, a = .work w) →
      Called a (.message (.ack seq)) (.call (.ack seq))
  | close : a = .closeBuffer → Called a .go (.call .close)
  | detach : a = .closeDetach → Called a .go .releaseReceiptTracking

theorem Pc.called {a : Pc} {choice : Choice} {op : LifeOp} (h : a.call choice = some op) :
    Called a choice op := by
  have hcontrol : ∀ m : ControlMessage, (a = .handshake ∨ ∃ w, a = .work w) →
      m.call = some op → Called a (.message m) op := by
    intro m ha hm
    cases m with
    | ack seq =>
      cases hm
      exact .ack seq ha
    | flow n =>
      cases hm
      exact .updateCapacity _ n
    | _ => cases hm
  unfold Pc.call at h
  split at h
  · cases h
    exact .updateCapacity _ 1
  · cases h
    exact .resetDelivery rfl
  · exact hcontrol _ (.inl rfl) h
  · exact hcontrol _ (.inr ⟨_, rfl⟩) h
  · cases h
    exact .close rfl
  · cases h
    exact .detach rfl
  · cases h

namespace Protocol

variable {p p' : Protocol} {t u : Nat} {c : Choice} {f : Pc → Bool} {e d : Pc}

theorem spawn_class (hd : f d = false) (hu : f ((p.spawn d).pc u) = true) : f (p.pc u) = true := by
  rw [spawn_pc] at hu
  split_ifs at hu
  · rw [hd] at hu
    cases hu
  · exact hu

/-- A class that no goroutine starts in is entered by the goroutine that moves. -/
theorem step_class (hs : p.step t c = some p')
    (hf : ∀ p₁ b, Effect p p₁ (p.pc t) b → f b = true → f (p.pc t) = true ∨ p.pc t = e)
    (hset : f .setStop = false) (hwait : ∀ w, f (.waitStart w) = false)
    (hu : f (p'.pc u) = true) : f (p.pc u) = true ∨ (u = t ∧ p.pc t = e) := by
  obtain ⟨p₁, b, heff, hp⟩ := step_effect hs
  have hgoto : f ((p₁.goto t b).pc u) = true → f (p.pc u) = true ∨ (u = t ∧ p.pc t = e) := by
    rw [goto_pc, heff.pc]
    split_ifs with hut
    · intro hb
      rw [hut]
      exact (hf p₁ b heff hb).imp id fun he => ⟨rfl, he⟩
    · exact .inl
  rcases hp with ⟨rfl, -⟩ | ⟨d, hd, rfl⟩
  · exact hgoto hu
  · refine hgoto (spawn_class ?_ hu)
    cases hd with
    | owner => exact hset
    | worker k => exact hwait _

/-- The accesses of a `Close` and of a reset do not depend on the environment. -/
def plain : Pc → Bool
  | .resetDelivery | .closeBuffer | .closeCollect | .closeDetach | .closeFinish => true
  | _ => false

theorem step_plain (hs : p.step t c = some p') (h : plain (p.pc t) = true) : c = .go := by
  unfold plain at h
  split at h
  case h_6 => cases h
  all_goals
    rename_i hpc
    unfold step at hs
    rw [hpc] at hs
    cases c <;> first | rfl | cases hs

theorem step_isClosing (hs : p.step t c = some p') (h : p.isClosing = true) :
    p'.isClosing = true := by
  obtain ⟨p₁, b, heff, hp⟩ := step_effect hs
  rcases hp with ⟨rfl, -⟩ | ⟨d, -, rfl⟩
  · exact heff.isClosing h
  · exact heff.isClosing h

end Protocol

namespace ClientState

variable {encodes : DataMessage → Bool} {c c' c₀ : ClientState} {a : ClientAct}
variable {q q' : Queue Admission} {tr : List ClientStep}

/-- The steps of a client. -/
inductive Moved (encodes : DataMessage → Bool) (c : ClientState) : ClientAct → ClientState → Prop where
  | callClose : Moved encodes c .callClose { c with proto := c.proto.spawn .closeStore }
  | callReconnect :
      Moved encodes c .callReconnect { c with proto := c.proto.spawn (.loadClosing .user) }
  | step (t : Nat) (choice : Choice) (bb : ByteBudget) (p : Protocol) : c.free t choice = true →
      c.proto.step t choice = some p → Moved encodes c (.step t choice bb)
        { c.stores t with proto := p, buffer := c.buffer.calls bb ((c.proto.pc t).call choice) }
  | deliver (t : Nat) (bb : ByteBudget) (h : Hand) : c.sending t = true → c.hand t = .empty →
      (match (c.buffer.buf.getNextToDeliver bb).2.2.frame with
        | some m => h = .message (c.buffer.apply bb .getNextToDeliver).1.lastHanded m
        | none => h = .empty) →
      Moved encodes c (.deliver t bb)
        { c with
          buffer := (c.buffer.apply bb .getNextToDeliver).1
          hand := update c.hand t h }
  | encode (t k : Nat) (m : DataMessage) : c.sending t = true → c.hand t = .message k m →
      Moved encodes c (.encode t)
        { c with hand := update c.hand t (if encodes m then .encoded k else .empty) }
  | write (t k : Nat) (reached : Bool) : c.sending t = true → c.hand t = .encoded k →
      Moved encodes c (.write t true reached)
        { c with hand := update c.hand t .empty, written := c.written ++ [k] }
  | fail (t k : Nat) (reached : Bool) (p : Protocol) : c.sending t = true →
      c.hand t = .encoded k → c.proto.step t .fail = some p →
      Moved encodes c (.write t false reached)
        { c with proto := p, written := if reached then c.written ++ [k] else c.written }
  | ship (bb : ByteBudget) (e : DataMessage) (waiter : Option WaiterId)
      (receipt : Option ReceiptId) (m : UInt32) :
      c.buffer.NewCell (.add e (c.buffer.buf.addSize e) waiter receipt m) →
      Moved encodes c (.ship bb e waiter receipt m)
        { c with buffer :=
            (c.buffer.apply bb (.add e (c.buffer.buf.addSize e) waiter receipt m)).1 }
  | beginDrain : Moved encodes c .beginDrain
      { c with buffer := { c.buffer with buf := c.buffer.buf.beginDrain } }
  | drain (first ctxDone : Bool) : Moved encodes c (.drain first ctxDone)
      { c with buffer := { c.buffer with buf := (c.buffer.buf.drainSection first ctxDone).1 } }
  | owner (r : ReceiptId) : (∃ x ∈ c.buffer.log, x.receipt = some r) →
      Moved encodes c (.admissionReceiptOwner r)
        { c with
          receipts := r :: c.receipts
          receiptOwner := some (c.receiptOwner.getD c.newOwner) }
  | callObserve (i : Nat) (r : ReceiptId) : c.observers i = none → r ∈ c.receipts →
      Moved encodes c (.callObserve i r)
        { c with
          observers := update c.observers i (some ⟨r, c.observed.length, .loadOwner⟩) }
  | observe (i : Nat) (o : Observer) : c.observers i = some o →
      Moved encodes c (.observe i) (c.advance i o)

theorem moved_of_act (h : c.act encodes a = some c') : Moved encodes c a c' := by
  cases a with
  | callClose =>
    cases h
    exact .callClose
  | callReconnect =>
    cases h
    exact .callReconnect
  | step t choice bb =>
    simp only [act] at h
    split_ifs at h with hfree
    obtain ⟨p, hp, rfl⟩ := Option.map_eq_some_iff.1 h
    exact .step t choice bb p hfree hp
  | deliver t bb =>
    simp only [act] at h
    split at h
    case h_1 hsend hhand =>
      cases h
      -- with no frame the hand stays empty
      refine .deliver t bb _ hsend hhand ?_
      cases (c.buffer.buf.getNextToDeliver bb).2.2.frame <;> rfl
    case h_2 => cases h
  | encode t =>
    simp only [act] at h
    split at h
    case h_1 k m hsend hhand =>
      cases h
      exact .encode t k m hsend hhand
    case h_2 => cases h
  | write t ok reached =>
    simp only [act] at h
    split at h
    case h_1 k hsend hhand =>
      cases ok with
      | true =>
        cases h
        exact .write t k reached hsend hhand
      -- a failed write is a step of the protocol too: the sender goes to `Reconnect`
      | false =>
        obtain ⟨p, hp, rfl⟩ := Option.map_eq_some_iff.1 h
        exact .fail t k reached p hsend hhand hp
    case h_2 => cases h
  | ship bb e waiter receipt m =>
    simp only [act] at h
    split_ifs at h with hnew
    cases h
    exact .ship bb e waiter receipt m hnew
  | beginDrain =>
    cases h
    exact .beginDrain
  | drain first ctxDone =>
    cases h
    exact .drain first ctxDone
  | admissionReceiptOwner r =>
    simp only [act] at h
    split_ifs at h with hany
    cases h
    refine .owner r ?_
    obtain ⟨x, hx, hr⟩ := List.any_eq_true.1 hany
    exact ⟨x, hx, of_decide_eq_true hr⟩
  | callObserve i r =>
    simp only [act] at h
    split_ifs at h with hcond
    cases h
    exact .callObserve i r hcond.1 hcond.2
  | observe i =>
    obtain ⟨o, ho, rfl⟩ := Option.map_eq_some_iff.1 h
    exact .observe i o ho

theorem moved_of_guard (hg : (clientMachine encodes).guard c a) :
    Moved encodes c a ((clientMachine encodes).next c a) := by
  obtain ⟨c', hc'⟩ := Option.isSome_iff_exists.1 hg
  have hnext : (clientMachine encodes).next c a = c' := by
    show (c.act encodes a).getD c = c'
    rw [hc']
    rfl
  rw [hnext]
  exact moved_of_act hc'

/-! ## The protocol and the buffer of a client -/

theorem advance_rest (i : Nat) (o : Observer) : (c.advance i o).proto = c.proto ∧
    (c.advance i o).buffer = c.buffer ∧ (c.advance i o).receipts = c.receipts ∧
    (c.advance i o).receiptOwner = c.receiptOwner ∧
    (c.advance i o).receiptLifetime = c.receiptLifetime ∧
    (c.advance i o).hand = c.hand ∧ (c.advance i o).written = c.written ∧
    (c.advance i o).messages = c.messages ∧ (c.advance i o).unacked = c.unacked := by
  unfold advance
  split <;> exact ⟨rfl, rfl, rfl, rfl, rfl, rfl, rfl, rfl, rfl⟩

/-- A step makes at most one access of the protocol. -/
theorem Moved.proto (h : Moved encodes c a c') :
    c'.proto = c.proto ∨ ∃ pa, c.proto.act pa = some c'.proto := by
  cases h with
  | callClose => exact .inr ⟨.callClose, rfl⟩
  | callReconnect => exact .inr ⟨.callReconnect, rfl⟩
  | step t choice bb p _ hp => exact .inr ⟨.step t choice, hp⟩
  | fail t k reached p _ _ hp => exact .inr ⟨.step t .fail, hp⟩
  | observe i o _ => exact .inl (advance_rest i o).1
  | _ => exact .inl rfl

/-- A step makes at most one call on the buffer. -/
theorem Moved.buffer (h : Moved encodes c a c') :
    (a.call c = none ∧ c'.buffer = c.buffer) ∨
      ∃ x, a.call c = some x ∧ c'.buffer = lifeMachine.next c.buffer x ∧ c.buffer.OwnCell x.op ∧
        (x.op ≠ .releaseReceiptTracking → c.buffer.Allows x.op) := by
  cases h with
  | step t choice bb p _ _ =>
    cases hcall : (c.proto.pc t).call choice with
    | none => exact .inl ⟨by rw [ClientAct.call, hcall]; rfl, rfl⟩
    | some op =>
      refine .inr ⟨⟨bb, op⟩, by rw [ClientAct.call, hcall]; rfl, rfl, ?_⟩
      cases Pc.called hcall with
      | detach => exact ⟨trivial, fun hne => absurd rfl hne⟩
      | _ => exact ⟨trivial, fun _ => trivial⟩
  | deliver | beginDrain | drain => exact .inr ⟨_, rfl, rfl, trivial, fun _ => trivial⟩
  | ship bb e waiter receipt m hnew => exact .inr ⟨_, rfl, rfl, hnew, fun _ => rfl⟩
  | observe i o _ => exact .inl ⟨rfl, (advance_rest i o).2.1⟩
  | _ => exact .inl ⟨rfl, rfl⟩

/-- The calls that goroutines of the protocol do not make. -/
def outside : LifeOp → Bool
  | .call (.add ..) | .call .getNextToDeliver | .call .beginDrain | .call (.drain ..) => true
  | _ => false

theorem call_cases {x : LifeAct} (hcall : a.call c = some x) : outside x.op = true ∨
    ∃ t choice, a = .step t choice x.bb ∧ Pc.Called (c.proto.pc t) choice x.op := by
  cases a with
  | step t choice bb =>
    obtain ⟨op, hop, rfl⟩ := Option.map_eq_some_iff.1 hcall
    exact .inr ⟨t, choice, rfl, Pc.called hop⟩
  | deliver | ship | beginDrain | drain =>
    cases hcall
    exact .inl rfl
  | _ => cases hcall

/-- Every other call is made by an access of a goroutine. -/
theorem call_inside {x : LifeAct} (hcall : a.call c = some x) (hx : outside x.op = false) :
    ∃ t choice, a = .step t choice x.bb ∧ Pc.Called (c.proto.pc t) choice x.op := by
  refine (call_cases hcall).resolve_left ?_
  rw [hx]
  exact Bool.false_ne_true

/-- A class of program counters that no goroutine starts in is entered by an access. -/
theorem Moved.class (h : Moved encodes c a c') {f : Pc → Bool} {e : Pc}
    (hf : ∀ t p₁ b, Effect c.proto p₁ (c.proto.pc t) b → f b = true →
      f (c.proto.pc t) = true ∨ c.proto.pc t = e)
    (hstart : f .setStop = false ∧ (∀ w, f (.waitStart w) = false) ∧ f .closeStore = false ∧
      f (.loadClosing .user) = false) (he : plain e = true) {u : Nat}
    (hu : f (c'.proto.pc u) = true) :
    f (c.proto.pc u) = true ∨ ∃ bb, a = .step u .go bb ∧ c.proto.pc u = e := by
  obtain ⟨h₁, h₂, h₃, h₄⟩ := hstart
  cases h with
  | callClose => exact .inl (spawn_class h₃ hu)
  | callReconnect => exact .inl (spawn_class h₄ hu)
  | step t choice bb p _ hp =>
    rcases step_class hp (hf t) h₁ h₂ hu with hold | ⟨rfl, hpc⟩
    · exact .inl hold
    · obtain rfl := step_plain hp (by rw [hpc]; exact he)
      exact .inr ⟨bb, rfl, hpc⟩
  | fail t k reached p hsend _ hp =>
    rcases step_class hp (hf t) h₁ h₂ hu with hold | ⟨rfl, hpc⟩
    · exact .inl hold
    · -- a sender that fails is in its loop
      unfold sending at hsend
      split at hsend
      case h_1 w hw =>
        rw [← hpc, hw] at he
        cases he
      case h_2 => cases hsend
  | observe i o _ =>
    rw [(advance_rest i o).1] at hu
    exact .inl hu
  | _ => exact .inl hu

/-! ## The invariants that carry over -/

structure Sound (c : ClientState) (q : Queue Admission) : Prop where
  proto : Inv c.proto
  kept : Kept c.buffer q
  sealed : ∀ t, (c.proto.pc t).sealed = true → c.buffer.buf.isRunning = false

/-- What a step does to the queue. -/
inductive Calls (c : ClientState) (q : Queue Admission) (a : ClientAct) (c' : ClientState) :
    Queue Admission → Prop where
  | silent : a.call c = none → c'.buffer = c.buffer → Calls c q a c' q
  | called (x : LifeAct) (q' : Queue Admission) : a.call c = some x →
      c'.buffer = lifeMachine.next c.buffer x → KeptStep c.buffer q x q' →
      Calls c q a c' q'

theorem Calls.same (h : Calls c q a c' q') (ha : a.call c = none) : q' = q := by
  cases h with
  | silent => rfl
  | called x q' hx =>
    rw [ha] at hx
    cases hx

theorem Calls.moved (h : Calls c q a c' q') {x : LifeAct} (ha : a.call c = some x) :
    c'.buffer = lifeMachine.next c.buffer x ∧ KeptStep c.buffer q x q' := by
  cases h with
  | silent hx =>
    rw [ha] at hx
    cases hx
  | called y q' hy hbuf hkept =>
    obtain rfl := Option.some.inj (ha.symm.trans hy)
    exact ⟨hbuf, hkept⟩

theorem Sound.step (h : Sound c q) (hmove : Moved encodes c a c') :
    ∃ q', Calls c q a c' q' ∧ Sound c' q' := by
  have hproto : Inv c'.proto := by
    rcases hmove.proto with hsame | ⟨pa, hpa⟩
    · rw [hsame]
      exact h.proto
    · exact h.proto.act hpa
  have hseal := fun (u : Nat) (hu : (c'.proto.pc u).sealed = true) =>
    hmove.class (f := Pc.sealed) (e := .closeBuffer) (fun t p₁ b heff => heff.sealed)
      ⟨rfl, fun _ => rfl, rfl, rfl⟩ rfl hu
  rcases hmove.buffer with ⟨hcall, hbuf⟩ | ⟨x, hcall, hbuf, hown, hallow⟩
  · refine ⟨q, .silent hcall hbuf, hproto, hbuf.symm ▸ h.kept, fun u hu => ?_⟩
    rcases hseal u hu with hold | ⟨bb, rfl, hpc⟩
    · rw [hbuf]
      exact h.sealed u hold
    · rw [ClientAct.call, hpc] at hcall
      cases hcall
  · have hok : c.buffer.Allows x.op := by
      by_cases hrel : x.op = .releaseReceiptTracking
      · obtain ⟨t, choice, -, hcalled⟩ := call_inside hcall (by rw [hrel]; rfl)
        rw [hrel] at hcalled ⊢
        cases hcalled with
        | detach hpc => exact h.sealed t (by rw [hpc]; rfl)
      · exact hallow hrel
    obtain ⟨q', hkept⟩ := h.kept.step hok hown
    refine ⟨q', .called x q' hcall hbuf hkept, hproto, hbuf.symm ▸ hkept.kept, fun u hu => ?_⟩
    rcases hseal u hu with hold | ⟨bb, rfl, hpc⟩
    · rw [hbuf]
      exact h.kept.life.sealed_step (h.sealed u hold) x
    · rw [ClientAct.call, hpc] at hcall
      cases hcall
      rw [hbuf]
      rfl

end ClientState

/-! ## A new client -/

section NewClient

variable {c : ClientState}

theorem NewClient.proto_eq (h : NewClient c) : c.proto = newClient := by
  rw [h.fresh]

theorem NewClient.log_eq (h : NewClient c) : c.buffer.log = [] := by
  obtain ⟨s, bb, m, hs, hbuf⟩ := h.buffer
  rw [hbuf, ← hs.log]
  cases m <;> rfl

theorem newClient_class {f : Pc → Bool} (hidle : f .idle = false)
    (hwait : ∀ w, f (.waitStart w) = false) (t : Nat) : f (newClient.pc t) = false := by
  unfold newClient
  simp only [spawn_pc]
  split_ifs
  · exact hwait _
  · exact hwait _
  · exact hwait _
  · exact hidle

/-- The message of the first handshake came to an empty buffer. -/
theorem NewClient.chronicle (h : NewClient c) : ∃ tr q, Chronicle tr c.buffer q ∧
    AckBuffer.Cells c.buffer.buf q ∧ OwnCells c.buffer.log := by
  obtain ⟨s, bb, m, hs, hbuf⟩ := h.buffer
  have hc := FreshBuffer.chronicle hs
  obtain ⟨hcells, hown⟩ := FreshBuffer.cells hs
  have hcall : ∀ op, s.NewCell op → ∃ tr q, Chronicle tr (s.live ⟨bb, .call op⟩) q ∧
      AckBuffer.Cells (s.live ⟨bb, .call op⟩).buf q ∧
      OwnCells (s.live ⟨bb, .call op⟩).log := by
    intro op hnew
    obtain ⟨q, hstep, hc'⟩ := hc.step ⟨bb, op⟩
    obtain ⟨hcells', hown'⟩ := hc.tracks.cells hcells hown hnew hstep
    exact ⟨_, q, hc', hcells', hown'⟩
  rw [hbuf]
  cases m with
  | ack seq => exact hcall (.ack seq) trivial
  | flow n => exact hcall (.updateCapacity n) trivial
  | _ => exact ⟨[], {}, hc, hcells, hown⟩

theorem NewClient.sound (h : NewClient c) : ∃ q, ClientState.Sound c q := by
  obtain ⟨-, q, ⟨ht, -⟩, hcells, hown⟩ := h.chronicle
  refine ⟨q, ?_, ⟨fun _ => ⟨ht.refines, hcells⟩, hcells.late, ht.held, hown⟩, ?_⟩
  · rw [h.proto_eq]
    exact inv_newClient
  · intro t ht
    rw [h.proto_eq, newClient_class (f := Pc.sealed) rfl fun _ => rfl] at ht
    cases ht

end NewClient

/-- A new client whose first handshake opened a window of four frames. -/
def wideClient : ClientState where
  proto := newClient
  buffer := plainBuffer.calls (newByteBudget 0) (ControlMessage.call (.flow 4))

theorem wideClient_new : NewClient wideClient :=
  ⟨⟨plainBuffer, newByteBudget 0, .flow 4, plainBuffer_fresh, rfl⟩, rfl⟩

end UspClient
