import UspClient.Buffer.Requests
import UspClient.Client.Observe

/-!
# The messages `Close` returns and their receipts

`Close` takes three locked steps after its join: it collects the messages that are still
live, it detaches the receipts, and it stores the lifetime `closed`. A frame is live exactly
if its cell is retained as long as no ACK finds the receipts detached, and after the join
there is nobody left to process one (`Exact`). From the collection on the cells stay as they
are (`Collected`), with one exception: the goroutine of a reconnect that began before may
still call `ResetDelivery`, which retires the live frames that used up their limit.

* `leftovers_agree`: unless such a call finds one, a message is in the slice exactly if its receipt
  reads `ReceiptClosedUnconfirmed`.
* `returned_and_retired`: with it, a message is returned whose receipt reads retired.
-/

namespace UspClient

open Function Replay BufferState

variable {encodes : DataMessage → Bool} {c c' c₀ : ClientState} {a : ClientAct} {t : Nat}
variable {q q' : Queue Admission} {r : ReceiptId} {tr : List ClientStep}

theorem Pc.collected_of_taken {a : Pc} (h : a.taken = true) : a.collected = true := by
  cases a <;> first | rfl | exact h

theorem Pc.sealed_of_taken {a : Pc} (h : a.taken = true) : a.sealed = true := by
  cases a <;> first | rfl | cases h

theorem Pc.taken_of_detached {a : Pc} (h : a.detached = true) : a.taken = true := by
  cases a <;> first | rfl | exact h

/-- A `Close` that collected its messages is about to detach the receipts, or has done so. -/
theorem Pc.detached_of_taken {a : Pc} (h : a.taken = true) : a = .closeDetach ∨ a.detached = true := by
  cases a <;> first | exact .inl rfl | exact .inr h

/-- A `Close` does not go back. -/
theorem Protocol.Inv.detached_stays {p p' : Protocol} {pa : ProtocolAct} (h : Protocol.Inv p)
    (hact : p.act pa = some p') (ht : (p.pc t).detached = true) : (p'.pc t).detached = true := by
  by_cases hown : ∃ choice, pa = .step t choice
  · obtain ⟨choice, rfl⟩ := hown
    have hstep : p.step t choice = some p' := hact
    unfold Protocol.step at hstep
    cases hpc : p.pc t with
    | closeFinish =>
      rw [hpc] at hstep
      cases choice with
      | go =>
        cases hstep
        rw [Protocol.goto_pc, if_pos rfl]
        rfl
      | _ => cases hstep
    | closed =>
      rw [hpc] at hstep
      cases hstep
    | _ =>
      rw [hpc] at ht
      cases ht
  · have hlt : t < p.spawned := h.lt_spawned fun hidle => by
      rw [hidle] at ht
      cases ht
    rw [Protocol.act_other hact (fun choice heq => hown ⟨choice, heq⟩) hlt]
    exact ht

theorem BufferState.receiptOf_congr {s s' : BufferState} (hlog : s'.log = s.log) :
    s'.receiptOf = s.receiptOf := by
  funext k
  cases k with
  | zero => rfl
  | succ k =>
    show s'.log[k]?.bind Admission.receipt = s.log[k]?.bind Admission.receipt
    rw [hlog]

namespace ClientState

/-- No `ResetDelivery` finds a live frame that used up its limit while a `Close` is between
collecting its messages and detaching the receipts, unless another `Close` has detached them. -/
def ResetApart (c : ClientState) : ClientAct → Prop
  | .step t _ _ => ¬ (c.proto.pc t = .resetDelivery ∧
      (∃ u < c.proto.spawned, c.proto.pc u = .closeDetach) ∧
      (∀ u < c.proto.spawned, (c.proto.pc u).detached = false) ∧
      ∃ k ∈ c.buffer.liveNumbers, c.buffer.Exhausted k)
  | _ => True

instance (c : ClientState) (a : ClientAct) : Decidable (c.ResetApart a) :=
  match a with
  | .step t _ _ => inferInstanceAs (Decidable (¬ (c.proto.pc t = .resetDelivery ∧
      (∃ u < c.proto.spawned, c.proto.pc u = .closeDetach) ∧
      (∀ u < c.proto.spawned, (c.proto.pc u).detached = false) ∧
      ∃ k ∈ c.buffer.liveNumbers, c.buffer.Exhausted k)))
  | .callClose | .callReconnect | .deliver .. | .encode _ | .write .. | .ship .. | .beginDrain
  | .drain .. | .admissionReceiptOwner _ | .callObserve .. | .observe _ => isTrue trivial

/-! ## Cells and fates -/

/-- The cells tell exactly the fates, also after the release. -/
structure Exact (c : ClientState) (q : Queue Admission) : Prop where
  held : Held c.buffer q
  own : OwnCells c.buffer.log
  cells : AckBuffer.Cells c.buffer.buf q
  attached : (∀ t, (c.proto.pc t).detached = false) → ∃ tr, Chronicle tr c.buffer q

/-- After the join of a `Close` nobody processes an ACK. -/
theorem Sound.no_ack (h : Sound c q) (ht : (c.proto.pc t).collected = true) {x : LifeAct}
    (hcall : a.call c = some x) (seq : UInt64) : x.op ≠ .call (.ack seq) := by
  intro hop
  obtain ⟨u, choice, -, hcalled⟩ := call_inside hcall (by rw [hop]; rfl)
  rw [hop] at hcalled
  obtain ⟨hconnecting, hworker⟩ := h.proto.collected t u ht
  cases hcalled with
  | ack _ hpc =>
    rcases hpc with hpc | ⟨w, hpc⟩
    · rw [hpc] at hconnecting
      cases hconnecting
    · rw [hpc] at hworker
      cases hworker

theorem Sound.detached_stays (h : Sound c q) (hmove : Moved encodes c a c')
    (ht : (c.proto.pc t).detached = true) : (c'.proto.pc t).detached = true := by
  rcases hmove.proto with hsame | ⟨pa, hpa⟩
  · rw [hsame]
    exact ht
  · exact h.proto.detached_stays hpa ht

theorem Exact.step {q₀ : Queue Admission} (h : Exact c q) (hs : Sound c q₀) (hl : Lifetime c)
    (hmove : Moved encodes c a c') : ∃ q', Exact c' q' := by
  -- as long as nobody has detached the receipts, nobody had
  have hbefore : (∀ u, (c'.proto.pc u).detached = false) →
      ∀ u, (c.proto.pc u).detached = false := by
    intro hnone u
    by_contra hu
    rw [Bool.not_eq_false] at hu
    have hu' := hs.detached_stays hmove hu
    rw [hnone u] at hu'
    cases hu'
  rcases hmove.buffer with ⟨-, hbuf⟩ | ⟨x, hcall, hbuf, hown, -⟩
  · refine ⟨q, hbuf.symm ▸ h.held, hbuf.symm ▸ h.own, hbuf.symm ▸ h.cells, fun hnone => ?_⟩
    rw [hbuf]
    exact h.attached (hbefore hnone)
  · by_cases hdet : ∃ t, (c.proto.pc t).detached = true
    · obtain ⟨t, ht⟩ := hdet
      have hrel := hl.detached t ht
      have hkept : Kept c.buffer q :=
        ⟨fun hnot => absurd hrel hnot, h.cells.late, h.held, h.own⟩
      obtain ⟨q', hstep⟩ := hkept.step_released hrel x
      have hcells := hstep.cells_exact hrel h.cells
        (hs.no_ack (Pc.collected_of_taken (Pc.taken_of_detached ht)) hcall)
      refine ⟨q', hbuf ▸ hstep.kept.held, hbuf ▸ hstep.kept.own, hbuf ▸ hcells, fun hnone => ?_⟩
      rw [hbefore hnone t] at ht
      cases ht
    · obtain ⟨trb, hc⟩ := h.attached fun u => by
        rw [← Bool.not_eq_true]
        exact fun hu => hdet ⟨u, hu⟩
      obtain ⟨bb, op⟩ := x
      cases op with
      | releaseReceiptTracking =>
        obtain ⟨t, choice, rfl, hcalled⟩ := call_inside hcall rfl
        have hdetached : (c'.proto.pc t).detached = true := by
          cases hcalled with
          | detach hpc =>
            cases hmove with
            | step _ _ _ p _ hp =>
              unfold Protocol.step at hp
              rw [hpc] at hp
              cases hp
              rw [Protocol.goto_pc, if_pos rfl]
              rfl
        refine ⟨q, ?_, ?_, ?_, fun hnone => ?_⟩
        · rw [hbuf]
          exact ⟨h.held.shape.congr rfl rfl rfl, h.held.items⟩
        · rw [hbuf]
          exact h.own
        · rw [hbuf]
          exact h.cells
        · rw [hnone t] at hdetached
          cases hdetached
      | call op =>
        obtain ⟨q', hstep, hc'⟩ := hc.step ⟨bb, op⟩
        obtain ⟨hcells, hown'⟩ := hc.tracks.cells (a := ⟨bb, op⟩) h.cells h.own hown hstep
        rw [← show c'.buffer = bufferMachine.next c.buffer ⟨bb, op⟩ from hbuf] at hc' hcells hown'
        exact ⟨q', hc'.tracks.held, hown', hcells, fun _ => ⟨_, hc'⟩⟩

/-! ## The slice of a `Close` -/

/-- The messages a `Close` collected are those whose cells are retained. -/
structure Collected (c : ClientState) : Prop where
  messages : ∀ t, (c.proto.pc t).taken = true →
    c.messages t = (c.unacked t).map c.buffer.storedAt
  unacked : ∀ t, (c.proto.pc t).taken = true → ∀ k r, c.buffer.receiptOf k = some r →
    (k ∈ c.unacked t ↔ c.cell r = .retained)

theorem Exact.live_iff (h : Exact c q) {k : Nat} (hr : c.buffer.receiptOf k = some r) :
    k ∈ c.buffer.liveNumbers ↔ c.cell r = .retained := by
  cases k with
  | zero => cases hr
  | succ i =>
    obtain ⟨adm, hadm, hrec⟩ := Option.bind_eq_some_iff.1 hr
    have hlt := (List.getElem?_eq_some_iff.1 hadm).1
    obtain ⟨f, hf⟩ := h.held.frame_at hlt
    have hitem := h.held.item_at hf
    rw [hadm] at hitem
    have hcell := h.cells i f r hf (by rw [← Option.some.inj hitem]; exact hrec)
    unfold cell
    rw [mem_liveNumbers, h.held.live_iff hf, hcell]
    constructor
    · intro hlive
      rw [hlive]
      rfl
    · intro hret
      cases hfate : f.fate with
      | live => rfl
      | confirmed | retired =>
        rw [hfate] at hret
        cases hret

/-- From the collection on, log and cells stay. -/
theorem Sound.taken_stays {q₀ q₁ : Queue Admission} (hs : Sound c q) (hl : Lifetime c)
    (he : Exact c q₀) (he' : Exact c' q₁) (hcalls : Calls c q a c' q')
    (hapart : c.ResetApart a) (ht : (c.proto.pc t).taken = true) :
    c'.buffer.log = c.buffer.log ∧
      ∀ k r, c.buffer.receiptOf k = some r → c'.cell r = c.cell r := by
  cases hcalls with
  | silent _ hbuf =>
    unfold cell
    rw [hbuf]
    exact ⟨rfl, fun _ _ _ => rfl⟩
  | called x q' hcall hbuf hkept =>
    have hlog : c'.buffer.log = c.buffer.log := by
      rw [hbuf]
      exact log_of_sealed (hs.sealed t (Pc.sealed_of_taken ht)) x
    refine ⟨hlog, fun k r hr => ?_⟩
    unfold cell
    by_cases hrel : c.buffer.buf.Released
    · rw [hbuf, (hkept.released hrel).2]
    · have hcell := hkept.cells k r hr
      rw [← hbuf] at hcell
      rcases hcell with hsame | ⟨hret, ⟨⟨seq, hop⟩, -⟩ | ⟨hop, hend⟩⟩
      · exact hsame
      · exact absurd hop (hs.no_ack (Pc.collected_of_taken ht) hcall seq)
      · -- a reset: it comes before the collection or after the release
        obtain ⟨u, choice, rfl, hcalled⟩ := call_inside hcall (by rw [hop]; rfl)
        rw [hop] at hcalled
        cases hcalled with
        | resetDelivery hpc =>
          have hnone : ∀ v, (c.proto.pc v).detached = false := by
            intro v
            rw [← Bool.not_eq_true]
            exact fun hv => hrel (hl.detached v hv)
          have hdetach : c.proto.pc t = .closeDetach := by
            refine (Pc.detached_of_taken ht).resolve_right ?_
            rw [hnone t]
            exact Bool.false_ne_true
          have hlt : t < c.proto.spawned := hs.proto.lt_spawned (by rw [hdetach]; exact Pc.noConfusion)
          -- the frame was live, and the reset retired it
          have hlive := (he.live_iff hr).2 hret
          have hdead : ¬ c'.buffer.Live k := by
            intro hlive'
            have hret' := (he'.live_iff (by rw [receiptOf_congr hlog]; exact hr)).1
              (mem_liveNumbers.2 hlive')
            exact ReceiptFrameState.noConfusion (hend.symm.trans hret')
          obtain ⟨trb, hc⟩ := he.attached hnone
          obtain ⟨q₂, -, hc'⟩ := hc.step ⟨x.bb, .resetDelivery⟩
          have hnext : c'.buffer = (c.buffer.apply x.bb .resetDelivery).1 := by
            rw [hbuf]
            show c.buffer.live x = _
            unfold live
            rw [hop]
          rw [hnext] at hdead
          rcases hc.last_step hc' (mem_liveNumbers.1 hlive) hdead with
            ⟨_, hack, -⟩ | ⟨-, -, hused⟩
          · cases hack
          · exact absurd ⟨hpc, ⟨t, hlt, hdetach⟩, fun v _ => hnone v, k, hlive, hused⟩ hapart

/-- A `Close` collects its own slice, and once. -/
theorem Moved.slices (hmove : Moved encodes c a c') (ht : (c.proto.pc t).taken = true) :
    c'.messages t = c.messages t ∧ c'.unacked t = c.unacked t := by
  cases hmove with
  | step u choice bb p _ _ =>
    show (c.stores u).messages t = c.messages t ∧ (c.stores u).unacked t = c.unacked t
    unfold stores
    split
    case h_3 hpc =>
      have htu : t ≠ u := by
        rintro rfl
        rw [hpc] at ht
        cases ht
      exact ⟨update_of_ne htu .., update_of_ne htu ..⟩
    all_goals exact ⟨rfl, rfl⟩
  | observe i o _ =>
    unfold advance
    cases c.load o <;> exact ⟨rfl, rfl⟩
  | _ => exact ⟨rfl, rfl⟩

/-- The step that collects. -/
theorem Moved.collects {bb : ByteBudget} (hmove : Moved encodes c (.step t .go bb) c')
    (hpc : c.proto.pc t = .closeCollect) : c'.buffer = c.buffer ∧
      c'.messages t = c.buffer.buf.getUnAcked ∧ c'.unacked t = c.buffer.liveNumbers := by
  cases hmove with
  | step _ _ _ p _ _ =>
    simp only [stores, hpc]
    exact ⟨rfl, update_self .., update_self ..⟩

theorem Collected.step {q₀ : Queue Admission} (h : Collected c) (he : Exact c q₀) (hs : Sound c q)
    (hl : Lifetime c) (hmove : Moved encodes c a c') (hcalls : Calls c q a c' q')
    (hapart : c.ResetApart a) : Collected c' := by
  -- a slice that was collected before, and one that is collected now
  have hcases : ∀ t, (c'.proto.pc t).taken = true →
      c'.messages t = (c'.unacked t).map c'.buffer.storedAt ∧
      ∀ k r, c'.buffer.receiptOf k = some r → (k ∈ c'.unacked t ↔ c'.cell r = .retained) := by
    intro t ht
    rcases hmove.class (f := Pc.taken) (e := .closeCollect) (fun t p₁ b heff => heff.taken)
      ⟨rfl, fun _ => rfl, rfl, rfl⟩ rfl ht with hold | ⟨bb, rfl, hpc⟩
    · obtain ⟨q₁, he'⟩ := he.step hs hl hmove
      obtain ⟨hlog, hcell⟩ := hs.taken_stays hl he he' hcalls hapart hold
      obtain ⟨hmessages, hunacked⟩ := hmove.slices hold
      have hstored : c'.buffer.storedAt = c.buffer.storedAt := by
        funext k
        cases k with
        | zero => rfl
        | succ k => rw [storedAt_succ, hlog, storedAt_succ]
      rw [hmessages, hunacked, hstored, receiptOf_congr hlog]
      refine ⟨h.messages t hold, fun k r hr => ?_⟩
      rw [hcell k r hr]
      exact h.unacked t hold k r hr
    · obtain ⟨hbuf, hmessages, hunacked⟩ := hmove.collects hpc
      unfold cell
      rw [hbuf, hmessages, hunacked]
      exact ⟨he.held.getUnAcked, fun k r hr => he.live_iff hr⟩
  exact ⟨fun t ht => (hcases t ht).1, fun t ht => (hcases t ht).2⟩

/-! ## The lifetime after `Close` -/

/-- A `Close` that returned has stored the lifetime, and later owners start with it. -/
structure Finished (c : ClientState) : Prop where
  closed : ∀ t, c.proto.pc t = .closed → c.receiptLifetime = .closed
  owner : c.receiptLifetime = .closed → ∀ l, c.receiptOwner = some l → l = .closed

theorem setReceiptLifetime_owner {lifetime l : ReceiptLifetime}
    (h : (c.setReceiptLifetime lifetime).receiptOwner = some l) :
    l = (c.setReceiptLifetime lifetime).receiptLifetime := by
  obtain ⟨x, -, hx⟩ := Option.map_eq_some_iff.1 h
  exact hx.symm

theorem setReceiptLifetime_closed : (c.setReceiptLifetime .closed).receiptLifetime = .closed := by
  unfold setReceiptLifetime
  cases c.receiptLifetime <;> rfl

theorem setReceiptLifetime_keeps (h : c.receiptLifetime = .closed) (lifetime : ReceiptLifetime) :
    (c.setReceiptLifetime lifetime).receiptLifetime = .closed := by
  unfold setReceiptLifetime
  rw [h]
  cases lifetime <;> rfl

theorem newOwner_closed (h : c.receiptLifetime = .closed) : c.newOwner = .closed := by
  unfold newOwner
  rw [h]
  cases c.proto.isClosing <;> rfl

theorem stores_keeps (h : c.receiptLifetime = .closed) (t : Nat) :
    (c.stores t).receiptLifetime = .closed := by
  unfold stores
  split
  · exact setReceiptLifetime_keeps h _
  · exact setReceiptLifetime_keeps h _
  · exact h
  · exact h

theorem advance_lifetime (i : Nat) (o : Observer) :
    (c.advance i o).receiptLifetime = c.receiptLifetime ∧
      (c.advance i o).receiptOwner = c.receiptOwner := by
  unfold advance
  cases c.load o <;> exact ⟨rfl, rfl⟩

/-- A closed lifetime is final. -/
theorem Moved.keeps (hmove : Moved encodes c a c') (h : c.receiptLifetime = .closed) :
    c'.receiptLifetime = .closed := by
  cases hmove with
  | step t choice bb p _ _ => exact stores_keeps h t
  | observe i o _ =>
    rw [(advance_lifetime i o).1]
    exact h
  | _ => exact h

theorem Finished.step (h : Finished c) (hmove : Moved encodes c a c') : Finished c' := by
  constructor
  · intro t ht
    rcases hmove.class (f := fun pc => decide (pc = .closed)) (e := .closeFinish)
      (fun t p₁ b heff hb => .inr (heff.closed (of_decide_eq_true hb)))
      ⟨rfl, fun _ => rfl, rfl, rfl⟩ rfl (decide_eq_true ht) with hold | ⟨bb, rfl, hpc⟩
    · exact hmove.keeps (h.closed t (of_decide_eq_true hold))
    · cases hmove with
      | step _ _ _ p _ _ =>
        simp only [stores, hpc]
        exact setReceiptLifetime_closed
  · cases hmove with
    | step t choice bb p _ _ =>
      show (c.stores t).receiptLifetime = .closed → ∀ l, (c.stores t).receiptOwner = some l → _
      unfold stores
      split
      · exact fun hclosed l hl => (setReceiptLifetime_owner hl).trans hclosed
      · exact fun hclosed l hl => (setReceiptLifetime_owner hl).trans hclosed
      · exact h.owner
      · exact h.owner
    | owner r _ =>
      intro hclosed l hl
      have hl' : c.receiptOwner.getD c.newOwner = l := Option.some.inj hl
      cases ho : c.receiptOwner with
      | none =>
        rw [ho] at hl'
        exact hl'.symm.trans (newOwner_closed hclosed)
      | some l₀ =>
        rw [ho] at hl'
        exact hl'.symm.trans (h.owner hclosed l₀ ho)
    | observe i o _ =>
      rw [(advance_lifetime i o).1, (advance_lifetime i o).2]
      exact h.owner
    | _ => exact h.owner

/-- `ObserveReceipt` under a closed lifetime. -/
theorem observeReceipt_closed (howner : c.receiptOwner = some .closed)
    (hvalid : c.cell r = .retained ∨ c.cell r = .acknowledged ∨ c.cell r = .retired) :
    (c.observeReceipt r).frame = .closedUnconfirmed ↔ c.cell r = .retained := by
  unfold observeReceipt
  rw [howner]
  unfold cell at hvalid ⊢
  simp only
  split_ifs with hinvalid
  · obtain ⟨h₁, h₂, h₃⟩ := hinvalid
    rcases hvalid with hv | hv | hv
    · exact absurd hv h₁
    · exact absurd hv h₂
    · exact absurd hv h₃
  · rw [conclude_frame]
    rcases hvalid with hv | hv | hv
    · rw [hv]
      exact iff_of_true rfl rfl
    · rw [hv]
      exact iff_of_false ReceiptFrameState.noConfusion ReceiptFrameState.noConfusion
    · rw [hv]
      exact iff_of_false ReceiptFrameState.noConfusion ReceiptFrameState.noConfusion

/-- A call that found the lifetime closed returned what the cell says. -/
theorem Result.closed_iff {o : ReceiptObservation} (h : Result c r o) (hclosed : o.lifetime = .closed) :
    o.frame = .closedUnconfirmed ↔ c.cell r = .retained := by
  refine ⟨fun hf => (h.closed hf).1, fun hret => ?_⟩
  have hnot : ¬ (o.frame = .acknowledged ∨ o.frame = .retired) := by
    intro hfin
    have hcell := h.final hfin
    rw [hret] at hcell
    rcases hfin with hf | hf
    · exact ReceiptFrameState.noConfusion (hcell.trans hf)
    · exact ReceiptFrameState.noConfusion (hcell.trans hf)
  cases hf : o.frame with
  | invalid => exact absurd hf h.valid.1
  | retained => exact absurd hf (h.ended hclosed)
  | acknowledged => exact absurd (.inl hf) hnot
  | closedUnconfirmed => rfl
  | retired => exact absurd (.inr hf) hnot

/-! ## Every run -/

/-- What holds of a client whose resets keep apart. -/
structure Agrees (tr : List ClientStep) (c : ClientState) : Prop where
  witnessed : Witnessed tr c
  exact : ∃ q, Exact c q
  collected : Collected c
  finished : Finished c

theorem Agrees.step (h : Agrees tr c) (hmove : Moved encodes c a c') (hapart : c.ResetApart a) :
    Agrees (tr ++ [⟨c, a, c'⟩]) c' := by
  obtain ⟨q, hs⟩ := h.witnessed.sound
  obtain ⟨q', hcalls, -⟩ := hs.step hmove
  obtain ⟨q₀, he⟩ := h.exact
  exact ⟨(h.witnessed.step hmove).1, he.step hs h.witnessed.lifetime hmove,
    h.collected.step he hs h.witnessed.lifetime hmove hcalls hapart, h.finished.step hmove⟩

end ClientState

theorem NewClient.agrees (h : NewClient c) : ClientState.Agrees [] c := by
  have hclass : ∀ f : Pc → Bool, f .idle = false → (∀ w, f (.waitStart w) = false) → ∀ t,
      f (c.proto.pc t) = true → False := by
    intro f hidle hwait t ht
    rw [h.proto_eq, newClient_class hidle hwait] at ht
    cases ht
  obtain ⟨trb, q, hc, hcells, hown⟩ := h.chronicle
  refine ⟨h.witnessed, ⟨q, hc.tracks.held, hown, hcells, fun _ => ⟨trb, hc⟩⟩, ⟨?_, ?_⟩, ⟨?_, ?_⟩⟩
  · exact fun t ht => (hclass Pc.taken rfl (fun _ => rfl) t ht).elim
  · exact fun t ht => (hclass Pc.taken rfl (fun _ => rfl) t ht).elim
  · exact fun t ht => (hclass (fun pc => decide (pc = .closed)) rfl (fun _ => rfl) t
      (decide_eq_true ht)).elim
  · rw [h.fresh]
    exact fun _ l hl => absurd hl (Option.some_ne_none l).symm

theorem agrees_of_run (h₀ : NewClient c₀) (h : Machine.Run (clientMachine encodes) c₀ tr c)
    (hapart : ∀ st ∈ tr, st.pre.ResetApart st.act) : ClientState.Agrees tr c := by
  refine h.history_of ClientState.ResetApart ClientState.Agrees h₀.agrees ?_ hapart
  intro tr c a hg hreset hagrees
  exact hagrees.step (ClientState.moved_of_guard hg) hreset

/-- After a `Close` returned, a message with a receipt is in its slice exactly if the receipt
reads `ReceiptClosedUnconfirmed`: for a call of `ObserveReceipt` that nobody interrupts, and
for every call that found the lifetime closed. -/
theorem leftovers_agree (h₀ : NewClient c₀) (h : Machine.Run (clientMachine encodes) c₀ tr c)
    (hapart : ∀ st ∈ tr, st.pre.ResetApart st.act) (ht : c.proto.pc t = .closed) :
    c.messages t = (c.unacked t).map c.buffer.storedAt ∧
    ∀ k r, c.buffer.receiptOf k = some r → r ∈ c.receipts →
      (k ∈ c.unacked t ↔ (c.observeReceipt r).frame = .closedUnconfirmed) ∧
      ∀ p ∈ c.observed, p.receipt = r → p.result.lifetime = .closed →
        (k ∈ c.unacked t ↔ p.result.frame = .closedUnconfirmed) := by
  have hagrees := agrees_of_run h₀ h hapart
  obtain ⟨q, hs⟩ := hagrees.witnessed.sound
  have hl := hagrees.witnessed.lifetime
  have htaken : (c.proto.pc t).taken = true := by rw [ht]; rfl
  refine ⟨hagrees.collected.messages t htaken, fun k r hr hret => ?_⟩
  rw [hagrees.collected.unacked t htaken k r hr]
  constructor
  · obtain ⟨l, howner⟩ := Option.ne_none_iff_exists'.1 (hl.bound r hret).1
    obtain rfl := hagrees.finished.owner (hagrees.finished.closed t ht) l howner
    exact (ClientState.observeReceipt_closed howner (hl.cell_valid hs hret)).symm
  · rintro p hp rfl hclosed
    obtain ⟨-, -, hres⟩ := hagrees.witnessed.observes.results p hp
    exact (hres.closed_iff hclosed).symm

/-- A message that may be sent once is sent. A reconnect and a `Close` follow, and the reset
of the reconnect comes `early`, before the `Close`, or `late`, after the collection. -/
def closeAfterReconnect (early late : List ClientAct) : List ClientAct :=
  let bb := newByteBudget 0
  [.ship bb {} none (some 0) 1, .admissionReceiptOwner 0, .step 0 .go bb, .step 1 .go bb,
    .step 2 .go bb, .deliver 1 bb, .encode 1, .write 1 true true] ++
  [.callReconnect, .step 3 .go bb, .step 3 .go bb, .step 4 .go bb, .step 0 .stop bb,
    .step 1 .stop bb, .step 2 .stop bb] ++ List.replicate 3 (.step 4 .go bb) ++ early ++
  [.callClose] ++ List.replicate 8 (.step 5 .go bb) ++ late ++ List.replicate 2 (.step 5 .go bb)

/-- An early reset retires the message, and `Close` does not return it. -/
theorem retired_before_close :
    let c := (clientMachine fun _ => true).exec wideClient
      (closeAfterReconnect [.step 4 .go (newByteBudget 0)] [])
    c.proto.pc 5 = .closed ∧ (c.observeReceipt 0).frame = .retired ∧ 1 ∉ c.unacked 5 := by
  intro c
  have hrun : Machine.Run (clientMachine fun _ => true) wideClient _ c :=
    Machine.run_exec _ (by decide +kernel)
  have hclosed : c.proto.pc 5 = .closed := by decide +kernel
  have hframe : (c.observeReceipt 0).frame = .retired := by decide +kernel
  refine ⟨hclosed, hframe, fun hmem => ?_⟩
  have hagree := leftovers_agree wideClient_new hrun (by decide +kernel) hclosed
  have hread := ((hagree.2 1 0 (by decide +kernel) (by decide +kernel)).1).1 hmem
  rw [hframe] at hread
  cases hread

/-- A late reset retires a message that `Close` returns. -/
theorem returned_and_retired : ∃ tr c, NewClient wideClient ∧
    Machine.Run (clientMachine fun _ => true) wideClient tr c ∧ c.proto.pc 5 = .closed ∧
    c.buffer.receiptOf 1 = some 0 ∧ 0 ∈ c.receipts ∧ 1 ∈ c.unacked 5 ∧
    (c.messages 5).map (Option.map DataMessage.seqNum) = [some 1] ∧ c.observeReceipt 0 = ⟨.retired, .closed⟩ := by
  refine ⟨_, _, wideClient_new, Machine.run_exec
    (closeAfterReconnect [] [.step 4 .go (newByteBudget 0)]) (by decide +kernel), ?_⟩
  decide +kernel

end UspClient
