import UspClient.Lib.Refine
import UspClient.Buffer.Empties
import UspClient.System.Wake

/-!
# No add is stuck

An add that waits for bytes of a shared budget does not depend on the clients it shares it with.
Its own buffer can be handed out and acknowledged, which closes the channel it captured at the
latest when the buffer is empty; and an empty buffer is never refused, since the budget has to
take the first message of a client.
-/

namespace UspClient

open Function Replay AckBuffer

/-- Add `j` goes on, or buffer `i` is handed out or acknowledged. -/
def SystemAct.Helps (j i : Nat) : SystemAct → Prop
  | .call k op => k = i ∧ (op = .getNextToDeliver ∨ ∃ seq, op = .ack seq)
  | .wakeAdd k => k = j
  | .tryAdd k => k = j
  | _ => False

namespace SystemState

variable {s₀ s s' : SystemState} {j i : Nat} {op : BufferOp}

/-- What the way to the empty buffer `i` keeps for add `j`. -/
structure Clears (s₀ : SystemState) (j i : Nat) (s : SystemState) : Prop where
  adds : s.adds = s₀.adds
  addAt : s.addAt = s₀.addAt
  buffers : s.buffers = s₀.buffers
  log : (s.bufferAt i).log = (s₀.bufferAt i).log
  settings : (s.bufferAt i).buf.settingsView = (s₀.bufferAt i).buf.settingsView
  metered : ∃ q, BufferState.Metered (s.bufferAt i) q
  listens : ∀ l p, (s₀.addAt j).phase = .parked l p → (s.bufferAt i).buf.Listens l Blocked

theorem Clears.call (h : Clears s₀ j i s) (hop : op = .getNextToDeliver ∨ ∃ seq, op = .ack seq) :
    Clears s₀ j i (s.apply i op) := by
  have hat : (s.apply i op).bufferAt i = ((s.bufferAt i).apply s.bb op).1 :=
    update_self _ _ _
  have hadds : op.adds = false := by
    rcases hop with rfl | ⟨seq, rfl⟩ <;> rfl
  rcases h.metered with ⟨q, hm⟩
  rcases hm.deal s.bb hadds with ⟨q', hm', hlog, hdeals⟩
  refine ⟨h.adds, h.addAt, h.buffers, ?_, ?_, ⟨q', ?_⟩, ?_⟩
  · rw [hat, hlog, h.log]
  · rw [hat, hm.tracks.settings hop, h.settings]
  · rw [hat]
    exact hm'
  · intro l p hp
    rw [hat]
    refine (h.listens l p hp).signals hdeals.signals fun hgate hblocked => ?_
    -- what makes the buffer refuse is part of what its users wait for
    simp only [gate, Prod.mk.injEq] at hgate
    unfold Blocked heldFlagged at hblocked ⊢
    rw [hgate.1.2.2, hgate.2.1.2.1, hgate.2.1.2.2.1]
    exact hblocked

theorem reaches_act {a : SystemAct} {goal : SystemState → Prop} (hact : s.act a = some s')
    (hhelps : SystemAct.Helps j i a)
    (h : systemMachine.Reaches (fun _ => SystemAct.Helps j i) s' goal) :
    systemMachine.Reaches (fun _ => SystemAct.Helps j i) s goal := by
  have hnext : systemMachine.next s a = s' := congrArg (·.getD s) hact
  exact .cons (congrArg Option.isSome hact) hhelps (hnext.symm ▸ h)

/-- What is left to hand out and to acknowledge. -/
def left (s : SystemState) (i : Nat) : Nat :=
  2 * (s.bufferAt i).buf.nextIndexFree - (s.bufferAt i).buf.nextIndexToDeliver

theorem Clears.empties (h : Clears s₀ j i s) (hi : i < s₀.buffers)
    (hlen : (s₀.bufferAt i).log.length < 2 ^ 64 - 1) :
    systemMachine.Reaches (fun _ => SystemAct.Helps j i) s fun s' =>
      Clears s₀ j i s' ∧ (s'.bufferAt i).buf.nextIndexFree = 0 := by
  refine Machine.reaches_of_rank (Clears s₀ j i) (left · i) (fun s h hne => ?_) h
  suffices hcall : ∃ op : BufferOp, (op = .getNextToDeliver ∨ ∃ seq, op = .ack seq) ∧
      (s.apply i op).left i < s.left i by
    rcases hcall with ⟨op, hop, hlt⟩
    have hdirect : op.direct = true := by
      rcases hop with rfl | ⟨seq, rfl⟩ <;> rfl
    have hact : s.act (.call i op) = some (s.apply i op) := if_pos ⟨h.buffers ▸ hi, hdirect⟩
    have hnext : systemMachine.next s (.call i op) = s.apply i op := congrArg (·.getD s) hact
    refine ⟨.call i op, congrArg Option.isSome hact, ⟨rfl, hop⟩, ?_⟩
    rw [hnext]
    exact ⟨h.call hop, hlt⟩
  simp only [left, apply, update_self]
  rcases h.metered with ⟨q, hm⟩
  have hheld := hm.tracks.held
  have hle := hheld.shape.next_le
  rw [← hheld.shape.slots.next, ← hheld.shape.slots.free] at hle
  by_cases hlt : (s.bufferAt i).buf.nextIndexToDeliver < (s.bufferAt i).buf.nextIndexFree
  · have hnext := hheld.deliver_next (hm.tracks.deliver s.bb).2 hlt
    exact ⟨.getNextToDeliver, .inl rfl, by omega⟩
  · rcases hheld.ack_front (by rw [h.log]; omega) (by omega) hne with ⟨seq, _, _, _, _, hack⟩
    rcases hack s.bb with ⟨n, hfree, hnext⟩
    exact ⟨.ack seq, .inr ⟨seq, rfl⟩, by omega⟩

/-- A round of an add that nothing blocks. -/
theorem admits (hj : j < s.adds) (hp : (s.addAt j).phase = .trying)
    (hrun : (s.bufferAt (s.addAt j).buffer).buf.isRunning = true)
    (hfree : ¬(s.bufferAt (s.addAt j).buffer).buf.Blocked) :
    systemMachine.Reaches (fun _ => SystemAct.Helps j i) s fun s' =>
      ∃ adm, (s'.bufferAt (s.addAt j).buffer).log =
        (s.bufferAt (s.addAt j).buffer).log ++ [adm] ∧ adm.given = (s.addAt j).message := by
  have hact : s.act (.tryAdd j) = some ((s.apply (s.addAt j).buffer (addOp (s.addAt j))).setAdd j
      { s.addAt j with
        waiter := (s.round (s.addAt j)).1.waiter
        phase := .after (s.round (s.addAt j)).2 }) := if_pos ⟨hj, hp⟩
  refine reaches_act hact rfl (.here ?_)
  simp only [setAdd, apply, update_self]
  rcases BufferState.added (s.bufferAt (s.addAt j).buffer) s.bb (s.addAt j).message
    (s.addAt j).size (s.addAt j).waiter (s.addAt j).receipt (s.addAt j).maxTransmissions with
    ⟨b, bb, w, out, escaped, happ, _, _, _, hadd⟩
  rw [addOp, happ]
  cases hadd with
  | closed hno => exact absurd (hno.symm.trans hrun) Bool.false_ne_true
  | refused _ _ _ hwhy => exact absurd hwhy.blocked hfree
  | admitted _ adm _ _ _ _ _ _ hgiven => exact ⟨adm, rfl, hgiven⟩

end SystemState

open SystemState in
/-- **No add is stuck.** In every state that is reached without an overflow of the budget's sums or
of the sequence numbers, an add that tries or waits on an open buffer can be admitted by steps of
its own and by deliveries and acknowledgements of its own buffer, whatever the other buffers hold
of the budget. -/
theorem no_add_is_stuck {s₀ s : SystemState} {tr : List SystemStep} (hnew : NewSystem s₀)
    (hrun : Machine.Run systemMachine s₀ tr s) (hroom : ∀ t ∈ tr, t.pre.Roomy t.act)
    (hnum : s.Numbered) {j : Nat} (hj : j < s.adds)
    (hp : (s.addAt j).phase = .trying ∨ ∃ l p, (s.addAt j).phase = .parked l p)
    (hopen : (s.bufferAt (s.addAt j).buffer).buf.isRunning = true)
    (hcap : 0 < (s.bufferAt (s.addAt j).buffer).buf.currentCapacity) :
    systemMachine.Reaches (fun _ => SystemAct.Helps j (s.addAt j).buffer) s fun s' =>
      ∃ adm, (s'.bufferAt (s.addAt j).buffer).log =
        (s.bufferAt (s.addAt j).buffer).log ++ [adm] ∧ adm.given = (s.addAt j).message := by
  rcases waits_of_run hnew hrun hroom with ⟨q, hb, _, hwaits⟩
  have hi := (hb.adds j hj).1
  have hclears : Clears s j (s.addAt j).buffer s := by
    refine ⟨rfl, rfl, rfl, rfl, rfl, ⟨_, hb.metered _ hi⟩, fun l p hl => ?_⟩
    exact ((hwaits hnum).adds j l p hj hl).mono fun hstuck => hstuck.2.blocked
  refine (hclears.empties hi (hnum _ hi)).trans ?_
  rintro s' ⟨h, hempty⟩
  rcases h.metered with ⟨q', hm⟩
  have hset := h.settings
  simp only [settingsView, Prod.mk.injEq] at hset
  rcases hset with ⟨_, ⟨_, hrunning⟩, hcapacity, _⟩
  have hfree := hm.not_blocked (by rw [h.log]; exact hnum _ hi) (hcapacity ▸ hcap) hempty
  have hj' : j < s'.adds := h.adds ▸ hj
  have hat : s'.addAt j = s.addAt j := congrFun h.addAt j
  rw [← h.log]
  rcases hp with hp | ⟨l, p, hp⟩
  · have hway := admits (i := (s.addAt j).buffer) hj' (by rw [hat, hp])
    rw [hat] at hway
    exact hway (hrunning.trans hopen) hfree
  · -- the channel was closed on the way
    have hclosed : (s'.bufferAt (s.addAt j).buffer).buf.wakeClosed l = true :=
      Bool.eq_true_of_not_eq_false fun hstill => hfree (h.listens l p hp hstill).2
    have hact : s'.act (.wakeAdd j) = some (s'.setAdd j { s.addAt j with phase := .trying }) := by
      simp only [act, hat, woken, hp, hclosed, Bool.true_or, hj', and_self, if_true]
    refine reaches_act hact rfl ?_
    have hway := admits (s := s'.setAdd j { s.addAt j with phase := .trying })
      (i := (s.addAt j).buffer) (j := j) hj'
    simp only [setAdd, update_self] at hway
    exact hway trivial (hrunning.trans hopen) hfree

/-- The third message of `thirdWaits` does not need the other group. -/
theorem third_gets_in :
    let s := systemMachine.exec sharedStart thirdWaits
    (s.addAt 2).phase = .parked 0 (some 0) ∧
      systemMachine.Reaches (fun _ => SystemAct.Helps 2 0) s fun s' =>
        ∃ adm, (s'.bufferAt 0).log = (s.bufferAt 0).log ++ [adm] ∧ adm.given = (s.addAt 2).message := by
  intro s
  have hrun : Machine.Run systemMachine sharedStart _ s := Machine.run_exec _ (by decide +kernel)
  have hlen : ∀ i, i < s.buffers → (s.bufferAt i).log.length < 2 ^ 64 - 1 := by decide +kernel
  have hparked : (s.addAt 2).phase = .parked 0 (some 0) := by decide +kernel
  have hbuf : (s.addAt 2).buffer = 0 := by decide +kernel
  have hway := no_add_is_stuck sharedStart_new hrun (by decide +kernel) hlen (j := 2)
    (by decide +kernel) (.inr ⟨_, _, hparked⟩) (by decide +kernel) (by decide +kernel)
  rw [hbuf] at hway
  exact ⟨hparked, hway⟩

end UspClient
