import UspClient.Lib.Pipe
import UspClient.Buffer.Covered
import UspClient.Buffer.Wake
import UspClient.Buffer.Wrap

/-!
# Emptying a buffer (ack_buffer.go)

The oldest message of a buffer can be handed out and acknowledged (`Held.ack_front`), and so the
buffer can be emptied. An empty buffer refuses nobody (`Metered.not_blocked`): the budget has to
take the first message of a client, however full it is.
-/

namespace UspClient

open Word64 Replay

namespace AckBuffer

variable {b : AckBuffer} {bb bb' : ByteBudget} {size : Nat} {w w' : Option WaiterId}

/-- An add may be refused. -/
def Blocked (b : AckBuffer) : Prop := b.isAvailable = false ∨ b.heldFlagged = true

theorem Stuck.blocked {p : Option ChanId} (h : Stuck b bb size w p) : b.Blocked := by
  cases h with
  | window hno => exact .inl hno
  | bytes _ _ hheld | pool _ _ _ hheld => exact .inr hheld

theorem Refuses.blocked (h : Refuses b bb size w bb' w') : b.Blocked := by
  cases h with
  | unavailable hno => exact .inl hno
  | full _ _ _ hheld => exact .inr hheld
  | wait _ _ _ hno =>
    -- a forced request is not refused
    refine .inr (Bool.eq_true_of_not_eq_false fun hnot => ?_)
    rw [hnot, Bool.not_false, (reserveFor_force ..).1 rfl] at hno
    cases hno

end AckBuffer

namespace BufferState

variable {s : BufferState} {q : Queue Admission} {bb : ByteBudget} {op : BufferOp}

/-- The delivery index moves on, and no slot is released. -/
theorem Held.deliver_next (h : Held s q) (hfence : (s.buf.getNextToDeliver bb).2.2.fenced = false)
    (hlt : s.buf.nextIndexToDeliver < s.buf.nextIndexFree) :
    s.buf.nextIndexToDeliver < (s.apply bb .getNextToDeliver).1.buf.nextIndexToDeliver ∧
      (s.apply bb .getNextToDeliver).1.buf.nextIndexFree = s.buf.nextIndexFree := by
  have hslots := h.shape.slots
  have hslots' := (h.deliver bb hfence).1.shape.slots
  rw [hslots.next, hslots.free] at hlt
  rw [hslots.next, hslots.free, hslots'.next, hslots'.free]
  have hle := Queue.le_target (q := q)
  unfold Queue.deliver
  split_ifs with htarget
  · exact ⟨Nat.lt_succ_of_le hle, List.length_modify _ _ _⟩
  · exact ⟨by show q.next < q.target; omega, rfl⟩

/-- The oldest message is live, and as long as no number has wrapped around `Ack` accepts it once
it was handed out. -/
theorem Held.ack_front (h : Held s q) (hfew : s.log.length < 2 ^ 64)
    (hnext : s.buf.nextIndexToDeliver ≠ 0) (hfree : s.buf.nextIndexFree ≠ 0) :
    ∃ (seq : UInt64) (f : Frame Admission), seq.toNat = q.gone.length + 1 ∧
      q.window[0]? = some f ∧ f.fate = .live ∧ ∀ bb, ∃ n,
        (s.apply bb (.ack seq)).1.buf.nextIndexFree = s.buf.nextIndexFree - (n + 1) ∧
        (s.apply bb (.ack seq)).1.buf.nextIndexToDeliver = s.buf.nextIndexToDeliver - (n + 1) := by
  have hslots := h.shape.slots
  have hlen := h.length_log
  have hcount := hslots.free
  have hfirst : s.buf.firstSeqNum = q.gone.length + 1 := by
    rw [hslots.first]
    exact Nat.mod_eq_of_lt (by omega)
  have hindex : sub64 (q.gone.length + 1) s.buf.firstSeqNum = 0 := by
    rw [hfirst]
    unfold sub64
    omega
  have hseq : (UInt64.ofNat (q.gone.length + 1)).toNat = q.gone.length + 1 := by
    rw [UInt64.toNat_ofNat', Nat.mod_eq_of_lt (by omega)]
  have hlate : s.buf.ackReleased (q.gone.length + 1) = false := by
    unfold AckBuffer.ackReleased
    split
    · rfl
    · rw [hindex, decide_eq_false (by omega), Bool.false_and]
  have herror : s.buf.ackError (q.gone.length + 1) = none := by
    have hnumber : add64 s.buf.firstSeqNum 0 = q.gone.length + 1 := by
      rw [hfirst]
      exact Nat.mod_eq_of_lt (by omega)
    rw [← hnumber]
    refine (h.shape.represented.ackError_none_iff (Nat.pos_of_ne_zero hnext)).2 (.inl ?_)
    omega
  rw [hcount] at hfree ⊢
  rw [hslots.next]
  have hack : ∀ bb, (s.apply bb (.ack (.ofNat (q.gone.length + 1)))).1.buf =
      (s.buf.ackRemove bb 0).1 := by
    intro bb
    show (s.buf.ack bb (UInt64.ofNat (q.gone.length + 1)).toNat).1 = _
    unfold AckBuffer.ack
    rw [hseq, hlate, herror]
    simp only [hindex]
    rfl
  rcases List.exists_cons_of_length_pos (Nat.pos_of_ne_zero hfree) with ⟨f, l, hl⟩
  have hfront : q.window.head? = some f := by rw [hl]; rfl
  refine ⟨_, f, hseq, by rw [hl]; rfl, ?_, fun bb => ?_⟩
  · exact h.shape.live_of_mem (List.mem_of_mem_head? hfront) (h.shape.trimmed f hfront)
  · have hafter := (h.shape.ackRemove bb (Nat.pos_of_ne_zero hfree)).slots
    rcases Queue.ack_lengths q 0 with ⟨n, hwindow, hcursor⟩
    refine ⟨n, ?_, ?_⟩
    · rw [hack, hafter.free, hwindow, Nat.zero_add, Nat.add_comm 1 n]
    · rw [hack, hafter.next, hcursor, Nat.zero_add, Nat.add_comm 1 n]

/-- A delivery and an acknowledgement change no setting. -/
theorem Tracks.settings (h : Tracks s q) (hop : op = .getNextToDeliver ∨ ∃ seq, op = .ack seq) :
    (s.apply bb op).1.buf.settingsView = s.buf.settingsView := by
  rcases hop with rfl | ⟨seq, rfl⟩
  · have hsame := congrArg AckBuffer.settingsView (h.refines.getNextToDeliver bb).2.1
    exact hsame
  · have hstep := AckBuffer.ack_step s.buf bb seq.toNat
    show (s.buf.ack bb seq.toNat).1.settingsView = s.buf.settingsView
    generalize s.buf.ack bb seq.toNat = r at hstep ⊢
    cases hstep with
    | rejected err => rfl
    | late _ => rfl
    | removed hfree _ =>
      rw [h.refines.slots.free] at hfree
      exact (h.refines.ackRemove_moves bb hfree).settings

theorem Metered.not_blocked (h : Metered s q) (hlen : s.log.length < 2 ^ 64 - 1)
    (hcap : 0 < s.buf.currentCapacity) (hempty : s.buf.nextIndexFree = 0) : ¬s.buf.Blocked := by
  have hslots := h.tracks.refines.slots
  have hitems : q.items.length + 1 < 2 ^ 64 := by
    rw [h.tracks.items]
    omega
  rintro (hno | hheld)
  · rw [hslots.available, ← hslots.free, hempty, decide_eq_true hcap] at hno
    cases hno
  · have hindex := ((h.flags (by omega)).index hslots hitems hheld).1
    omega

end BufferState

end UspClient
