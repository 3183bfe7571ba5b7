import UspClient.Buffer.Delivery

/-!
# The list of tracked admissions and its cursor

What `receiptHead`, `receiptTail` and `deliverCursor` point to, read off the history of the
buffer: the list holds the tracked admissions whose slots are in the buffer, in the order of
their admission, and the cursor is its first entry that is not delivered yet. Both hold for
sequence numbers that wrap.
-/

namespace UspClient

open Word64 Replay

/-- Following `next` from the pointer `p` visits the cells `l`, and ends at a nil pointer. -/
inductive Follows {α : Type} (next : α → Option α) : Option α → List α → Prop where
  | nil : Follows next none []
  | cons (x : α) (l : List α) : Follows next (next x) l → Follows next (some x) (x :: l)

namespace AckBuffer

variable {b : AckBuffer} {q : Queue Admission} {f : Frame Admission} {i k : Nat}

/-! ## The entries are consecutive -/

/-- From entry `i` on the list runs through the entries made since. -/
theorem Chain.entriesFrom_eq (h : Chain b q) (fuel : Nat) (hi : trackedCount q.gone ≤ i)
    (hfuel : b.nextEntry ≤ i + fuel) :
    b.entriesFrom fuel (ptr i b.nextEntry) = List.range' i (b.nextEntry - i) ∧
      Follows (fun x => (b.entryAt x).next) (ptr i b.nextEntry)
        (List.range' i (b.nextEntry - i)) := by
  induction fuel generalizing i with
  | zero =>
    have hge : b.nextEntry ≤ i := hfuel
    rw [ptr_of_le hge, Nat.sub_eq_zero_of_le hge]
    exact ⟨rfl, .nil⟩
  | succ fuel ih =>
    rcases Nat.lt_or_ge i b.nextEntry with hlt | hge
    · -- entry `i` points to the next one
      rcases ih (i := i + 1) (by omega) (by omega) with ⟨hlist, hfollows⟩
      have hnext := h.links i hi hlt
      rw [ptr_of_lt hlt, show b.nextEntry - i = b.nextEntry - (i + 1) + 1 by omega,
        List.range'_succ]
      constructor
      · unfold entriesFrom
        rw [hnext, hlist]
      · refine .cons _ _ ?_
        rw [hnext]
        exact hfollows
    · rw [ptr_of_le hge, Nat.sub_eq_zero_of_le hge]
      exact ⟨rfl, .nil⟩

theorem Chain.trackedEntries_eq (h : Chain b q) :
    b.trackedEntries = List.range' (trackedCount q.gone) (trackedCount q.window) ∧
      Follows (fun x => (b.entryAt x).next) b.receiptHead b.trackedEntries := by
  have hcount : b.nextEntry - trackedCount q.gone = trackedCount q.window := by
    rw [h.count, Nat.add_sub_cancel_left]
  rcases h.entriesFrom_eq b.nextEntry le_rfl (by omega) with ⟨hlist, hfollows⟩
  rw [hcount] at hlist hfollows
  unfold trackedEntries
  rw [h.head, entryOf_zero, hlist]
  exact ⟨rfl, hfollows⟩

/-- The entry of the frame at index `k` is the entry at its place among the tracked frames. -/
theorem getElem?_filter_tracked {l : List (Frame Admission)} (hf : l[k]? = some f)
    (ht : tracked f = true) : (l.filter tracked)[trackedCount (l.take k)]? = some f := by
  have hsplit : l = l.take k ++ f :: l.drop (k + 1) := by
    rw [← (List.getElem?_eq_some_iff.1 hf).2, List.getElem_cons_drop, List.take_append_drop]
  have hlen : ((l.take k).filter tracked).length = trackedCount (l.take k) :=
    List.countP_eq_length_filter.symm
  have hfilter : l.filter tracked =
      (l.take k).filter tracked ++ f :: (l.drop (k + 1)).filter tracked := by
    conv_lhs => rw [hsplit]
    rw [List.filter_append, List.filter_cons_of_pos ht]
  rw [hfilter, ← hlen, List.getElem?_append_right le_rfl, Nat.sub_self]
  rfl

/-- Entry by entry the list describes the tracked frames of the window. -/
theorem Chain.map_trackedEntries (h : Chain b q) {β : Type} (φ : TrackedAdmission → β)
    (ψ : Frame Admission → β)
    (heq : ∀ t, ∀ f ∈ q.window, tracked f = true → Entry t f → φ t = ψ f) :
    b.trackedEntries.map (fun x => φ (b.entryAt x)) = (q.window.filter tracked).map ψ := by
  have hlen : (q.window.filter tracked).length = trackedCount q.window :=
    List.countP_eq_length_filter.symm
  rw [h.trackedEntries_eq.1]
  refine List.ext_getElem? fun j => ?_
  rw [List.getElem?_map, List.getElem?_map]
  rcases Nat.lt_or_ge j (trackedCount q.window) with hlt | hge
  · rcases exists_tracked hlt with ⟨k, f, hf, ht, hk⟩
    have hplace := getElem?_filter_tracked hf ht
    have hentry := h.entries k f hf ht
    unfold entryOf at hentry
    rw [hk] at hplace hentry
    rw [hplace, List.getElem?_range' hlt, Option.map_some, Option.map_some, Nat.one_mul,
      heq _ f (List.mem_of_getElem? hf) ht hentry]
  · rw [List.getElem?_eq_none (by rw [List.length_range']; exact hge),
      List.getElem?_eq_none (by rw [hlen]; exact hge)]
    rfl

/-! ## The two ends and the cursor -/

theorem Chain.tail_eq (h : Chain b q) : b.receiptTail = b.trackedEntries.getLast? := by
  rw [h.tail, h.trackedEntries_eq.1, List.getLast?_range', h.count]

/-- The first number of a range that is not below `m`. -/
theorem find?_range' {p : Nat → Bool} {m lo : Nat} (n : Nat)
    (hp : ∀ x, lo ≤ x → x < lo + n → (p x = true ↔ m ≤ x)) (hm : lo ≤ m) :
    (List.range' lo n).find? p = ptr m (lo + n) := by
  induction n generalizing lo with
  | zero =>
    rw [Nat.add_zero, ptr_of_le hm]
    rfl
  | succ n ih =>
    rw [List.range'_succ, List.find?_cons]
    have hlo := hp lo le_rfl (by omega)
    cases hplo : p lo with
    | true =>
      have hle : m ≤ lo := hlo.1 hplo
      rw [ptr_of_lt (by omega), le_antisymm hle hm]
    | false =>
      have hnot : ¬ m ≤ lo := fun hle => by simp [hlo.2 hle] at hplo
      rw [ih (fun x h₁ h₂ => hp x (by omega) (by omega)) (by omega),
        show lo + 1 + n = lo + (n + 1) by omega]

/-- The cursor is the first entry of the list at or after the delivery index. -/
theorem Refines.cursor_eq (h : Refines b q) :
    b.deliverCursor = b.trackedEntries.find? fun x => decide (b.Undelivered (b.entryAt x)) := by
  have hcount := h.chain.count
  rw [h.chain.cursor, h.chain.trackedEntries_eq.1, find?_range' (m := entryOf q q.next) _ _ le_entryOf,
    ← hcount]
  intro x hx hlt
  rcases h.chain.frame_of hx (by omega) with ⟨k, f, hf, ht, hk, hentry⟩
  -- the index of the slot is the index of its frame
  have hindex : b.Undelivered (b.entryAt x) ↔ q.next ≤ k := by
    unfold Undelivered
    rw [hentry.seq, h.slots.index_at hf, h.slots.next]
  have horder := lt_entryOf_iff (i := q.next) hf ht
  rw [decide_eq_true_eq, hindex, ← hk]
  omega

end AckBuffer

/-- The tracked admissions whose slots are in the buffer, in the order of their admission. -/
def BufferState.trackedHeld (s : BufferState) : List Admission :=
  (s.log.drop s.gone).filter fun a => a.receipt.isSome

/-- What the receipt pointers of a buffer say about its history. -/
structure ReceiptList (s : BufferState) : Prop where
  /-- From `receiptHead` on, `next` leads through the entries to a nil pointer. -/
  list : Follows (fun x => (s.buf.entryAt x).next) s.buf.receiptHead s.buf.trackedEntries
  /-- The entries are those of the tracked admissions that are held, in order. -/
  entries : s.buf.trackedEntries.map (fun x => ((s.buf.entryAt x).seq,
      some (s.buf.entryAt x).state, (s.buf.entryAt x).max)) =
    s.trackedHeld.map fun a => (a.stored.seqNum, a.receipt, a.limit)
  tail : s.buf.receiptTail = s.buf.trackedEntries.getLast?
  /-- The cursor is the first entry whose slot is at or after the delivery index. -/
  cursor : s.buf.deliverCursor =
    s.buf.trackedEntries.find? fun x => decide (s.buf.Undelivered (s.buf.entryAt x))

theorem BufferState.Held.window_items {s : BufferState} {q : Queue Admission}
    (h : BufferState.Held s q) : q.window.map Frame.item = s.log.drop s.gone := by
  rw [h.gone_eq, ← h.items]
  unfold Queue.items Queue.frames
  rw [List.map_append, List.drop_left' (List.length_map _)]

theorem BufferState.Tracks.receiptList {s : BufferState} {q : Queue Admission}
    (h : BufferState.Tracks s q) : ReceiptList s := by
  have hchain := h.refines.chain
  constructor
  · exact hchain.trackedEntries_eq.2
  · rw [hchain.map_trackedEntries (fun t => (t.seq, some t.state, t.max))
      (fun f => (f.item.stored.seqNum, f.item.receipt, f.item.limit))]
    · unfold BufferState.trackedHeld
      rw [← h.held.window_items, List.filter_map, List.map_map]
      rfl
    · intro t f hf _ hentry
      rw [hentry.seq, hentry.receipt, hentry.max, h.refines.limit_window hf]
  · exact hchain.tail_eq
  · exact h.refines.cursor_eq

/-- In every run of buffer calls that does not release the receipt tracking, the list from
`receiptHead` holds exactly the tracked admissions whose slots are in the buffer, in the order of
their admission, up to `receiptTail`, and `deliverCursor` is its first entry whose slot is at or
after the delivery index. -/
theorem receipt_list_and_cursor {s₀ s : BufferState} {tr : List BufferStep}
    (hfresh : FreshBuffer s₀) (hrun : Machine.Run bufferMachine s₀ tr s) : ReceiptList s := by
  rcases BufferState.chronicle_of_run hfresh hrun with ⟨q, hq⟩
  exact hq.tracks.receiptList

/-- Three tracked messages around one without a receipt. Two frames are delivered, the first is
acknowledged, and the connection is reset: the cursor goes back to the second message. -/
def trackedThree : List BufferAct :=
  [alone (.updateCapacity 4), alone (.add {} 0 none (some 0) 0), alone (.add {} 0 none none 0),
    alone (.add {} 0 none (some 1) 0), alone (.add {} 0 none (some 2) 5),
    alone .getNextToDeliver, alone .getNextToDeliver, alone (.ack 1), alone .resetDelivery]

theorem tracked_three_cursor :
    (bufferMachine.exec plainBuffer trackedThree).buf.deliverCursor = some 1 ∧
      (bufferMachine.exec plainBuffer trackedThree).buf.trackedEntries = [1, 2] := by
  have hlist := receipt_list_and_cursor plainBuffer_fresh
    (Machine.run_exec trackedThree (by decide +kernel))
  rw [hlist.cursor]
  decide +kernel

end UspClient
