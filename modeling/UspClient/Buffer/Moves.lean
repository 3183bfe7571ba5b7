import UspClient.Buffer.Chain

/-!
# The moves a call is made of

Apart from admission, a call changes the bytes, the flags, the window and the wake channel
of a buffer in two ways only: it retires one slot, or it removes a prefix of the slots.
Everything else it does concerns delivery and receipts. `Moves` records this, together
with the budget the releases went to; an invariant of a buffer and its budget then has to
be checked for two moves.
-/

namespace UspClient

open Word64 Replay

namespace AckBuffer

variable {b b' : AckBuffer} {bb bb' : ByteBudget} {q q' : Queue Admission}

/-- A buffer without its delivery state and its receipts. -/
def ledger (b : AckBuffer) : AckBuffer :=
  { b with
    receiptHead := none, receiptTail := none, deliverCursor := none
    entryAt := fun _ => {}, nextEntry := 0, receiptAt := fun _ => .invalid
    releasedRetired := none
    nextIndexToDeliver := 0, isReadyToDeliver := false, isEmpty := false }

theorem dropReceiptsLocked_ledger (first index : Nat) (acknowledge : Bool) :
    (b.dropReceiptsLocked first index acknowledge).ledger = b.ledger := by
  have hun := congrArg ledger (dropReceiptsLocked_unlisted (b := b) first index acknowledge)
  exact hun

/-- What a slot and its charge depend on. -/
def mark (f : Frame Admission) : Admission × Fate := (f.item, f.fate)

/-- A function of the marks cannot tell two windows with the same marks apart. -/
theorem map_of_mark {β : Type} {l l' : List (Frame Admission)} {φ : Frame Admission → β}
    (hmark : l'.map mark = l.map mark) (ψ : Admission × Fate → β) (hφ : ∀ f, φ f = ψ (mark f)) :
    l'.map φ = l.map φ := by
  have hcomp : φ = ψ ∘ mark := funext hφ
  rw [hcomp, ← List.map_map, ← List.map_map, hmark]

theorem mark_at {l l' : List (Frame Admission)} {i : Nat} {f : Frame Admission}
    (hmark : l'.map mark = l.map mark) (hf : l[i]? = some f) :
    ∃ f', l'[i]? = some f' ∧ f'.item = f.item ∧ f'.fate = f.fate := by
  have hat : (l'.map mark)[i]? = some (mark f) := by
    rw [hmark, List.getElem?_map, hf]
    rfl
  rw [List.getElem?_map] at hat
  rcases Option.map_eq_some_iff.1 hat with ⟨f', hf', heq⟩
  unfold mark at heq
  rw [Prod.mk.injEq] at heq
  exact ⟨f', hf', heq.1, heq.2⟩

/-- A buffer, the budget it shares and its queue. -/
abbrev Account := AckBuffer × ByteBudget × Queue Admission

inductive Move : Account → Account → Prop where
  /-- Delivery and receipts. -/
  | idle (b b' : AckBuffer) (bb : ByteBudget) (q q' : Queue Admission) :
      b'.ledger = b.ledger → q'.gone = q.gone → q'.window.map mark = q.window.map mark →
      Move (b, bb, q) (b', bb, q')
  /-- A live frame that had its last handoff becomes a placeholder. -/
  | retire (b : AckBuffer) (bb : ByteBudget) (q : Queue Admission) (i : Nat) (entry : EntryId)
      (f : Frame Admission) : Slots b q → q.window[i]? = some f → f.fate = .live →
      (b.entryAt entry).seq = f.item.stored.seqNum →
      Move (b, bb, q) ((b.retireLocked bb i entry).1, (b.retireLocked bb i entry).2,
        { q with window := q.window.modify i retire })
  /-- The slots up to index `i` leave. -/
  | remove (b : AckBuffer) (bb : ByteBudget) (q : Queue Admission) (i : Nat)
      (g : Frame Admission → Frame Admission) : Slots b q → i < q.window.length →
      (∀ f, (g f).item = f.item) →
      Move (b, bb, q) ((b.removePrefixLocked bb i).1, (b.removePrefixLocked bb i).2,
        q.remove (i + 1) g)

def Moves : Account → Account → Prop := Relation.ReflTransGen Move

theorem Moves.refl (c : Account) : Moves c c := Relation.ReflTransGen.refl

theorem Moves.trans {c₁ c₂ c₃ : Account} (h₁ : Moves c₁ c₂) (h₂ : Moves c₂ c₃) : Moves c₁ c₃ :=
  Relation.ReflTransGen.trans h₁ h₂

theorem Move.moves {c₁ c₂ : Account} (h : Move c₁ c₂) : Moves c₁ c₂ := Relation.ReflTransGen.single h

/-- Delivery state and receipts, with the queue as it is. -/
theorem Moves.idle (h : b'.ledger = b.ledger) : Moves (b, bb, q) (b', bb, q) :=
  (Move.idle b b' bb q q h rfl rfl).moves

/-- An invariant of the moves holds after a call. -/
theorem Moves.keep {c₁ c₂ : Account} (h : Moves c₁ c₂) (P : Account → Prop)
    (hstep : ∀ c c', Move c c' → P c → P c') (hP : P c₁) : P c₂ := by
  induction h with
  | refl => exact hP
  | tail _ hlast ih => exact hstep _ _ hlast ih

end AckBuffer

end UspClient
