import UspClient.Buffer.Refine

/-!
# The linked list of tracked admissions

Entries are made in order of admission, so the list from `receiptHead` runs through
consecutive entries: it starts at the number of tracked frames that left and ends at the
last entry made. `Chain b q` says this, that each entry describes its frame, and that the
cursor is the first entry at or after the delivery index.
-/

namespace UspClient

open Function Word64 Replay

namespace AckBuffer

variable {b b' b₀ : AckBuffer} {q : Queue Admission} {f : Frame Admission} {i j k m n : Nat}
variable {g : Frame Admission → Frame Admission} {l l' : List (Frame Admission)}

/-- The frame was admitted with a receipt. -/
def tracked (f : Frame Admission) : Bool := f.item.receipt.isSome

def trackedCount (l : List (Frame Admission)) : Nat := l.countP tracked

/-! ## Counting tracked frames -/

theorem trackedCount_congr (h : l.map Frame.item = l'.map Frame.item) :
    trackedCount l = trackedCount l' := by
  have hcomp : tracked = (fun a : Admission => a.receipt.isSome) ∘ Frame.item := rfl
  unfold trackedCount
  rw [hcomp, ← List.countP_map, ← List.countP_map, h]

theorem trackedCount_append : trackedCount (l ++ l') = trackedCount l + trackedCount l' :=
  List.countP_append

theorem trackedCount_take_mono (h : i ≤ j) :
    trackedCount (l.take i) ≤ trackedCount (l.take j) :=
  (List.take_sublist_take_left h).countP_le

theorem trackedCount_take_le : trackedCount (l.take i) ≤ trackedCount l :=
  (List.take_sublist i l).countP_le

theorem trackedCount_split (l : List (Frame Admission)) (i : Nat) :
    trackedCount l = trackedCount (l.take i) + trackedCount (l.drop i) := by
  rw [← trackedCount_append, List.take_append_drop]

theorem trackedCount_take_succ (hf : l[k]? = some f) :
    trackedCount (l.take (k + 1)) = trackedCount (l.take k) + if tracked f then 1 else 0 := by
  rw [List.take_add_one, hf, trackedCount_append]
  congr 1
  unfold trackedCount
  rw [Option.toList_some, List.countP_singleton]

/-- Every tracked frame has a place in the count. -/
theorem exists_tracked (h : j < trackedCount l) :
    ∃ (k : Nat) (f : Frame Admission), l[k]? = some f ∧ tracked f = true ∧
      trackedCount (l.take k) = j := by
  induction l generalizing j with
  | nil => simp [trackedCount] at h
  | cons x l ih =>
    unfold trackedCount at h
    rw [List.countP_cons] at h
    by_cases hx : tracked x = true
    · cases j with
      | zero => exact ⟨0, x, rfl, hx, rfl⟩
      | succ j =>
        rw [if_pos hx] at h
        obtain ⟨k, f, hf, ht, hk⟩ := ih (j := j) (by unfold trackedCount; omega)
        refine ⟨k + 1, f, hf, ht, ?_⟩
        unfold trackedCount at hk ⊢
        rw [List.take_succ_cons, List.countP_cons, hk, if_pos hx]
    · rw [if_neg hx] at h
      obtain ⟨k, f, hf, ht, hk⟩ := ih (j := j) (by unfold trackedCount; omega)
      refine ⟨k + 1, f, hf, ht, ?_⟩
      unfold trackedCount at hk ⊢
      rw [List.take_succ_cons, List.countP_cons, hk, if_neg hx]
      rfl

theorem lt_of_tracked (hf : l[k]? = some f) (ht : tracked f = true) :
    trackedCount (l.take k) < trackedCount l := by
  have hsucc := trackedCount_take_succ hf
  rw [if_pos ht] at hsucc
  have hle := trackedCount_take_le (l := l) (i := k + 1)
  omega

/-! ## Chains -/

/-- The pointer to entry `i` when `n` entries were made. -/
def ptr (i n : Nat) : Option Nat := if i < n then some i else none

theorem ptr_of_lt (h : i < n) : ptr i n = some i := if_pos h

theorem ptr_of_le (h : n ≤ i) : ptr i n = none := if_neg (by omega)

/-- An entry describes its frame. A frame without a limit is not counted. -/
structure Entry (t : TrackedAdmission) (f : Frame Admission) : Prop where
  seq : t.seq = f.item.stored.seqNum
  max : t.max = f.limit
  sends : f.limit ≠ 0 → t.sends = f.sends
  receipt : f.item.receipt = some t.state

/-- The entry of the frame at index `k` of the window. -/
def entryOf (q : Queue Admission) (k : Nat) : Nat :=
  trackedCount q.gone + trackedCount (q.window.take k)

structure Chain (b : AckBuffer) (q : Queue Admission) : Prop where
  count : b.nextEntry = trackedCount q.gone + trackedCount q.window
  head : b.receiptHead = ptr (entryOf q 0) b.nextEntry
  tail : b.receiptTail = if trackedCount q.window = 0 then none else some (b.nextEntry - 1)
  links : ∀ x : Nat, trackedCount q.gone ≤ x → x < b.nextEntry →
    (b.entryAt x).next = ptr (x + 1) b.nextEntry
  entries : ∀ k f, q.window[k]? = some f → tracked f = true → Entry (b.entryAt (entryOf q k)) f
  cursor : b.deliverCursor = ptr (entryOf q q.next) b.nextEntry

/-- The fields `Chain` speaks about. -/
def receiptView (b : AckBuffer) :
    Option Nat × Option Nat × Option Nat × (Nat → TrackedAdmission) × Nat :=
  (b.receiptHead, b.receiptTail, b.deliverCursor, b.entryAt, b.nextEntry)

theorem Chain.congr (h : Chain b q) (hv : b'.receiptView = b.receiptView) : Chain b' q := by
  simp only [receiptView, Prod.mk.injEq] at hv
  obtain ⟨h₁, h₂, h₃, h₄, h₅⟩ := hv
  constructor
  · rw [h₅, h.count]
  · rw [h₁, h₅, h.head]
  · rw [h₂, h₅, h.tail]
  · rw [h₄, h₅]
    exact h.links
  · rw [h₄]
    exact h.entries
  · rw [h₃, h₅, h.cursor]

theorem entryOf_zero : entryOf q 0 = trackedCount q.gone := rfl

theorem le_entryOf : trackedCount q.gone ≤ entryOf q k := Nat.le_add_right _ _

theorem Chain.entryOf_lt (h : Chain b q) (hf : q.window[k]? = some f) (ht : tracked f = true) :
    entryOf q k < b.nextEntry := by
  have hlt := lt_of_tracked hf ht
  rw [h.count]
  unfold entryOf
  omega

theorem Chain.entryOf_le (h : Chain b q) : entryOf q k ≤ b.nextEntry := by
  have hle := trackedCount_take_le (l := q.window) (i := k)
  rw [h.count]
  unfold entryOf
  omega

/-- The frame of an entry that is in the list. -/
theorem Chain.frame_of (h : Chain b q) {x : Nat} (hx : trackedCount q.gone ≤ x)
    (hlt : x < b.nextEntry) : ∃ (k : Nat) (f : Frame Admission), q.window[k]? = some f ∧
      tracked f = true ∧ entryOf q k = x ∧ Entry (b.entryAt x) f := by
  have hj : x - trackedCount q.gone < trackedCount q.window := by
    rw [h.count] at hlt
    omega
  obtain ⟨k, f, hf, ht, hk⟩ := exists_tracked hj
  have hkx : entryOf q k = x := by
    unfold entryOf
    omega
  refine ⟨k, f, hf, ht, hkx, ?_⟩
  rw [← hkx]
  exact h.entries k f hf ht

theorem entryOf_succ (hf : q.window[k]? = some f) :
    entryOf q (k + 1) = entryOf q k + if tracked f then 1 else 0 := by
  unfold entryOf
  rw [trackedCount_take_succ hf]
  omega

theorem entryOf_mono (h : i ≤ j) : entryOf q i ≤ entryOf q j :=
  Nat.add_le_add_left (trackedCount_take_mono h) _

/-- Entries in the list are ordered like their frames. -/
theorem lt_entryOf_iff (hf : q.window[k]? = some f) (ht : tracked f = true) :
    entryOf q k < entryOf q i ↔ k < i := by
  constructor
  · intro hlt
    by_contra hle
    have := entryOf_mono (q := q) (Nat.le_of_not_lt hle)
    omega
  · intro hlt
    have hsucc := entryOf_succ hf
    rw [if_pos ht] at hsucc
    have := entryOf_mono (q := q) (show k + 1 ≤ i from hlt)
    omega

/-- Frames and entries that change together, without losing their identity and their
links, keep the chain. -/
theorem Chain.of_entries (h : Chain b q) {window : List (Frame Admission)}
    (hitems : window.map Frame.item = q.window.map Frame.item)
    (hhead : b'.receiptHead = b.receiptHead) (htail : b'.receiptTail = b.receiptTail)
    (hcur : b'.deliverCursor = b.deliverCursor) (hcount : b'.nextEntry = b.nextEntry)
    (hlinks : ∀ x, (b'.entryAt x).next = (b.entryAt x).next)
    (hentry : ∀ (k : Nat) x y, q.window[k]? = some x → window[k]? = some y → y.item = x.item →
      tracked x = true → Entry (b.entryAt (entryOf q k)) x → Entry (b'.entryAt (entryOf q k)) y) :
    Chain b' { q with window := window } := by
  -- entries are counted over the tracked items, which are the same
  have hentryOf : ∀ k, entryOf { q with window := window } k = entryOf q k := by
    intro k
    unfold entryOf
    congr 1
    refine trackedCount_congr ?_
    show (window.take k).map Frame.item = _
    rw [List.map_take, List.map_take, hitems]
  have hall : trackedCount window = trackedCount q.window := trackedCount_congr hitems
  constructor
  · show _ = _ + trackedCount window
    rw [hcount, h.count, hall]
  · rw [hhead, hcount, h.head, hentryOf]
  · show _ = if trackedCount window = 0 then _ else _
    rw [htail, hcount, h.tail, hall]
  · intro x h₁ h₂
    rw [hlinks, hcount]
    rw [hcount] at h₂
    exact h.links x h₁ h₂
  · intro k y hy ht
    have hlt := (List.getElem?_eq_some_iff.1 hy).1
    have hlen : window.length = q.window.length := by
      have hl := congrArg List.length hitems
      rwa [List.length_map, List.length_map] at hl
    obtain ⟨x, hx⟩ : ∃ x, q.window[k]? = some x := ⟨_, List.getElem?_eq_getElem (hlen ▸ hlt)⟩
    have hitem : y.item = x.item := by
      have hk := congrArg (fun l => l[k]?) hitems
      simp only [List.getElem?_map, hx, hy, Option.map_some, Option.some.injEq] at hk
      exact hk
    have htx : tracked x = true := by
      unfold tracked at ht ⊢
      rw [← hitem]
      exact ht
    rw [hentryOf]
    exact hentry k x y hx hy hitem htx (h.entries k x hx htx)
  · rw [hcur, hcount, h.cursor, hentryOf]

/-- Frames that keep item, limit and handoffs keep their entries. -/
theorem Chain.of_window (h : Chain b q) {window : List (Frame Admission)}
    (hitems : window.map Frame.item = q.window.map Frame.item)
    (hsame : ∀ (k : Nat) x y, q.window[k]? = some x → window[k]? = some y →
      y.limit = x.limit ∧ y.sends = x.sends) :
    Chain b { q with window := window } := by
  refine h.of_entries hitems rfl rfl rfl rfl (fun _ => rfl) ?_
  intro k x y hx hy hitem _ he
  obtain ⟨hl, hs⟩ := hsame k x y hx hy
  constructor
  · rw [he.seq, hitem]
  · rw [he.max, hl]
  · rw [hl, hs]
    exact he.sends
  · rw [hitem, he.receipt]

/-! ## Admission -/

theorem Chain.track (h : Chain b q) (hn : q.next ≤ q.window.length) {a : Admission} {seq : Nat}
    (hseq : seq = a.stored.seqNum) :
    Chain (b.track seq a.receipt a.maxTransmissions) (q.push { item := a, limit := a.limit }) := by
  obtain ⟨x, hx⟩ : ∃ x : Frame Admission, x = { item := a, limit := a.limit } := ⟨_, rfl⟩
  rw [← hx]
  have hxr : x.item.receipt = a.receipt := by rw [hx]
  have htake : ∀ k ≤ q.window.length, entryOf (q.push x) k = entryOf q k := by
    intro k hk
    unfold entryOf Queue.push
    rw [List.take_append_of_le_length hk]
  have hall : trackedCount (q.window ++ [x]) =
      trackedCount q.window + if a.receipt.isSome then 1 else 0 := by
    rw [trackedCount_append]
    unfold trackedCount
    rw [List.countP_singleton]
    unfold tracked
    rw [hxr]
  have hold : ∀ (k : Nat) y, (q.push x).window[k]? = some y →
      (k < q.window.length ∧ q.window[k]? = some y) ∨ (k = q.window.length ∧ y = x) := by
    intro k y hy
    rcases getElem?_snoc hy with hy' | hy'
    · exact .inl ⟨(List.getElem?_eq_some_iff.1 hy').1, hy'⟩
    · exact .inr hy'
  cases hr : a.receipt with
  | none =>
    rw [hr] at hall
    have hall' : trackedCount (q.window ++ [x]) = trackedCount q.window := hall
    constructor
    · show b.nextEntry = _ + trackedCount (q.window ++ [x])
      rw [hall']
      exact h.count
    · exact h.head
    · show b.receiptTail = if trackedCount (q.window ++ [x]) = 0 then _ else _
      rw [hall']
      exact h.tail
    · exact h.links
    · intro k y hy ht
      rcases hold k y hy with ⟨hk, hy'⟩ | ⟨-, rfl⟩
      · rw [htake k hk.le]
        exact h.entries k y hy' ht
      · unfold tracked at ht
        rw [hxr, hr] at ht
        cases ht
    · show b.deliverCursor = ptr (entryOf (q.push x) q.next) b.nextEntry
      rw [htake _ hn]
      exact h.cursor
  | some r =>
    rw [hr] at hall
    have hall' : trackedCount (q.window ++ [x]) = trackedCount q.window + 1 := hall
    have hcount := h.count
    -- the new entry is the last one made; the old tail points to it
    have hfields : (b.track seq (some r) a.maxTransmissions).receiptHead =
          ptr (entryOf q 0) (b.nextEntry + 1) ∧
        (∀ y, trackedCount q.gone ≤ y → y < b.nextEntry →
          (b.track seq (some r) a.maxTransmissions).entryAt y =
            { b.entryAt y with next := ptr (y + 1) (b.nextEntry + 1) }) ∧
        (b.track seq (some r) a.maxTransmissions).entryAt b.nextEntry =
          { seq := seq, state := r, max := a.maxTransmissions } := by
      have htail := h.tail
      by_cases hz : trackedCount q.window = 0
      · rw [if_pos hz] at htail
        unfold AckBuffer.track
        simp only [htail]
        refine ⟨?_, ?_, ?_⟩
        · rw [entryOf_zero, ptr_of_lt (by omega), hcount, hz]
          rfl
        · intro y h₁ h₂
          omega
        · exact update_self _ _ _
      · rw [if_neg hz] at htail
        unfold AckBuffer.track
        simp only [htail]
        refine ⟨?_, ?_, ?_⟩
        · rw [h.head, entryOf_zero, ptr_of_lt (by omega), ptr_of_lt (by omega)]
        · intro y h₁ h₂
          by_cases hy : y = b.nextEntry - 1
          · rw [hy, update_self, update_of_ne (by omega),
              ptr_of_lt (by omega), show b.nextEntry - 1 + 1 = b.nextEntry by omega]
          · have hlink := h.links y h₁ h₂
            rw [ptr_of_lt (by omega)] at hlink
            rw [update_of_ne hy, update_of_ne (by omega), ptr_of_lt (by omega),
              ← hlink]
        · rw [update_of_ne (by omega), update_self]
    obtain ⟨hhead, hentryAt, hnew⟩ := hfields
    constructor
    · show b.nextEntry + 1 = _ + trackedCount (q.window ++ [x])
      rw [hall', hcount]
      rfl
    · exact hhead
    · show some b.nextEntry = if trackedCount (q.window ++ [x]) = 0 then _ else _
      rw [hall', if_neg (Nat.succ_ne_zero _)]
      rfl
    · intro y h₁ h₂
      have h₂' : y < b.nextEntry + 1 := h₂
      by_cases hy : y = b.nextEntry
      · rw [hy, hnew]
        exact (ptr_of_le le_rfl).symm
      · rw [hentryAt y h₁ (by omega)]
        rfl
    · intro k y hy ht
      rcases hold k y hy with ⟨hk, hy'⟩ | ⟨hk, rfl⟩
      · rw [htake k hk.le, hentryAt _ le_entryOf (h.entryOf_lt hy' ht)]
        have he := h.entries k y hy' ht
        exact ⟨he.seq, he.max, he.sends, he.receipt⟩
      · have hlast : entryOf (q.push y) k = b.nextEntry := by
          rw [htake k hk.le, hk, hcount]
          unfold entryOf
          rw [List.take_length]
        rw [hlast, hnew, hx]
        refine ⟨hseq, ?_, fun _ => rfl, hr⟩
        show a.maxTransmissions = a.limit
        unfold Admission.limit
        rw [hr]
        rfl
    · show b.deliverCursor.or (some b.nextEntry) = ptr (entryOf (q.push x) q.next) (b.nextEntry + 1)
      rw [htake _ hn, h.cursor]
      have hle := h.entryOf_le (k := q.next)
      by_cases hlt : entryOf q q.next < b.nextEntry
      · rw [ptr_of_lt hlt, ptr_of_lt (by omega)]
        rfl
      · rw [ptr_of_le (by omega), ptr_of_lt (by omega), show entryOf q q.next = b.nextEntry by omega]
        rfl

/-! ## Dropping the entries of a removed prefix -/

/-- What `dropReceiptsLocked` leaves alone. -/
def unlisted (b : AckBuffer) : AckBuffer :=
  { b with
    receiptHead := none, receiptTail := none, deliverCursor := none
    entryAt := fun _ => {}, receiptAt := fun _ => .invalid }

/-- The loop keeps what does not depend on the head, the entries and the cells it writes. -/
theorem dropLoop_keep {β : Type} (φ : AckBuffer → β) {acknowledge : Bool}
    (hφ : ∀ (b : AckBuffer) (head : Option EntryId) (entries : Nat → TrackedAdmission)
      (cells : ReceiptId → ReceiptFrameState), (acknowledge = false → cells = b.receiptAt) →
      φ { b with receiptHead := head, entryAt := entries, receiptAt := cells } = φ b)
    (first index fuel : Nat) (b : AckBuffer) (removed : Bool) :
    φ (dropLoop first index acknowledge fuel b removed).1 = φ b := by
  induction fuel generalizing b removed with
  | zero => rfl
  | succ fuel ih =>
    unfold dropLoop
    cases b.receiptHead with
    | none => rfl
    | some entry =>
      simp only
      split_ifs with hle hack
      · rw [ih]
        refine hφ _ _ _ _ fun hno => ?_
        rw [hno, Bool.false_and] at hack
        cases hack
      · rw [ih]
        exact hφ _ _ _ _ fun _ => rfl
      · rfl

theorem dropLoop_unlisted (first index : Nat) (acknowledge : Bool) (fuel : Nat) (b : AckBuffer)
    (removed : Bool) :
    (dropLoop first index acknowledge fuel b removed).1.unlisted = b.unlisted :=
  dropLoop_keep unlisted (fun _ _ _ _ _ => rfl) first index fuel b removed

theorem dropLoop_tail (first index : Nat) (acknowledge : Bool) (fuel : Nat) (b : AckBuffer)
    (removed : Bool) :
    (dropLoop first index acknowledge fuel b removed).1.receiptTail = b.receiptTail :=
  dropLoop_keep receiptTail (fun _ _ _ _ _ => rfl) first index fuel b removed

theorem dropReceiptsLocked_unlisted (first index : Nat) (acknowledge : Bool) :
    (b.dropReceiptsLocked first index acknowledge).unlisted = b.unlisted := by
  have hloop := dropLoop_unlisted first index acknowledge b.nextEntry b false
  unfold dropReceiptsLocked
  simp only
  split_ifs <;> exact hloop

/-- The loop of `dropReceiptsLocked` stops at the entry of the first slot that stays. -/
theorem Chain.dropped_iff (h : Chain b₀ q) {first x : Nat}
    (hseq : ∀ (k : Nat) f, q.window[k]? = some f → sub64 f.item.stored.seqNum first = k)
    (hx : trackedCount q.gone ≤ x) (hlt : x < b₀.nextEntry) (hent : b.entryAt x = b₀.entryAt x) :
    sub64 (b.entryAt x).seq first ≤ i ↔ x < entryOf q (i + 1) := by
  obtain ⟨k, f, hf, ht, hkx, he⟩ := h.frame_of hx hlt
  rw [hent, he.seq, hseq k f hf, ← hkx, lt_entryOf_iff hf ht]
  omega

/-- The loop took the entry `x` off the list. -/
def takeOff (b : AckBuffer) (acknowledge : Bool) (x : Nat) : AckBuffer :=
  { b with
    receiptHead := (b.entryAt x).next
    entryAt := update b.entryAt x { b.entryAt x with next := none }
    receiptAt :=
      if acknowledge && decide (b.receiptAt (b.entryAt x).state = .retained) then
        update b.receiptAt (b.entryAt x).state .acknowledged
      else b.receiptAt }

/-- The loop over the list of `b₀` came to the entry `x`. -/
structure Walking (b₀ b : AckBuffer) (x : Nat) : Prop where
  head : b.receiptHead = ptr x b₀.nextEntry
  rest : ∀ y, x ≤ y → b.entryAt y = b₀.entryAt y

/-- The rule of the loop: it runs through the entries of the frames up to index `i`, and keeps
what each of its rounds keeps. -/
theorem Chain.dropLoop (h : Chain b₀ q) {first : Nat} {acknowledge : Bool}
    (hseq : ∀ (k : Nat) f, q.window[k]? = some f → sub64 f.item.stored.seqNum first = k)
    (inv : Nat → AckBuffer → Bool → Prop)
    (hround : ∀ x b removed, trackedCount q.gone ≤ x → x < entryOf q (i + 1) → Walking b₀ b x →
      inv x b removed →
      inv (x + 1) (b.takeOff acknowledge x) (removed || decide (b.deliverCursor = some x)))
    (hinit : inv (trackedCount q.gone) b₀ false) :
    let r := AckBuffer.dropLoop first i acknowledge b₀.nextEntry b₀ false
    Walking b₀ r.1 (entryOf q (i + 1)) ∧ inv (entryOf q (i + 1)) r.1 r.2 := by
  have hle := h.entryOf_le (k := i + 1)
  suffices hloop : ∀ fuel b removed x, trackedCount q.gone ≤ x → x ≤ entryOf q (i + 1) →
      entryOf q (i + 1) ≤ x + fuel → Walking b₀ b x → inv x b removed →
      Walking b₀ (AckBuffer.dropLoop first i acknowledge fuel b removed).1 (entryOf q (i + 1)) ∧
        inv (entryOf q (i + 1)) (AckBuffer.dropLoop first i acknowledge fuel b removed).1
          (AckBuffer.dropLoop first i acknowledge fuel b removed).2 from
    hloop _ b₀ false _ le_rfl le_entryOf (by omega) ⟨h.head, fun _ _ => rfl⟩ hinit
  intro fuel
  induction fuel with
  | zero =>
    intro b removed x hx hxm hfuel hw hinv
    obtain rfl : x = entryOf q (i + 1) := by omega
    exact ⟨hw, hinv⟩
  | succ fuel ih =>
    intro b removed x hx hxm hfuel hw hinv
    -- nothing is left to drop
    have hstop : entryOf q (i + 1) ≤ x → Walking b₀ b (entryOf q (i + 1)) ∧
        inv (entryOf q (i + 1)) b removed := by
      intro hge
      obtain rfl : x = entryOf q (i + 1) := by omega
      exact ⟨hw, hinv⟩
    unfold AckBuffer.dropLoop
    by_cases hlt : x < b₀.nextEntry
    · have hki := h.dropped_iff (i := i) hseq hx hlt (hw.rest x le_rfl)
      rw [hw.head, ptr_of_lt hlt]
      simp only
      by_cases hrem : sub64 (b.entryAt x).seq first ≤ i
      · -- the head belongs to the removed prefix
        rw [if_pos hrem]
        have hxlt := hki.1 hrem
        refine ih (b.takeOff acknowledge x) _ (x + 1) (by omega) hxlt (by omega) ⟨?_, ?_⟩
          (hround x b removed hx hxlt hw hinv)
        · show (b.entryAt x).next = _
          rw [hw.rest x le_rfl]
          exact h.links x hx hlt
        · intro y hy
          show update b.entryAt x _ y = _
          rw [update_of_ne (by omega)]
          exact hw.rest y (by omega)
      · rw [if_neg hrem]
        exact hstop (Nat.le_of_not_lt (mt hki.2 hrem))
    · rw [hw.head, ptr_of_le (by omega)]
      exact hstop (by omega)

/-- The loop leaves the cursor alone, and its flag tells whether the cursor was on an entry it
took off. -/
theorem Chain.dropLoop_cursor (h : Chain b₀ q) {first : Nat} (acknowledge : Bool)
    (hseq : ∀ (k : Nat) f, q.window[k]? = some f → sub64 f.item.stored.seqNum first = k) :
    let r := AckBuffer.dropLoop first i acknowledge b₀.nextEntry b₀ false
    Walking b₀ r.1 (entryOf q (i + 1)) ∧ r.1.deliverCursor = b₀.deliverCursor ∧
      (r.2 = true ↔ ∃ y, trackedCount q.gone ≤ y ∧ y < entryOf q (i + 1) ∧
        b₀.deliverCursor = some y) := by
  refine h.dropLoop hseq (fun x b removed => b.deliverCursor = b₀.deliverCursor ∧
    (removed = true ↔ ∃ y, trackedCount q.gone ≤ y ∧ y < x ∧ b₀.deliverCursor = some y)) ?_ ?_
  · rintro x b removed hx - - ⟨hcur, hrem⟩
    refine ⟨hcur, ?_⟩
    rw [Bool.or_eq_true, decide_eq_true_eq, hcur, hrem]
    constructor
    · rintro (⟨y, hy₁, hy₂, hy⟩ | hc)
      · exact ⟨y, hy₁, by omega, hy⟩
      · exact ⟨x, hx, by omega, hc⟩
    · rintro ⟨y, hy₁, hy₂, hy⟩
      rcases Nat.lt_succ_iff_lt_or_eq.1 hy₂ with hlt | rfl
      · exact .inl ⟨y, hy₁, hlt, hy⟩
      · exact .inr hy
  · refine ⟨rfl, fun hno => absurd hno Bool.false_ne_true, ?_⟩
    rintro ⟨y, hy₁, hy₂, -⟩
    omega

/-- Dropping the entries of the first `i + 1` slots. -/
theorem Chain.dropReceiptsLocked (h : Chain b q) {first : Nat} (acknowledge : Bool)
    (hseq : ∀ (k : Nat) f, q.window[k]? = some f → sub64 f.item.stored.seqNum first = k)
    (hg : ∀ f, (g f).item = f.item) :
    Chain (b.dropReceiptsLocked first i acknowledge) (q.remove (i + 1) g) := by
  have hgone : trackedCount (q.gone ++ (q.window.take (i + 1)).map g) = entryOf q (i + 1) := by
    rw [trackedCount_append]
    unfold entryOf
    congr 1
    refine trackedCount_congr ?_
    rw [List.map_map]
    exact List.map_congr_left fun f _ => hg f
  have hentryOf : ∀ k, entryOf (q.remove (i + 1) g) k = entryOf q (i + 1 + k) := by
    intro k
    show trackedCount (q.gone ++ (q.window.take (i + 1)).map g) +
      trackedCount ((q.window.drop (i + 1)).take k) = _
    rw [hgone]
    have htake : q.window.take (i + 1 + k) =
        q.window.take (i + 1) ++ (q.window.drop (i + 1)).take k := List.take_add
    unfold entryOf
    rw [htake, trackedCount_append]
    omega
  have hsplit := trackedCount_split q.window (i + 1)
  have hcount := h.count
  have hm : entryOf q (i + 1) = trackedCount q.gone + trackedCount (q.window.take (i + 1)) := rfl
  obtain ⟨⟨hhead, hent⟩, hcur, hrem⟩ := h.dropLoop_cursor (i := i) acknowledge hseq
  have hnext : (AckBuffer.dropLoop first i acknowledge b.nextEntry b false).1.nextEntry =
      b.nextEntry := by
    have hun := congrArg nextEntry (dropLoop_unlisted first i acknowledge b.nextEntry b false)
    exact hun
  have htail := dropLoop_tail first i acknowledge b.nextEntry b false
  unfold AckBuffer.dropReceiptsLocked
  generalize AckBuffer.dropLoop first i acknowledge b.nextEntry b false = r at *
  obtain ⟨s, cursorRemoved⟩ := r
  simp only at hhead hcur hent hrem hnext htail ⊢
  -- the cursor moves only if its entry was dropped
  have hcursor : (if cursorRemoved then s.receiptHead else s.deliverCursor) =
      ptr (entryOf q (i + 1 + (q.next - (i + 1)))) b.nextEntry := by
    have hbase : trackedCount q.gone ≤ entryOf q q.next := le_entryOf
    have hcursor₀ := h.cursor
    by_cases hn : i + 1 ≤ q.next
    · have hmono := entryOf_mono (q := q) hn
      have hkeep : cursorRemoved = false := by
        by_contra hne
        rw [Bool.not_eq_false, hrem] at hne
        obtain ⟨y, h₁, h₂, hy⟩ := hne
        rw [hcursor₀] at hy
        unfold ptr at hy
        split_ifs at hy
        have := Option.some.inj hy
        omega
      rw [hkeep, if_neg Bool.false_ne_true, hcur, hcursor₀,
        show i + 1 + (q.next - (i + 1)) = q.next by omega]
    · rw [show i + 1 + (q.next - (i + 1)) = i + 1 by omega]
      have hmono := entryOf_mono (q := q) (show q.next ≤ i + 1 by omega)
      cases hc : cursorRemoved with
      | true =>
        rw [if_pos rfl]
        exact hhead
      | false =>
        rw [if_neg Bool.false_ne_true, hcur, hcursor₀]
        by_cases heq : entryOf q q.next = entryOf q (i + 1)
        · rw [heq]
        · -- an entry before the border would have been dropped
          exfalso
          have hlt : entryOf q q.next < b.nextEntry := by
            have := h.entryOf_le (k := i + 1)
            omega
          rw [hc] at hrem
          refine Bool.false_ne_true (hrem.2 ⟨entryOf q q.next, hbase, by omega, ?_⟩)
          rw [hcursor₀, ptr_of_lt hlt]
  have hview : (if cursorRemoved then
        { (if s.receiptHead = none then { s with receiptTail := none } else s) with
          deliverCursor := (if s.receiptHead = none then { s with receiptTail := none }
            else s).receiptHead }
      else if s.receiptHead = none then { s with receiptTail := none } else s).receiptView =
      (s.receiptHead, (if s.receiptHead = none then none else s.receiptTail),
        (if cursorRemoved then s.receiptHead else s.deliverCursor), s.entryAt, s.nextEntry) := by
    cases cursorRemoved <;> by_cases hh : s.receiptHead = none <;> simp [hh, receiptView]
  refine Chain.congr (b := { s with
    receiptTail := if s.receiptHead = none then none else s.receiptTail
    deliverCursor := if cursorRemoved then s.receiptHead else s.deliverCursor }) ?_ hview
  constructor
  · show s.nextEntry = trackedCount (q.gone ++ _) + trackedCount (q.window.drop (i + 1))
    rw [hnext, hcount, hgone]
    omega
  · show s.receiptHead = ptr (entryOf (q.remove (i + 1) g) 0) s.nextEntry
    rw [hentryOf, hnext]
    exact hhead
  · show (if s.receiptHead = none then none else s.receiptTail) =
      if trackedCount (q.window.drop (i + 1)) = 0 then none else some (s.nextEntry - 1)
    rw [hhead, htail, h.tail, hnext]
    by_cases hz : trackedCount (q.window.drop (i + 1)) = 0
    · rw [ptr_of_le (by omega), if_pos rfl, if_pos hz]
    · rw [ptr_of_lt (by omega), if_neg (Option.some_ne_none _), if_neg hz, if_neg (by omega)]
  · intro x h₁ h₂
    have h₁' : entryOf q (i + 1) ≤ x := by
      rw [← hgone]
      exact h₁
    have h₂' : x < b.nextEntry := by
      rw [← hnext]
      exact h₂
    show (s.entryAt x).next = ptr (x + 1) s.nextEntry
    rw [hent x h₁', hnext]
    exact h.links x (by omega) h₂'
  · intro k f hf ht
    have hf' : q.window[i + 1 + k]? = some f := by
      rw [← List.getElem?_drop]
      exact hf
    show Entry (s.entryAt (entryOf (q.remove (i + 1) g) k)) f
    rw [hentryOf, hent _ (entryOf_mono (Nat.le_add_right _ _))]
    exact h.entries _ f hf' ht
  · show (if cursorRemoved then s.receiptHead else s.deliverCursor) =
      ptr (entryOf (q.remove (i + 1) g) (q.next - (i + 1))) s.nextEntry
    rw [hentryOf, hnext]
    exact hcursor

/-! ## Taking the cursor -/

/-- The cursor is taken exactly for a tracked slot, and moves past it. -/
theorem Chain.takeCursor (h : Chain b { q with next := j }) (hs : Slots b { q with next := j })
    (hf : q.window[j]? = some f) : b.takeCursor j =
      ({ b with deliverCursor := ptr (entryOf q (j + 1)) b.nextEntry },
        if tracked f then some (entryOf q j) else none) := by
  have hcur : b.deliverCursor = ptr (entryOf q j) b.nextEntry := h.cursor
  have hsucc := entryOf_succ (q := q) hf
  unfold AckBuffer.takeCursor
  by_cases ht : tracked f = true
  · have hlt : entryOf q j < b.nextEntry := h.entryOf_lt hf ht
    have he : Entry (b.entryAt (entryOf q j)) f := h.entries j f hf ht
    have hidx : sub64 (b.entryAt (entryOf q j)).seq b.firstSeqNum = j := by
      rw [he.seq]
      exact hs.index_at hf
    have hlink : (b.entryAt (entryOf q j)).next = ptr (entryOf q j + 1) b.nextEntry :=
      h.links _ le_entryOf hlt
    rw [if_pos ht] at hsucc
    rw [hcur, ptr_of_lt hlt, if_pos ht]
    simp only [hidx, if_true]
    rw [hlink, hsucc]
  · rw [if_neg ht] at hsucc
    have hstay : { b with deliverCursor := ptr (entryOf q (j + 1)) b.nextEntry } = b := by
      rw [hsucc, Nat.add_zero, ← hcur]
    rw [if_neg ht, hstay, hcur]
    by_cases hlt : entryOf q j < b.nextEntry
    · rw [ptr_of_lt hlt]
      obtain ⟨k, x, hx, hxt, hk, he⟩ := h.frame_of (x := entryOf q j) le_entryOf hlt
      have hidx : sub64 (b.entryAt (entryOf q j)).seq b.firstSeqNum = k := by
        rw [he.seq]
        exact hs.index_at hx
      -- the entry at the cursor belongs to a later slot
      have hne : k ≠ j := by
        rintro rfl
        have hx' : q.window[k]? = some x := hx
        rw [hf] at hx'
        rw [Option.some.inj hx'] at ht
        exact ht hxt
      simp only [hidx, if_neg hne]
    · rw [ptr_of_le (by omega)]

end AckBuffer

end UspClient
