import UspClient.Buffer.Requests

/-!
# What a call does to the counters

Apart from an add, every call is a sequence of deals: moves of the queue (delivery state,
retirements, removals), a wake channel that is made, sealing, a new capacity, `Close`. An
invariant of the byte counters needs one lemma for each deal. An add finds the buffer
stopped, is refused for one of three reasons, or is admitted after its charge.

* `blocked_has_request`: an add that the byte limits refuse finds a request pending.
-/

namespace UspClient

open Word64 Replay AckBuffer

namespace AckBuffer

variable {b b' : AckBuffer} {bb bb' : ByteBudget} {q q' : Queue Admission}

/-! ## Deals -/

inductive Deal : Account → Account → Prop where
  | move {c c' : Account} : Move c c' → Deal c c'
  | sample (b : AckBuffer) (bb : ByteBudget) (q : Queue Admission) :
      Deal (b, bb, q) (b.sampleWake.1, bb, q)
  | stop (b : AckBuffer) (bb : ByteBudget) (q : Queue Admission) :
      Deal (b, bb, q) (b.beginDrain, bb, q)
  | resize (b : AckBuffer) (bb : ByteBudget) (q : Queue Admission) (n : Nat) :
      Deal (b, bb, q) (b.updateCapacity n, bb, q)
  | close (b : AckBuffer) (bb : ByteBudget) (q : Queue Admission) :
      Deal (b, bb, q) ((b.close bb).1, (b.close bb).2, q)

def Deals : Account → Account → Prop := Relation.ReflTransGen Deal

/-- An invariant of the deals holds after a call. -/
theorem Deals.keep {c₁ c₂ : Account} (h : Deals c₁ c₂) (P : Account → Prop)
    (hstep : ∀ c c', Deal c c' → P c → P c') (hP : P c₁) : P c₂ := by
  induction h with
  | refl => exact hP
  | tail _ hlast ih => exact hstep _ _ hlast ih

theorem Moves.deals {c₁ c₂ : Account} (h : Moves c₁ c₂) : Deals c₁ c₂ :=
  h.keep (Deals c₁) (fun _ _ hmove hdeals => hdeals.tail (.move hmove)) .refl

theorem Deal.deals {c₁ c₂ : Account} (h : Deal c₁ c₂) : Deals c₁ c₂ :=
  Relation.ReflTransGen.single h

theorem drainSection_deals (b : AckBuffer) (bb : ByteBudget) (q : Queue Admission)
    (first ctxDone : Bool) : Deals (b, bb, q) ((b.drainSection first ctxDone).1, bb, q) := by
  have hround : ∀ b₁ : AckBuffer, Deals (b₁, bb, q) ((b₁.drainRound ctxDone).1, bb, q) := by
    intro b₁
    rcases drainRound_cases b₁ ctxDone with heq | heq
    · rw [heq]
      exact .refl
    · rw [heq]
      exact (Deal.sample b₁ bb q).deals
  unfold drainSection
  split_ifs
  · exact (Deal.stop b bb q).deals.trans (hround _)
  · exact hround b

theorem Deal.meter {c c' : Account} (h : Deal c c') (hm : Meter c.1 c.2.2) : Meter c'.1 c'.2.2 := by
  cases h with
  | move hmove => exact (Move.pays hmove hm).1
  | sample b bb q => exact hm.congr rfl rfl rfl rfl rfl id
  | stop b bb q => exact hm.beginDrain
  | resize b bb q n => exact hm.updateCapacity n
  | close b bb q => exact hm.close bb

theorem Deal.flags {c c' : Account} (h : Deal c c') (hf : Flags c.1 c.2.2) : Flags c'.1 c'.2.2 := by
  cases h with
  | move hmove => exact Move.flags hmove hf
  | sample b bb q => exact hf.congr rfl
  | stop b bb q => exact hf.beginDrain
  | resize b bb q n => exact hf.updateCapacity n
  | close b bb q => exact hf.close bb

/-- What no call changes. -/
def configView (b : AckBuffer) : Bool × Nat × Bool × Option GroupId :=
  (b.accounting, b.maxBytes, b.shared, b.group)

theorem configView_of_settings (h : b'.settingsView = b.settingsView) :
    b'.configView = b.configView :=
  congrArg (fun v => (v.1.1, v.1.2.1, v.1.2.2.1, v.1.2.2.2.1)) h

theorem updateCapacity_config (n : Nat) : (b.updateCapacity n).configView = b.configView := by
  unfold updateCapacity
  split_ifs <;> rfl

theorem Deal.config {c c' : Account} (h : Deal c c') : c'.1.configView = c.1.configView := by
  cases h with
  | move hmove => exact configView_of_settings (Move.settings hmove)
  | sample | stop | close => rfl
  | resize b bb q n => exact updateCapacity_config n

theorem Deals.config {c c' : Account} (h : Deals c c') : c'.1.configView = c.1.configView :=
  h.keep (fun x => x.1.configView = c.1.configView) (fun _ _ hd hx => hd.config.trans hx) rfl

theorem releaseShared_of_config (h : b'.configView = b.configView) (bb : ByteBudget) (n x : Nat) :
    b'.releaseShared bb n x = b.releaseShared bb n x := by
  simp only [configView, Prod.mk.injEq] at h
  obtain ⟨-, -, hs, hg⟩ := h
  unfold releaseShared
  rw [hs, hg]

/-- `Close` returns what the buffer still holds, then leaves its group. -/
theorem close_budget (b : AckBuffer) (bb : ByteBudget) :
    (b.close bb).2 =
      if b.registered then (b.releaseShared bb b.bytes b.escapeBytes).unregister b.group
      else b.releaseShared bb b.bytes b.escapeBytes := by
  have hrel : (if b.bytes ≠ 0 then b.releaseShared bb b.bytes b.escapeBytes else bb) =
      b.releaseShared bb b.bytes b.escapeBytes := by
    split_ifs with h0
    · rfl
    · rw [not_not.1 h0, releaseShared_zero]
  show (if b.registered then
    (if b.bytes ≠ 0 then b.releaseShared bb b.bytes b.escapeBytes else bb).unregister b.group
    else if b.bytes ≠ 0 then b.releaseShared bb b.bytes b.escapeBytes else bb) = _
  rw [hrel]

theorem Meter.close_escape (hm : Meter b q) (bb : ByteBudget) : (b.close bb).1.escapeBytes = 0 :=
  ((hm.close bb).closed rfl).2

/-! ## Releases of whole frames

A release returns the sizes of frames. Beside the escape it names it returns nothing, or at
least the size of one frame. -/

/-- Every frame that is held takes at least `least`. -/
def Coarse (least : Nat) (q : Queue Admission) : Prop :=
  ∀ f ∈ q.window, f.retired = false → least ≤ f.item.size

theorem Coarse.sizes {least : Nat} (h : Coarse least q) (y : Nat)
    (hy : y ∈ q.window.map heldSize) : y = 0 ∨ least ≤ y := by
  rcases List.mem_map.1 hy with ⟨f, hf, rfl⟩
  unfold heldSize
  cases hr : f.retired with
  | true => exact .inl rfl
  | false => exact .inr (h f hf hr)

/-- A prefix of the window, beside one of its frames. -/
theorem Coarse.beside {least i n : Nat} {f : Frame Admission} (h : Coarse least q)
    (hf : q.window[i]? = some f) (hl : f.fate = .live) (hi : i < n) :
    f.item.size = ((q.window.map heldSize).take n).sum ∨
      f.item.size + least ≤ ((q.window.map heldSize).take n).sum := by
  have hat : ((q.window.map heldSize).take n)[i]? = some f.item.size := by
    rw [List.getElem?_take_of_lt hi]
    exact heldSize_at hf hl
  have hset := Slice.sum_set_add hat 0
  have hrest := Slice.sum_zero_or_le (l := ((q.window.map heldSize).take n).set i 0) fun y hy => by
    rcases List.mem_or_eq_of_mem_set hy with hmem | rfl
    · exact h.sizes y (List.mem_of_mem_take hmem)
    · exact .inl rfl
  omega

theorem Deal.coarse {c c' : Account} {least : Nat} (h : Deal c c') (hc : Coarse least c.2.2) :
    Coarse least c'.2.2 := by
  cases h with
  | move hmove =>
    cases hmove with
    | idle b b' bb q q' _ _ hmark =>
      intro f hf hr
      rcases List.mem_iff_getElem?.1 hf with ⟨i, hi⟩
      rcases mark_at hmark.symm hi with ⟨f', hf', hitem, hfate⟩
      rw [← hitem]
      refine hc f' (List.mem_of_getElem? hf') ?_
      unfold Frame.retired at hr ⊢
      rwa [hfate]
    | retire b bb q i entry f hs hf hl _ =>
      intro y hy hr
      rcases List.mem_iff_getElem?.1 hy with ⟨j, hj⟩
      rw [List.getElem?_modify] at hj
      rcases Option.map_eq_some_iff.1 hj with ⟨z, hz, rfl⟩
      split_ifs at hr ⊢ with hij
      · cases hr
      · exact hc z (List.mem_of_getElem? hz) hr
    | remove b bb q i g _ _ _ => exact fun f hf => hc f (List.mem_of_mem_drop hf)
  | sample | stop | resize | close => exact hc

/-- What a move takes off the counters. -/
theorem Paid.sums {n x : Nat} (hp : Paid b bb b' bb' n x) :
    b'.bytes + n = b.bytes ∧ b'.escapeBytes + x = b.escapeBytes := by
  have h₁ := hp.due.bytes
  have h₂ := hp.due.escape
  have h₃ := hp.bytes
  have h₄ := hp.escape
  omega

/-- A move releases whole frames. -/
theorem Move.whole {least n x : Nat} (h : Move (b, bb, q) (b', bb', q')) (hm : Meter b q)
    (hc : Coarse least q) (hp : Paid b bb b' bb' n x) : x = n ∨ x + least ≤ n := by
  rcases hp.sums with ⟨hn, hx⟩
  have hpart := hp.due.part
  have hclosed : b'.isClosed = b.isClosed := congrArg (fun v => v.2.1.1) (Move.settings h)
  have hm' := (Move.pays h hm).1
  cases hopen : b.isClosed with
  | true =>
    -- a closed buffer holds no bytes
    have hzero := (hm.closed hopen).1
    omega
  | false =>
    have hb := hm.bytes
    have hb' := hm'.bytes
    rw [hopen, if_neg Bool.false_ne_true] at hb
    rw [hclosed, hopen, if_neg Bool.false_ne_true] at hb'
    -- the bytes released are the difference of the two windows
    cases h with
    | idle _ _ _ _ _ _ _ hmark =>
      rw [windowBytes_congr hmark] at hb'
      omega
    | retire _ _ _ i entry f hs hf hl hseq =>
      have hsum := windowBytes_retire hf hl
      have hlive : f.retired = false := by
        unfold Frame.retired
        rw [hl]
        rfl
      have hleast := hc f (List.mem_of_getElem? hf) hlive
      have hesc := (hs.retire_freed bb hf hl hseq).escape
      split_ifs at hesc with hgone
      · -- the escape itself
        rw [Bool.and_eq_true, decide_eq_true_eq] at hgone
        rcases hm.escape hgone.2.1 with ⟨-, j, f', hf', -, hseq', hsize', -⟩
        rcases hs.seq_inj hf' hf (hseq'.trans hgone.2.2) with ⟨-, rfl⟩
        omega
      · omega
    | remove _ _ _ i g hs hi _ =>
      have hsum := windowBytes_remove (q := q) (i + 1) g
      have hesc := (hm.remove_freed hs bb i).escape
      split_ifs at hesc with hgone
      · -- the escape leaves with the prefix
        rw [Bool.and_eq_true, decide_eq_true_eq] at hgone
        rcases hm.escape hgone.2.1 with ⟨-, j, f, hf, hl, hseq, hsize, -⟩
        have hj : j ≤ i := by
          rw [← hs.index_at hf, hseq]
          exact hgone.2.2
        have hbeside := hc.beside hf hl (show j < i + 1 by omega)
        omega
      · have htaken := Slice.sum_zero_or_le (l := (q.window.map heldSize).take (i + 1)) fun y hy =>
          hc.sizes y (List.mem_of_mem_take hy)
        omega

/-- So does `Close`. -/
theorem Meter.close_whole {least : Nat} (hm : Meter b q) (hc : Coarse least q) :
    b.escapeBytes = b.bytes ∨ b.escapeBytes + least ≤ b.bytes := by
  have hle := hm.escape_le
  cases hopen : b.isClosed with
  | true =>
    have hzero := (hm.closed hopen).1
    omega
  | false =>
    have hb := hm.bytes
    rw [hopen, if_neg Bool.false_ne_true] at hb
    unfold windowBytes at hb
    by_cases h0 : b.escapeBytes = 0
    · have hall := Slice.sum_zero_or_le hc.sizes
      omega
    · rcases hm.escape h0 with ⟨-, j, f, hf, hl, -, hsize, -⟩
      have hbeside := hc.beside hf hl (List.getElem?_eq_some_iff.1 hf).1
      rw [List.take_of_length_le (by rw [List.length_map])] at hbeside
      omega

/-- A ledger of the counters and of the registration holds after a call, if it allows every
release of whole frames the buffer was charged for, and to leave once nothing is held. -/
theorem Deals.pays_whole {c c' : Account} {least : Nat} (h : Deals c c') (hm : Meter c.1 c.2.2)
    (hc : Coarse least c.2.2) (L : ByteBudget → Nat → Nat → Bool → Prop)
    (hrel : ∀ bb m e r n x, L bb m e r → n ≤ m → x ≤ e → x ≤ n → n - x ≤ m - e →
      x = n ∨ x + least ≤ n → L (c.1.releaseShared bb n x) (m - n) (e - x) r)
    (hleave : ∀ bb, L bb 0 0 true → L (bb.unregister c.1.group) 0 0 false)
    (hL : L c.2.1 c.1.bytes c.1.escapeBytes c.1.registered) :
    L c'.2.1 c'.1.bytes c'.1.escapeBytes c'.1.registered := by
  -- the settings decide which budget is charged, so they are carried along
  have hall := h.keep (fun x => x.1.configView = c.1.configView ∧ Meter x.1 x.2.2 ∧
    Coarse least x.2.2 ∧ L x.2.1 x.1.bytes x.1.escapeBytes x.1.registered) ?_ ⟨rfl, hm, hc, hL⟩
  · exact hall.2.2.2
  intro c₁ c₂ hd hc₁
  obtain ⟨hset, hm₁, hcoarse, hL₁⟩ := hc₁
  refine ⟨hd.config.trans hset, hd.meter hm₁, hd.coarse hcoarse, ?_⟩
  cases hd with
  | @move c₁ c₂ hmove =>
    obtain ⟨-, n, x, hpaid⟩ := Move.pays hmove hm₁
    have hreg : c₂.1.registered = c₁.1.registered :=
      congrArg (fun v => v.1.2.2.2.2) (Move.settings hmove)
    have hwhole := Move.whole hmove hm₁ hcoarse hpaid
    rw [hpaid.bytes, hpaid.escape, hpaid.budget, hreg, releaseShared_of_config hset]
    exact hrel _ _ _ _ _ _ hL₁ hpaid.due.bytes hpaid.due.escape hpaid.due.part hpaid.due.rest
      hwhole
  | sample | stop => exact hL₁
  | resize b bb q n =>
    show L bb (b.updateCapacity n).bytes (b.updateCapacity n).escapeBytes
      (b.updateCapacity n).registered
    unfold updateCapacity
    split_ifs <;> exact hL₁
  | close b bb q =>
    show L (b.close bb).2 0 (b.close bb).1.escapeBytes false
    -- `Close` releases everything, then leaves
    have hempty := hrel _ _ _ _ b.bytes b.escapeBytes hL₁ le_rfl le_rfl hm₁.escape_le le_rfl
      (hm₁.close_whole hcoarse)
    rw [Nat.sub_self, Nat.sub_self, ← releaseShared_of_config hset] at hempty
    have hgroup : b.group = c.1.group := congrArg (fun v => v.2.2.2) hset
    rw [close_budget b bb, Meter.close_escape hm₁ bb]
    cases hreg : b.registered with
    | true =>
      rw [if_pos rfl, hgroup]
      rw [hreg] at hempty
      exact hleave _ hempty
    | false =>
      rw [if_neg Bool.false_ne_true]
      rw [hreg] at hempty
      exact hempty

/-- A ledger that need not know that frames are released whole. -/
theorem Deals.pays {c c' : Account} (h : Deals c c') (hm : Meter c.1 c.2.2)
    (L : ByteBudget → Nat → Nat → Bool → Prop)
    (hrel : ∀ bb m e r n x, L bb m e r → n ≤ m → x ≤ e → x ≤ n → n - x ≤ m - e →
      L (c.1.releaseShared bb n x) (m - n) (e - x) r)
    (hleave : ∀ bb, L bb 0 0 true → L (bb.unregister c.1.group) 0 0 false)
    (hL : L c.2.1 c.1.bytes c.1.escapeBytes c.1.registered) :
    L c'.2.1 c'.1.bytes c'.1.escapeBytes c'.1.registered :=
  h.pays_whole hm (fun _ _ _ => Nat.zero_le _) L
    (fun bb m e r n x hL₁ h₁ h₂ h₃ h₄ _ => hrel bb m e r n x hL₁ h₁ h₂ h₃ h₄) hleave hL

/-- How the buffer hangs on the budget: it counts bytes if it shares one, and it refers to its
group until it is closed. -/
structure Wired (b : AckBuffer) : Prop where
  metered : b.shared = true → b.accounting = true
  grouped : b.group ≠ none → b.shared = true
  registered : b.registered = (b.group.isSome && !b.isClosed)

theorem Wired.congr (h : Wired b) (hconfig : b'.configView = b.configView)
    (hreg : b'.registered = b.registered) (hclosed : b'.isClosed = b.isClosed) : Wired b' := by
  simp only [configView, Prod.mk.injEq] at hconfig
  obtain ⟨hacc, -, hshared, hgroup⟩ := hconfig
  refine ⟨?_, ?_, ?_⟩
  · rw [hshared, hacc]
    exact h.metered
  · rw [hgroup, hshared]
    exact h.grouped
  · rw [hreg, hgroup, hclosed]
    exact h.registered

theorem Wired.of_settings (h : Wired b) (hset : b'.settingsView = b.settingsView) : Wired b' :=
  h.congr (configView_of_settings hset) (congrArg (fun v => v.1.2.2.2.2) hset)
    (congrArg (fun v => v.2.1.1) hset)

theorem Deal.wired {c c' : Account} (h : Deal c c') (hw : Wired c.1) : Wired c'.1 := by
  cases h with
  | move hmove => exact hw.of_settings (Move.settings hmove)
  | sample | stop => exact hw.congr rfl rfl rfl
  | resize b bb q n =>
    refine hw.congr (updateCapacity_config n) ?_ ?_ <;>
    · unfold updateCapacity
      split_ifs <;> rfl
  | close b bb q =>
    refine ⟨hw.metered, hw.grouped, ?_⟩
    show false = (b.group.isSome && false)
    rw [Bool.and_false]

/-! ## A new buffer -/

theorem newAckBuffer_wired {o : AckBufferOptions} (h : (newAckBuffer o bb).2 = .ok b) :
    Wired b := by
  unfold newAckBuffer at h
  cases hshared : o.sharedBudget with
  | false =>
    rw [hshared] at h
    obtain rfl := Except.ok.inj h
    exact ⟨fun hno => absurd hno Bool.false_ne_true, fun hno => absurd rfl hno, rfl⟩
  | true =>
    rw [hshared, if_pos rfl] at h
    generalize bb.register o.budgetGroup = r at h
    obtain ⟨bb', res⟩ := r
    cases res with
    | error err => exact absurd h (by simp)
    | ok group =>
      obtain rfl := Except.ok.inj h
      refine ⟨fun _ => Bool.or_true _, fun _ => rfl, ?_⟩
      show group.isSome = (group.isSome && true)
      rw [Bool.and_true]

theorem newAckBuffer_meter {o : AckBufferOptions} (h : (newAckBuffer o bb).2 = .ok b) :
    Meter b {} := by
  obtain ⟨group, rfl⟩ := newAckBuffer_eq h
  refine ⟨rfl, by decide, fun _ f hf => absurd hf List.not_mem_nil, fun hne => absurd rfl hne, ?_⟩
  exact fun hc => absurd hc Bool.false_ne_true

theorem newAckBuffer_flags {o : AckBufferOptions} (h : (newAckBuffer o bb).2 = .ok b) :
    Flags b {} := by
  obtain ⟨group, rfl⟩ := newAckBuffer_eq h
  exact ⟨le_rfl, fun hne => absurd rfl hne⟩

/-! ## Adds -/

/-- Why `tryAddWithReceiptLocked` refuses, the budget it leaves and the waiter it returns. -/
inductive Refuses (b : AckBuffer) (bb : ByteBudget) (size : Nat) (waiter : Option WaiterId) :
    ByteBudget → Option WaiterId → Prop where
  /-- The window is full. -/
  | unavailable : b.isAvailable = false →
      Refuses b bb size waiter (b.cancelShared bb waiter) none
  /-- The buffer's own byte limit. -/
  | full : b.isAvailable = true → b.accounting = true → b.exceeds size = true →
      b.heldFlagged = true → Refuses b bb size waiter (b.cancelShared bb waiter) none
  /-- The shared budget. -/
  | wait : b.isAvailable = true → b.accounting = true → b.shared = true →
      (bb.reserveFor size (!b.heldFlagged) b.group waiter).2.ok = false →
      Refuses b bb size waiter (bb.reserveFor size (!b.heldFlagged) b.group waiter).1
        (bb.reserveFor size (!b.heldFlagged) b.group waiter).2.waiter

/-- A refusal by the buffer gives the waiter up. -/
theorem Refuses.cases {size : Nat} {waiter w : Option WaiterId}
    (h : Refuses b bb size waiter bb' w) :
    (w = none ∧ bb' = b.cancelShared bb waiter) ∨
      (b.shared = true ∧ (bb.reserveFor size (!b.heldFlagged) b.group waiter).2.ok = false ∧
        bb' = (bb.reserveFor size (!b.heldFlagged) b.group waiter).1 ∧
        w = (bb.reserveFor size (!b.heldFlagged) b.group waiter).2.waiter) := by
  cases h with
  | unavailable | full => exact .inl ⟨rfl, rfl⟩
  | wait _ _ hshared hno => exact .inr ⟨hshared, hno, rfl, rfl⟩

/-- How an admission is charged; the flag says that the budget counts it as an escape. -/
inductive Admits (b : AckBuffer) (bb : ByteBudget) (size : Nat) (waiter : Option WaiterId) :
    ByteBudget → Bool → Prop where
  | unmetered : b.accounting = false → Admits b bb size waiter bb false
  | alone : b.accounting = true → b.shared = false → Admits b bb size waiter bb false
  | charged : b.accounting = true → b.shared = true →
      (bb.reserveFor size (!b.heldFlagged) b.group waiter).2.ok = true →
      Admits b bb size waiter (bb.reserveFor size (!b.heldFlagged) b.group waiter).1
        (bb.reserveFor size (!b.heldFlagged) b.group waiter).2.overshot

/-- The budget charges an admission of a buffer that shares it. -/
theorem Admits.cases {size : Nat} {waiter : Option WaiterId} {overshot : Bool}
    (h : Admits b bb size waiter bb' overshot) :
    ((Wired b → b.shared = false) ∧ bb' = bb) ∨
      (b.accounting = true ∧ b.shared = true ∧
        (bb.reserveFor size (!b.heldFlagged) b.group waiter).2.ok = true ∧
        bb' = (bb.reserveFor size (!b.heldFlagged) b.group waiter).1 ∧
        overshot = (bb.reserveFor size (!b.heldFlagged) b.group waiter).2.overshot) := by
  cases h with
  | unmetered hacc =>
    refine .inl ⟨fun hwired => ?_, rfl⟩
    by_contra hshared
    exact Bool.false_ne_true (hacc.symm.trans (hwired.metered (Bool.not_eq_false _ ▸ hshared)))
  | alone hacc hshared => exact .inl ⟨fun _ => hshared, rfl⟩
  | charged hacc hshared hok => exact .inr ⟨hacc, hshared, hok, rfl, rfl⟩

theorem admitLocked_config (e : DataMessage) (size : Nat) (overshot : Bool)
    (receipt : Option ReceiptId) (m : Nat) :
    (b.admitLocked e size overshot receipt m).configView = b.configView :=
  configView_of_settings (admitLocked_settings e size overshot receipt m)

theorem admitLocked_bytes {e : DataMessage} {size : Nat} {overshot : Bool}
    {receipt : Option ReceiptId} {m : Nat} (hsum : b.bytes + size < 2 ^ 64) :
    (b.admitLocked e size overshot receipt m).bytes =
      if b.accounting then b.bytes + size else b.bytes := by
  rw [(admitLocked_counters e size overshot receipt m).1, add64_eq hsum]

/-- An escape is a forced admission. -/
theorem checkBytes_forced {size : Nat} {waiter : Option WaiterId} {forced : Bool} {step : Nat}
    (h : b.checkBytes bb size waiter = (bb', .room forced true step)) : forced = true := by
  unfold checkBytes at h
  simp only at h
  split_ifs at h <;>
    simp only [Prod.mk.injEq, ByteVerdict.room.injEq, reduceCtorEq, and_false, false_and,
      Bool.false_eq_true] at h
  all_goals
    obtain ⟨-, hforced, hover, -⟩ := h
    rw [← hforced, hover, Bool.or_true]

end AckBuffer

/-- The call is a round of an add. -/
def BufferOp.adds : BufferOp → Bool
  | .add .. => true
  | _ => false

namespace BufferState

variable {s s₀ : BufferState} {q : Queue Admission} {bb : ByteBudget} {tr : List BufferStep}

/-- Every call but an add deals with the queue it finds. -/
theorem Tracks.deals (h : Tracks s q) (bb : ByteBudget) {op : BufferOp} (hop : op.adds = false) :
    ∃ q', Tracks (s.apply bb op).1 q' ∧ (s.apply bb op).1.log = s.log ∧
      Deals (s.buf, bb, q) ((s.apply bb op).1.buf, (s.apply bb op).2, q') := by
  cases op with
  | add e size waiter receipt m => cases hop
  | getNextToDeliver =>
    obtain ⟨ht, -⟩ := h.deliver bb
    obtain ⟨-, hled, hbb, -, -⟩ := h.refines.getNextToDeliver bb
    -- a delivery releases nothing: the fence is not reached
    have hgone : q.deliver.gone = q.gone := by
      unfold Queue.deliver
      split_ifs <;> rfl
    refine ⟨_, ht, rfl, ?_⟩
    show Deals _ ((s.buf.getNextToDeliver bb).1, (s.buf.getNextToDeliver bb).2.1, _)
    rw [hbb]
    exact (Deal.move (.idle _ _ _ _ _ hled hgone (deliver_marks q))).deals
  | ack seq =>
    have hstep := ack_step s.buf bb seq.toNat
    show ∃ q', Tracks { s with buf := (s.buf.ack bb seq.toNat).1 } q' ∧ s.log = s.log ∧
      Deals _ ((s.buf.ack bb seq.toNat).1, (s.buf.ack bb seq.toNat).2.1, q')
    generalize s.buf.ack bb seq.toNat = r at hstep ⊢
    cases hstep with
    | rejected | late => exact ⟨q, h, rfl, .refl⟩
    | removed hfree _ =>
      rw [h.refines.slots.free] at hfree
      refine ⟨_, ⟨h.refines.ackRemove bb hfree, ?_⟩, rfl, (h.refines.ackRemove_moves bb hfree).deals⟩
      rw [Queue.items_ack, h.items]
  | resetDelivery =>
    obtain ⟨href, hmoves⟩ := h.refines.resetDelivery bb
    refine ⟨q.reset, ⟨href, ?_⟩, rfl, hmoves.deals⟩
    rw [Queue.items_reset, h.items]
    rfl
  | updateCapacity c =>
    exact ⟨q, ⟨h.refines.updateCapacity c.toNat_lt, h.items⟩, rfl, (Deal.resize ..).deals⟩
  | beginDrain => exact ⟨q, ⟨h.refines.beginDrain, h.items⟩, rfl, (Deal.stop ..).deals⟩
  | drain first ctxDone =>
    exact ⟨q, ⟨h.refines.drainSection first ctxDone, h.items⟩, rfl,
      drainSection_deals _ _ _ _ _⟩
  | close => exact ⟨q, ⟨h.refines.close bb, h.items⟩, rfl, (Deal.close ..).deals⟩

/-- The three outcomes of a round of `addWithReceipt`: the state, the budget, the waiter of
the caller, where the call goes and whether it was charged as an escape. -/
inductive Added (s : BufferState) (bb : ByteBudget) (e : DataMessage) (size : Nat)
    (waiter : Option WaiterId) :
    BufferState → ByteBudget → Option WaiterId → AddRound → Bool → Prop where
  | closed : s.buf.isRunning = false → Added s bb e size waiter s bb waiter .closed false
  | refused (bb' : ByteBudget) (w : Option WaiterId) : s.buf.isRunning = true →
      Refuses s.buf bb size waiter bb' w →
      Added s bb e size waiter { s with buf := s.buf.sampleWake.1 } bb' w
        (.refused s.buf.sampleWake.2 (w.bind fun w => (bb'.waiterAt w).wake)) false
  | admitted (bb' : ByteBudget) (adm : Admission) : s.buf.isRunning = true →
      s.buf.isAvailable = true → Admits s.buf bb size waiter bb' adm.overshot →
      (adm.overshot = true → adm.stored.ackRequested = true) →
      adm.stored.seqNum = s.buf.nextSeqNum → adm.size = size → adm.given = e →
      Added s bb e size waiter
        { s with
          buf := s.buf.admitLocked adm.stored adm.size adm.overshot adm.receipt adm.maxTransmissions
          log := s.log ++ [adm] } bb' none .admitted adm.overshot

theorem added_of (s : BufferState) (bb : ByteBudget) (e : DataMessage) (size : Nat)
    (waiter : Option WaiterId) (receipt : Option ReceiptId) (m : UInt32) :
    Added s bb e size waiter (s.apply bb (.add e size waiter receipt m)).1
      (s.apply bb (.add e size waiter receipt m)).2
      (s.buf.addRound bb e size waiter receipt m.toNat).1.waiter
      (s.buf.addRound bb e size waiter receipt m.toNat).2
      (s.buf.addRound bb e size waiter receipt m.toNat).1.overshot := by
  -- without an admission the history stays
  have hlog : ∀ b : AckBuffer, { s with buf := b, log := s.log ++ [] } = { s with buf := b } := by
    intro b
    rw [List.append_nil]
  unfold apply addRound tryAddWithReceiptLocked
  cases hrun : s.buf.isRunning with
  | false =>
    have hclosed : Added s bb e size waiter { s with buf := s.buf, log := s.log ++ [] } bb waiter
        .closed false := by
      rw [hlog s.buf]
      exact .closed hrun
    exact hclosed
  | true =>
    simp only [Bool.not_true, Bool.false_eq_true, if_false]
    have hrefuse : ∀ bb' w, Refuses s.buf bb size waiter bb' w →
        Added s bb e size waiter { s with buf := s.buf.sampleWake.1, log := s.log ++ [] } bb' w
          (.refused s.buf.sampleWake.2 (w.bind fun w => (bb'.waiterAt w).wake)) false := by
      intro bb' w hwhy
      rw [hlog]
      exact .refused bb' w hrun hwhy
    cases havail : s.buf.isAvailable with
    | false => exact hrefuse _ none (.unavailable havail)
    | true =>
      simp only [Bool.not_true, Bool.false_eq_true, if_false]
      have hcheck := checkBytes_step s.buf bb size waiter
      obtain ⟨r, hr⟩ : ∃ r, s.buf.checkBytes bb size waiter = r := ⟨_, rfl⟩
      rw [hr] at hcheck ⊢
      have hadmit : ∀ bb' stored overshot, Admits s.buf bb size waiter bb' overshot →
          (overshot = true → stored.ackRequested = true) → stored.seqNum = s.buf.nextSeqNum →
          Added s bb e size waiter
            { s with
              buf := s.buf.admitLocked stored size overshot receipt m.toNat
              log := s.log ++ [⟨e, stored, size, receipt, m.toNat, overshot⟩] } bb' none .admitted
            overshot :=
        fun bb' stored overshot hwhy hflag hseq =>
          .admitted bb' ⟨e, stored, size, receipt, m.toNat, overshot⟩ hrun havail hwhy hflag hseq rfl
            rfl
      cases hcheck with
      | unmetered hacc =>
        exact hadmit _ _ _ (.unmetered hacc) (fun h => absurd h Bool.noConfusion) rfl
      | full hacc hexc hheld => exact hrefuse _ none (.full havail hacc hexc hheld)
      | alone forced step hacc _ hsh =>
        exact hadmit _ _ _ (.alone hacc hsh) (fun h => absurd h Bool.noConfusion) rfl
      | wait hacc _ hsh hno => exact hrefuse _ _ (.wait havail hacc hsh hno)
      | charged forced step hacc _ hsh hok =>
        refine hadmit _ _ _ (.charged hacc hsh hok) (fun hover => ?_) rfl
        rw [hover] at hr
        show (_ || _ || forced || _) = true
        rw [checkBytes_forced hr, Bool.or_true, Bool.true_or]

theorem added (s : BufferState) (bb : ByteBudget) (e : DataMessage) (size : Nat)
    (waiter : Option WaiterId) (receipt : Option ReceiptId) (m : UInt32) : ∃ s' bb' w out escaped,
      s.apply bb (.add e size waiter receipt m) = (s', bb') ∧
      (s.buf.addRound bb e size waiter receipt m.toNat).1.waiter = w ∧
      (s.buf.addRound bb e size waiter receipt m.toNat).2 = out ∧
      (s.buf.addRound bb e size waiter receipt m.toNat).1.overshot = escaped ∧
      Added s bb e size waiter s' bb' w out escaped :=
  ⟨_, _, _, _, _, rfl, rfl, rfl, rfl, added_of s bb e size waiter receipt m⟩

/-- The admission of a message. -/
theorem Tracks.admission (h : Tracks s q) {adm : Admission} (havail : s.buf.isAvailable = true)
    (hseq : adm.stored.seqNum = s.buf.nextSeqNum) :
    Tracks { s with
        buf := s.buf.admitLocked adm.stored adm.size adm.overshot adm.receipt adm.maxTransmissions
        log := s.log ++ [adm] } (q.push { item := adm, limit := adm.limit }) := by
  refine ⟨h.refines.admitLocked havail hseq, ?_⟩
  rw [Queue.items_push, h.items]

theorem Tracks.flags_admission (h : Tracks s q)
    (hf : s.log.length < 2 ^ 64 → Flags s.buf q) {adm : Admission}
    (hseq : adm.stored.seqNum = s.buf.nextSeqNum) (hlen : (s.log ++ [adm]).length < 2 ^ 64) :
    Flags
      (s.buf.admitLocked adm.stored adm.size adm.overshot adm.receipt adm.maxTransmissions)
      (q.push { item := adm, limit := adm.limit }) := by
  rw [List.length_append, List.length_singleton, ← h.items] at hlen
  rw [← h.items] at hf
  exact (hf (by omega)).admitLocked h.refines.slots hseq hlen

/-- The last flag is kept by every call, as long as the sequence numbers do not repeat. -/
theorem Tracks.flags_step (h : Tracks s q) (hf : s.log.length < 2 ^ 64 → Flags s.buf q)
    (bb : ByteBudget) (op : BufferOp) : ∃ q', Tracks (s.apply bb op).1 q' ∧
      ((s.apply bb op).1.log.length < 2 ^ 64 → Flags (s.apply bb op).1.buf q') := by
  cases hop : op.adds with
  | false =>
    obtain ⟨q', ht, hlog, hdeals⟩ := h.deals bb hop
    refine ⟨q', ht, fun hlen => ?_⟩
    rw [hlog] at hlen
    exact hdeals.keep (fun c => Flags c.1 c.2.2) (fun _ _ => Deal.flags) (hf hlen)
  | true =>
    cases op with
    | add e size waiter receipt m =>
      obtain ⟨s', bb', w, out, escaped, happ, -, -, -, hadd⟩ := added s bb e size waiter receipt m
      rw [happ]
      cases hadd with
      | closed _ => exact ⟨q, h, hf⟩
      | refused bb' w _ _ =>
        exact ⟨q, ⟨h.refines.sampleWake, h.items⟩, fun hlen => (hf hlen).congr rfl⟩
      | admitted bb' adm _ havail _ _ hseq _ _ => exact ⟨_, h.admission havail hseq, h.flags_admission hf hseq⟩
    | _ => cases hop

/-- A buffer with its queue, its byte counters and its last flag. -/
structure Metered (s : BufferState) (q : Queue Admission) : Prop where
  tracks : Tracks s q
  meter : Meter s.buf q
  flags : s.log.length < 2 ^ 64 → Flags s.buf q
  wired : Wired s.buf

theorem Metered.deal (h : Metered s q) (bb : ByteBudget) {op : BufferOp} (hop : op.adds = false) :
    ∃ q', Metered (s.apply bb op).1 q' ∧ (s.apply bb op).1.log = s.log ∧
      Deals (s.buf, bb, q) ((s.apply bb op).1.buf, (s.apply bb op).2, q') := by
  obtain ⟨q', ht, hlog, hdeals⟩ := h.tracks.deals bb hop
  refine ⟨q', ⟨ht, ?_, fun hlen => ?_, ?_⟩, hlog, hdeals⟩
  · exact hdeals.keep (fun c => Meter c.1 c.2.2) (fun _ _ => Deal.meter) h.meter
  · rw [hlog] at hlen
    exact hdeals.keep (fun c => Flags c.1 c.2.2) (fun _ _ => Deal.flags)
      (h.flags hlen)
  · exact hdeals.keep (fun c => Wired c.1) (fun _ _ => Deal.wired) h.wired

theorem Metered.sampleWake (h : Metered s q) : Metered { s with buf := s.buf.sampleWake.1 } q :=
  ⟨⟨h.tracks.refines.sampleWake, h.tracks.items⟩, h.meter.congr rfl rfl rfl rfl rfl id,
    fun hlen => (h.flags hlen).congr rfl, h.wired.congr rfl rfl rfl⟩

/-- An open buffer holds the bytes of its window. -/
theorem Metered.bytes_open (h : Metered s q) (hrun : s.buf.isRunning = true) :
    s.buf.isClosed = false ∧ s.buf.bytes = windowBytes q := by
  have hopen : s.buf.isClosed = false := by
    by_contra hc
    rw [Bool.not_eq_false] at hc
    rw [h.meter.stopped hc] at hrun
    cases hrun
  refine ⟨hopen, ?_⟩
  rw [h.meter.bytes, hopen, if_neg Bool.false_ne_true]

theorem Metered.admission (h : Metered s q) {adm : Admission} (hrun : s.buf.isRunning = true)
    (havail : s.buf.isAvailable = true) (hseq : adm.stored.seqNum = s.buf.nextSeqNum)
    (hsum : s.buf.bytes + adm.size < 2 ^ 64) (hsize : s.buf.accounting = false → adm.size = 0) :
    Metered { s with
        buf := s.buf.admitLocked adm.stored adm.size adm.overshot adm.receipt adm.maxTransmissions
        log := s.log ++ [adm] } (q.push { item := adm, limit := adm.limit }) := by
  obtain ⟨hopen, hbytes⟩ := h.bytes_open hrun
  rw [hbytes] at hsum
  exact ⟨h.tracks.admission havail hseq, h.meter.admitLocked hopen hseq hsum hsize,
    h.tracks.flags_admission h.flags hseq, h.wired.of_settings (admitLocked_settings ..)⟩

theorem newAckBuffer_metered {o : AckBufferOptions} {bb : ByteBudget} {b : AckBuffer}
    (h : (newAckBuffer o bb).2 = .ok b) : Metered { buf := b } {} :=
  ⟨⟨newAckBuffer_refines h, rfl⟩, newAckBuffer_meter h,
    fun _ => newAckBuffer_flags h, newAckBuffer_wired h⟩

theorem flags_of_run (hfresh : FreshBuffer s₀) (hrun : Machine.Run bufferMachine s₀ tr s) :
    ∃ q, Tracks s q ∧ (s.log.length < 2 ^ 64 → Flags s.buf q) := by
  refine hrun.invariant (fun s => ∃ q, Tracks s q ∧
    (s.log.length < 2 ^ 64 → Flags s.buf q)) ?_ ?_
  · obtain ⟨o, bb, hnew⟩ := hfresh.new
    refine ⟨{}, ⟨newAckBuffer_refines hnew, hfresh.log.symm⟩, fun _ => ?_⟩
    exact newAckBuffer_flags hnew
  · rintro s ⟨bb, op⟩ - ⟨q, ht, hf⟩
    exact ht.flags_step hf bb op

end BufferState

/-- An add that is refused while the window has room was refused by bytes, and finds a live
message in the buffer that asks for an acknowledgement. The calls before it and the add
itself find the shared budget in any state, so whatever other buffers do to it. -/
theorem blocked_has_request {s₀ s : BufferState} {tr : List BufferStep} (hfresh : FreshBuffer s₀)
    (hrun : Machine.Run bufferMachine s₀ tr s) (hlen : s.log.length < 2 ^ 64 - 1)
    (bb : ByteBudget) (e : DataMessage) (waiter : Option WaiterId) (receipt : Option ReceiptId)
    (m : Nat) (hroom : s.buf.isAvailable = true)
    (hno : (s.buf.tryAddWithReceiptLocked bb e (s.buf.addSize e) waiter receipt m).ok = false) :
    s.buf.holdsRequest = true := by
  obtain ⟨q, ht, hf⟩ := BufferState.flags_of_run hfresh hrun
  have hlen' : q.items.length + 1 < 2 ^ 64 := by
    rw [ht.items]
    omega
  exact (hf (by omega)).holdsRequest ht.refines.slots hlen'
    (refused_heldFlagged e _ waiter receipt m hroom hno)

/-- Two messages of 256 bytes: the first is flagged by the count rule, the second fits, and a
third does not. -/
theorem third_is_blocked :
    let s := bufferMachine.exec smallBuffer [alone (.add {} 256 none none 0),
      alone (.updateCapacity 4), alone (.add {} 256 none none 0)]
    (s.buf.tryAddWithReceiptLocked (newByteBudget 0) {} (s.buf.addSize {}) none none 0).ok = false ∧
      s.buf.holdsRequest = true := by
  intro s
  have hrun : Machine.Run bufferMachine smallBuffer _ s := Machine.run_exec _ (by decide +kernel)
  have hno : (s.buf.tryAddWithReceiptLocked (newByteBudget 0) {} (s.buf.addSize {}) none none
    0).ok = false := by decide +kernel
  exact ⟨hno, blocked_has_request smallBuffer_fresh hrun (by decide +kernel) _ _ _ _ _
    (by decide +kernel) hno⟩

end UspClient
