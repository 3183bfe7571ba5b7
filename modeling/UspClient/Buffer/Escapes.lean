import UspClient.Buffer.Deals

/-!
# The escape a buffer holds

A buffer in a group remembers one escape, by its sequence number and its size. This is enough
while no message is admitted as an escape before the one that is held has left: then every
live escape is the one remembered (`Noted`), and the calls of the buffer keep it so.

An escape is flagged, and a buffer that holds the message flagged last makes no second one. So
the escape that is held stays the only one until a reset retires the message flagged last and
not the escape, which `KeepsFlag` excludes.
-/

namespace UspClient

open Word64 Replay

namespace AckBuffer

variable {b b' : AckBuffer} {bb : ByteBudget} {q q' : Queue Admission} {f : Frame Admission}

/-- The frame is live and was charged as an escape. -/
def liveEscape (f : Frame Admission) : Bool := !f.retired && f.item.overshot

/-- The escapes among the frames of an open buffer are the one it remembers. -/
def Noted (b : AckBuffer) (q : Queue Admission) : Prop :=
  b.isClosed = false → ∀ (i : Nat) f, q.window[i]? = some f → liveEscape f = true →
    b.escapeBytes ≠ 0 ∧ f.item.stored.seqNum = b.escapeSeq

theorem Noted.congr (h : Noted b q) (hclosed : b'.isClosed = b.isClosed)
    (hbytes : b'.escapeBytes = b.escapeBytes) (hseq : b'.escapeSeq = b.escapeSeq) : Noted b' q := by
  unfold Noted
  rw [hclosed, hbytes, hseq]
  exact h

/-- A retired frame is no live escape any more, and the others stay remembered. -/
theorem Noted.retire (h : Noted b q) (hs : Slots b q) (bb : ByteBudget) {i : Nat} {entry : EntryId}
    (hf : q.window[i]? = some f) (hseq : (b.entryAt entry).seq = f.item.stored.seqNum) :
    Noted (b.retireLocked bb i entry).1 { q with window := q.window.modify i retire } := by
  intro hopen j y hy hlive
  have hy' : (q.window.modify i AckBuffer.retire)[j]? = some y := hy
  rw [List.getElem?_modify] at hy'
  obtain ⟨z, hz, rfl⟩ := Option.map_eq_some_iff.1 hy'
  rcases eq_or_ne i j with rfl | hij
  · rw [if_pos rfl] at hlive
    cases hlive
  · rw [if_neg hij] at hlive ⊢
    obtain ⟨hne, hnote⟩ := h hopen j z hz hlive
    -- the remembered frame is another one
    have hkept : (b.retireLocked bb i entry).1.escapeBytes = b.escapeBytes := by
      refine if_neg fun hgone => hij ?_
      have hboth := of_decide_eq_true (Bool.and_eq_true_iff.1 hgone).2
      rw [hseq, ← hnote] at hboth
      exact (hs.seq_inj hf hz hboth.2.symm).1
    rw [hkept]
    exact ⟨hne, hnote⟩

/-- What leaves takes the remembered escape along exactly if it is part of it. -/
theorem Noted.remove (h : Noted b q) (hs : Slots b q) (bb : ByteBudget) (i : Nat)
    (g : Frame Admission → Frame Admission) :
    Noted (b.removePrefixLocked bb i).1 (q.remove (i + 1) g) := by
  intro hopen j y hy hlive
  have hy' : (q.window.drop (i + 1))[j]? = some y := hy
  rw [List.getElem?_drop] at hy'
  obtain ⟨hne, hnote⟩ := h hopen _ y hy' hlive
  have hkept : (b.removePrefixLocked bb i).1.escapeBytes = b.escapeBytes := by
    refine if_neg fun hgone => ?_
    have hboth := of_decide_eq_true (Bool.and_eq_true_iff.1 hgone).2
    have hindex := hs.index_at hy'
    rw [hnote] at hindex
    omega
  rw [hkept]
  exact ⟨hne, hnote⟩

theorem Deal.noted {c c' : Account} (h : Deal c c') (hn : Noted c.1 c.2.2) :
    Noted c'.1 c'.2.2 := by
  cases h with
  | move hmove =>
    cases hmove with
    | idle b b' bb q q' hled hgone hmark =>
      have hclosed : b'.isClosed = b.isClosed := congrArg (fun x => x.isClosed) hled
      have hbytes : b'.escapeBytes = b.escapeBytes := congrArg (fun x => x.escapeBytes) hled
      have hseq : b'.escapeSeq = b.escapeSeq := congrArg (fun x => x.escapeSeq) hled
      have hb : Noted b' q := hn.congr hclosed hbytes hseq
      intro hopen i f hf hlive
      obtain ⟨x, hx, hitem, hfate⟩ := mark_at hmark.symm hf
      have hxlive : liveEscape x = true := by
        unfold liveEscape Frame.retired at hlive ⊢
        rw [hitem, hfate]
        exact hlive
      rw [← hitem]
      exact hb hopen i x hx hxlive
    | retire b bb q i entry f hs hf hl hseq => exact hn.retire hs bb hf hseq
    | remove b bb q i g hs hi hg => exact hn.remove hs bb i g
  | sample b bb q => exact hn
  | stop b bb q => exact hn
  | resize b bb q n =>
    refine hn.congr ?_ ?_ ?_ <;>
    · unfold updateCapacity
      split_ifs <;> rfl
  | close b bb q => exact fun hopen => absurd hopen Bool.noConfusion

theorem Deals.noted {c c' : Account} (h : Deals c c') (hn : Noted c.1 c.2.2) : Noted c'.1 c'.2.2 :=
  h.keep (fun x => Noted x.1 x.2.2) (fun _ _ hdeal hx => hdeal.noted hx) hn

/-- An admission is remembered if it is an escape, and is one only if none is held. -/
theorem Noted.admitLocked (h : Noted b q) {a : Admission} (hgroup : b.group ≠ none)
    (hseq : a.stored.seqNum = b.nextSeqNum) (hpos : 0 < a.size)
    (hnone : a.overshot = true → b.escapeBytes = 0) :
    Noted (b.admitLocked a.stored a.size a.overshot a.receipt a.maxTransmissions)
      (q.push { item := a, limit := a.limit }) := by
  obtain ⟨-, hescSeq, hescBytes, -⟩ := admitLocked_counters (b := b) a.stored a.size a.overshot
    a.receipt a.maxTransmissions
  have hclosed := congrArg (fun v => v.2.1.1) (admitLocked_settings (b := b) a.stored a.size
    a.overshot a.receipt a.maxTransmissions)
  simp only [settingsView] at hclosed
  rw [Option.isSome_iff_ne_none.2 hgroup, Bool.and_true] at hescSeq hescBytes
  intro hopen i y hy hlive
  rw [hclosed] at hopen
  rw [hescSeq, hescBytes]
  rcases push_cases hy with hold | ⟨-, rfl⟩
  · obtain ⟨hne, hnote⟩ := h hopen i y hold hlive
    have hno : a.overshot = false := by
      by_contra hyes
      exact hne (hnone (Bool.not_eq_false _ ▸ hyes))
    rw [hno]
    exact ⟨hne, hnote⟩
  · have hyes : a.overshot = true := (Bool.and_eq_true_iff.1 hlive).2
    rw [hyes, if_pos rfl, if_pos rfl]
    exact ⟨hpos.ne', hseq⟩

/-! ## The last flag -/

/-- What a call that found the last flag `l` and the escape `seq` comes to: the flag is forgotten
only with its frame. -/
structure Since (l seq : Nat) (held : Prop) (c : Account) : Prop where
  seq : c.1.escapeSeq = seq
  held : c.1.escapeBytes ≠ 0 → held
  flag : c.1.lastFlaggedSeq = l ∨ ∀ f ∈ c.2.2.window, f.item.stored.seqNum = l → f.fate ≠ .live

theorem Deal.since {c c' : Account} {l seq : Nat} {held : Prop} (h : Deal c c')
    (hc : Since l seq held c) : Since l seq held c' := by
  obtain ⟨hseq, hheld, hflag⟩ := hc
  cases h with
  | move hmove =>
    cases hmove with
    | idle b b' bb q q' hled _ hmark =>
      have hseq' : b'.escapeSeq = b.escapeSeq := congrArg (fun x => x.escapeSeq) hled
      have hbytes : b'.escapeBytes = b.escapeBytes := congrArg (fun x => x.escapeBytes) hled
      have hlast : b'.lastFlaggedSeq = b.lastFlaggedSeq := congrArg (fun x => x.lastFlaggedSeq) hled
      refine ⟨hseq'.trans hseq, fun hne => hheld (hbytes ▸ hne), hflag.imp hlast.trans ?_⟩
      intro hgone f hf
      obtain ⟨i, hi⟩ := List.mem_iff_getElem?.1 hf
      obtain ⟨x, hx, hitem, hfate⟩ := mark_at hmark.symm hi
      rw [← hitem, ← hfate]
      exact hgone x (List.mem_of_getElem? hx)
    | retire b bb q i entry f hs hf _ hnum =>
      refine ⟨hseq, fun hne => hheld fun h0 => hne ?_, ?_⟩
      · show (if _ then 0 else b.escapeBytes) = 0
        rw [h0, ite_self]
      -- a frame of the new window: retired here, or one of before
      have hcases : ∀ y ∈ q.window.modify i AckBuffer.retire, y.fate = .live →
          ∃ j, j ≠ i ∧ q.window[j]? = some y := by
        intro y hy hlive
        obtain ⟨j, hj⟩ := List.mem_iff_getElem?.1 hy
        rw [List.getElem?_modify] at hj
        obtain ⟨z, hz, rfl⟩ := Option.map_eq_some_iff.1 hj
        rcases eq_or_ne i j with rfl | hij
        · rw [if_pos rfl] at hlive
          cases hlive
        · rw [if_neg hij]
          exact ⟨j, hij.symm, hz⟩
      rcases hflag with hlast | hgone
      · rcases eq_or_ne b.lastFlaggedSeq (b.entryAt entry).seq with hthis | hother
        · refine .inr fun y hy hy' hlive => ?_
          obtain ⟨j, hne, hj⟩ := hcases y hy hlive
          have hsame : y.item.stored.seqNum = f.item.stored.seqNum := by
            rw [hy', ← hlast, ← hnum]
            exact hthis
          exact hne (hs.seq_inj hj hf hsame).1
        · exact .inl ((if_neg hother).trans hlast)
      · refine .inr fun y hy hy' hlive => ?_
        obtain ⟨j, -, hj⟩ := hcases y hy hlive
        exact hgone y (List.mem_of_getElem? hj) hy' hlive
    | remove b bb q i g _ _ _ =>
      refine ⟨hseq, fun hne => hheld fun h0 => hne ?_, hflag.imp id fun hgone f hf => ?_⟩
      · show (if _ then 0 else b.escapeBytes) = 0
        rw [h0, ite_self]
      · exact hgone f (List.mem_of_mem_drop hf)
  | sample | stop => exact ⟨hseq, hheld, hflag⟩
  | resize b bb q n =>
    unfold updateCapacity
    split_ifs <;> exact ⟨hseq, hheld, hflag⟩
  | close b bb q =>
    refine ⟨hseq, fun hne => hheld fun h0 => hne ?_, hflag⟩
    show (if _ then 0 else b.escapeBytes) = 0
    rw [h0, ite_self]

theorem Deals.since {c c' : Account} (h : Deals c c') :
    Since c.1.lastFlaggedSeq c.1.escapeSeq (c.1.escapeBytes ≠ 0) c' :=
  h.keep _ (fun _ _ hdeal hx => hdeal.since hx) ⟨rfl, id, .inl rfl⟩

/-- An escape is forced, so its buffer holds no flagged message. -/
theorem Admits.not_heldFlagged {bb' : ByteBudget} {size : Nat} {waiter : Option WaiterId}
    {overshot : Bool} (h : Admits b bb size waiter bb' overshot) (hover : overshot = true) :
    b.heldFlagged = false := by
  cases h with
  | unmetered | alone => cases hover
  | charged _ _ _ => exact (Bool.not_eq_true' _).mp ((reserveFor_force ..).2 hover)

theorem filter_eq_singleton {l : List (Frame Admission)} {p : Frame Admission → Bool} {i : Nat}
    (hf : l[i]? = some f) (hp : p f = true)
    (honly : ∀ (j : Nat) x, l[j]? = some x → p x = true → j = i) : l.filter p = [f] := by
  obtain ⟨hlt, hget⟩ := List.getElem?_eq_some_iff.1 hf
  have hsplit : l = l.take i ++ f :: l.drop (i + 1) := by
    rw [← hget, List.getElem_cons_drop hlt, List.take_append_drop]
  have hleft : (l.take i).filter p = [] := by
    refine List.filter_eq_nil_iff.2 fun x hx hpx => ?_
    obtain ⟨j, hj, hjx⟩ := List.mem_take_iff_getElem.1 hx
    have hji := honly j x (List.getElem?_eq_some_iff.2 ⟨by omega, hjx⟩) hpx
    omega
  have hright : (l.drop (i + 1)).filter p = [] := by
    refine List.filter_eq_nil_iff.2 fun x hx hpx => ?_
    obtain ⟨j, hj⟩ := List.mem_iff_getElem?.1 hx
    rw [List.getElem?_drop] at hj
    have hji := honly _ x hj hpx
    omega
  rw [hsplit, List.filter_append, hleft, List.nil_append, List.filter_cons_of_pos hp, hright]

/-- The remembered size is the size of the live escapes, of which there is one at most. -/
theorem Noted.escapes (h : Noted b q) (hm : Meter b q) (hs : Slots b q)
    (hopen : b.isClosed = false) : ((q.window.filter liveEscape).map fun f => f.item.size).sum =
      b.escapeBytes ∧ (q.window.filter liveEscape).length ≤ 1 := by
  rcases Nat.eq_zero_or_pos b.escapeBytes with hzero | hpos
  · have hnil : q.window.filter liveEscape = [] := by
      refine List.filter_eq_nil_iff.2 fun f hf hlive => ?_
      obtain ⟨i, hi⟩ := List.mem_iff_getElem?.1 hf
      exact (h hopen i f hi hlive).1 hzero
    rw [hnil, hzero]
    exact ⟨rfl, Nat.zero_le 1⟩
  · obtain ⟨-, i, f, hf, hl, hseq, hsize, hover⟩ := hm.escape hpos.ne'
    have hlive : liveEscape f = true := by
      unfold liveEscape Frame.retired
      rw [hl, hover]
      rfl
    have hone : q.window.filter liveEscape = [f] := by
      refine filter_eq_singleton hf hlive fun j x hx hp => ?_
      have hx' := (h hopen j x hx hp).2
      exact (hs.seq_inj hx hf (hx'.trans hseq.symm)).1
    rw [hone, ← hsize]
    exact ⟨rfl, le_rfl⟩

end AckBuffer

namespace BufferState

variable {s s' : BufferState} {q q' : Queue Admission} {bb bb' : ByteBudget}

/-! ## The escapes of a buffer -/

/-- Frame `k` was charged as an escape. -/
def escapedAt (s : BufferState) : Nat → Bool
  | 0 => false
  | k + 1 => (s.log[k]?.map Admission.overshot).getD false

/-- The live messages that were charged as escapes. -/
def heldEscapes (s : BufferState) : List Nat := s.liveNumbers.filter s.escapedAt

/-- The call does not retire the message flagged last while it keeps an escape. -/
def KeepsFlag (s : BufferState) : BufferOp → Prop
  | .resetDelivery => s.Exhausted s.buf.lastFlaggedSeq → ∀ k ∈ s.heldEscapes, s.Exhausted k
  | _ => True

instance (s : BufferState) (op : BufferOp) : Decidable (s.KeepsFlag op) :=
  match op with
  | .resetDelivery => inferInstanceAs (Decidable (s.Exhausted s.buf.lastFlaggedSeq →
      ∀ k ∈ s.heldEscapes, s.Exhausted k))
  | .add .. | .getNextToDeliver | .ack _ | .updateCapacity _ | .beginDrain | .drain .. | .close =>
    isTrue trivial

/-- A buffer with a past, which flagged no message before the escape it remembers. -/
structure Watched (s : BufferState) : Prop where
  past : ∃ tr q, Chronicle tr s q
  flag : s.buf.escapeBytes ≠ 0 → s.buf.escapeSeq ≤ s.buf.lastFlaggedSeq

/-- The escape a buffer remembers is a live frame. -/
theorem Metered.escape_live (h : Metered s q) (hlen : s.log.length < 2 ^ 64 - 1)
    (hne : s.buf.escapeBytes ≠ 0) :
    s.Live s.buf.escapeSeq ∧ s.escapedAt s.buf.escapeSeq = true := by
  obtain ⟨-, i, f, hf, hl, hseq, -, hover⟩ := h.meter.escape hne
  have hframe : q.frames[q.gone.length + i]? = some f := by
    rw [Queue.frames_getElem?_right (Nat.le_add_right _ _), Nat.add_sub_cancel_left]
    exact hf
  have hlog := h.tracks.held.item_at hframe
  have hlt := (List.getElem?_eq_some_iff.1 hlog).1
  have hnum := h.tracks.refines.slots.seqs _ _ (AckBuffer.items_window hf)
  rw [Nat.mod_eq_of_lt (by omega), hseq] at hnum
  rw [hnum]
  refine ⟨(h.tracks.held.live_iff hframe).2 hl, ?_⟩
  show (s.log[q.gone.length + i]?.map Admission.overshot).getD false = true
  rw [hlog]
  exact hover

/-- A buffer that remembers an escape holds the message it flagged last. -/
theorem Watched.last_live (h : Watched s) (hm : Metered s q) (hlen : s.log.length < 2 ^ 64 - 1)
    (hne : s.buf.escapeBytes ≠ 0) : s.buf.heldFlagged = true ∧ s.Live s.buf.lastFlaggedSeq := by
  have hpresent := (hm.escape_live hlen hne).1.1
  have hle := h.flag hne
  have hslots := hm.tracks.refines.slots
  have hitems := congrArg List.length hm.tracks.items
  have hfirst := hslots.first
  have hlength := q.length_items
  unfold Present at hpresent
  rw [hm.tracks.held.gone_eq] at hpresent
  rw [Nat.mod_eq_of_lt (by omega)] at hfirst
  have hheld : s.buf.heldFlagged = true := decide_eq_true ⟨by omega, by omega⟩
  obtain ⟨i, f, hf, hnum, -, hlive⟩ := (hm.flags (by omega)).last_frame hslots (by omega) hheld
  refine ⟨hheld, ?_⟩
  rw [← hnum]
  refine (hm.tracks.held.live_iff (f := f) ?_).2 hlive
  rw [Queue.frames_getElem?_right (Nat.le_add_right _ _), Nat.add_sub_cancel_left]
  exact hf

/-- A call that is no add keeps the flag of the escape, unless a reset retires it alone. -/
theorem Watched.deal (h : Watched s) (hm : Metered s q) (hm' : Metered s' q')
    (hlen : s.log.length < 2 ^ 64 - 1) (hlog : s'.log = s.log)
    (hdeals : AckBuffer.Deals (s.buf, bb, q) (s'.buf, bb', q'))
    (hcall : s'.buf.lastFlaggedSeq = s.buf.lastFlaggedSeq ∨
      ∃ op, s' = (s.apply bb op).1 ∧ s.KeepsFlag op) (hne' : s'.buf.escapeBytes ≠ 0) :
    s'.buf.escapeSeq ≤ s'.buf.lastFlaggedSeq := by
  obtain ⟨hseq, hheld, hflag⟩ := hdeals.since
  have hne := hheld hne'
  have hle := h.flag hne
  simp only at hseq hflag
  have hlen' := hlen
  rw [← hlog] at hlen'
  have hesc' := (hm'.escape_live hlen' hne').1
  obtain ⟨hesc, hover⟩ := hm.escape_live hlen hne
  rw [hseq] at hesc' ⊢
  rcases hcall with hsame | ⟨op, rfl, hkeeps⟩
  · rwa [hsame]
  rcases hflag with hsame | hgone
  · rwa [hsame]
  exfalso
  -- the flagged message was live, and is a retired one of the new window
  obtain ⟨tr, qc, hc⟩ := h.past
  obtain ⟨qc', -, hc'⟩ := hc.step ⟨bb, op⟩
  have hlive := (h.last_live hm hlen hne).2
  have hpresent : (s.apply bb op).1.Present s.buf.lastFlaggedSeq :=
    ⟨lt_of_lt_of_le hesc'.1.1 hle, by rw [hlog]; exact hlive.1.2⟩
  have hdead : ¬ (s.apply bb op).1.Live s.buf.lastFlaggedSeq := by
    intro hlast
    obtain ⟨k, f, hk, hf, hfate⟩ := hm'.tracks.held.live_frame hlast
    have hnum := hm'.tracks.refines.slots.seqs k f.item ?_
    · have hgone' := hlast.1.1
      have hlt := hm'.tracks.held.lt_of_frame hf
      rw [hm'.tracks.held.gone_eq] at hgone'
      rw [Queue.frames_getElem?_right (by omega)] at hf
      rw [Nat.mod_eq_of_lt (by omega), ← hk] at hnum
      exact hgone f (List.mem_of_getElem? hf) hnum hfate
    · rw [hm'.tracks.items]
      exact hm'.tracks.held.item_at hf
  rcases hc.last_step hc' hlive hdead with ⟨_, -, -, -, -, hno⟩ | ⟨hop, -, hlim, hused⟩
  · exact hno hpresent
  · obtain rfl : op = .resetDelivery := hop
    have hmem : s.buf.escapeSeq ∈ s.heldEscapes :=
      List.mem_filter.2 ⟨mem_liveNumbers.2 hesc, hover⟩
    obtain ⟨hlim', hused'⟩ := hkeeps ⟨hlim, hused⟩ _ hmem
    exact hc.reset_ends hc' rfl hlim' (le_antisymm (hc.handoffs_le hlim') hused') hesc'

end BufferState

end UspClient
