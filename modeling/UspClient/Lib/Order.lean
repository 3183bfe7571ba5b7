import UspClient.Lib.Replay

/-!
# Delivery order of a replay queue

What the delivery index of a replay queue means. `Covered P q` says that every live frame
before the index has a property, and every operation keeps it: the index and the border of
the window move together. With the frames handed out since the last reset as the property
(`Paced`), this is delivery in order without a gap.

With the frames that went out as one set and those in the hand of a sender as another
(`Trail`), a cumulative acknowledgement of a frame that went out confirms only frames that
went out.

Frames are named by their number, which is their position among all frames plus one.
-/

namespace Replay

namespace Queue

variable {α : Type} {q : Queue α} {f : Frame α} {i n : Nat} {g : Frame α → Frame α}
variable {P Q : Nat → Prop} {H : List Nat}

/-! ## Frames before the delivery index -/

/-- Every live frame before the delivery index satisfies `P`. -/
def Covered (P : Nat → Prop) (q : Queue α) : Prop :=
  ∀ (i : Nat) f, q.window[i]? = some f → f.fate = .live → i < q.next → P (q.gone.length + i + 1)

/-- A larger set covers as much. -/
theorem Covered.mono (h : Covered P q) (hPQ : ∀ k, P k → Q k) : Covered Q q :=
  fun i f hf hlive hi => hPQ _ (h i f hf hlive hi)

/-- At the start of the window nothing needs to be covered. -/
theorem covered_zero (hz : q.next = 0) : Covered P q := by
  intro i f _ _ hi
  omega

/-- A new frame is behind the delivery index. -/
theorem Covered.push (h : Covered P q) (hle : q.next ≤ q.window.length) :
    Covered P (q.push f) := by
  intro i x hx hlive hi
  have hlt : i < q.window.length := lt_of_lt_of_le hi hle
  have hold : q.window[i]? = some x := by
    rw [← List.getElem?_append_left hlt]
    exact hx
  exact h i x hold hlive hi

/-- The delivery index moves with the frames. -/
theorem Covered.remove (h : Covered P q) (hn : n ≤ q.window.length) :
    Covered P (q.remove n g) := by
  intro i x hx hlive hi
  have hx' : q.window[n + i]? = some x := by
    rw [← List.getElem?_drop]
    exact hx
  have hi' : i < q.next - n := hi
  rw [length_gone_remove hn, Nat.add_assoc q.gone.length]
  exact h (n + i) x hx' hlive (by omega)

theorem Covered.ack (h : Covered P q) (hi : i < q.window.length) : Covered P (q.ack i) :=
  (h.remove (g := Frame.confirm) (n := i + 1) hi).remove (headRun_le_length _)

theorem covered_reset : Covered P q.reset :=
  covered_zero (Nat.zero_sub _)

/-- The frames skipped up to the target are retired, so they need not be covered. -/
theorem Covered.target (h : Covered P q) (hf : q.window[i]? = some f) (hlive : f.fate = .live)
    (hlt : i < q.target) : P (q.gone.length + i + 1) := by
  by_cases hi : i < q.next
  · exact h i f hf hlive hi
  · have hret := of_decide_eq_true (retired_of_skipped (by omega) hlt hf)
    rw [hlive] at hret
    cases hret

/-- A delivery has to cover the frame it hands out. -/
theorem Covered.deliver (h : Covered P q)
    (hnew : q.target < q.window.length → P (q.gone.length + q.target + 1)) :
    Covered P q.deliver := by
  intro i x hx hlive hi
  unfold Queue.deliver at hx hi ⊢
  split_ifs at hx hi ⊢ with hlt
  · by_cases heq : i = q.target
    · rw [heq]
      exact hnew hlt
    · -- an older frame: its slot did not change
      have hx' : q.window[i]? = some x := by
        simpa [List.getElem?_modify, Ne.symm heq] using hx
      simp only at hi
      exact h.target hx' hlive (by omega)
  · exact h.target hx hlive hi

/-! ## The number at the delivery index -/

/-- The number of frames passed never falls when frames leave. -/
theorem index_remove (hn : n ≤ q.window.length) :
    q.gone.length + q.next ≤ (q.remove n g).gone.length + (q.remove n g).next := by
  rw [length_gone_remove hn]
  show _ ≤ q.gone.length + n + (q.next - n)
  omega

theorem index_ack (hi : i < q.window.length) :
    q.gone.length + q.next ≤ (q.ack i).gone.length + (q.ack i).next :=
  le_trans (index_remove (g := Frame.confirm) (n := i + 1) hi) (index_remove (headRun_le_length _))

/-- A delivery passes at least as many frames. -/
theorem index_deliver : q.gone.length + q.next ≤ q.deliver.gone.length + q.deliver.next := by
  have hnt := le_target (q := q)
  unfold Queue.deliver
  split_ifs
  · show _ ≤ q.gone.length + (q.target + 1)
    omega
  · exact Nat.add_le_add_left hnt _

/-! ## Deliveries since the last reset -/

/-- The numbers `H` were handed out since the last reset: in order, none beyond the
delivery index, and no live frame before it left out. -/
structure Paced (H : List Nat) (q : Queue α) : Prop where
  increasing : H.Pairwise (· < ·)
  bound : ∀ k ∈ H, k ≤ q.gone.length + q.next
  covered : Covered (· ∈ H) q

theorem paced_nil (hz : q.next = 0) : Paced [] q := by
  refine ⟨.nil, ?_, covered_zero hz⟩
  intro k hk
  cases hk

theorem Paced.push (h : Paced H q) (hle : q.next ≤ q.window.length) : Paced H (q.push f) :=
  ⟨h.increasing, h.bound, h.covered.push hle⟩

theorem Paced.remove (h : Paced H q) (hn : n ≤ q.window.length) : Paced H (q.remove n g) := by
  refine ⟨h.increasing, ?_, h.covered.remove hn⟩
  exact fun k hk => le_trans (h.bound k hk) (index_remove hn)

theorem Paced.ack (h : Paced H q) (hi : i < q.window.length) : Paced H (q.ack i) :=
  (h.remove (g := Frame.confirm) (n := i + 1) hi).remove (headRun_le_length _)

/-- After a reset the pass starts anew. -/
theorem Paced.reset : Paced [] q.reset := paced_nil (Nat.zero_sub _)

/-- The frame handed out is numbered above those before it. -/
theorem Paced.deliver (h : Paced H q) :
    Paced (if q.target < q.window.length then H ++ [q.gone.length + q.target + 1] else H)
      q.deliver := by
  have hnt := le_target (q := q)
  by_cases hlt : q.target < q.window.length
  · rw [if_pos hlt]
    have hgone : q.deliver.gone.length + q.deliver.next = q.gone.length + q.target + 1 := by
      unfold Queue.deliver
      rw [if_pos hlt]
      rfl
    refine ⟨?_, ?_, ?_⟩
    · rw [List.pairwise_append]
      refine ⟨h.increasing, List.pairwise_singleton _ _, ?_⟩
      intro a ha b hb
      have hb' := h.bound a ha
      rw [List.mem_singleton] at hb
      omega
    · intro k hk
      rw [hgone]
      rcases List.mem_append.1 hk with hold | hnew
      · have hb := h.bound k hold
        omega
      · rw [List.mem_singleton] at hnew
        exact le_of_eq hnew
    · refine Covered.deliver (h.covered.mono fun k hk => List.mem_append_left _ hk) ?_
      intro _
      exact List.mem_append_right _ List.mem_cons_self
  · rw [if_neg hlt]
    refine ⟨h.increasing, ?_, h.covered.deliver fun hlt' => absurd hlt' hlt⟩
    intro k hk
    have hb := h.bound k hk
    unfold Queue.deliver
    rw [if_neg hlt]
    show k ≤ q.gone.length + q.target
    omega

/-! ## Retired frames were sent -/

/-- A frame is retired only after it was sent. -/
def Spent (q : Queue α) : Prop := ∀ f ∈ q.frames, f.fate = .retired → 0 < f.sends

theorem spent_empty : Spent ({} : Queue α) := by
  intro f hf
  simp [frames] at hf

theorem Spent.push (h : Spent q) (hf : f.fate = .live) : Spent (q.push f) := by
  intro x hx hret
  rw [frames_push, List.mem_append, List.mem_singleton] at hx
  rcases hx with hold | rfl
  · exact h x hold hret
  · rw [hf] at hret
    cases hret

/-- A delivery only adds handoffs. -/
theorem Spent.deliver (h : Spent q) : Spent q.deliver := by
  intro x hx hret
  obtain ⟨k, hk⟩ := List.mem_iff_getElem?.1 hx
  rw [frames_deliver_getElem?] at hk
  obtain ⟨y, hy, hyx⟩ := Option.map_eq_some_iff.1 hk
  have hmem := List.mem_of_getElem? hy
  split_ifs at hyx
  · rw [← hyx, Frame.send_sends]
    exact Nat.succ_pos _
  · rw [← hyx] at hret ⊢
    exact h y hmem hret

/-- An acknowledgement retires nothing. -/
theorem Spent.ack (h : Spent q) : Spent (q.ack i) := by
  intro x hx hret
  obtain ⟨k, hk⟩ := List.mem_iff_getElem?.1 hx
  rw [frames_ack_getElem?] at hk
  obtain ⟨y, hy, hyx⟩ := Option.map_eq_some_iff.1 hk
  have hmem := List.mem_of_getElem? hy
  split_ifs at hyx
  · rw [← hyx, Frame.confirm_fate] at hret
    split_ifs at hret
    rw [← hyx, Frame.confirm_sends]
    exact h y hmem hret
  · rw [← hyx] at hret ⊢
    exact h y hmem hret

/-- A reset retires frames whose limit is used up, and a limit is not zero. -/
theorem Spent.reset (h : Spent q) : Spent q.reset := by
  intro x hx hret
  obtain ⟨k, hk⟩ := List.mem_iff_getElem?.1 hx
  rw [frames_reset_getElem?] at hk
  obtain ⟨y, hy, hyx⟩ := Option.map_eq_some_iff.1 hk
  have hmem := List.mem_of_getElem? hy
  split_ifs at hyx
  · rw [← hyx, Frame.expire_fate] at hret
    rw [← hyx, Frame.expire_sends]
    split_ifs at hret with hex
    · -- a used up limit is not zero
      have hlim := Frame.exhausted_iff.1 hex
      omega
    · exact h y hmem hret
  · rw [← hyx] at hret ⊢
    exact h y hmem hret

/-! ## Frames that went out -/

/-- The frames in `W` went out and those in `H` are in hand: no live frame before the
delivery index is left out, no live frame is older than one in `W` without being in `W`,
and every confirmed frame is in `W`. -/
structure Trail (W H : Nat → Prop) (q : Queue α) : Prop where
  covered : Covered (fun k => W k ∨ H k) q
  closed : ∀ k, W k → ∀ (i : Nat) f, q.frames[i]? = some f → f.fate = .live → i + 1 < k → W (i + 1)
  confirmed : ∀ (i : Nat) f, q.frames[i]? = some f → f.fate = .confirmed → W (i + 1)
  bound : ∀ k, W k → k ≤ q.items.length

section Trail

variable {W H H' : Nat → Prop} {k : Nat}

/-- More frames may be in hand. -/
theorem Trail.hand (h : Trail W H q) (hH : ∀ k, H k → H' k) : Trail W H' q :=
  ⟨h.covered.mono fun k => Or.imp id (hH k), h.closed, h.confirmed, h.bound⟩

/-- Nothing is before the delivery index. -/
theorem Trail.start (h : Trail W H q) (hz : q.next = 0) : Trail W H' q :=
  ⟨covered_zero hz, h.closed, h.confirmed, h.bound⟩

/-- Nothing is before a delivery index that was set back. -/
theorem Trail.rewind (h : Trail W H q) : Trail W H' { q with next := 0 } :=
  ⟨covered_zero rfl, h.closed, h.confirmed, h.bound⟩

theorem Trail.push (h : Trail W H q) (hle : q.next ≤ q.window.length) (hf : f.fate = .live) :
    Trail W H (q.push f) := by
  refine ⟨h.covered.push hle, ?_, ?_, ?_⟩
  · intro k hk i x hx hlive hlt
    rw [frames_push] at hx
    rcases getElem?_snoc hx with hold | ⟨rfl, -⟩
    · exact h.closed k hk i x hold hlive hlt
    · have hb := h.bound k hk
      rw [items, List.length_map] at hb
      omega
  · intro i x hx hconf
    rw [frames_push] at hx
    rcases getElem?_snoc hx with hold | ⟨-, rfl⟩
    · exact h.confirmed i x hold hconf
    · -- the new frame is live
      rw [hf] at hconf
      cases hconf
  · intro k hk
    rw [items_push, List.length_append]
    exact le_trans (h.bound k hk) (Nat.le_add_right _ _)

/-- The frame handed out is in hand, or went out before. -/
theorem Trail.deliver (h : Trail W H q)
    (hnew : q.target < q.window.length → W (q.gone.length + q.target + 1) ∨
      H (q.gone.length + q.target + 1)) : Trail W H q.deliver := by
  have hfate : ∀ (i : Nat) x, q.deliver.frames[i]? = some x →
      ∃ y, q.frames[i]? = some y ∧ x.fate = y.fate := by
    intro i x hx
    rw [frames_deliver_getElem?] at hx
    obtain ⟨y, hy, rfl⟩ := Option.map_eq_some_iff.1 hx
    exact ⟨y, hy, by split_ifs <;> rfl⟩
  refine ⟨h.covered.deliver hnew, ?_, ?_, ?_⟩
  · intro k hk i x hx hlive hlt
    obtain ⟨y, hy, hxy⟩ := hfate i x hx
    exact h.closed k hk i y hy (hxy ▸ hlive) hlt
  · intro i x hx hconf
    obtain ⟨y, hy, hxy⟩ := hfate i x hx
    exact h.confirmed i y hy (hxy ▸ hconf)
  · intro k hk
    rw [items_deliver]
    exact h.bound k hk

/-- A cumulative acknowledgement of a frame that went out. -/
theorem Trail.ack (h : Trail W H q) (hi : i < q.window.length) (hk : W (q.gone.length + i + 1)) :
    Trail W H (q.ack i) := by
  have hcases : ∀ (j : Nat) x, (q.ack i).frames[j]? = some x → ∃ y, q.frames[j]? = some y ∧
      x = if q.gone.length ≤ j ∧ j < q.gone.length + (i + 1) then y.confirm else y := by
    intro j x hx
    rw [frames_ack_getElem?] at hx
    obtain ⟨y, hy, rfl⟩ := Option.map_eq_some_iff.1 hx
    exact ⟨y, hy, rfl⟩
  refine ⟨h.covered.ack hi, ?_, ?_, ?_⟩
  · intro k hk j x hx hlive hlt
    obtain ⟨y, hy, rfl⟩ := hcases j x hx
    refine h.closed k hk j y hy ?_ hlt
    split_ifs at hlive
    · rw [Frame.confirm_fate] at hlive
      split_ifs at hlive with hl
      exact hlive
    · exact hlive
  · intro j x hx hconf
    obtain ⟨y, hy, rfl⟩ := hcases j x hx
    split_ifs at hconf with hin
    · by_cases hl : y.fate = .live
      · -- it is the acknowledged frame, or older than it
        by_cases hj : j = q.gone.length + i
        · rw [hj]
          exact hk
        · exact h.closed _ hk j y hy hl (by omega)
      · rw [Frame.confirm_fate, if_neg hl] at hconf
        exact h.confirmed j y hy hconf
    · exact h.confirmed j y hy hconf
  · intro k hk
    rw [items_ack]
    exact h.bound k hk

/-- A reset confirms nothing and makes nothing live. -/
theorem Trail.reset (h : Trail W H q) : Trail W H' q.reset := by
  have hcases : ∀ (j : Nat) x, q.reset.frames[j]? = some x → ∃ y, q.frames[j]? = some y ∧
      x = if q.gone.length ≤ j then y.expire else y := by
    intro j x hx
    rw [frames_reset_getElem?] at hx
    obtain ⟨y, hy, rfl⟩ := Option.map_eq_some_iff.1 hx
    exact ⟨y, hy, rfl⟩
  refine ⟨covered_reset, ?_, ?_, ?_⟩
  · intro k hk j x hx hlive hlt
    obtain ⟨y, hy, rfl⟩ := hcases j x hx
    refine h.closed k hk j y hy ?_ hlt
    split_ifs at hlive
    · rw [Frame.expire_fate] at hlive
      split_ifs at hlive
      exact hlive
    · exact hlive
  · intro j x hx hconf
    obtain ⟨y, hy, rfl⟩ := hcases j x hx
    refine h.confirmed j y hy ?_
    split_ifs at hconf
    · rw [Frame.expire_fate] at hconf
      split_ifs at hconf
      exact hconf
    · exact hconf
  · intro k hk
    rw [items_reset]
    exact h.bound k hk

/-- The only frame in hand goes out. -/
theorem Trail.write (h : Trail W H q) (hgone : ∀ f ∈ q.gone, f.fate ≠ .live)
    (hle : q.next ≤ q.window.length) (honly : ∀ j, H j → j = k) (hk : k ≤ q.gone.length + q.next) :
    Trail (fun j => W j ∨ j = k) H' q := by
  refine ⟨?_, ?_, ?_, ?_⟩
  · refine h.covered.mono fun j hj => ?_
    rcases hj with hw | hh
    · exact .inl (.inl hw)
    · exact .inl (.inr (honly j hh))
  · rintro j (hj | rfl) i f hf hlive hlt
    · exact .inl (h.closed j hj i f hf hlive hlt)
    · -- a live frame that is older was handed out before
      have hin : q.gone.length ≤ i := by
        by_contra hout
        rw [frames_getElem?_left (by omega)] at hf
        exact hgone f (List.mem_of_getElem? hf) hlive
      rw [frames_getElem?_right hin] at hf
      have hcov := h.covered (i - q.gone.length) f hf hlive (by omega)
      rw [Nat.add_sub_cancel' hin] at hcov
      rcases hcov with hw | hh
      · exact .inl hw
      · exact .inr (honly _ hh)
  · exact fun i f hf hconf => .inl (h.confirmed i f hf hconf)
  · rintro j (hj | rfl)
    · exact h.bound j hj
    · rw [items, List.length_map, frames, List.length_append]
      omega

end Trail

end Queue

end Replay
