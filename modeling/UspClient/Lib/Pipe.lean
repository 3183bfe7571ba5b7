import UspClient.Lib.Order

/-!
# A replay queue behind a pipe

Frames are taken from a replay queue and written to a pipe, which the reader empties from the
front. `Piped L q` says that the pipe is in order and leaves nothing out: a live frame that is
older than a frame of the pipe is in the pipe. Frames only fade (`Fades`), they never come back
to life, so every operation of the queue keeps that.

A reader that takes the frames of a pipe one by one has then every live frame before the one it
takes (`Trail.receive`). So a cumulative acknowledgement of what it took is safe, however many
pipes it reads from and whichever of them were replaced.
-/

namespace Replay

theorem mem_take_of_lt {L : List Nat} {g j k : Nat} (hL : L.Pairwise (· < ·)) (hk : L[g]? = some k)
    (hj : j ∈ L) (hlt : j < k) : j ∈ L.take g := by
  rcases List.mem_iff_getElem?.1 hj with ⟨m, hm⟩
  rcases List.getElem?_eq_some_iff.1 hk with ⟨hg, rfl⟩
  rcases List.getElem?_eq_some_iff.1 hm with ⟨hm', rfl⟩
  have hmg : m < g := by
    by_contra hge
    rcases Nat.lt_or_eq_of_le (not_lt.1 hge) with hgm | rfl
    · have := List.pairwise_iff_getElem.1 hL g m hg hm' hgm
      omega
    · omega
  rw [List.mem_take_iff_getElem]
  exact ⟨m, by omega, rfl⟩

namespace Queue

variable {α : Type} {q q' : Queue α} {f : Frame α} {i k : Nat} {L : List Nat} {W H : Nat → Prop}

/-! ## Frames fade -/

/-- A frame of `q` that is live in `q'` was live before. -/
def Fades (q q' : Queue α) : Prop :=
  ∀ (i : Nat) f, q'.frames[i]? = some f → f.fate = .live → i < q.items.length →
    ∃ g, q.frames[i]? = some g ∧ g.fate = .live

theorem fades_of_frames (h : q'.frames = q.frames) : Fades q q' := by
  intro i f hf hlive _
  exact ⟨f, h ▸ hf, hlive⟩

theorem fades_map {φ : Nat → Frame α → Frame α}
    (hφ : ∀ i f, (φ i f).fate = .live → f.fate = .live)
    (hq : ∀ i : Nat, q'.frames[i]? = q.frames[i]?.map (φ i)) : Fades q q' := by
  intro i f hf hlive _
  rw [hq] at hf
  rcases Option.map_eq_some_iff.1 hf with ⟨g, hg, rfl⟩
  exact ⟨g, hg, hφ i g hlive⟩

theorem fades_push : Fades q (q.push f) := by
  intro i x hx hlive hi
  rw [frames_push] at hx
  rcases getElem?_snoc hx with hold | ⟨rfl, -⟩
  · exact ⟨x, hold, hlive⟩
  · rw [items, List.length_map] at hi
    exact absurd hi (lt_irrefl _)

theorem fades_deliver : Fades q q.deliver := by
  refine fades_map (fun i f hlive => ?_) frames_deliver_getElem?
  split_ifs at hlive
  · exact hlive
  · exact hlive

theorem fades_ack : Fades q (q.ack i) := by
  refine fades_map (fun j f hlive => ?_) (frames_ack_getElem? i)
  split_ifs at hlive
  · rw [Frame.confirm_fate] at hlive
    split_ifs at hlive
    exact hlive
  · exact hlive

theorem fades_reset : Fades q q.reset := by
  refine fades_map (fun j f hlive => ?_) frames_reset_getElem?
  split_ifs at hlive
  · rw [Frame.expire_fate] at hlive
    split_ifs at hlive
    exact hlive
  · exact hlive

/-! ## Pipes -/

/-- The pipe `L` carries frames in order, and every live frame that is older than one of them. -/
structure Piped (L : List Nat) (q : Queue α) : Prop where
  increasing : L.Pairwise (· < ·)
  bound : ∀ k ∈ L, k ≤ q.items.length
  complete : ∀ k ∈ L, ∀ (i : Nat) f, q.frames[i]? = some f → f.fate = .live → i + 1 < k → i + 1 ∈ L

theorem piped_nil : Piped [] q := by
  constructor <;> simp

theorem Piped.fades (h : Piped L q) (hfade : Fades q q') (hlen : q.items.length ≤ q'.items.length) :
    Piped L q' := by
  refine ⟨h.increasing, fun k hk => le_trans (h.bound k hk) hlen, ?_⟩
  intro k hk i f hf hlive hlt
  have hb := h.bound k hk
  rcases hfade i f hf hlive (by omega) with ⟨g, hg, hglive⟩
  exact h.complete k hk i g hg hglive hlt

/-- A frame is written: the live frames before the delivery index are in the pipe already. -/
theorem Piped.write (h : Piped L q) (hgone : ∀ f ∈ q.gone, f.fate ≠ .live)
    (hle : q.next ≤ q.window.length) (hcov : Covered (fun j => j ∈ L ∨ j = k) q)
    (hk : k ≤ q.gone.length + q.next) (hlast : ∀ j ∈ L, j < k) : Piped (L ++ [k]) q := by
  constructor
  · rw [List.pairwise_append]
    refine ⟨h.increasing, List.pairwise_singleton _ _, ?_⟩
    intro j hj j' hj'
    rw [List.mem_singleton.1 hj']
    exact hlast j hj
  · intro j hj
    rcases List.mem_append.1 hj with hold | hnew
    · exact h.bound j hold
    · rw [List.mem_singleton.1 hnew, length_items]
      omega
  · intro j hj i f hf hlive hlt
    rcases List.mem_append.1 hj with hold | hnew
    · exact List.mem_append_left _ (h.complete j hold i f hf hlive hlt)
    · rw [List.mem_singleton] at hnew
      -- the live frame is held, and it is before the delivery index
      have hin : q.gone.length ≤ i := by
        by_contra hout
        rw [frames_getElem?_left (by omega)] at hf
        exact hgone f (List.mem_of_getElem? hf) hlive
      rw [frames_getElem?_right hin] at hf
      have hcarried := hcov (i - q.gone.length) f hf hlive (by omega)
      rw [Nat.add_sub_cancel' hin] at hcarried
      rcases hcarried with hmem | heq
      · exact List.mem_append_left _ hmem
      · omega

/-- The reader takes the next frame of a pipe. -/
theorem Trail.receive {g : Nat} (h : Trail W H q) (hpipe : Piped L q) (hk : L[g]? = some k)
    (hread : ∀ j ∈ L.take g, W j) : Trail (fun j => W j ∨ j = k) H q := by
  have hmem : k ∈ L := List.mem_of_getElem? hk
  refine ⟨h.covered.mono fun j => Or.imp .inl id, ?_, ?_, ?_⟩
  · rintro j (hj | rfl) i f hf hlive hlt
    · exact .inl (h.closed j hj i f hf hlive hlt)
    · -- an older live frame is in the pipe, and the reader has passed it
      have hin := hpipe.complete j hmem i f hf hlive hlt
      exact .inl (hread _ (mem_take_of_lt hpipe.increasing hk hin hlt))
  · exact fun i f hf hconf => .inl (h.confirmed i f hf hconf)
  · rintro j (hj | rfl)
    · exact h.bound j hj
    · exact hpipe.bound j hmem

/-- An acknowledgement takes as many frames from the window as from what was delivered. -/
theorem ack_lengths (q : Queue α) (i : Nat) : ∃ n, (q.ack i).window.length =
    q.window.length - (i + 1 + n) ∧ (q.ack i).next = q.next - (i + 1 + n) := by
  refine ⟨(q.remove (i + 1) Frame.confirm).headRun, ?_, Nat.sub_sub _ _ _⟩
  simp only [ack, trim, remove, List.length_drop, Nat.sub_sub]

end Queue

end Replay
