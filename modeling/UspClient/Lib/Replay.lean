import Mathlib.Data.List.TakeWhile
import Mathlib.Tactic

/-!
# Replay queues

A queue that keeps what it handed out until it is confirmed, so that it can hand it out
again. Frames enter at the back. A cumulative acknowledgement confirms a prefix; a reset
starts delivery over and retires the frames whose transmission limit is used up; retired
frames keep their place until nothing live is in front of them.

`frames` lists everything ever admitted, in order of admission, with its fate. The
operations move the border between the frames that left (`gone`) and those that are held
(`window`), and change a frame only through `send`, `confirm` and `expire`.
-/

namespace Replay

/-- An element of a list with one more at the end is an old one or the new one. -/
theorem getElem?_snoc {α : Type} {l : List α} {x y : α} {k : Nat} (h : (l ++ [x])[k]? = some y) :
    l[k]? = some y ∨ (k = l.length ∧ y = x) := by
  by_cases hk : k < l.length
  · rw [List.getElem?_append_left hk] at h
    exact .inl h
  · rw [List.getElem?_append_right (by omega)] at h
    have hlt := (List.getElem?_eq_some_iff.1 h).1
    rw [List.length_singleton] at hlt
    rw [show k - l.length = 0 by omega] at h
    exact .inr ⟨by omega, (Option.some.inj h).symm⟩

/-- What became of an admitted frame. -/
inductive Fate where
  | live
  | confirmed
  | retired
deriving DecidableEq, Repr

/-- A frame with its transmission limit (zero is unlimited) and its handoffs. -/
structure Frame (α : Type) where
  item : α
  limit : Nat
  sends : Nat := 0
  fate : Fate := .live

namespace Frame

variable {α : Type} {f : Frame α}

/-- The frame is neither confirmed nor retired. -/
def live (f : Frame α) : Bool := decide (f.fate = .live)

/-- The frame was given up. -/
def retired (f : Frame α) : Bool := decide (f.fate = .retired)

/-- The frame had its last handoff. -/
def exhausted (f : Frame α) : Bool := decide (f.limit ≠ 0 ∧ f.limit ≤ f.sends)

/-- One more handoff. -/
def send (f : Frame α) : Frame α := { f with sends := f.sends + 1 }

/-- A live frame is confirmed, a retired one stays retired. -/
def confirm (f : Frame α) : Frame α := if f.live then { f with fate := .confirmed } else f

/-- A frame that had its last handoff is given up. -/
def expire (f : Frame α) : Frame α := if f.exhausted then { f with fate := .retired } else f

@[simp] theorem send_item : f.send.item = f.item := rfl
@[simp] theorem send_limit : f.send.limit = f.limit := rfl
@[simp] theorem send_fate : f.send.fate = f.fate := rfl
@[simp] theorem send_sends : f.send.sends = f.sends + 1 := rfl

@[simp] theorem confirm_item : f.confirm.item = f.item := by unfold confirm; split_ifs <;> rfl
@[simp] theorem confirm_limit : f.confirm.limit = f.limit := by unfold confirm; split_ifs <;> rfl
@[simp] theorem confirm_sends : f.confirm.sends = f.sends := by unfold confirm; split_ifs <;> rfl

@[simp] theorem expire_item : f.expire.item = f.item := by unfold expire; split_ifs <;> rfl
@[simp] theorem expire_limit : f.expire.limit = f.limit := by unfold expire; split_ifs <;> rfl
@[simp] theorem expire_sends : f.expire.sends = f.sends := by unfold expire; split_ifs <;> rfl

/-- Confirming changes the fate of live frames only. -/
theorem confirm_fate : f.confirm.fate = if f.fate = .live then .confirmed else f.fate := by
  unfold confirm live
  split_ifs <;> simp_all

/-- Expiring changes the fate of exhausted frames only. -/
theorem expire_fate : f.expire.fate = if f.exhausted then .retired else f.fate := by
  unfold expire
  split_ifs <;> rfl

/-- A limit of zero is never used up. -/
theorem exhausted_iff : f.exhausted = true ↔ f.limit ≠ 0 ∧ f.limit ≤ f.sends := by
  unfold exhausted
  rw [decide_eq_true_eq]

end Frame

/-- Frames that left, frames that are held, and the index of the next one to deliver. -/
structure Queue (α : Type) where
  gone : List (Frame α) := []
  window : List (Frame α) := []
  next : Nat := 0

namespace Queue

variable {α : Type} {q : Queue α} {f : Frame α} {i n : Nat} {g : Frame α → Frame α}

/-- Every frame ever admitted, in order of admission. -/
def frames (q : Queue α) : List (Frame α) := q.gone ++ q.window

/-! ## Operations -/

/-- A frame enters at the back. -/
def push (q : Queue α) (f : Frame α) : Queue α := { q with window := q.window ++ [f] }

/-- The first `n` frames leave, marked by `g`. -/
def remove (q : Queue α) (n : Nat) (g : Frame α → Frame α) : Queue α :=
  { gone := q.gone ++ (q.window.take n).map g, window := q.window.drop n, next := q.next - n }

/-- How many retired frames the window starts with. -/
def headRun (q : Queue α) : Nat := (q.window.takeWhile Frame.retired).length

/-- The retired frames at the front leave. -/
def trim (q : Queue α) : Queue α := q.remove q.headRun id

/-- A cumulative acknowledgement of the frames up to index `i`. -/
def ack (q : Queue α) (i : Nat) : Queue α := (q.remove (i + 1) Frame.confirm).trim

/-- Retire what is exhausted. -/
def expireAll (q : Queue α) : Queue α := { q with window := q.window.map Frame.expire }

/-- Start delivery over. -/
def reset (q : Queue α) : Queue α := (expireAll { q with next := 0 }).trim

/-- The index of the next live frame to deliver, or the end of the window. -/
def target (q : Queue α) : Nat :=
  q.next + ((q.window.drop q.next).takeWhile Frame.retired).length

/-- Deliver the frame at the target index. -/
def deliver (q : Queue α) : Queue α :=
  if q.target < q.window.length then
    { q with window := q.window.modify q.target Frame.send, next := q.target + 1 }
  else { q with next := q.target }

/-! ## What the operations do to the frames -/

/-- A push adds a frame. -/
theorem frames_push : (q.push f).frames = q.frames ++ [f] := by
  unfold push frames
  rw [List.append_assoc]

theorem frames_remove : (q.remove n g).frames =
    q.gone ++ (q.window.take n).map g ++ q.window.drop n := rfl

/-- Trimming moves the border only. -/
@[simp] theorem frames_trim : q.trim.frames = q.frames := by
  unfold trim
  rw [frames_remove, List.map_id, List.append_assoc, List.take_append_drop]
  rfl

/-- An acknowledgement confirms a prefix of the window. -/
theorem frames_ack : (q.ack i).frames =
    q.gone ++ (q.window.take (i + 1)).map Frame.confirm ++ q.window.drop (i + 1) := by
  unfold ack
  rw [frames_trim, frames_remove]

/-- A reset expires the window. -/
theorem frames_reset : q.reset.frames = q.gone ++ q.window.map Frame.expire := by
  unfold reset
  rw [frames_trim]
  rfl

/-- A delivery sends the frame at the target, if there is one. -/
theorem frames_deliver : q.deliver.frames =
    if q.target < q.window.length then q.gone ++ q.window.modify q.target Frame.send
    else q.frames := by
  unfold deliver
  split_ifs <;> rfl

/-- The frames that left come first. -/
theorem frames_getElem?_left (h : i < q.gone.length) : q.frames[i]? = q.gone[i]? :=
  List.getElem?_append_left h

/-- The frames that are held come after them. -/
theorem frames_getElem?_right (h : q.gone.length ≤ i) :
    q.frames[i]? = q.window[i - q.gone.length]? :=
  List.getElem?_append_right h

/-- An acknowledgement confirms a stretch of frames. -/
theorem frames_ack_getElem? (i k : Nat) : (q.ack i).frames[k]? =
    q.frames[k]?.map fun f =>
      if q.gone.length ≤ k ∧ k < q.gone.length + (i + 1) then f.confirm else f := by
  rw [frames_ack, List.append_assoc]
  by_cases hk : k < q.gone.length
  · rw [List.getElem?_append_left hk, frames_getElem?_left hk]
    simp only [if_neg (show ¬ (q.gone.length ≤ k ∧ k < q.gone.length + (i + 1)) by omega)]
    exact Option.map_id'.symm
  · rw [List.getElem?_append_right (by omega), frames_getElem?_right (by omega)]
    obtain ⟨j, hj⟩ : ∃ j, k - q.gone.length = j := ⟨_, rfl⟩
    rw [hj]
    by_cases hlt : j < i + 1
    · simp only [if_pos (show q.gone.length ≤ k ∧ k < q.gone.length + (i + 1) by omega)]
      by_cases hlen : j < q.window.length
      · rw [List.getElem?_append_left (by
          rw [List.length_map, List.length_take]; omega), List.getElem?_map,
          List.getElem?_take_of_lt hlt]
      · rw [List.getElem?_eq_none (by
          rw [List.length_append, List.length_map, List.length_take, List.length_drop]; omega),
          List.getElem?_eq_none (by omega)]
        rfl
    · simp only [if_neg (show ¬ (q.gone.length ≤ k ∧ k < q.gone.length + (i + 1)) by omega)]
      rw [List.getElem?_append_right (by rw [List.length_map, List.length_take]; omega),
        List.length_map, List.length_take, List.getElem?_drop, Option.map_id']
      by_cases hlen : i + 1 ≤ q.window.length
      · rw [show i + 1 + (j - min (i + 1) q.window.length) = j by omega]
      · rw [List.getElem?_eq_none (by omega), List.getElem?_eq_none (by omega)]

/-- A reset expires the frames that are held. -/
theorem frames_reset_getElem? (k : Nat) : q.reset.frames[k]? =
    q.frames[k]?.map fun f => if q.gone.length ≤ k then f.expire else f := by
  rw [frames_reset]
  by_cases hk : k < q.gone.length
  · rw [List.getElem?_append_left hk, frames_getElem?_left hk]
    simp only [if_neg (show ¬ q.gone.length ≤ k by omega)]
    exact Option.map_id'.symm
  · rw [List.getElem?_append_right (by omega), frames_getElem?_right (by omega), List.getElem?_map]
    simp only [if_pos (show q.gone.length ≤ k by omega)]

/-- A delivery sends one frame. -/
theorem frames_deliver_getElem? (k : Nat) : q.deliver.frames[k]? =
    q.frames[k]?.map fun f => if k = q.gone.length + q.target then f.send else f := by
  rw [frames_deliver]
  by_cases hk : k < q.gone.length
  · have hne : k ≠ q.gone.length + q.target := by omega
    simp only [if_neg hne, Option.map_id']
    split_ifs
    · rw [List.getElem?_append_left hk, frames_getElem?_left hk]
    · rfl
  · by_cases ht : q.target < q.window.length
    · rw [if_pos ht, frames_getElem?_right (by omega), List.getElem?_append_right (by omega),
        List.getElem?_modify]
      cases q.window[k - q.gone.length]? with
      | none => rfl
      | some f =>
        simp only [Option.map_eq_map, Option.map_some]
        by_cases hkt : k = q.gone.length + q.target
        · rw [if_pos (by omega), if_pos hkt]
        · rw [if_neg (by omega), if_neg hkt]
    · rw [if_neg ht]
      by_cases hkt : k = q.gone.length + q.target
      · rw [frames_getElem?_right (by omega), List.getElem?_eq_none (by omega)]
        rfl
      · simp only [if_neg hkt, Option.map_id']

theorem headRun_le_length (q : Queue α) : q.headRun ≤ q.window.length :=
  (List.takeWhile_prefix _).length_le

/-- Frames that are removed have left. -/
theorem length_gone_remove (hn : n ≤ q.window.length) :
    (q.remove n g).gone.length = q.gone.length + n := by
  show (q.gone ++ (q.window.take n).map g).length = _
  rw [List.length_append, List.length_map, List.length_take, Nat.min_eq_left hn]

theorem remove_zero : q.remove 0 id = q := by
  unfold Queue.remove
  rw [List.take_zero, List.drop_zero, List.map_nil, List.append_nil]
  rfl

/-- Without retired frames in front nothing leaves. -/
theorem trim_of_headRun (h : q.headRun = 0) : q.trim = q := by
  unfold trim
  rw [h]
  exact remove_zero

/-- Trimming is removing a prefix. -/
theorem trim_eq_remove (h : 0 < q.headRun) : q.trim = q.remove (q.headRun - 1 + 1) id := by
  unfold trim
  rw [Nat.sub_add_cancel h]

/-- What was admitted, in order. -/
def items (q : Queue α) : List α := q.frames.map Frame.item

/-- Every item has left or is held. -/
theorem length_items (q : Queue α) : q.items.length = q.gone.length + q.window.length := by
  unfold items frames
  rw [List.length_map, List.length_append]

/-- A push admits one item. -/
theorem items_push : (q.push f).items = q.items ++ [f.item] := by
  unfold items
  rw [frames_push, List.map_append]
  rfl

theorem map_take_append_drop {β : Type} (h : Frame α → β) (hg : ∀ f, h (g f) = h f)
    (l : List (Frame α)) (n : Nat) :
    (((l.take n).map g) ++ l.drop n).map h = l.map h := by
  rw [List.map_append, List.map_map]
  have hcomp : h ∘ g = h := funext hg
  rw [hcomp, ← List.map_append, List.take_append_drop]

/-- No other operation changes what was admitted. -/
theorem items_remove (hg : ∀ f, (g f).item = f.item) : (q.remove n g).items = q.items := by
  unfold items
  rw [frames_remove, List.append_assoc, List.map_append, map_take_append_drop Frame.item hg, frames,
    List.map_append]

@[simp] theorem items_trim : q.trim.items = q.items := items_remove fun _ => rfl

@[simp] theorem items_ack : (q.ack i).items = q.items := by
  unfold ack
  rw [items_trim, items_remove fun _ => Frame.confirm_item]

@[simp] theorem items_reset : q.reset.items = q.items := by
  unfold items
  rw [frames_reset, frames, List.map_append, List.map_append, List.map_map]
  congr 2
  funext f
  exact Frame.expire_item

@[simp] theorem items_deliver : q.deliver.items = q.items := by
  unfold items
  rw [frames_deliver]
  split_ifs
  · rw [frames, List.map_append, List.map_append]
    congr 1
    apply List.ext_getElem?
    intro k
    rw [List.getElem?_map, List.getElem?_map, List.getElem?_modify]
    cases q.window[k]? with
    | none => rfl
    | some f =>
      simp only [Option.map_eq_map, Option.map_some]
      split_ifs <;> rfl
  · rfl

/-! ## Well-formed queues -/

/-- No retired frame is at the front. -/
def Trimmed (q : Queue α) : Prop := ∀ f, q.window.head? = some f → f.retired = false

/-- No frame is sent beyond its limit, live frames are held and confirmed ones have left. -/
structure Sane (q : Queue α) : Prop where
  next_le : q.next ≤ q.window.length
  window : ∀ f ∈ q.window, f.fate ≠ .confirmed
  gone : ∀ f ∈ q.gone, f.fate ≠ .live
  sent : ∀ f ∈ q.frames, f.limit ≠ 0 → f.sends ≤ f.limit
  retired : ∀ f ∈ q.frames, f.fate = .retired → f.limit ≠ 0 ∧ f.sends = f.limit
  fresh : ∀ f ∈ q.window.drop q.next, f.fate = .live → f.exhausted = false

theorem sane_empty : Sane ({} : Queue α) := by
  constructor <;> simp [frames]

theorem trimmed_empty : Trimmed ({} : Queue α) := by
  intro f hf
  simp at hf

/-- A frame that is held is live or retired. -/
theorem Sane.live_of_mem (h : Sane q) (hf : f ∈ q.window) (hr : f.retired = false) :
    f.fate = .live := by
  have hc := h.window f hf
  unfold Frame.retired at hr
  rw [decide_eq_false_iff_not] at hr
  cases hfate : f.fate with
  | live => rfl
  | confirmed => exact absurd hfate hc
  | retired => exact absurd hfate hr

theorem mem_frames_window (hf : f ∈ q.window) : f ∈ q.frames := List.mem_append_right _ hf

/-- A new frame is live and was not sent. -/
theorem Sane.push (h : Sane q) (hs : f.sends = 0) (hf : f.fate = .live) : Sane (q.push f) := by
  have hmem : ∀ x ∈ (q.push f).frames, x ∈ q.frames ∨ x = f := by
    intro x hx
    rw [frames_push, List.mem_append, List.mem_singleton] at hx
    exact hx
  constructor
  · unfold Queue.push
    rw [List.length_append]
    exact le_trans h.next_le (Nat.le_add_right _ _)
  · intro x hx
    rcases List.mem_append.1 hx with hold | hnew
    · exact h.window x hold
    · rw [List.mem_singleton.1 hnew, hf]
      exact Fate.noConfusion
  · exact h.gone
  · intro x hx hl
    rcases hmem x hx with hold | rfl
    · exact h.sent x hold hl
    · rw [hs]
      exact Nat.zero_le _
  · intro x hx hr
    rcases hmem x hx with hold | rfl
    · exact h.retired x hold hr
    · rw [hf] at hr
      cases hr
  · intro x hx hl
    unfold Queue.push at hx
    rw [List.drop_append_of_le_length h.next_le, List.mem_append, List.mem_singleton] at hx
    rcases hx with hold | rfl
    · exact h.fresh x hold hl
    · -- a frame that was never sent has not used up its limit
      unfold Frame.exhausted
      rw [hs, decide_eq_false_iff_not]
      omega

theorem trimmed_push (h : Trimmed q) (hf : f.fate = .live) : Trimmed (q.push f) := by
  intro x hx
  unfold push at hx
  cases hw : q.window with
  | nil =>
    simp only [hw, List.nil_append, List.head?_cons, Option.some.injEq] at hx
    rw [← hx, Frame.retired, hf]
    rfl
  | cons y l =>
    refine h x ?_
    simpa [hw] using hx

/-- Removing a prefix keeps the queue sane if `g` marks each frame as gone. -/
theorem Sane.remove (h : Sane q) (hfix : ∀ f, (g f).limit = f.limit ∧ (g f).sends = f.sends)
    (hret : ∀ f, (g f).fate = .retired → f.fate = .retired)
    (hgone : ∀ f ∈ q.window.take n, (g f).fate ≠ .live) : Sane (q.remove n g) := by
  -- every frame is an old one, or an old one that was marked
  have hmem : ∀ x ∈ (q.remove n g).frames, ∃ y ∈ q.frames, x = y ∨ x = g y := by
    intro x hx
    rw [frames_remove, List.mem_append, List.mem_append, List.mem_map] at hx
    rcases hx with (hx | ⟨y, hy, rfl⟩) | hx
    · exact ⟨x, List.mem_append_left _ hx, .inl rfl⟩
    · exact ⟨y, mem_frames_window (List.mem_of_mem_take hy), .inr rfl⟩
    · exact ⟨x, mem_frames_window (List.mem_of_mem_drop hx), .inl rfl⟩
  constructor
  · show q.next - n ≤ (q.window.drop n).length
    rw [List.length_drop]
    have hle := h.next_le
    omega
  · intro x hx
    exact h.window x (List.mem_of_mem_drop hx)
  · intro x hx
    rcases List.mem_append.1 hx with hold | hnew
    · exact h.gone x hold
    · obtain ⟨y, hy, rfl⟩ := List.mem_map.1 hnew
      exact hgone y hy
  · intro x hx hl
    obtain ⟨y, hy, rfl | rfl⟩ := hmem x hx
    · exact h.sent _ hy hl
    · rw [(hfix y).1] at hl ⊢
      rw [(hfix y).2]
      exact h.sent y hy hl
  · intro x hx hr
    obtain ⟨y, hy, rfl | rfl⟩ := hmem x hx
    · exact h.retired _ hy hr
    · rw [(hfix y).1, (hfix y).2]
      exact h.retired y hy (hret y hr)
  · intro x hx hl
    refine h.fresh x ?_ hl
    unfold Queue.remove at hx
    rw [List.drop_drop] at hx
    -- the cursor moves with the frames, at most to the front
    by_cases hn : n ≤ q.next
    · rwa [show n + (q.next - n) = q.next by omega] at hx
    · rw [show n + (q.next - n) = q.next + (n - q.next) by omega, ← List.drop_drop] at hx
      exact List.mem_of_mem_drop hx

theorem take_takeWhile (p : Frame α → Bool) (l : List (Frame α)) :
    l.take (l.takeWhile p).length = l.takeWhile p := by
  have hleft : (l.takeWhile p ++ l.dropWhile p).take (l.takeWhile p).length = l.takeWhile p :=
    List.take_left
  rwa [List.takeWhile_append_dropWhile] at hleft

theorem drop_takeWhile (p : Frame α → Bool) (l : List (Frame α)) :
    l.drop (l.takeWhile p).length = l.dropWhile p := by
  have hleft : (l.takeWhile p ++ l.dropWhile p).drop (l.takeWhile p).length = l.dropWhile p :=
    List.drop_left
  rwa [List.takeWhile_append_dropWhile] at hleft

/-- The frames that trimming removes are retired. -/
theorem headRun_retired (hf : f ∈ q.window.take q.headRun) : f.fate = .retired := by
  rw [headRun, take_takeWhile] at hf
  have hr := List.mem_takeWhile_imp hf
  unfold Frame.retired at hr
  exact of_decide_eq_true hr

/-- Trimming removes retired frames only. -/
theorem Sane.trim (h : Sane q) : Sane q.trim := by
  refine h.remove (fun _ => ⟨rfl, rfl⟩) (fun _ hr => hr) ?_
  intro x hx
  rw [id, headRun_retired hx]
  exact Fate.noConfusion

/-- The run of retired frames in front is removed as a whole. -/
theorem trimmed_trim : Trimmed q.trim := by
  intro x hx
  have hdrop : q.trim.window = q.window.dropWhile Frame.retired := drop_takeWhile _ _
  have hhead := List.head?_dropWhile_not Frame.retired q.window
  rw [← hdrop, hx] at hhead
  simpa using hhead

/-- An acknowledgement leaves no live frame among those that left. -/
theorem Sane.ack (h : Sane q) : Sane (q.ack i) := by
  refine Sane.trim (h.remove (fun _ => ⟨Frame.confirm_limit, Frame.confirm_sends⟩) ?_ ?_)
  · intro x hr
    rw [Frame.confirm_fate] at hr
    split_ifs at hr with hl
    exact hr
  · intro x _
    rw [Frame.confirm_fate]
    split_ifs with hl
    · exact Fate.noConfusion
    · exact hl

theorem trimmed_ack : Trimmed (q.ack i) := trimmed_trim

/-- A reset retires every frame whose limit is used up. -/
theorem Sane.reset (h : Sane q) : Sane q.reset := by
  refine Sane.trim ?_
  have hmem : ∀ x ∈ (expireAll { q with next := 0 }).frames,
      ∃ y ∈ q.frames, x = y ∨ x = y.expire := by
    intro x hx
    rcases List.mem_append.1 hx with hold | hnew
    · exact ⟨x, List.mem_append_left _ hold, .inl rfl⟩
    · obtain ⟨y, hy, rfl⟩ := List.mem_map.1 hnew
      exact ⟨y, mem_frames_window hy, .inr rfl⟩
  constructor
  · exact Nat.zero_le _
  · intro x hx
    obtain ⟨y, hy, rfl⟩ := List.mem_map.1 hx
    rw [Frame.expire_fate]
    split_ifs
    · exact Fate.noConfusion
    · exact h.window y hy
  · exact h.gone
  · intro x hx hl
    obtain ⟨y, hy, rfl | rfl⟩ := hmem x hx
    · exact h.sent _ hy hl
    · rw [Frame.expire_limit] at hl ⊢
      rw [Frame.expire_sends]
      exact h.sent y hy hl
  · intro x hx hr
    obtain ⟨y, hy, rfl | rfl⟩ := hmem x hx
    · exact h.retired _ hy hr
    · rw [Frame.expire_limit, Frame.expire_sends]
      rw [Frame.expire_fate] at hr
      split_ifs at hr with he
      · -- it was retired now: its handoffs are used up
        obtain ⟨hl, hle⟩ := Frame.exhausted_iff.1 he
        exact ⟨hl, le_antisymm (h.sent y hy hl) hle⟩
      · exact h.retired y hy hr
  · intro x hx hl
    obtain ⟨y, -, rfl⟩ := List.mem_map.1 (List.mem_of_mem_drop hx)
    rw [Frame.expire_fate] at hl
    split_ifs at hl with he
    unfold Frame.expire
    rw [if_neg he]
    simpa using he

theorem trimmed_reset : Trimmed q.reset := trimmed_trim

/-! ## Delivery -/

theorem le_target : q.next ≤ q.target := Nat.le_add_right _ _

/-- The target is a slot of the window or its end. -/
theorem target_le (h : q.next ≤ q.window.length) : q.target ≤ q.window.length := by
  have hlen := (List.takeWhile_prefix Frame.retired (l := q.window.drop q.next)).length_le
  rw [List.length_drop] at hlen
  unfold target
  omega

/-- The frames skipped on the way to the target are retired. -/
theorem retired_of_skipped (hn : q.next ≤ i) (hi : i < q.target) (hf : q.window[i]? = some f) :
    f.retired = true := by
  unfold target at hi
  have hget : ((q.window.drop q.next).takeWhile Frame.retired)[i - q.next]? = some f := by
    rw [← take_takeWhile, List.getElem?_take_of_lt (by omega), List.getElem?_drop,
      show q.next + (i - q.next) = i by omega]
    exact hf
  exact List.mem_takeWhile_imp (List.mem_of_getElem? hget)

/-- The frame at the target is not retired. -/
theorem target_not_retired (hf : q.window[q.target]? = some f) : f.retired = false := by
  have hhead := List.head?_dropWhile_not Frame.retired (q.window.drop q.next)
  have hdrop : (q.window.drop q.next).dropWhile Frame.retired = q.window.drop q.target := by
    rw [target, ← List.drop_drop, drop_takeWhile]
  rw [hdrop, List.head?_drop, hf] at hhead
  simpa using hhead

/-- A frame of a window in which one frame changed is an old one or the changed one. -/
theorem mem_modify {l : List (Frame α)} {x y : Frame α} (hx : l[i]? = some x)
    (hy : y ∈ l.modify i g) : y ∈ l ∨ y = g x := by
  rcases List.mem_iff_getElem?.1 hy with ⟨j, hj⟩
  rw [List.getElem?_modify] at hj
  by_cases hij : i = j
  · subst hij
    right
    simpa [hx] using hj.symm
  · left
    refine List.mem_of_getElem? (i := j) ?_
    simpa [hij] using hj

/-- The frame handed out had a handoff left. -/
theorem Sane.deliver (h : Sane q) : Sane q.deliver := by
  unfold Queue.deliver
  split_ifs with ht
  · obtain ⟨x, hx⟩ : ∃ x, q.window[q.target]? = some x := ⟨_, List.getElem?_eq_getElem ht⟩
    have hxmem := List.mem_of_getElem? hx
    have hlive := h.live_of_mem hxmem (target_not_retired hx)
    have hfresh : x.exhausted = false := by
      refine h.fresh x (List.mem_of_getElem? (i := q.target - q.next) ?_) hlive
      rw [List.getElem?_drop, show q.next + (q.target - q.next) = q.target by
        have := le_target (q := q); omega]
      exact hx
    have hmem : ∀ y ∈ q.gone ++ q.window.modify q.target Frame.send,
        y ∈ q.frames ∨ y = x.send := by
      intro y hy
      rcases List.mem_append.1 hy with hold | hnew
      · exact .inl (List.mem_append_left _ hold)
      · rcases mem_modify hx hnew with hw | hs
        · exact .inl (mem_frames_window hw)
        · exact .inr hs
    constructor
    · rw [List.length_modify]
      exact ht
    · intro y hy
      rcases mem_modify hx hy with hw | rfl
      · exact h.window y hw
      · exact h.window x hxmem
    · exact h.gone
    · intro y hy hl
      rcases hmem y hy with hold | rfl
      · exact h.sent y hold hl
      · -- the frame was not exhausted, so one more handoff stays within its limit
        unfold Frame.exhausted at hfresh
        rw [decide_eq_false_iff_not] at hfresh
        rw [Frame.send_limit] at hl ⊢
        rw [Frame.send_sends]
        omega
    · intro y hy hr
      rcases hmem y hy with hold | rfl
      · exact h.retired y hold hr
      · rw [Frame.send_fate, hlive] at hr
        cases hr
    · -- the frames behind the target did not change
      intro y hy hl
      refine h.fresh y ?_ hl
      obtain ⟨j, hj⟩ := List.mem_iff_getElem?.1 hy
      have hne : q.target ≠ q.target + 1 + j := by omega
      refine List.mem_of_getElem? (i := q.target + 1 + j - q.next) ?_
      have hle := le_target (q := q)
      rw [List.getElem?_drop, show q.next + (q.target + 1 + j - q.next) = q.target + 1 + j by omega]
      simpa [List.getElem?_modify, hne] using hj
  · -- only retired frames were left: the cursor passes them
    have hle := target_le h.next_le
    constructor
    · exact hle
    · exact h.window
    · exact h.gone
    · exact h.sent
    · exact h.retired
    · intro y hy _
      have hnil : q.window.drop q.target = [] := List.drop_eq_nil_of_le (by omega)
      rw [hnil] at hy
      simp at hy

theorem trimmed_deliver (h : Trimmed q) : Trimmed q.deliver := by
  unfold deliver
  split_ifs with ht
  · intro x hx
    rw [List.head?_eq_getElem?, List.getElem?_modify] at hx
    cases hw : q.window[0]? with
    | none => simp [hw] at hx
    | some y =>
      have hy := h y (by rw [List.head?_eq_getElem?, hw])
      rw [hw] at hx
      cases hx
      split_ifs
      · exact hy
      · exact hy
  · exact h

end Queue

end Replay
