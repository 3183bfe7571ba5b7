import UspClient.Message

/-!
# What the size estimate counts

The estimate of a message is the sum of its overheads and of every byte the walk of the JSON
payload comes to. The walk does not enter a map or a slice below `maxEstimateDepth`: it charges
`jsonDeepPenaltyBytes` instead, whatever it holds. `payload` are all the bytes of a tree and
`counted` are those that the estimate covers: at most the penalty for each map or slice that is
not entered.
-/

namespace UspClient

open Word64

/-! ## The bytes of a tree -/

mutual
/-- The bytes of all keys, strings and byte slices. Of a value of an unknown type the estimate sees
nothing, and it is charged flat. -/
def JsonValue.payload : JsonValue → Nat
  | .string s => s.length
  | .map m => m.payload
  | .slice l => l.payload
  | .strings l => (l.map List.length).sum
  | .stringMap m => (m.map fun e => e.1.length + e.2.length).sum
  | .bytes s => s.length
  | .scalar => 0
  | .other => 0
def JsonMap.payload : JsonMap → Nat
  | .nil => 0
  | .entry k v rest => k.length + v.payload + rest.payload
def JsonSlice.payload : JsonSlice → Nat
  | .nil => 0
  | .item v rest => v.payload + rest.payload
end

mutual
/-- The bytes that the estimate covers. -/
def JsonValue.counted : JsonValue → Nat → Nat
  | .string s, _ => s.length
  | .map m, depth =>
    if depth ≥ maxEstimateDepth then min m.payload jsonDeepPenaltyBytes else m.counted depth
  | .slice l, depth =>
    if depth ≥ maxEstimateDepth then min l.payload jsonDeepPenaltyBytes else l.counted depth
  | .strings l, _ => (l.map List.length).sum
  | .stringMap m, _ => (m.map fun e => e.1.length + e.2.length).sum
  | .bytes s, _ => s.length
  | .scalar, _ => 0
  | .other, _ => 0
def JsonMap.counted : JsonMap → Nat → Nat
  | .nil, _ => 0
  | .entry k v rest, depth => k.length + v.counted (depth + 1) + rest.counted depth
def JsonSlice.counted : JsonSlice → Nat → Nat
  | .nil, _ => 0
  | .item v rest, depth => v.counted (depth + 1) + rest.counted depth
end

mutual
/-- No map or slice that the walk does not enter holds more bytes than the penalty. -/
def JsonValue.CutFits : JsonValue → Nat → Prop
  | .map m, depth =>
    if depth ≥ maxEstimateDepth then m.payload ≤ jsonDeepPenaltyBytes else m.CutFits depth
  | .slice l, depth =>
    if depth ≥ maxEstimateDepth then l.payload ≤ jsonDeepPenaltyBytes else l.CutFits depth
  | .string _, _ => True
  | .strings _, _ => True
  | .stringMap _, _ => True
  | .bytes _, _ => True
  | .scalar, _ => True
  | .other, _ => True
def JsonMap.CutFits : JsonMap → Nat → Prop
  | .nil, _ => True
  | .entry _ v rest, depth => v.CutFits (depth + 1) ∧ rest.CutFits depth
def JsonSlice.CutFits : JsonSlice → Nat → Prop
  | .nil, _ => True
  | .item v rest, depth => v.CutFits (depth + 1) ∧ rest.CutFits depth
end

mutual
/-- `estimateJSONValue` with sums that do not wrap. -/
def JsonValue.weight : JsonValue → Nat → Nat
  | .string s, _ => s.length
  | .map m, depth => if depth ≥ maxEstimateDepth then jsonDeepPenaltyBytes else m.weight depth
  | .slice l, depth => if depth ≥ maxEstimateDepth then jsonDeepPenaltyBytes else l.weight depth
  | .strings l, _ => (l.map fun s => jsonEntryOverheadBytes + s.length).sum
  | .stringMap m, _ => (m.map fun e => jsonEntryOverheadBytes + e.1.length + e.2.length).sum
  | .bytes s, _ => s.length
  | .scalar, _ => jsonScalarBytes
  | .other, _ => 2 * jsonEntryOverheadBytes
def JsonMap.weight : JsonMap → Nat → Nat
  | .nil, _ => 0
  | .entry k v rest, depth =>
    jsonEntryOverheadBytes + k.length + v.weight (depth + 1) + rest.weight depth
def JsonSlice.weight : JsonSlice → Nat → Nat
  | .nil, _ => 0
  | .item v rest, depth => jsonEntryOverheadBytes + v.weight (depth + 1) + rest.weight depth
end

/-! ## The estimate is its weight -/

mutual
/-- Below the word size no sum of the estimate wraps. -/
theorem estimateJSONValue_eq : (v : JsonValue) → (depth : Nat) → v.weight depth < 2 ^ 64 →
    estimateJSONValue v depth = v.weight depth
  | .string _, _, _ => rfl
  | .map m, depth, h => by
    unfold estimateJSONValue JsonValue.weight at *
    split_ifs at h ⊢
    · rfl
    · exact estimateEntries_eq m depth h
  | .slice l, depth, h => by
    unfold estimateJSONValue JsonValue.weight at *
    split_ifs at h ⊢
    · rfl
    · exact estimateItems_eq l depth h
  | .strings l, _, h => by
    unfold estimateJSONValue JsonValue.weight at *
    exact sum64_map_eq _ _ l (fun _ hx => add64_eq hx) h
  | .stringMap m, _, h => by
    unfold estimateJSONValue JsonValue.weight at *
    refine sum64_map_eq _ _ m (fun e he => ?_) h
    rw [add64_eq (a := jsonEntryOverheadBytes) (by omega), add64_eq he]
  | .bytes _, _, _ => rfl
  | .scalar, _, _ => rfl
  | .other, _, _ => rfl
theorem estimateEntries_eq : (m : JsonMap) → (depth : Nat) → m.weight depth < 2 ^ 64 →
    estimateEntries m depth = m.weight depth
  | .nil, _, _ => rfl
  | .entry k v rest, depth, h => by
    unfold estimateEntries JsonMap.weight at *
    rw [estimateJSONValue_eq v (depth + 1) (by omega), estimateEntries_eq rest depth (by omega),
      add64_eq (a := jsonEntryOverheadBytes) (by omega), add64_eq (b := v.weight _) (by omega),
      add64_eq h]
theorem estimateItems_eq : (l : JsonSlice) → (depth : Nat) → l.weight depth < 2 ^ 64 →
    estimateItems l depth = l.weight depth
  | .nil, _, _ => rfl
  | .item v rest, depth, h => by
    unfold estimateItems JsonSlice.weight at *
    rw [estimateJSONValue_eq v (depth + 1) (by omega), estimateItems_eq rest depth (by omega),
      add64_eq (a := jsonEntryOverheadBytes) (by omega), add64_eq h]
end

/-! ## The weight covers the bytes -/

mutual
/-- The overhead only adds to what is counted. -/
theorem JsonValue.counted_le_weight : (v : JsonValue) → (depth : Nat) →
    v.counted depth ≤ v.weight depth
  | .string _, _ => le_rfl
  | .map m, depth => by
    unfold JsonValue.counted JsonValue.weight
    split_ifs
    · exact Nat.min_le_right _ _
    · exact m.counted_le_weight depth
  | .slice l, depth => by
    unfold JsonValue.counted JsonValue.weight
    split_ifs
    · exact Nat.min_le_right _ _
    · exact l.counted_le_weight depth
  | .strings l, _ => List.sum_le_sum fun _ _ => Nat.le_add_left _ _
  | .stringMap m, _ => List.sum_le_sum fun e _ => by omega
  | .bytes _, _ => le_rfl
  | .scalar, _ => Nat.zero_le _
  | .other, _ => Nat.zero_le _
theorem JsonMap.counted_le_weight : (m : JsonMap) → (depth : Nat) →
    m.counted depth ≤ m.weight depth
  | .nil, _ => le_rfl
  | .entry k v rest, depth => by
    have hvalue := v.counted_le_weight (depth + 1)
    have hrest := rest.counted_le_weight depth
    unfold JsonMap.counted JsonMap.weight
    omega
theorem JsonSlice.counted_le_weight : (l : JsonSlice) → (depth : Nat) →
    l.counted depth ≤ l.weight depth
  | .nil, _ => le_rfl
  | .item v rest, depth => by
    have hvalue := v.counted_le_weight (depth + 1)
    have hrest := rest.counted_le_weight depth
    unfold JsonSlice.counted JsonSlice.weight
    omega
end

mutual
/-- All bytes are covered exactly when no cut is too deep for the penalty. -/
theorem JsonValue.counted_cut : (v : JsonValue) → (depth : Nat) →
    v.counted depth ≤ v.payload ∧ (v.counted depth = v.payload ↔ v.CutFits depth)
  | .string _, _ => ⟨le_rfl, iff_of_true rfl trivial⟩
  | .map m, depth => by
    unfold JsonValue.counted JsonValue.payload JsonValue.CutFits
    split_ifs
    · exact ⟨Nat.min_le_left _ _, min_eq_left_iff⟩
    · exact m.counted_cut depth
  | .slice l, depth => by
    unfold JsonValue.counted JsonValue.payload JsonValue.CutFits
    split_ifs
    · exact ⟨Nat.min_le_left _ _, min_eq_left_iff⟩
    · exact l.counted_cut depth
  | .strings _, _ => ⟨le_rfl, iff_of_true rfl trivial⟩
  | .stringMap _, _ => ⟨le_rfl, iff_of_true rfl trivial⟩
  | .bytes _, _ => ⟨le_rfl, iff_of_true rfl trivial⟩
  | .scalar, _ => ⟨le_rfl, iff_of_true rfl trivial⟩
  | .other, _ => ⟨le_rfl, iff_of_true rfl trivial⟩
/-- A map is counted in full if its cuts fit. -/
theorem JsonMap.counted_cut : (m : JsonMap) → (depth : Nat) →
    m.counted depth ≤ m.payload ∧ (m.counted depth = m.payload ↔ m.CutFits depth)
  | .nil, _ => ⟨le_rfl, iff_of_true rfl trivial⟩
  | .entry k v rest, depth => by
    rcases v.counted_cut (depth + 1) with ⟨hvalue, hfits⟩
    rcases rest.counted_cut depth with ⟨hrest, hfits'⟩
    unfold JsonMap.counted JsonMap.payload JsonMap.CutFits
    rw [← hfits, ← hfits']
    omega
theorem JsonSlice.counted_cut : (l : JsonSlice) → (depth : Nat) →
    l.counted depth ≤ l.payload ∧ (l.counted depth = l.payload ↔ l.CutFits depth)
  | .nil, _ => ⟨le_rfl, iff_of_true rfl trivial⟩
  | .item v rest, depth => by
    rcases v.counted_cut (depth + 1) with ⟨hvalue, hfits⟩
    rcases rest.counted_cut depth with ⟨hrest, hfits'⟩
    unfold JsonSlice.counted JsonSlice.payload JsonSlice.CutFits
    rw [← hfits, ← hfits']
    omega
end

/-! ## The estimate of a message -/

/-- The bytes outside the JSON payload. -/
def DataMessage.plainBytes (m : DataMessage) : Nat :=
  m.textPayload.length + m.binaryPayload.length + m.bundlePayload.length +
    m.compressedBundlePayload.length + m.eventType.length + m.thisAtom.length +
    m.parentAtom.length + m.targetAtom.length + m.investigationID.length

/-- `estimateMessageSize` with sums that do not wrap. -/
def DataMessage.weight (m : DataMessage) : Nat :=
  messageOverheadBytes + m.plainBytes + m.jsonPayload.weight 0

/-- The estimate of a message is its weight. -/
theorem estimateMessageSize_eq {m : DataMessage} (h : m.weight < 2 ^ 64) :
    estimateMessageSize m = m.weight := by
  unfold DataMessage.weight at h ⊢
  have hplain : add64 messageOverheadBytes m.plainBytes = messageOverheadBytes + m.plainBytes :=
    add64_eq (by omega)
  unfold estimateMessageSize
  cases hj : m.jsonPayload with
  | nil => exact hplain
  | entry k v rest =>
    rw [hj] at h
    have hjson : estimateJSONMap (.entry k v rest) 0 = (JsonMap.entry k v rest).weight 0 :=
      (if_neg (by decide)).trans (estimateEntries_eq _ 0 (by omega))
    show add64 (add64 messageOverheadBytes m.plainBytes) (estimateJSONMap (.entry k v rest) 0) = _
    rw [hplain, hjson, add64_eq h]

/-- **The estimate counts** every byte outside the JSON payload and every byte the walk comes to,
and up to the penalty of what it does not enter. -/
theorem estimate_covers (m : DataMessage) (h : m.weight < 2 ^ 64) :
    messageOverheadBytes + m.plainBytes + m.jsonPayload.counted 0 ≤ estimateMessageSize m ∧
      (m.jsonPayload.counted 0 = m.jsonPayload.payload ↔ m.jsonPayload.CutFits 0) := by
  refine ⟨?_, (m.jsonPayload.counted_cut 0).2⟩
  rw [estimateMessageSize_eq h]
  exact Nat.add_le_add_left (m.jsonPayload.counted_le_weight 0) _

/-- A value in `n` slices. -/
def JsonValue.nested (v : JsonValue) : Nat → JsonValue
  | 0 => v
  | n + 1 => .slice (.item (v.nested n) .nil)

/-- Nesting does not change the payload. -/
theorem JsonValue.nested_payload (v : JsonValue) (n : Nat) : (v.nested n).payload = v.payload := by
  induction n with
  | zero => rfl
  | succ n ih =>
    rw [JsonValue.nested, JsonValue.payload, JsonSlice.payload, JsonSlice.payload, ih, Nat.add_zero]

/-- The walk enters all slices but the last one. -/
theorem JsonValue.nested_cut (v : JsonValue) (k : Nat) (hk : k ≤ 32) :
    (v.nested (k + 1)).weight (32 - k) = k * 64 + 4096 ∧
      ((v.nested (k + 1)).CutFits (32 - k) ↔ v.payload ≤ 4096) := by
  induction k with
  | zero =>
    have hcut : 32 - 0 ≥ maxEstimateDepth := by decide
    rw [JsonValue.nested, JsonValue.weight, JsonValue.CutFits, if_pos hcut, if_pos hcut,
      JsonSlice.payload, JsonSlice.payload, JsonValue.nested]
    exact ⟨rfl, Iff.rfl⟩
  | succ k ih =>
    rcases ih (by omega) with ⟨hweight, hfits⟩
    have hdepth : 32 - (k + 1) + 1 = 32 - k := by omega
    have hwalked : ¬ 32 - (k + 1) ≥ maxEstimateDepth := by
      unfold maxEstimateDepth
      omega
    rw [JsonValue.nested, JsonValue.weight, JsonValue.CutFits, if_neg hwalked, if_neg hwalked,
      JsonSlice.weight, JsonSlice.CutFits, JsonSlice.weight, JsonSlice.CutFits, hdepth, hweight,
      hfits, and_true]
    unfold jsonEntryOverheadBytes
    exact ⟨by omega, Iff.rfl⟩

/-- A string of `n` bytes, 32 slices deep. -/
def deepString (n : Nat) : DataMessage :=
  { jsonPayload := .entry [] (JsonValue.nested (.string (List.replicate n 0)) 32) .nil }

/-- The estimate does not depend on the string. -/
theorem deepString_weight (n : Nat) : (deepString n).weight = 6400 := by
  have hcut := (JsonValue.nested_cut (.string (List.replicate n 0)) 31 (by decide)).1
  unfold DataMessage.weight deepString
  rw [JsonMap.weight, JsonMap.weight, hcut]
  rfl

theorem deepString_payload (n : Nat) : (deepString n).jsonPayload.payload = n := by
  unfold deepString
  rw [JsonMap.payload, JsonMap.payload, JsonValue.nested_payload, JsonValue.payload,
    List.length_replicate, List.length_nil, Nat.zero_add, Nat.add_zero]

theorem deepString_cutFits (n : Nat) : (deepString n).jsonPayload.CutFits 0 ↔ n ≤ 4096 := by
  have hcut := (JsonValue.nested_cut (.string (List.replicate n 0)) 31 (by decide)).2
  unfold deepString
  rw [JsonMap.CutFits, JsonMap.CutFits, and_true]
  rw [JsonValue.payload, List.length_replicate] at hcut
  exact hcut

theorem deep_string_covered :
    messageOverheadBytes + (deepString 4096).plainBytes + (deepString 4096).jsonPayload.payload ≤
      estimateMessageSize (deepString 4096) := by
  have hfits : (deepString 4096).jsonPayload.CutFits 0 := by
    rw [deepString_cutFits]
  rcases estimate_covers (deepString 4096) (by rw [deepString_weight]; decide) with
    ⟨hcovers, hall⟩
  rw [hall.2 hfits] at hcovers
  exact hcovers

/-- A longer string than the penalty is undercounted. -/
theorem deep_string_undercounted :
    (deepString 8192).weight < 2 ^ 64 ∧ estimateMessageSize (deepString 8192) <
      messageOverheadBytes + (deepString 8192).plainBytes +
        (deepString 8192).jsonPayload.payload := by
  have hweight := deepString_weight 8192
  have hlt : (deepString 8192).weight < 2 ^ 64 := by
    rw [hweight]
    decide
  refine ⟨hlt, ?_⟩
  rw [estimateMessageSize_eq hlt, hweight, deepString_payload]
  decide

end UspClient
