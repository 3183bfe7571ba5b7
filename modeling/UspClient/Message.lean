import UspClient.Lib.Word

/-!
# Data messages and their estimated size (protocol/messages.go, byte_budget.go)

Strings and byte slices are lists of bytes. A `JsonPayload` is a finite tree of
the types `estimateJSONValue` tells apart; the scalar types share one constructor,
as they share one case there. A Go map is the list of its entries in the order a
`range` visits them: the estimate adds them up, so the order does not matter.
-/

namespace UspClient

open Word64

/-- A Go string or byte slice. -/
abbrev Bytes := List UInt8

mutual
/-- An `interface{}` of a decoded JSON payload. -/
inductive JsonValue where
  | string (s : Bytes)
  | map (m : JsonMap)
  | slice (l : JsonSlice)
  | strings (l : List Bytes)
  | stringMap (m : List (Bytes × Bytes))
  | bytes (s : Bytes)
  | scalar
  | other
/-- A `map[string]interface{}`. -/
inductive JsonMap where
  | nil
  | entry (key : Bytes) (value : JsonValue) (rest : JsonMap)
/-- An `[]interface{}`. -/
inductive JsonSlice where
  | nil
  | item (value : JsonValue) (rest : JsonSlice)
end

structure DataMessage where
  seqNum : Nat := 0
  ackRequested : Bool := false
  textPayload : Bytes := []
  jsonPayload : JsonMap := .nil
  binaryPayload : Bytes := []
  bundlePayload : Bytes := []
  compressedBundlePayload : Bytes := []
  eventType : Bytes := []
  timestampMs : Nat := 0
  thisAtom : Bytes := []
  parentAtom : Bytes := []
  targetAtom : Bytes := []
  investigationID : Bytes := []

/-- Charged for every message on top of its payload. -/
def messageOverheadBytes : Nat := 256

def jsonEntryOverheadBytes : Nat := 64

def jsonScalarBytes : Nat := 16

def maxEstimateDepth : Nat := 32

def jsonDeepPenaltyBytes : Nat := 4096

mutual
def estimateJSONValue : JsonValue → Nat → Nat
  | .string s, _ => s.length
  | .map m, depth => -- `estimateJSONMap` at the same depth
    if depth ≥ maxEstimateDepth then jsonDeepPenaltyBytes else estimateEntries m depth
  | .slice l, depth =>
    if depth ≥ maxEstimateDepth then jsonDeepPenaltyBytes else estimateItems l depth
  | .strings l, _ => sum64 (l.map fun s => add64 jsonEntryOverheadBytes s.length)
  | .stringMap m, _ =>
    sum64 (m.map fun e => add64 (add64 jsonEntryOverheadBytes e.1.length) e.2.length)
  | .bytes s, _ => s.length
  | .scalar, _ => jsonScalarBytes
  | .other, _ => 2 * jsonEntryOverheadBytes
/-- The loop of `estimateJSONMap`. -/
def estimateEntries : JsonMap → Nat → Nat
  | .nil, _ => 0
  | .entry k v rest, depth =>
    add64 (add64 (add64 jsonEntryOverheadBytes k.length) (estimateJSONValue v (depth + 1)))
      (estimateEntries rest depth)
/-- The loop over an `[]interface{}`. -/
def estimateItems : JsonSlice → Nat → Nat
  | .nil, _ => 0
  | .item v rest, depth =>
    add64 (add64 jsonEntryOverheadBytes (estimateJSONValue v (depth + 1)))
      (estimateItems rest depth)
end

def estimateJSONMap (m : JsonMap) (depth : Nat) : Nat :=
  if depth ≥ maxEstimateDepth then jsonDeepPenaltyBytes else estimateEntries m depth

def estimateMessageSize (m : DataMessage) : Nat :=
  let n := add64 messageOverheadBytes
    (m.textPayload.length + m.binaryPayload.length + m.bundlePayload.length +
      m.compressedBundlePayload.length + m.eventType.length + m.thisAtom.length +
      m.parentAtom.length + m.targetAtom.length + m.investigationID.length)
  match m.jsonPayload with
  | .nil => n
  | .entry k v rest => add64 n (estimateJSONMap (.entry k v rest) 0)

/-! ## Shared values

A slice may refer to one value many times. The estimate visits every reference, so the size of
a payload is not bounded by the memory it takes: two levels of references to a string of a
gigabyte reach every word. -/

/-- `n` references to one value. -/
def JsonSlice.refs (v : JsonValue) : Nat → JsonSlice
  | 0 => .nil
  | n + 1 => .item v (refs v n)

/-- A string of `r` bytes, and `2 ^ 17` references to one value. -/
def JsonValue.shared (r : Nat) (v : JsonValue) : JsonValue :=
  .slice (.item (.string (List.replicate r 0)) (.refs v (2 ^ 17)))

theorem estimateItems_refs (v : JsonValue) (n depth : Nat) :
    estimateItems (.refs v n) depth =
      n * (jsonEntryOverheadBytes + estimateJSONValue v (depth + 1)) % 2 ^ 64 := by
  induction n with
  | zero =>
    unfold JsonSlice.refs estimateItems
    rw [Nat.zero_mul, Nat.zero_mod]
  | succ n ih =>
    unfold JsonSlice.refs estimateItems add64
    rw [ih, ← Nat.add_mod, Nat.succ_mul, Nat.add_comm]

theorem estimateJSONValue_shared (r : Nat) (v : JsonValue) {depth : Nat}
    (h : depth < maxEstimateDepth) :
    estimateJSONValue (.shared r v) depth =
      (jsonEntryOverheadBytes + r +
        2 ^ 17 * (jsonEntryOverheadBytes + estimateJSONValue v (depth + 1))) % 2 ^ 64 := by
  rw [JsonValue.shared, estimateJSONValue, if_neg (Nat.not_le.2 h), estimateItems,
    estimateItems_refs, estimateJSONValue, List.length_replicate]
  exact (Nat.add_mod _ _ _).symm

/-- A message whose estimate is `n`: the two remainders and the length of the string are the
digits of `n` in base `2 ^ 17`, after the overheads. -/
def sharedPayload (n : Nat) : DataMessage :=
  let rest := n - messageOverheadBytes - jsonEntryOverheadBytes
  let outer := rest - jsonEntryOverheadBytes - 2 ^ 17 * jsonEntryOverheadBytes
  let inner := outer / 2 ^ 17 - jsonEntryOverheadBytes - 2 ^ 17 * jsonEntryOverheadBytes
  { jsonPayload := .entry []
      (.shared (outer % 2 ^ 17)
        (.shared (inner % 2 ^ 17) (.string (List.replicate (inner / 2 ^ 17) 0)))) .nil }

theorem sharedPayload_size {n : Nat} (hlo : 2 ^ 41 ≤ n) (hhi : n < 2 ^ 64) :
    estimateMessageSize (sharedPayload n) = n := by
  unfold estimateMessageSize sharedPayload
  simp only [estimateJSONMap, estimateEntries, List.length_nil]
  rw [if_neg (by decide), estimateJSONValue_shared _ _ (by decide),
    estimateJSONValue_shared _ _ (by decide), estimateJSONValue, List.length_replicate]
  unfold add64 messageOverheadBytes jsonEntryOverheadBytes
  omega

end UspClient
