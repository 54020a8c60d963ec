import NexusPool.Codec.Words
import NexusPool.Library.OrderedMap
import Mathlib.Data.UInt

/-!
# The payout coinbase and the credits of a block

`Coinbase` holds the outputs the pool asks the wallet to pay, `Credits` the amounts a
block added to the accounts. Both are maps from address to amount, and both are written
as one count byte followed by length-prefixed entries.
-/

namespace NexusPool

open Std (ExtTreeMap)

/-! ### Entry lists -/

/-- One byte of address length, the address, and the amount. -/
def serializeEntry (entry : Bytes × UInt64) : Bytes :=
  entry.1.length.toUInt8 :: entry.1 ++ uint2bytes64 entry.2

/-- The loop shared by both `Deserialize` functions; `none` where it reads past the end. -/
def readEntries [Target] : ℕ → Bytes → Option (List (Bytes × UInt64))
  | 0, _ => some []
  | _ + 1, [] => none
  | nSize + 1, nLength :: rest =>
    if rest.length < nLength.toNat + 8 then none
    else
      let entry := (rest.take nLength.toNat, bytes2uint64 ((rest.drop nLength.toNat).take 8) 0)
      (readEntries nSize (rest.drop (nLength.toNat + 8))).map (entry :: ·)

/-- An entry that fits its length byte and whose amount the codec keeps. -/
def Encodable [Target] (entry : Bytes × UInt64) : Prop :=
  entry.1.length ≤ 255 ∧ Preserved entry.2

section Entries

variable [Target]

theorem length_of_readEntries : ∀ {nSize : ℕ} {vData : Bytes} {entries : List (Bytes × UInt64)},
    readEntries nSize vData = some entries → entries.length = nSize
  | 0, _, _, h => by
    cases h
    rfl
  | nSize + 1, nLength :: rest, entries, h => by
    simp only [readEntries] at h
    split_ifs at h
    obtain ⟨tail, htail, rfl⟩ := Option.map_eq_some_iff.mp h
    simp [length_of_readEntries htail]

/-- The count byte bounds what can be read back. -/
theorem size_assignAll_lt {nSize : UInt8} {vData : Bytes} {entries : List (Bytes × UInt64)}
    (h : readEntries nSize.toNat vData = some entries) :
    (OrderedMap.assignAll entries).size < 256 :=
  calc
    _ ≤ entries.length := OrderedMap.size_assignAll_le entries
    _ = nSize.toNat := length_of_readEntries h
    _ < 256 := nSize.toNat_lt

theorem readEntries_serializeEntry (entry : Bytes × UInt64) (h : Encodable entry) (nSize : ℕ)
    (rest : Bytes) : readEntries (nSize + 1) (serializeEntry entry ++ rest) =
      (readEntries nSize rest).map (entry :: ·) := by
  obtain ⟨address, value⟩ := entry
  have hlen : address.length.toUInt8.toNat = address.length := by
    simpa using Nat.mod_eq_of_lt (by have := h.1; simp only at this; omega : address.length < 256)
  have hamount : (uint2bytes64 value ++ rest).take 8 = uint2bytes64 value := List.take_left' rfl
  have hrest : (address ++ (uint2bytes64 value ++ rest)).drop (address.length + 8) = rest := by
    rw [← List.append_assoc]
    exact List.drop_left' (by simp)
  have hvalue : bytes2uint64 (uint2bytes64 value) 0 = value := h.2
  simp only [serializeEntry, List.cons_append, List.append_assoc, readEntries, hlen, hrest,
    List.drop_left, List.take_left, hamount, hvalue]
  simp

theorem length_flatMap_serializeEntry_le (entries : List (Bytes × UInt64))
    (h : ∀ entry ∈ entries, Encodable entry) :
    (entries.flatMap serializeEntry).length ≤ 264 * entries.length := by
  induction entries with
  | nil => simp
  | cons entry entries ih =>
    have hentry := (h entry List.mem_cons_self).1
    have htail := ih fun e he => h e (List.mem_cons_of_mem _ he)
    simp only [List.flatMap_cons, List.length_append, List.length_cons, serializeEntry,
      length_uint2bytes64]
    omega

theorem readEntries_flatMap (entries : List (Bytes × UInt64)) (rest : Bytes)
    (h : ∀ entry ∈ entries, Encodable entry) :
    readEntries entries.length (entries.flatMap serializeEntry ++ rest) = some entries := by
  induction entries with
  | nil => rfl
  | cons entry entries ih =>
    rw [List.flatMap_cons, List.append_assoc, List.length_cons,
      readEntries_serializeEntry entry (h entry List.mem_cons_self),
      ih fun e he => h e (List.mem_cons_of_mem _ he)]
    rfl

end Entries

/-! ### The coinbase -/

structure Coinbase where
  mapOutputs : ExtTreeMap Bytes UInt64
  nCurrentValue : UInt64
  nMaxValue : UInt64
  nPoolFee : UInt64

namespace Coinbase

/-- The default constructor. -/
def empty : Coinbase := ⟨∅, 0, 0, 0⟩

def addOutput (c : Coinbase) (nAddress : Bytes) (nValue : UInt64) : Coinbase :=
  { c with
    mapOutputs := c.mapOutputs.insert nAddress (c.mapOutputs.getD nAddress 0 + nValue)
    nCurrentValue := c.nCurrentValue + nValue }

/-- Refuses an output above the maximum; both comparisons are in 64-bit arithmetic. -/
def addTransaction (c : Coinbase) (nAddress : Bytes) (nValue : UInt64) : UInt64 × Coinbase :=
  if nValue + c.nCurrentValue > c.nMaxValue then
    (c.nMaxValue - (nValue + c.nCurrentValue), c)
  else
    let c := c.addOutput nAddress nValue
    (c.nMaxValue - c.nCurrentValue, c)

def getRemainder (c : Coinbase) : UInt64 := c.nMaxValue - c.nCurrentValue

def isComplete (c : Coinbase) : Bool := c.nCurrentValue == c.nMaxValue

def findAddress (c : Coinbase) (nxsAddress : Bytes) : Bool := c.mapOutputs.contains nxsAddress

/-- Goes through `operator[]`, which inserts a zero output for a new address. -/
def getMapOutputs (c : Coinbase) (nxsAddress : Bytes) : UInt64 × Coinbase :=
  match c.mapOutputs[nxsAddress]? with
  | some nValue => (nValue, c)
  | none => (0, { c with mapOutputs := c.mapOutputs.insert nxsAddress 0 })

/-- `Reset` keeps the pool fee. -/
def reset (c : Coinbase) (nMax : UInt64) : Coinbase :=
  { c with mapOutputs := ∅, nCurrentValue := 0, nMaxValue := nMax }

/-- The number of outputs in one byte, the pool fee, and the outputs in address order. -/
def serialize (c : Coinbase) : Bytes :=
  c.mapOutputs.size.toUInt8 :: uint2bytes64 c.nPoolFee ++ c.mapOutputs.toList.flatMap serializeEntry

/-- Decoding into a fresh object. The running total starts from the pool fee. -/
def deserialize [Target] (vData : Bytes) (nValue : UInt64) : Option Coinbase := do
  let nSize ← vData.head?
  let entries ← readEntries nSize.toNat (vData.drop 9)
  let nPoolFee := bytes2uint64 vData 1
  some
    { mapOutputs := OrderedMap.assignAll entries
      nCurrentValue := entries.foldl (fun total entry => total + entry.2) nPoolFee
      nMaxValue := nValue
      nPoolFee := nPoolFee }

section Codec

variable [Target] {c : Coinbase} (nValue : UInt64)

theorem size_lt_of_deserialize {vData : Bytes} (h : deserialize vData nValue = some c) :
    c.mapOutputs.size < 256 := by
  simp only [deserialize, Option.bind_eq_bind, Option.bind_eq_some_iff, Option.some.injEq] at h
  obtain ⟨nSize, _, entries, hentries, rfl⟩ := h
  exact size_assignAll_lt hentries

theorem deserialize_serialize (hsize : c.mapOutputs.size < 256) (hfee : Preserved c.nPoolFee)
    (hentries : ∀ entry ∈ c.mapOutputs.toList, Encodable entry) :
    deserialize c.serialize nValue = some
      { c with
        nCurrentValue := c.nPoolFee + OrderedMap.sumValues c.mapOutputs, nMaxValue := nValue } := by
  have hcount : c.mapOutputs.size.toUInt8.toNat = c.mapOutputs.toList.length := by
    simpa using Nat.mod_eq_of_lt hsize
  have hhead : c.serialize.head? = some c.mapOutputs.size.toUInt8 := rfl
  have hbody : c.serialize.drop 9 = c.mapOutputs.toList.flatMap serializeEntry := rfl
  have hread := readEntries_flatMap c.mapOutputs.toList [] hentries
  have hnPoolFee : bytes2uint64 c.serialize 1 = c.nPoolFee := hfee
  rw [List.append_nil] at hread
  rw [deserialize, hnPoolFee, hbody, hhead]
  simp only [Option.bind_eq_bind, Option.bind_some, hcount, hread, OrderedMap.assignAll_toList,
    OrderedMap.foldl_add]

end Codec

/-- The coinbases the pool can hold: built from the empty one by its own operations. -/
inductive Built : Coinbase → Prop
  | empty : Built empty
  | poolFee {c : Coinbase} (fee : UInt64) : Built c → Built { c with nPoolFee := fee }
  | reset {c : Coinbase} (nMax : UInt64) : Built c → Built (c.reset nMax)
  | addTransaction {c : Coinbase} (nAddress : Bytes) (nValue : UInt64) :
    Built c → Built (c.addTransaction nAddress nValue).2
  | getMapOutputs {c : Coinbase} (nxsAddress : Bytes) : Built c →
      Built (c.getMapOutputs nxsAddress).2

/-- The sum of all outputs, in 64-bit arithmetic. -/
def total (c : Coinbase) : UInt64 := OrderedMap.sumValues c.mapOutputs

theorem total_addOutput (c : Coinbase) (nAddress : Bytes) (nValue : UInt64) :
    (c.addOutput nAddress nValue).total = c.total + nValue :=
  OrderedMap.sumValues_insert_add c.mapOutputs nAddress nValue

theorem total_getMapOutputs (c : Coinbase) (nxsAddress : Bytes) :
    (c.getMapOutputs nxsAddress).2.total = c.total := by
  cases h : c.mapOutputs[nxsAddress]? with
  | some nValue => simp [getMapOutputs, h]
  | none =>
    have hinsert := OrderedMap.sumValues_insert_add c.mapOutputs nxsAddress 0
    simpa [getMapOutputs, total, h, Std.ExtTreeMap.getD_eq_getD_getElem?] using hinsert

theorem getMapOutputs_of_findAddress {c : Coinbase} {nxsAddress : Bytes}
    (h : c.findAddress nxsAddress) : (c.getMapOutputs nxsAddress).2 = c := by
  rw [findAddress, ExtTreeMap.contains_eq_isSome_getElem?] at h
  obtain ⟨nValue, hvalue⟩ := Option.isSome_iff_exists.mp h
  simp [getMapOutputs, hvalue]

theorem findAddress_getMapOutputs (c : Coinbase) (nxsAddress : Bytes) {k : Bytes}
    (h : c.findAddress k) : (c.getMapOutputs nxsAddress).2.findAddress k := by
  rw [getMapOutputs]
  split
  · exact h
  · rw [findAddress] at h ⊢
    simp [h]

/-- The running total is the sum of the outputs whatever the 64-bit sums do. -/
theorem Built.nCurrentValue_eq_total {c : Coinbase} (h : Built c) : c.nCurrentValue = c.total := by
  induction h with
  | empty => rfl
  | poolFee fee _ ih => exact ih
  | reset nMax _ _ => rfl
  | @addTransaction c nAddress nValue _ ih =>
    unfold Coinbase.addTransaction
    split_ifs
    · exact ih
    · rw [total_addOutput, ← ih]
      rfl
  | @getMapOutputs c nxsAddress _ ih =>
    rw [total_getMapOutputs, ← ih, Coinbase.getMapOutputs]
    split <;> rfl

end Coinbase

/-! ### The credits of a block -/

structure Credits where
  mapCredits : ExtTreeMap Bytes UInt64

namespace Credits

def empty : Credits := ⟨∅⟩

def addCredit (c : Credits) (nAddress : Bytes) (nValue : UInt64) : Credits :=
  ⟨c.mapCredits.insert nAddress (c.mapCredits.getD nAddress 0 + nValue)⟩

def serialize (c : Credits) : Bytes :=
  c.mapCredits.size.toUInt8 :: c.mapCredits.toList.flatMap serializeEntry

def deserialize [Target] (vData : Bytes) : Option Credits := do
  let nSize ← vData.head?
  let entries ← readEntries nSize.toNat (vData.drop 1)
  some ⟨OrderedMap.assignAll entries⟩

section Codec

variable [Target] {c : Credits}

theorem size_lt_of_deserialize {vData : Bytes} (h : deserialize vData = some c) :
    c.mapCredits.size < 256 := by
  simp only [deserialize, Option.bind_eq_bind, Option.bind_eq_some_iff, Option.some.injEq] at h
  obtain ⟨nSize, _, entries, hentries, rfl⟩ := h
  exact size_assignAll_lt hentries

theorem deserialize_serialize (hsize : c.mapCredits.size < 256)
    (hentries : ∀ entry ∈ c.mapCredits.toList, Encodable entry) :
    deserialize c.serialize = some c := by
  have hcount : c.mapCredits.size.toUInt8.toNat = c.mapCredits.toList.length := by
    simpa using Nat.mod_eq_of_lt hsize
  have hbody : c.serialize.drop 1 = c.mapCredits.toList.flatMap serializeEntry := rfl
  have hread := readEntries_flatMap c.mapCredits.toList [] hentries
  rw [List.append_nil] at hread
  rw [deserialize, hbody]
  simp only [serialize, List.head?_cons, Option.bind_eq_bind, Option.bind_some, hcount, hread,
    OrderedMap.assignAll_toList]

end Codec

end Credits

end NexusPool
