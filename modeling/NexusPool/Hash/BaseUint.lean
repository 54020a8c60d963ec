import NexusPool.Codec.Words

/-!
# Wide unsigned integers of `uint1024.h`

`base_uint<BITS>` holds `BITS/32` words, least significant first. Only the operations
the pool uses are here: the byte codec, the conversion from 64 bits, addition and the
order that keys a `std::map`.
-/

namespace NexusPool

/-- `base_uint<32 * w>`: the words `pn`, least significant first. -/
structure BaseUint (w : ℕ) where
  pn : List UInt32
  width : pn.length = w
  deriving DecidableEq

abbrev Uint512 := BaseUint 16
abbrev Uint1024 := BaseUint 32

namespace BaseUint

variable {w : ℕ}

@[ext] theorem ext {a b : BaseUint w} (h : a.pn = b.pn) : a = b := by
  cases a
  cases b
  cases h
  rfl

instance : Zero (BaseUint w) := ⟨⟨List.replicate w 0, List.length_replicate⟩⟩

/-- Words are compared from the most significant one, and the first difference decides. -/
instance : Ord (BaseUint w) := ⟨fun a b => compare a.pn.reverse b.pn.reverse⟩

instance : Std.TransOrd (BaseUint w) where
  eq_swap {a b} := Std.OrientedOrd.eq_swap (a := a.pn.reverse) (b := b.pn.reverse)
  isLE_trans {a b c} := Std.TransOrd.isLE_trans (a := a.pn.reverse) (b := b.pn.reverse)
    (c := c.pn.reverse)

/-- The keys of blocks, for which definitions look this instance up. -/
instance : Std.TransOrd Uint1024 := inferInstanceAs (Std.TransOrd (BaseUint 32))

instance : Std.LawfulEqOrd (BaseUint w) where
  eq_of_compare h := by
    ext1
    exact List.reverse_injective (Std.LawfulEqOrd.eq_of_compare h)

/-! ### Bytes -/

/-- Each word most significant byte first. -/
def getBytes (a : BaseUint w) : Bytes := a.pn.flatMap uint2bytes

@[simp] theorem length_getBytes (a : BaseUint w) : a.getBytes.length = 4 * w := by
  simp [getBytes, List.length_flatMap, a.width]
  ring

/-- The first `n` words of a buffer, or `none` where the loop reads past its end. -/
def readWords : ℕ → Bytes → Option (List UInt32)
  | 0, _ => some []
  | n + 1, b₀ :: b₁ :: b₂ :: b₃ :: rest =>
    (readWords n rest).map (bytes2uint [b₀, b₁, b₂, b₃] 0 :: ·)
  | _ + 1, _ => none

theorem length_of_readWords : ∀ {n : ℕ} {bytes : Bytes} {words : List UInt32},
    readWords n bytes = some words → words.length = n
  | 0, _, _, h => by
    cases h
    rfl
  | n + 1, b₀ :: b₁ :: b₂ :: b₃ :: rest, words, h => by
    simp only [readWords, Option.map_eq_some_iff] at h
    obtain ⟨tail, htail, rfl⟩ := h
    simp [length_of_readWords htail]

/-- `SetBytes`, undefined on a buffer shorter than the integer. -/
def setBytes (w : ℕ) (data : Bytes) : Option (BaseUint w) :=
  match h : readWords w data with
  | some words => some ⟨words, length_of_readWords h⟩
  | none => none

theorem setBytes_eq_some_iff {data : Bytes} {a : BaseUint w} :
    setBytes w data = some a ↔ readWords w data = some a.pn := by
  unfold setBytes
  split <;> simp_all [BaseUint.ext_iff]

theorem readWords_flatMap (words : List UInt32) (rest : Bytes) :
    readWords words.length (words.flatMap uint2bytes ++ rest) = some words := by
  induction words with
  | nil => rfl
  | cons x xs ih =>
    have hx := bytes2uint_uint2bytes x []
    simp only [uint2bytes, List.append_nil] at hx
    simp only [List.flatMap_cons, List.append_assoc]
    simp only [uint2bytes, List.cons_append, List.nil_append, List.length_cons, readWords, hx, ih,
      Option.map_some]

@[simp] theorem setBytes_getBytes_append (a : BaseUint w) (rest : Bytes) :
    setBytes w (a.getBytes ++ rest) = some a := by
  rw [setBytes_eq_some_iff]
  have h := readWords_flatMap a.pn rest
  rwa [a.width] at h

@[simp] theorem setBytes_getBytes (a : BaseUint w) : setBytes w a.getBytes = some a := by
  simpa using a.setBytes_getBytes_append []

/-- The words come from the first bytes, and are written back as those bytes. -/
theorem flatMap_of_readWords : ∀ {n : ℕ} {bytes : Bytes} {words : List UInt32},
    readWords n bytes = some words → words.flatMap uint2bytes = bytes.take (4 * n)
  | 0, _, _, h => by
    cases h
    simp
  | n + 1, b₀ :: b₁ :: b₂ :: b₃ :: rest, words, h => by
    simp only [readWords, Option.map_eq_some_iff] at h
    obtain ⟨tail, htail, rfl⟩ := h
    have hn : 4 * (n + 1) = 4 * n + 4 := by ring
    simp [flatMap_of_readWords htail, uint2bytes_bytes2uint, hn]

theorem getBytes_of_setBytes {data : Bytes} {a : BaseUint w} (h : setBytes w data = some a) :
    a.getBytes = data.take (4 * w) :=
  flatMap_of_readWords (setBytes_eq_some_iff.mp h)

/-! ### The value of the words -/

/-- The natural number the words stand for in base `2 ^ 32`. -/
def toNat (a : BaseUint w) : ℕ := Nat.ofDigits (2 ^ 32) (a.pn.map UInt32.toNat)

theorem toNat_lt (a : BaseUint w) : a.toNat < 2 ^ (32 * w) := by
  have h := Nat.ofDigits_lt_base_pow_length (b := 2 ^ 32) (l := a.pn.map UInt32.toNat)
    (by norm_num) (by
      intro x hx
      obtain ⟨u, _, rfl⟩ := List.mem_map.mp hx
      exact u.toNat_lt)
  rwa [List.length_map, a.width, ← pow_mul] at h

/-- Assignment from a 64-bit value, for integers of at least two words. -/
def ofUInt64 (w : ℕ) (b : UInt64) : BaseUint (w + 2) where
  pn := b.toUInt32 :: (b >>> 32).toUInt32 :: List.replicate w 0
  width := by simp

def addWords : UInt64 → List UInt32 → List UInt32 → List UInt32
  | carry, x :: xs, y :: ys =>
    let n := carry + x.toUInt64 + y.toUInt64
    n.toUInt32 :: addWords (n >>> 32) xs ys
  | _, _, _ => []

theorem length_addWords : ∀ (carry : UInt64) (xs ys : List UInt32),
    (addWords carry xs ys).length = min xs.length ys.length
  | _, [], _ => by simp [addWords]
  | _, _ :: _, [] => by simp [addWords]
  | carry, x :: xs, y :: ys => by simp [addWords, length_addWords, Nat.add_min_add_right]

instance : Add (BaseUint w) where
  add a b := ⟨addWords 0 a.pn b.pn, by simp [length_addWords, a.width, b.width]⟩

theorem add_pn (a b : BaseUint w) : (a + b).pn = addWords 0 a.pn b.pn := rfl

/-- One turn of the carry loop splits the sum into a word and a carry of at most one. -/
theorem addWords_value : ∀ (carry : UInt64) (xs ys : List UInt32),
    carry.toNat ≤ 1 → xs.length = ys.length →
      Nat.ofDigits (2 ^ 32) ((addWords carry xs ys).map UInt32.toNat) =
        (carry.toNat + Nat.ofDigits (2 ^ 32) (xs.map UInt32.toNat) +
          Nat.ofDigits (2 ^ 32) (ys.map UInt32.toNat)) % (2 ^ 32) ^ xs.length
  | carry, [], [], _, _ => by simp [addWords, Nat.mod_one]
  | carry, x :: xs, y :: ys, hcarry, hlen => by
    have hx := x.toNat_lt
    have hy := y.toNat_lt
    have hn : (carry + x.toUInt64 + y.toUInt64).toNat = carry.toNat + x.toNat + y.toNat := by
      simp [UInt64.toNat_add]
      omega
    have hnext : ((carry + x.toUInt64 + y.toUInt64) >>> 32).toNat =
        (carry.toNat + x.toNat + y.toNat) / 2 ^ 32 := by
      simp [UInt64.toNat_shiftRight, hn, Nat.shiftRight_eq_div_pow]
    have ih := addWords_value ((carry + x.toUInt64 + y.toUInt64) >>> 32) xs ys (by omega)
      (by simpa using hlen)
    have hdiv : (carry.toNat + x.toNat + y.toNat + 2 ^ 32 *
        (Nat.ofDigits (2 ^ 32) (xs.map UInt32.toNat) +
          Nat.ofDigits (2 ^ 32) (ys.map UInt32.toNat))) / 2 ^ 32 =
        (carry.toNat + x.toNat + y.toNat) / 2 ^ 32 + Nat.ofDigits (2 ^ 32) (xs.map UInt32.toNat) +
          Nat.ofDigits (2 ^ 32) (ys.map UInt32.toNat) := by
      rw [Nat.add_mul_div_left _ _ (by norm_num), ← add_assoc]
    calc
      _ = (carry.toNat + x.toNat + y.toNat) % 2 ^ 32 + 2 ^ 32 *
          (((carry.toNat + x.toNat + y.toNat) / 2 ^ 32 +
            Nat.ofDigits (2 ^ 32) (xs.map UInt32.toNat) +
            Nat.ofDigits (2 ^ 32) (ys.map UInt32.toNat)) % (2 ^ 32) ^ xs.length) := by
        rw [addWords, List.map_cons, Nat.ofDigits_cons, ih, hnext, UInt64.toNat_toUInt32, hn]
      _ = (carry.toNat + x.toNat + y.toNat + 2 ^ 32 *
          (Nat.ofDigits (2 ^ 32) (xs.map UInt32.toNat) +
            Nat.ofDigits (2 ^ 32) (ys.map UInt32.toNat))) % (2 ^ 32 * (2 ^ 32) ^ xs.length) := by
        rw [Nat.mod_mul, Nat.add_mul_mod_self_left, hdiv]
      _ = _ := by
        rw [List.map_cons, List.map_cons, Nat.ofDigits_cons, Nat.ofDigits_cons, List.length_cons,
          ← pow_succ']
        congr 1
        ring

theorem toNat_add (a b : BaseUint w) : (a + b).toNat = (a.toNat + b.toNat) % 2 ^ (32 * w) := by
  have h := addWords_value 0 a.pn b.pn (by simp)
    (a.width.trans b.width.symm)
  rw [a.width, ← pow_mul] at h
  simpa [toNat, add_pn] using h

theorem toNat_ofUInt64 (w : ℕ) (b : UInt64) : (ofUInt64 w b).toNat = b.toNat := by
  have hb := b.toNat_lt
  simp [toNat, ofUInt64, Nat.ofDigits_cons, UInt64.toNat_shiftRight,
    Nat.shiftRight_eq_div_pow]
  omega

end BaseUint

end NexusPool
