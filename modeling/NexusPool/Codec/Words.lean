import Mathlib.Algebra.Order.Floor.Semifield
import Mathlib.Data.Rat.Floor
import Mathlib.Tactic

/-!
# The hand-written integer codecs of `utils.hpp`

A 32-bit word is written as four bytes, most significant first. A 64-bit word is
written as its low half followed by its high half. `bytes2uint64` shifts the high
half left by 32 while it is still a 32-bit word, which C++ leaves undefined; what
the shift yields is a parameter of the whole development.
-/

namespace NexusPool

/-- A `std::vector<uint8_t>`, and equally a `std::string` with its bytes as characters. -/
abbrev Bytes := List UInt8

/-- The result of `x << 32` on a 32-bit word. A shift instruction either masks the
count, and returns the word, or shifts every bit out; both send zero to zero. -/
class Target where
  shl32 : UInt32 → UInt32
  shl32_zero : shl32 0 = 0

/-- The count is taken modulo 32, so the word comes back unchanged. -/
@[reducible] def Target.masking : Target where
  shl32 x := x
  shl32_zero := rfl

/-- Every bit is shifted out. -/
@[reducible] def Target.clearing : Target where
  shl32 _ := 0
  shl32_zero := rfl

/-! ### 32-bit words -/

def uint2bytes (n : UInt32) : Bytes :=
  [(n >>> 24).toUInt8, (n >>> 16).toUInt8, (n >>> 8).toUInt8, n.toUInt8]

/-- Reads four bytes at `nOffset`; a buffer that is too short reads as zero. -/
def bytes2uint (bytes : Bytes) (nOffset : ℕ) : UInt32 :=
  match bytes.drop nOffset with
  | b₀ :: b₁ :: b₂ :: b₃ :: _ =>
    (b₀.toUInt32 <<< 24) + (b₁.toUInt32 <<< 16) + (b₂.toUInt32 <<< 8) + b₃.toUInt32
  | _ => 0

@[simp] theorem length_uint2bytes (n : UInt32) : (uint2bytes n).length = 4 := rfl

theorem bytes2uint_cons (b₀ b₁ b₂ b₃ : UInt8) (rest : Bytes) :
    (bytes2uint (b₀ :: b₁ :: b₂ :: b₃ :: rest) 0).toNat =
      b₀.toNat * 2 ^ 24 + b₁.toNat * 2 ^ 16 + b₂.toNat * 2 ^ 8 + b₃.toNat := by
  have h₀ := b₀.toNat_lt
  have h₁ := b₁.toNat_lt
  have h₂ := b₂.toNat_lt
  have h₃ := b₃.toNat_lt
  simp [bytes2uint, UInt32.toNat_add, UInt32.toNat_shiftLeft, Nat.shiftLeft_eq]
  omega

theorem bytes2uint_uint2bytes (n : UInt32) (rest : Bytes) :
    bytes2uint (uint2bytes n ++ rest) 0 = n := by
  apply UInt32.toNat_inj.mp
  have h := n.toNat_lt
  simp only [uint2bytes, List.cons_append, List.nil_append, bytes2uint_cons]
  simp [UInt32.toNat_shiftRight, Nat.shiftRight_eq_div_pow]
  omega

theorem bytes2uint_append {front : Bytes} {nOffset : ℕ} (hfront : front.length = nOffset)
    (bytes : Bytes) : bytes2uint (front ++ bytes) nOffset = bytes2uint bytes 0 := by
  simp [bytes2uint, ← hfront]

/-! ### 64-bit words -/

def uint2bytes64 (n : UInt64) : Bytes :=
  uint2bytes n.toUInt32 ++ uint2bytes (n >>> 32).toUInt32

@[simp] theorem length_uint2bytes64 (n : UInt64) : (uint2bytes64 n).length = 8 := rfl

/-- The value eight bytes stand for: low word first, each word big-endian. -/
def wordValue (bytes : Bytes) : ℕ :=
  (bytes2uint bytes 0).toNat + 2 ^ 32 * (bytes2uint bytes 4).toNat

theorem wordValue_uint2bytes64 (n : UInt64) : wordValue (uint2bytes64 n) = n.toNat := by
  have hlow : bytes2uint (uint2bytes64 n) 0 = n.toUInt32 :=
    bytes2uint_uint2bytes n.toUInt32 _
  have hhigh : bytes2uint (uint2bytes64 n) 4 = (n >>> 32).toUInt32 := by
    rw [uint2bytes64, bytes2uint_append (length_uint2bytes _)]
    simpa using bytes2uint_uint2bytes (n >>> 32).toUInt32 []
  have hn := n.toNat_lt
  simp only [wordValue, hlow, hhigh, UInt64.toNat_toUInt32, UInt64.toNat_shiftRight]
  simp only [Nat.shiftRight_eq_div_pow, UInt64.reduceToNat, Nat.reduceMod]
  omega

theorem high_eq_zero_of_wordValue_lt {bytes : Bytes} (h : wordValue bytes < 2 ^ 32) :
    bytes2uint bytes 4 = 0 := by
  apply UInt32.toNat_inj.mp
  simp only [wordValue] at h
  simp only [UInt32.toNat_zero]
  omega

theorem uint2bytes_bytes2uint (b₀ b₁ b₂ b₃ : UInt8) (rest : Bytes) :
    uint2bytes (bytes2uint (b₀ :: b₁ :: b₂ :: b₃ :: rest) 0) = [b₀, b₁, b₂, b₃] := by
  have h₀ := b₀.toNat_lt
  have h₁ := b₁.toNat_lt
  have h₂ := b₂.toNat_lt
  have h₃ := b₃.toNat_lt
  simp only [uint2bytes, List.cons.injEq, ← UInt8.toNat_inj, and_true]
  simp only [UInt32.toNat_toUInt8, UInt32.toNat_shiftRight, UInt32.reduceToNat, Nat.reduceMod,
    Nat.shiftRight_eq_div_pow, bytes2uint_cons]
  omega

section Decoding

variable [Target]

def bytes2uint64 (bytes : Bytes) (nOffset : ℕ) : UInt64 :=
  (bytes2uint bytes nOffset).toUInt64 |||
    (Target.shl32 (bytes2uint bytes (nOffset + 4))).toUInt64

theorem bytes2uint64_append {front : Bytes} {nOffset : ℕ} (hfront : front.length = nOffset)
    (bytes : Bytes) : bytes2uint64 (front ++ bytes) nOffset = bytes2uint64 bytes 0 := by
  simp [bytes2uint64, bytes2uint, ← hfront]

/-- Both halves are 32-bit words when they are joined, so the result is one too. -/
theorem bytes2uint64_lt (bytes : Bytes) (nOffset : ℕ) :
    (bytes2uint64 bytes nOffset).toNat < 2 ^ 32 := by
  simp only [bytes2uint64, UInt64.toNat_or, UInt32.toNat_toUInt64]
  exact Nat.or_lt_two_pow (UInt32.toNat_lt _) (UInt32.toNat_lt _)

/-- The decoder returns the value of its bytes exactly when the high word is zero. -/
theorem bytes2uint64_eq_wordValue_iff (bytes : Bytes) :
    (bytes2uint64 bytes 0).toNat = wordValue bytes ↔ wordValue bytes < 2 ^ 32 := by
  constructor
  · intro h
    exact h ▸ bytes2uint64_lt bytes 0
  · intro h
    have hhigh := high_eq_zero_of_wordValue_lt h
    simp [bytes2uint64, wordValue, hhigh, Target.shl32_zero]

/-- An amount the codec gives back as it was. -/
def Preserved (n : UInt64) : Prop := bytes2uint64 (uint2bytes64 n) 0 = n

/-- The round trip loses every amount that needs more than 32 bits, and no other. -/
theorem preserved_iff (n : UInt64) : Preserved n ↔ n.toNat < 2 ^ 32 := by
  rw [Preserved, ← UInt64.toNat_inj, ← wordValue_uint2bytes64 n, bytes2uint64_eq_wordValue_iff,
    wordValue_uint2bytes64]

theorem Preserved.bytes2uint64_append {n : UInt64} (h : Preserved n) (rest : Bytes) :
    bytes2uint64 (uint2bytes64 n ++ rest) 0 = n := h

/-- The opposite round trip, on eight bytes, fails for the same values. -/
theorem uint2bytes64_bytes2uint64_iff {bytes : Bytes} (hlen : bytes.length = 8) :
    uint2bytes64 (bytes2uint64 bytes 0) = bytes ↔ wordValue bytes < 2 ^ 32 := by
  constructor
  · intro h
    rw [← h, wordValue_uint2bytes64]
    exact bytes2uint64_lt bytes 0
  · intro h
    have hhigh := high_eq_zero_of_wordValue_lt h
    match bytes, hlen with
    | [b₀, b₁, b₂, b₃, b₄, b₅, b₆, b₇], _ =>
      have hlow : bytes2uint64 [b₀, b₁, b₂, b₃, b₄, b₅, b₆, b₇] 0 =
          (bytes2uint [b₀, b₁, b₂, b₃, b₄, b₅, b₆, b₇] 0).toUInt64 := by
        simp [bytes2uint64, hhigh, Target.shl32_zero]
      have hzero : uint2bytes 0 = [b₄, b₅, b₆, b₇] := by
        rw [← uint2bytes_bytes2uint b₄ b₅ b₆ b₇ []]
        exact congrArg uint2bytes hhigh.symm
      have htop :
          ((bytes2uint [b₀, b₁, b₂, b₃, b₄, b₅, b₆, b₇] 0).toUInt64 >>> 32).toUInt32 = 0 := by
        apply UInt32.toNat_inj.mp
        have := UInt32.toNat_lt (bytes2uint [b₀, b₁, b₂, b₃, b₄, b₅, b₆, b₇] 0)
        simp [Nat.shiftRight_eq_div_pow]
        omega
      rw [hlow, uint2bytes64, htop, hzero]
      simp [uint2bytes_bytes2uint]

end Decoding

/-! ### Numbers from floating point -/

/-- A `double` expression, read as an exact rational, at the cast to an integer. -/
def truncate (x : ℚ) : ℕ := ⌊x⌋₊

theorem truncate_div_mul (a b c : ℕ) : truncate ((a : ℚ) / b * c) = a * c / b := by
  rw [truncate, div_mul_eq_mul_div]
  exact_mod_cast Nat.floor_div_eq_div (K := ℚ) (a * c) b

end NexusPool
