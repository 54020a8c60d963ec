import Mathlib.Tactic

/-!
# Bit strings in bytes

A byte holds eight bits, least significant first. Fewer than eight bits are kept in a byte with
a one behind them, so that the byte says how many they are. A string of bits is padded to blocks
with a one, zeros and a one, and the padding can be taken off again.
-/

namespace BitPadding

/-! ### Bits of numbers -/

/-- The `k` lowest bits. -/
def bitsOf (k n : ℕ) : List Bool := (List.range k).map n.testBit

/-- The bits below the highest one that is set. -/
def bitsBelow (n : ℕ) : List Bool := bitsOf n.log2 n

@[simp] theorem length_bitsOf (k n : ℕ) : (bitsOf k n).length = k := by simp [bitsOf]

@[simp] theorem length_bitsBelow (n : ℕ) : (bitsBelow n).length = n.log2 := by simp [bitsBelow]

theorem getElem?_bitsOf {k i n : ℕ} (hi : i < k) : (bitsOf k n)[i]? = some (n.testBit i) := by
  simp [bitsOf, hi]

theorem bitsOf_add (k l n : ℕ) : bitsOf (k + l) n = bitsOf k n ++ bitsOf l (n / 2 ^ k) := by
  simp only [bitsOf, List.range_add, List.map_append, List.map_map, List.append_cancel_left_eq,
    List.map_inj_left, Function.comp_apply]
  intro i _
  rw [Nat.testBit_div_two_pow, Nat.add_comm]

theorem bitsOf_mod (k n : ℕ) : bitsOf k (n % 2 ^ k) = bitsOf k n := by
  simp only [bitsOf, List.map_inj_left, List.mem_range]
  intro i hi
  simp [Nat.testBit_mod_two_pow, hi]

theorem bitsOf_and_mask {k l n : ℕ} (hkl : k ≤ l) :
    bitsOf l (n &&& (2 ^ k - 1)) = bitsOf k n ++ List.replicate (l - k) false := by
  obtain ⟨rest, rfl⟩ := Nat.exists_eq_add_of_le hkl
  rw [Nat.and_two_pow_sub_one_eq_mod, bitsOf_add, bitsOf_mod,
    Nat.div_eq_of_lt (Nat.mod_lt _ (Nat.two_pow_pos k)), Nat.add_sub_cancel_left]
  simp [bitsOf, List.eq_replicate_iff]

theorem bitsBelow_add {k low high : ℕ} (hlow : low < 2 ^ k) (hhigh : 0 < high) :
    bitsBelow (low + 2 ^ k * high) = bitsOf k low ++ bitsBelow high := by
  have hdiv : (low + 2 ^ k * high) / 2 ^ k = high := by
    rw [Nat.add_mul_div_left _ _ (Nat.two_pow_pos k), Nat.div_eq_of_lt hlow, Nat.zero_add]
  have hlog : (low + 2 ^ k * high).log2 = k + high.log2 := by
    have hpos : low + 2 ^ k * high ≠ 0 := by positivity
    rw [Nat.log2_eq_iff hpos, pow_add, Nat.add_assoc k, pow_add 2 k]
    have hle : 2 ^ high.log2 ≤ high := Nat.log2_self_le hhigh.ne'
    have hlt : high + 1 ≤ 2 ^ (high.log2 + 1) := Nat.lt_log2_self
    constructor
    · exact (Nat.mul_le_mul_left _ hle).trans (Nat.le_add_left _ _)
    · calc low + 2 ^ k * high < 2 ^ k + 2 ^ k * high := by omega
        _ = 2 ^ k * (high + 1) := by ring
        _ ≤ 2 ^ k * 2 ^ (high.log2 + 1) := Nat.mul_le_mul_left _ hlt
  have hmod : (low + 2 ^ k * high) % 2 ^ k = low := by
    rw [Nat.add_mul_mod_self_left, Nat.mod_eq_of_lt hlow]
  rw [bitsBelow, hlog, bitsOf_add, hdiv, ← bitsOf_mod, hmod, bitsBelow]

theorem bitsOf_eq {k n : ℕ} (hn : 0 < n) (hlt : n < 2 ^ k) :
    bitsOf k n = bitsBelow n ++ true :: List.replicate (k - n.log2 - 1) false := by
  have hlog : n.log2 < k := (Nat.log2_lt hn.ne').mpr hlt
  obtain ⟨rest, rfl⟩ : ∃ rest, k = n.log2 + (1 + rest) := ⟨k - n.log2 - 1, by omega⟩
  have hone : n / 2 ^ n.log2 = 1 := by
    have hle : 2 ^ n.log2 ≤ n := Nat.log2_self_le hn.ne'
    have hlt' : n < 2 ^ (n.log2 + 1) := Nat.lt_log2_self
    rw [pow_succ] at hlt'
    exact Nat.div_eq_of_lt_le (by omega) (by omega)
  rw [bitsOf_add, hone, bitsOf_add, bitsBelow]
  have hzeros : bitsOf rest (1 / 2 ^ 1) = List.replicate rest false := by
    simp [bitsOf, List.eq_replicate_iff]
  rw [hzeros, show n.log2 + (1 + rest) - n.log2 - 1 = rest by omega]
  rfl

/-! ### Bytes -/

def bitsOfBytes (bytes : List UInt8) : List Bool := bytes.flatMap fun byte => bitsOf 8 byte.toNat

@[simp] theorem bitsOfBytes_nil : bitsOfBytes [] = [] := rfl

@[simp] theorem bitsOfBytes_cons (byte : UInt8) (bytes : List UInt8) :
    bitsOfBytes (byte :: bytes) = bitsOf 8 byte.toNat ++ bitsOfBytes bytes := by
  simp [bitsOfBytes]

@[simp] theorem bitsOfBytes_append (bytes bytes' : List UInt8) :
    bitsOfBytes (bytes ++ bytes') = bitsOfBytes bytes ++ bitsOfBytes bytes' := by
  simp [bitsOfBytes]

@[simp] theorem length_bitsOfBytes (bytes : List UInt8) :
    (bitsOfBytes bytes).length = 8 * bytes.length := by
  simp [bitsOfBytes, List.length_flatMap]
  ring

theorem getElem?_bitsOfBytes (bytes : List UInt8) (k : ℕ) :
    (bitsOfBytes bytes)[k]? = (bytes[k / 8]?).map (·.toNat.testBit (k % 8)) := by
  induction bytes generalizing k with
  | nil => rfl
  | cons byte bytes ih =>
    rw [bitsOfBytes_cons]
    rcases lt_or_ge k 8 with hk | hk
    · rw [List.getElem?_append_left (by simpa using hk), getElem?_bitsOf hk, Nat.div_eq_of_lt hk,
        Nat.mod_eq_of_lt hk]
      rfl
    · rw [List.getElem?_append_right (by simpa using hk), length_bitsOf, ih,
        Nat.div_eq_sub_div (by decide) hk, Nat.mod_eq_sub_mod hk, List.getElem?_cons_succ]

theorem bitsOfBytes_zeros (n : ℕ) :
    bitsOfBytes (List.replicate n 0) = List.replicate (8 * n) false := by
  induction n with
  | zero => rfl
  | succ n ih =>
    rw [List.replicate_succ, bitsOfBytes_cons, ih, show 8 * (n + 1) = 8 + 8 * n by ring,
      List.replicate_add]
    rfl

/-- The bytes that hold the bits, without an incomplete one at the end. -/
def bytesOfBits : List Bool → List UInt8
  | b₀ :: b₁ :: b₂ :: b₃ :: b₄ :: b₅ :: b₆ :: b₇ :: rest =>
    UInt8.ofNat (b₀.toNat + 2 * b₁.toNat + 4 * b₂.toNat + 8 * b₃.toNat + 16 * b₄.toNat +
      32 * b₅.toNat + 64 * b₆.toNat + 128 * b₇.toNat) :: bytesOfBits rest
  | _ => []

theorem bytesOfBits_bitsOf : ∀ n < 256, ∀ rest : List Bool,
    bytesOfBits (bitsOf 8 n ++ rest) = UInt8.ofNat n :: bytesOfBits rest := by
  have hbyte : ∀ n < 256, (n.testBit 0).toNat + 2 * (n.testBit 1).toNat +
      4 * (n.testBit 2).toNat + 8 * (n.testBit 3).toNat + 16 * (n.testBit 4).toNat +
      32 * (n.testBit 5).toNat + 64 * (n.testBit 6).toNat + 128 * (n.testBit 7).toNat = n := by
    decide +kernel
  intro n hn rest
  have hbits : bitsOf 8 n = [n.testBit 0, n.testBit 1, n.testBit 2, n.testBit 3, n.testBit 4,
    n.testBit 5, n.testBit 6, n.testBit 7] := rfl
  rw [hbits]
  simp only [List.cons_append, List.nil_append, bytesOfBits, hbyte n hn]

@[simp] theorem bytesOfBits_bitsOfBytes (bytes : List UInt8) :
    bytesOfBits (bitsOfBytes bytes) = bytes := by
  induction bytes with
  | nil => rfl
  | cons byte bytes ih =>
    rw [bitsOfBytes_cons, bytesOfBits_bitsOf _ byte.toNat_lt, ih, UInt8.ofNat_toNat]

theorem bitsOfBytes_take_bytes (bytes : List UInt8) (k : ℕ) :
    (bitsOfBytes bytes).take (8 * k) = bitsOfBytes (bytes.take k) := by
  apply List.ext_getElem?
  intro i
  rw [List.getElem?_take, getElem?_bitsOfBytes, getElem?_bitsOfBytes, List.getElem?_take]
  by_cases hi : i < 8 * k
  · rw [if_pos hi, if_pos (by omega)]
  · rw [if_neg hi, if_neg (by omega), Option.map_none]

theorem bitsOfBytes_drop_bytes (bytes : List UInt8) (k : ℕ) :
    (bitsOfBytes bytes).drop (8 * k) = bitsOfBytes (bytes.drop k) := by
  apply List.ext_getElem?
  intro i
  rw [List.getElem?_drop, getElem?_bitsOfBytes, getElem?_bitsOfBytes, List.getElem?_drop,
    Nat.mul_add_div (by decide), Nat.mul_add_mod]

theorem length_lt_of_incomplete {bits : List Bool} (h : ∀ b₀ b₁ b₂ b₃ b₄ b₅ b₆ b₇ rest,
    bits ≠ b₀ :: b₁ :: b₂ :: b₃ :: b₄ :: b₅ :: b₆ :: b₇ :: rest) : bits.length < 8 := by
  match bits, h with
  | b₀ :: b₁ :: b₂ :: b₃ :: b₄ :: b₅ :: b₆ :: b₇ :: rest, h => exact (h _ _ _ _ _ _ _ _ _ rfl).elim
  | [], _ | [_], _ | [_, _], _ | [_, _, _], _ | [_, _, _, _], _ | [_, _, _, _, _], _
  | [_, _, _, _, _, _], _ | [_, _, _, _, _, _, _], _ => simp

theorem length_bytesOfBits (bits : List Bool) : (bytesOfBits bits).length = bits.length / 8 := by
  fun_induction bytesOfBits bits with
  | case1 b₀ b₁ b₂ b₃ b₄ b₅ b₆ b₇ rest ih =>
    simp only [List.length_cons, ih]
    omega
  | case2 bits hshort =>
    rw [Nat.div_eq_of_lt (length_lt_of_incomplete hshort)]
    rfl

theorem bitsOfBytes_bytesOfBits {bits : List Bool} (h : bits.length % 8 = 0) :
    bitsOfBytes (bytesOfBits bits) = bits := by
  fun_induction bytesOfBits bits with
  | case1 b₀ b₁ b₂ b₃ b₄ b₅ b₆ b₇ rest ih =>
    have hbyte : ∀ b₀ b₁ b₂ b₃ b₄ b₅ b₆ b₇ : Bool, bitsOf 8 (UInt8.ofNat (b₀.toNat + 2 * b₁.toNat +
        4 * b₂.toNat + 8 * b₃.toNat + 16 * b₄.toNat + 32 * b₅.toNat + 64 * b₆.toNat +
        128 * b₇.toNat)).toNat = [b₀, b₁, b₂, b₃, b₄, b₅, b₆, b₇] := by decide +kernel
    have hrest : rest.length % 8 = 0 := by
      simp only [List.length_cons] at h
      omega
    rw [bitsOfBytes_cons, hbyte, ih hrest]
    rfl
  | case2 bits hshort =>
    have hlt := length_lt_of_incomplete hshort
    have hnil : bits = [] := List.length_eq_zero_iff.mp (by omega)
    rw [hnil]
    rfl

/-! ### Padding -/

/-- What is put behind `m` bits to get a multiple of `x` bits. -/
def pad101 (x m : ℕ) : List Bool :=
  true :: List.replicate ((2 * x - 2 - m % x) % x) false ++ [true]

theorem length_pad101_mod {x : ℕ} (hx : 0 < x) (m : ℕ) :
    (m + (pad101 x m).length) % x = 0 := by
  have hmod : m % x < x := Nat.mod_lt m hx
  have hlength : (pad101 x m).length = 2 + (2 * x - 2 - m % x) % x := by
    simp [pad101]
    omega
  have hsum : m + 2 + (2 * x - 2 - m % x) = x * (m / x + 2) := by
    have hdivmod := Nat.div_add_mod m x
    rw [Nat.mul_add]
    omega
  rw [hlength, ← Nat.add_assoc, Nat.add_mod_mod, hsum, Nat.mul_mod_right]

theorem zeros_one_injective : ∀ {j j' : ℕ} {bits bits' : List Bool},
    List.replicate j false ++ true :: bits = List.replicate j' false ++ true :: bits' → bits = bits'
  | 0, 0, _, _, h => by simpa using h
  | j + 1, j' + 1, _, _, h => zeros_one_injective (by simpa [List.replicate_succ] using h)
  | 0, j' + 1, _, _, h => by simp [List.replicate_succ] at h
  | j + 1, 0, _, _, h => by simp [List.replicate_succ] at h

/-- No two strings are the same once they are padded. -/
theorem pad_injective (x : ℕ) : Function.Injective fun bits => bits ++ pad101 x bits.length := by
  intro bits bits' h
  have hreverse := congrArg List.reverse h
  simp only [pad101, List.reverse_append, List.reverse_cons, List.reverse_replicate,
    List.reverse_nil, List.nil_append, List.append_assoc, List.cons_append, List.cons.injEq,
    true_and] at hreverse
  exact List.reverse_injective (zeros_one_injective hreverse)

end BitPadding
