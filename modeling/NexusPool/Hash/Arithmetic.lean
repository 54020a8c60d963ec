import NexusPool.Hash.BaseUint
import NexusPool.Library.Digits

/-!
# Arithmetic of `base_uint`

Every operator is a loop over the words. What it computes is arithmetic modulo `2 ^ BITS` on the
number the words stand for, and the comparisons are those of that number.
-/

namespace NexusPool

open Digits

namespace BaseUint

variable {w : ℕ}

/-! ### Negation, increment and decrement -/

instance : Complement (BaseUint w) where
  complement a := ⟨a.pn.map (~~~ ·), by simp [a.width]⟩

/-- The loop of `operator++` and `operator--`, which goes on to the next word while a word has
become `carries`. -/
def stepWords (step : UInt32 → UInt32) (carries : UInt32) : List UInt32 → List UInt32
  | [] => []
  | x :: xs => if step x = carries then step x :: stepWords step carries xs else step x :: xs

theorem length_stepWords (step : UInt32 → UInt32) (carries : UInt32) : ∀ words,
    (stepWords step carries words).length = words.length
  | [] => rfl
  | x :: xs => by
    rw [stepWords]
    split_ifs
    · simp [length_stepWords step carries xs]
    · rfl

def increment (a : BaseUint w) : BaseUint w :=
  ⟨stepWords (· + 1) 0 a.pn, (length_stepWords _ _ a.pn).trans a.width⟩

def decrement (a : BaseUint w) : BaseUint w :=
  ⟨stepWords (· - 1) (-1) a.pn, (length_stepWords _ _ a.pn).trans a.width⟩

/-- The postfix operators: what they return, and what becomes of the operand. -/
def postIncrement (a : BaseUint w) : BaseUint w × BaseUint w := (a, a.increment)

def postDecrement (a : BaseUint w) : BaseUint w × BaseUint w := (a, a.decrement)

instance : Neg (BaseUint w) where
  neg a := (~~~a).postIncrement.2

instance : Sub (BaseUint w) where
  sub a b := a + -b

/-! ### A 64-bit operand -/

def addUInt64 (a : BaseUint (w + 2)) (b64 : UInt64) : BaseUint (w + 2) := a + ofUInt64 w b64

def subUInt64 (a : BaseUint (w + 2)) (b64 : UInt64) : BaseUint (w + 2) := a + -ofUInt64 w b64

def eqUInt64 (a : BaseUint (w + 2)) (b : UInt64) : Bool :=
  if a.pn.getD 0 0 ≠ b.toUInt32 then false
  else if a.pn.getD 1 0 ≠ (b >>> 32).toUInt32 then false
  else (a.pn.drop 2).all (· = 0)

def neUInt64 (a : BaseUint (w + 2)) (b : UInt64) : Bool := !a.eqUInt64 b

/-! ### Comparison -/

def lt (a b : BaseUint w) : Bool := scan (· < ·) false a.pn.reverse b.pn.reverse

def le (a b : BaseUint w) : Bool := scan (· < ·) true a.pn.reverse b.pn.reverse

def gt (a b : BaseUint w) : Bool := scan (· > ·) false a.pn.reverse b.pn.reverse

def ge (a b : BaseUint w) : Bool := scan (· > ·) true a.pn.reverse b.pn.reverse

def eqWords : List UInt32 → List UInt32 → Bool
  | x :: xs, y :: ys => if x ≠ y then false else eqWords xs ys
  | _, _ => true

def eq (a b : BaseUint w) : Bool := eqWords a.pn b.pn

def ne (a b : BaseUint w) : Bool := !a.eq b

/-! ### Shifts -/

def orInto (pn : List UInt32) (j : ℕ) (x : UInt32) : List UInt32 := pn.modify j (· ||| x)

/-- One turn of the loop of `operator<<=`: word `i` of the copy `a` goes into two words. -/
def shlWord (a : List UInt32) (k : ℕ) (shift : UInt32) (pn : List UInt32) (i : ℕ) : List UInt32 :=
  let pn := if i + k + 1 < pn.length ∧ shift ≠ 0 then
    orInto pn (i + k + 1) (a.getD i 0 >>> (32 - shift)) else pn
  if i + k < pn.length then orInto pn (i + k) (a.getD i 0 <<< shift) else pn

/-- One turn of the loop of `operator>>=`. -/
def shrWord (a : List UInt32) (k : ℕ) (shift : UInt32) (pn : List UInt32) (i : ℕ) : List UInt32 :=
  let pn := if k + 1 ≤ i ∧ shift ≠ 0 then
    orInto pn (i - k - 1) (a.getD i 0 <<< (32 - shift)) else pn
  if k ≤ i then orInto pn (i - k) (a.getD i 0 >>> shift) else pn

theorem length_ite_orInto {c : Prop} [Decidable c] (pn : List UInt32) (j : ℕ) (x : UInt32) :
    (if c then orInto pn j x else pn).length = pn.length := by
  split_ifs
  · exact List.length_modify ..
  · rfl

theorem length_shlWord (a : List UInt32) (k : ℕ) (shift : UInt32) (pn : List UInt32) (i : ℕ) :
    (shlWord a k shift pn i).length = pn.length := by
  rw [shlWord, length_ite_orInto, length_ite_orInto]

theorem length_shrWord (a : List UInt32) (k : ℕ) (shift : UInt32) (pn : List UInt32) (i : ℕ) :
    (shrWord a k shift pn i).length = pn.length := by
  rw [shrWord, length_ite_orInto, length_ite_orInto]

theorem length_foldl {step : List UInt32 → ℕ → List UInt32}
    (hstep : ∀ pn i, (step pn i).length = pn.length) (turns : List ℕ) (pn : List UInt32) :
    (turns.foldl step pn).length = pn.length := by
  induction turns generalizing pn with
  | nil => rfl
  | cons i turns ih => rw [List.foldl_cons, ih, hstep]

def shiftLeft (a : BaseUint w) (shift : UInt32) : BaseUint w where
  pn := (List.range w).foldl (shlWord a.pn (shift / 32).toNat (shift % 32)) (List.replicate w 0)
  width := by rw [length_foldl (length_shlWord _ _ _), List.length_replicate]

def shiftRight (a : BaseUint w) (shift : UInt32) : BaseUint w where
  pn := (List.range w).foldl (shrWord a.pn (shift / 32).toNat (shift % 32)) (List.replicate w 0)
  width := by rw [length_foldl (length_shrWord _ _ _), List.length_replicate]

/-! ### The value of a list of words -/

def value (words : List UInt32) : ℕ := Nat.ofDigits (2 ^ 32) (words.map UInt32.toNat)

theorem toNat_eq_value (a : BaseUint w) : a.toNat = value a.pn := rfl

theorem value_cons (x : UInt32) (xs : List UInt32) :
    value (x :: xs) = x.toNat + 2 ^ 32 * value xs := by
  rw [value, List.map_cons, Nat.ofDigits_cons, value]

theorem value_lt (words : List UInt32) : value words < (2 ^ 32) ^ words.length :=
  ofDigits_lt (by norm_num) UInt32.toNat_lt words

theorem word_lt (words : List UInt32) : ∀ d ∈ words.map UInt32.toNat, d < 2 ^ 32 := by
  intro d hd
  obtain ⟨x, -, rfl⟩ := List.mem_map.mp hd
  exact x.toNat_lt

theorem value_injective {xs ys : List UInt32} (hlength : xs.length = ys.length)
    (h : value xs = value ys) : xs = ys := by
  have hmap := Nat.ofDigits_inj_of_len_eq (by norm_num) (by simpa using hlength) (word_lt xs)
    (word_lt ys) h
  exact List.map_injective_iff.mpr (fun _ _ => UInt32.toNat_inj.mp) hmap

theorem toNat_injective {a b : BaseUint w} (h : a.toNat = b.toNat) : a = b := by
  ext1
  exact value_injective (a.width.trans b.width.symm) h

theorem testBit_value {words : List UInt32} {i r : ℕ} (hr : r < 32) :
    (value words).testBit (32 * i + r) = (words.getD i 0).toNat.testBit r := by
  rw [value, testBit_ofDigits (word_lt words) hr]
  exact congrArg (·.testBit r) (List.getD_map words 0 UInt32.toNat)

/-! ### Sums and differences -/

/-- A number and its complement have all bits set. -/
theorem toNat_complement (a : BaseUint w) : (~~~a).toNat + a.toNat + 1 = 2 ^ (32 * w) := by
  have hwords : (a.pn.map (~~~ ·)).map UInt32.toNat =
      (a.pn.map UInt32.toNat).map (2 ^ 32 - 1 - ·) := by
    rw [List.map_map, List.map_map]
    apply List.map_congr_left
    intro x _
    simp [UInt32.toNat_not]
  have hsum := ofDigits_complement (word_lt a.pn)
  rw [← hwords, List.length_map, a.width, ← pow_mul] at hsum
  exact hsum

theorem value_stepWords_add : ∀ words : List UInt32,
    value (stepWords (· + 1) 0 words) = (value words + 1) % (2 ^ 32) ^ words.length
  | [] => by simp [stepWords, value]
  | x :: xs => by
    have hx := x.toNat_lt
    have hxs := value_lt xs
    have hnext : (x + 1).toNat = (x.toNat + 1) % 2 ^ 32 := by simp [UInt32.toNat_add]
    rw [stepWords, List.length_cons, pow_succ', value_cons]
    by_cases hcarry : x + 1 = 0
    · -- the word was full, and what it held with one more is a carry
      have hfull : x.toNat + 1 = 2 ^ 32 := by
        rw [hcarry] at hnext
        change 0 = _ at hnext
        omega
      have hsum : x.toNat + 2 ^ 32 * value xs + 1 = 2 ^ 32 * (value xs + 1) := by omega
      rw [if_pos hcarry, value_cons, hcarry, value_stepWords_add xs, hsum, Nat.mul_mod_mul_left]
      simp
    · have hroom : x.toNat + 1 < 2 ^ 32 := by
        have hne : (x + 1).toNat ≠ 0 := fun hzero => hcarry (UInt32.toNat_inj.mp hzero)
        omega
      have hlt : x.toNat + 1 + 2 ^ 32 * value xs < 0 + 2 ^ 32 * (2 ^ 32) ^ xs.length :=
        add_mul_lt hxs hroom
      rw [if_neg hcarry, value_cons, hnext, Nat.mod_eq_of_lt hroom, Nat.mod_eq_of_lt (by omega)]
      omega

/-- A step that undoes another and goes on in the same words undoes it in all of them. -/
theorem stepWords_stepWords {step undo : UInt32 → UInt32} {carries carries' : UInt32}
    (hundo : ∀ x, undo (step x) = x) (hcarries : ∀ x, step x = carries ↔ x = carries') :
    ∀ words, stepWords undo carries' (stepWords step carries words) = words
  | [] => rfl
  | x :: xs => by
    rw [stepWords]
    by_cases hcarry : step x = carries
    · rw [if_pos hcarry, stepWords, hundo, if_pos ((hcarries x).mp hcarry),
        stepWords_stepWords hundo hcarries xs]
    · rw [if_neg hcarry, stepWords, hundo, if_neg (mt (hcarries x).mpr hcarry)]

theorem increment_decrement (a : BaseUint w) : a.decrement.increment = a := by
  have hborrows : ∀ x : UInt32, x - 1 = -1 ↔ x = 0 := by
    intro x
    constructor
    · intro hborrow
      rw [← UInt32.sub_add_cancel x 1, hborrow]
      rfl
    · rintro rfl
      rfl
  ext1
  exact stepWords_stepWords (fun x => UInt32.sub_add_cancel x 1) hborrows a.pn

theorem toNat_increment (a : BaseUint w) : a.increment.toNat = (a.toNat + 1) % 2 ^ (32 * w) := by
  have hvalue := value_stepWords_add a.pn
  rw [a.width, ← pow_mul] at hvalue
  exact hvalue

theorem toNat_neg (a : BaseUint w) : ((-a).toNat : ℤ) = -(a.toNat : ℤ) % 2 ^ (32 * w) := by
  have hcomplement := toNat_complement a
  have hincrement : (-a).toNat = ((~~~a).toNat + 1) % 2 ^ (32 * w) := toNat_increment (~~~a)
  have hint : ((~~~a).toNat : ℤ) + 1 = -(a.toNat : ℤ) + 2 ^ (32 * w) := by
    have hcast : (((~~~a).toNat + a.toNat + 1 : ℕ) : ℤ) = ((2 ^ (32 * w) : ℕ) : ℤ) := by
      rw [hcomplement]
    push_cast at hcast
    omega
  rw [hincrement]
  push_cast
  rw [hint, Int.add_emod_right]

theorem toNat_sub (a b : BaseUint w) :
    ((a - b).toNat : ℤ) = ((a.toNat : ℤ) - b.toNat) % 2 ^ (32 * w) := by
  have hadd : (a - b).toNat = (a.toNat + (-b).toNat) % 2 ^ (32 * w) := toNat_add a (-b)
  rw [hadd]
  push_cast
  rw [toNat_neg, Int.add_emod_emod, sub_eq_add_neg]

theorem toNat_decrement (a : BaseUint w) :
    (a.decrement.toNat : ℤ) = ((a.toNat : ℤ) - 1) % 2 ^ (32 * w) := by
  have hvalue := toNat_increment a.decrement
  rw [increment_decrement] at hvalue
  have hlt := toNat_lt a.decrement
  rw [hvalue]
  push_cast
  rw [Int.emod_sub_emod, add_sub_cancel_right, Int.emod_eq_of_lt (by omega) (by exact_mod_cast hlt)]

/-! ### Products and quotients by a power of two -/

theorem lt_of_testBit {x : UInt32} {q : ℕ} (h : x.toNat.testBit q = true) : q < 32 := by
  by_contra hq
  have hle : 2 ^ 32 ≤ 2 ^ q := Nat.pow_le_pow_right (by omega) (by omega)
  rw [Nat.testBit_lt_two_pow (x.toNat_lt.trans_le hle)] at h
  cases h

theorem testBit_wordShiftLeft {x shift : UInt32} (hshift : shift.toNat < 32) {r : ℕ} (hr : r < 32) :
    (x <<< shift).toNat.testBit r = true ↔
      ∃ q, x.toNat.testBit q = true ∧ r = shift.toNat + q := by
  rw [UInt32.toNat_shiftLeft, Nat.mod_eq_of_lt hshift, Nat.testBit_mod_two_pow,
    Nat.testBit_shiftLeft]
  simp only [Bool.and_eq_true, decide_eq_true_eq]
  constructor
  · rintro ⟨-, hle, hbit⟩
    exact ⟨r - shift.toNat, hbit, by omega⟩
  · rintro ⟨q, hbit, rfl⟩
    exact ⟨hr, by omega, by rwa [Nat.add_sub_cancel_left]⟩

theorem testBit_wordShiftRight {x shift : UInt32} (hshift : shift.toNat < 32) {r : ℕ} :
    (x >>> shift).toNat.testBit r = true ↔
      ∃ q, x.toNat.testBit q = true ∧ shift.toNat + r = q := by
  rw [UInt32.toNat_shiftRight, Nat.mod_eq_of_lt hshift, Nat.testBit_shiftRight]
  simp

theorem ne_zero_iff {shift : UInt32} : shift ≠ 0 ↔ 0 < shift.toNat := by
  rw [Nat.pos_iff_ne_zero, ne_eq, ne_eq, ← UInt32.toNat_inj]
  rfl

theorem toNat_thirtyTwo_sub {shift : UInt32} (hshift : shift.toNat < 32) :
    (32 - shift).toNat = 32 - shift.toNat := by
  have hthirtyTwo : (32 : UInt32).toNat = 32 := rfl
  rw [UInt32.toNat_sub_of_le _ _ (UInt32.le_iff_toNat_le.mpr (by omega)), hthirtyTwo]

theorem testBit_orInto {c : Prop} [Decidable c] {pn : List UInt32} {j n : ℕ} {x : UInt32}
    (hn : n < 32 * pn.length) :
    (value (if c then orInto pn j x else pn)).testBit n = true ↔
      (value pn).testBit n = true ∨ c ∧ n / 32 = j ∧ x.toNat.testBit (n % 32) = true := by
  by_cases hc : c
  · have hn' : n / 32 < pn.length := by omega
    have hsplit : n = 32 * (n / 32) + n % 32 := by omega
    rw [if_pos hc]
    nth_rewrite 1 2 [hsplit]
    rw [testBit_value (by omega), testBit_value (by omega), orInto, List.getD_eq_getElem?_getD,
      List.getElem?_modify, List.getD_eq_getElem?_getD, List.getElem?_eq_getElem hn']
    by_cases hj : j = n / 32
    · simp [hj, hc]
    · simp [hj, Ne.symm hj]
  · simp [hc]

theorem testBit_shlWord {a pn : List UInt32} {k i n : ℕ} {shift : UInt32}
    (hshift : shift.toNat < 32)
    (hn : n < 32 * pn.length) :
    (value (shlWord a k shift pn i)).testBit n = true ↔ (value pn).testBit n = true ∨
      ∃ q, (a.getD i 0).toNat.testBit q = true ∧ n = 32 * (i + k) + shift.toNat + q := by
  have hother := toNat_thirtyTwo_sub hshift
  rw [shlWord, testBit_orInto (by rwa [length_ite_orInto]), testBit_orInto hn, length_ite_orInto,
    or_assoc, ne_zero_iff]
  apply or_congr_right
  rw [testBit_wordShiftLeft hshift (by omega)]
  constructor
  · rintro (⟨⟨-, hpos⟩, hj, hbit⟩ | ⟨-, hj, q, hbit, hr⟩)
    · rw [testBit_wordShiftRight (by omega), hother] at hbit
      obtain ⟨q, hbit, hr⟩ := hbit
      exact ⟨q, hbit, by omega⟩
    · exact ⟨q, hbit, by omega⟩
  · rintro ⟨q, hbit, rfl⟩
    have hq := lt_of_testBit hbit
    by_cases hsame : shift.toNat + q < 32
    · exact .inr ⟨by omega, by omega, q, hbit, by omega⟩
    · refine .inl ⟨⟨by omega, by omega⟩, by omega, ?_⟩
      rw [testBit_wordShiftRight (by omega), hother]
      exact ⟨q, hbit, by omega⟩

theorem testBit_shrWord {a pn : List UInt32} {k i n : ℕ} {shift : UInt32}
    (hshift : shift.toNat < 32)
    (hn : n < 32 * pn.length) :
    (value (shrWord a k shift pn i)).testBit n = true ↔ (value pn).testBit n = true ∨
      ∃ q, (a.getD i 0).toNat.testBit q = true ∧ n + 32 * k + shift.toNat = 32 * i + q := by
  have hother := toNat_thirtyTwo_sub hshift
  rw [shrWord, testBit_orInto (by rwa [length_ite_orInto]), testBit_orInto hn, or_assoc,
    ne_zero_iff]
  apply or_congr_right
  rw [testBit_wordShiftRight hshift]
  constructor
  · rintro (⟨⟨hi, hpos⟩, hj, hbit⟩ | ⟨hi, hj, q, hbit, hr⟩)
    · rw [testBit_wordShiftLeft (by omega) (by omega), hother] at hbit
      obtain ⟨q, hbit, hr⟩ := hbit
      exact ⟨q, hbit, by omega⟩
    · exact ⟨q, hbit, by omega⟩
  · rintro ⟨q, hbit, hq⟩
    have hlt := lt_of_testBit hbit
    by_cases hsame : shift.toNat ≤ q
    · exact .inr ⟨by omega, by omega, q, hbit, by omega⟩
    · refine .inl ⟨⟨by omega, by omega⟩, by omega, ?_⟩
      rw [testBit_wordShiftLeft (by omega) (by omega), hother]
      exact ⟨q, hbit, by omega⟩

/-- What every turn moves into the words is there after the loop. -/
theorem testBit_foldl {step : List UInt32 → ℕ → List UInt32} {moves : ℕ → ℕ → Prop}
    (hlength : ∀ pn i, (step pn i).length = pn.length)
    (hstep : ∀ pn i n, n < 32 * pn.length →
      ((value (step pn i)).testBit n = true ↔ (value pn).testBit n = true ∨ moves i n))
    (turns : List ℕ) {pn : List UInt32} {n : ℕ} (hn : n < 32 * pn.length) :
    (value (turns.foldl step pn)).testBit n = true ↔
      (value pn).testBit n = true ∨ ∃ i ∈ turns, moves i n := by
  induction turns generalizing pn with
  | nil => simp
  | cons i turns ih =>
    rw [List.foldl_cons, ih (by rwa [hlength]), hstep pn i n hn, or_assoc, List.exists_mem_cons_iff]

theorem value_replicate_zero (n : ℕ) : value (List.replicate n 0) = 0 := by
  rw [value, List.map_replicate]
  exact Nat.ofDigits_replicate_zero

theorem toNat_shift_split (shift : UInt32) :
    32 * (shift / 32).toNat + (shift % 32).toNat = shift.toNat ∧ (shift % 32).toNat < 32 := by
  have hthirtyTwo : (32 : UInt32).toNat = 32 := rfl
  rw [UInt32.toNat_div, UInt32.toNat_mod, hthirtyTwo]
  omega

theorem testBit_toNat {a : BaseUint w} {i q : ℕ} (hq : q < 32) :
    a.toNat.testBit (32 * i + q) = (a.pn.getD i 0).toNat.testBit q :=
  testBit_value hq

theorem toNat_shiftLeft (a : BaseUint w) (shift : UInt32) :
    (a.shiftLeft shift).toNat = a.toNat * 2 ^ shift.toNat % 2 ^ (32 * w) := by
  obtain ⟨hsplit, hshift⟩ := toNat_shift_split shift
  apply eq_of_testBit (toNat_lt _) (Nat.mod_lt _ (by positivity))
  intro n hn
  rw [Bool.eq_iff_iff, toNat_eq_value, shiftLeft,
    testBit_foldl (length_shlWord _ _ _)
      (fun pn i n => testBit_shlWord hshift) _ (by simpa using hn),
    value_replicate_zero, Nat.zero_testBit, Nat.testBit_mod_two_pow, ← Nat.shiftLeft_eq,
    Nat.testBit_shiftLeft]
  simp only [Bool.false_eq_true, false_or, List.mem_range, Bool.and_eq_true, decide_eq_true_eq]
  constructor
  · rintro ⟨i, -, q, hbit, rfl⟩
    refine ⟨hn, by omega, ?_⟩
    rw [← hbit, ← testBit_toNat (lt_of_testBit hbit)]
    congr 1
    omega
  · rintro ⟨-, hle, hbit⟩
    refine ⟨(n - shift.toNat) / 32, by omega, (n - shift.toNat) % 32, ?_, by omega⟩
    rwa [← testBit_toNat (Nat.mod_lt _ (by omega)), Nat.div_add_mod]

/-- Bits leave a word for the next one. -/
example : ((ofUInt64 1 0xf0000000).shiftLeft 36).pn = [0, 0, 0xf] := by decide

theorem toNat_shiftRight (a : BaseUint w) (shift : UInt32) :
    (a.shiftRight shift).toNat = a.toNat / 2 ^ shift.toNat := by
  obtain ⟨hsplit, hshift⟩ := toNat_shift_split shift
  apply eq_of_testBit (toNat_lt _) ((Nat.div_le_self _ _).trans_lt (toNat_lt a))
  intro n hn
  rw [Bool.eq_iff_iff, toNat_eq_value, shiftRight,
    testBit_foldl (length_shrWord _ _ _)
      (fun pn i n => testBit_shrWord hshift) _ (by simpa using hn),
    value_replicate_zero, Nat.zero_testBit, Nat.testBit_div_two_pow]
  simp only [Bool.false_eq_true, false_or, List.mem_range]
  constructor
  · rintro ⟨i, -, q, hbit, hq⟩
    rw [← hbit, ← testBit_toNat (lt_of_testBit hbit)]
    congr 1
    omega
  · intro hbit
    have hlt : n + shift.toNat < 32 * w := by
      by_contra hge
      have hle : 2 ^ (32 * w) ≤ 2 ^ (n + shift.toNat) := Nat.pow_le_pow_right (by omega) (by omega)
      rw [Nat.testBit_lt_two_pow ((toNat_lt a).trans_le hle)] at hbit
      cases hbit
    refine ⟨(n + shift.toNat) / 32, by omega, (n + shift.toNat) % 32, ?_, by omega⟩
    rwa [← testBit_toNat (Nat.mod_lt _ (by omega)), Nat.div_add_mod]

/-! ### The order of the numbers -/

section Order

variable (a b c : BaseUint w)

theorem scan_pn (equal : Bool) :
    scan (fun x y : UInt32 => decide (x < y)) equal a.pn.reverse b.pn.reverse = true ↔
    a.toNat < b.toNat ∨ equal = true ∧ a.toNat = b.toNat := by
  have hscan := scan_iff (b := 2 ^ 32) (by norm_num) UInt32.toNat_lt
    (fun x y => decide_eq_true_iff.trans UInt32.lt_iff_toNat_lt) equal a.pn.reverse b.pn.reverse
    (by rw [List.length_reverse, List.length_reverse, a.width, b.width])
  rwa [List.map_reverse, List.map_reverse, List.reverse_reverse, List.reverse_reverse] at hscan

theorem lt_iff : a.lt b = true ↔ a.toNat < b.toNat := by
  rw [lt, scan_pn]
  simp

theorem le_iff : a.le b = true ↔ a.toNat ≤ b.toNat := by
  rw [le, scan_pn, Nat.le_iff_lt_or_eq]
  simp

theorem gt_iff : a.gt b = true ↔ b.toNat < a.toNat := by
  rw [← lt_iff, gt, lt]
  exact iff_of_eq (congrArg (· = true) (scan_flip (fun x y => decide (x < y)) false _ _))

theorem ge_iff : a.ge b = true ↔ b.toNat ≤ a.toNat := by
  rw [← le_iff, ge, le]
  exact iff_of_eq (congrArg (· = true) (scan_flip (fun x y => decide (x < y)) true _ _))

theorem eqWords_iff : ∀ {xs ys : List UInt32}, xs.length = ys.length →
    (eqWords xs ys = true ↔ xs = ys)
  | [], [], _ => by simp [eqWords]
  | x :: xs, y :: ys, hlength => by
    have ih := @eqWords_iff xs ys (by simpa using hlength)
    by_cases hxy : x = y
    · simp [eqWords, hxy, ih]
    · simp [eqWords, hxy]

theorem eq_iff : a.eq b = true ↔ a.toNat = b.toNat := by
  rw [eq, eqWords_iff (a.width.trans b.width.symm), ← BaseUint.ext_iff]
  exact ⟨congrArg toNat, toNat_injective⟩

theorem ne_iff : a.ne b = true ↔ a.toNat ≠ b.toNat := by
  rw [ne, Bool.not_eq_true', ← Bool.not_eq_true, eq_iff]

/-- The order that keys a map is this one. -/
theorem compare_eq_lt_iff : compare a b = .lt ↔ a.lt b = true := by
  have hwords : ∀ xs ys : List UInt32, xs.length = ys.length →
      (compare xs ys = .lt ↔ scan (· < ·) false xs ys = true) := by
    intro xs ys hlength
    induction xs generalizing ys with
    | nil =>
      obtain rfl := List.length_eq_zero_iff.mp hlength.symm
      simp [scan]
    | cons x xs ih =>
      cases ys with
      | nil => cases hlength
      | cons y ys =>
        rw [List.compare_cons_cons, scan, Ordering.then_eq_lt, ih ys (by simpa using hlength)]
        have hcompare : compare x y = compareOfLessAndEq x y := rfl
        rw [hcompare, compareOfLessAndEq]
        by_cases heq : x = y
        · simp [heq]
        · rcases UInt32.lt_or_lt_of_ne heq with hlt | hlt
          · simp [hlt]
          · simp [hlt, UInt32.lt_asymm hlt, heq]
  exact hwords _ _ (by rw [List.length_reverse, List.length_reverse, a.width, b.width])

end Order

section UInt64

variable (a : BaseUint (w + 2)) (b64 : UInt64)

theorem toNat_addUInt64 : (a.addUInt64 b64).toNat = (a.toNat + b64.toNat) % 2 ^ (32 * (w + 2)) := by
  rw [addUInt64, toNat_add, toNat_ofUInt64]

theorem toNat_subUInt64 :
    ((a.subUInt64 b64).toNat : ℤ) = ((a.toNat : ℤ) - b64.toNat) % 2 ^ (32 * (w + 2)) := by
  have hsub := toNat_sub a (ofUInt64 w b64)
  rw [toNat_ofUInt64] at hsub
  exact hsub

theorem eqUInt64_iff : a.eqUInt64 b64 = true ↔ a.toNat = b64.toNat := by
  have hwords : a.eqUInt64 b64 = true ↔ a.pn = (ofUInt64 w b64).pn := by
    obtain ⟨x, y, rest, hpn⟩ : ∃ x y rest, a.pn = x :: y :: rest := by
      match h : a.pn, a.width with
      | x :: y :: rest, _ => exact ⟨x, y, rest, rfl⟩
    have hlength : rest.length = w := by
      have hwidth := a.width
      simpa [hpn] using hwidth
    have hrest : rest.all (· = 0) = true ↔ rest = List.replicate w 0 := by
      simp [List.eq_replicate_iff, hlength]
    by_cases hx : x = b64.toUInt32
    · by_cases hy : y = (b64 >>> 32).toUInt32
      · simpa [eqUInt64, ofUInt64, hpn, hx, hy] using hrest
      · simp [eqUInt64, ofUInt64, hpn, hx, hy]
    · simp [eqUInt64, ofUInt64, hpn, hx]
  rw [hwords, ← BaseUint.ext_iff, ← toNat_ofUInt64 w b64]
  exact ⟨congrArg toNat, toNat_injective⟩

theorem neUInt64_iff : a.neUInt64 b64 = true ↔ a.toNat ≠ b64.toNat := by
  rw [neUInt64, Bool.not_eq_true', ← Bool.not_eq_true, eqUInt64_iff]

end UInt64

/-! ### The operators together -/

/-- The operators on these operands are those of arithmetic modulo `2 ^ BITS`, and the comparisons
those of the natural numbers. -/
structure Agrees (a b : BaseUint (w + 2)) (b64 : UInt64) (shift : UInt32) : Prop where
  add : (a + b).toNat = (a.toNat + b.toNat) % 2 ^ (32 * (w + 2))
  sub : ((a - b).toNat : ℤ) = ((a.toNat : ℤ) - b.toNat) % 2 ^ (32 * (w + 2))
  neg : ((-a).toNat : ℤ) = -(a.toNat : ℤ) % 2 ^ (32 * (w + 2))
  increment : a.increment.toNat = (a.toNat + 1) % 2 ^ (32 * (w + 2))
  decrement : (a.decrement.toNat : ℤ) = ((a.toNat : ℤ) - 1) % 2 ^ (32 * (w + 2))
  postIncrement : a.postIncrement.1.toNat = a.toNat ∧
    a.postIncrement.2.toNat = (a.toNat + 1) % 2 ^ (32 * (w + 2))
  postDecrement : a.postDecrement.1.toNat = a.toNat ∧
    (a.postDecrement.2.toNat : ℤ) = ((a.toNat : ℤ) - 1) % 2 ^ (32 * (w + 2))
  ofUInt64 : (ofUInt64 w b64).toNat = b64.toNat
  addUInt64 : (a.addUInt64 b64).toNat = (a.toNat + b64.toNat) % 2 ^ (32 * (w + 2))
  subUInt64 : ((a.subUInt64 b64).toNat : ℤ) = ((a.toNat : ℤ) - b64.toNat) % 2 ^ (32 * (w + 2))
  shiftLeft : (a.shiftLeft shift).toNat = a.toNat * 2 ^ shift.toNat % 2 ^ (32 * (w + 2))
  shiftRight : (a.shiftRight shift).toNat = a.toNat / 2 ^ shift.toNat
  lt : a.lt b = true ↔ a.toNat < b.toNat
  le : a.le b = true ↔ a.toNat ≤ b.toNat
  gt : a.gt b = true ↔ b.toNat < a.toNat
  ge : a.ge b = true ↔ b.toNat ≤ a.toNat
  eq : a.eq b = true ↔ a.toNat = b.toNat
  ne : a.ne b = true ↔ a.toNat ≠ b.toNat
  eqUInt64 : a.eqUInt64 b64 = true ↔ a.toNat = b64.toNat
  neUInt64 : a.neUInt64 b64 = true ↔ a.toNat ≠ b64.toNat

theorem agrees (a b : BaseUint (w + 2)) (b64 : UInt64) (shift : UInt32) : Agrees a b b64 shift where
  add := toNat_add a b
  sub := toNat_sub a b
  neg := toNat_neg a
  increment := toNat_increment a
  decrement := toNat_decrement a
  postIncrement := ⟨rfl, toNat_increment a⟩
  postDecrement := ⟨rfl, toNat_decrement a⟩
  ofUInt64 := toNat_ofUInt64 w b64
  addUInt64 := toNat_addUInt64 a b64
  subUInt64 := toNat_subUInt64 a b64
  shiftLeft := toNat_shiftLeft a shift
  shiftRight := toNat_shiftRight a shift
  lt := lt_iff a b
  le := le_iff a b
  gt := gt_iff a b
  ge := ge_iff a b
  eq := eq_iff a b
  ne := ne_iff a b
  eqUInt64 := eqUInt64_iff a b64
  neUInt64 := neUInt64_iff a b64

theorem isStrictTotalOrder_lt : IsStrictTotalOrder (BaseUint w) fun a b => a.lt b = true where
  irrefl a h := by
    rw [lt_iff] at h
    exact Nat.lt_irrefl _ h
  trans a b c hab hbc := by
    rw [lt_iff] at hab hbc ⊢
    exact hab.trans hbc
  trichotomous a b hab hba := by
    rw [lt_iff] at hab hba
    exact toNat_injective (by omega)

/-- For every width of at least two words, what the operators compute is arithmetic, and `operator<`
is a strict total order, the one that keys the maps. -/
theorem operators_arithmetic (w : ℕ) :
    (∀ (a b : BaseUint (w + 2)) (b64 : UInt64) (shift : UInt32), Agrees a b b64 shift) ∧
      IsStrictTotalOrder (BaseUint (w + 2)) (fun a b => a.lt b = true) ∧
      ∀ a b : BaseUint (w + 2), compare a b = .lt ↔ a.lt b = true :=
  ⟨agrees, isStrictTotalOrder_lt, compare_eq_lt_iff⟩

end BaseUint

end NexusPool
