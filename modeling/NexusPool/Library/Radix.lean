import Mathlib.Data.Nat.Digits.Lemmas
import Mathlib.Tactic

/-!
# Change of base in a buffer of fixed size

A numeral in base `m` is read from its most significant digit on. For each digit the buffer,
which holds a number in base `b`, is multiplied by `m` and the digit is added; the carry runs
over the digits in use and as far behind them as it has to. What is read to its end is the value
of the numeral, and a buffer that is large enough for every numeral of that length reads it.
-/

namespace Radix

/-- Digits, least significant first. From `length` on they are still as allocated. -/
structure Buffer where
  digits : List ℕ
  length : ℕ

namespace Buffer

def zero (size : ℕ) : Buffer := ⟨List.replicate size 0, 0⟩

/-- One pass of the carry, which goes on to the end of the digits in use, and until nothing is
left to carry. `none` where the buffer ends before that. -/
def carryLoop (b m : ℕ) : ℕ → ℕ → List ℕ → Option Buffer
  | carry, _, [] => if carry = 0 then some ⟨[], 0⟩ else none
  | carry, length, digit :: digits =>
    if carry ≠ 0 ∨ 0 < length then
      (carryLoop b m ((carry + m * digit) / b) (length - 1) digits).map fun rest =>
        ⟨(carry + m * digit) % b :: rest.digits, rest.length + 1⟩
    else some ⟨digit :: digits, 0⟩

/-- Multiplies by `m` and adds `carry`. -/
def mulAdd (b m : ℕ) (buffer : Buffer) (carry : ℕ) : Option Buffer :=
  carryLoop b m carry buffer.length buffer.digits

/-- Reads a numeral in base `m`, most significant digit first. -/
def read {α : Type} (b m : ℕ) (digit : α → Option ℕ) (buffer : Buffer) (numeral : List α) :
    Option Buffer :=
  numeral.foldlM (fun buffer c => do
    let carry ← digit c
    buffer.mulAdd b m carry) buffer

/-- Every digit that is read finds room. What is not a digit ends the reading. -/
def hasRoom {α : Type} (b m : ℕ) (digit : α → Option ℕ) : Buffer → List α → Bool
  | _, [] => true
  | buffer, c :: numeral =>
    match digit c with
    | none => true
    | some carry =>
      match buffer.mulAdd b m carry with
      | none => false
      | some next => hasRoom b m digit next numeral

/-- The digits in use, most significant first and without leading zeros. -/
def significant (buffer : Buffer) : List ℕ :=
  (buffer.digits.take buffer.length).reverse.dropWhile (· = 0)

/-- The buffer holds `v` in base `b`. -/
structure Holds (b : ℕ) (buffer : Buffer) (v : ℕ) : Prop where
  lt : ∀ d ∈ buffer.digits, d < b
  value : Nat.ofDigits b buffer.digits = v
  untouched : ∀ d ∈ buffer.digits.drop buffer.length, d = 0

variable {b m v : ℕ} {buffer next : Buffer}

theorem ofDigits_of_zero {digits : List ℕ} (h : ∀ d ∈ digits, d = 0) :
    Nat.ofDigits b digits = 0 := by
  rw [List.eq_replicate_of_mem h, Nat.ofDigits_replicate_zero]

theorem holds_zero (hb : 0 < b) (size : ℕ) : (zero size).Holds b 0 where
  lt d hd := by
    rw [List.eq_of_mem_replicate hd]
    exact hb
  value := Nat.ofDigits_replicate_zero
  untouched d hd := List.eq_of_mem_replicate (List.mem_of_mem_drop hd)

/-! ### One digit -/

theorem Holds.tail {digit length : ℕ} {digits : List ℕ} (h : Holds b ⟨digit :: digits, length⟩ v) :
    Holds b ⟨digits, length - 1⟩ (Nat.ofDigits b digits) where
  lt d hd := h.lt d (List.mem_cons_of_mem _ hd)
  value := rfl
  untouched d hd := by
    cases length with
    | zero => exact h.untouched d (List.mem_cons_of_mem _ hd)
    | succ length => exact h.untouched d hd

theorem Holds.cons {digit : ℕ} (h : Holds b buffer v) (hdigit : digit < b) :
    Holds b ⟨digit :: buffer.digits, buffer.length + 1⟩ (digit + b * v) where
  lt := List.forall_mem_cons.mpr ⟨hdigit, h.lt⟩
  value := by rw [Nat.ofDigits_cons, h.value]
  untouched := h.untouched

/-- The low digit of `m * v + carry` is split off, and the rest is a new carry for the digits
above. -/
theorem mulAdd_split (hb : 0 < b) (digit rest carry : ℕ) :
    (m * (digit + b * rest) + carry) % b = (carry + m * digit) % b ∧
      (m * (digit + b * rest) + carry) / b = m * rest + (carry + m * digit) / b := by
  have hsplit : m * (digit + b * rest) + carry = (carry + m * digit) + b * (m * rest) := by ring
  rw [hsplit, Nat.add_mul_mod_self_left, Nat.add_mul_div_left _ _ hb, Nat.add_comm (m * rest)]
  exact ⟨rfl, rfl⟩

theorem Holds.mulAdd (h : Holds b buffer v) (hb : 0 < b) {carry : ℕ}
    (hnext : buffer.mulAdd b m carry = some next) :
    next.Holds b (m * v + carry) ∧ next.digits.length = buffer.digits.length := by
  obtain ⟨digits, length⟩ := buffer
  simp only [Buffer.mulAdd] at hnext ⊢
  induction digits generalizing length carry v next with
  | nil =>
    obtain rfl : v = 0 := h.value.symm
    obtain ⟨rfl, hnext⟩ := Option.ite_none_right_eq_some.mp hnext
    cases hnext
    exact ⟨⟨by simp, rfl, by simp⟩, rfl⟩
  | cons digit digits ih =>
    obtain rfl : digit + b * Nat.ofDigits b digits = v := h.value
    rw [carryLoop] at hnext
    by_cases hgoes : carry ≠ 0 ∨ 0 < length
    · rw [if_pos hgoes] at hnext
      obtain ⟨rest, hloop, rfl⟩ := Option.map_eq_some_iff.mp hnext
      obtain ⟨hholds, hlength⟩ := ih (length - 1) h.tail hloop
      obtain ⟨hmod, hdiv⟩ := mulAdd_split (m := m) hb digit (Nat.ofDigits b digits) carry
      have hcons := hholds.cons (Nat.mod_lt (carry + m * digit) hb)
      rw [← hdiv, ← hmod, Nat.mod_add_div, hmod] at hcons
      exact ⟨hcons, by simp [hlength]⟩
    · rw [if_neg hgoes] at hnext
      cases hnext
      obtain ⟨rfl, rfl⟩ : carry = 0 ∧ length = 0 := by omega
      have hzero : digit + b * Nat.ofDigits b digits = 0 :=
        h.value.symm.trans (ofDigits_of_zero h.untouched)
      rw [hzero] at h ⊢
      exact ⟨h, rfl⟩

theorem Holds.isSome_mulAdd (h : Holds b buffer v) (hb : 0 < b) {carry : ℕ}
    (hfits : m * v + carry < b ^ buffer.digits.length) : (buffer.mulAdd b m carry).isSome := by
  obtain ⟨digits, length⟩ := buffer
  simp only [Buffer.mulAdd] at hfits ⊢
  induction digits generalizing length carry v with
  | nil =>
    obtain rfl : carry = 0 := by
      simp only [List.length_nil, pow_zero] at hfits
      omega
    rfl
  | cons digit digits ih =>
    obtain rfl : digit + b * Nat.ofDigits b digits = v := h.value
    rw [carryLoop]
    split_ifs with hgoes
    · rw [Option.isSome_map]
      apply ih (length - 1) h.tail
      rw [← (mulAdd_split hb digit _ carry).2]
      apply Nat.div_lt_of_lt_mul
      rwa [← Nat.pow_succ']
    · rfl

/-! ### A numeral -/

section Read

variable {α : Type} {digit : α → Option ℕ} {numeral : List α}

theorem read_cons (c : α) : buffer.read b m digit (c :: numeral) =
    (digit c).bind fun d => (buffer.mulAdd b m d).bind fun next => next.read b m digit numeral := by
  cases hdigit : digit c with
  | none => simp [read, hdigit]
  | some d => simp [read, hdigit]

theorem value_cons (d : ℕ) (ds : List ℕ) :
    v * m ^ (d :: ds).length + Nat.ofDigits m (d :: ds).reverse =
    (m * v + d) * m ^ ds.length + Nat.ofDigits m ds.reverse := by
  rw [List.reverse_cons, Nat.ofDigits_append, Nat.ofDigits_singleton, List.length_reverse,
    List.length_cons]
  ring

theorem Holds.read (h : Holds b buffer v) (hb : 0 < b)
    (hread : buffer.read b m digit numeral = some next) :
    ∃ ds, numeral.mapM digit = some ds ∧
      next.Holds b (v * m ^ ds.length + Nat.ofDigits m ds.reverse) := by
  induction numeral generalizing buffer v with
  | nil =>
    cases hread
    exact ⟨[], rfl, by simpa using h⟩
  | cons c numeral ih =>
    rw [read_cons] at hread
    obtain ⟨d, hd, hread⟩ := Option.bind_eq_some_iff.mp hread
    obtain ⟨first, hfirst, hread⟩ := Option.bind_eq_some_iff.mp hread
    obtain ⟨ds, hds, hholds⟩ := ih (h.mulAdd hb hfirst).1 hread
    refine ⟨d :: ds, by simp [List.mapM_cons, hd, hds], ?_⟩
    rwa [value_cons]

/-- There is room in a buffer that is large enough for all numerals of that length. -/
theorem Holds.hasRoom (h : Holds b buffer v) (hb : 0 < b) (hdigit : ∀ c d, digit c = some d → d < m)
    (hfits : (v + 1) * m ^ numeral.length ≤ b ^ buffer.digits.length) :
    buffer.hasRoom b m digit numeral := by
  induction numeral generalizing buffer v with
  | nil => rfl
  | cons c numeral ih =>
    cases hd : digit c with
    | none => simp [Buffer.hasRoom, hd]
    | some d =>
      have hlt := hdigit c d hd
      have hnext : (m * v + d + 1) * m ^ numeral.length ≤ b ^ buffer.digits.length :=
        calc (m * v + d + 1) * m ^ numeral.length ≤ (m * v + m) * m ^ numeral.length := by
              apply Nat.mul_le_mul_right
              omega
          _ = (v + 1) * m ^ (c :: numeral).length := by
              rw [List.length_cons]
              ring
          _ ≤ b ^ buffer.digits.length := hfits
      have hfirst : m * v + d < b ^ buffer.digits.length :=
        calc m * v + d < m * v + d + 1 := Nat.lt_succ_self _
          _ ≤ (m * v + d + 1) * m ^ numeral.length :=
            Nat.le_mul_of_pos_right _ (Nat.pow_pos (by omega))
          _ ≤ b ^ buffer.digits.length := hnext
      obtain ⟨first, hmulAdd⟩ := Option.isSome_iff_exists.mp (h.isSome_mulAdd hb hfirst)
      obtain ⟨hholds, hlength⟩ := h.mulAdd hb hmulAdd
      simp only [Buffer.hasRoom, hd, hmulAdd]
      exact ih hholds (by rwa [hlength])

theorem isSome_read_of_hasRoom (h : buffer.hasRoom b m digit numeral) {ds : List ℕ}
    (hds : numeral.mapM digit = some ds) : (buffer.read b m digit numeral).isSome := by
  induction numeral generalizing buffer ds with
  | nil => rfl
  | cons c numeral ih =>
    simp only [List.mapM_cons, Option.bind_eq_bind, Option.bind_eq_some_iff] at hds
    obtain ⟨d, hd, rest, hrest, -⟩ := hds
    simp only [Buffer.hasRoom, hd] at h
    rw [read_cons, hd, Option.bind_some]
    cases hmulAdd : buffer.mulAdd b m d with
    | none => simp [hmulAdd] at h
    | some next =>
      rw [hmulAdd] at h
      exact ih h hrest

end Read

/-! ### Without leading zeros -/

theorem dropWhile_reverse_eq_digits (hb : 1 < b) {digits : List ℕ} (hlt : ∀ d ∈ digits, d < b) :
    digits.reverse.dropWhile (· = 0) = (Nat.digits b (Nat.ofDigits b digits)).reverse := by
  induction digits using List.reverseRecOn with
  | nil => simp
  | append_singleton digits digit ih =>
    rw [List.reverse_append, List.reverse_singleton, List.singleton_append]
    by_cases hdigit : digit = 0
    · have hvalue : Nat.ofDigits b (digits ++ [digit]) = Nat.ofDigits b digits := by
        rw [hdigit, Nat.ofDigits_append, Nat.ofDigits_singleton, Nat.mul_zero, Nat.add_zero]
      rw [List.dropWhile_cons_of_pos (by simpa using hdigit), hvalue]
      exact ih fun d hd => hlt d (List.mem_append_left _ hd)
    · rw [List.dropWhile_cons_of_neg (by simpa using hdigit), Nat.digits_ofDigits b hb _ hlt
        (by simpa using hdigit), List.reverse_append, List.reverse_singleton,
        List.singleton_append]

theorem Holds.significant (hb : 1 < b) (h : Holds b buffer v) :
    buffer.significant = (Nat.digits b v).reverse := by
  have hvalue : Nat.ofDigits b (buffer.digits.take buffer.length) = v := by
    have hsplit := h.value
    rw [← List.take_append_drop buffer.length buffer.digits, Nat.ofDigits_append,
      ofDigits_of_zero h.untouched, Nat.mul_zero, Nat.add_zero] at hsplit
    exact hsplit
  have hdrop := dropWhile_reverse_eq_digits hb fun d hd =>
    h.lt d (List.mem_of_mem_take (i := buffer.length) hd)
  rwa [hvalue] at hdrop

end Buffer

/-! ### From one base to another -/

open Buffer

section Convert

variable {α : Type} {b m size : ℕ} {digit : α → Option ℕ} {numeral : List α} {ds : List ℕ}

/-- What is read into a new buffer is written there in base `b`. -/
theorem significant_of_read (hb : 1 < b) {buffer : Buffer}
    (hread : (zero size).read b m digit numeral = some buffer) :
    ∃ ds, numeral.mapM digit = some ds ∧
      buffer.significant = (Nat.digits b (Nat.ofDigits m ds.reverse)).reverse := by
  obtain ⟨ds, hds, hholds⟩ := (holds_zero (by omega) size).read (by omega) hread
  refine ⟨ds, hds, ?_⟩
  rw [hholds.significant hb, Nat.zero_mul, Nat.zero_add]

theorem hasRoom_zero (hb : 0 < b) (hdigit : ∀ c d, digit c = some d → d < m)
    (hfits : m ^ numeral.length ≤ b ^ size) : (zero size).hasRoom b m digit numeral :=
  (holds_zero hb size).hasRoom hb hdigit (by simpa [zero] using hfits)

theorem exists_read (hb : 1 < b) (hdigit : ∀ c d, digit c = some d → d < m)
    (hds : numeral.mapM digit = some ds) (hfits : m ^ numeral.length ≤ b ^ size) :
    ∃ buffer, (zero size).read b m digit numeral = some buffer ∧
      buffer.significant = (Nat.digits b (Nat.ofDigits m ds.reverse)).reverse := by
  have hroom := hasRoom_zero (by omega) hdigit hfits
  obtain ⟨buffer, hread⟩ := Option.isSome_iff_exists.mp (isSome_read_of_hasRoom hroom hds)
  obtain ⟨ds', hds', hsignificant⟩ := significant_of_read hb hread
  cases hds.symm.trans hds'
  exact ⟨buffer, hread, hsignificant⟩

theorem digits_of_numeral (hm : 1 < m) (hlt : ∀ d ∈ ds, d < m) (hhead : ds.head? ≠ some 0) :
    (Nat.digits m (Nat.ofDigits m ds.reverse)).reverse = ds := by
  rw [Nat.digits_ofDigits m hm _ (by simpa using hlt), List.reverse_reverse]
  intro hne
  rw [List.getLast_reverse]
  intro hzero
  rw [List.head?_eq_some_head (by simpa using hne)] at hhead
  exact hhead (congrArg some hzero)

theorem head?_digits_ne_zero (b v : ℕ) : (Nat.digits b v).reverse.head? ≠ some 0 := by
  rw [List.head?_reverse]
  intro hlast
  have hv : v ≠ 0 := by
    rintro rfl
    simp at hlast
  have hne : Nat.digits b v ≠ [] := Nat.digits_ne_nil_iff_ne_zero.mpr hv
  rw [List.getLast?_eq_some_getLast hne] at hlast
  exact Nat.getLast_digit_ne_zero b hv (Option.some.inj hlast)

/-- Numerals of `n` digits fit into a proportional number of digits, and one more. -/
theorem pow_le_pow_size {p q : ℕ} (hb : 0 < b) (hq : 0 < q) (h : m ^ q ≤ b ^ p) (n : ℕ) :
    m ^ n ≤ b ^ (n * p / q + 1) := by
  apply (Nat.pow_le_pow_iff_left hq.ne').mp
  calc (m ^ n) ^ q = (m ^ q) ^ n := by rw [← pow_mul, ← pow_mul, mul_comm]
    _ ≤ (b ^ p) ^ n := Nat.pow_le_pow_left h n
    _ = b ^ (n * p) := by rw [← pow_mul, mul_comm]
    _ ≤ b ^ (q * (n * p / q + 1)) := Nat.pow_le_pow_right hb (Nat.lt_mul_div_succ _ hq).le
    _ = (b ^ (n * p / q + 1)) ^ q := by rw [← pow_mul, mul_comm]

end Convert

end Radix
