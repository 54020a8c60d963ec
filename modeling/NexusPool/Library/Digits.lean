import Mathlib.Data.Nat.Bitwise
import Mathlib.Data.Nat.Digits.Lemmas
import Mathlib.Tactic

/-!
# Numbers with a fixed number of digits

Digits are least significant first. Numbers with as many digits each are compared from the top
digit down, the complement of the digits is the distance to the largest such number, and where the
base is a power of two the bits of the digits are the bits of the number.
-/

namespace Digits

variable {α : Type} {b : ℕ}

/-! ### Order -/

/-- From the top digit down, the first difference decides. -/
def scan (first : α → α → Bool) (equal : Bool) : List α → List α → Bool
  | x :: xs, y :: ys =>
    if first x y then true else if first y x then false else scan first equal xs ys
  | _, _ => equal

/-- The opposite order scans the operands the other way round. -/
theorem scan_flip (first : α → α → Bool) (equal : Bool) : ∀ xs ys : List α,
    scan (fun x y => first y x) equal xs ys = scan first equal ys xs
  | [], [] | [], _ :: _ | _ :: _, [] => by simp [scan]
  | x :: xs, y :: ys => by simp only [scan, scan_flip first equal xs ys]

/-- A larger top digit outweighs all digits below it. -/
theorem add_mul_lt {d e u v p : ℕ} (h : d < e) (hu : u < p) : u + p * d < v + p * e :=
  calc u + p * d < p + p * d := Nat.add_lt_add_right hu _
    _ = p * (d + 1) := by ring
    _ ≤ p * e := Nat.mul_le_mul_left p h
    _ ≤ v + p * e := Nat.le_add_left _ _

theorem ofDigits_lt (hb : 1 < b) {value : α → ℕ} (hvalue : ∀ x, value x < b) (xs : List α) :
    Nat.ofDigits b (xs.map value) < b ^ xs.length := by
  have hlt := Nat.ofDigits_lt_base_pow_length (l := xs.map value) hb (by
    intro d hd
    obtain ⟨x, -, rfl⟩ := List.mem_map.mp hd
    exact hvalue x)
  rwa [List.length_map] at hlt

/-- The scan compares the numbers. -/
theorem scan_iff (hb : 1 < b) {value : α → ℕ} (hvalue : ∀ x, value x < b) {first : α → α → Bool}
    (hfirst : ∀ x y, first x y = true ↔ value x < value y) (equal : Bool) : ∀ xs ys : List α,
    xs.length = ys.length → (scan first equal xs ys = true ↔
      Nat.ofDigits b (xs.map value).reverse < Nat.ofDigits b (ys.map value).reverse ∨
        equal = true ∧
          Nat.ofDigits b (xs.map value).reverse = Nat.ofDigits b (ys.map value).reverse)
  | [], [], _ => by simp [scan]
  | x :: xs, y :: ys, hlength => by
    have hlength : xs.length = ys.length := by simpa using hlength
    have ih := scan_iff hb hvalue hfirst equal xs ys hlength
    have hxs := ofDigits_lt hb hvalue xs.reverse
    have hys := ofDigits_lt hb hvalue ys.reverse
    rw [List.map_reverse, List.length_reverse] at hxs hys
    rw [← hlength] at hys
    simp only [List.map_cons, List.reverse_cons, Nat.ofDigits_append, Nat.ofDigits_singleton,
      List.length_reverse, List.length_map, ← hlength]
    rcases Nat.lt_trichotomy (value x) (value y) with hlt | heq | hlt
    · have hless := add_mul_lt (v := Nat.ofDigits b (ys.map value).reverse) hlt hxs
      simp [scan, (hfirst x y).mpr hlt, hless]
    · have hxy : ¬ first x y = true := by
        rw [hfirst]
        omega
      have hyx : ¬ first y x = true := by
        rw [hfirst]
        omega
      simp [scan, hxy, hyx, ih, heq]
    · have hxy : ¬ first x y = true := by
        rw [hfirst]
        omega
      have hless := add_mul_lt (v := Nat.ofDigits b (xs.map value).reverse) hlt hys
      simp [scan, hxy, (hfirst y x).mpr hlt, hless.not_gt, hless.ne']

/-! ### Complement -/

/-- A number and its complement have the largest digit everywhere. -/
theorem ofDigits_complement {ds : List ℕ} (h : ∀ d ∈ ds, d < b) :
    Nat.ofDigits b (ds.map (b - 1 - ·)) + Nat.ofDigits b ds + 1 = b ^ ds.length := by
  induction ds with
  | nil => rfl
  | cons d ds ih =>
    obtain ⟨hd, hds⟩ := List.forall_mem_cons.mp h
    rw [List.map_cons, Nat.ofDigits_cons, Nat.ofDigits_cons, List.length_cons, pow_succ', ← ih hds,
      Nat.mul_add, Nat.mul_add]
    omega

/-! ### Bits -/

theorem testBit_ofDigits {ds : List ℕ} (h : ∀ d ∈ ds, d < 2 ^ b) {i r : ℕ} (hr : r < b) :
    (Nat.ofDigits (2 ^ b) ds).testBit (b * i + r) = (ds.getD i 0).testBit r := by
  induction ds generalizing i with
  | nil => simp
  | cons d ds ih =>
    obtain ⟨hd, hds⟩ := List.forall_mem_cons.mp h
    rw [Nat.ofDigits_cons, Nat.add_comm, Nat.testBit_two_pow_mul_add _ hd]
    cases i with
    | zero => simp [hr]
    | succ i =>
      have hhigh : ¬ b * (i + 1) + r < b := by
        rw [Nat.mul_succ]
        omega
      have hrest : b * (i + 1) + r - b = b * i + r := by
        rw [Nat.mul_succ]
        omega
      rw [if_neg hhigh, hrest, ih hds, List.getD_cons_succ]

/-- A number below a power of two is known by its bits below. -/
theorem eq_of_testBit {u v n : ℕ} (hu : u < 2 ^ n) (hv : v < 2 ^ n)
    (h : ∀ i < n, u.testBit i = v.testBit i) : u = v := by
  apply Nat.eq_of_testBit_eq
  intro i
  by_cases hi : i < n
  · exact h i hi
  · have hle : 2 ^ n ≤ 2 ^ i := Nat.pow_le_pow_right (by omega) (by omega)
    rw [Nat.testBit_lt_two_pow (hu.trans_le hle), Nat.testBit_lt_two_pow (hv.trans_le hle)]

end Digits
