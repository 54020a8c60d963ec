import NexusPool.Hash.Arithmetic
import NexusPool.Mining.BlockHash

/-!
# Integers as text

`GetHex` writes two digits for a byte, the most significant byte first. `SetHex` skips white space
and a mark, finds the first character that is no digit, and reads from there back to the front: of
more digits than there is room for, the front ones are left out.
-/

namespace NexusPool

open Base58 (isSpace cString)

namespace HexText

/-! ### Characters -/

def phexdigit : Bytes := [
  0,0,0,0,0,0,0,0,0,0,0,0,0,0,0,0, 0,0,0,0,0,0,0,0,0,0,0,0,0,0,0,0,
  0,0,0,0,0,0,0,0,0,0,0,0,0,0,0,0, 0,1,2,3,4,5,6,7,8,9,0,0,0,0,0,0,
  0,0xa,0xb,0xc,0xd,0xe,0xf,0,0,0,0,0,0,0,0,0, 0,0,0,0,0,0,0,0,0,0,0,0,0,0,0,0,
  0,0xa,0xb,0xc,0xd,0xe,0xf,0,0,0,0,0,0,0,0,0]

/-- The rest of the table is zero. -/
def digit (c : UInt8) : UInt8 := phexdigit.getD c.toNat 0

/-- The character `'0'`, a digit whose value is zero. -/
def zero : UInt8 := 48

def isHexDigit (c : UInt8) : Bool := digit c ≠ 0 || c = zero

def toLower (c : UInt8) : UInt8 := if 65 ≤ c ∧ c ≤ 90 then c + 32 else c

def isMark (c c' : UInt8) : Bool := c = zero && toLower c' = 120

def hexChars : Bytes := "0123456789abcdef".toList.map fun c => UInt8.ofNat c.toNat

/-- A byte as `%02x` prints it. -/
def byteHex (byte : UInt8) : Bytes :=
  [hexChars.getD (byte.toNat / 16) 0, hexChars.getD (byte.toNat % 16) 0]

/-! ### Reading -/

def skipMark : Bytes → Bytes
  | c :: c' :: psz => if isMark c c' then psz else c :: c' :: psz
  | psz => psz

/-- The digits from `pbegin` to `psz`. -/
def hexDigits (psz : Bytes) : Bytes := (skipMark (psz.dropWhile isSpace)).takeWhile isHexDigit

/-- The digits, from the last one on, into the memory from `p1` on. -/
def fill : Bytes → Bytes → Bytes
  | _ :: memory, [c] => digit c :: memory
  | _ :: memory, c :: c' :: digits => (digit c ||| (digit c' <<< 4)) :: fill memory digits
  | memory, _ => memory

end HexText

open HexText

namespace BaseUint

variable {w : ℕ}

def getHex (a : BaseUint w) : Bytes := a.memory.reverse.flatMap byteHex

/-- The memory is that of the integer, which was set to zero, and has its size throughout. -/
def setHex (w : ℕ) (psz : Bytes) : Option (BaseUint w) :=
  ofMemory w (fill (0 : BaseUint w).memory (hexDigits psz).reverse)

end BaseUint

namespace HexText

/-- What a row of digits stands for, the last one first. -/
def number (digits : Bytes) : ℕ := Nat.ofDigits 16 (digits.map fun c => (digit c).toNat)

/-! ### The digits of a text -/

/-- A text whose digits are these: white space, with a mark or without, and then digits up to the
first character that is none. -/
inductive Reads : Bytes → Bytes → Prop
  | plain {blanks digits rest : Bytes} (hblanks : ∀ c ∈ blanks, isSpace c)
      (hspace : ∀ c ∈ (digits ++ rest).head?, ¬ isSpace c)
      (hmark : skipMark (digits ++ rest) = digits ++ rest)
      (hdigits : ∀ c ∈ digits, isHexDigit c) (hrest : ∀ c ∈ rest.head?, ¬ isHexDigit c) :
      Reads (blanks ++ (digits ++ rest)) digits
  | marked {blanks digits rest : Bytes} {x : UInt8} (hblanks : ∀ c ∈ blanks, isSpace c)
      (hmark : isMark zero x) (hdigits : ∀ c ∈ digits, isHexDigit c)
      (hrest : ∀ c ∈ rest.head?, ¬ isHexDigit c) :
      Reads (blanks ++ (zero :: x :: (digits ++ rest))) digits

section Scan

variable {p : UInt8 → Bool} {front rest : Bytes}

theorem dropWhile_front (hfront : ∀ c ∈ front, p c) (hrest : ∀ c ∈ rest.head?, ¬ p c) :
    (front ++ rest).dropWhile p = rest := by
  rw [List.dropWhile_append_of_pos hfront]
  cases rest with
  | nil => rfl
  | cons c rest => exact List.dropWhile_cons_of_neg (hrest c rfl)

theorem takeWhile_front (hfront : ∀ c ∈ front, p c) (hrest : ∀ c ∈ rest.head?, ¬ p c) :
    (front ++ rest).takeWhile p = front := by
  rw [List.takeWhile_append_of_pos hfront]
  cases rest with
  | nil => simp
  | cons c rest => rw [List.takeWhile_cons_of_neg (hrest c rfl), List.append_nil]

theorem head?_dropWhile_neg (s : Bytes) : ∀ c ∈ (s.dropWhile p).head?, ¬ p c := by
  intro c hc
  have hnot := List.head?_dropWhile_not p s
  rw [Option.mem_def.mp hc] at hnot
  simpa using hnot

end Scan

theorem skipMark_cases (psz : Bytes) :
    skipMark psz = psz ∨ ∃ x rest, isMark zero x ∧ psz = zero :: x :: rest ∧
      skipMark psz = rest := by
  rcases psz with _ | ⟨c, _ | ⟨c', psz⟩⟩
  · exact .inl rfl
  · exact .inl rfl
  · rw [skipMark]
    split_ifs with hmark
    · obtain rfl : c = zero := by
        simp only [isMark, Bool.and_eq_true, decide_eq_true_eq] at hmark
        exact hmark.1
      exact .inr ⟨c', psz, hmark, rfl, rfl⟩
    · exact .inl rfl

/-- Every text has digits, and no others than those that are found. -/
theorem reads_iff {psz digits : Bytes} : Reads psz digits ↔ hexDigits psz = digits := by
  constructor
  · rintro (⟨hblanks, hspace, hmark, hdigits, hrest⟩ | ⟨hblanks, hmark, hdigits, hrest⟩)
    · rw [hexDigits, dropWhile_front hblanks hspace, hmark, takeWhile_front hdigits hrest]
    · have hzero : ∀ (s : Bytes), ∀ c ∈ (zero :: s).head?, ¬ isSpace c := by
        rintro s _ ⟨⟩
        decide
      rw [hexDigits, dropWhile_front hblanks (hzero _), skipMark, if_pos hmark,
        takeWhile_front hdigits hrest]
  · rintro rfl
    have hblanks : ∀ c ∈ psz.takeWhile isSpace, isSpace c := fun c hc => List.mem_takeWhile_imp hc
    have hspace := head?_dropWhile_neg psz (p := isSpace)
    have hdigits : ∀ c ∈ hexDigits psz, isHexDigit c := fun c hc => List.mem_takeWhile_imp hc
    have hrest := head?_dropWhile_neg (skipMark (psz.dropWhile isSpace)) (p := isHexDigit)
    have hsplit : hexDigits psz ++ (skipMark (psz.dropWhile isSpace)).dropWhile isHexDigit =
        skipMark (psz.dropWhile isSpace) := List.takeWhile_append_dropWhile
    rcases skipMark_cases (psz.dropWhile isSpace) with hmark | ⟨x, rest, hx, hmarked, hmark⟩
    · rw [← hmark, ← hsplit] at hspace
      have hreads := Reads.plain hblanks hspace (by rw [hsplit, hmark, hmark]) hdigits hrest
      rwa [hsplit, hmark, List.takeWhile_append_dropWhile] at hreads
    · have hreads := Reads.marked hblanks hx hdigits hrest
      rwa [hsplit, hmark, ← hmarked, List.takeWhile_append_dropWhile] at hreads

/-! ### The value of a text -/

theorem digit_lt (c : UInt8) : (digit c).toNat < 16 := by
  have hall : ∀ n < 256, (digit (UInt8.ofNat n)).toNat < 16 := by decide +kernel
  have hc := hall c.toNat c.toNat_lt
  rwa [UInt8.ofNat_toNat] at hc

theorem toNat_pair (c c' : UInt8) :
    (digit c ||| (digit c' <<< 4)).toNat = (digit c).toNat + 16 * (digit c').toNat := by
  have hall : ∀ d < 16, ∀ d' < 16,
      (UInt8.ofNat d ||| (UInt8.ofNat d' <<< 4)).toNat = d + 16 * d' := by decide +kernel
  have hpair := hall _ (digit_lt c) _ (digit_lt c')
  rwa [UInt8.ofNat_toNat, UInt8.ofNat_toNat] at hpair

theorem fill_nil (memory : Bytes) : fill memory [] = memory := by cases memory <;> rfl

theorem length_fill : ∀ memory digits : Bytes, (fill memory digits).length = memory.length
  | _ :: memory, [c] => rfl
  | _ :: memory, c :: c' :: digits => by
    rw [fill, List.length_cons, length_fill memory digits, List.length_cons]
  | [], _ => by simp [fill]
  | _ :: _, [] => rfl

def valueOf (memory : Bytes) : ℕ := Nat.ofDigits 256 (memory.map UInt8.toNat)

theorem valueOf_cons (byte : UInt8) (memory : Bytes) :
    valueOf (byte :: memory) = byte.toNat + 256 * valueOf memory := by
  rw [valueOf, List.map_cons, Nat.ofDigits_cons, valueOf]

theorem number_cons (c : UInt8) (digits : Bytes) :
    number (c :: digits) = (digit c).toNat + 16 * number digits := by
  rw [number, List.map_cons, Nat.ofDigits_cons, number]

theorem valueOf_zeros (n : ℕ) : valueOf (List.replicate n 0) = 0 := by
  simp [valueOf, Nat.ofDigits_replicate_zero]

/-- Digits that find no room do not count. -/
theorem valueOf_fill : ∀ (n : ℕ) (digits : Bytes),
    valueOf (fill (List.replicate n 0) digits) = number digits % 256 ^ n
  | 0, digits => by simp [fill, valueOf, Nat.mod_one]
  | n + 1, [] => by
    rw [fill_nil, valueOf_zeros]
    exact (Nat.zero_mod _).symm
  | n + 1, [c] => by
    have hc := digit_lt c
    have hfits : number [c] < 256 ^ (n + 1) := by
      calc number [c] = (digit c).toNat := by simp [number]
        _ < 256 := by omega
        _ ≤ 256 ^ (n + 1) := Nat.le_self_pow (by omega) 256
    rw [List.replicate_succ, fill, valueOf_cons, valueOf_zeros, Nat.mod_eq_of_lt hfits]
    simp [number]
  | n + 1, c :: c' :: digits => by
    have hc := digit_lt c
    have hc' := digit_lt c'
    have hnumber : number (c :: c' :: digits) =
        ((digit c).toNat + 16 * (digit c').toNat) + 256 * number digits := by
      rw [number_cons, number_cons]
      ring
    have hlow : ((digit c).toNat + 16 * (digit c').toNat) % 256 =
        (digit c).toNat + 16 * (digit c').toNat := Nat.mod_eq_of_lt (by omega)
    have hhigh : ((digit c).toNat + 16 * (digit c').toNat) / 256 = 0 := Nat.div_eq_of_lt (by omega)
    rw [List.replicate_succ, fill, valueOf_cons, valueOf_fill n digits, toNat_pair, hnumber,
      pow_succ', Nat.mod_mul, Nat.add_mul_mod_self_left, Nat.add_mul_div_left _ _ (by omega), hlow,
      hhigh, Nat.zero_add]

/-! ### Digits as they are written -/

theorem digit_hexChar : ∀ d < 16, digit (hexChars.getD d 0) = UInt8.ofNat d ∧
    hexChars.getD d 0 ∈ hexChars := by decide +kernel

theorem hexChars_props : ∀ c ∈ hexChars, isHexDigit c ∧ hexChars.getD (digit c).toNat 0 = c := by
  decide +kernel

theorem isHexDigit_props {c : UInt8} (h : isHexDigit c) :
    c ≠ 0 ∧ isSpace c = false ∧ toLower c ≠ 120 := by
  have hall : ∀ n < 256, isHexDigit (UInt8.ofNat n) →
      UInt8.ofNat n ≠ 0 ∧ isSpace (UInt8.ofNat n) = false ∧ toLower (UInt8.ofNat n) ≠ 120 := by
    decide +kernel
  have hc := hall c.toNat c.toNat_lt
  rw [UInt8.ofNat_toNat] at hc
  exact hc h

/-- A text of digits alone is read as a whole. -/
theorem hexDigits_of_digits {s : Bytes} (h : ∀ c ∈ s, isHexDigit c) :
    cString s = s ∧ hexDigits s = s := by
  have hnot : skipMark s = s := by
    rcases skipMark_cases s with hmark | ⟨x, rest, hx, rfl, -⟩
    · exact hmark
    · have hdigit := (isHexDigit_props (h x (by simp))).2.2
      simp [isMark, hdigit] at hx
  have hspace : ∀ c ∈ (s ++ []).head?, ¬ isSpace c := by
    intro c hc
    rw [List.append_nil] at hc
    simp [(isHexDigit_props (h c (List.mem_of_mem_head? hc))).2.1]
  have hreads : Reads ([] ++ (s ++ [])) s :=
    .plain (by simp) hspace (by rwa [List.append_nil]) h (by simp)
  rw [List.nil_append, List.append_nil] at hreads
  exact ⟨Base58.cString_of_ne_zero fun c hc => (isHexDigit_props (h c hc)).1, reads_iff.mp hreads⟩

/-- The text of an integer of `w` words: two digits a byte, in lower case. -/
structure IsHexText (w : ℕ) (s : Bytes) : Prop where
  length : s.length = 8 * w
  lower : ∀ c ∈ s, c ∈ hexChars

theorem byteHex_props (byte : UInt8) : (∀ c ∈ byteHex byte, c ∈ hexChars) ∧
    ∀ digits, number ((byteHex byte).reverse ++ digits) = byte.toNat + 256 * number digits := by
  have hbyte := byte.toNat_lt
  obtain ⟨hhigh, hhighMem⟩ := digit_hexChar (byte.toNat / 16) (by omega)
  obtain ⟨hlow, hlowMem⟩ := digit_hexChar (byte.toNat % 16) (by omega)
  constructor
  · rintro c hc
    rcases List.mem_cons.mp hc with rfl | hc
    · exact hhighMem
    · rw [List.mem_singleton.mp hc]
      exact hlowMem
  · intro digits
    simp only [byteHex, List.reverse_cons, List.reverse_nil, List.nil_append, List.cons_append,
      number_cons, hhigh, hlow]
    have hnibble : ∀ d < 16, (UInt8.ofNat d).toNat = d := by decide
    rw [hnibble _ (by omega), hnibble _ (by omega)]
    omega

theorem number_memory (memory : Bytes) :
    number (memory.reverse.flatMap byteHex).reverse = valueOf memory := by
  rw [List.reverse_flatMap, List.reverse_reverse]
  induction memory with
  | nil => rfl
  | cons byte memory ih =>
    rw [List.flatMap_cons, Function.comp_apply, (byteHex_props byte).2, ih, valueOf_cons]

/-- Texts of one length are equal if they stand for one number. -/
theorem eq_of_number {w : ℕ} {s t : Bytes} (hs : IsHexText w s) (ht : IsHexText w t)
    (h : number s.reverse = number t.reverse) : s = t := by
  have hlt : ∀ s : Bytes, ∀ d ∈ s.map fun c => (digit c).toNat, d < 16 := by
    rintro s _ hd
    obtain ⟨c, -, rfl⟩ := List.mem_map.mp hd
    exact digit_lt c
  have hdigits := Nat.ofDigits_inj_of_len_eq (by omega) (by simp [hs.length, ht.length])
    (hlt s.reverse) (hlt t.reverse) h
  have hchars : ∀ {s : Bytes}, IsHexText w s →
      (s.reverse.map fun c => (digit c).toNat).map (fun d => hexChars.getD d 0) = s.reverse := by
    intro s hs
    rw [List.map_map]
    conv_rhs => rw [← List.map_id s.reverse]
    apply List.map_congr_left
    intro c hc
    exact (hexChars_props c (hs.lower c (List.mem_reverse.mp hc))).2
  apply List.reverse_injective
  rw [← hchars hs, ← hchars ht, hdigits]

end HexText

namespace BaseUint

variable {w : ℕ}

theorem valueOf_memoryOfWord (word : UInt32) (rest : Bytes) :
    valueOf (memoryOfWord word ++ rest) = word.toNat + 2 ^ 32 * valueOf rest := by
  have hword := word.toNat_lt
  simp only [memoryOfWord, uint2bytes, List.reverse_cons, List.reverse_nil, List.nil_append,
    List.cons_append, valueOf_cons, UInt32.toNat_toUInt8, UInt32.toNat_shiftRight,
    UInt32.reduceToNat, Nat.reduceMod, Nat.shiftRight_eq_div_pow]
  omega

theorem valueOf_memory (a : BaseUint w) : valueOf a.memory = a.toNat := by
  change valueOf (a.pn.flatMap memoryOfWord) = Nat.ofDigits (2 ^ 32) (a.pn.map UInt32.toNat)
  induction a.pn with
  | nil => rfl
  | cons word words ih =>
    rw [List.flatMap_cons, valueOf_memoryOfWord, ih, List.map_cons, Nat.ofDigits_cons]

theorem memory_zero : (0 : BaseUint w).memory = List.replicate (4 * w) 0 := by
  apply List.eq_replicate_iff.mpr
  refine ⟨length_memory 0, fun byte hbyte => ?_⟩
  obtain ⟨word, hword, hbyte⟩ := List.mem_flatMap.mp hbyte
  rw [List.eq_of_mem_replicate hword] at hbyte
  simpa [uint2bytes] using hbyte

theorem isHexText_getHex (a : BaseUint w) : IsHexText w a.getHex where
  length := by
    have hbyte : ∀ byte, (byteHex byte).length = 2 := fun _ => rfl
    simp [getHex, List.length_flatMap, hbyte]
    ring
  lower c hc := by
    obtain ⟨byte, -, hc⟩ := List.mem_flatMap.mp hc
    exact (byteHex_props byte).1 c hc

theorem number_getHex (a : BaseUint w) : number a.getHex.reverse = a.toNat := by
  rw [getHex, number_memory, valueOf_memory]

theorem setHex_of_reads {psz digits : Bytes} (h : Reads psz digits) :
    ∃ a, setHex w psz = some a ∧ a.toNat = number digits.reverse % 2 ^ (32 * w) := by
  have hlength : (fill (0 : BaseUint w).memory (hexDigits psz).reverse).length = 4 * w := by
    rw [length_fill, length_memory]
  obtain ⟨a, ha, hmemory⟩ := ofMemory_of_length hlength
  refine ⟨a, ha, ?_⟩
  rw [← valueOf_memory, hmemory, memory_zero, valueOf_fill, reads_iff.mp h]
  congr 1
  rw [show 256 = 2 ^ 8 from rfl, ← pow_mul]
  congr 1
  ring

/-- Every text is read, as its digits modulo the width, the text of an integer is read as the
integer, and is the only one of its length in lower case. -/
theorem hexText_inverse (w : ℕ) :
    (∀ psz, ∃ digits, Reads psz digits ∧ ∃ a : BaseUint w, setHex w psz = some a ∧
      a.toNat = number digits.reverse % 2 ^ (32 * w)) ∧
      (∀ a : BaseUint w, IsHexText w a.getHex ∧ setHex w (cString a.getHex) = some a) ∧
        ∀ s, IsHexText w s → ∃ a : BaseUint w, setHex w (cString s) = some a ∧ a.getHex = s := by
  have hread : ∀ s, IsHexText w s → ∃ a : BaseUint w, setHex w (cString s) = some a ∧
      a.toNat = number s.reverse % 2 ^ (32 * w) := by
    intro s hs
    obtain ⟨hcString, hdigits⟩ :=
      hexDigits_of_digits fun c hc => (hexChars_props c (hs.lower c hc)).1
    rw [hcString]
    exact setHex_of_reads (reads_iff.mpr hdigits)
  refine ⟨fun psz => ⟨_, reads_iff.mpr rfl, setHex_of_reads (reads_iff.mpr rfl)⟩, fun a => ?_,
    fun s hs => ?_⟩
  · refine ⟨a.isHexText_getHex, ?_⟩
    obtain ⟨b, hb, hvalue⟩ := hread a.getHex a.isHexText_getHex
    rw [number_getHex, Nat.mod_eq_of_lt a.toNat_lt] at hvalue
    rw [hb, toNat_injective hvalue]
  · obtain ⟨a, ha, hvalue⟩ := hread s hs
    refine ⟨a, ha, eq_of_number a.isHexText_getHex hs ?_⟩
    have hlength : (s.reverse.map fun c => (digit c).toNat).length = 8 * w := by
      simp [hs.length]
    have hlt : number s.reverse < 16 ^ (8 * w) := by
      rw [← hlength]
      apply Nat.ofDigits_lt_base_pow_length (by omega)
      intro d hd
      obtain ⟨c, -, rfl⟩ := List.mem_map.mp hd
      exact digit_lt c
    rw [number_getHex, hvalue, Nat.mod_eq_of_lt]
    calc number s.reverse < (2 ^ 4) ^ (8 * w) := hlt
      _ = 2 ^ (32 * w) := by rw [← pow_mul]; ring_nf

end BaseUint

end NexusPool
