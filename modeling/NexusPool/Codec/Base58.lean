import Mathlib.Data.List.TakeWhile
import NexusPool.Hash.BaseUint
import NexusPool.Library.Radix

/-!
# Addresses of `base58.h`

A text in base 58 stands for a number with leading zeros, and so do the bytes it is decoded
into. The decoder works on a C string: it skips white space on both sides, and does not see
what follows a NUL. The address is the number less its last four bytes, which check the others.
-/

namespace NexusPool

open Radix

abbrev Uint256 := BaseUint 8

namespace Base58

/-! ### Characters -/

def pszBase58 : Bytes :=
  "123456789ABCDEFGHJKLMNPQRSTUVWXYZabcdefghijkmnopqrstuvwxyz".toList.map fun c =>
    UInt8.ofNat c.toNat

def mapBase58 : List ℤ := [
  -1,-1,-1,-1,-1,-1,-1,-1, -1,-1,-1,-1,-1,-1,-1,-1,
  -1,-1,-1,-1,-1,-1,-1,-1, -1,-1,-1,-1,-1,-1,-1,-1,
  -1,-1,-1,-1,-1,-1,-1,-1, -1,-1,-1,-1,-1,-1,-1,-1,
  -1, 0, 1, 2, 3, 4, 5, 6,  7, 8,-1,-1,-1,-1,-1,-1,
  -1, 9,10,11,12,13,14,15, 16,-1,17,18,19,20,21,-1,
  22,23,24,25,26,27,28,29, 30,31,32,-1,-1,-1,-1,-1,
  -1,33,34,35,36,37,38,39, 40,41,42,43,-1,44,45,46,
  47,48,49,50,51,52,53,54, 55,56,57,-1,-1,-1,-1,-1,
  -1,-1,-1,-1,-1,-1,-1,-1, -1,-1,-1,-1,-1,-1,-1,-1,
  -1,-1,-1,-1,-1,-1,-1,-1, -1,-1,-1,-1,-1,-1,-1,-1,
  -1,-1,-1,-1,-1,-1,-1,-1, -1,-1,-1,-1,-1,-1,-1,-1,
  -1,-1,-1,-1,-1,-1,-1,-1, -1,-1,-1,-1,-1,-1,-1,-1,
  -1,-1,-1,-1,-1,-1,-1,-1, -1,-1,-1,-1,-1,-1,-1,-1,
  -1,-1,-1,-1,-1,-1,-1,-1, -1,-1,-1,-1,-1,-1,-1,-1,
  -1,-1,-1,-1,-1,-1,-1,-1, -1,-1,-1,-1,-1,-1,-1,-1,
  -1,-1,-1,-1,-1,-1,-1,-1, -1,-1,-1,-1,-1,-1,-1,-1]

/-- The character `'1'`, the digit zero. -/
def one : UInt8 := 49

/-- Space, `\f`, `\n`, `\r`, `\t` and `\v`. -/
def isSpace (c : UInt8) : Bool := c = 32 || c = 12 || c = 10 || c = 13 || c = 9 || c = 11

/-- The digit of a character, `none` for one that is not of base 58. -/
def base58Digit (c : UInt8) : Option ℕ :=
  let carry := mapBase58.getD c.toNat (-1)
  if carry = -1 then none else some carry.toNat

def base58Char (digit : ℕ) : UInt8 := pszBase58.getD digit 0

theorem base58Char_of_base58Digit {c : UInt8} {digit : ℕ} (h : base58Digit c = some digit) :
    digit < 58 ∧ base58Char digit = c := by
  have hall : ∀ n < 256, ∀ digit ∈ base58Digit (UInt8.ofNat n),
      digit < 58 ∧ base58Char digit = UInt8.ofNat n := by decide +kernel
  have hc := hall c.toNat c.toNat_lt
  rw [UInt8.ofNat_toNat] at hc
  exact hc digit h

theorem base58Char_props : ∀ digit < 58, base58Char digit ∈ pszBase58 ∧
    isSpace (base58Char digit) = false ∧ base58Char digit ≠ 0 ∧
      base58Digit (base58Char digit) = some digit := by decide +kernel

theorem base58Char_zero : base58Char 0 = one := by decide

theorem isSpace_one : isSpace one = false := by decide

/-! ### Texts and bytes -/

/-- What `c_str` shows of a string: the bytes in front of the first NUL. -/
def cString (s : Bytes) : Bytes := s.takeWhile (· ≠ 0)

/-- A count in an `int`, which is undefined once it overflows. -/
def countInt (n : ℕ) : Option ℕ := if n < 2 ^ 31 then some n else none

/-- `std::vector<unsigned char>` of a size that was assigned to an `int`, where it wraps. A
negative size is more than a vector can hold. -/
def allocate (size : ℕ) : Option Buffer :=
  if size % 2 ^ 32 < 2 ^ 31 then some (.zero (size % 2 ^ 32)) else none

theorem allocate_of_lt {size : ℕ} (h : size < 2 ^ 31) : allocate size = some (.zero size) := by
  rw [allocate, Nat.mod_eq_of_lt (by omega), if_pos h]

/-- `none` where the code throws, or an assertion fails. -/
def encodeBase58 (vch : Bytes) : Option Bytes := do
  let zeroes ← countInt (vch.takeWhile (· = 0)).length
  let bytes := vch.dropWhile (· = 0)
  let b58 ← allocate (bytes.length * 138 / 100 + 1)
  let b58 ← b58.read 58 256 (fun byte => some byte.toNat) bytes
  return List.replicate zeroes one ++ b58.significant.map base58Char

/-- `none` where the text is refused as well. -/
def decodeBase58 (psz : Bytes) : Option Bytes := do
  let psz := psz.dropWhile isSpace
  let zeroes ← countInt (psz.takeWhile (· = one)).length
  let psz := psz.dropWhile (· = one)
  let b256 ← allocate (psz.length * 733 / 1000 + 1)
  let b256 ← b256.read 256 58 base58Digit (psz.takeWhile (!isSpace ·))
  -- trailing spaces, and nothing after them
  if ((psz.dropWhile (!isSpace ·)).dropWhile isSpace).isEmpty then
    return List.replicate zeroes 0 ++ b256.significant.map UInt8.ofNat
  else none

/-- The two counts that the encoder keeps in an `int`. -/
structure EncodeFits (vch : Bytes) : Prop where
  zeroes : (vch.takeWhile (· = 0)).length < 2 ^ 31
  size : (vch.dropWhile (· = 0)).length * 138 / 100 + 1 < 2 ^ 31

theorem EncodeFits.of_length_le {vch : Bytes} (h : vch.length ≤ 2 ^ 30) : EncodeFits vch := by
  have htake := (List.takeWhile_sublist (· = (0 : UInt8)) (l := vch)).length_le
  have hdrop := (List.dropWhile_sublist (· = (0 : UInt8)) (l := vch)).length_le
  exact ⟨by omega, by omega⟩

/-- The part of a text that the decoder reads. -/
def trimmed (psz : Bytes) : Bytes := (psz.dropWhile isSpace).takeWhile (!isSpace ·)

/-- A number with leading zeros, in base 256 and in base 58. -/
def bytesOf (zeroes v : ℕ) : Bytes :=
  List.replicate zeroes 0 ++ (Nat.digits 256 v).reverse.map UInt8.ofNat

def charsOf (zeroes v : ℕ) : Bytes :=
  List.replicate zeroes one ++ (Nat.digits 58 v).reverse.map base58Char

/-! ### Leading zeros -/

section Zeroes

variable {a : UInt8} {l : Bytes}

theorem takeWhile_eq_replicate :
    l.takeWhile (· = a) = List.replicate (l.takeWhile (· = a)).length a := by
  apply List.eq_replicate_of_mem
  intro c hc
  simpa using List.mem_takeWhile_imp hc

theorem head?_dropWhile_ne : (l.dropWhile (· = a)).head? ≠ some a := by
  intro h
  have hnot := List.head?_dropWhile_not (fun c => decide (c = a)) l
  rw [h] at hnot
  simp at hnot

theorem zeroes_append (n : ℕ) (h : l.head? ≠ some a) :
    (List.replicate n a ++ l).takeWhile (· = a) = List.replicate n a ∧
      (List.replicate n a ++ l).dropWhile (· = a) = l := by
  have hl : l.takeWhile (· = a) = [] ∧ l.dropWhile (· = a) = l := by
    cases l with
    | nil => exact ⟨rfl, rfl⟩
    | cons c l =>
      have hc : ¬ c = a := by simpa using h
      simp [hc]
  have hall : ∀ c ∈ List.replicate n a, decide (c = a) := by
    intro c hc
    simpa using List.eq_of_mem_replicate hc
  rw [List.takeWhile_append_of_pos hall, List.dropWhile_append_of_pos hall, hl.1, hl.2,
    List.append_nil]
  exact ⟨rfl, rfl⟩

end Zeroes

/-! ### Decoding and encoding -/

theorem map_base58Char {numeral : Bytes} {ds : List ℕ} (h : numeral.mapM base58Digit = some ds) :
    ds.map base58Char = numeral ∧ ∀ d ∈ ds, d < 58 := by
  induction numeral generalizing ds with
  | nil =>
    cases h
    simp
  | cons c numeral ih =>
    simp only [List.mapM_cons, Option.bind_eq_bind, Option.bind_eq_some_iff, Option.pure_def,
      Option.some.injEq] at h
    obtain ⟨d, hd, rest, hrest, rfl⟩ := h
    obtain ⟨hlt, hchar⟩ := base58Char_of_base58Digit hd
    obtain ⟨hmap, hall⟩ := ih hrest
    exact ⟨by rw [List.map_cons, hchar, hmap], List.forall_mem_cons.mpr ⟨hlt, hall⟩⟩

/-- What is decoded and what is read of the text are one number with one count of zeros. -/
theorem bytesOf_of_decodeBase58 {psz vch : Bytes} (h : decodeBase58 psz = some vch) :
    ∃ zeroes v, vch = bytesOf zeroes v ∧ trimmed psz = charsOf zeroes v := by
  simp only [decodeBase58, Option.bind_eq_bind, Option.bind_eq_some_iff] at h
  obtain ⟨zeroes, hzeroes, b256, hsize, last, hread, h⟩ := h
  obtain ⟨-, h⟩ := Option.ite_none_right_eq_some.mp h
  obtain ⟨-, hzeroes⟩ := Option.ite_none_right_eq_some.mp hzeroes
  obtain ⟨-, hsize⟩ := Option.ite_none_right_eq_some.mp hsize
  cases hzeroes
  cases hsize
  cases h
  obtain ⟨ds, hds, hsignificant⟩ := significant_of_read (by omega) hread
  obtain ⟨hmap, hlt⟩ := map_base58Char hds
  have hhead : ds.head? ≠ some 0 := by
    intro hzero
    have hone : (ds.map base58Char).head? = some one := by
      rw [List.head?_map, hzero, Option.map_some, base58Char_zero]
    rw [hmap, List.head?_takeWhile, Option.filter_eq_some_iff] at hone
    exact head?_dropWhile_ne hone.1
  refine ⟨_, Nat.ofDigits 58 ds.reverse, by rw [bytesOf, ← hsignificant], ?_⟩
  rw [charsOf, digits_of_numeral (by omega) hlt hhead, hmap, ← takeWhile_eq_replicate, trimmed]
  have hsplit : (psz.dropWhile isSpace).takeWhile (· = one) ++
      (psz.dropWhile isSpace).dropWhile (· = one) = psz.dropWhile isSpace :=
    List.takeWhile_append_dropWhile
  nth_rewrite 1 [← hsplit]
  apply List.takeWhile_append_of_pos
  intro c hc
  obtain rfl : c = one := by simpa using List.mem_takeWhile_imp hc
  rw [isSpace_one]
  rfl

/-- Characters that are read as the digits they were written for. -/
theorem mapM_map {char : ℕ → UInt8} {digit : UInt8 → Option ℕ} {ds : List ℕ}
    (h : ∀ d ∈ ds, digit (char d) = some d) : (ds.map char).mapM digit = some ds := by
  induction ds with
  | nil => rfl
  | cons d ds ih =>
    obtain ⟨hd, hds⟩ := List.forall_mem_cons.mp h
    simp [List.mapM_cons, hd, ih hds]

theorem base58_fits (n : ℕ) : 256 ^ n ≤ 58 ^ (n * 138 / 100 + 1) :=
  pow_le_pow_size (by omega) (by omega) (by norm_num) n

theorem byte_lt (byte : UInt8) (d : ℕ) (h : some byte.toNat = some d) : d < 256 := by
  cases h
  exact byte.toNat_lt

theorem toNat_ofNat_of_mem_digits {d v : ℕ} (hd : d ∈ (Nat.digits 256 v).reverse) :
    (UInt8.ofNat d).toNat = d := by
  have hlt : d < 256 := Nat.digits_lt_base (by omega) (List.mem_reverse.mp hd)
  exact UInt8.toNat_ofNat_of_lt' hlt

theorem head?_bytes_ne_zero (v : ℕ) :
    ((Nat.digits 256 v).reverse.map UInt8.ofNat).head? ≠ some 0 := by
  intro hzero
  rw [List.head?_map, Option.map_eq_some_iff] at hzero
  obtain ⟨d, hd, hzero⟩ := hzero
  have hvalue := congrArg UInt8.toNat hzero
  rw [toNat_ofNat_of_mem_digits (List.mem_of_mem_head? hd)] at hvalue
  rw [hvalue] at hd
  exact head?_digits_ne_zero 256 v hd

theorem zeroes_bytesOf (zeroes v : ℕ) :
    (bytesOf zeroes v).takeWhile (· = 0) = List.replicate zeroes 0 ∧
      (bytesOf zeroes v).dropWhile (· = 0) = (Nat.digits 256 v).reverse.map UInt8.ofNat :=
  zeroes_append zeroes (head?_bytes_ne_zero v)

/-- The encoder writes the number in base 58. -/
theorem encodeBase58_bytesOf {zeroes v : ℕ} (h : EncodeFits (bytesOf zeroes v)) :
    encodeBase58 (bytesOf zeroes v) = some (charsOf zeroes v) := by
  obtain ⟨hzeroes, hsize⟩ := h
  obtain ⟨htake, hdrop⟩ := zeroes_bytesOf zeroes v
  rw [htake, List.length_replicate] at hzeroes
  rw [hdrop] at hsize
  set bytes := (Nat.digits 256 v).reverse.map UInt8.ofNat with hbytes
  have hdigits : bytes.mapM (fun byte => some byte.toNat) = some (Nat.digits 256 v).reverse :=
    mapM_map fun d hd => by rw [toNat_ofNat_of_mem_digits hd]
  obtain ⟨b58, hread, hsignificant⟩ :=
    exists_read (by omega) byte_lt hdigits (base58_fits bytes.length)
  have hcount : countInt zeroes = some zeroes := if_pos hzeroes
  simp only [encodeBase58, htake, hdrop, List.length_replicate, hcount, allocate_of_lt hsize, hread,
    Option.bind_eq_bind, Option.bind_some]
  rw [hsignificant, List.reverse_reverse, Nat.ofDigits_digits]
  rfl

theorem encodeBase58_of_decodeBase58 {psz vch : Bytes} (h : decodeBase58 psz = some vch)
    (hfits : EncodeFits vch) : encodeBase58 vch = some (trimmed psz) := by
  obtain ⟨zeroes, v, rfl, htrimmed⟩ := bytesOf_of_decodeBase58 h
  rw [encodeBase58_bytesOf hfits, htrimmed]

/-! ### Texts in base 58 -/

def IsBase58 (s : Bytes) : Prop := ∀ c ∈ s, c ∈ pszBase58

instance (s : Bytes) : Decidable (IsBase58 s) :=
  inferInstanceAs (Decidable (∀ c ∈ s, c ∈ pszBase58))

theorem not_isSpace_of_mem : ∀ c ∈ pszBase58, c ≠ 0 ∧ isSpace c = false := by decide +kernel

theorem isBase58_charsOf (zeroes v : ℕ) : IsBase58 (charsOf zeroes v) := by
  intro c hc
  rcases List.mem_append.mp hc with hc | hc
  · obtain rfl := List.eq_of_mem_replicate hc
    decide
  · obtain ⟨d, hd, rfl⟩ := List.mem_map.mp hc
    exact (base58Char_props d (Nat.digits_lt_base (by omega) (List.mem_reverse.mp hd))).1

theorem skip_of_not_isSpace {s : Bytes} (h : ∀ c ∈ s, isSpace c = false) :
    s.dropWhile isSpace = s ∧ s.takeWhile (!isSpace ·) = s ∧ s.dropWhile (!isSpace ·) = [] := by
  have hall : ∀ c ∈ s, (!isSpace c) = true := by
    intro c hc
    rw [h c hc]
    rfl
  refine ⟨?_, List.takeWhile_eq_self_iff.mpr hall, List.dropWhile_eq_nil_iff.mpr hall⟩
  cases s with
  | nil => rfl
  | cons c s =>
    apply List.dropWhile_cons_of_neg
    rw [h c List.mem_cons_self]
    exact Bool.false_ne_true

theorem cString_of_ne_zero {s : Bytes} (h : ∀ c ∈ s, c ≠ 0) : cString s = s := by
  apply List.takeWhile_eq_self_iff.mpr
  intro c hc
  simpa using h c hc

theorem trimmed_cString {s : Bytes} (h : ∀ c ∈ s, c ≠ 0 ∧ isSpace c = false) :
    trimmed (cString s) = s := by
  obtain ⟨hfront, hback, -⟩ := skip_of_not_isSpace fun c hc => (h c hc).2
  rw [trimmed, cString_of_ne_zero fun c hc => (h c hc).1, hfront, hback]

end Base58

/-! ### Addresses -/

open Base58

/-- The first four bytes of the hash in memory, which has the low byte of a word first. -/
def checksum (hash : Uint256) : Bytes := (uint2bytes (hash.pn.headD 0)).reverse

theorem length_checksum (hash : Uint256) : (checksum hash).length = 4 := by simp [checksum]

/-- Add 4-byte hash check to the end. -/
def encodeBase58Check (sk256 : Bytes → Uint256) (vchIn : Bytes) : Option Bytes :=
  encodeBase58 (vchIn ++ checksum (sk256 vchIn))

def decodeBase58Check (sk256 : Bytes → Uint256) (psz : Bytes) : Option Bytes := do
  let vch ← decodeBase58 psz
  if vch.length < 4 then none
  else
    let vchRet := vch.take (vch.length - 4)
    if checksum (sk256 vchRet) = vch.drop (vch.length - 4) then some vchRet else none

/-- `CBase58Data`, and `NexusAddress` as well. -/
structure NexusAddress where
  nVersion : UInt8
  vchData : Bytes
  deriving DecidableEq

namespace NexusAddress

def pubkeyAddress : UInt8 := 42
def scriptAddress : UInt8 := 104

variable (sk256 : Bytes → Uint256)

/-- Whatever is wrong with the text, version and data are cleared. -/
def setString (psz : Bytes) : NexusAddress :=
  match decodeBase58Check sk256 psz with
  | some (nVersion :: vchData) => ⟨nVersion, vchData⟩
  | _ => ⟨0, []⟩

def ofString (strAddress : Bytes) : NexusAddress := setString sk256 (cString strAddress)

def toString (address : NexusAddress) : Option Bytes :=
  encodeBase58Check sk256 (address.nVersion :: address.vchData)

def isValid (address : NexusAddress) : Bool :=
  let nExpectedSize := 32
  if address.nVersion = pubkeyAddress || address.nVersion = scriptAddress then
    address.vchData.length = nExpectedSize
  else false

variable {sk256} {strAddress : Bytes}

theorem length_vchData {address : NexusAddress} (h : address.isValid) :
    address.vchData.length = 32 := by
  simp only [isValid] at h
  split_ifs at h
  exact of_decide_eq_true h

/-- A valid address is what is left of the decoded text without the checksum. -/
theorem decodeBase58_of_isValid (h : (ofString sk256 strAddress).isValid) :
    decodeBase58 (cString strAddress) =
      some ((ofString sk256 strAddress).nVersion :: (ofString sk256 strAddress).vchData ++
        checksum (sk256 ((ofString sk256 strAddress).nVersion ::
          (ofString sk256 strAddress).vchData))) := by
  have hlength := length_vchData h
  rw [ofString, setString] at hlength ⊢
  split at hlength
  · next nVersion vchData hcheck =>
    simp only [decodeBase58Check, Option.bind_eq_bind, Option.bind_eq_some_iff,
      Option.ite_none_left_eq_some, Option.ite_none_right_eq_some, Option.some.injEq] at hcheck
    obtain ⟨vch, hdecode, -, hchecksum, hvchRet⟩ := hcheck
    rw [hvchRet] at hchecksum
    rw [hdecode, hchecksum, ← hvchRet, List.take_append_drop]
  · cases hlength

/-- The text of a valid address is the part of the text that was read. -/
theorem toString_ofString (h : (ofString sk256 strAddress).isValid) :
    (ofString sk256 strAddress).toString sk256 = some (trimmed (cString strAddress)) := by
  apply encodeBase58_of_decodeBase58 (decodeBase58_of_isValid h)
  apply EncodeFits.of_length_le
  have hlength := length_vchData h
  simp [length_checksum, hlength]

theorem isBase58_trimmed (h : (ofString sk256 strAddress).isValid) :
    IsBase58 (trimmed (cString strAddress)) := by
  obtain ⟨zeroes, v, -, htrimmed⟩ := bytesOf_of_decodeBase58 (decodeBase58_of_isValid h)
  rw [htrimmed]
  exact isBase58_charsOf zeroes v

/-- Of the texts of a valid address, the one in base 58 is its text. -/
theorem toString_eq_self_iff (h : (ofString sk256 strAddress).isValid) :
    (ofString sk256 strAddress).toString sk256 = some strAddress ↔ IsBase58 strAddress := by
  rw [toString_ofString h, Option.some.injEq]
  constructor
  · intro hself
    have htrimmed := isBase58_trimmed h
    rwa [hself] at htrimmed
  · exact fun hbase58 => trimmed_cString fun c hc => not_isSpace_of_mem c (hbase58 c hc)

end NexusAddress

end NexusPool
