import NexusPool.Codec.Base58

/-!
# Encoding and decoding undo each other

Every byte vector is a number with leading zeros, so the decoder returns what the encoder was
given, and the encoder gives back a text that was decoded. Neither finds its buffer too small,
whatever the digits are.
-/

namespace NexusPool

open Radix

namespace Base58

/-- The two counts that the decoder keeps in an `int`. -/
structure DecodeFits (psz : Bytes) : Prop where
  zeroes : ((psz.dropWhile isSpace).takeWhile (· = one)).length < 2 ^ 31
  size : ((psz.dropWhile isSpace).dropWhile (· = one)).length * 733 / 1000 + 1 < 2 ^ 31

/-! ### The size of the buffers -/

theorem base256_fits (n : ℕ) : 58 ^ n ≤ 256 ^ (n * 733 / 1000 + 1) :=
  pow_le_pow_size (by omega) (by omega) (by decide +kernel) n

theorem base58Digit_lt (c : UInt8) (d : ℕ) (h : base58Digit c = some d) : d < 58 :=
  (base58Char_of_base58Digit h).1

/-- The buffer that is allocated has room for all that is read into it. -/
theorem hasRoom_of_encodeFits {vch : Bytes} (h : EncodeFits vch) :
    ∃ b58, allocate ((vch.dropWhile (· = 0)).length * 138 / 100 + 1) = some b58 ∧
      b58.hasRoom 58 256 (fun byte => some byte.toNat) (vch.dropWhile (· = 0)) := by
  refine ⟨_, allocate_of_lt h.size, ?_⟩
  exact hasRoom_zero (by omega) byte_lt (base58_fits _)

theorem hasRoom_of_decodeFits {psz : Bytes} (h : DecodeFits psz) :
    ∃ b256, allocate (((psz.dropWhile isSpace).dropWhile (· = one)).length * 733 / 1000 + 1) =
        some b256 ∧
      b256.hasRoom 256 58 base58Digit
        (((psz.dropWhile isSpace).dropWhile (· = one)).takeWhile (!isSpace ·)) := by
  refine ⟨_, allocate_of_lt h.size, ?_⟩
  set digits := (psz.dropWhile isSpace).dropWhile (· = one)
  apply hasRoom_zero (by omega) base58Digit_lt
  have hlength := (List.takeWhile_sublist (!isSpace ·) (l := digits)).length_le
  calc 58 ^ (digits.takeWhile (!isSpace ·)).length ≤ 58 ^ digits.length :=
        Nat.pow_le_pow_right (by omega) hlength
    _ ≤ 256 ^ (digits.length * 733 / 1000 + 1) := base256_fits _

/-! ### From bytes to a text and back -/

theorem exists_bytesOf (vch : Bytes) : ∃ zeroes v, vch = bytesOf zeroes v := by
  set rest := vch.dropWhile (· = 0) with hrest
  have hlt : ∀ d ∈ rest.map UInt8.toNat, d < 256 := by
    intro d hd
    obtain ⟨byte, -, rfl⟩ := List.mem_map.mp hd
    exact byte.toNat_lt
  have hhead : (rest.map UInt8.toNat).head? ≠ some 0 := by
    intro hzero
    rw [List.head?_map, Option.map_eq_some_iff] at hzero
    obtain ⟨byte, hbyte, hzero⟩ := hzero
    obtain rfl : byte = 0 := UInt8.toNat_inj.mp hzero
    exact head?_dropWhile_ne hbyte
  have hdigits := digits_of_numeral (by omega) hlt hhead
  refine ⟨(vch.takeWhile (· = 0)).length, Nat.ofDigits 256 (rest.map UInt8.toNat).reverse, ?_⟩
  have hbytes : (rest.map UInt8.toNat).map UInt8.ofNat = rest := by
    rw [List.map_map]
    exact List.map_id'' (fun byte => UInt8.ofNat_toNat) rest
  rw [bytesOf, hdigits, hbytes, ← takeWhile_eq_replicate, hrest, List.takeWhile_append_dropWhile]

theorem head?_chars_ne_one (v : ℕ) :
    ((Nat.digits 58 v).reverse.map base58Char).head? ≠ some one := by
  intro hone
  rw [List.head?_map, Option.map_eq_some_iff] at hone
  obtain ⟨d, hd, hone⟩ := hone
  have hmem := List.mem_reverse.mp (List.mem_of_mem_head? hd)
  obtain ⟨-, -, -, hdigit⟩ := base58Char_props d (Nat.digits_lt_base (by omega) hmem)
  have hzero : base58Digit one = some 0 := by decide
  rw [hone, hzero] at hdigit
  cases hdigit
  exact head?_digits_ne_zero 58 v hd

theorem ones_charsOf (zeroes v : ℕ) :
    (charsOf zeroes v).takeWhile (· = one) = List.replicate zeroes one ∧
      (charsOf zeroes v).dropWhile (· = one) = (Nat.digits 58 v).reverse.map base58Char :=
  zeroes_append zeroes (head?_chars_ne_one v)

theorem charsOf_props {zeroes v : ℕ} {c : UInt8} (hc : c ∈ charsOf zeroes v) :
    c ≠ 0 ∧ isSpace c = false :=
  not_isSpace_of_mem c (isBase58_charsOf zeroes v c hc)

theorem decodeBase58_charsOf {zeroes v : ℕ} (h : DecodeFits (charsOf zeroes v)) :
    decodeBase58 (charsOf zeroes v) = some (bytesOf zeroes v) := by
  obtain ⟨hzeroes, hsize⟩ := h
  obtain ⟨htake, hdrop⟩ := ones_charsOf zeroes v
  obtain ⟨hfront, -, -⟩ :=
    skip_of_not_isSpace fun c (hc : c ∈ charsOf zeroes v) => (charsOf_props hc).2
  rw [hfront, htake, List.length_replicate] at hzeroes
  rw [hfront, hdrop] at hsize
  set chars := (Nat.digits 58 v).reverse.map base58Char with hchars
  obtain ⟨-, hall, hnone⟩ := skip_of_not_isSpace (s := chars) fun c hc =>
    (charsOf_props (List.mem_append_right (List.replicate zeroes one) hc)).2
  have hdigits : chars.mapM base58Digit = some (Nat.digits 58 v).reverse :=
    mapM_map fun d hd => (base58Char_props d
      (Nat.digits_lt_base (by omega) (List.mem_reverse.mp hd))).2.2.2
  obtain ⟨b256, hread, hsignificant⟩ :=
    exists_read (by omega) base58Digit_lt hdigits (base256_fits chars.length)
  have hcount : countInt zeroes = some zeroes := if_pos hzeroes
  simp only [decodeBase58, hfront, htake, hdrop, List.length_replicate, hcount,
    allocate_of_lt hsize, hall, hnone, hread, Option.bind_eq_bind, Option.bind_some]
  rw [hsignificant, List.reverse_reverse, Nat.ofDigits_digits]
  rfl

/-- A text is not longer than the buffer it was written from, so its counts fit as well. -/
theorem decodeFits_charsOf {zeroes v : ℕ} (h : EncodeFits (bytesOf zeroes v)) :
    DecodeFits (charsOf zeroes v) := by
  obtain ⟨hzeroes, hsize⟩ := h
  obtain ⟨htake, hdrop⟩ := zeroes_bytesOf zeroes v
  rw [htake, List.length_replicate] at hzeroes
  rw [hdrop, List.length_map, List.length_reverse] at hsize
  obtain ⟨htake', hdrop'⟩ := ones_charsOf zeroes v
  obtain ⟨hfront, -, -⟩ :=
    skip_of_not_isSpace fun c (hc : c ∈ charsOf zeroes v) => (charsOf_props hc).2
  have hlength : (Nat.digits 58 v).length ≤ (Nat.digits 256 v).length * 138 / 100 + 1 := by
    apply (Nat.digits_length_le_iff (by omega) v).mpr
    calc v < 256 ^ (Nat.digits 256 v).length := Nat.lt_base_pow_length_digits (by omega)
      _ ≤ 58 ^ ((Nat.digits 256 v).length * 138 / 100 + 1) := base58_fits _
  constructor
  · rwa [hfront, htake', List.length_replicate]
  · rw [hfront, hdrop', List.length_map, List.length_reverse]
    omega

theorem decodeBase58_of_encodeFits {vch : Bytes} (h : EncodeFits vch) :
    ∃ s, encodeBase58 vch = some s ∧ decodeBase58 (cString s) = some vch := by
  obtain ⟨zeroes, v, rfl⟩ := exists_bytesOf vch
  refine ⟨charsOf zeroes v, encodeBase58_bytesOf h, ?_⟩
  rw [cString_of_ne_zero fun c hc => (charsOf_props hc).1]
  exact decodeBase58_charsOf (decodeFits_charsOf h)

/-- Bytes whose counts fit come back from their text, a text without white space and NUL that is
decoded comes back from its bytes, and no digit of either finds its buffer too small. -/
theorem base58_inverse :
    (∀ vch, EncodeFits vch → ∃ s, encodeBase58 vch = some s ∧ decodeBase58 (cString s) = some vch) ∧
      (∀ s vch, (∀ c ∈ s, c ≠ 0 ∧ isSpace c = false) → decodeBase58 (cString s) = some vch →
        EncodeFits vch → encodeBase58 vch = some s) ∧
      (∀ vch, EncodeFits vch →
        ∃ b58, allocate ((vch.dropWhile (· = 0)).length * 138 / 100 + 1) = some b58 ∧
          b58.hasRoom 58 256 (fun byte => some byte.toNat) (vch.dropWhile (· = 0))) ∧
      ∀ psz, DecodeFits psz →
        ∃ b256, allocate (((psz.dropWhile isSpace).dropWhile (· = one)).length * 733 / 1000 + 1) =
            some b256 ∧
          b256.hasRoom 256 58 base58Digit
            (((psz.dropWhile isSpace).dropWhile (· = one)).takeWhile (!isSpace ·)) := by
  refine ⟨fun vch => decodeBase58_of_encodeFits, fun s vch hs hdecode hfits => ?_,
    fun vch => hasRoom_of_encodeFits, fun psz => hasRoom_of_decodeFits⟩
  rw [encodeBase58_of_decodeBase58 hdecode hfits, trimmed_cString hs]

/-- A zero and a one are the text `12`. -/
theorem zeroOne_inverse :
    (∃ s, encodeBase58 [0, 1] = some s ∧ decodeBase58 (cString s) = some [0, 1]) ∧
    encodeBase58 [0, 1] = some [49, 50] := by
  have hfits : EncodeFits [0, 1] := .of_length_le (by decide)
  have hdecode : decodeBase58 (cString [49, 50]) = some [0, 1] := by decide +kernel
  exact ⟨base58_inverse.1 _ hfits, base58_inverse.2.1 [49, 50] _ (by decide +kernel) hdecode hfits⟩

end Base58

end NexusPool
