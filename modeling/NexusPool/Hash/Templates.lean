import NexusPool.Codec.Base58
import NexusPool.Hash.KeccakHash
import NexusPool.Hash.SkeinHash

/-!
# The hashes of `templates.h`

Each of them is the Keccak hash of the Skein hash of some memory, and both hashes are as wide as
the result. The contexts lie on the stack and are not initialised before, and the return codes
are not looked at.
-/

namespace NexusPool

open BitPadding KeccakHash

/-! ### Integers in memory -/

namespace BaseUint

variable {w : ℕ}

/-- The words as the target stores them, least significant byte first. -/
def memory (a : BaseUint w) : Bytes := a.pn.flatMap fun word => (uint2bytes word).reverse

def memoryWords : ℕ → Bytes → Option (List UInt32)
  | 0, _ => some []
  | n + 1, b₀ :: b₁ :: b₂ :: b₃ :: rest =>
    (memoryWords n rest).map (bytes2uint [b₃, b₂, b₁, b₀] 0 :: ·)
  | _ + 1, _ => none

theorem length_of_memoryWords : ∀ {n : ℕ} {bytes : Bytes} {words : List UInt32},
    memoryWords n bytes = some words → words.length = n
  | 0, _, _, h => by
    cases h
    rfl
  | n + 1, b₀ :: b₁ :: b₂ :: b₃ :: rest, words, h => by
    simp only [memoryWords, Option.map_eq_some_iff] at h
    obtain ⟨tail, htail, rfl⟩ := h
    simp [length_of_memoryWords htail]

def ofMemory (w : ℕ) (bytes : Bytes) : Option (BaseUint w) :=
  match h : memoryWords w bytes with
  | some words => some ⟨words, length_of_memoryWords h⟩
  | none => none

end BaseUint

/-! ### The functions -/

/-- What lies on the stack where the contexts will be. -/
structure HashStack where
  skein256 : SkeinCtxt 2
  skein512 : SkeinCtxt 4
  skein1024 : SkeinCtxt 8
  keccak : KeccakHashInstance

/-- The second half of every template. -/
def keccakOf (stack : HashStack) (rate capacity hashbitlen : UInt32) (delimitedSuffix : UInt8)
    (skein : Bytes) (databitlen : ℕ) : Option Bytes := do
  let turns := databitlen + hashbitlen.toNat + 5
  let (_, ctx) := hashInitialize stack.keccak rate capacity hashbitlen delimitedSuffix
  let (_, ctx) ← hashUpdate turns ctx skein databitlen
  let (_, keccak, _) ← hashFinal turns ctx
  some keccak

def sk64 (stack : HashStack) (range : Bytes) : Option Bytes :=
  let ctx := skein256Init stack.skein256 64
  let ctx := skein256Update ctx range
  keccakOf stack 1344 256 64 0x06 (skein256Final ctx).2 64

def sk256 (stack : HashStack) (range : Bytes) : Option Bytes :=
  let ctx := skein256Init stack.skein256 256
  let ctx := skein256Update ctx range
  keccakOf stack 1088 512 256 0x06 (skein256Final ctx).2 256

def sk512Ranges (stack : HashStack) (ranges : List Bytes) : Option Bytes :=
  let ctx := skein512Init stack.skein512 512
  let ctx := ranges.foldl skein512Update ctx
  keccakOf stack 576 1024 512 0x06 (skein512Final ctx).2 512

def sk512 (stack : HashStack) (range : Bytes) : Option Bytes := sk512Ranges stack [range]

def sk512Two (stack : HashStack) (range₁ range₂ : Bytes) : Option Bytes :=
  sk512Ranges stack [range₁, range₂]

def sk512Three (stack : HashStack) (range₁ range₂ range₃ : Bytes) : Option Bytes :=
  sk512Ranges stack [range₁, range₂, range₃]

def sk576 (stack : HashStack) (range : Bytes) : Option Bytes :=
  let ctx := skein1024Init stack.skein1024 576
  let ctx := skein1024Update ctx range
  keccakOf stack 1024 576 576 0x06 (skein1024Final ctx).2 576

def sk1024 (stack : HashStack) (range : Bytes) : Option Bytes :=
  let ctx := skein1024Init stack.skein1024 1024
  let ctx := skein1024Update ctx range
  keccakOf stack 576 1024 1024 0x05 (skein1024Final ctx).2 1024

/-! ### What they compute -/

def skeinKeccak {m : ℕ} (cipher : Threefish.Cipher m) (rateInBytes : ℕ) (hashBitLen : UInt64)
    (suffix : List Bool) (data : Bytes) : Bytes :=
  Keccak.digest rateInBytes (hashBitLen.toNat / 8)
    (bitsOfBytes (Skein.digest cipher hashBitLen skeinCfgTreeInfoSequential [] data) ++ suffix)

theorem keccakOf_eq (stack : HashStack) {rate capacity hashbitlen : UInt32}
    {delimitedSuffix : UInt8} (hsum : rate + capacity = 1600) (hle : rate ≤ 1600)
    (hpos : 0 < rate) (hmod : rate % 8 = 0) (hsuffix : delimitedSuffix ≠ 0) {skein : Bytes}
    {databitlen : ℕ} (hlength : 8 * skein.length = databitlen) (hshort : databitlen < 2 ^ 31) :
    keccakOf stack rate capacity hashbitlen delimitedSuffix skein databitlen =
      some (Keccak.digest (rate.toNat / 8) (hashbitlen.toNat / 8)
        (bitsOfBytes skein ++ bitsBelow delimitedSuffix.toNat)) := by
  subst databitlen
  have hbits := hashbitlen.toNat_lt
  obtain ⟨hash₁, hinitialize, hfresh, hfixed, hsuffix₁⟩ :=
    absorbing_hashInitialize stack.keccak hashbitlen hsum hle hpos hmod hsuffix
  obtain ⟨sponge, hupdate, habsorbing⟩ := @hashUpdate_bytes _
    (8 * skein.length + hashbitlen.toNat + 5) hash₁ [] skein hfresh (by omega) (by omega)
  obtain ⟨hash₂, hfinal, -⟩ := @hashFinal_eq _ (8 * skein.length + hashbitlen.toNat + 5)
    { hash₁ with sponge } _ habsorbing (hsuffix₁ ▸ hsuffix) (by simp only [hfixed]; omega)
    (by simp only [hfixed]; omega)
  simp only [hfixed, hsuffix₁, List.nil_append] at hupdate hfinal
  simp only [keccakOf, hinitialize, hupdate, hfinal, Option.bind_eq_bind, Option.bind_some]

theorem length_skeinDigest {m : ℕ} (cipher : Threefish.Cipher m) (hm : 0 < m) {hashBitLen : UInt64}
    (treeInfo : UInt64) (key msg : Bytes) :
    (Skein.digest cipher hashBitLen treeInfo key msg).length =
      ((hashBitLen + 7) >>> 3).toNat := by
  have hpos : 0 < Skein.blockBytes m := by
    rw [Skein.blockBytes]
    omega
  have hdivmod := Nat.div_add_mod' (((hashBitLen + 7) >>> 3).toNat + Skein.blockBytes m - 1)
    (Skein.blockBytes m)
  have hmod := Nat.mod_lt (((hashBitLen + 7) >>> 3).toNat + Skein.blockBytes m - 1) hpos
  rw [Skein.digest, Skein.counterMode, List.length_take, List.length_flatMap]
  simp only [length_bytesOfWords, Vector.length_toList, List.map_const', List.length_range,
    List.sum_replicate, smul_eq_mul]
  rw [Skein.blockBytes] at *
  omega

/-- One template for all of them, with the numbers it puts in. -/
theorem template_eq {m : ℕ} {variant : SkeinVariant m} {cipher : Threefish.Cipher m}
    (hruns : Skein.Runs variant cipher) (htable : Skein.Precomputed variant) (hm : 2 ≤ m)
    (ctx : SkeinCtxt m) (stack : HashStack) (rate capacity hashbitlen : UInt32)
    (delimitedSuffix : UInt8) (hashBitLen : UInt64) (hsum : rate + capacity = 1600)
    (hle : rate ≤ 1600) (hpos : 0 < rate) (hmod : rate % 8 = 0) (hsuffix : delimitedSuffix ≠ 0)
    (hwidth : hashBitLen.toNat = hashbitlen.toNat)
    (hbytes : 8 * ((hashBitLen + 7) >>> 3).toNat = hashBitLen.toNat)
    (hshort : hashBitLen.toNat < 2 ^ 31) (ranges : List Bytes) :
    keccakOf stack rate capacity hashbitlen delimitedSuffix
        (Skein.final variant
          (ranges.foldl (Skein.update variant) (Skein.init variant ctx hashBitLen))).2
        hashBitLen.toNat =
      some (skeinKeccak cipher (rate.toNat / 8) hashBitLen (bitsBelow delimitedSuffix.toNat)
        ranges.flatten) := by
  rw [Skein.init_eq_initExt htable, Skein.final_pieces hruns hm, keccakOf_eq stack hsum hle hpos
    hmod hsuffix (by rw [length_skeinDigest cipher (by omega), hbytes]) hshort, skeinKeccak, hwidth]

theorem sk1024_eq (stack : HashStack) (range : Bytes) :
    sk1024 stack range = some (skeinKeccak threefish1024 72 1024 (bitsBelow 5) range) := by
  have h := template_eq runs_skein1024 precomputed_skein1024 (by decide) stack.skein1024 stack
    576 1024 1024 0x05 1024 (by decide) (by decide) (by decide) (by decide) (by decide) rfl
    (by decide) (by decide) [range]
  rw [List.flatten_singleton] at h
  exact h

/-- Every template is total, whatever the stack holds, and the hash of several ranges is the hash
of them put together. -/
theorem templates_eq (stack : HashStack) :
    (∀ range, sk64 stack range = some (skeinKeccak threefish256 168 64 (bitsBelow 6) range)) ∧
      (∀ range, sk256 stack range =
        some (skeinKeccak threefish256 136 256 (bitsBelow 6) range)) ∧
      (∀ range, sk512 stack range =
        some (skeinKeccak threefish512 72 512 (bitsBelow 6) range)) ∧
      (∀ range₁ range₂, sk512Two stack range₁ range₂ =
        some (skeinKeccak threefish512 72 512 (bitsBelow 6) (range₁ ++ range₂))) ∧
      (∀ range₁ range₂ range₃, sk512Three stack range₁ range₂ range₃ =
        some (skeinKeccak threefish512 72 512 (bitsBelow 6) (range₁ ++ range₂ ++ range₃))) ∧
      (∀ range, sk576 stack range =
        some (skeinKeccak threefish1024 128 576 (bitsBelow 6) range)) ∧
      ∀ range, sk1024 stack range =
        some (skeinKeccak threefish1024 72 1024 (bitsBelow 5) range) := by
  have h512 : ∀ ranges, sk512Ranges stack ranges =
      some (skeinKeccak threefish512 72 512 (bitsBelow 6) ranges.flatten) :=
    template_eq runs_skein512 precomputed_skein512 (by decide) stack.skein512 stack 576 1024 512
      0x06 512 (by decide) (by decide) (by decide) (by decide) (by decide) rfl (by decide)
      (by decide)
  have h64 := template_eq runs_skein256 precomputed_skein256 (by decide) stack.skein256 stack
    1344 256 64 0x06 64 (by decide) (by decide) (by decide) (by decide) (by decide) rfl (by decide)
    (by decide)
  have h256 := template_eq runs_skein256 precomputed_skein256 (by decide) stack.skein256 stack
    1088 512 256 0x06 256 (by decide) (by decide) (by decide) (by decide) (by decide) rfl
    (by decide) (by decide)
  have h576 := template_eq runs_skein1024 precomputed_skein1024 (by decide) stack.skein1024 stack
    1024 576 576 0x06 576 (by decide) (by decide) (by decide) (by decide) (by decide) rfl
    (by decide) (by decide)
  have hone : ∀ range : Bytes, [range].flatten = range := fun _ => List.flatten_singleton
  refine ⟨fun range => ?_, fun range => ?_, fun range => ?_, fun range₁ range₂ => ?_,
    fun range₁ range₂ range₃ => ?_, fun range => ?_, fun range => ?_⟩
  · have h := h64 [range]
    rw [hone] at h
    exact h
  · have h := h256 [range]
    rw [hone] at h
    exact h
  · have h := h512 [range]
    rw [hone] at h
    exact h
  · have hranges : [range₁, range₂].flatten = range₁ ++ range₂ := by simp
    rw [← hranges]
    exact h512 [range₁, range₂]
  · have hranges : [range₁, range₂, range₃].flatten = range₁ ++ range₂ ++ range₃ := by simp
    rw [← hranges]
    exact h512 [range₁, range₂, range₃]
  · have h := h576 [range]
    rw [hone] at h
    exact h
  · exact sk1024_eq stack range

end NexusPool
