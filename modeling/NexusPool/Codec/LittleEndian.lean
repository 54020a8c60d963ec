import NexusPool.Codec.Words

/-!
# Words in the memory of the target

The hash functions read and write 64-bit words through pointers to bytes. The target is
little-endian: the least significant byte of a word comes first.
-/

namespace NexusPool

/-- The word in eight bytes of memory. -/
def wordAt (b₀ b₁ b₂ b₃ b₄ b₅ b₆ b₇ : UInt8) : UInt64 :=
  b₀.toUInt64 + (b₁.toUInt64 <<< 8) + (b₂.toUInt64 <<< 16) + (b₃.toUInt64 <<< 24) +
    (b₄.toUInt64 <<< 32) + (b₅.toUInt64 <<< 40) + (b₆.toUInt64 <<< 48) + (b₇.toUInt64 <<< 56)

def bytesOfWord (word : UInt64) : Bytes :=
  [word.toUInt8, (word >>> 8).toUInt8, (word >>> 16).toUInt8, (word >>> 24).toUInt8,
    (word >>> 32).toUInt8, (word >>> 40).toUInt8, (word >>> 48).toUInt8, (word >>> 56).toUInt8]

def bytesOfWords (words : List UInt64) : Bytes := words.flatMap bytesOfWord

/-- The words in memory, without an incomplete one at the end. -/
def wordsOfBytes : Bytes → List UInt64
  | b₀ :: b₁ :: b₂ :: b₃ :: b₄ :: b₅ :: b₆ :: b₇ :: rest =>
    wordAt b₀ b₁ b₂ b₃ b₄ b₅ b₆ b₇ :: wordsOfBytes rest
  | _ => []

@[simp] theorem length_bytesOfWord (word : UInt64) : (bytesOfWord word).length = 8 := rfl

@[simp] theorem length_bytesOfWords (words : List UInt64) :
    (bytesOfWords words).length = 8 * words.length := by
  simp [bytesOfWords, List.length_flatMap]
  ring

@[simp] theorem bytesOfWords_nil : bytesOfWords [] = [] := rfl

@[simp] theorem bytesOfWords_cons (word : UInt64) (words : List UInt64) :
    bytesOfWords (word :: words) = bytesOfWord word ++ bytesOfWords words := by
  simp [bytesOfWords]

@[simp] theorem bytesOfWords_append (words words' : List UInt64) :
    bytesOfWords (words ++ words') = bytesOfWords words ++ bytesOfWords words' := by
  simp [bytesOfWords]

theorem toNat_wordAt (b₀ b₁ b₂ b₃ b₄ b₅ b₆ b₇ : UInt8) :
    (wordAt b₀ b₁ b₂ b₃ b₄ b₅ b₆ b₇).toNat =
      b₀.toNat + b₁.toNat * 2 ^ 8 + b₂.toNat * 2 ^ 16 + b₃.toNat * 2 ^ 24 + b₄.toNat * 2 ^ 32 +
        b₅.toNat * 2 ^ 40 + b₆.toNat * 2 ^ 48 + b₇.toNat * 2 ^ 56 := by
  have h₀ := b₀.toNat_lt
  have h₁ := b₁.toNat_lt
  have h₂ := b₂.toNat_lt
  have h₃ := b₃.toNat_lt
  have h₄ := b₄.toNat_lt
  have h₅ := b₅.toNat_lt
  have h₆ := b₆.toNat_lt
  have h₇ := b₇.toNat_lt
  simp [wordAt, UInt64.toNat_add, UInt64.toNat_shiftLeft, Nat.shiftLeft_eq]
  omega

theorem bytesOfWord_wordAt (b₀ b₁ b₂ b₃ b₄ b₅ b₆ b₇ : UInt8) :
    bytesOfWord (wordAt b₀ b₁ b₂ b₃ b₄ b₅ b₆ b₇) = [b₀, b₁, b₂, b₃, b₄, b₅, b₆, b₇] := by
  have h₀ := b₀.toNat_lt
  have h₁ := b₁.toNat_lt
  have h₂ := b₂.toNat_lt
  have h₃ := b₃.toNat_lt
  have h₄ := b₄.toNat_lt
  have h₅ := b₅.toNat_lt
  have h₆ := b₆.toNat_lt
  have h₇ := b₇.toNat_lt
  simp only [bytesOfWord, List.cons.injEq, ← UInt8.toNat_inj, and_true]
  simp only [UInt64.toNat_toUInt8, UInt64.toNat_shiftRight, UInt64.reduceToNat, Nat.reduceMod,
    Nat.shiftRight_eq_div_pow, toNat_wordAt]
  omega

theorem wordsOfBytes_bytesOfWord (word : UInt64) (rest : Bytes) :
    wordsOfBytes (bytesOfWord word ++ rest) = word :: wordsOfBytes rest := by
  have hword := word.toNat_lt
  simp only [bytesOfWord, List.cons_append, List.nil_append, wordsOfBytes, List.cons.injEq,
    and_true, ← UInt64.toNat_inj, toNat_wordAt, UInt64.toNat_toUInt8, UInt64.toNat_shiftRight,
    UInt64.reduceToNat, Nat.reduceMod, Nat.shiftRight_eq_div_pow]
  omega

@[simp] theorem wordsOfBytes_bytesOfWords (words : List UInt64) :
    wordsOfBytes (bytesOfWords words) = words := by
  induction words with
  | nil => rfl
  | cons word words ih => rw [bytesOfWords_cons, wordsOfBytes_bytesOfWord, ih]

theorem length_wordsOfBytes : ∀ bytes : Bytes, (wordsOfBytes bytes).length = bytes.length / 8
  | b₀ :: b₁ :: b₂ :: b₃ :: b₄ :: b₅ :: b₆ :: b₇ :: rest => by
    have hrest := length_wordsOfBytes rest
    simp only [wordsOfBytes, List.length_cons, hrest]
    omega
  | [] | [_] | [_, _] | [_, _, _] | [_, _, _, _] | [_, _, _, _, _] | [_, _, _, _, _, _]
  | [_, _, _, _, _, _, _] => by simp [wordsOfBytes]

theorem bytesOfWords_wordsOfBytes : ∀ {bytes : Bytes}, 8 ∣ bytes.length →
    bytesOfWords (wordsOfBytes bytes) = bytes
  | b₀ :: b₁ :: b₂ :: b₃ :: b₄ :: b₅ :: b₆ :: b₇ :: rest, h => by
    have hrest : bytesOfWords (wordsOfBytes rest) = rest := bytesOfWords_wordsOfBytes (by
      simp only [List.length_cons] at h
      omega)
    simp [wordsOfBytes, bytesOfWord_wordAt, hrest]
  | [], _ => rfl
  | [_], h | [_, _], h | [_, _, _], h | [_, _, _, _], h | [_, _, _, _, _], h
  | [_, _, _, _, _, _], h | [_, _, _, _, _, _, _], h => by simp at h

/-! ### Single bytes -/

def byteOfWord (word : UInt64) (j : ℕ) : UInt8 := (word >>> UInt64.ofNat (8 * j)).toUInt8

theorem byteOfWord_xor (word word' : UInt64) (j : ℕ) :
    byteOfWord (word ^^^ word') j = byteOfWord word j ^^^ byteOfWord word' j := by
  simp [byteOfWord, UInt64.shiftRight_xor]

theorem getElem?_bytesOfWord (word : UInt64) : ∀ j < 8,
    (bytesOfWord word)[j]? = some (byteOfWord word j) := by
  intro j hj
  have hcases : j = 0 ∨ j = 1 ∨ j = 2 ∨ j = 3 ∨ j = 4 ∨ j = 5 ∨ j = 6 ∨ j = 7 := by omega
  rcases hcases with rfl | rfl | rfl | rfl | rfl | rfl | rfl | rfl <;>
    simp [bytesOfWord, byteOfWord]

theorem getElem?_bytesOfWords (words : List UInt64) (k : ℕ) :
    (bytesOfWords words)[k]? = words[k / 8]?.map (byteOfWord · (k % 8)) := by
  induction words generalizing k with
  | nil => simp
  | cons word words ih =>
    rw [bytesOfWords_cons]
    rcases lt_or_ge k 8 with hk | hk
    · rw [List.getElem?_append_left (by simpa using hk), getElem?_bytesOfWord word k hk,
        Nat.div_eq_of_lt hk, Nat.mod_eq_of_lt hk]
      rfl
    · rw [List.getElem?_append_right (by simpa using hk), length_bytesOfWord, ih,
        Nat.div_eq_sub_div (by omega) hk, Nat.mod_eq_sub_mod hk, List.getElem?_cons_succ]

end NexusPool
