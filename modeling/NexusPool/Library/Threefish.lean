import NexusPool.Library.Rotation
import Mathlib.Logic.Equiv.Fin.Basic

/-!
# Tweakable block ciphers of words that are added, rotated and xored

A block has `2 * m` words. A round mixes each word with its neighbour, by an addition, a rotation
and an exclusive or, and permutes the words. A subkey is added before the first round and after
every fourth one. It is made from the words of the key and one word more, which closes their
circle, from the tweak, and from its number. For every key and every tweak the cipher is a
permutation of the blocks.
-/

namespace Threefish

open Rotation

abbrev Words (m : ℕ) := Fin (2 * m) → UInt64

/-- What sets a cipher of the family apart. The rotations repeat after eight rounds. -/
structure Cipher (m : ℕ) where
  groups : ℕ
  permutation : Equiv.Perm (Fin (2 * m))
  rotation : Fin 8 → Fin m → ℕ

variable {m : ℕ}

/-! ### Mixing -/

def evenIndex (j : Fin m) : Fin (2 * m) := ⟨2 * j, by omega⟩

def oddIndex (j : Fin m) : Fin (2 * m) := ⟨2 * j + 1, by omega⟩

theorem index_cases (i : Fin (2 * m)) : ∃ j : Fin m, i = evenIndex j ∨ i = oddIndex j := by
  refine ⟨⟨i / 2, by omega⟩, ?_⟩
  simp only [evenIndex, oddIndex, Fin.ext_iff]
  omega

/-- A word, its neighbour and the distance of the rotation. -/
def mixPair (n : ℕ) (pair : UInt64 × UInt64) : UInt64 × UInt64 :=
  (pair.1 + pair.2, rotl pair.2 n ^^^ (pair.1 + pair.2))

def mix (rotation : Fin m → ℕ) (v : Words m) : Words m := fun i =>
  let j : Fin m := ⟨i / 2, by omega⟩
  let pair := mixPair (rotation j) (v (evenIndex j), v (oddIndex j))
  if i.val % 2 = 0 then pair.1 else pair.2

theorem mix_evenIndex (rotation : Fin m → ℕ) (v : Words m) (j : Fin m) :
    mix rotation v (evenIndex j) =
      (mixPair (rotation j) (v (evenIndex j), v (oddIndex j))).1 := by
  have hj : (⟨(evenIndex j).val / 2, by omega⟩ : Fin m) = j := Fin.ext (by simp [evenIndex])
  simp only [mix, hj]
  simp [evenIndex]

theorem mix_oddIndex (rotation : Fin m → ℕ) (v : Words m) (j : Fin m) :
    mix rotation v (oddIndex j) = (mixPair (rotation j) (v (evenIndex j), v (oddIndex j))).2 := by
  have hj : (⟨(oddIndex j).val / 2, by omega⟩ : Fin m) = j :=
    Fin.ext (by simp only [oddIndex]; omega)
  simp only [mix, hj]
  simp [oddIndex]

theorem mixPair_injective (n : ℕ) : Function.Injective (mixPair n) := by
  rintro ⟨a, b⟩ ⟨a', b'⟩ h
  simp only [mixPair, Prod.mk.injEq] at h
  obtain ⟨hsum, hxor⟩ := h
  rw [hsum, UInt64.xor_left_inj] at hxor
  obtain rfl := rotl_injective n hxor
  simp only [UInt64.add_left_inj] at hsum
  rw [hsum]

theorem mix_injective (rotation : Fin m → ℕ) : Function.Injective (mix rotation) := by
  intro v v' h
  have hpair : ∀ j, (v (evenIndex j), v (oddIndex j)) = (v' (evenIndex j), v' (oddIndex j)) := by
    intro j
    apply mixPair_injective (rotation j)
    rw [Prod.ext_iff, ← mix_evenIndex, ← mix_evenIndex, ← mix_oddIndex, ← mix_oddIndex, h]
    exact ⟨rfl, rfl⟩
  funext i
  obtain ⟨j, rfl | rfl⟩ := index_cases i
  · exact congrArg Prod.fst (hpair j)
  · exact congrArg Prod.snd (hpair j)

/-! ### Rounds and subkeys -/

/-- The key with the word that closes the circle, and the three words of the tweak. -/
structure Schedule (m : ℕ) where
  key : Fin (2 * m + 1) → UInt64
  tweak : Fin 3 → UInt64

/-- The sum of all words of the extended key is a constant, and the third word of the tweak is
the sum of the others. -/
def schedule (parity : UInt64) (key : Words m) (t₀ t₁ : UInt64) : Schedule m where
  key i := if h : i.val < 2 * m then key ⟨i, h⟩
    else ((List.finRange (2 * m)).map key).foldl (· ^^^ ·) 0 ^^^ parity
  tweak i := if i = 0 then t₀ else if i = 1 then t₁ else t₀ ^^^ t₁

/-- What a subkey adds to a word beyond the key. -/
def extra (schedule : Schedule m) (s : ℕ) (i : Fin (2 * m)) : UInt64 :=
  if i.val + 3 = 2 * m then schedule.tweak (Fin.ofNat 3 s)
  else if i.val + 2 = 2 * m then schedule.tweak (Fin.ofNat 3 (s + 1))
  else if i.val + 1 = 2 * m then UInt64.ofNat s
  else 0

def subkey (schedule : Schedule m) (s : ℕ) : Words m := fun i =>
  schedule.key (Fin.ofNat (2 * m + 1) (s + i)) + extra schedule s i

def addKey (schedule : Schedule m) (s : ℕ) (v : Words m) : Words m := fun i =>
  v i + subkey schedule s i

def round (cipher : Cipher m) (d : Fin 8) (v : Words m) : Words m := fun i =>
  mix (cipher.rotation d) v (cipher.permutation i)

/-- Four rounds, which start at an even or at an odd group of the rotations. -/
def fourRounds (cipher : Cipher m) (g : ℕ) (v : Words m) : Words m :=
  [0, 1, 2, 3].foldl (fun v d => round cipher (Fin.ofNat 8 (4 * g + d)) v) v

def encrypt (cipher : Cipher m) (schedule : Schedule m) (v : Words m) : Words m :=
  (List.range cipher.groups).foldl
    (fun v g => addKey schedule (g + 1) (fourRounds cipher g v)) (addKey schedule 0 v)

theorem addKey_injective (schedule : Schedule m) (s : ℕ) :
    Function.Injective (addKey schedule s) := by
  intro v v' h
  funext i
  simpa [addKey] using congrFun h i

theorem round_injective (cipher : Cipher m) (d : Fin 8) :
    Function.Injective (round cipher d) := by
  intro v v' h
  apply mix_injective (cipher.rotation d)
  funext i
  simpa [round] using congrFun h (cipher.permutation.symm i)

theorem foldl_injective {α ι : Type*} {turn : α → ι → α} {turns : List ι}
    (h : ∀ i, Function.Injective (turn · i)) : Function.Injective (turns.foldl turn ·) := by
  induction turns with
  | nil => exact Function.injective_id
  | cons i turns ih => exact ih.comp (h i)

theorem encrypt_injective (cipher : Cipher m) (schedule : Schedule m) :
    Function.Injective (encrypt cipher schedule) := by
  have hfour : ∀ g, Function.Injective (fourRounds cipher g) := fun g =>
    foldl_injective fun d => round_injective cipher _
  have hgroups : Function.Injective ((List.range cipher.groups).foldl
      (fun v g => addKey schedule (g + 1) (fourRounds cipher g v)) ·) :=
    foldl_injective fun g => (addKey_injective schedule (g + 1)).comp (hfour g)
  exact hgroups.comp (addKey_injective schedule 0)

end Threefish
