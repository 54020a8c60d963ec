import NexusPool.Codec.LittleEndian
import NexusPool.Library.InPlace
import NexusPool.Library.Threefish

/-!
# The block functions of `skein_block.cpp`

Each block is encrypted under the chaining variables, with the number of bytes processed so far
and flags as the tweak, and xored with the result. Two of the functions have all their rounds
unrolled and look the words of a subkey up modulo their number. The third one is a loop: it
moves through one array that holds the tweak and, three words behind, the key, and appends the
words that it leaves behind, each before the tweak overwrites it.
-/

namespace NexusPool

/-! ### Constants -/

def skeinKsParity : UInt64 := 0x5555555555555555

def skeinT1FlagFirst : UInt64 := (1 : UInt64) <<< 62

def skeinT1FlagFinal : UInt64 := (1 : UInt64) <<< 63

def rotL64 (x n : UInt64) : UInt64 := (x <<< n) ||| (x >>> (64 - n))

/-- The words that take part in the rounds one to four, in pairs, and the rotations of eight
rounds. -/
structure SkeinRounds (m : ℕ) where
  words : Vector (Vector (Fin (2 * m)) (2 * m)) 4
  rotations : Vector (Vector UInt64 m) 8

def skein256Rounds : SkeinRounds 2 where
  words := #v[#v[0, 1, 2, 3], #v[0, 3, 2, 1], #v[0, 1, 2, 3], #v[0, 3, 2, 1]]
  rotations := #v[#v[5, 56], #v[36, 28], #v[13, 46], #v[58, 44], #v[26, 20], #v[53, 35],
    #v[11, 42], #v[59, 50]]

def skein512Rounds : SkeinRounds 4 where
  words := #v[#v[0, 1, 2, 3, 4, 5, 6, 7], #v[2, 1, 4, 7, 6, 5, 0, 3],
    #v[4, 1, 6, 3, 0, 5, 2, 7], #v[6, 1, 0, 7, 2, 5, 4, 3]]
  rotations := #v[#v[38, 30, 50, 53], #v[48, 20, 43, 31], #v[34, 14, 15, 27], #v[26, 12, 58, 7],
    #v[33, 49, 8, 42], #v[39, 27, 41, 14], #v[29, 26, 11, 9], #v[33, 51, 39, 35]]

def skein1024Rounds : SkeinRounds 8 where
  words := #v[#v[0, 1, 2, 3, 4, 5, 6, 7, 8, 9, 10, 11, 12, 13, 14, 15],
    #v[0, 9, 2, 13, 6, 11, 4, 15, 10, 7, 12, 3, 14, 5, 8, 1],
    #v[0, 7, 2, 5, 4, 3, 6, 1, 12, 15, 14, 13, 8, 11, 10, 9],
    #v[0, 15, 2, 11, 6, 13, 4, 9, 14, 1, 8, 5, 10, 3, 12, 7]]
  rotations := #v[#v[55, 43, 37, 40, 16, 22, 38, 12], #v[25, 25, 46, 13, 14, 13, 52, 57],
    #v[33, 8, 18, 57, 21, 12, 32, 54], #v[34, 43, 25, 60, 44, 9, 59, 34],
    #v[28, 7, 47, 48, 51, 9, 35, 41], #v[17, 6, 18, 25, 43, 42, 40, 15],
    #v[58, 7, 32, 45, 19, 18, 2, 56], #v[47, 49, 27, 58, 37, 48, 53, 56]]

attribute [local instance] InPlace.neZero_two InPlace.neZero_five

namespace SkeinBlock

variable {m k : ℕ}

/-! ### Rounds -/

def round (words : Vector (Fin (2 * m)) (2 * m)) (rotations : Vector UInt64 m)
    (x : Vector UInt64 (2 * m)) : Vector UInt64 (2 * m) :=
  InPlace.updatePairs (fun j : Fin m => words.get (Threefish.evenIndex j))
    (fun j => words.get (Threefish.oddIndex j))
    (fun j pair =>
      let x₀ := pair.1 + pair.2
      let x₁ := rotL64 pair.2 (rotations.get j)
      (x₀, x₁ ^^^ x₀))
    x (List.finRange m)

/-- Four rounds with the rotations from `first` on. -/
def fourRounds (rounds : SkeinRounds m) (first : Fin 5) (x : Vector UInt64 (2 * m)) :
    Vector UInt64 (2 * m) :=
  (List.finRange 4).foldl
    (fun x d => round rounds.words[d] rounds.rotations[first.val + d.val] x) x

/-- The key array and the words of the block. -/
abbrev Registers (m k : ℕ) := Vector UInt64 k × Vector UInt64 (2 * m)

/-- Eight rounds, with a key injection after the fourth and after the last. -/
def eightRounds (rounds : SkeinRounds m) (inject : Fin 2 → Registers m k → Registers m k)
    (s : Registers m k) : Registers m k :=
  let s := inject 0 (s.1, fourRounds rounds 0 s.2)
  inject 1 (s.1, fourRounds rounds 4 s.2)

def injectWords (x : Vector UInt64 (2 * m)) (key : Fin (2 * m) → UInt64) (t₀ t₁ count : UInt64) :
    Vector UInt64 (2 * m) :=
  Vector.ofFn fun i => x[i] +
    (if i.val + 3 = 2 * m then key i + t₀
    else if i.val + 2 = 2 * m then key i + t₁
    else if i.val + 1 = 2 * m then key i + count
    else key i)

/-! ### Unrolled -/

/-- `ks` and `ts` lie in one array, `ks` from word 3 on. -/
def ksIndex (n : ℕ) : Fin (2 * m + 4) :=
  ⟨3 + n % (2 * m + 1), by
    have hlt : n % (2 * m + 1) < 2 * m + 1 := Nat.mod_lt _ (Nat.succ_pos _)
    omega⟩

def tsIndex (n : ℕ) : Fin (2 * m + 4) := ⟨n % 3, by omega⟩

def injectUnrolled (r : ℕ) (s : Registers m (2 * m + 4)) : Registers m (2 * m + 4) :=
  let (kw, x) := s
  (kw, injectWords x (fun i => kw[@ksIndex m (r + 1 + i.val)]) kw[@tsIndex m (r + 1)]
    kw[@tsIndex m (r + 2)] (UInt64.ofNat r + 1))

def roundsUnrolled (rounds : SkeinRounds m) (rcnt : ℕ) (s : Registers m (2 * m + 4)) :
    Registers m (2 * m + 4) :=
  (List.range rcnt).foldl
    (fun s r => eightRounds rounds (fun half => injectUnrolled (2 * r + half)) s) s

/-! ### Looping -/

/-- The words that are left behind are appended: first that of the key, then that of the
tweak. The injections are counted from zero. -/
def injectLooping {rcnt : ℕ} (r : Fin (2 * rcnt)) (s : Registers m (2 * m + 4 + 2 * rcnt)) :
    Registers m (2 * m + 4 + 2 * rcnt) :=
  let (kw, x) := s
  let x := injectWords x (fun i => kw[3 + (r.val + 1 + i.val)]) kw[r.val + 1] kw[r.val + 1 + 1]
    (UInt64.ofNat (r.val + 1))
  let kw := kw.set (3 + (r.val + 1 + 2 * m)) kw[3 + (r.val + 1 - 1)]
  let kw := kw.set (r.val + 1 + 2) kw[r.val + 1 - 1]
  (kw, x)

def roundsLooping (rounds : SkeinRounds m) (rcnt : ℕ)
    (s : Registers m (2 * m + 4 + 2 * rcnt)) : Registers m (2 * m + 4 + 2 * rcnt) :=
  (List.finRange rcnt).foldl
    (fun s r => eightRounds rounds
      (fun half => injectLooping ⟨2 * r.val + half.val, by omega⟩) s) s

/-! ### Blocks -/

/-- The key schedule of a block. -/
def precompute (hk : 2 * m + 4 ≤ k) (chain : Vector UInt64 (2 * m)) (kw : Vector UInt64 k) :
    Vector UInt64 k :=
  let kw := (List.finRange (2 * m)).foldl (fun kw i => kw.set (3 + i.val) chain[i]) kw
  let kw := kw.set (3 + 2 * m)
    (((List.finRange (2 * m)).map fun i => kw[3 + i.val]).foldl (· ^^^ ·) 0 ^^^ skeinKsParity)
  kw.set 2 (kw[0] ^^^ kw[1])

/-- The chaining variables and the tweak words. -/
@[ext] structure Chain (m : ℕ) where
  x : Vector UInt64 (2 * m)
  t₀ : UInt64
  t₁ : UInt64

def chainOf (hk : 2 * m + 4 ≤ k) (s : Registers m k) : Chain m :=
  { x := s.2, t₀ := s.1[0], t₁ := s.1[1] }

def processOne (hk : 2 * m + 4 ≤ k) (rounds : Registers m k → Registers m k)
    (byteCntAdd : UInt64) (s : Registers m k) (w : Vector UInt64 (2 * m)) : Registers m k :=
  let (kw, chain) := s
  let kw := kw.set 0 (kw[0] + byteCntAdd)
  let kw := precompute hk chain kw
  let x : Vector UInt64 (2 * m) := Vector.ofFn fun i =>
    if i.val + 3 = 2 * m then w[i] + kw[3 + i.val] + kw[0]
    else if i.val + 2 = 2 * m then w[i] + kw[3 + i.val] + kw[1]
    else w[i] + kw[3 + i.val]
  let (kw, x) := rounds (kw, x)
  (kw.set 1 (kw[1] &&& ~~~skeinT1FlagFirst), Vector.ofFn fun i => x[i] ^^^ w[i])

/-- The array is not initialised; `junk` is what it holds. -/
def processBlocks (hk : 2 * m + 4 ≤ k) (rounds : Registers m k → Registers m k)
    (junk : Vector UInt64 k) (c : Chain m) (blocks : List (Vector UInt64 (2 * m)))
    (byteCntAdd : UInt64) : Chain m :=
  let kw := (junk.set 0 c.t₀).set 1 c.t₁
  chainOf hk (blocks.foldl (processOne hk rounds byteCntAdd) (kw, c.x))

end SkeinBlock

open SkeinBlock

def skein256ProcessBlock (junk : Vector UInt64 8) (c : Chain 2)
    (blocks : List (Vector UInt64 4)) (byteCntAdd : UInt64) : Chain 2 :=
  processBlocks (by decide) (roundsUnrolled skein256Rounds 9) junk c blocks byteCntAdd

def skein512ProcessBlock (junk : Vector UInt64 12) (c : Chain 4)
    (blocks : List (Vector UInt64 8)) (byteCntAdd : UInt64) : Chain 4 :=
  processBlocks (by decide) (roundsUnrolled skein512Rounds 9) junk c blocks byteCntAdd

def skein1024ProcessBlock (junk : Vector UInt64 40) (c : Chain 8)
    (blocks : List (Vector UInt64 16)) (byteCntAdd : UInt64) : Chain 8 :=
  processBlocks (by decide) (roundsLooping skein1024Rounds 10) junk c blocks byteCntAdd

end NexusPool
