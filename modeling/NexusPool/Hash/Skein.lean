import NexusPool.Codec.LittleEndian
import NexusPool.Hash.SkeinBlock
import NexusPool.Library.HoldBack
import NexusPool.Library.Sponge

/-!
# The Skein hash function of `skein.cpp`

The functions exist three times, for three sizes of the block, and are the same but for their
tables. The last bytes of the message stay in the buffer, also when they fill it: the last block
carries a flag, so it must be known as such. The assertions are compiled out, and every function
returns `SKEIN_SUCCESS`.
-/

namespace NexusPool

open SkeinBlock (Chain)

/-! ### Constants -/

def skeinT1BlkTypeKey : UInt64 := (0 : UInt64) <<< 56

def skeinT1BlkTypeCfg : UInt64 := (4 : UInt64) <<< 56

def skeinT1BlkTypeMsg : UInt64 := (48 : UInt64) <<< 56

def skeinT1BlkTypeOut : UInt64 := (63 : UInt64) <<< 56

def skeinT1BlkTypeCfgFinal : UInt64 := skeinT1BlkTypeCfg ||| skeinT1FlagFinal

def skeinT1BlkTypeOutFinal : UInt64 := skeinT1BlkTypeOut ||| skeinT1FlagFinal

def skeinSchemaVer : UInt64 := (0x33414853 : UInt64) + ((1 : UInt64) <<< 32)

def skeinCfgStrLen : ℕ := 4 * 8

def skeinCfgTreeInfoSequential : UInt64 := 0

def skein256Iv128 : Vector UInt64 4 :=
  #v[0x302F7EA23D7FE2E1, 0xADE4683A6913752B, 0x975CFABEF208AB0A, 0x2AF4BA95F831F55B]

def skein256Iv160 : Vector UInt64 4 :=
  #v[0xA38A0D80A3687723, 0xB73CDB6A5963FFC9, 0x9633E8EA07A1B447, 0xCA0ED09EC9529C22]

def skein256Iv224 : Vector UInt64 4 :=
  #v[0xB80929699AE0F431, 0xD340DC14A06929DC, 0xAE866594BDE4DC5A, 0x339767C25A60EA1D]

def skein256Iv256 : Vector UInt64 4 :=
  #v[0x388512680E660046, 0x4B72D5DEC5A8FF01, 0x281A9298CA5EB3A5, 0x54CA5249F46070C4]

def skein512Iv224 : Vector UInt64 8 :=
  #v[0xF2DAA1698216CC98, 0x00E06A488983AE05, 0xC080CEA95948958F, 0x2A8F314B57F4ADD1,
    0xBCD06591360A405A, 0xF81A11A102D91F70, 0x85C6FFA54810A739, 0x1E07AFE01802CE74]

def skein512Iv256 : Vector UInt64 8 :=
  #v[0x88C07F38D4F95AD4, 0x3DF0D33A8610E240, 0x3E243F6EDB6FAC74, 0xBAC4F4CDD7A90A24,
    0xDF90FD1FDEEEBA04, 0xA4F5796BDB7FDDA8, 0xDA182FD2964BC923, 0x55F76677EF6961F9]

def skein512Iv384 : Vector UInt64 8 :=
  #v[0xE5BF4D02BA62494C, 0x7AA1EABCC3E6FC68, 0xBBE5FC26E1038C5A, 0x53C9903E8F88E9FA,
    0xF30D8DDDFB940C83, 0x500FDA3C4865ABEC, 0x2226C67F745BC5E7, 0x015DA80077C639F7]

def skein512Iv512 : Vector UInt64 8 :=
  #v[0xA8D47980544A6E32, 0x847511533E9B1A8A, 0x6FAEE870D8E81A00, 0x58B0D9D6CB557F92,
    0x9BBC0051DAC1D4E9, 0xB744E2B1D189E7CA, 0x979350FA709C5EF3, 0x0350125A92067BCD]

def skein1024Iv384 : Vector UInt64 16 :=
  #v[0x7600B2E39FC73E48, 0x7A4543BBECCD60E4, 0x8AB879D62F53E192, 0x14847919A7F0AC6E,
    0x4F774735AA99CB7F, 0x607CF3C241760EE1, 0xC0BF6D7BFF9F27DB, 0x7D32148599342254,
    0xE7231BB0CDF9DD49, 0x641DE8E6464DB3F4, 0x05613046A01CF005, 0x7347EE0BB09E8BCC,
    0x5103A256161A26FF, 0x8161EAC43A1176C2, 0xB9607373CF92C2CC, 0xFDE8D4ADD376300D]

def skein1024Iv512 : Vector UInt64 16 :=
  #v[0x8CF63BE5E1EDF4B7, 0x256FD425CBDE61EB, 0x497B412DEBA3EF9D, 0x3CBD412AD8293FBA,
    0xD5AE34D6F26F646E, 0x72879C010DA17B79, 0x61BD8F1805AFF621, 0x75CB3C949CE0E463,
    0xAF27329D2CD71E37, 0x7DB5EC5E1141CE9F, 0x76484C1320CAB67B, 0x57EB52A6561BE8C5,
    0x51161125E681412D, 0xF510D9375439A9BC, 0xD18AF77CFC425E3C, 0xEB05160C3FEBB037]

def skein1024Iv1024 : Vector UInt64 16 :=
  #v[0x5A4352BE62092156, 0x5F6E8B1A72F001CA, 0xFFCBFE9CA1A2CE26, 0x6C23C39667038BCA,
    0x583A8BFCCE34EB6C, 0x3FDBFB11D4A46A3E, 0x3304ACFCA8300998, 0xB2F6675FA17F0FD2,
    0x9D2599730EF7AB6B, 0x0914A20D3DFEA9E4, 0xCC1A9CAFA494DBD3, 0x9828030DA0A6388C,
    0x0D339D5DAADEE3DC, 0xFC46DE35C4E2A086, 0x53D6E4F52E19A6D1, 0x5663952F715D1DDD]

/-! ### The functions, for every size -/

/-- What the three copies differ in: the block function and the table of precomputed chaining
variables. The block function's uninitialised array is taken as zero. -/
structure SkeinVariant (m : ℕ) where
  processBlock : Chain m → List (Vector UInt64 (2 * m)) → UInt64 → Chain m
  precomputed : UInt64 → Option (Vector UInt64 (2 * m))

def Skein.blockBytes (m : ℕ) : ℕ := 8 * (2 * m)

/-- The context of a hash: `chain` holds the tweak words `T` and the chaining variables `X`. -/
structure SkeinCtxt (m : ℕ) where
  hashBitLen : UInt64
  bCnt : ℕ
  chain : Chain m
  b : Vector UInt8 (Skein.blockBytes m)

namespace Skein

variable {m : ℕ}

/-- `memcpy` and `memset`. -/
def copyTo {n : ℕ} (b : Vector UInt8 n) (start : ℕ) (bytes : Bytes) : Vector UInt8 n :=
  Sponge.overlay (fun _ byte => byte) b start bytes

/-- The words of a block, with zeros for the words that are missing. -/
def blockWords (m : ℕ) (bytes : Bytes) : Vector UInt64 (2 * m) :=
  Vector.ofFn fun i => (wordsOfBytes bytes)[i.val]?.getD 0

/-- `blkCnt` blocks in memory. -/
def processBlock (variant : SkeinVariant m) (ctx : SkeinCtxt m) (blkPtr : Bytes) (blkCnt : ℕ)
    (byteCntAdd : ℕ) : SkeinCtxt m :=
  { ctx with
    chain := variant.processBlock ctx.chain
      ((HoldBack.blocks (blockBytes m) blkCnt blkPtr).map (blockWords m))
      (UInt64.ofNat byteCntAdd) }

def startNewType (ctx : SkeinCtxt m) (type : UInt64) : SkeinCtxt m :=
  { ctx with chain := { ctx.chain with t₀ := 0, t₁ := skeinT1FlagFirst ||| type }, bCnt := 0 }

def cfg (m : ℕ) (hashBitLen treeInfo : UInt64) : Bytes :=
  bytesOfWords ([skeinSchemaVer, hashBitLen, treeInfo] ++ List.replicate (2 * m - 3) 0)

def withX (ctx : SkeinCtxt m) (x : Vector UInt64 (2 * m)) : SkeinCtxt m :=
  { ctx with chain := { ctx.chain with x } }

def init (variant : SkeinVariant m) (ctx : SkeinCtxt m) (hashBitLen : UInt64) : SkeinCtxt m :=
  let ctx := { ctx with hashBitLen }
  let ctx := match variant.precomputed hashBitLen with
    | some iv => withX ctx iv
    | none =>
      let ctx := startNewType ctx skeinT1BlkTypeCfgFinal
      let ctx := withX ctx (Vector.replicate _ 0)
      processBlock variant ctx (cfg m hashBitLen skeinCfgTreeInfoSequential) 1 skeinCfgStrLen
  startNewType ctx skeinT1BlkTypeMsg

/-- The bytes that are missing in the buffer. -/
def fillBuffer (ctx : SkeinCtxt m) (msg : Bytes) : SkeinCtxt m × Bytes :=
  let n := blockBytes m - ctx.bCnt
  if n ≠ 0
    then ({ ctx with b := copyTo ctx.b ctx.bCnt (msg.take n), bCnt := ctx.bCnt + n }, msg.drop n)
    else (ctx, msg)

/-- The buffer filled up and worked off. -/
def flushBuffer (variant : SkeinVariant m) (ctx : SkeinCtxt m) (msg : Bytes) :
    SkeinCtxt m × Bytes :=
  if ctx.bCnt ≠ 0 then
    let (ctx, msg) := fillBuffer ctx msg
    ({ processBlock variant ctx ctx.b.toList 1 (blockBytes m) with bCnt := 0 }, msg)
  else (ctx, msg)

def fullBlocks (variant : SkeinVariant m) (ctx : SkeinCtxt m) (msg : Bytes) :
    SkeinCtxt m × Bytes :=
  if msg.length > blockBytes m then
    let n := (msg.length - 1) / blockBytes m
    (processBlock variant ctx msg n (blockBytes m), msg.drop (n * blockBytes m))
  else (ctx, msg)

def bufferRest (ctx : SkeinCtxt m) (msg : Bytes) : SkeinCtxt m :=
  if msg.length ≠ 0
    then { ctx with b := copyTo ctx.b ctx.bCnt msg, bCnt := ctx.bCnt + msg.length }
    else ctx

def update (variant : SkeinVariant m) (ctx : SkeinCtxt m) (msg : Bytes) : SkeinCtxt m :=
  if msg.length + ctx.bCnt > blockBytes m then
    let (ctx, msg) := flushBuffer variant ctx msg
    let (ctx, msg) := fullBlocks variant ctx msg
    bufferRest ctx msg
  else bufferRest ctx msg

def finalBlock (variant : SkeinVariant m) (ctx : SkeinCtxt m) : SkeinCtxt m :=
  let ctx := { ctx with chain := { ctx.chain with t₁ := ctx.chain.t₁ ||| skeinT1FlagFinal } }
  let ctx := if ctx.bCnt < blockBytes m
    then { ctx with b := copyTo ctx.b ctx.bCnt (List.replicate (blockBytes m - ctx.bCnt) 0) }
    else ctx
  processBlock variant ctx ctx.b.toList 1 ctx.bCnt

def finalPad (variant : SkeinVariant m) (ctx : SkeinCtxt m) : SkeinCtxt m × Bytes :=
  let ctx := finalBlock variant ctx
  (ctx, bytesOfWords ctx.chain.x.toList)

/-- One turn of the counter mode: the context with the key restored, and `n` bytes. -/
def outputBlock (variant : SkeinVariant m) (ctx : SkeinCtxt m) (x : Vector UInt64 (2 * m))
    (i n : ℕ) : SkeinCtxt m × Bytes :=
  let ctx := { ctx with b := copyTo ctx.b 0 (bytesOfWord (UInt64.ofNat i)) }
  let ctx := startNewType ctx skeinT1BlkTypeOutFinal
  let ctx := processBlock variant ctx ctx.b.toList 1 8
  (withX ctx x, (bytesOfWords ctx.chain.x.toList).take n)

/-- The loop of the counter mode runs once for every block that begins within the result. -/
def output (variant : SkeinVariant m) (ctx : SkeinCtxt m) : SkeinCtxt m × Bytes :=
  let byteCnt := ((ctx.hashBitLen + 7) >>> 3).toNat
  let ctx := { ctx with b := Vector.replicate _ 0 }
  let x := ctx.chain.x
  (List.range ((byteCnt + blockBytes m - 1) / blockBytes m)).foldl
    (fun (s : SkeinCtxt m × Bytes) i =>
      let n := min (byteCnt - i * blockBytes m) (blockBytes m)
      let (ctx, bytes) := outputBlock variant s.1 x i n
      (ctx, s.2 ++ bytes))
    (ctx, [])

/-- The counter mode is written out once more in the source. -/
def final (variant : SkeinVariant m) (ctx : SkeinCtxt m) : SkeinCtxt m × Bytes :=
  output variant (finalBlock variant ctx)

def initExt (variant : SkeinVariant m) (ctx : SkeinCtxt m) (hashBitLen treeInfo : UInt64)
    (key : Bytes) : SkeinCtxt m :=
  let ctx := if key.length = 0 then withX ctx (Vector.replicate _ 0)
    else
      let ctx := { ctx with hashBitLen := UInt64.ofNat (8 * blockBytes m) }
      let ctx := startNewType ctx skeinT1BlkTypeKey
      let ctx := withX ctx (Vector.replicate _ 0)
      let ctx := update variant ctx key
      let (ctx, bytes) := finalPad variant ctx
      withX ctx (blockWords m bytes)
  let ctx := { ctx with hashBitLen }
  let ctx := startNewType ctx skeinT1BlkTypeCfgFinal
  let ctx := processBlock variant ctx (cfg m hashBitLen treeInfo) 1 skeinCfgStrLen
  startNewType { ctx with bCnt := 0 } skeinT1BlkTypeMsg

end Skein

/-! ### The three copies -/

def skein256 : SkeinVariant 2 where
  processBlock := skein256ProcessBlock (Vector.replicate _ 0)
  precomputed hashBitLen :=
    if hashBitLen = 256 then some skein256Iv256
    else if hashBitLen = 224 then some skein256Iv224
    else if hashBitLen = 160 then some skein256Iv160
    else if hashBitLen = 128 then some skein256Iv128
    else none

def skein512 : SkeinVariant 4 where
  processBlock := skein512ProcessBlock (Vector.replicate _ 0)
  precomputed hashBitLen :=
    if hashBitLen = 512 then some skein512Iv512
    else if hashBitLen = 384 then some skein512Iv384
    else if hashBitLen = 256 then some skein512Iv256
    else if hashBitLen = 224 then some skein512Iv224
    else none

def skein1024 : SkeinVariant 8 where
  processBlock := skein1024ProcessBlock (Vector.replicate _ 0)
  precomputed hashBitLen :=
    if hashBitLen = 512 then some skein1024Iv512
    else if hashBitLen = 384 then some skein1024Iv384
    else if hashBitLen = 1024 then some skein1024Iv1024
    else none

def skein256Init := Skein.init skein256

def skein256InitExt := Skein.initExt skein256

def skein256Update := Skein.update skein256

def skein256Final := Skein.final skein256

def skein256FinalPad := Skein.finalPad skein256

def skein256Output := Skein.output skein256

def skein512Init := Skein.init skein512

def skein512InitExt := Skein.initExt skein512

def skein512Update := Skein.update skein512

def skein512Final := Skein.final skein512

def skein512FinalPad := Skein.finalPad skein512

def skein512Output := Skein.output skein512

def skein1024Init := Skein.init skein1024

def skein1024InitExt := Skein.initExt skein1024

def skein1024Update := Skein.update skein1024

def skein1024Final := Skein.final skein1024

def skein1024FinalPad := Skein.finalPad skein1024

def skein1024Output := Skein.output skein1024

end NexusPool
