import NexusPool.Hash.Skein
import NexusPool.Hash.SkeinCipher

/-!
# What the Skein functions compute

A message is chained block by block: the tweak of a block is the number of bytes up to its end,
the type of the message and two flags, for the first and for the last block. The key, the
configuration, the message and every block of the result are messages of their own types. The
context that takes a message in pieces holds what this chaining has come to, and the last block
in its buffer.
-/

namespace NexusPool

open SkeinBlock
open Threefish (Cipher)

namespace Skein

variable {m : ℕ}

/-! ### Chaining -/

/-- Zeros up to the size of a block. -/
def padded (m : ℕ) (bytes : Bytes) : Bytes :=
  bytes ++ List.replicate (blockBytes m - bytes.length) 0

def flags (type : UInt64) (first final : Bool) : UInt64 :=
  ((if first then skeinT1FlagFirst else 0) ||| type) ||| (if final then skeinT1FlagFinal else 0)

/-- The block encrypted under the value so far, and xored with itself. -/
def chained (cipher : Cipher m) (t₀ t₁ : UInt64) (x w : Vector UInt64 (2 * m)) :
    Vector UInt64 (2 * m) :=
  (compress cipher 0 ⟨x, t₀, t₁⟩ w).x

def ubiBlock (cipher : Cipher m) (type : UInt64) (data : Bytes) (x : Vector UInt64 (2 * m))
    (i : ℕ) : Vector UInt64 (2 * m) :=
  chained cipher (UInt64.ofNat (min ((i + 1) * blockBytes m) data.length))
    (flags type (i == 0) (i == HoldBack.done (blockBytes m) data.length)) x
    (blockWords m (padded m ((data.drop (i * blockBytes m)).take (blockBytes m))))

def ubi (cipher : Cipher m) (type : UInt64) (x : Vector UInt64 (2 * m)) (data : Bytes) :
    Vector UInt64 (2 * m) :=
  (List.range (HoldBack.done (blockBytes m) data.length + 1)).foldl (ubiBlock cipher type data) x

/-- The blocks of the result, cut off at its length. -/
def counterMode (cipher : Cipher m) (x : Vector UInt64 (2 * m)) (byteCnt : ℕ) : Bytes :=
  ((List.range ((byteCnt + blockBytes m - 1) / blockBytes m)).flatMap fun i =>
    bytesOfWords (ubi cipher skeinT1BlkTypeOut x (bytesOfWord (UInt64.ofNat i))).toList).take
      byteCnt

def digest (cipher : Cipher m) (hashBitLen treeInfo : UInt64) (key msg : Bytes) : Bytes :=
  let zero := Vector.replicate _ 0
  let x := if key = [] then zero else ubi cipher skeinT1BlkTypeKey zero key
  let x := ubi cipher skeinT1BlkTypeCfg x
    (bytesOfWords [skeinSchemaVer, hashBitLen, treeInfo, 0])
  let x := ubi cipher skeinT1BlkTypeMsg x msg
  counterMode cipher x ((hashBitLen + 7) >>> 3).toNat

/-! ### Buffers -/

section Buffer

variable {n start : ℕ} {b : Vector UInt8 n} {bytes : Bytes}

theorem getElem_copyTo {k : ℕ} (hk : k < n) :
    (copyTo b start bytes)[k] =
      if start ≤ k then (bytes[k - start]?).getD b[k] else b[k] := by
  rw [copyTo, Sponge.getElem_overlay hk]
  split_ifs
  · cases bytes[k - start]? <;> rfl
  · rfl

theorem take_copyTo (h : start + bytes.length ≤ n) :
    (copyTo b start bytes).toList.take (start + bytes.length) = b.toList.take start ++ bytes := by
  apply List.ext_getElem
  · simp
    omega
  · intro k hk hk'
    simp only [List.length_take, Vector.length_toList] at hk
    rw [List.getElem_take, Vector.getElem_toList, getElem_copyTo]
    split_ifs with hstart
    · rw [List.getElem_append_right (by simp; omega)]
      have hindex : k - (b.toList.take start).length = k - start := by
        simp
        omega
      simp only [hindex]
      rw [List.getElem?_eq_getElem (by omega)]
      rfl
    · rw [List.getElem_append_left (by simp; omega)]
      simp

theorem toList_copyTo (h : start + bytes.length = n) :
    (copyTo b start bytes).toList = b.toList.take start ++ bytes := by
  have htake := @take_copyTo n start b bytes h.le
  rwa [h, List.take_of_length_le (by simp)] at htake

end Buffer

/-! ### Pieces -/

def turn (cipher : Cipher m) (c : Chain m) (block : Bytes) : Chain m :=
  compress cipher (UInt64.ofNat (blockBytes m)) c (blockWords m block)

/-- The block function runs the cipher. -/
def Runs (variant : SkeinVariant m) (cipher : Cipher m) : Prop :=
  ∀ c blocks byteCntAdd,
    variant.processBlock c blocks byteCntAdd = blocks.foldl (compress cipher byteCntAdd) c

/-- The context between two calls, after the bytes `data` of one message: all blocks that are
surely not the last are worked off, and the bytes behind them lie in the buffer. -/
structure Represents (cipher : Cipher m) (start : Chain m) (ctx : SkeinCtxt m) (data : Bytes) :
    Prop where
  chain : ctx.chain = HoldBack.worked (blockBytes m) (turn cipher) start data
  buffer : ctx.b.toList.take ctx.bCnt = HoldBack.kept (blockBytes m) data
  count : ctx.bCnt = (HoldBack.kept (blockBytes m) data).length

section Pieces

variable {variant : SkeinVariant m} {cipher : Cipher m} {start : Chain m} {ctx : SkeinCtxt m}
  {data msg : Bytes}

theorem chain_processBlock (hruns : Runs variant cipher) (k : ℕ) :
    (processBlock variant ctx msg k (blockBytes m)).chain =
      (HoldBack.blocks (blockBytes m) k msg).foldl (turn cipher) ctx.chain := by
  simp only [processBlock, hruns _ _ _, List.foldl_map]
  rfl

theorem fillBuffer_spec (hcount : ctx.bCnt ≤ blockBytes m)
    (hlarge : blockBytes m < msg.length + ctx.bCnt) :
    let r := fillBuffer ctx msg
    r.1.chain = ctx.chain ∧ r.1.hashBitLen = ctx.hashBitLen ∧
      r.1.b.toList = (ctx.b.toList.take ctx.bCnt ++ msg).take (blockBytes m) ∧
      r.2 = (ctx.b.toList.take ctx.bCnt ++ msg).drop (blockBytes m) := by
  have hlength : (ctx.b.toList.take ctx.bCnt).length = ctx.bCnt := by
    simpa using hcount
  have htake : (ctx.b.toList.take ctx.bCnt ++ msg).take (blockBytes m) =
      ctx.b.toList.take ctx.bCnt ++ msg.take (blockBytes m - ctx.bCnt) := by
    rw [List.take_append, hlength, List.take_of_length_le (by omega)]
  have hdrop : (ctx.b.toList.take ctx.bCnt ++ msg).drop (blockBytes m) =
      msg.drop (blockBytes m - ctx.bCnt) := by
    rw [List.drop_append, hlength, List.drop_of_length_le (by omega), List.nil_append]
  by_cases h : blockBytes m - ctx.bCnt ≠ 0
  · rw [show fillBuffer ctx msg = _ from if_pos h]
    refine ⟨rfl, rfl, ?_, hdrop.symm⟩
    rw [htake]
    exact toList_copyTo (by
      rw [List.length_take]
      omega)
  · rw [show fillBuffer ctx msg = _ from if_neg h]
    have hfull : ctx.bCnt = blockBytes m := by omega
    refine ⟨rfl, rfl, ?_, ?_⟩
    · rw [htake, hfull, Nat.sub_self, List.take_zero, List.append_nil]
      exact (List.take_of_length_le (by simp)).symm
    · rw [hdrop, hfull, Nat.sub_self, List.drop_zero]

/-- The buffer is worked off with the bytes that fill it, if there are any in it. -/
theorem flushBuffer_spec (hruns : Runs variant cipher) (hm : 0 < m)
    (hcount : ctx.bCnt ≤ blockBytes m) (hlarge : blockBytes m < msg.length + ctx.bCnt) :
    let r := flushBuffer variant ctx msg
    r.1.bCnt = 0 ∧ r.1.hashBitLen = ctx.hashBitLen ∧
      HoldBack.worked (blockBytes m) (turn cipher) r.1.chain r.2 =
        HoldBack.worked (blockBytes m) (turn cipher) ctx.chain
          (ctx.b.toList.take ctx.bCnt ++ msg) ∧
      HoldBack.kept (blockBytes m) r.2 =
        HoldBack.kept (blockBytes m) (ctx.b.toList.take ctx.bCnt ++ msg) := by
  have hpos : 0 < blockBytes m := by
    rw [blockBytes]
    omega
  have hlength : blockBytes m < (ctx.b.toList.take ctx.bCnt ++ msg).length := by
    have hlength : (ctx.b.toList.take ctx.bCnt).length = ctx.bCnt := by
      simpa using hcount
    rw [List.length_append]
    omega
  unfold flushBuffer
  split_ifs with h
  · obtain ⟨hchain, hbits, hb, hrest⟩ := fillBuffer_spec hcount hlarge
    rw [HoldBack.worked_of_lt hpos hlength, HoldBack.kept_of_lt hpos hlength, ← hrest, ← hb,
      ← hchain]
    refine ⟨rfl, hbits, congrArg (HoldBack.worked _ _ · _) ?_, rfl⟩
    have hblock : (fillBuffer ctx msg).1.b.toList.take (blockBytes m) =
        (fillBuffer ctx msg).1.b.toList := List.take_of_length_le (by simp)
    refine (chain_processBlock hruns 1).trans ?_
    rw [HoldBack.blocks_one, hblock]
    rfl
  · have hempty : ctx.bCnt = 0 := not_not.mp h
    rw [hempty, List.take_zero, List.nil_append]
    exact ⟨hempty, rfl, rfl, rfl⟩

theorem fullBlocks_spec (hruns : Runs variant cipher) (hm : 0 < m) :
    let r := fullBlocks variant ctx msg
    r.1.bCnt = ctx.bCnt ∧ r.1.hashBitLen = ctx.hashBitLen ∧
      r.1.chain = HoldBack.worked (blockBytes m) (turn cipher) ctx.chain msg ∧
      r.2 = HoldBack.kept (blockBytes m) msg := by
  have hpos : 0 < blockBytes m := by
    rw [blockBytes]
    omega
  unfold fullBlocks
  split_ifs with h
  · exact ⟨rfl, rfl, chain_processBlock hruns _, rfl⟩
  · have hle : msg.length ≤ blockBytes m := not_lt.mp h
    exact ⟨rfl, rfl, (HoldBack.worked_of_le hpos hle).symm, (HoldBack.kept_of_le hpos hle).symm⟩

theorem bufferRest_spec {rest : Bytes} (h : ctx.bCnt + rest.length ≤ blockBytes m) :
    let r := bufferRest ctx rest
    r.chain = ctx.chain ∧ r.hashBitLen = ctx.hashBitLen ∧
      r.bCnt = ctx.bCnt + rest.length ∧
      r.b.toList.take r.bCnt = ctx.b.toList.take ctx.bCnt ++ rest := by
  by_cases hrest : rest.length ≠ 0
  · rw [show bufferRest ctx rest = _ from if_pos hrest]
    exact ⟨rfl, rfl, rfl, take_copyTo h⟩
  · have hnil : rest = [] := List.eq_nil_of_length_eq_zero (not_not.mp hrest)
    rw [show bufferRest ctx rest = _ from if_neg hrest, hnil]
    simp

theorem represents_update (hruns : Runs variant cipher) (hm : 0 < m)
    (h : Represents cipher start ctx data) :
    Represents cipher start (update variant ctx msg) (data ++ msg) ∧
      (update variant ctx msg).hashBitLen = ctx.hashBitLen := by
  have hpos : 0 < blockBytes m := by
    rw [blockBytes]
    omega
  have hcount : ctx.bCnt ≤ blockBytes m := h.count ▸ HoldBack.length_kept_le hpos
  have hworked : HoldBack.worked (blockBytes m) (turn cipher) start (data ++ msg) =
      HoldBack.worked (blockBytes m) (turn cipher) ctx.chain
        (ctx.b.toList.take ctx.bCnt ++ msg) := by
    rw [HoldBack.worked_append hpos, h.chain, h.buffer]
  have hkept : HoldBack.kept (blockBytes m) (data ++ msg) =
      HoldBack.kept (blockBytes m) (ctx.b.toList.take ctx.bCnt ++ msg) := by
    rw [HoldBack.kept_append hpos, h.buffer]
  by_cases hlarge : msg.length + ctx.bCnt > blockBytes m
  · let flushed := flushBuffer variant ctx msg
    let full := fullBlocks variant flushed.1 flushed.2
    have hupdate : update variant ctx msg = bufferRest full.1 full.2 := if_pos hlarge
    obtain ⟨hempty, hbits, hflush, hrest⟩ := flushBuffer_spec hruns hm hcount hlarge
    obtain ⟨hcnt, hbits', hchain, hrest'⟩ := @fullBlocks_spec m variant cipher
      flushed.1 flushed.2 hruns hm
    have hcnt₀ : full.1.bCnt = 0 := hcnt.trans hempty
    have hall : full.2 = HoldBack.kept (blockBytes m) (data ++ msg) :=
      hrest'.trans (hrest.trans hkept.symm)
    obtain ⟨hchain'', hbits'', hcnt'', hbuffer⟩ := @bufferRest_spec m full.1 full.2 (by
      rw [hcnt₀, Nat.zero_add, hall]
      exact HoldBack.length_kept_le hpos)
    rw [hupdate]
    refine ⟨⟨?_, ?_, ?_⟩, hbits''.trans (hbits'.trans hbits)⟩
    · rw [hworked, ← hflush]
      exact hchain''.trans hchain
    · rw [hbuffer, hcnt₀, List.take_zero, List.nil_append, hall]
    · rw [hcnt'', hcnt₀, Nat.zero_add, hall]
  · have hlength : (ctx.b.toList.take ctx.bCnt ++ msg).length ≤ blockBytes m := by
      rw [h.buffer, List.length_append, ← h.count]
      omega
    obtain ⟨hchain, hbits, hcnt, hbuffer⟩ := @bufferRest_spec m ctx msg (by omega)
    rw [show update variant ctx msg = bufferRest ctx msg from if_neg hlarge]
    rw [HoldBack.worked_of_le hpos hlength] at hworked
    rw [HoldBack.kept_of_le hpos hlength] at hkept
    refine ⟨⟨hchain.trans hworked.symm, hbuffer.trans hkept.symm, ?_⟩, hbits⟩
    rw [hkept, hcnt, List.length_append, h.buffer, ← h.count]

end Pieces

/-! ### The final block -/

section Final

variable {variant : SkeinVariant m} {cipher : Cipher m} {ctx : SkeinCtxt m} {data : Bytes}
  {type : UInt64} {x : Vector UInt64 (2 * m)}

theorem x_compress (byteCntAdd : UInt64) (c : Chain m) (w : Vector UInt64 (2 * m)) :
    (compress cipher byteCntAdd c w).x = chained cipher (c.t₀ + byteCntAdd) c.t₁ c.x w := by
  simp [chained, compress]

theorem padded_of_length {block : Bytes} (h : block.length = blockBytes m) :
    padded m block = block := by
  simp [padded, h]

/-- The flag of the first block is taken away, the type stays. -/
theorem flags_and_not_first (htype : type &&& ~~~skeinT1FlagFirst = type) (first : Bool) :
    flags type first false &&& ~~~skeinT1FlagFirst = type := by
  cases first
  · simp [flags, htype]
  · have hclear : skeinT1FlagFirst &&& ~~~skeinT1FlagFirst = 0 := by decide
    have hdistrib : (skeinT1FlagFirst ||| type) &&& ~~~skeinT1FlagFirst =
        (skeinT1FlagFirst &&& ~~~skeinT1FlagFirst) ||| (type &&& ~~~skeinT1FlagFirst) :=
      UInt64.eq_of_toBitVec_eq (by simp only [UInt64.toBitVec_and, UInt64.toBitVec_or,
        BitVec.and_or_distrib_right])
    simpa [flags, hclear, htype] using hdistrib

theorem foldl_turn (htype : type &&& ~~~skeinT1FlagFirst = type) {k : ℕ}
    (hk : k ≤ HoldBack.done (blockBytes m) data.length) :
    (HoldBack.blocks (blockBytes m) k data).foldl (turn cipher)
        ⟨x, 0, skeinT1FlagFirst ||| type⟩ =
      ⟨(List.range k).foldl (ubiBlock cipher type data) x, UInt64.ofNat (k * blockBytes m),
        flags type (k == 0) false⟩ := by
  induction k with
  | zero => simp [flags]
  | succ k ih =>
    have hend : (k + 1) * blockBytes m ≤ data.length :=
      (Nat.mul_le_mul_right _ hk).trans (HoldBack.done_mul_le _)
    have hblock : ((data.drop (k * blockBytes m)).take (blockBytes m)).length = blockBytes m := by
      rw [List.length_take, List.length_drop]
      rw [Nat.add_mul, Nat.one_mul] at hend
      omega
    have hlast : (k == HoldBack.done (blockBytes m) data.length) = false := by
      simp
      omega
    have hsum : UInt64.ofNat (k * blockBytes m) + UInt64.ofNat (blockBytes m) =
        UInt64.ofNat ((k + 1) * blockBytes m) := by
      rw [Nat.add_mul, Nat.one_mul, UInt64.ofNat_add]
    rw [HoldBack.blocks_add, List.foldl_append, ih (Nat.le_of_succ_le hk), HoldBack.blocks_one,
      List.range_succ, List.foldl_append]
    simp only [List.foldl_cons, List.foldl_nil]
    refine Chain.ext ?_ hsum ?_
    · rw [turn, x_compress]
      simp only [hsum, ubiBlock, hlast, Nat.min_eq_left hend, padded_of_length hblock]
    · simp only [turn, compress, flags_and_not_first htype]
      simp [flags]

theorem chain_processBlock_one (hruns : Runs variant cipher) {block : Bytes}
    (hblock : block.length = blockBytes m) (byteCntAdd : ℕ) :
    (processBlock variant ctx block 1 byteCntAdd).chain =
      compress cipher (UInt64.ofNat byteCntAdd) ctx.chain (blockWords m block) := by
  simp only [processBlock, hruns _ _ _, HoldBack.blocks_one, List.map_cons, List.map_nil,
    List.foldl_cons, List.foldl_nil, List.take_of_length_le hblock.le]

theorem flags_first_final (type : UInt64) :
    flags type true true = skeinT1FlagFirst ||| (type ||| skeinT1FlagFinal) :=
  UInt64.or_assoc _ _ _

theorem ubi_of_length_le (hm : 0 < m) (h : data.length ≤ blockBytes m) :
    ubi cipher type x data =
      chained cipher (UInt64.ofNat data.length) (flags type true true) x
        (blockWords m (padded m data)) := by
  have hpos : 0 < blockBytes m := by
    rw [blockBytes]
    omega
  have hmin : min ((0 + 1) * blockBytes m) data.length = data.length := by omega
  rw [ubi, HoldBack.done_of_le hpos h]
  simp only [Nat.zero_add, List.range_one, List.foldl_cons, List.foldl_nil, ubiBlock,
    HoldBack.done_of_le hpos h, Nat.zero_mul, List.drop_zero, List.take_of_length_le h]
  simp only [Nat.one_mul, Nat.min_eq_right h]
  rfl

theorem toList_zeroPadded (hcount : ctx.bCnt ≤ blockBytes m) :
    (copyTo ctx.b ctx.bCnt (List.replicate (blockBytes m - ctx.bCnt) 0)).toList =
      padded m (ctx.b.toList.take ctx.bCnt) := by
  rw [toList_copyTo (by simp; omega), padded]
  congr 2
  simp
  omega

theorem x_finalBlock (hruns : Runs variant cipher) (hm : 0 < m)
    (htype : type &&& ~~~skeinT1FlagFirst = type)
    (h : Represents cipher ⟨x, 0, skeinT1FlagFirst ||| type⟩ ctx data) :
    (finalBlock variant ctx).chain.x = ubi cipher type x data := by
  have hpos : 0 < blockBytes m := by
    rw [blockBytes]
    omega
  have hcount : ctx.bCnt ≤ blockBytes m := h.count ▸ HoldBack.length_kept_le hpos
  let last := HoldBack.done (blockBytes m) data.length
  have hchain : ctx.chain = ⟨(List.range last).foldl (ubiBlock cipher type data) x,
      UInt64.ofNat (last * blockBytes m), flags type (last == 0) false⟩ :=
    h.chain.trans (foldl_turn htype le_rfl)
  have hlength : last * blockBytes m + ctx.bCnt = data.length := by
    rw [h.count, HoldBack.length_kept]
    exact Nat.add_sub_cancel' (HoldBack.done_mul_le _)
  have hfinal : flags type (last == 0) false ||| skeinT1FlagFinal =
      flags type (last == 0) true := by
    simp [flags]
  let flagged : SkeinCtxt m :=
    { ctx with chain := { ctx.chain with t₁ := ctx.chain.t₁ ||| skeinT1FlagFinal } }
  have hlast : (finalBlock variant ctx).chain =
      compress cipher (UInt64.ofNat ctx.bCnt) flagged.chain
        (blockWords m (padded m (HoldBack.kept (blockBytes m) data))) := by
    rw [← h.buffer]
    by_cases hroom : ctx.bCnt < blockBytes m
    · rw [← toList_zeroPadded hcount]
      have hfinalBlock : finalBlock variant ctx = processBlock variant
          { flagged with b := copyTo ctx.b ctx.bCnt (List.replicate (blockBytes m - ctx.bCnt) 0) }
          (copyTo ctx.b ctx.bCnt (List.replicate (blockBytes m - ctx.bCnt) 0)).toList
            1 ctx.bCnt := by
        simp only [finalBlock, if_pos hroom]
        rfl
      rw [hfinalBlock, chain_processBlock_one hruns (by simp)]
    · have hfull : ctx.b.toList.take ctx.bCnt = ctx.b.toList :=
        List.take_of_length_le (by simpa using hroom)
      have hfinalBlock : finalBlock variant ctx =
          processBlock variant flagged ctx.b.toList 1 ctx.bCnt := by
        simp only [finalBlock, if_neg hroom]
        rfl
      rw [hfinalBlock, chain_processBlock_one hruns (by simp), hfull, padded_of_length (by simp)]
  have hblock : (data.drop (last * blockBytes m)).take (blockBytes m) =
      HoldBack.kept (blockBytes m) data :=
    List.take_of_length_le (HoldBack.length_kept_le hpos)
  have hend : min ((last + 1) * blockBytes m) data.length = data.length := by
    rw [Nat.add_mul, Nat.one_mul]
    omega
  rw [hlast, x_compress, ubi, List.range_succ, List.foldl_append]
  simp only [flagged, hchain, hfinal, ← UInt64.ofNat_add, hlength, List.foldl_cons,
    List.foldl_nil]
  rw [ubiBlock, hblock, hend, beq_self_eq_true]

theorem hashBitLen_finalBlock : (finalBlock variant ctx).hashBitLen = ctx.hashBitLen := by
  simp only [finalBlock, processBlock]
  split_ifs <;> rfl

end Final

/-! ### The result -/

section Output

variable {variant : SkeinVariant m} {cipher : Cipher m} {ctx : SkeinCtxt m}
  {x : Vector UInt64 (2 * m)}

/-- The bytes behind the counter are zero. -/
def CounterBuffer (b : Vector UInt8 (blockBytes m)) : Prop :=
  ∀ k (hk : k < blockBytes m), 8 ≤ k → b[k] = 0

theorem counterBuffer_zero : CounterBuffer (Vector.replicate (blockBytes m) (0 : UInt8)) := by
  intro k hk _
  simp

theorem counterBuffer_copyTo {b : Vector UInt8 (blockBytes m)} (hb : CounterBuffer b)
    (word : UInt64) : CounterBuffer (copyTo b 0 (bytesOfWord word)) := by
  intro k hk hbehind
  rw [getElem_copyTo hk, if_pos (Nat.zero_le k), Nat.sub_zero,
    List.getElem?_eq_none (by simpa using hbehind)]
  exact hb k hk hbehind

theorem toList_counter {b : Vector UInt8 (blockBytes m)} (hb : CounterBuffer b) (hm : 0 < m)
    (word : UInt64) :
    (copyTo b 0 (bytesOfWord word)).toList = padded m (bytesOfWord word) := by
  have hpos : 8 ≤ blockBytes m := by
    rw [blockBytes]
    omega
  apply List.ext_getElem
  · simp [padded]
    omega
  · intro k hk hk'
    simp only [Vector.length_toList] at hk
    rw [Vector.getElem_toList, getElem_copyTo hk, if_pos (Nat.zero_le k), Nat.sub_zero]
    rcases lt_or_ge k 8 with hword | hbehind
    · simp only [padded]
      rw [List.getElem_append_left (by simpa using hword), List.getElem?_eq_getElem]
      rfl
    · rw [List.getElem?_eq_none (by simpa using hbehind)]
      simp only [padded]
      rw [List.getElem_append_right (by simpa using hbehind), List.getElem_replicate]
      exact hb k hk hbehind

theorem outputBlock_spec (hruns : Runs variant cipher) (hm : 0 < m) (hb : CounterBuffer ctx.b)
    (hx : ctx.chain.x = x) (i n : ℕ) :
    let r := outputBlock variant ctx x i n
    CounterBuffer r.1.b ∧ r.1.chain.x = x ∧
      r.2 = (bytesOfWords
        (ubi cipher skeinT1BlkTypeOut x (bytesOfWord (UInt64.ofNat i))).toList).take n := by
  have hle : (bytesOfWord (UInt64.ofNat i)).length ≤ blockBytes m := by
    rw [length_bytesOfWord, blockBytes]
    omega
  refine ⟨counterBuffer_copyTo hb _, rfl, ?_⟩
  simp only [outputBlock]
  rw [chain_processBlock_one hruns (by simp), x_compress, ubi_of_length_le hm hle,
    flags_first_final]
  simp only [startNewType, hx, toList_counter hb hm]
  rfl

theorem foldl_outputBlock (hruns : Runs variant cipher) (hm : 0 < m) (hb : CounterBuffer ctx.b)
    (hx : ctx.chain.x = x) (byteCnt k : ℕ) :
    let r := (List.range k).foldl
      (fun (s : SkeinCtxt m × Bytes) i =>
        let n := min (byteCnt - i * blockBytes m) (blockBytes m)
        let (ctx, bytes) := outputBlock variant s.1 x i n
        (ctx, s.2 ++ bytes)) (ctx, [])
    CounterBuffer r.1.b ∧ r.1.chain.x = x ∧
      r.2 = ((List.range k).flatMap fun i => bytesOfWords
        (ubi cipher skeinT1BlkTypeOut x (bytesOfWord (UInt64.ofNat i))).toList).take byteCnt := by
  induction k with
  | zero => exact ⟨hb, hx, by simp⟩
  | succ k ih =>
    obtain ⟨hb', hx', hbytes⟩ := ih
    rw [List.range_succ, List.foldl_append, List.flatMap_append]
    simp only [List.foldl_cons, List.foldl_nil, List.flatMap_cons, List.flatMap_nil,
      List.append_nil]
    obtain ⟨hb'', hx'', hblock⟩ := outputBlock_spec hruns hm hb' hx' k
      (min (byteCnt - k * blockBytes m) (blockBytes m))
    refine ⟨hb'', hx'', ?_⟩
    have hlength : ∀ y : Vector UInt64 (2 * m),
        (bytesOfWords y.toList).length = blockBytes m := by
      simp [blockBytes]
    have hfront : ((List.range k).flatMap fun i => bytesOfWords
        (ubi cipher skeinT1BlkTypeOut x (bytesOfWord (UInt64.ofNat i))).toList).length =
          k * blockBytes m := by
      simp [List.length_flatMap, blockBytes]
    rw [hbytes, hblock, List.take_append, hfront, ← List.take_take,
      List.take_of_length_le (hlength _).le]

theorem output_spec (hruns : Runs variant cipher) (hm : 0 < m) :
    (output variant ctx).2 =
      counterMode cipher ctx.chain.x ((ctx.hashBitLen + 7) >>> 3).toNat :=
  (foldl_outputBlock hruns hm counterBuffer_zero rfl _ _).2.2

end Output

/-! ### The whole hash -/

section Hash

variable {variant : SkeinVariant m} {cipher : Cipher m} {ctx : SkeinCtxt m} {data : Bytes}

theorem represents_start (h : ctx.bCnt = 0) : Represents cipher ctx.chain ctx [] where
  chain := HoldBack.worked_nil.symm
  buffer := by simp [h]
  count := by simp [h]

theorem represents_updates (hruns : Runs variant cipher) (hm : 0 < m) {start : Chain m}
    (pieces : List Bytes) (h : Represents cipher start ctx data) :
    Represents cipher start (pieces.foldl (update variant) ctx) (data ++ pieces.flatten) ∧
      (pieces.foldl (update variant) ctx).hashBitLen = ctx.hashBitLen := by
  induction pieces generalizing ctx data with
  | nil => simpa using h
  | cons piece pieces ih =>
    obtain ⟨hpiece, hbits⟩ := @represents_update m variant cipher start ctx data piece hruns hm h
    obtain ⟨hrest, hbits'⟩ := ih hpiece
    rw [List.foldl_cons, List.flatten_cons, ← List.append_assoc]
    exact ⟨hrest, hbits'.trans hbits⟩

theorem bytesOfWords_replicate (k : ℕ) :
    bytesOfWords (List.replicate k 0) = List.replicate (8 * k) 0 := by
  induction k with
  | zero => rfl
  | succ k ih =>
    rw [List.replicate_succ, bytesOfWords_cons, ih, Nat.mul_succ, Nat.add_comm,
      List.replicate_add]
    rfl

/-- The configuration string is 32 bytes long, and the block begins with it. -/
theorem cfg_eq (hm : 2 ≤ m) (hashBitLen treeInfo : UInt64) :
    cfg m hashBitLen treeInfo =
      padded m (bytesOfWords [skeinSchemaVer, hashBitLen, treeInfo, 0]) := by
  have hwords : [skeinSchemaVer, hashBitLen, treeInfo] ++ List.replicate (2 * m - 3) 0 =
      [skeinSchemaVer, hashBitLen, treeInfo, 0] ++ List.replicate (2 * m - 4) 0 := by
    rw [show 2 * m - 3 = 2 * m - 4 + 1 by omega, List.replicate_succ]
    rfl
  have hzeros : blockBytes m - 8 * 4 = 8 * (2 * m - 4) := by
    rw [blockBytes]
    omega
  rw [cfg, hwords, bytesOfWords_append, bytesOfWords_replicate, padded, length_bytesOfWords]
  simp only [List.length_cons, List.length_nil, Nat.zero_add, Nat.reduceAdd, hzeros]

/-- The configuration block, on whatever the key has left. -/
theorem x_cfg (hruns : Runs variant cipher) (hm : 2 ≤ m) (hashBitLen treeInfo : UInt64) :
    (processBlock variant (startNewType ctx skeinT1BlkTypeCfgFinal)
        (cfg m hashBitLen treeInfo) 1 skeinCfgStrLen).chain.x =
      ubi cipher skeinT1BlkTypeCfg ctx.chain.x
        (bytesOfWords [skeinSchemaVer, hashBitLen, treeInfo, 0]) := by
  have hle : (bytesOfWords [skeinSchemaVer, hashBitLen, treeInfo, 0]).length ≤ blockBytes m := by
    simp [blockBytes]
    omega
  have hlength : (cfg m hashBitLen treeInfo).length = blockBytes m := by
    rw [cfg_eq hm, padded, List.length_append, List.length_replicate]
    omega
  rw [chain_processBlock_one hruns hlength, x_compress, ubi_of_length_le (by omega) hle,
    flags_first_final, cfg_eq hm]
  simp [startNewType, skeinCfgStrLen, skeinT1BlkTypeCfgFinal]

theorem blockWords_bytesOfWords (x : Vector UInt64 (2 * m)) :
    blockWords m (bytesOfWords x.toList) = x := by
  apply Vector.ext
  intro i hi
  simp [blockWords]

theorem x_key (hruns : Runs variant cipher) (hm : 0 < m) (key : Bytes) (hashBitLen : UInt64) :
    let ctx := withX (startNewType { ctx with hashBitLen } skeinT1BlkTypeKey)
      (Vector.replicate _ 0)
    blockWords m (finalPad variant (update variant ctx key)).2 =
      ubi cipher skeinT1BlkTypeKey (Vector.replicate _ 0) key := by
  intro ctx
  have hupdate := (@represents_update m variant cipher _ ctx [] key hruns hm
    (represents_start rfl)).1
  rw [finalPad, blockWords_bytesOfWords]
  exact x_finalBlock hruns hm (by decide) hupdate

theorem initExt_spec (hruns : Runs variant cipher) (hm : 2 ≤ m) (hashBitLen treeInfo : UInt64)
    (key : Bytes) :
    let r := initExt variant ctx hashBitLen treeInfo key
    r.bCnt = 0 ∧ r.hashBitLen = hashBitLen ∧
      r.chain = ⟨ubi cipher skeinT1BlkTypeCfg
        (if key = [] then Vector.replicate _ 0
          else ubi cipher skeinT1BlkTypeKey (Vector.replicate _ 0) key)
        (bytesOfWords [skeinSchemaVer, hashBitLen, treeInfo, 0]), 0,
        skeinT1FlagFirst ||| skeinT1BlkTypeMsg⟩ := by
  refine ⟨rfl, rfl, Chain.ext ?_ rfl rfl⟩
  refine (x_cfg hruns hm hashBitLen treeInfo).trans ?_
  congr 1
  by_cases hkey : key = []
  · rw [if_pos hkey, if_pos (List.length_eq_zero_iff.mpr hkey)]
    rfl
  · rw [if_neg hkey, if_neg (mt List.length_eq_zero_iff.mp hkey)]
    exact x_key hruns (by omega) key _

theorem final_pieces (hruns : Runs variant cipher) (hm : 2 ≤ m) (hashBitLen treeInfo : UInt64)
    (key : Bytes) (pieces : List Bytes) :
    (final variant
        (pieces.foldl (update variant) (initExt variant ctx hashBitLen treeInfo key))).2 =
      digest cipher hashBitLen treeInfo key pieces.flatten := by
  obtain ⟨hcount, hbits, hchain⟩ := @initExt_spec m variant cipher ctx hruns hm hashBitLen
    treeInfo key
  have hstart := @represents_start m cipher (initExt variant ctx hashBitLen treeInfo key) hcount
  rw [hchain] at hstart
  obtain ⟨hpieces, hbits'⟩ := represents_updates hruns (by omega) pieces hstart
  rw [final, output_spec hruns (by omega),
    x_finalBlock hruns (by omega) (by decide) hpieces, hashBitLen_finalBlock, hbits', hbits]
  rfl

/-! ### Precomputed chaining variables -/

/-- Every entry of the table is what the configuration block gives. -/
def Precomputed (variant : SkeinVariant m) : Prop :=
  ∀ hashBitLen iv, variant.precomputed hashBitLen = some iv →
    (variant.processBlock ⟨Vector.replicate _ 0, 0, skeinT1FlagFirst ||| skeinT1BlkTypeCfgFinal⟩
      ((HoldBack.blocks (blockBytes m) 1
        (cfg m hashBitLen skeinCfgTreeInfoSequential)).map (blockWords m))
      (UInt64.ofNat skeinCfgStrLen)).x = iv

theorem init_eq_initExt (htable : Precomputed variant) (hashBitLen : UInt64) :
    init variant ctx hashBitLen = initExt variant ctx hashBitLen skeinCfgTreeInfoSequential [] := by
  simp only [init]
  cases hiv : variant.precomputed hashBitLen with
  | none => rfl
  | some iv =>
    rw [← htable hashBitLen iv hiv]
    rfl

end Hash

end Skein

/-! ### The three sizes -/

open Skein

theorem runs_skein256 : Runs skein256 threefish256 := skein256ProcessBlock_eq _

theorem runs_skein512 : Runs skein512 threefish512 := skein512ProcessBlock_eq _

theorem runs_skein1024 : Runs skein1024 threefish1024 := skein1024ProcessBlock_eq _

theorem precomputed_skein256 : Precomputed skein256 := by
  intro hashBitLen iv h
  simp only [skein256] at h
  split_ifs at h with h₁ h₂ h₃ h₄ <;> subst hashBitLen <;> cases h <;> decide +kernel

theorem precomputed_skein512 : Precomputed skein512 := by
  intro hashBitLen iv h
  simp only [skein512] at h
  split_ifs at h with h₁ h₂ h₃ h₄ <;> subst hashBitLen <;> cases h <;> decide +kernel

theorem precomputed_skein1024 : Precomputed skein1024 := by
  intro hashBitLen iv h
  simp only [skein1024] at h
  split_ifs at h with h₁ h₂ h₃ <;> subst hashBitLen <;> cases h <;> decide +kernel

/-- Whether the chaining variables of a hash length are looked up or computed, a straight hash is
one without a key and a tree. -/
theorem skeinInit_eq_initExt :
    (∀ ctx hashBitLen, skein256Init ctx hashBitLen =
        skein256InitExt ctx hashBitLen skeinCfgTreeInfoSequential []) ∧
      (∀ ctx hashBitLen, skein512Init ctx hashBitLen =
        skein512InitExt ctx hashBitLen skeinCfgTreeInfoSequential []) ∧
      ∀ ctx hashBitLen, skein1024Init ctx hashBitLen =
        skein1024InitExt ctx hashBitLen skeinCfgTreeInfoSequential [] :=
  ⟨fun _ => init_eq_initExt precomputed_skein256, fun _ => init_eq_initExt precomputed_skein512,
    fun _ => init_eq_initExt precomputed_skein1024⟩

/-- In whatever pieces a message comes, under whatever key, the result is the chained message. -/
theorem skeinFinal_pieces :
    (∀ ctx hashBitLen treeInfo key (pieces : List Bytes),
        (skein256Final (pieces.foldl skein256Update
          (skein256InitExt ctx hashBitLen treeInfo key))).2 =
          digest threefish256 hashBitLen treeInfo key pieces.flatten) ∧
      (∀ ctx hashBitLen treeInfo key (pieces : List Bytes),
        (skein512Final (pieces.foldl skein512Update
          (skein512InitExt ctx hashBitLen treeInfo key))).2 =
          digest threefish512 hashBitLen treeInfo key pieces.flatten) ∧
      ∀ ctx hashBitLen treeInfo key (pieces : List Bytes),
        (skein1024Final (pieces.foldl skein1024Update
          (skein1024InitExt ctx hashBitLen treeInfo key))).2 =
          digest threefish1024 hashBitLen treeInfo key pieces.flatten :=
  ⟨fun _ => final_pieces runs_skein256 (by decide), fun _ => final_pieces runs_skein512 (by decide),
    fun _ => final_pieces runs_skein1024 (by decide)⟩

end NexusPool
