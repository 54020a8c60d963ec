import NexusPool.Server.InputReads
import NexusPool.Server.ShareCredit

/-!
# Blocks that a miner names again

`BLOCK_DATA` begins with the hash of the block, and a share begins with the hash that its miner was
sent. The connection finds by it the block it has stored last under this hash, until the next round.
-/

namespace NexusPool

open Reactive World
open Std (ExtTreeMap)

section Echoes

variable [Platform] {w w' : World} {i : ℕ}

/-- The map leads from a hash to the first of these blocks that has it. -/
def Stores (added : List CBlock) (stored : ExtTreeMap Uint1024 CBlock) : Prop :=
  ∀ hash : Uint1024, stored[hash]? = added.find? (·.getHash = hash)

theorem Stores.nil : Stores [] ∅ := fun _ => by simp

theorem Stores.insert {added : List CBlock} {stored : ExtTreeMap Uint1024 CBlock}
    (h : Stores added stored)
    (block : CBlock) : Stores (block :: added) (stored.insert block.getHash block) := by
  intro hash
  rw [OrderedMap.getElem?_insert, h hash, List.find?_cons]
  by_cases hhash : block.getHash = hash <;> simp [hhash]

theorem readShare_echo (block : CBlock) (minShare : UInt32) {nonce : Bytes}
    (hnonce : nonce.length = 8) :
    PoolConnection.readShare ((block.serialize block.getHash minShare).take 128 ++ nonce) =
      some (block.getHash, bytes2uint64 nonce 0) := by
  have hhash : (block.serialize block.getHash minShare).take 128 = block.getHash.getBytes := by
    rw [CBlock.serialize, List.append_assoc, List.append_assoc]
    exact List.take_left' (by rw [BaseUint.length_getBytes])
  have hlength : (block.getHash.getBytes ++ nonce).length - 8 = block.getHash.getBytes.length := by
    rw [List.length_append, hnonce, Nat.add_sub_cancel]
  rw [hhash, PoolConnection.readShare, if_neg (by simp [hnonce]), hlength, List.take_left,
    List.drop_left, BaseUint.setBytes_getBytes]
  rfl

/-! ### The calls of a round -/

/-- The calls on connection `i` since its last `new_round`, the last one first: the blocks that it
was given, each with the payload of the `BLOCK_DATA` that was sent for it. Whatever else happens in
between leaves the stored blocks alone. -/
inductive RoundCalls (i : ℕ) : List (CBlock × Bytes) → World → Prop
  | newRound {u : Unit} {w w' : World} {newHeight : UInt32} {out : List Output}
      (call : PoolConnection.newRound i newHeight w = some (u, w', out)) : RoundCalls i [] w'
  | addBlock {u : Unit} {w w' : World} {added : List (CBlock × Bytes)} {block : CBlock}
      {payload : Bytes}
      {out : List Output} (before : RoundCalls i added w)
      (call : PoolConnection.addBlock i block w = some (u, w', out))
      (sent : .toMiner i (.withData Packet.blockData payload) ∈ out) :
      RoundCalls i ((block, payload) :: added) w'
  | other {w w' : World} {added : List (CBlock × Bytes)} (before : RoundCalls i added w)
      (stored : w'.pools[i]?.map (·.mBlocksRequested) = w.pools[i]?.map (·.mBlocksRequested)) :
      RoundCalls i added w'

/-- What the calls leave behind. -/
structure Given (i : ℕ) (added : List (CBlock × Bytes)) (w : World) : Prop where
  stored : ∃ pool, w.pools[i]? = some pool ∧ Stores (added.map Prod.fst) pool.mBlocksRequested
  payloads : ∀ e ∈ added, ∃ minShare, e.2 = e.1.serialize e.1.getHash minShare

omit [Platform] in
theorem newRound_self {u : Unit} {newHeight : UInt32} {out : List Output}
    (h : PoolConnection.newRound i newHeight w = some (u, w', out)) :
    ∃ pool, w'.pools[i]? = some pool ∧ pool.mBlocksRequested = ∅ := by
  simp only [PoolConnection.newRound, PoolConnection.transmit, Action.bind_eq_some_iff,
    Action.modify_eq_some_iff, PoolConnection.self_eq_some_iff, Action.require_eq_some_iff,
    Action.send_eq_some_iff] at h
  obtain ⟨_, _, _, _, ⟨rfl, rfl⟩, ⟨pool', _, _, _, ⟨hself, rfl, rfl⟩,
    ⟨_, _, _, _, ⟨-, rfl, rfl⟩, ⟨rfl, rfl⟩, rfl⟩, rfl⟩, rfl⟩ := h
  refine ⟨pool', hself, ?_⟩
  rw [getElem?_modifyPool, if_pos rfl] at hself
  obtain ⟨pool, -, rfl⟩ := Option.map_eq_some_iff.mp hself
  rfl

theorem addBlock_sent {u : Unit} {block : CBlock} {payload : Bytes} {out : List Output}
    (h : PoolConnection.addBlock i block w = some (u, w', out))
    (hsent : .toMiner i (.withData Packet.blockData payload) ∈ out) :
    ∃ pool pool', w.pools[i]? = some pool ∧ w'.pools[i]? = some pool' ∧
      pool'.mBlocksRequested = pool.mBlocksRequested.insert block.getHash block ∧
        payload = block.serialize block.getHash pool.mMinShare := by
  simp only [PoolConnection.addBlock, Action.bind_eq_some_iff, PoolConnection.self_eq_some_iff] at h
  obtain ⟨pool, w₁, _, _, ⟨hself, hw₁, rfl⟩, h, rfl⟩ := h
  rw [hw₁] at h
  split_ifs at h with hopen
  · simp only [Action.bind_eq_some_iff, Action.modify_eq_some_iff] at h
    obtain ⟨_, _, _, _, ⟨rfl, rfl⟩, hsend, rfl⟩ := h
    obtain ⟨rfl, rfl⟩ := PoolConnection.transmit_eq_some hsend
    have hpacket : Output.toMiner i (.withData Packet.blockData payload) =
        .toMiner i (.withData Packet.blockData (block.serialize block.getHash pool.mMinShare)) := by
      simpa using hsent
    have hpayload := congrArg Packet.mData (Output.toMiner.inj hpacket).2
    have hself' := (getElem?_modifyPool i i (fun pool : PoolConnection =>
      { pool with
        mNumBlocksRequested := pool.mNumBlocksRequested - 1
        mBlocksRequested := pool.mBlocksRequested.insert block.getHash block }) w).trans
          (if_pos rfl)
    rw [hself, Option.map_some] at hself'
    exact ⟨pool, _, hself, hself', rfl, Option.some.inj hpayload⟩
  · obtain ⟨-, rfl, rfl⟩ := Action.pure_eq_some_iff.mp h
    simp at hsent

theorem RoundCalls.given {added : List (CBlock × Bytes)} (h : RoundCalls i added w) :
    Given i added w := by
  induction h with
  | newRound call =>
    obtain ⟨pool, hself, hempty⟩ := newRound_self call
    exact ⟨⟨pool, hself, hempty ▸ Stores.nil⟩, nofun⟩
  | addBlock before call sent ih =>
    obtain ⟨pool, pool', hself, hself', hinsert, hpayload⟩ := addBlock_sent call sent
    obtain ⟨before, hbefore, hstored⟩ := ih.stored
    cases hself.symm.trans hbefore
    exact ⟨⟨pool', hself', hinsert ▸ hstored.insert _⟩,
      List.forall_mem_cons.mpr ⟨⟨_, hpayload⟩, ih.payloads⟩⟩
  | other before stored ih =>
    obtain ⟨pool, hself, hstored⟩ := ih.stored
    rw [hself] at stored
    obtain ⟨pool', hself', heq⟩ := Option.map_eq_some_iff.mp stored
    exact ⟨⟨pool', hself', heq ▸ hstored⟩, ih.payloads⟩

/-- A share that names a block of the round is read with its hash, and the block found under it is
the last one added that has this hash. -/
theorem echo_correlated {added : List (CBlock × Bytes)} (h : RoundCalls i added w) {block : CBlock}
    {payload nonce : Bytes} (hblock : (block, payload) ∈ added) (hnonce : nonce.length = 8) :
    ∃ pool latest, w.pools[i]? = some pool ∧
      PoolConnection.readShare (payload.take 128 ++ nonce) =
        some (block.getHash, bytes2uint64 nonce 0) ∧
      (added.map Prod.fst).find? (·.getHash = block.getHash) = some latest ∧
      pool.mBlocksRequested[block.getHash]? = some latest := by
  obtain ⟨⟨pool, hself, hstored⟩, hpayloads⟩ := h.given
  obtain ⟨minShare, hpayload⟩ := hpayloads _ hblock
  change payload = block.serialize block.getHash minShare at hpayload
  subst hpayload
  obtain ⟨latest, hlatest⟩ :
      ∃ latest, (added.map Prod.fst).find? (·.getHash = block.getHash) = some latest := by
    refine Option.isSome_iff_exists.mp
      (List.find?_isSome.mpr ⟨block, List.mem_map_of_mem hblock, ?_⟩)
    exact decide_eq_true rfl
  exact ⟨pool, latest, hself, readShare_echo block minShare hnonce, hlatest,
    (hstored _).trans hlatest⟩

/-! ### Runs of the server -/

theorem stores_of_run {history : History World Event Output} (h : ServerRun history w) (i : ℕ) :
    Stores (shareRound i history).delivered (w.round i).2 := by
  induction h with
  | start hinit =>
    obtain ⟨config, blockDb, accountDb, mRoundReward, rfl⟩ := hinit
    exact Stores.nil
  | @next past w w' e out hrun hstep ih =>
    have heffect := (stepEffect_of_run hrun hstep).shareEffect i
    rw [shareRound]
    cases hsignal : ShareSignal.of i ⟨w, e, w', out⟩ with
    | quiet =>
      rw [hsignal] at heffect
      cases heffect with
      | quiet round => exact round ▸ ih
    | restarted =>
      rw [hsignal] at heffect
      cases heffect with
      | restarted round => exact round ▸ Stores.nil
    | delivered blockData =>
      rw [hsignal] at heffect
      cases heffect with
      | delivered parsed round =>
        rw [round, ShareRound.next, parsed]
        exact ih.insert _
    | credited value =>
      rw [hsignal] at heffect
      cases heffect with
      | credited _ _ _ _ _ round => exact round ▸ ih

/-- A share that names a block which the connection was given in its round leads to the last one
given with its hash. -/
theorem correlatedBlock_of_run {history : History World Event Output} (h : ServerRun history w)
    {pool : PoolConnection} (hself : w.pools[i]? = some pool) (block : CBlock) (minShare : UInt32)
    {nonce : Bytes} (hnonce : nonce.length = 8) :
    pool.correlatedBlock ((block.serialize block.getHash minShare).take 128 ++ nonce) =
      (shareRound i history).delivered.find? (·.getHash = block.getHash) := by
  have hstored := stores_of_run h i
  rw [round_of_self hself] at hstored
  have hread := readShare_echo block minShare hnonce
  unfold PoolConnection.readShare at hread
  split_ifs at hread
  obtain ⟨hash, hbytes, hhash⟩ := Option.map_eq_some_iff.mp hread
  obtain rfl : hash = block.getHash := congrArg Prod.fst hhash
  rw [PoolConnection.correlatedBlock, hbytes]
  exact hstored _

end Echoes

/-! ### Two blocks with one hash -/

section TwoBlocks

attribute [local instance] Platform.plain

def oneConnection : World := { World.fresh with pools := [.new [1] ⟨0, 0, false⟩] }

def blockOfHeight (nHeight : UInt32) (nNonce : UInt64) : CBlock :=
  ⟨⟨0, 0, 0, 0, nHeight, 0⟩, nNonce⟩

/-- The second block is found for a share that names the first. -/
theorem twoBlocks_correlated : ∃ added w payload, RoundCalls 0 added w ∧
    (blockOfHeight 1 0, payload) ∈ added ∧
      ∃ pool latest, w.pools[0]? = some pool ∧
        PoolConnection.readShare (payload.take 128 ++ List.replicate 8 0) =
          some ((blockOfHeight 1 0).getHash, bytes2uint64 (List.replicate 8 0) 0) ∧
        (added.map Prod.fst).find? (·.getHash = (blockOfHeight 1 0).getHash) = some latest ∧
        pool.mBlocksRequested[(blockOfHeight 1 0).getHash]? = some latest := by
  have hround := RoundCalls.newRound
    (show PoolConnection.newRound 0 5 oneConnection = some ((), _, _) from rfl)
  have hfirst := hround.addBlock
    (show PoolConnection.addBlock 0 (blockOfHeight 1 0) _ = some ((), _, _) from rfl)
    List.mem_cons_self
  have hsecond := hfirst.addBlock
    (show PoolConnection.addBlock 0 (blockOfHeight 2 7) _ = some ((), _, _) from rfl)
    List.mem_cons_self
  exact ⟨_, _, _, hsecond, List.mem_cons_of_mem _ List.mem_cons_self,
    echo_correlated hsecond (List.mem_cons_of_mem _ List.mem_cons_self) rfl⟩

end TwoBlocks

end NexusPool
