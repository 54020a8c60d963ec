import NexusPool.Server.Defined
import NexusPool.Server.RequestCount

/-!
# The delivery of a block

A `BLOCK_DATA` of the current height goes to the first entry that waits for a block and whose
connection can still be locked. A connection that is closed is destroyed only by the maintenance
of the server. Until then it can be locked, and the block that it is given is lost.
-/

namespace NexusPool

open Reactive World

namespace World

/-- An entry that waits for a block, with a connection that is open or, if not, at least not yet
destroyed. -/
structure Awaits (w : World) (isOpen : Bool) (j : ℕ) (poolData : PoolConnectionData)
    (pool : PoolConnection) : Prop where
  entry : w.daemon.mPoolConnections[j]? = some poolData
  lock : w.lock poolData.mConnection = some pool
  mConnection : pool.mConnection = isOpen
  waiting : 0 < poolData.mBlocksWaiting

/-- The block of a valid `BLOCK_DATA` of the wallet, if it is of the current height. -/
def currentBlock [Target] (w : World) (receiveBuffer : Bytes) : Option CBlock := do
  let packet ← (Event.walletData receiveBuffer).walletPacket
  if packet.mHeader = DaemonPacket.blockData then
    let data ← packet.mData
    let block ← CBlock.deserialize data
    if block.nHeight = w.registry.mBestHeight then some block else none
  else none

section Delivery

variable [Platform]

/-- The block is stored in one connection, whose entry waits for one block less. -/
structure StoredBy (w : World) (block : CBlock) (w' : World) (j i : ℕ) : Prop where
  maps : w'.pools.map (·.mBlocksRequested) =
    (w.pools.map (·.mBlocksRequested)).modify i (·.insert block.getHash block)
  waiting : w'.daemon.mPoolConnections.map (·.mBlocksWaiting) =
    (w.daemon.mPoolConnections.map (·.mBlocksWaiting)).modify j (· - 1)

/-- A block is stored by an open connection that waits for one, if there is any, and no entry of a
closed connection takes one. -/
structure Delivers (w : World) (block : CBlock) (w' : World) : Prop where
  stored : (∃ j poolData pool, w.Awaits true j poolData pool) →
    ∃ j poolData pool, w.Awaits true j poolData pool ∧ w.StoredBy block w' j poolData.mConnection
  kept : ∀ j poolData pool, w.Awaits false j poolData pool →
    (w'.daemon.mPoolConnections.map (·.mBlocksWaiting))[j]? = some poolData.mBlocksWaiting

end Delivery

/-! ### The entry that is chosen -/

variable {w : World}

/-- The entry that takes the block waits for one, and none before it does. -/
theorem awaits_of_nextWaiting {j i : ℕ} (h : DaemonConnection.nextWaiting w = some (j, i)) :
    ∃ poolData pool, w.Awaits pool.mConnection j poolData pool ∧ poolData.mConnection = i ∧
      ∀ k < j, ∀ isOpen poolData' pool', ¬ w.Awaits isOpen k poolData' pool' := by
  obtain ⟨front, ⟨_, _⟩, back, hsplit, hfound, hbefore⟩ := List.findSome?_eq_some_iff.mp h
  have hposition (k : ℕ) : w.daemon.mPoolConnections.zipIdx[k]? =
      w.daemon.mPoolConnections[k]?.map fun poolData => (poolData, k) := by
    rw [List.getElem?_zipIdx, Nat.zero_add]
  have hentry := hposition front.length
  rw [hsplit, List.getElem?_append_right le_rfl, Nat.sub_self, List.getElem?_cons_zero, eq_comm,
    Option.map_eq_some_iff] at hentry
  obtain ⟨poolData, hentry, heq⟩ := hentry
  obtain ⟨rfl, rfl⟩ := Prod.mk.inj heq
  simp only [Option.bind_eq_bind, Option.bind_eq_some_iff, Option.ite_none_right_eq_some,
    Option.some.injEq, Prod.mk.injEq] at hfound
  obtain ⟨pool, hlock, hwaiting, rfl, rfl⟩ := hfound
  refine ⟨poolData, pool, ⟨hentry, hlock, rfl, hwaiting⟩, rfl, ?_⟩
  intro k hk isOpen poolData' pool' hawaits
  have hmem : (poolData', k) ∈ front := by
    have hk' := hposition k
    rw [hsplit, List.getElem?_append_left hk, hawaits.entry] at hk'
    exact List.mem_of_getElem? hk'
  have hnone := hbefore _ hmem
  have hpositive := hawaits.waiting
  simp [hawaits.lock, hpositive] at hnone

theorem not_awaits_of_nextWaiting (h : DaemonConnection.nextWaiting w = none)
    (isOpen : Bool) (j : ℕ)
    (poolData : PoolConnectionData) (pool : PoolConnection) :
    ¬ w.Awaits isOpen j poolData pool := by
  intro hawaits
  have hmem : (poolData, j) ∈ w.daemon.mPoolConnections.zipIdx :=
    List.mem_zipIdx_iff_getElem?.mpr hawaits.entry
  have hnone := List.findSome?_eq_none_iff.mp h _ hmem
  have hpositive := hawaits.waiting
  simp [hawaits.lock, hpositive] at hnone

end World

/-! ### What becomes of a block -/

section Effects

variable [Platform] {w w' : World} {block : CBlock} {receiveBuffer : Bytes}

omit [Platform] in
theorem resetDaemon_keeps {out : List Output} {u : Unit}
    (h : DaemonConnection.resetDaemon w = some (u, w', out)) :
    w'.pools = w.pools ∧ w'.daemon.mPoolConnections = w.daemon.mPoolConnections := by
  cases hnew : w.daemon.mNewBlock with
  | false =>
    obtain ⟨rfl, -⟩ := resetDaemon_of_not_newBlock hnew h
    exact ⟨rfl, rfl⟩
  | true =>
    obtain ⟨rfl, -⟩ := resetDaemon_of_newBlock hnew h
    exact ⟨rfl, rfl⟩

/-- No entry wants the block, or the first that does takes it. Its connection stores the block
if it is open. -/
inductive BlockEffect (w : World) (block : CBlock) (w' : World) : Prop
  | unwanted (next : DaemonConnection.nextWaiting w = none) (pools : w'.pools = w.pools)
      (entries : w'.daemon.mPoolConnections = w.daemon.mPoolConnections)
  | taken {j i : ℕ} {pool : PoolConnection} (next : DaemonConnection.nextWaiting w = some (j, i))
      (self : w.pools[i]? = some pool)
      (maps : w'.pools.map (·.mBlocksRequested) =
        if pool.mConnection then
          (w.pools.map (·.mBlocksRequested)).modify i (·.insert block.getHash block)
        else w.pools.map (·.mBlocksRequested))
      (waiting : w'.daemon.mPoolConnections.map (·.mBlocksWaiting) =
        (w.daemon.mPoolConnections.map (·.mBlocksWaiting)).modify j (· - 1))

omit [Platform] in
/-- Changing the items changes a part of each in the same way. -/
theorem map_modify {α β : Type} {g : α → β} {f : α → α} {f' : β → β} (hf : ∀ a, g (f a) = f' (g a))
    (i : ℕ) (items : List α) : (items.modify i f).map g = (items.map g).modify i f' := by
  apply List.ext_getElem?
  intro k
  simp only [List.getElem?_map, List.getElem?_modify]
  split_ifs <;> cases items[k]? <;> simp [hf]

/-- The connection stores the block if it is open. -/
theorem exists_addBlock {i : ℕ} {pool : PoolConnection} (hself : w.pools[i]? = some pool)
    (block : CBlock) : ∃ w' out, PoolConnection.addBlock i block w = some ((), w', out) ∧
      w'.daemon = w.daemon ∧ w'.pools.map (·.mBlocksRequested) =
        if pool.mConnection then
          (w.pools.map (·.mBlocksRequested)).modify i (·.insert block.getHash block)
        else w.pools.map (·.mBlocksRequested) := by
  obtain ⟨⟨⟩, w', out, hadd⟩ := PoolConnection.addBlock_defined.mpr ⟨pool, hself⟩
  refine ⟨w', out, hadd, ?_⟩
  simp only [PoolConnection.addBlock, Action.bind_eq_some_iff,
    PoolConnection.self_eq_some_iff] at hadd
  obtain ⟨pool', _, _, _, ⟨hself', rfl, rfl⟩, hadd, rfl⟩ := hadd
  cases hself.symm.trans hself'
  split_ifs at hadd ⊢ with hopen
  · simp only [Action.bind_eq_some_iff, Action.modify_eq_some_iff] at hadd
    obtain ⟨_, _, _, _, ⟨rfl, rfl⟩, hsend, rfl⟩ := hadd
    obtain ⟨rfl, rfl⟩ := PoolConnection.transmit_eq_some hsend
    exact ⟨rfl, map_modify (by intro _; rfl) i _⟩
  · obtain ⟨-, rfl, rfl⟩ := Action.pure_eq_some_iff.mp hadd
    exact ⟨rfl, rfl⟩

/-- A block of the current height is handled, whatever connections there are. -/
theorem exists_blockEffect (henabled : w.enabled (.walletData receiveBuffer))
    (hblock : w.currentBlock receiveBuffer = some block) :
    ∃ w' out, w.step (.walletData receiveBuffer) = some (w', out) ∧ BlockEffect w block w' := by
  have hconnection : w.daemon.mConnection = true := (Bool.and_eq_true_iff.mp henabled).1
  simp only [currentBlock, Event.walletPacket, Option.bind_eq_bind, Option.bind_eq_some_iff,
    Option.ite_none_right_eq_some, Option.filter_eq_some_iff] at hblock
  obtain ⟨packet, ⟨hparse, hvalid⟩, header, data, hdata, _, hparsed, hcurrent, hsome⟩ := hblock
  cases hsome
  have hstep : w.step (.walletData receiveBuffer) =
      ((DaemonConnection.handleBlockData data >>= fun assigned =>
        if !assigned then DaemonConnection.resetDaemon else pure ()) w).map (·.2) := by
    unfold World.step
    rw [if_pos henabled]
    simp only [handler, DaemonConnection.processData]
    rw [Action.bind_of_eq_some (Action.ofOption_eq_some_iff.mpr ⟨hparse, rfl, rfl⟩), if_pos hvalid,
      if_pos header, Action.bind_of_eq_some (Action.ofOption_eq_some_iff.mpr ⟨hdata, rfl, rfl⟩)]
  have hread : Action.ofOption (CBlock.deserialize data) w =
      some (block, w, ([] : List Output)) := by
    rw [Action.ofOption_eq_some_iff]
    exact ⟨hparsed, rfl, rfl⟩
  rw [hstep]
  cases hnext : DaemonConnection.nextWaiting w with
  | none =>
    have hunassigned : DaemonConnection.handleBlockData data w = some (false, w, []) := by
      unfold DaemonConnection.handleBlockData
      rw [Action.bind_of_eq_some hread, Action.get_bind, if_pos hcurrent, hnext]
      exact Action.pure_eq_some_iff.mpr ⟨rfl, rfl, rfl⟩
    obtain ⟨⟨⟩, w', out, hreset⟩ := resetDaemon_defined.mpr fun _ _ => hconnection
    refine ⟨w', out, ?_, .unwanted hnext (resetDaemon_keeps hreset).1 (resetDaemon_keeps hreset).2⟩
    rw [Action.bind_of_eq_some hunassigned, Bool.not_false, if_pos rfl, hreset]
    rfl
  | some entry =>
    obtain ⟨j, i⟩ := entry
    obtain ⟨poolData, pool, hawaits, rfl, -⟩ := awaits_of_nextWaiting hnext
    have hself := (Option.filter_eq_some_iff.mp hawaits.lock).1
    obtain ⟨w', out, hadd, hdaemon, hmaps⟩ := exists_addBlock (w := w.modifyEntry j fun poolData =>
      { poolData with mBlocksWaiting := poolData.mBlocksWaiting - 1 }) hself block
    refine ⟨w', out, ?_, .taken hnext hself hmaps ?_⟩
    · have hassigned : DaemonConnection.handleBlockData data w = some (true, w', out) := by
        unfold DaemonConnection.handleBlockData
        rw [Action.bind_of_eq_some hread, Action.get_bind, if_pos hcurrent, hnext]
        dsimp only
        rw [Action.bind_of_eq_some rfl, Action.bind_of_eq_some_append hadd]
        simp
      rw [Action.bind_of_eq_some_append hassigned]
      simp
    · rw [hdaemon]
      exact map_modify (by intro _; rfl) j _

/-- No closed connection is the first to wait. -/
def World.OpenFirst (w : World) : Prop :=
  ∀ j poolData pool, w.Awaits false j poolData pool →
    ∃ k < j, ∃ poolData' pool', w.Awaits true k poolData' pool'

theorem BlockEffect.delivers_iff (h : BlockEffect w block w') :
    w.Delivers block w' ↔ w.OpenFirst := by
  cases h with
  | unwanted next =>
    have hnot := not_awaits_of_nextWaiting next
    apply iff_of_true
    · exact ⟨fun ⟨j, poolData, pool, h⟩ => (hnot _ _ _ _ h).elim,
        fun _ _ _ h => (hnot _ _ _ _ h).elim⟩
    · exact fun _ _ _ h => (hnot _ _ _ _ h).elim
  | @taken j i pool next self maps waiting =>
    obtain ⟨poolData, pool', hawaits, rfl, hfirst⟩ := awaits_of_nextWaiting next
    obtain rfl : pool = pool' :=
      Option.some.inj (self.symm.trans (Option.filter_eq_some_iff.mp hawaits.lock).1)
    cases hopen : pool.mConnection with
    | true =>
      rw [hopen] at hawaits
      rw [hopen, if_pos rfl] at maps
      -- the entry of a closed connection is not this one
      have hother : ∀ k poolData' pool', w.Awaits false k poolData' pool' → k ≠ j := by
        rintro k poolData' pool' h rfl
        cases hawaits.entry.symm.trans h.entry
        cases hawaits.lock.symm.trans h.lock
        cases h.mConnection.symm.trans hopen
      apply iff_of_true
      · refine ⟨fun _ => ⟨j, poolData, pool, hawaits, maps, waiting⟩, fun k poolData' pool' h => ?_⟩
        rw [waiting, List.getElem?_modify_ne _ _ (hother k _ _ h).symm, List.getElem?_map, h.entry]
        rfl
      · intro k poolData' pool' h
        have hle : j ≤ k := by
          by_contra hlt
          exact hfirst k (by omega) _ _ _ h
        exact ⟨j, lt_of_le_of_ne hle (hother k _ _ h).symm, poolData, pool, hawaits⟩
    | false =>
      rw [hopen] at hawaits
      apply iff_of_false
      · intro h
        have hkept := h.kept j poolData pool hawaits
        rw [waiting, List.getElem?_modify_eq, List.getElem?_map, hawaits.entry] at hkept
        simp at hkept
      · intro h
        obtain ⟨k, hk, poolData', pool', hbefore⟩ := h j poolData pool hawaits
        exact hfirst k hk _ _ _ hbefore

/-- A block of the current height is delivered exactly if no closed connection that waits for one
stands before the open ones. -/
theorem World.deliversBlock_iff (henabled : w.enabled (.walletData receiveBuffer))
    (hblock : w.currentBlock receiveBuffer = some block) :
    (∃ w' out, w.step (.walletData receiveBuffer) = some (w', out) ∧ w.Delivers block w') ↔
      w.OpenFirst := by
  obtain ⟨w', out, hstep, heffect⟩ := exists_blockEffect henabled hblock
  rw [← heffect.delivers_iff]
  constructor
  · rintro ⟨w'', out', hstep', hdelivers⟩
    cases hstep.symm.trans hstep'
    exact hdelivers
  · exact fun hdelivers => ⟨w', out, hstep, hdelivers⟩

end Effects

/-! ### Two miners -/

section TwoMiners

attribute [local instance] Platform.plain

def firstAwaits (isOpen : Bool) (w : World) : Bool :=
  w.daemon.mPoolConnections[0]?.any fun poolData =>
    (w.lock poolData.mConnection).any fun pool =>
      pool.mConnection == isOpen && decide (0 < poolData.mBlocksWaiting)

theorem awaits_of_firstAwaits {w : World} {isOpen : Bool} (h : firstAwaits isOpen w = true) :
    ∃ poolData pool, w.Awaits isOpen 0 poolData pool := by
  obtain ⟨poolData, hentry, h⟩ := (Option.any_eq_true _ _).mp h
  obtain ⟨pool, hlock, h⟩ := (Option.any_eq_true _ _).mp h
  obtain ⟨hopen, hwaiting⟩ := Bool.and_eq_true_iff.mp h
  exact ⟨poolData, pool, hentry, hlock, eq_of_beq hopen, of_decide_eq_true hwaiting⟩

def blockBuffer : Bytes := (Packet.withData DaemonPacket.blockData (List.replicate 216 0)).wire

def twoRequests : List Event := oneRequest ++
  [.minerConnected [2], .minerData 1 (Packet.withData Packet.login [66]).wire,
    .minerData 1 (Packet.getPacket Packet.getBlock).wire, .blockTimer]

def twoWait : Option World := (trace World.step .fresh twoRequests).map (·.2)

theorem twoWait_isSome : twoWait.isSome := by decide +kernel

theorem twoWait_enabled : (twoWait.get twoWait_isSome).enabled (.walletData blockBuffer) := by
  decide +kernel

theorem twoWait_currentBlock : ((twoWait.get twoWait_isSome).currentBlock blockBuffer).isSome := by
  decide +kernel

theorem twoWait_open : (twoWait.get twoWait_isSome).pools.all (·.mConnection) = true := by
  decide +kernel

attribute [local irreducible] twoWait

theorem twoWait_delivers : ∃ w' out,
    (twoWait.get twoWait_isSome).step (.walletData blockBuffer) = some (w', out) ∧
      (twoWait.get twoWait_isSome).Delivers (Option.get _ twoWait_currentBlock) w' := by
  apply (World.deliversBlock_iff twoWait_enabled (Option.some_get twoWait_currentBlock).symm).mpr
  intro j poolData pool h
  have hself := (Option.filter_eq_some_iff.mp h.lock).1
  have hopen := List.all_eq_true.mp twoWait_open pool (List.mem_of_getElem? hself)
  cases h.mConnection.symm.trans hopen

/-- The first of them closes before the block comes. -/
theorem block_swallowed : ¬ ∀ [Platform] (w : World) (receiveBuffer : Bytes) (block : CBlock),
    w.enabled (.walletData receiveBuffer) → w.currentBlock receiveBuffer = some block →
      ∃ w' out, w.step (.walletData receiveBuffer) = some (w', out) ∧ w.Delivers block w' := by
  intro h
  obtain ⟨w, hw⟩ : ∃ w, (trace World.step .fresh (twoRequests ++ [.minerClosed 0])).map (·.2) =
      some w := Option.isSome_iff_exists.mp (by decide +kernel)
  have htest : ((trace World.step .fresh (twoRequests ++ [.minerClosed 0])).map (·.2)).any
      (fun w => w.enabled (.walletData blockBuffer) && (w.currentBlock blockBuffer).isSome &&
        firstAwaits false w) = true := by
    decide +kernel
  rw [hw, Option.any_some, Bool.and_eq_true, Bool.and_eq_true] at htest
  obtain ⟨⟨henabled, hcurrent⟩, hfirst⟩ := htest
  obtain ⟨block, hblock⟩ := Option.isSome_iff_exists.mp hcurrent
  obtain ⟨w', out, hstep, hdelivers⟩ := @h .plain w blockBuffer block henabled hblock
  obtain ⟨w'', out', hstep', heffect⟩ := exists_blockEffect henabled hblock
  cases hstep.symm.trans hstep'
  obtain ⟨poolData, pool, hawaits⟩ := awaits_of_firstAwaits hfirst
  obtain ⟨k, hk, -⟩ := heffect.delivers_iff.mp hdelivers 0 poolData pool hawaits
  omega

end TwoMiners

end NexusPool
