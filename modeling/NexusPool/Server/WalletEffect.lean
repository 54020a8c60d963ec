import NexusPool.Server.Step

/-!
# What a packet of the wallet does

As for the miners, the effects are listed once. Between two handlers `m_new_block` is never
set, so the end of `process_data` sends the coinbase only after a packet that starts a round.
-/

namespace NexusPool

open Reactive World

/-! ### The start of a round -/

/-- A pool connection without what belongs to the round. -/
def PoolConnection.session (pool : PoolConnection) : PoolConnection :=
  { pool with mPrimes := [], mBlocksRequested := ∅, mNumBlocksRequested := 0 }

theorem PoolConnection.session_comp_session : session ∘ session = session := rfl

/-- The connection that is told of a new round. -/
def Output.announced : Output → Option ℕ
  | .toMiner i packet => if packet.mHeader = Packet.newBlock then some i else none
  | _ => none

/-- Telling the connections of a new round changes nothing but their round. -/
structure RoundFrame (w w' : World) (out : List Output) : Prop where
  registry : w'.registry = w.registry
  daemon : w'.daemon = w.daemon
  sessions : w'.pools.map PoolConnection.session = w.pools.map PoolConnection.session
  blocks : ∀ (i : ℕ) (pool' : PoolConnection), w'.pools[i]? = some pool' →
    pool'.mBlocksRequested = ∅ ∨
      ∃ pool, w.pools[i]? = some pool ∧ pool'.mBlocksRequested = pool.mBlocksRequested
  started : ∀ i : ℕ, w'.pools[i]? =
    if i ∈ out.filterMap Output.announced then w.pools[i]?.map PoolConnection.session
    else w.pools[i]?
  outputs : ∀ o ∈ out, ∃ i height, o = .toMiner i (.getHeight height)

namespace RoundFrame

theorem composes : Action.Composes RoundFrame where
  refl w := ⟨rfl, rfl, rfl, fun _ pool h => .inr ⟨pool, h, rfl⟩, by simp, by simp⟩
  trans {_ _ _ out _} h h' := by
    refine ⟨h'.registry.trans h.registry, h'.daemon.trans h.daemon,
      h'.sessions.trans h.sessions, fun i pool'' hpool'' => ?_, fun i => ?_,
      List.forall_mem_append.mpr ⟨h.outputs, h'.outputs⟩⟩
    · obtain hempty | ⟨pool', hpool', heq⟩ := h'.blocks i pool'' hpool''
      · exact .inl hempty
      · rw [heq]
        exact h.blocks i pool' hpool'
    · rw [h'.started, h.started, List.filterMap_append]
      simp only [List.mem_append]
      by_cases hfirst : i ∈ out.filterMap Output.announced
      · simp only [hfirst, true_or, if_true, Option.map_map, PoolConnection.session_comp_session,
          ite_self]
      · rw [if_neg hfirst]
        exact if_congr (or_iff_right hfirst).symm rfl rfl

theorem newRound (i : ℕ) (newHeight : UInt32) :
    Action.Ensures RoundFrame (PoolConnection.newRound i newHeight) := by
  intro w u w' out h
  simp only [PoolConnection.newRound, Action.bind_eq_some_iff, Action.modify_eq_some_iff] at h
  obtain ⟨_, _, _, _, ⟨rfl, rfl⟩, hsend, rfl⟩ := h
  obtain ⟨rfl, rfl⟩ := PoolConnection.transmit_eq_some hsend
  refine ⟨rfl, rfl, ?_, fun k pool' hpool' => ?_, fun k => ?_, by simp⟩
  · exact map_modify_eq (by intro _; rfl) i _
  · rw [getElem?_modifyPool] at hpool'
    split_ifs at hpool' with hk
    · obtain ⟨pool, -, rfl⟩ := Option.map_eq_some_iff.mp hpool'
      exact .inl rfl
    · exact .inr ⟨pool', hpool', rfl⟩
  · have hannounced : [Output.toMiner i (.getHeight newHeight)].filterMap Output.announced = [i] :=
      rfl
    rw [getElem?_modifyPool, hannounced]
    exact if_congr (by rw [List.mem_singleton, eq_comm]) rfl rfl

theorem announce (w : World) (entries : List PoolConnectionData) :
    Action.Ensures RoundFrame (entries.forM fun poolData =>
      match w.lock poolData.mConnection with
      | none => pure ()
      | some _ => PoolConnection.newRound poolData.mConnection w.registry.mBestHeight) := by
  refine .forM composes entries fun poolData _ => ?_
  cases w.lock poolData.mConnection with
  | none => exact .pure composes _
  | some _ => exact newRound _ _

end RoundFrame

/-- The end of `process_data` when a new round has started. -/
def World.reset (w : World) : World :=
  w.modifyDaemon fun d =>
    { d with
      mNewBlock := false
      mCoinbasePending := if w.registry.mCurrentRound > 1 then d.mCoinbasePending else false }

def World.resetOutputs (w : World) : List Output :=
  if w.registry.mCurrentRound > 1 then
    [.toWallet (DaemonPacket.setCoinbase w.registry.mCoinbase.serialize)]
  else []

theorem World.announced_resetOutputs (w : World) :
    w.resetOutputs.filterMap Output.announced = [] := by
  unfold World.resetOutputs
  split_ifs <;> rfl

theorem resetDaemon_of_newBlock {w w' : World} {out : List Output} {u : Unit}
    (hnew : w.daemon.mNewBlock = true)
    (h : DaemonConnection.resetDaemon w = some (u, w', out)) :
    w' = w.reset ∧ out = w.resetOutputs := by
  rw [DaemonConnection.resetDaemon, Action.get_bind, if_pos hnew] at h
  simp only [Action.bind_eq_some_iff, Action.modify_eq_some_iff] at h
  obtain ⟨_, _, _, _, ⟨rfl, rfl⟩, h, rfl⟩ := h
  split_ifs at h with hround
  · obtain ⟨rfl, rfl⟩ := DaemonConnection.transmit_eq_some h
    exact ⟨by simp [reset, modifyDaemon, hround], by simp [resetOutputs, hround]⟩
  · obtain ⟨rfl, rfl⟩ := Action.modify_eq_some_iff.mp h
    exact ⟨by simp [reset, modifyDaemon, hround], by simp [resetOutputs, hround]⟩

theorem resetDaemon_of_not_newBlock {w w' : World} {out : List Output} {u : Unit}
    (hnew : w.daemon.mNewBlock = false)
    (h : DaemonConnection.resetDaemon w = some (u, w', out)) : w' = w ∧ out = [] := by
  rw [DaemonConnection.resetDaemon, Action.get_bind, if_neg (by simp [hnew])] at h
  exact (Action.pure_eq_some_iff.mp h).2

/-! ### Effects -/

section Effects

variable [Platform]

def World.settle (w : World) : World :=
  let r := (DataRegistry.exec (do
    PayoutManager.updateBalances w.daemon.mRoundReward w.daemon.mHashSubmitBlock
      w.daemon.mLastBlockfinder
    PayoutManager.clearShares) w.registry).2
  { w with registry := { r with mCurrentRound := r.mCurrentRound + 1 } }

def World.refund (w : World) (hashOrphan : Uint1024) : World :=
  { w with registry := (DataRegistry.exec (do
      let _ ← DataRegistry.call (.blockGet hashOrphan)
      PayoutManager.refundPayouts hashOrphan) w.registry).2 }

def World.rebuilt (w : World) (reward : UInt64) : DataRegistry :=
  let r := DataRegistry.exec (DaemonConnection.rebuildCoinbase reward w.daemon.mLastBlockfinder
    w.registry.mCoinbase) w.registry
  { r.2 with mCoinbase := r.1 }

/-- The packets that start a round, with the world in which it starts. -/
inductive RoundCause (w : World) (packet : Packet) : World → Prop
  | coinbaseSet (header : packet.mHeader = DaemonPacket.coinbaseSet) :
      RoundCause w packet (w.modifyDaemon ({ · with mCoinbasePending := false }))
  | reward {data : Bytes} (header : packet.mHeader = DaemonPacket.blockReward)
      (payload : packet.mData = some data)
      (settled : ¬ (w.registry.mCurrentRound > 1 ∧ w.daemon.mCoinbasePending)) :
      RoundCause w packet (w.modifyDaemon
        ({ · with mRoundReward := bytes2uint64 data 0, mCoinbasePending := false }))
  | good (header : packet.mHeader = DaemonPacket.good) : RoundCause w packet w.settle

theorem RoundCause.not_blockData {w w' : World} {packet : Packet} (h : RoundCause w packet w') :
    packet.mHeader ≠ DaemonPacket.blockData := by
  cases h with
  | coinbaseSet header => rw [header]; decide
  | reward header => rw [header]; decide
  | good header => rw [header]; decide

/-- What a packet of the wallet that is handled can do to the world. -/
inductive WalletEffect (w : World) (packet : Packet) : World → List Output → Prop
  | ignored (header : packet.mHeader ∉ [DaemonPacket.coinbaseSet, DaemonPacket.blockReward,
        DaemonPacket.orphanBlock, DaemonPacket.good])
      (unwanted : packet.mHeader = DaemonPacket.blockData → ∃ data block, packet.mData = some data ∧
        CBlock.deserialize data = some block ∧
          (block.nHeight = w.registry.mBestHeight → DaemonConnection.nextWaiting w = none)) :
      WalletEffect w packet w []
  | pending {height : UInt32} (header : packet.mHeader ∈
        [DaemonPacket.blockHeight, DaemonPacket.newRound, DaemonPacket.coinbaseFail]) :
      WalletEffect w packet
        ((w.modifyRegistry ({ · with mBestHeight := height })).modifyDaemon
          ({ · with mCoinbasePending := true })) []
  | goodBlock {hashBlock : Uint1024} (header : packet.mHeader = DaemonPacket.goodBlock) :
      WalletEffect w packet
        { w with registry :=
          { w.registry with mBlockDb := (w.registry.mBlockDb.getRecord hashBlock).2 } } []
  | orphan {hashOrphan : Uint1024} {data : Bytes}
      (header : packet.mHeader = DaemonPacket.orphanBlock)
      (payload : packet.mData = some data) (hash : BaseUint.setBytes 32 data = some hashOrphan) :
      WalletEffect w packet
        ((w.refund hashOrphan).modifyDaemon ({ · with mCoinbasePending := true })) []
  | rebuilt {data : Bytes} (header : packet.mHeader = DaemonPacket.blockReward)
      (payload : packet.mData = some data) (round : w.registry.mCurrentRound > 1)
      (pending : w.daemon.mCoinbasePending) :
      WalletEffect w packet
        { w.modifyDaemon ({ · with mRoundReward := bytes2uint64 data 0 }) with
          registry := w.rebuilt (bytes2uint64 data 0) }
        [.toWallet (DaemonPacket.setCoinbase
          (w.rebuilt (bytes2uint64 data 0)).mCoinbase.serialize)]
  | delivered {data : Bytes} {block : CBlock} {j i : ℕ} {pool : PoolConnection}
      (header : packet.mHeader = DaemonPacket.blockData) (payload : packet.mData = some data)
      (parsed : CBlock.deserialize data = some block)
      (current : block.nHeight = w.registry.mBestHeight)
      (entry : DaemonConnection.nextWaiting w = some (j, i)) (self : w.pools[i]? = some pool)
      (isOpen : pool.mConnection) :
      WalletEffect w packet
        ((w.modifyEntry j fun poolData =>
          { poolData with mBlocksWaiting := poolData.mBlocksWaiting - 1 }).modifyPool i fun pool =>
            { pool with
              mNumBlocksRequested := pool.mNumBlocksRequested - 1
              mBlocksRequested := pool.mBlocksRequested.insert block.getHash block })
        [.toMiner i (.withData Packet.blockData (block.serialize block.getHash pool.mMinShare))]
  | swallowed {data : Bytes} {block : CBlock} {j i : ℕ} {pool : PoolConnection}
      (header : packet.mHeader = DaemonPacket.blockData) (payload : packet.mData = some data)
      (parsed : CBlock.deserialize data = some block)
      (current : block.nHeight = w.registry.mBestHeight)
      (entry : DaemonConnection.nextWaiting w = some (j, i)) (self : w.pools[i]? = some pool)
      (isClosed : ¬ pool.mConnection) :
      WalletEffect w packet
        (w.modifyEntry j fun poolData =>
          { poolData with mBlocksWaiting := poolData.mBlocksWaiting - 1 }) []
  | round {w₁ w₂ : World} {announced : List Output} (cause : RoundCause w packet w₁)
      (frame : RoundFrame (w₁.modifyDaemon ({ · with mNewBlock := true })) w₂ announced) :
      WalletEffect w packet w₂.reset (announced ++ w₂.resetOutputs)

/-! ### The handlers -/

variable {w w' : World} {out : List Output} {packet : Packet} {u : Unit}

/-- `new_round`, and then the end of `process_data`. -/
theorem round_effect {w₁ w₂ : World} {out₁ out₂ : List Output} {u₁ : Unit}
    (cause : RoundCause w packet w₁) (hround : DaemonConnection.newRound w₁ = some (u₁, w₂, out₁))
    (hreset : DaemonConnection.resetDaemon w₂ = some (u, w', out₂)) :
    WalletEffect w packet w' (out₁ ++ out₂) := by
  simp only [DaemonConnection.newRound, Action.bind_eq_some_iff, Action.modify_eq_some_iff,
    Action.get_eq_some_iff] at hround
  obtain ⟨_, _, _, _, ⟨rfl, rfl⟩, ⟨_, _, _, _, ⟨rfl, rfl, rfl⟩, hloop, rfl⟩, rfl⟩ := hround
  have hframe := RoundFrame.announce _ _ _ _ _ _ hloop
  obtain ⟨rfl, rfl⟩ := resetDaemon_of_newBlock (by rw [hframe.daemon]; rfl) hreset
  exact .round cause hframe

theorem quiet_effect {x : Act Unit} (hnew : w.daemon.mNewBlock = false)
    (hx : ∀ w₁ out₁, x w = some ((), w₁, out₁) →
      w₁.daemon.mNewBlock = w.daemon.mNewBlock ∧ WalletEffect w packet w₁ out₁)
    (h : (x >>= fun _ => DaemonConnection.resetDaemon) w = some (u, w', out)) :
    WalletEffect w packet w' out := by
  obtain ⟨_, w₁, out₁, out₂, h₁, hreset, rfl⟩ := Action.bind_eq_some_iff.mp h
  obtain ⟨hkeep, heffect⟩ := hx w₁ out₁ h₁
  obtain ⟨rfl, rfl⟩ := resetDaemon_of_not_newBlock (hkeep.trans hnew) hreset
  simpa using heffect

theorem handleBlockHeight_effect {data : Bytes} (header : packet.mHeader = DaemonPacket.blockHeight)
    (h : DaemonConnection.handleBlockHeight data w = some (u, w', out)) :
    w'.daemon.mNewBlock = w.daemon.mNewBlock ∧ WalletEffect w packet w' out := by
  rw [DaemonConnection.handleBlockHeight, Action.get_bind] at h
  split_ifs at h
  · simp only [Action.bind_eq_some_iff, Action.modify_eq_some_iff, DaemonConnection.setPending] at h
    obtain ⟨_, _, _, _, ⟨rfl, rfl⟩, ⟨rfl, rfl⟩, rfl⟩ := h
    exact ⟨rfl, .pending (by simp [header])⟩
  · obtain ⟨-, rfl, rfl⟩ := Action.pure_eq_some_iff.mp h
    exact ⟨rfl, .ignored (by simp [header]; decide)
      (fun h => absurd (header.symm.trans h) (by decide))⟩

theorem setPending_effect (header : packet.mHeader ∈
      [DaemonPacket.blockHeight, DaemonPacket.newRound, DaemonPacket.coinbaseFail])
    (h : DaemonConnection.setPending true w = some (u, w', out)) :
    w'.daemon.mNewBlock = w.daemon.mNewBlock ∧ WalletEffect w packet w' out := by
  obtain ⟨rfl, rfl⟩ := Action.modify_eq_some_iff.mp h
  exact ⟨rfl, @WalletEffect.pending _ w packet w.registry.mBestHeight header⟩

theorem handleOrphanBlock_effect {data : Bytes} (header : packet.mHeader = DaemonPacket.orphanBlock)
    (payload : packet.mData = some data)
    (h : DaemonConnection.handleOrphanBlock data w = some (u, w', out)) :
    w'.daemon.mNewBlock = w.daemon.mNewBlock ∧ WalletEffect w packet w' out := by
  simp only [DaemonConnection.handleOrphanBlock, DaemonConnection.setPending,
    Action.bind_eq_some_iff, Action.ofOption_eq_some_iff, registryCall_eq_some_iff,
    Action.modify_eq_some_iff] at h
  obtain ⟨hashOrphan, _, _, _, ⟨hhash, rfl, rfl⟩,
    ⟨_, _, _, _, ⟨-, rfl, rfl⟩, ⟨rfl, rfl⟩, rfl⟩, rfl⟩ := h
  exact ⟨rfl, .orphan header payload hhash⟩

theorem handleGoodBlock_effect {data : Bytes} (header : packet.mHeader = DaemonPacket.goodBlock)
    (h : DaemonConnection.handleGoodBlock data w = some (u, w', out)) :
    w'.daemon.mNewBlock = w.daemon.mNewBlock ∧ WalletEffect w packet w' out := by
  simp only [DaemonConnection.handleGoodBlock, Action.bind_eq_some_iff, Action.ofOption_eq_some_iff,
    registryCall_eq_some_iff, Action.pure_eq_some_iff] at h
  obtain ⟨hashBlock, _, _, _, ⟨-, rfl, rfl⟩,
    ⟨_, _, _, _, ⟨-, rfl, rfl⟩, ⟨-, rfl, rfl⟩, rfl⟩, rfl⟩ := h
  exact ⟨rfl, .goodBlock header⟩

theorem handleCoinbaseSet_effect (header : packet.mHeader = DaemonPacket.coinbaseSet)
    (h : (DaemonConnection.handleCoinbaseSet >>= fun _ => DaemonConnection.resetDaemon) w =
      some (u, w', out)) : WalletEffect w packet w' out := by
  simp only [DaemonConnection.handleCoinbaseSet, DaemonConnection.setPending,
    Action.bind_eq_some_iff, Action.modify_eq_some_iff] at h
  obtain ⟨_, w₂, _, _, ⟨_, _, _, _, ⟨rfl, rfl⟩, hround, rfl⟩, hreset, rfl⟩ := h
  exact round_effect (.coinbaseSet header) hround hreset

theorem handleGood_effect (header : packet.mHeader = DaemonPacket.good)
    (h : (DaemonConnection.handleGood >>= fun _ => DaemonConnection.resetDaemon) w =
      some (u, w', out)) : WalletEffect w packet w' out := by
  simp only [DaemonConnection.handleGood, Action.bind_eq_some_iff, Action.get_eq_some_iff,
    registryCall_eq_some_iff, Action.modify_eq_some_iff] at h
  obtain ⟨_, w₂, _, _, ⟨_, _, _, _, ⟨rfl, rfl, rfl⟩, ⟨_, _, _, _, ⟨-, rfl, rfl⟩,
    ⟨_, _, _, _, ⟨rfl, rfl⟩, hround, rfl⟩, rfl⟩, rfl⟩, hreset, rfl⟩ := h
  exact round_effect (.good header) hround hreset

theorem handleBlockReward_effect {data : Bytes} (hnew : w.daemon.mNewBlock = false)
    (header : packet.mHeader = DaemonPacket.blockReward) (payload : packet.mData = some data)
    (h : (DaemonConnection.handleBlockReward data >>= fun _ => DaemonConnection.resetDaemon) w =
      some (u, w', out)) : WalletEffect w packet w' out := by
  simp only [DaemonConnection.handleBlockReward, Action.bind_eq_some_iff, Action.get_eq_some_iff,
    Action.modify_eq_some_iff] at h
  obtain ⟨_, w₂, _, _, ⟨_, _, _, _, ⟨rfl, rfl⟩, ⟨_, _, _, _, ⟨rfl, rfl, rfl⟩, h, rfl⟩, rfl⟩,
    hreset, rfl⟩ := h
  split_ifs at h with hrebuild
  · simp only [Action.bind_eq_some_iff, registryCall_eq_some_iff, Action.modify_eq_some_iff] at h
    obtain ⟨_, _, _, _, ⟨rfl, rfl, rfl⟩, ⟨_, _, _, _, ⟨rfl, rfl⟩, hsend, rfl⟩, rfl⟩ := h
    obtain ⟨rfl, rfl⟩ := DaemonConnection.transmit_eq_some hsend
    obtain ⟨rfl, rfl⟩ := resetDaemon_of_not_newBlock (by exact hnew) hreset
    exact .rebuilt header payload hrebuild.1 hrebuild.2
  · simp only [Action.bind_eq_some_iff, DaemonConnection.setPending, Action.modify_eq_some_iff] at h
    obtain ⟨_, _, _, _, ⟨rfl, rfl⟩, hround, rfl⟩ := h
    exact round_effect (.reward header payload hrebuild) hround hreset

/-- The block goes to the connection of the first entry that waits for one; if that is closed,
the block is lost. -/
theorem handleBlockData_effect {data : Bytes} {assigned : Bool}
    (header : packet.mHeader = DaemonPacket.blockData) (payload : packet.mData = some data)
    (h : DaemonConnection.handleBlockData data w = some (assigned, w', out)) :
    w'.daemon.mNewBlock = w.daemon.mNewBlock ∧ WalletEffect w packet w' out := by
  have hheader : packet.mHeader ∉ [DaemonPacket.coinbaseSet, DaemonPacket.blockReward,
      DaemonPacket.orphanBlock, DaemonPacket.good] := by
    simp [header]
    decide
  simp only [DaemonConnection.handleBlockData, Action.bind_eq_some_iff, Action.ofOption_eq_some_iff,
    Action.get_eq_some_iff] at h
  obtain ⟨block, _, _, _, ⟨hparsed, rfl, rfl⟩, ⟨_, w, _, _, ⟨rfl, rfl, rfl⟩, h, rfl⟩, rfl⟩ := h
  split_ifs at h with hcurrent
  · cases hentry : DaemonConnection.nextWaiting w with
    | none =>
      rw [hentry] at h
      obtain ⟨-, rfl, rfl⟩ := Action.pure_eq_some_iff.mp h
      exact ⟨rfl, .ignored hheader fun _ => ⟨data, block, payload, hparsed, fun _ => hentry⟩⟩
    | some entry =>
      obtain ⟨j, i⟩ := entry
      simp only [hentry, PoolConnection.addBlock, Action.bind_eq_some_iff,
        Action.modify_eq_some_iff, PoolConnection.self_eq_some_iff, Action.pure_eq_some_iff] at h
      obtain ⟨_, _, _, _, ⟨rfl, rfl⟩, ⟨_, _, _, _, ⟨pool, _, _, _, ⟨hself, rfl, rfl⟩, h, rfl⟩,
        ⟨-, rfl, rfl⟩, rfl⟩, rfl⟩ := h
      split_ifs at h with hopen
      · simp only [Action.bind_eq_some_iff, Action.modify_eq_some_iff] at h
        obtain ⟨_, _, _, _, ⟨rfl, rfl⟩, hsend, rfl⟩ := h
        obtain ⟨rfl, rfl⟩ := PoolConnection.transmit_eq_some hsend
        exact ⟨rfl, .delivered header payload hparsed hcurrent hentry hself hopen⟩
      · obtain ⟨-, rfl, rfl⟩ := Action.pure_eq_some_iff.mp h
        exact ⟨rfl, .swallowed header payload hparsed hcurrent hentry hself hopen⟩
  · obtain ⟨-, rfl, rfl⟩ := Action.pure_eq_some_iff.mp h
    exact ⟨rfl, .ignored hheader fun _ => ⟨data, block, payload, hparsed,
      fun h => absurd h hcurrent⟩⟩

theorem handlePacket_effect (hnew : w.daemon.mNewBlock = false)
    (hdata : packet.mHeader ≠ DaemonPacket.blockData)
    (h : (DaemonConnection.handlePacket packet >>= fun _ => DaemonConnection.resetDaemon) w =
      some (u, w', out)) : WalletEffect w packet w' out := by
  unfold DaemonConnection.handlePacket at h
  split_ifs at h with hheight hround hset hfail hreward horphan hgoodBlock hgood
  · refine quiet_effect hnew (fun w₁ out₁ h₁ => ?_) h
    simp only [Action.bind_eq_some_iff, Action.ofOption_eq_some_iff] at h₁
    obtain ⟨data, _, _, _, ⟨-, rfl, rfl⟩, h₁, rfl⟩ := h₁
    exact handleBlockHeight_effect hheight h₁
  · exact quiet_effect hnew (fun w₁ out₁ h₁ => setPending_effect (by simp [hround]) h₁) h
  · exact handleCoinbaseSet_effect hset h
  · exact quiet_effect hnew (fun w₁ out₁ h₁ => setPending_effect (by simp [hfail]) h₁) h
  · obtain ⟨_, w₁, out₁, _, h₁, hreset, rfl⟩ := Action.bind_eq_some_iff.mp h
    simp only [Action.bind_eq_some_iff, Action.ofOption_eq_some_iff] at h₁
    obtain ⟨data, _, _, _, ⟨hpayload, rfl, rfl⟩, h₁, rfl⟩ := h₁
    exact handleBlockReward_effect (u := u) hnew hreward hpayload
      (Action.bind_eq_some_iff.mpr ⟨_, _, _, _, h₁, hreset, rfl⟩)
  · refine quiet_effect hnew (fun w₁ out₁ h₁ => ?_) h
    simp only [Action.bind_eq_some_iff, Action.ofOption_eq_some_iff] at h₁
    obtain ⟨data, _, _, _, ⟨hpayload, rfl, rfl⟩, h₁, rfl⟩ := h₁
    exact handleOrphanBlock_effect horphan hpayload h₁
  · refine quiet_effect hnew (fun w₁ out₁ h₁ => ?_) h
    simp only [Action.bind_eq_some_iff, Action.ofOption_eq_some_iff] at h₁
    obtain ⟨data, _, _, _, ⟨-, rfl, rfl⟩, h₁, rfl⟩ := h₁
    exact handleGoodBlock_effect hgoodBlock h₁
  · exact handleGood_effect hgood h
  · refine quiet_effect hnew (fun w₁ out₁ h₁ => ?_) h
    obtain ⟨-, rfl, rfl⟩ := Action.pure_eq_some_iff.mp h₁
    exact ⟨rfl, .ignored (by simp [hset, hreward, horphan, hgood]) fun header =>
      absurd header hdata⟩

/-- Whatever the wallet sends is dropped or has one of the effects. -/
theorem walletEffect_of_processData {receiveBuffer : Bytes} (hnew : w.daemon.mNewBlock = false)
    (h : DaemonConnection.processData receiveBuffer w = some (u, w', out)) :
    (w' = w ∧ out = [] ∧ (Event.walletData receiveBuffer).walletPacket = none) ∨
      ∃ packet, (Event.walletData receiveBuffer).walletPacket = some packet ∧
        WalletEffect w packet w' out := by
  simp only [DaemonConnection.processData, Action.bind_eq_some_iff,
    Action.ofOption_eq_some_iff] at h
  obtain ⟨packet, _, _, _, ⟨hparse, rfl, rfl⟩, h, rfl⟩ := h
  split at h
  · rename_i hvalid
    refine .inr ⟨packet, by simp [Event.walletPacket, hparse, hvalid], ?_⟩
    split at h
    · rename_i header
      simp only [Action.bind_eq_some_iff, Action.ofOption_eq_some_iff] at h
      obtain ⟨data, _, _, _, ⟨hdata, rfl, rfl⟩, ⟨assigned, w₁, out₁, _, h₁, hreset, rfl⟩, rfl⟩ := h
      obtain ⟨hkeep, heffect⟩ := handleBlockData_effect header hdata h₁
      cases assigned with
      | true =>
        obtain ⟨-, rfl, rfl⟩ := Action.pure_eq_some_iff.mp hreset
        simpa using heffect
      | false =>
        obtain ⟨rfl, rfl⟩ := resetDaemon_of_not_newBlock (hkeep.trans hnew) hreset
        simpa using heffect
    · rename_i hdata
      exact handlePacket_effect hnew hdata h
  · rename_i hvalid
    obtain ⟨-, rfl, rfl⟩ := Action.pure_eq_some_iff.mp h
    exact .inl ⟨rfl, rfl, by simp [Event.walletPacket, hparse, hvalid]⟩

end Effects

end NexusPool
