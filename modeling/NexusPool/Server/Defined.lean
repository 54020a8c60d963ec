import NexusPool.Server.Settlement

/-!
# Where the handlers are defined

A handler is undefined where the code dereferences a null pointer or reads past the end of a
packet. For each handler of the daemon connection that sends something, this is when it is
defined.
-/

namespace NexusPool

open Reactive World

@[simp] theorem registryCall_bind_defined {α β : Type} {p : DataRegistry.Handler α} {f : α → Act β}
    {w : World} : (registryCall p >>= f).Defined w ↔
      (f (DataRegistry.exec p w.registry).1).Defined
        { w with registry := (DataRegistry.exec p w.registry).2 } := by
  simp [Action.defined_bind]

@[simp] theorem DaemonConnection.transmit_defined {packet : Packet} {w : World} :
    (DaemonConnection.transmit packet).Defined w ↔ w.daemon.mConnection = true := by
  simp [DaemonConnection.transmit]

theorem DaemonConnection.transmit_bind_defined {packet : Packet} {f : Unit → Act Unit} {w : World} :
    (DaemonConnection.transmit packet >>= f).Defined w ↔
      w.daemon.mConnection = true ∧ (f ()).Defined w := by
  rw [Action.defined_bind]
  constructor
  · rintro ⟨u, w', out, hsend, hthen⟩
    obtain ⟨rfl, -⟩ := DaemonConnection.transmit_eq_some hsend
    exact ⟨transmit_defined.mp ⟨u, w', out, hsend⟩, hthen⟩
  · rintro ⟨hconnection, hthen⟩
    obtain ⟨u, w', out, hsend⟩ := transmit_defined.mpr hconnection
    obtain ⟨rfl, -⟩ := DaemonConnection.transmit_eq_some hsend
    exact ⟨u, w', out, hsend, hthen⟩

theorem PoolConnection.transmit_defined {i : ℕ} {packet : Packet} {w : World} :
    (PoolConnection.transmit i packet).Defined w ↔ w.pools[i]?.any (·.mConnection) = true := by
  simp only [PoolConnection.transmit, Action.defined_bind, PoolConnection.self_eq_some_iff,
    Action.require_eq_some_iff, Action.defined_send, and_true, Option.any_eq_true]
  constructor
  · rintro ⟨pool, _, _, ⟨hpool, rfl, rfl⟩, _, _, _, hopen, -, -⟩
    exact ⟨pool, hpool, hopen⟩
  · rintro ⟨pool, hpool, hopen⟩
    exact ⟨pool, w, [], ⟨hpool, rfl, rfl⟩, (), w, [], hopen, rfl, rfl⟩

/-! ### A new round -/

/-- An entry leads to a connection that is closed, and that the server has not let go of. -/
def World.listsClosed (w : World) : Bool :=
  w.daemon.mPoolConnections.any fun poolData =>
    (w.lock poolData.mConnection).any fun pool => !pool.mConnection

theorem RoundFrame.isOpen {w w' : World} {out : List Output} (h : RoundFrame w w' out) (i : ℕ) :
    w'.pools[i]?.any (·.mConnection) = w.pools[i]?.any (·.mConnection) := by
  rw [h.started i]
  split_ifs
  · rw [Option.any_map]
    rfl
  · rfl

theorem PoolConnection.newRound_defined {i : ℕ} {newHeight : UInt32} {w : World} :
    (PoolConnection.newRound i newHeight).Defined w ↔ w.pools[i]?.any (·.mConnection) = true := by
  simp only [PoolConnection.newRound, Action.defined_modify_bind, PoolConnection.transmit_defined,
    getElem?_modifyPool, if_true, Option.any_map]

/-- `new_round` reaches every connection that an entry leads to, and does not ask if it is
closed. -/
theorem newRound_defined {w : World} :
    DaemonConnection.newRound.Defined w ↔ w.listsClosed = false := by
  have hloop : DaemonConnection.newRound.Defined w ↔ ∀ poolData ∈ w.daemon.mPoolConnections,
      (w.lock poolData.mConnection).any (fun pool => !pool.mConnection) = false := by
    unfold DaemonConnection.newRound
    simp only [Action.defined_modify_bind, Action.defined_get_bind]
    have hrefl := RoundFrame.composes.refl (w.modifyDaemon ({ · with mNewBlock := true }))
    -- a turn is defined as on the world before the loop, which the turns before it only reset
    apply @Action.defined_forM _ _ _ _ _
      (fun w' => ∃ out, RoundFrame (w.modifyDaemon ({ · with mNewBlock := true })) w' out)
    · rintro poolData - w' ⟨out, hframe⟩
      have hlock : (w.modifyDaemon ({ · with mNewBlock := true })).lock poolData.mConnection =
        w.lock poolData.mConnection := rfl
      rw [hlock]
      cases hpool : w.lock poolData.mConnection with
      | none => simp
      | some pool =>
        have hself := (Option.filter_eq_some_iff.mp hpool).1
        have hopen := hframe.isOpen poolData.mConnection
        simp only [PoolConnection.newRound_defined, hopen, modifyDaemon, hself, Option.any_some,
          Bool.not_eq_false']
    · rintro poolData - w₁ u w₂ out₂ ⟨out₁, hframe⟩ hturn
      have hnext : RoundFrame w₁ w₂ out₂ := by
        cases hpool : (w.modifyDaemon ({ · with mNewBlock := true })).lock poolData.mConnection with
        | none =>
          rw [hpool] at hturn
          obtain ⟨-, rfl, rfl⟩ := Action.pure_eq_some_iff.mp hturn
          exact RoundFrame.composes.refl _
        | some pool =>
          rw [hpool] at hturn
          exact RoundFrame.newRound _ _ _ _ _ _ hturn
      exact ⟨_, RoundFrame.composes.trans hframe hnext⟩
    · exact ⟨[], hrefl⟩
  rw [hloop, World.listsClosed, List.any_eq_false]
  simp only [Bool.not_eq_true]

theorem newRound_eq_some {w w' : World} {out : List Output} {u : Unit}
    (h : DaemonConnection.newRound w = some (u, w', out)) :
    RoundFrame (w.modifyDaemon ({ · with mNewBlock := true })) w' out := by
  unfold DaemonConnection.newRound at h
  simp only [Action.bind_eq_some_iff, Action.modify_eq_some_iff, Action.get_eq_some_iff] at h
  obtain ⟨_, _, _, _, ⟨rfl, rfl⟩, ⟨_, _, _, _, ⟨rfl, rfl, rfl⟩, hloop, rfl⟩, rfl⟩ := h
  exact RoundFrame.announce _ _ _ _ _ _ hloop

/-! ### Packets of the wallet -/

/-- The packet makes its handler call `new_round`. -/
def World.startsRound (w : World) (packet : Packet) : Prop :=
  packet.mHeader = DaemonPacket.coinbaseSet ∨ packet.mHeader = DaemonPacket.good ∨
    (packet.mHeader = DaemonPacket.blockReward ∧
      ¬ (w.registry.mCurrentRound > 1 ∧ w.daemon.mCoinbasePending))

/-- The packet makes its handler send the coinbase, unless it fails before. -/
def World.sendsCoinbase (w : World) (packet : Packet) : Prop :=
  (packet.mHeader = DaemonPacket.coinbaseSet ∧ w.registry.mCurrentRound > 1) ∨
    (packet.mHeader = DaemonPacket.good ∧ w.registry.mCurrentRound + 1 > 1) ∨
    (packet.mHeader = DaemonPacket.blockReward ∧ w.registry.mCurrentRound > 1)

def Packet.readable [Target] (packet : Packet) : Prop :=
  (packet.mHeader ∈ [DaemonPacket.orphanBlock, DaemonPacket.goodBlock] →
    ∃ data, packet.mData = some data ∧ ∃ hashBlock, BaseUint.setBytes 32 data = some hashBlock) ∧
  (packet.mHeader = DaemonPacket.blockData →
    ∃ data, packet.mData = some data ∧ ∃ block, CBlock.deserialize data = some block)

theorem resetDaemon_defined {w : World} : DaemonConnection.resetDaemon.Defined w ↔
    (w.daemon.mNewBlock = true → w.registry.mCurrentRound > 1 → w.daemon.mConnection = true) := by
  unfold DaemonConnection.resetDaemon
  rw [Action.defined_get_bind]
  split_ifs with hnew hround
  · simp [hnew, hround, modifyDaemon]
  · simp [hround]
  · simp [hnew]

/-- After a handler that starts no round, the end of `process_data` does nothing. -/
theorem bind_resetDaemon_defined {x : Act Unit} {w : World}
    (hkeep : ∀ u w' out, x w = some (u, w', out) → w'.daemon.mNewBlock = false) :
    (x >>= fun _ => DaemonConnection.resetDaemon).Defined w ↔ x.Defined w := by
  rw [Action.defined_bind]
  constructor
  · rintro ⟨u, w', out, hx, -⟩
    exact ⟨u, w', out, hx⟩
  · rintro ⟨u, w', out, hx⟩
    refine ⟨u, w', out, hx, resetDaemon_defined.mpr ?_⟩
    simp [hkeep u w' out hx]

theorem newRound_resetDaemon_defined {w : World} :
    (DaemonConnection.newRound >>= fun _ => DaemonConnection.resetDaemon).Defined w ↔
      w.listsClosed = false ∧ (w.registry.mCurrentRound > 1 → w.daemon.mConnection = true) := by
  rw [Action.defined_bind, ← newRound_defined]
  have hreset : ∀ {u : Unit} {w' : World} {out : List Output},
      DaemonConnection.newRound w = some (u, w', out) →
        (DaemonConnection.resetDaemon.Defined w' ↔
          (w.registry.mCurrentRound > 1 → w.daemon.mConnection = true)) := by
    intro u w' out h
    have hframe := newRound_eq_some h
    rw [resetDaemon_defined, hframe.registry, hframe.daemon]
    simp [modifyDaemon]
  constructor
  · rintro ⟨u, w', out, h, hthen⟩
    exact ⟨⟨u, w', out, h⟩, (hreset h).mp hthen⟩
  · rintro ⟨⟨u, w', out, h⟩, hthen⟩
    exact ⟨u, w', out, h, (hreset h).mpr hthen⟩

section Packets

variable {w : World} {packet : Packet}

/-- A packet that passes `is_valid` and has a header below 128 has data. -/
theorem Packet.exists_mData {receiveBuffer : Bytes}
    (hparse : Packet.ofBuffer .wallet receiveBuffer = some packet)
    (hvalid : packet.isValid .wallet = true) (hheader : packet.mHeader < 128) :
    ∃ data, packet.mData = some data := by
  match receiveBuffer with
  | [] => cases hparse
  | [mHeader] =>
    rw [Packet.ofBuffer_singleton] at hparse
    cases hparse
    have hshort : ¬ mHeader ≥ 128 := UInt8.not_le.mpr hheader
    simp [Packet.isValid, hshort] at hvalid
  | mHeader :: b :: rest =>
    rw [Packet.ofBuffer_cons_cons] at hparse
    split_ifs at hparse
    cases hparse
    exact ⟨_, rfl⟩

theorem handleBlockHeight_defined {data : Bytes} :
    (DaemonConnection.handleBlockHeight data).Defined w := by
  unfold DaemonConnection.handleBlockHeight
  rw [Action.defined_get_bind]
  split_ifs
  · simp [DaemonConnection.setPending]
  · exact Action.defined_pure _ _

theorem handleGood_defined :
    (DaemonConnection.handleGood >>= fun _ => DaemonConnection.resetDaemon).Defined w ↔
      w.listsClosed = false ∧ (w.registry.mCurrentRound + 1 > 1 → w.daemon.mConnection = true) := by
  have hsettle : (DaemonConnection.handleGood >>= fun _ => DaemonConnection.resetDaemon).Defined w ↔
      (DaemonConnection.newRound >>= fun _ => DaemonConnection.resetDaemon).Defined w.settle := by
    unfold DaemonConnection.handleGood
    simp only [Action.defined_bind_bind, Action.defined_get_bind, registryCall_bind_defined,
      Action.defined_modify_bind]
    rfl
  obtain ⟨db, hworld⟩ := w.exists_settle
  rw [hsettle, newRound_resetDaemon_defined, hworld]
  rfl

theorem handleCoinbaseSet_defined :
    (DaemonConnection.handleCoinbaseSet >>= fun _ => DaemonConnection.resetDaemon).Defined w ↔
      w.listsClosed = false ∧ (w.registry.mCurrentRound > 1 → w.daemon.mConnection = true) := by
  unfold DaemonConnection.handleCoinbaseSet DaemonConnection.setPending
  rw [Action.defined_bind_bind, Action.defined_modify_bind, newRound_resetDaemon_defined]
  rfl

theorem handleBlockReward_defined [Platform] {data : Bytes} (hnew : w.daemon.mNewBlock = false) :
    (DaemonConnection.handleBlockReward data >>= fun _ => DaemonConnection.resetDaemon).Defined w ↔
      (¬ (w.registry.mCurrentRound > 1 ∧ w.daemon.mCoinbasePending) → w.listsClosed = false) ∧
        (w.registry.mCurrentRound > 1 → w.daemon.mConnection = true) := by
  unfold DaemonConnection.handleBlockReward
  simp only [Action.defined_bind_bind, Action.defined_modify_bind, Action.defined_get_bind,
    modifyDaemon]
  by_cases hrebuild : w.registry.mCurrentRound > 1 ∧ w.daemon.mCoinbasePending
  · rw [if_pos hrebuild, bind_resetDaemon_defined]
    · simp [hrebuild, modifyRegistry]
    · intro u w' out h
      simp only [Action.bind_eq_some_iff, registryCall_eq_some_iff, Action.modify_eq_some_iff] at h
      obtain ⟨_, _, _, _, ⟨-, rfl, rfl⟩, ⟨_, _, _, _, ⟨rfl, rfl⟩, hsend, rfl⟩, rfl⟩ := h
      obtain ⟨rfl, -⟩ := DaemonConnection.transmit_eq_some hsend
      exact hnew
  · rw [if_neg hrebuild]
    unfold DaemonConnection.setPending
    rw [Action.defined_bind_bind, Action.defined_modify_bind, newRound_resetDaemon_defined]
    simp only [hrebuild, not_false_eq_true, true_implies]
    rfl

theorem handleOrphanBlock_defined [Platform] {data : Bytes} :
    (DaemonConnection.handleOrphanBlock data).Defined w ↔
      ∃ hashOrphan, BaseUint.setBytes 32 data = some hashOrphan := by
  simp [DaemonConnection.handleOrphanBlock, DaemonConnection.setPending]

theorem handleGoodBlock_defined [Platform] {data : Bytes} :
    (DaemonConnection.handleGoodBlock data).Defined w ↔
      ∃ hashBlock, BaseUint.setBytes 32 data = some hashBlock := by
  simp [DaemonConnection.handleGoodBlock]

theorem self_bind_defined {α : Type} {i : ℕ} {f : PoolConnection → Act α} :
    (PoolConnection.self i >>= f).Defined w ↔
      ∃ pool, w.pools[i]? = some pool ∧ (f pool).Defined w := by
  simp [Action.defined_bind]

theorem PoolConnection.addBlock_defined [Platform] {i : ℕ} {block : CBlock} :
    (PoolConnection.addBlock i block).Defined w ↔ ∃ pool, w.pools[i]? = some pool := by
  unfold PoolConnection.addBlock
  rw [self_bind_defined]
  apply exists_congr
  intro pool
  rw [and_iff_left_iff_imp]
  intro hpool
  split_ifs with hopen
  · rw [Action.defined_modify_bind, PoolConnection.transmit_defined, getElem?_modifyPool]
    simpa [hpool] using hopen
  · exact Action.defined_pure _ _

/-- An entry that waits leads to a connection. -/
theorem exists_pool_of_nextWaiting {j i : ℕ} (h : DaemonConnection.nextWaiting w = some (j, i)) :
    ∃ pool, w.pools[i]? = some pool := by
  unfold DaemonConnection.nextWaiting at h
  obtain ⟨poolData, -, hentry⟩ := List.exists_of_findSome?_eq_some h
  obtain ⟨pool, hlock, hthen⟩ := Option.bind_eq_some_iff.mp hentry
  split_ifs at hthen
  cases hthen
  exact ⟨pool, (Option.filter_eq_some_iff.mp hlock).1⟩

theorem handleBlockData_defined [Platform] {data : Bytes} :
    (DaemonConnection.handleBlockData data).Defined w ↔
      ∃ block, CBlock.deserialize data = some block := by
  unfold DaemonConnection.handleBlockData
  simp only [Action.defined_ofOption_bind, Action.defined_get_bind]
  apply exists_congr
  intro block
  rw [and_iff_left_iff_imp]
  intro hparsed
  split_ifs with hcurrent
  · cases hentry : DaemonConnection.nextWaiting w with
    | none => exact Action.defined_pure _ _
    | some entry =>
      obtain ⟨pool, hpool⟩ := exists_pool_of_nextWaiting hentry
      have hadd : (PoolConnection.addBlock entry.2 block).Defined
          (w.modifyEntry entry.1 fun poolData =>
          { poolData with mBlocksWaiting := poolData.mBlocksWaiting - 1 }) :=
        PoolConnection.addBlock_defined.mpr ⟨pool, hpool⟩
      obtain ⟨u, w', out, hadd⟩ := hadd
      simp only [Action.defined_modify_bind]
      exact Action.defined_bind.mpr ⟨u, w', out, hadd, Action.defined_pure _ _⟩
  · exact Action.defined_pure _ _

/-- A packet that starts no round and does not bring the reward. -/
theorem quiet_defined [Platform] {x : Act Unit} (hnew : w.daemon.mNewBlock = false)
    (hheader : packet.mHeader ∉
      [DaemonPacket.coinbaseSet, DaemonPacket.good, DaemonPacket.blockReward])
    (hkeep : ∀ u w' out, x w = some (u, w', out) → w'.daemon.mNewBlock = w.daemon.mNewBlock)
    (hx : x.Defined w ↔ packet.readable) :
    (x >>= fun _ => DaemonConnection.resetDaemon).Defined w ↔
      packet.readable ∧ (w.startsRound packet → w.listsClosed = false) ∧
        (w.sendsCoinbase packet → w.daemon.mConnection = true) := by
  simp only [List.mem_cons, List.not_mem_nil, or_false, not_or] at hheader
  obtain ⟨hset, hgood, hreward⟩ := hheader
  rw [bind_resetDaemon_defined fun u w' out h => (hkeep u w' out h).trans hnew, hx]
  simp [World.startsRound, World.sendsCoinbase, hset, hgood, hreward]

theorem Packet.readable_of_header [Target] (h : packet.mHeader ∉
    [DaemonPacket.orphanBlock, DaemonPacket.goodBlock, DaemonPacket.blockData]) :
      packet.readable := by
  simp only [List.mem_cons, List.not_mem_nil, or_false, not_or] at h
  obtain ⟨horphan, hgoodBlock, hblock⟩ := h
  simp [Packet.readable, horphan, hgoodBlock, hblock]

theorem Packet.readable_of_startsRound [Target] (h : w.startsRound packet) : packet.readable := by
  obtain header | header | ⟨header, -⟩ := h
  all_goals
    apply Packet.readable_of_header
    rw [header]
    decide

theorem Packet.readable_of_sendsCoinbase [Target] (h : w.sendsCoinbase packet) :
    packet.readable := by
  obtain ⟨header, -⟩ | ⟨header, -⟩ | ⟨header, -⟩ := h
  all_goals
    apply Packet.readable_of_header
    rw [header]
    decide

theorem handlePacket_defined [Platform] (hnew : w.daemon.mNewBlock = false)
    (hblock : packet.mHeader ≠ DaemonPacket.blockData)
    (hdata : packet.mHeader < 128 → ∃ data, packet.mData = some data) :
    (DaemonConnection.handlePacket packet >>= fun _ => DaemonConnection.resetDaemon).Defined w ↔
      packet.readable ∧ (w.startsRound packet → w.listsClosed = false) ∧
        (w.sendsCoinbase packet → w.daemon.mConnection = true) := by
  unfold DaemonConnection.handlePacket
  split_ifs with hheight hround hset hfail hreward horphan hgoodBlock hgood
  · obtain ⟨data, hpayload⟩ := hdata (by rw [hheight]; decide)
    have hreadable : packet.readable := Packet.readable_of_header (by rw [hheight]; decide)
    apply quiet_defined hnew (by rw [hheight]; decide)
    · intro u w' out h
      simp only [hpayload, Action.bind_eq_some_iff, Action.ofOption_eq_some_iff] at h
      obtain ⟨data, _, _, _, ⟨-, rfl, rfl⟩, h, rfl⟩ := h
      exact (handleBlockHeight_effect hheight h).1
    · simp [hpayload, handleBlockHeight_defined, hreadable]
  · have hreadable : packet.readable := Packet.readable_of_header (by rw [hround]; decide)
    apply quiet_defined hnew (by rw [hround]; decide)
    · intro u w' out h
      have heffect : _ ∧ WalletEffect w packet w' out := setPending_effect (by simp [hround]) h
      exact heffect.1
    · simp [DaemonConnection.setPending, hreadable]
  · have hreadable : packet.readable := Packet.readable_of_header (by rw [hset]; decide)
    have hother : DaemonPacket.coinbaseSet ≠ DaemonPacket.good ∧
      DaemonPacket.coinbaseSet ≠ DaemonPacket.blockReward := by decide
    rw [handleCoinbaseSet_defined]
    simp [hreadable, World.startsRound, World.sendsCoinbase, hset, hother]
  · have hreadable : packet.readable := Packet.readable_of_header (by rw [hfail]; decide)
    apply quiet_defined hnew (by rw [hfail]; decide)
    · intro u w' out h
      have heffect : _ ∧ WalletEffect w packet w' out := setPending_effect (by simp [hfail]) h
      exact heffect.1
    · simp [DaemonConnection.setPending, hreadable]
  · obtain ⟨data, hpayload⟩ := hdata (by rw [hreward]; decide)
    have hreadable : packet.readable := Packet.readable_of_header (by rw [hreward]; decide)
    have hother : DaemonPacket.blockReward ≠ DaemonPacket.good ∧
      DaemonPacket.blockReward ≠ DaemonPacket.coinbaseSet := by decide
    simp only [hpayload, Action.defined_bind_bind, Action.defined_ofOption_bind, Option.some.injEq,
      exists_eq_left', handleBlockReward_defined hnew]
    simp [hreadable, World.startsRound, World.sendsCoinbase, hreward, hother]
  · apply quiet_defined hnew (by rw [horphan]; decide)
    · intro u w' out h
      simp only [Action.bind_eq_some_iff, Action.ofOption_eq_some_iff] at h
      obtain ⟨data, _, _, _, ⟨hpayload, rfl, rfl⟩, h, rfl⟩ := h
      exact (handleOrphanBlock_effect horphan hpayload h).1
    · have hother : DaemonPacket.orphanBlock ≠ DaemonPacket.blockData := by decide
      simp [handleOrphanBlock_defined, Packet.readable, horphan, hother]
  · apply quiet_defined hnew (by rw [hgoodBlock]; decide)
    · intro u w' out h
      simp only [Action.bind_eq_some_iff, Action.ofOption_eq_some_iff] at h
      obtain ⟨data, _, _, _, ⟨hpayload, rfl, rfl⟩, h, rfl⟩ := h
      exact (handleGoodBlock_effect hgoodBlock h).1
    · have hother : DaemonPacket.goodBlock ≠ DaemonPacket.blockData := by decide
      simp [handleGoodBlock_defined, Packet.readable, hgoodBlock, hother]
  · have hreadable : packet.readable := Packet.readable_of_header (by rw [hgood]; decide)
    have hother : DaemonPacket.good ≠ DaemonPacket.coinbaseSet ∧
      DaemonPacket.good ≠ DaemonPacket.blockReward := by decide
    rw [handleGood_defined]
    simp [hreadable, World.startsRound, World.sendsCoinbase, hgood, hother]
  · have hreadable : packet.readable :=
      Packet.readable_of_header (by simp [horphan, hgoodBlock, hblock])
    apply quiet_defined hnew (by simp [hset, hgood, hreward])
    · intro u w' out h
      obtain ⟨-, rfl, rfl⟩ := Action.pure_eq_some_iff.mp h
      rfl
    · simp [hreadable]

/-- When the handler of what the wallet has sent is defined. -/
theorem processData_defined [Platform] {receiveBuffer : Bytes} (hnew : w.daemon.mNewBlock = false) :
    (DaemonConnection.processData receiveBuffer).Defined w ↔
      ∃ packet, Packet.ofBuffer .wallet receiveBuffer = some packet ∧
        (packet.isValid .wallet = true → packet.readable ∧
          (w.startsRound packet → w.listsClosed = false) ∧
            (w.sendsCoinbase packet → w.daemon.mConnection = true)) := by
  unfold DaemonConnection.processData
  rw [Action.defined_ofOption_bind]
  apply exists_congr
  intro packet
  apply and_congr_right
  intro hparse
  split_ifs with hvalid hblock
  · have hother : DaemonPacket.blockData ∉ [DaemonPacket.coinbaseSet, DaemonPacket.good,
        DaemonPacket.blockReward, DaemonPacket.orphanBlock, DaemonPacket.goodBlock] := by decide
    simp only [List.mem_cons, List.not_mem_nil, or_false, not_or] at hother
    have hreset : ∀ data, packet.mData = some data →
        ((DaemonConnection.handleBlockData data >>= fun assigned =>
          if !assigned then DaemonConnection.resetDaemon else pure ()).Defined w ↔
            ∃ block, CBlock.deserialize data = some block) := by
      intro data hpayload
      rw [Action.defined_bind, ← handleBlockData_defined (w := w)]
      constructor
      · rintro ⟨assigned, w', out, h, -⟩
        exact ⟨assigned, w', out, h⟩
      · rintro ⟨assigned, w', out, h⟩
        have hkeep := (handleBlockData_effect hblock hpayload h).1
        refine ⟨assigned, w', out, h, ?_⟩
        split_ifs
        · rw [resetDaemon_defined]
          simp [hkeep, hnew]
        · exact Action.defined_pure _ _
    have hrequire : (packet.readable ∧ (w.startsRound packet → w.listsClosed = false) ∧
        (w.sendsCoinbase packet → w.daemon.mConnection = true)) ↔
        ∃ data, packet.mData = some data ∧ ∃ block, CBlock.deserialize data = some block := by
      simp [Packet.readable, World.startsRound, World.sendsCoinbase, hblock, hother]
    simp only [hvalid, true_implies, hrequire, Action.defined_ofOption_bind]
    exact exists_congr fun data => and_congr_right (hreset data)
  · have hdefined := handlePacket_defined hnew hblock (Packet.exists_mData hparse hvalid)
    simpa [hvalid] using hdefined
  · simp [hvalid]

end Packets

/-! ### Timers -/

/-- The block timer has something to send: the next submission, if it is of the current
height, or a request. -/
def World.blockTimerSends (w : World) : Bool :=
  !w.daemon.mCoinbasePending &&
    ((DaemonConnection.nextSubmission w).any
        (fun next => next.2.2.nHeight = w.registry.mBestHeight) ||
      w.daemon.mPoolConnections.any fun poolData => poolData.mBlocksRequested ≠ 0)

/-- The orphan check asks the wallet about a block. -/
def World.checksBlocks (w : World) : Bool :=
  w.registry.mBlockDb.getKeys.any fun key =>
    let cBlock := (w.registry.mBlockDb.getRecord key).1
    cBlock.nRound ≥ w.registry.mCurrentRound - 5 ∧ cBlock.nCoinbaseValue > 0

section Timers

variable {w : World}

theorem takeSubmission_defined [Platform] : DaemonConnection.takeSubmission.Defined w ↔
    ((DaemonConnection.nextSubmission w).any
        (fun next => next.2.2.nHeight = w.registry.mBestHeight) = true →
      w.daemon.mConnection = true) := by
  unfold DaemonConnection.takeSubmission
  rw [Action.defined_get_bind]
  cases hnext : DaemonConnection.nextSubmission w with
  | none => simp
  | some next =>
    obtain ⟨j, pool, block⟩ := next
    simp only [Action.defined_modify_bind, Option.any_some, decide_eq_true_eq]
    split_ifs with hcurrent
    · simp [DaemonConnection.transmit_bind_defined, hcurrent, modifyDaemon]
    · simp [hcurrent]

theorem forwardRequests_defined (j nBlocks : ℕ) :
    (DaemonConnection.forwardRequests j nBlocks).Defined w ↔
      (nBlocks ≠ 0 → w.daemon.mConnection = true) := by
  induction nBlocks generalizing w with
  | zero => simp [DaemonConnection.forwardRequests]
  | succ nBlocks ih =>
    unfold DaemonConnection.forwardRequests
    rw [Action.defined_modify_bind, DaemonConnection.transmit_bind_defined, ih]
    simp only [modifyEntry, modifyDaemon, ne_eq, Nat.add_eq_zero_iff, one_ne_zero, and_false,
      not_false_eq_true, true_implies, and_iff_left_iff_imp]
    intro hconnection _
    exact hconnection

/-- The loops that forward the requests of the entries that there were. -/
theorem forwardAll_defined (entries : List PoolConnectionData) :
    (entries.zipIdx.forM fun poolData => DaemonConnection.forwardRequests poolData.2
      poolData.1.mBlocksRequested.toNat).Defined w ↔
      ((entries.any fun poolData => poolData.mBlocksRequested ≠ 0) = true →
        w.daemon.mConnection = true) := by
  have hloop : (entries.zipIdx.forM fun poolData => DaemonConnection.forwardRequests poolData.2
      poolData.1.mBlocksRequested.toNat).Defined w ↔ ∀ poolData ∈ entries.zipIdx,
        (poolData.1.mBlocksRequested.toNat ≠ 0 → w.daemon.mConnection = true) := by
    apply @Action.defined_forM _ _ _ _ _ (fun w' => w'.daemon.mConnection = w.daemon.mConnection)
    · intro poolData _ w' hw'
      rw [forwardRequests_defined, hw']
    · intro poolData _ w₁ u w₂ out hw₁ hturn
      have hframe := ForwardFrame.forwardRequests _ _ _ _ _ _ hturn
      rw [hframe.daemon, ← hw₁]
    · rfl
  rw [hloop]
  simp only [List.any_eq_true, decide_eq_true_eq]
  constructor
  · rintro h ⟨poolData, hmem, hrequests⟩
    obtain ⟨j, hj⟩ := List.mem_iff_getElem?.mp hmem
    apply h (poolData, j) (List.mem_zipIdx_iff_getElem?.mpr hj)
    simpa [← UInt16.toNat_inj] using hrequests
  · intro h poolData hmem hrequests
    apply h
    exact ⟨poolData.1, List.fst_mem_of_mem_zipIdx hmem,
      by simpa [← UInt16.toNat_inj] using hrequests⟩

theorem blockTimerHandler_defined [Platform] : DaemonConnection.blockTimerHandler.Defined w ↔
    (w.blockTimerSends = true → w.daemon.mConnection = true) := by
  unfold DaemonConnection.blockTimerHandler
  rw [Action.defined_get_bind]
  cases hpending : w.daemon.mCoinbasePending with
  | true => simp [World.blockTimerSends, hpending]
  | false =>
    have hforward : ∀ {u : Unit} {w' : World} {out : List Output},
        DaemonConnection.takeSubmission w = some (u, w', out) →
          w'.daemon.mConnection = w.daemon.mConnection := by
      intro u w' out h
      cases takeSubmission_effect h <;> rfl
    simp only [Bool.not_false, if_true, Action.defined_bind, forwardAll_defined]
    have htake := takeSubmission_defined (w := w)
    unfold World.blockTimerSends
    simp only [hpending, Bool.not_false, Bool.true_and, Bool.or_eq_true, or_imp, ← htake]
    constructor
    · rintro ⟨u, w', out, h, hthen⟩
      exact ⟨⟨u, w', out, h⟩, fun hany => hforward h ▸ hthen hany⟩
    · rintro ⟨⟨u, w', out, h⟩, hthen⟩
      exact ⟨u, w', out, h, fun hany => (hforward h).trans (hthen hany)⟩

theorem orphanCheckTimerHandler_defined : DaemonConnection.orphanCheckTimerHandler.Defined w ↔
    (w.checksBlocks = true → w.daemon.mConnection = true) := by
  have hloop : DaemonConnection.orphanCheckTimerHandler.Defined w ↔
      ∀ key ∈ w.registry.mBlockDb.getKeys,
        ((w.registry.mBlockDb.getRecord key).1.nRound ≥ w.registry.mCurrentRound - 5 ∧
          (w.registry.mBlockDb.getRecord key).1.nCoinbaseValue > 0 →
            w.daemon.mConnection = true) := by
    unfold DaemonConnection.orphanCheckTimerHandler
    rw [Action.defined_get_bind]
    have hkeys : ∀ key ∈ w.registry.mBlockDb.getKeys, w.registry.mBlockDb.hasKey key :=
      fun key hkey =>
      Database.hasKey_iff.mpr (Database.mem_getKeys.mp hkey)
    apply @Action.defined_forM _ _ _ _ _ (fun w' => w' = w)
    · intro key hkey w' hw'
      rw [hw', registryCall_bind_defined]
      change Action.Defined (if
        (w.registry.mBlockDb.getRecord key).1.nRound ≥ w.registry.mCurrentRound - 5 ∧
        (w.registry.mBlockDb.getRecord key).1.nCoinbaseValue > 0 then _ else _) _ ↔ _
      split_ifs with hcheck
      · rw [DaemonConnection.transmit_defined]
        simp [hcheck]
      · simp [hcheck]
    · intro key hkey w₁ u w₂ out hw₁ hturn
      rw [hw₁] at hturn
      exact (checkBlock_eq_some (hkeys key hkey) hturn).1
    · rfl
  rw [hloop, World.checksBlocks, List.any_eq_true]
  simp only [decide_eq_true_eq]
  constructor
  · rintro h ⟨key, hkey, hcheck⟩
    exact h key hkey hcheck
  · intro h key hkey hcheck
    exact h ⟨key, hkey, hcheck⟩

theorem getHeightTimerHandler_defined : DaemonConnection.getHeightTimerHandler.Defined w ↔
    w.daemon.mConnection = true := by
  unfold DaemonConnection.getHeightTimerHandler
  simp only [DaemonConnection.transmit_bind_defined, Action.defined_get_bind]
  split_ifs
  · simp
  · simp

end Timers

end NexusPool
