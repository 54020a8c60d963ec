import NexusPool.Server.MinerEffect
import NexusPool.Server.WalletEffect

/-!
# What a step of the server does

The remaining handlers, and all effects together. `step_effect` is what the invariants of the
server are proved from.
-/

namespace NexusPool

open Reactive World

/-! ### The block timer -/

def PoolConnectionData.slot (poolData : PoolConnectionData) : ℕ × Option CBlock :=
  (poolData.mConnection, poolData.mSubmitBlock)

/-- Forwarding requests for blocks changes the counters of the entries. -/
structure ForwardFrame (w w' : World) (out : List Output) : Prop where
  registry : w'.registry = w.registry
  pools : w'.pools = w.pools
  daemon : w'.daemon = { w.daemon with mPoolConnections := w'.daemon.mPoolConnections }
  slots : w'.daemon.mPoolConnections.map PoolConnectionData.slot =
    w.daemon.mPoolConnections.map PoolConnectionData.slot
  outputs : ∀ o ∈ out, o = .toWallet DaemonPacket.getBlock

namespace ForwardFrame

theorem composes : Action.Composes ForwardFrame where
  refl w := ⟨rfl, rfl, rfl, rfl, by simp⟩
  trans h h' := by
    refine ⟨h'.registry.trans h.registry, h'.pools.trans h.pools, ?_, h'.slots.trans h.slots,
      List.forall_mem_append.mpr ⟨h.outputs, h'.outputs⟩⟩
    rw [h'.daemon, h.daemon]

theorem forwardRequests (j nBlocks : ℕ) :
    Action.Ensures ForwardFrame (DaemonConnection.forwardRequests j nBlocks) := by
  induction nBlocks with
  | zero => exact .pure composes _
  | succ nBlocks ih =>
    refine .bind composes (.modify fun w => ⟨rfl, rfl, rfl, ?_, by simp⟩) fun _ => ?_
    · exact map_modify_eq (by intro _; rfl) j _
    · refine .bind composes (fun w u w' out h => ?_) fun _ => ih
      obtain ⟨rfl, rfl⟩ := DaemonConnection.transmit_eq_some h
      exact ⟨rfl, rfl, rfl, rfl, by simp⟩

end ForwardFrame

/-- An entry whose requests are all forwarded. -/
def PoolConnectionData.forwarded (poolData : PoolConnectionData) : PoolConnectionData :=
  { poolData with
    mBlocksRequested := 0
    mBlocksWaiting := poolData.mBlocksWaiting + poolData.mBlocksRequested }

/-- The block timer leaves no request in any entry, and sends a `GET_BLOCK` for each. -/
structure Forwarded (w w' : World) (out : List Output) : Prop where
  entries : w'.daemon.mPoolConnections =
    w.daemon.mPoolConnections.map PoolConnectionData.forwarded
  outputs : out = List.replicate (w.daemon.mPoolConnections.map (·.mBlocksRequested.toNat)).sum
    (.toWallet DaemonPacket.getBlock)

namespace Forwarded

/-- Entry `j` after `nBlocks` turns of the inner loop. -/
theorem forwardRequests {j nBlocks : ℕ} {w w' : World} {out : List Output} {u : Unit}
    (h : DaemonConnection.forwardRequests j nBlocks w = some (u, w', out)) :
    w' = w.modifyEntry j (fun poolData =>
      { poolData with
        mBlocksRequested := poolData.mBlocksRequested - UInt16.ofNat nBlocks
        mBlocksWaiting := poolData.mBlocksWaiting + UInt16.ofNat nBlocks }) ∧
      out = List.replicate nBlocks (.toWallet DaemonPacket.getBlock) := by
  induction nBlocks generalizing w out with
  | zero =>
    obtain ⟨-, rfl, rfl⟩ := Action.pure_eq_some_iff.mp h
    refine ⟨?_, rfl⟩
    have hsame : (fun poolData : PoolConnectionData =>
        { poolData with
          mBlocksRequested := poolData.mBlocksRequested - UInt16.ofNat 0
          mBlocksWaiting := poolData.mBlocksWaiting + UInt16.ofNat 0 }) = id := by
      funext poolData
      simp
    rw [hsame, modifyEntry, modifyDaemon, List.modify_id]
  | succ nBlocks ih =>
    simp only [DaemonConnection.forwardRequests, Action.bind_eq_some_iff,
      Action.modify_eq_some_iff] at h
    obtain ⟨_, _, _, _, ⟨rfl, rfl⟩, ⟨_, _, _, _, hsend, h, rfl⟩, rfl⟩ := h
    obtain ⟨rfl, rfl⟩ := DaemonConnection.transmit_eq_some hsend
    obtain ⟨rfl, rfl⟩ := ih h
    have hnext : UInt16.ofNat (nBlocks + 1) = 1 + UInt16.ofNat nBlocks := by
      rw [UInt16.ofNat_add, UInt16.add_comm]
      rfl
    have hsub : ∀ a b : UInt16, a - 1 - b = a - (1 + b) := by
      intro a b
      grind
    refine ⟨?_, rfl⟩
    simp only [modifyEntry, modifyDaemon, List.modify_modify_eq, Function.comp_def, hnext, hsub,
      UInt16.add_assoc]

theorem modify_length_append {α : Type} (f : α → α) (front : List α) (a : α) (rest : List α) :
    (front ++ a :: rest).modify front.length f = front ++ f a :: rest := by
  induction front with
  | nil => rfl
  | cons b front ih =>
    rw [List.cons_append, List.length_cons, List.modify_succ_cons, ih, List.cons_append]

/-- The loop over the entries from the one at `front.length` on. -/
theorem loop {entries entries' front : List PoolConnectionData} {w w' : World} {out : List Output}
    {u : PUnit} (hentries : w.daemon.mPoolConnections = front ++ entries')
    (hcounts : entries.map (·.mBlocksRequested) = entries'.map (·.mBlocksRequested))
    (h : ((entries.zipIdx front.length).forM fun poolData =>
      DaemonConnection.forwardRequests poolData.2 poolData.1.mBlocksRequested.toNat) w =
        some (u, w', out)) :
    w'.daemon.mPoolConnections = front ++ entries'.map PoolConnectionData.forwarded ∧
      out = List.replicate (entries'.map (·.mBlocksRequested.toNat)).sum
        (.toWallet DaemonPacket.getBlock) := by
  induction entries generalizing entries' front w out with
  | nil =>
    obtain rfl := List.map_eq_nil_iff.mp hcounts.symm
    obtain ⟨-, rfl, rfl⟩ := Action.pure_eq_some_iff.mp h
    exact ⟨hentries, rfl⟩
  | cons poolData entries ih =>
    obtain ⟨poolData', entries', rfl, hcount, hcounts⟩ := List.map_eq_cons_iff.mp hcounts.symm
    rw [List.zipIdx_cons] at h
    obtain ⟨w₁, out₁, out₂, hfirst, hthen, rfl⟩ := Action.turns_of_forM_cons h
    obtain ⟨rfl, rfl⟩ := forwardRequests hfirst
    have hlength : front.length + 1 = (front ++ [poolData'.forwarded]).length := by simp
    rw [hlength] at hthen
    have hentries₁ : ((w.modifyEntry front.length fun poolData' =>
        { poolData' with
          mBlocksRequested := poolData'.mBlocksRequested -
            UInt16.ofNat poolData.mBlocksRequested.toNat
          mBlocksWaiting := poolData'.mBlocksWaiting +
            UInt16.ofNat poolData.mBlocksRequested.toNat }).daemon.mPoolConnections) =
        (front ++ [poolData'.forwarded]) ++ entries' := by
      simp [modifyEntry, modifyDaemon, hentries, hcount, PoolConnectionData.forwarded,
        modify_length_append]
    obtain ⟨hrest, rfl⟩ := ih hentries₁ hcounts.symm hthen
    refine ⟨by rw [hrest]; simp, ?_⟩
    rw [List.map_cons, List.sum_cons, List.replicate_add, hcount]

end Forwarded

section Effects

variable [Platform]

/-- What `takeSubmission` does. -/
inductive TakeEffect (w : World) : World → List Output → Prop
  | idle (next : DaemonConnection.nextSubmission w = none) : TakeEffect w w []
  | stale {j : ℕ} {pool : PoolConnection} {block : CBlock}
      (next : DaemonConnection.nextSubmission w = some (j, pool, block))
      (old : block.nHeight ≠ w.registry.mBestHeight) :
      TakeEffect w
        ((w.modifyDaemon ({ · with mHashSubmitBlock := block.getHash })).modifyEntry j
          ({ · with mSubmitBlock := none })) []
  | sent {j : ℕ} {pool : PoolConnection} {block : CBlock}
      (next : DaemonConnection.nextSubmission w = some (j, pool, block))
      (current : block.nHeight = w.registry.mBestHeight) :
      TakeEffect w
        ((w.modifyDaemon fun d =>
          { d with
            mHashSubmitBlock := block.getHash, mLastBlockfinder := pool.mNxsaddress }).modifyEntry j
            ({ · with mSubmitBlock := none }))
        [.toWallet (DaemonPacket.submitBlock block.hashMerkleRoot block.nNonce)]

theorem TakeEffect.map_entries {β : Type} {g : PoolConnectionData → β}
    (hg : ∀ poolData, g { poolData with mSubmitBlock := none } = g poolData) {w w' : World}
    {out : List Output} (h : TakeEffect w w' out) :
    w'.daemon.mPoolConnections.map g = w.daemon.mPoolConnections.map g := by
  cases h with
  | idle => rfl
  | stale => exact map_modify_eq hg _ _
  | sent => exact map_modify_eq hg _ _

theorem takeSubmission_effect {w w' : World} {out : List Output} {u : Unit}
    (h : DaemonConnection.takeSubmission w = some (u, w', out)) : TakeEffect w w' out := by
  rw [DaemonConnection.takeSubmission, Action.get_bind] at h
  cases hnext : DaemonConnection.nextSubmission w with
  | none =>
    rw [hnext] at h
    obtain ⟨-, rfl, rfl⟩ := Action.pure_eq_some_iff.mp h
    exact .idle hnext
  | some next =>
    obtain ⟨j, pool, block⟩ := next
    simp only [hnext, Action.bind_eq_some_iff, Action.modify_eq_some_iff] at h
    obtain ⟨_, _, _, _, ⟨rfl, rfl⟩, h, rfl⟩ := h
    split_ifs at h with hcurrent
    · simp only [Action.bind_eq_some_iff, Action.modify_eq_some_iff] at h
      obtain ⟨_, _, _, _, hsend, ⟨_, _, _, _, ⟨rfl, rfl⟩, ⟨rfl, rfl⟩, rfl⟩, rfl⟩ := h
      obtain ⟨rfl, rfl⟩ := DaemonConnection.transmit_eq_some hsend
      exact .sent hnext hcurrent
    · obtain ⟨rfl, rfl⟩ := Action.modify_eq_some_iff.mp h
      exact .stale hnext hcurrent

/-! ### All effects -/

/-- What an event that is handled can do to the world. -/
inductive StepEffect (w : World) : Event → World → List Output → Prop
  | minerConnected {ipAddress : Bytes} :
      StepEffect w (.minerConnected ipAddress)
        (({ w with pools := w.pools ++ [PoolConnection.new ipAddress w.registry.mConfig] } :
            World).modifyDaemon fun d =>
          { d with mPoolConnections := d.mPoolConnections ++ [⟨w.pools.length, 0, 0, none⟩] }) []
  | miner {i : ℕ} {receiveBuffer : Bytes} {packet : Packet} {w' : World} {out : List Output}
      (parsed : Packet.ofBuffer .miner receiveBuffer = some packet)
      (effect : MinerEffect w i packet w' out) : StepEffect w (.minerData i receiveBuffer) w' out
  | minerClosed {i : ℕ} :
      StepEffect w (.minerClosed i)
        (w.modifyPool i ({ · with mConnection := false, mConnectionClosed := true })) []
  | serverMaintenance :
      StepEffect w .serverMaintenance
        { w with pools := w.pools.map fun pool =>
          { pool with alive := pool.alive && !pool.mConnectionClosed } } []
  | walletConnected :
      StepEffect w .walletConnected (w.modifyDaemon ({ · with timersStarted := true }))
        [.toWallet (DaemonPacket.setChannel 1)]
  | walletDropped {receiveBuffer : Bytes}
      (dropped : (Event.walletData receiveBuffer).walletPacket = none) :
      StepEffect w (.walletData receiveBuffer) w []
  | wallet {receiveBuffer : Bytes} {packet : Packet} {w' : World} {out : List Output}
      (parsed : (Event.walletData receiveBuffer).walletPacket = some packet)
      (effect : WalletEffect w packet w' out) : StepEffect w (.walletData receiveBuffer) w' out
  | walletClosed : StepEffect w .walletClosed (w.modifyDaemon ({ · with mConnection := false })) []
  | blockTimerPending (pending : w.daemon.mCoinbasePending) : StepEffect w .blockTimer w []
  | blockTimer {w₁ w₂ : World} {out₁ out₂ : List Output} (take : TakeEffect w w₁ out₁)
      (forward : ForwardFrame w₁ w₂ out₂) (settled : w.daemon.mCoinbasePending = false)
      (forwarded : Forwarded w₁ w₂ out₂) : StepEffect w .blockTimer w₂ (out₁ ++ out₂)
  | orphanCheckTimer {out : List Output}
      (outputs : ∀ o ∈ out, ∃ hashBlock, o = .toWallet (DaemonPacket.checkBlock hashBlock)) :
      StepEffect w .orphanCheckTimer w out
  | getHeightTimer {out : List Output}
      (outputs : ∀ o ∈ out, o ∈ [Output.toWallet DaemonPacket.getHeight,
        .toWallet DaemonPacket.getRound, .toWallet DaemonPacket.getReward]) :
      StepEffect w .getHeightTimer w out

variable {w w' : World} {out : List Output} {u : Unit}

omit [Platform] in
theorem transmitIf_eq_some {sends : Prop} [Decidable sends] {packet : Packet}
    (h : (if sends then DaemonConnection.transmit packet else pure ()) w = some (u, w', out)) :
    w' = w ∧ ∀ o ∈ out, o = .toWallet packet := by
  split_ifs at h
  · obtain ⟨rfl, rfl⟩ := DaemonConnection.transmit_eq_some h
    exact ⟨rfl, fun o ho => List.mem_singleton.mp ho⟩
  · obtain ⟨-, rfl, rfl⟩ := Action.pure_eq_some_iff.mp h
    exact ⟨rfl, nofun⟩

omit [Platform] in
theorem checkBlock_eq_some {key : Uint1024} (hkey : w.registry.mBlockDb.hasKey key) {round : UInt32}
    (h : (registryCall (DataRegistry.call (.blockGet key)) >>= fun cBlock =>
      if cBlock.nRound ≥ round ∧ cBlock.nCoinbaseValue > 0 then
        DaemonConnection.transmit (DaemonPacket.checkBlock key)
      else pure ()) w = some (u, w', out)) :
    w' = w ∧ ∀ o ∈ out, ∃ hashBlock, o = .toWallet (DaemonPacket.checkBlock hashBlock) := by
  have hread : (DataRegistry.exec (DataRegistry.call (.blockGet key)) w.registry).2 =
      w.registry := by
    change { w.registry with mBlockDb := (w.registry.mBlockDb.getRecord key).2 } = w.registry
    rw [Database.getRecord_of_hasKey hkey]
  simp only [Action.bind_eq_some_iff, registryCall_eq_some_iff, hread] at h
  obtain ⟨cBlock, _, _, _, ⟨-, rfl, rfl⟩, h, rfl⟩ := h
  obtain ⟨rfl, houtputs⟩ := transmitIf_eq_some h
  exact ⟨rfl, fun o ho => ⟨key, houtputs o (by simpa using ho)⟩⟩

omit [Platform] in
/-- The orphan check reads the records that there are, and asks the wallet about some. -/
theorem orphanCheckTimerHandler_checks
    (h : DaemonConnection.orphanCheckTimerHandler w = some (u, w', out)) :
    w' = w ∧ ∀ o ∈ out, ∃ hashBlock, o = .toWallet (DaemonPacket.checkBlock hashBlock) := by
  rw [DaemonConnection.orphanCheckTimerHandler, Action.get_bind] at h
  have hkeys : ∀ key ∈ w.registry.mBlockDb.getKeys, w.registry.mBlockDb.hasKey key :=
    fun key hkey =>
    Database.hasKey_iff.mpr (Database.mem_getKeys.mp hkey)
  generalize w.registry.mBlockDb.getKeys = keys at h hkeys
  generalize w.registry.mCurrentRound - 5 = round at h
  induction keys generalizing out with
  | nil =>
    obtain ⟨-, rfl, rfl⟩ := Action.pure_eq_some_iff.mp h
    exact ⟨rfl, by simp⟩
  | cons key keys ih =>
    obtain ⟨w₁, out₁, out₂, hturn, hrest, rfl⟩ := Action.turns_of_forM_cons h
    obtain ⟨rfl, houtputs⟩ := checkBlock_eq_some (hkeys key List.mem_cons_self) hturn
    obtain ⟨rfl, hothers⟩ := ih (fun k hk => hkeys k (List.mem_cons_of_mem _ hk)) hrest
    exact ⟨rfl, List.forall_mem_append.mpr ⟨houtputs, hothers⟩⟩

omit [Platform] in
theorem getHeightTimerHandler_polls
    (h : DaemonConnection.getHeightTimerHandler w = some (u, w', out)) :
    w' = w ∧ ∀ o ∈ out, o ∈ [Output.toWallet DaemonPacket.getHeight,
      .toWallet DaemonPacket.getRound, .toWallet DaemonPacket.getReward] := by
  simp only [DaemonConnection.getHeightTimerHandler, Action.bind_eq_some_iff,
    Action.get_eq_some_iff] at h
  obtain ⟨_, _, _, _, hheight, ⟨_, _, _, _, hround, ⟨_, _, _, _, ⟨rfl, rfl, rfl⟩, h, rfl⟩,
    rfl⟩, rfl⟩ := h
  obtain ⟨rfl, rfl⟩ := DaemonConnection.transmit_eq_some hheight
  obtain ⟨rfl, rfl⟩ := DaemonConnection.transmit_eq_some hround
  obtain ⟨rfl, hreward⟩ := transmitIf_eq_some h
  refine ⟨rfl, fun o ho => ?_⟩
  simp only [List.mem_append, List.mem_singleton] at ho
  rcases ho with rfl | rfl | ho
  · simp
  · simp
  · simp [hreward o ho]

theorem blockTimerHandler_effect (h : DaemonConnection.blockTimerHandler w = some (u, w', out)) :
    StepEffect w .blockTimer w' out := by
  rw [DaemonConnection.blockTimerHandler, Action.get_bind] at h
  cases hpending : w.daemon.mCoinbasePending with
  | true =>
    rw [hpending] at h
    obtain ⟨-, rfl, rfl⟩ := Action.pure_eq_some_iff.mp h
    exact .blockTimerPending hpending
  | false =>
    simp only [hpending, Bool.not_false, if_true, Action.bind_eq_some_iff] at h
    obtain ⟨_, w₁, out₁, out₂, htake, hforward, rfl⟩ := h
    have heffect := takeSubmission_effect htake
    have hcounts := heffect.map_entries (g := (·.mBlocksRequested)) (by intro _; rfl)
    obtain ⟨hentries, houtputs⟩ := Forwarded.loop (List.nil_append _).symm hcounts.symm hforward
    refine .blockTimer heffect ?_ hpending ⟨hentries, houtputs⟩
    exact Action.Ensures.forM ForwardFrame.composes _
      (fun poolData _ => ForwardFrame.forwardRequests poolData.2 poolData.1.mBlocksRequested.toNat)
      _ _ _ _ hforward

/-- Every handler that is defined has one of the effects. -/
theorem handler_effect {e : Event} (hnew : w.daemon.mNewBlock = false)
    (h : handler e w = some ((), w', out)) : StepEffect w e w' out := by
  cases e with
  | minerConnected ipAddress =>
    simp only [handler, World.minerConnected, DaemonConnection.addPoolConnection,
      Action.bind_eq_some_iff, Action.get_eq_some_iff, Action.modify_eq_some_iff] at h
    obtain ⟨_, _, _, _, ⟨rfl, rfl, rfl⟩, ⟨_, _, _, _, ⟨rfl, rfl⟩, ⟨rfl, rfl⟩, rfl⟩, rfl⟩ := h
    exact .minerConnected
  | minerData i receiveBuffer =>
    obtain ⟨packet, hparsed, heffect⟩ := minerEffect_of_processData h
    exact .miner hparsed heffect
  | minerClosed i =>
    obtain ⟨rfl, rfl⟩ := Action.modify_eq_some_iff.mp h
    exact .minerClosed
  | serverMaintenance =>
    simp only [handler, World.serverMaintenance, Action.modify_eq_some_iff] at h
    obtain ⟨rfl, rfl⟩ := h
    exact .serverMaintenance
  | walletConnected =>
    simp only [handler, World.walletConnected, Action.bind_eq_some_iff,
      Action.modify_eq_some_iff] at h
    obtain ⟨_, _, _, _, ⟨rfl, rfl⟩, hsend, rfl⟩ := h
    obtain ⟨rfl, rfl⟩ := DaemonConnection.transmit_eq_some hsend
    exact .walletConnected
  | walletData receiveBuffer =>
    obtain ⟨rfl, rfl, hdropped⟩ | ⟨packet, hparsed, heffect⟩ := walletEffect_of_processData hnew h
    · exact .walletDropped hdropped
    · exact .wallet hparsed heffect
  | walletClosed =>
    obtain ⟨rfl, rfl⟩ := Action.modify_eq_some_iff.mp h
    exact .walletClosed
  | blockTimer => exact blockTimerHandler_effect h
  | orphanCheckTimer =>
    obtain ⟨rfl, houtputs⟩ := orphanCheckTimerHandler_checks h
    exact .orphanCheckTimer houtputs
  | getHeightTimer =>
    obtain ⟨rfl, houtputs⟩ := getHeightTimerHandler_polls h
    exact .getHeightTimer houtputs

theorem step_effect {e : Event} (hnew : w.daemon.mNewBlock = false)
    (hstep : w.step e = some (w', out)) : StepEffect w e w' out :=
  handler_effect hnew (handler_of_step hstep)

/-! ### Between handlers no round is starting -/

theorem StepEffect.mNewBlock {e : Event} (hnew : w.daemon.mNewBlock = false)
    (h : StepEffect w e w' out) : w'.daemon.mNewBlock = false := by
  cases h with
  | miner parsed effect => cases effect <;> exact hnew
  | wallet parsed effect => cases effect <;> first | exact hnew | rfl
  | blockTimer take forward =>
    rw [forward.daemon]
    cases take <;> exact hnew
  | _ => exact hnew

end Effects

theorem mNewBlock_of_run [Platform] {history : History World Event Output} {w : World}
    (h : ServerRun history w) : w.daemon.mNewBlock = false := by
  refine h.invariant ?_ fun w e w' out hnew hstep => (step_effect hnew hstep).mNewBlock hnew
  rintro w ⟨config, blockDb, accountDb, mRoundReward, rfl⟩
  rfl

theorem stepEffect_of_run [Platform] {past : History World Event Output} {w w' : World} {e : Event}
    {out : List Output} (hrun : ServerRun past w) (hstep : w.step e = some (w', out)) :
    StepEffect w e w' out :=
  step_effect (mNewBlock_of_run hrun) hstep

/-- In a run, every step has one of the effects, on a state that a run ends in. -/
theorem throughout_of_run [Platform]
    {P : History World Event Output → Occurrence World Event Output → Prop}
    (hP : ∀ past w e w' out, ServerRun past w → StepEffect w e w' out → P past ⟨w, e, w', out⟩)
    {history : History World Event Output} {w : World} (h : ServerRun history w) :
    Throughout P history := by
  induction h with
  | start => trivial
  | next hrun hstep ih =>
    exact ⟨hP _ _ _ _ _ hrun (stepEffect_of_run hrun hstep), ih⟩

theorem throughout_of_effect [Platform]
    {P : History World Event Output → Occurrence World Event Output → Prop}
    (hP : ∀ past w e w' out, StepEffect w e w' out → P past ⟨w, e, w', out⟩)
    {history : History World Event Output} {w : World} (h : ServerRun history w) :
    Throughout P history :=
  throughout_of_run (fun past w e w' out _ => hP past w e w' out) h

end NexusPool
