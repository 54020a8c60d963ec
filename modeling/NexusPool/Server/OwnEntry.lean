import NexusPool.Server.BlockFinder
import NexusPool.Server.RequestCount

/-!
# Entries found by address

A connection that asks for a block or submits one gives its address, not itself, and the
daemon connection takes the first entry with that address. It is the entry of the caller if no
connection before it is alive and has the same address.
-/

namespace NexusPool

open Reactive World

section Entries

variable [Platform]

/-- A `GET_BLOCK` sets the count of the caller's own entry, and of no other. -/
def RequestsOwn (o : Occurrence World Event Output) : Prop :=
  ∀ i ∈ o.before.requests Packet.getBlock o.event,
    o.before.owner i = some i ∧
      o.after.daemon.mPoolConnections = o.before.daemon.mPoolConnections.modify i
        ({ · with mBlocksRequested := o.after.counters.numBlocksRequested i })

/-- What an accepted block must do: the block of the share goes to the entry of the connection
that submitted it, which is logged in to the account of the finder. -/
def Signal.StoresOwn (o : Occurrence World Event Output) : Signal → Prop
  | .found i j finder share =>
    j = i ∧ o.before.owner i = some i ∧ o.before.account i = some finder ∧
      ∃ hashPrimeOrigin nNonce block,
        PoolConnection.readShare share = some (hashPrimeOrigin, nNonce) ∧
          o.before.requested i hashPrimeOrigin = some block ∧
            o.after.daemon.mPoolConnections = o.before.daemon.mPoolConnections.modify i
              ({ · with mSubmitBlock := some { block with nNonce := nNonce } })
  | _ => True

/-- The block that was sent last is credited to the account that found it. -/
def CreditsFinder (history : History World Event Output) (w : World) : Prop :=
  ∀ sub ∈ (docket history).lastSent, w.daemon.mLastBlockfinder = sub.finder

/-- Requests and blocks belong to the connection they come from. -/
def BelongsToCaller (history : History World Event Output) : Prop :=
  Throughout (fun past o =>
    RequestsOwn o ∧ (Signal.of o).StoresOwn o ∧ CreditsFinder (o :: past) o.after) history

omit [Platform] in
/-- A connection that asks for a block or submits a share has an address that no connection
before it shares, among those that are alive. -/
def CallersUnshared (history : History World Event Output) : Prop :=
  Throughout (fun _ o => ∀ header ∈ [Packet.getBlock, Packet.submitShare],
    ∀ i ∈ o.before.requests header o.event, o.before.Unshared i) history

omit [Platform] in
instance (history : History World Event Output) : Decidable (CallersUnshared history) :=
  inferInstanceAs (Decidable (Throughout _ history))

variable {w w' : World} {e : Event} {out : List Output}

theorem findPoolConnection_of_step (hw : w.Linked) {i : ℕ} {receiveBuffer : Bytes}
    (hstep : w.step (.minerData i receiveBuffer) = some (w', out)) {pool : PoolConnection}
    (hself : w.pools[i]? = some pool) (hunshared : w.Unshared i) :
    DaemonConnection.findPoolConnection pool.mRemoteAddress w = some i := by
  obtain ⟨pool', hself', hopen⟩ := open_of_minerData hstep
  cases hself.symm.trans hself'
  exact hw.paired.findPoolConnection_eq hself (hw.alive_of_open hself hopen) hunshared

theorem requestsOwn_of_step (hw : w.Linked) (hstep : w.step e = some (w', out))
    (hunshared : ∀ i ∈ w.requests Packet.getBlock e, w.Unshared i) :
    RequestsOwn ⟨w, e, w', out⟩ := by
  intro i (hasks : w.requests Packet.getBlock e = some i)
  change w.owner i = some i ∧ w'.daemon.mPoolConnections = _
  obtain ⟨receiveBuffer, packet, pool, rfl, hparse, hvalid, header, hself, hlogged⟩ :=
    requests_eq_some hasks
  obtain ⟨front, hget⟩ :=
    processData_getBlock hparse hvalid header hself hlogged (handler_of_step hstep)
  obtain ⟨pool', j, hself', hentry, rfl, -⟩ := handleGetBlock_eq_some hget
  cases hself.symm.trans hself'
  have hown := findPoolConnection_of_step hw hstep hself (hunshared i hasks)
  cases hown.symm.trans hentry
  refine ⟨hw.paired.owner hself, ?_⟩
  have hcount :
      (((w.modifyPool i fun pool =>
        { pool with mNumBlocksRequested := pool.mNumBlocksRequested + 1 }).modifyEntry i
          ({ · with
            mBlocksRequested := pool.mNumBlocksRequested + 1 })).counters).numBlocksRequested i =
        pool.mNumBlocksRequested + 1 := by
    change ((w.modifyPool i _).pools[i]?.map _).getD 0 = _
    rw [getElem?_modifyPool, if_pos rfl, hself]
    rfl
  simp only [hcount]
  rfl

omit [Platform] in
theorem event_of_found {o : Occurrence World Event Output} {i j : ℕ} {finder share : Bytes}
    (h : Signal.of o = .found i j finder share) :
    (∃ receiveBuffer, o.event = .minerData i receiveBuffer) ∧
      .toMiner i (.getPacket Packet.block) ∈ o.outputs := by
  obtain ⟨w, e, w', out⟩ := o
  cases e with
  | minerData k receiveBuffer =>
    simp only [Signal.of, Signal.ofMiner] at h
    split_ifs at h with hblock
    cases hsignal : (do
        let packet ← Packet.ofBuffer .miner receiveBuffer
        let share ← packet.mData
        let pool ← w.pools[k]?
        let j ← DaemonConnection.findPoolConnection pool.mRemoteAddress w
        return Signal.found k j pool.mNxsaddress share) with
    | none =>
      rw [hsignal] at h
      cases h
    | some signal =>
      rw [hsignal, Option.getD_some] at h
      subst h
      simp only [Option.bind_eq_bind, Option.bind_eq_some_iff, Option.pure_def, Option.some.injEq,
        Signal.found.injEq] at hsignal
      obtain ⟨_, _, _, _, _, _, _, _, rfl, _⟩ := hsignal
      exact ⟨⟨receiveBuffer, rfl⟩, hblock⟩
  | walletData receiveBuffer =>
    simp only [Signal.of] at h
    cases hpacket : (Event.walletData receiveBuffer).walletPacket with
    | none => simp [hpacket] at h
    | some packet =>
      rw [hpacket, Option.elim_some] at h
      unfold Signal.ofWallet at h
      split_ifs at h
      split at h <;> cases h
  | blockTimer =>
    simp only [Signal.of] at h
    unfold Signal.ofTick at h
    split_ifs at h
    split at h <;> cases h
  | _ => cases h

theorem storesOwn_of_step (hw : w.Linked) (hstep : w.step e = some (w', out))
    (hunshared : ∀ i ∈ w.requests Packet.submitShare e, w.Unshared i) :
    (Signal.of ⟨w, e, w', out⟩).StoresOwn ⟨w, e, w', out⟩ := by
  cases hsignal : Signal.of ⟨w, e, w', out⟩ with
  | found i j finder share =>
    obtain ⟨⟨receiveBuffer, rfl⟩, hblock⟩ := event_of_found hsignal
    have hhandler := handler_of_step hstep
    obtain ⟨packet, hparse, heffect⟩ := minerEffect_of_processData hhandler
    cases heffect with
    | reply replies => exact absurd hblock (Reply.block_notMem replies)
    | refused _ _ _ replies => exact absurd hblock (Reply.block_notMem replies)
    | loggedIn _ _ _ _ replies => exact absurd hblock (Reply.block_notMem replies)
    | getBlock _ _ _ replies => exact absurd hblock (Reply.block_notMem replies)
    | getBalance _ _ replies => exact absurd hblock (Reply.block_notMem replies)
    | credited _ _ _ replies => exact absurd hblock (Reply.block_notMem replies)
    | @accepted out data verified k header payload entry free replies =>
      have hrequest : w.requests Packet.submitShare (.minerData i receiveBuffer) = some i := by
        by_contra hrequest
        have hscoring := processData_scoring hhandler fun packet' pool hparse' hvalid hself => by
          cases hparse.symm.trans hparse'
          refine ⟨by rw [header]; decide, fun hlogged => ?_⟩
          exact hrequest (requests_minerData hparse hvalid header hself hlogged)
        rcases hscoring.2 _ hblock with ⟨_, hscore⟩ | ⟨_, hban⟩
        · cases hscore
        · cases hban
      have hown := findPoolConnection_of_step hw hstep verified.self (hunshared i hrequest)
      cases hown.symm.trans entry
      cases (verified.ofMiner_accepted hparse payload entry).symm.trans hsignal
      refine ⟨rfl, hw.paired.owner verified.self, ?_, ?_⟩
      · simp [World.account, verified.self, Option.filter, verified.loggedIn]
      · refine ⟨verified.hashPrimeOrigin, verified.nNonce, verified.block, verified.read, ?_, rfl⟩
        simp [World.requested, verified.self, verified.requested]
  | _ => trivial

theorem Signal.StoresOwn.storedWithFinder {signal : Signal} {o : Occurrence World Event Output}
    (h : signal.StoresOwn o) : signal.StoredWithFinder o.before := by
  cases signal with
  | found i j finder share =>
    obtain ⟨rfl, howner, haccount, -⟩ := h
    change (o.before.owner j).bind o.before.account = some finder
    rw [howner]
    exact haccount
  | _ => trivial

/-- As long as no caller shares its address with a connection before it, requests and blocks
belong to their callers. -/
theorem belongsToCaller_of_unshared {history : History World Event Output} {w : World}
    (h : ServerRun history w) (hunshared : CallersUnshared history) : BelongsToCaller history := by
  have hall : CallersUnshared history → StoredWithFinder history ∧ BelongsToCaller history := by
    clear hunshared
    induction h with
    | start => exact fun _ => ⟨trivial, trivial⟩
    | @next past s s' e out hrun hstep ih =>
      intro hunshared
      obtain ⟨hstored, hbelongs⟩ := ih hunshared.2
      have hlinked := linked_of_run hrun
      have hrequests := requestsOwn_of_step hlinked hstep (hunshared.1 _ (by simp))
      have hstores := storesOwn_of_step hlinked hstep (hunshared.1 _ (by simp))
      have hstored' : StoredWithFinder (⟨s, e, s', out⟩ :: past) :=
        ⟨hstores.storedWithFinder, hstored⟩
      have hknown := findersKnown_of_run (hrun.next hstep) hstored'
      exact ⟨hstored', ⟨hrequests, hstores, hknown.lastSent⟩, hbelongs⟩
  exact (hall hunshared).2

end Entries

/-! ### Two miners -/

section TwoMiners

attribute [local instance] Platform.plain

def secondAsks (ipAddress ipAddress' : Bytes) : List Event :=
  [.walletConnected, .minerConnected ipAddress, .minerConnected ipAddress',
    .minerData 0 (Packet.withData Packet.login [65]).wire,
    .minerData 1 (Packet.withData Packet.login [66]).wire,
    .minerData 1 (Packet.getPacket Packet.getBlock).wire]

/-- The second miner solves its block, and the block is sent. -/
def secondFinds : Option (History World Event Output × World) :=
  trace World.step .fresh (secondAsks [1] [2] ++ [.blockTimer, firstBlock,
    .minerData 1 (Packet.withData Packet.submitShare (List.replicate 136 0)).wire, .blockTimer])

theorem secondFinds_isSome : secondFinds.isSome := by decide +kernel

theorem secondFinds_run :
    ServerRun (secondFinds.get secondFinds_isSome).1 (secondFinds.get secondFinds_isSome).2 :=
  Run.of_trace World.fresh_initial (Option.some_get _).symm

theorem secondFinds_unshared : CallersUnshared (secondFinds.get secondFinds_isSome).1 := by
  decide +kernel

attribute [local irreducible] secondFinds

theorem secondFinds_belongsToCaller : BelongsToCaller (secondFinds.get secondFinds_isSome).1 :=
  belongsToCaller_of_unshared secondFinds_run secondFinds_unshared

/-- The last step is a request of the second miner, whose entry has no request after it. -/
def requestLost : History World Event Output → Bool
  | [] => false
  | o :: _ => decide (o.before.requests Packet.getBlock o.event = some 1) &&
      decide (o.before.daemon.mPoolConnections.length = 2) &&
        decide (o.after.counters.numBlocksRequested 1 ≠ 0) &&
          decide (o.after.counters.blocksRequested 1 = 0)

/-- With one address for both, the request goes to the entry of the first miner. -/
theorem request_misplaced : ¬ ∀ (platform : Platform) history w,
    @ServerRun platform history w → @BelongsToCaller platform history := by
  intro h
  obtain ⟨history, w, hrun, hp⟩ : ∃ history w, ServerRun history w ∧ requestLost history = true :=
    exists_run_of_trace World.fresh_initial (secondAsks [1] [1]) requestLost (by decide +kernel)
  have hbelongs := h .plain history w hrun
  cases history with
  | nil => cases hp
  | cons o past =>
    simp only [requestLost, Bool.and_eq_true, decide_eq_true_eq] at hp
    obtain ⟨⟨⟨hasks, htwo⟩, hcount⟩, hnone⟩ := hp
    obtain ⟨-, hentries⟩ := hbelongs.1.1 1 hasks
    obtain ⟨poolData, hentry⟩ : ∃ poolData, o.before.daemon.mPoolConnections[1]? = some poolData :=
      ⟨_, List.getElem?_eq_getElem (by omega)⟩
    have hsame : o.after.counters.blocksRequested 1 = o.after.counters.numBlocksRequested 1 := by
      change ((o.after.daemon.mPoolConnections[1]?).map _).getD 0 = _
      rw [hentries, List.getElem?_modify, hentry]
      rfl
    exact hcount (hsame.symm.trans hnone)

end TwoMiners

end NexusPool
