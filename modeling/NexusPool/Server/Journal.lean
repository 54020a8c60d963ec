import NexusPool.Ledger.Posting
import NexusPool.Server.OrphanedBlocks
import NexusPool.Server.ShareCredit

/-!
# The journal of an account through a run

Of all events, credited shares, `GOOD` and `ORPHAN_BLOCK` are what is posted to an account. In
every run, whatever connections and packets come in between, the record of an account is what the
postings since then make of it.
-/

namespace NexusPool

open Concurrent DataRegistry PayoutManager Reactive World
open Std (ExtTreeMap)

section Journal

variable [Platform]

/-- What a step posts to the account `k`. -/
def postings (k : Bytes) (o : Occurrence World Event Output) : List Posting :=
  match o.event with
  | .minerData i _ =>
    match ShareSignal.of i o with
    | .credited value => if o.before.account i = some k then [.shares (weightOf value)] else []
    | _ => []
  | e =>
    if (o.before.paysFor e).isSome then
      [.payout (payment o.before.registry o.before.daemon.mRoundReward
        o.before.daemon.mLastBlockfinder k)]
    else e.orphan.elim [] (refundPosting o.before.registry · k)

/-- All that is posted in a history, the oldest first. -/
def journal (k : Bytes) : History World Event Output → List Posting
  | [] => []
  | o :: past => journal k past ++ postings k o

/-! ### Records stay under their own keys -/

variable {w w' : World} {out : List Output}

omit [Platform] in
theorem DataRegistry.WellKeyed.opened {s : DataRegistry} (h : s.WellKeyed) (nxsAddress : Bytes) :
    (s.opened nxsAddress).WellKeyed := by
  have hopened := h.exec (PoolConnection.openAccount nxsAddress)
  rwa [exec_openAccount] at hopened

theorem MinerEffect.wellKeyed {i : ℕ} {packet : Packet} (hkeyed : w.registry.WellKeyed)
    (h : MinerEffect w i packet w' out) : w'.registry.WellKeyed := by
  cases h with
  | reply => exact hkeyed
  | refused self loggedOut registry =>
    rcases registry with rfl | ⟨-, b, rfl⟩
    · exact hkeyed
    · exact hkeyed.opened _
  | loggedIn => exact hkeyed.opened _
  | getBlock => exact hkeyed
  | getBalance => exact ⟨hkeyed.1, hkeyed.2.getRecord _⟩
  | credited => exact ⟨hkeyed.1, hkeyed.2.modifyRecord⟩
  | accepted => exact ⟨hkeyed.1, hkeyed.2.modifyRecord⟩

theorem WalletEffect.wellKeyed {packet : Packet} (hkeyed : w.registry.WellKeyed)
    (h : WalletEffect w packet w' out) : w'.registry.WellKeyed := by
  cases h with
  | goodBlock => exact ⟨hkeyed.1.getRecord _, hkeyed.2⟩
  | orphan => exact hkeyed.exec _
  | rebuilt => exact hkeyed.exec _
  | @round w₁ w₂ _ cause frame =>
    have hregistry : w₂.registry = w₁.registry := frame.registry
    change w₂.registry.WellKeyed
    rw [hregistry]
    cases cause with
    | good => exact hkeyed.exec _
    | _ => exact hkeyed
  | _ => exact hkeyed

theorem StepEffect.registry_of_blockTimer {w₁ w₂ : World} {out₁ out₂ : List Output}
    (take : TakeEffect w w₁ out₁) (forward : ForwardFrame w₁ w₂ out₂) :
    w₂.registry = w.registry := by
  rw [forward.registry]
  cases take <;> rfl

theorem StepEffect.wellKeyed {e : Event} (hkeyed : w.registry.WellKeyed)
    (h : StepEffect w e w' out) : w'.registry.WellKeyed := by
  cases h with
  | miner parsed effect => exact effect.wellKeyed hkeyed
  | wallet parsed effect => exact effect.wellKeyed hkeyed
  | blockTimer take forward => rwa [StepEffect.registry_of_blockTimer take forward]
  | _ => exact hkeyed

theorem wellKeyed_of_loaded {history : History World Event Output} (h : LoadedRun history w) :
    w.registry.WellKeyed := by
  induction h with
  | start hw =>
    obtain ⟨config, blkDat, acctDat, blockDb, accountDb, mRoundReward, hblocks, haccounts, rfl⟩ :=
      hw
    exact ⟨(Database.ownKeys_of_readIntoMemory hblocks).wellKeyed,
      (Database.ownKeys_of_readIntoMemory haccounts).wellKeyed⟩
  | next hrun hstep ih => exact (stepEffect_of_run (serverRun_of_loaded hrun) hstep).wellKeyed ih

/-! ### One step -/

omit [Platform] in
theorem signal_of_rounds {i : ℕ} {receiveBuffer : Bytes} (h : w'.rounds = w.rounds) :
    ShareSignal.of i ⟨w, .minerData i receiveBuffer, w', out⟩ = .quiet := by
  change ShareSignal.ofMiner (w.round i).1 (w'.round i).1 = .quiet
  rw [round_congr h, ShareSignal.ofMiner, if_pos rfl]

theorem signal_of_share {i : ℕ} {receiveBuffer data : Bytes} (share : VerifiedShare w i data)
    (h : w'.round = share.credited.round) :
    ShareSignal.of i ⟨w, .minerData i receiveBuffer, w', out⟩ = .credited share.value := by
  change ShareSignal.ofMiner (w.round i).1 (w'.round i).1 = .credited share.value
  rw [h, share.round_credited, ShareSignal.ofMiner, if_neg (List.cons_ne_self _ _)]
  rfl

theorem postings_of_rounds {i : ℕ} {receiveBuffer : Bytes} (h : w'.rounds = w.rounds) (k : Bytes) :
    postings k ⟨w, .minerData i receiveBuffer, w', out⟩ = [] := by
  simp only [postings, signal_of_rounds h]

theorem postings_of_share {i : ℕ} {receiveBuffer data : Bytes} (share : VerifiedShare w i data)
    (h : w'.round = share.credited.round) (k : Bytes) :
    postings k ⟨w, .minerData i receiveBuffer, w', out⟩ =
      if w.account i = some k then [.shares (weightOf share.value)] else [] := by
  simp only [postings, signal_of_share share h]

theorem postings_of_wallet {receiveBuffer : Bytes} {packet : Packet}
    (parsed : (Event.walletData receiveBuffer).walletPacket = some packet)
    (hgood : packet.mHeader ≠ DaemonPacket.good)
    (horphan : packet.mHeader ≠ DaemonPacket.orphanBlock)
    (k : Bytes) : postings k ⟨w, .walletData receiveBuffer, w', out⟩ = [] := by
  simp [postings, World.paysFor_of_ne parsed hgood, Event.orphan_of_ne parsed horphan]

theorem postings_of_good {receiveBuffer : Bytes} {packet : Packet}
    (parsed : (Event.walletData receiveBuffer).walletPacket = some packet)
    (header : packet.mHeader = DaemonPacket.good) (k : Bytes) :
    postings k ⟨w, .walletData receiveBuffer, w', out⟩ =
      [.payout (payment w.registry w.daemon.mRoundReward w.daemon.mLastBlockfinder k)] := by
  simp [postings, World.paysFor, Event.receives, parsed, header]

theorem postings_of_orphan {receiveBuffer data : Bytes} {packet : Packet} {hashOrphan : Uint1024}
    (parsed : (Event.walletData receiveBuffer).walletPacket = some packet)
    (header : packet.mHeader = DaemonPacket.orphanBlock) (payload : packet.mData = some data)
    (hash : BaseUint.setBytes 32 data = some hashOrphan) (k : Bytes) :
    postings k ⟨w, .walletData receiveBuffer, w', out⟩ = refundPosting w.registry hashOrphan k := by
  have horphan : (Event.walletData receiveBuffer).orphan = some hashOrphan := by
    simp [Event.orphan, parsed, payload, header, hash]
  simp [postings, World.paysFor_of_orphan horphan, horphan]

omit [Platform] in
theorem DataRegistry.Files.opened {s : DataRegistry} {k : Bytes} {r : Account} (h : s.Files k r)
    (nxsAddress : Bytes) :
    (s.opened nxsAddress).Files k r := by
  refine ⟨?_, h.own⟩
  rw [DataRegistry.opened]
  split_ifs with hkey
  · exact h.account
  · have hne : nxsAddress ≠ k := by
      rintro rfl
      exact hkey (Database.hasKey_iff.mpr ⟨r, h.account⟩)
    change (s.mAccountDb.updateRecord (.new nxsAddress)).mapRecords[k]? = some r
    rw [Database.find_updateRecord]
    exact (if_neg hne).trans h.account

section Step

variable {k : Bytes} {r : Account} (h : w.registry.Files k r) (hkeyed : w.registry.WellKeyed)
  (hk : k ≠ [])
include h

include hkeyed hk

theorem VerifiedShare.files_credited {i : ℕ} {data : Bytes} (share : VerifiedShare w i data) :
    share.credited.registry.Files k
      (if w.account i = some k then r.post (.shares (weightOf share.value)) else r) := by
  have hshares := h.modifyRecord hkeyed.2 hk share.pool.mNxsaddress fun r : Account =>
    show (r.addShares (Platform.shareWeight share.nDifficulty)).cKey = r.cKey from rfl
  have hsame : (if w.account i = some k then r.post (.shares (weightOf share.value)) else r) =
      if k = share.pool.mNxsaddress then
        r.addShares (Platform.shareWeight share.nDifficulty) else r := by
    rw [share.account, share.weightOf_value]
    exact if_congr (by rw [Option.some.injEq, eq_comm]) rfl rfl
  rw [hsame]
  exact hshares.of_accounts rfl

theorem MinerEffect.files {i : ℕ} {receiveBuffer : Bytes} {packet : Packet}
    (effect : MinerEffect w i packet w' out) :
    w'.registry.Files k
      ((postings k ⟨w, .minerData i receiveBuffer, w', out⟩).foldl Account.post r) := by
  have hquiet (hrounds : w'.rounds = w.rounds) (h' : w'.registry.Files k r) : w'.registry.Files k
      ((postings k ⟨w, .minerData i receiveBuffer, w', out⟩).foldl Account.post r) := by
    rw [postings_of_rounds hrounds]
    exact h'
  have hshare {data : Bytes} (share : VerifiedShare w i data)
      (hround : w'.round = share.credited.round)
        (hregistry : w'.registry = share.credited.registry) :
      w'.registry.Files k
        ((postings k ⟨w, .minerData i receiveBuffer, w', out⟩).foldl Account.post r) := by
    have hcredited := share.files_credited h hkeyed hk
    rw [postings_of_share share hround, hregistry]
    split_ifs at hcredited ⊢ <;> exact hcredited
  cases effect with
  | reply => exact hquiet rfl h
  | refused self loggedOut registry =>
    refine hquiet (rounds_modifyPool (by intro _; rfl) _ w) ?_
    rcases registry with rfl | ⟨-, b, rfl⟩
    · exact h
    · exact (h.opened _).of_accounts rfl
  | loggedIn => exact hquiet (rounds_modifyPool (by intro _; rfl) _ w) (h.opened _)
  | getBlock => exact hquiet (rounds_modifyPool (by intro _; rfl) _ w) h
  | getBalance => exact hquiet rfl (h.getRecord _)
  | credited share => exact hshare share rfl rfl
  | accepted share => exact hshare share rfl rfl

theorem WalletEffect.files {receiveBuffer : Bytes} {packet : Packet}
    (parsed : (Event.walletData receiveBuffer).walletPacket = some packet)
    (effect : WalletEffect w packet w' out) :
    w'.registry.Files k
      ((postings k ⟨w, .walletData receiveBuffer, w', out⟩).foldl Account.post r) := by
  have hquiet (hheader : packet.mHeader ≠ DaemonPacket.good ∧
      packet.mHeader ≠ DaemonPacket.orphanBlock) (h' : w'.registry.Files k r) : w'.registry.Files k
      ((postings k ⟨w, .walletData receiveBuffer, w', out⟩).foldl Account.post r) := by
    rw [postings_of_wallet parsed hheader.1 hheader.2]
    exact h'
  cases effect with
  | ignored header => exact hquiet (by simp at header; tauto) h
  | pending header =>
    refine hquiet ⟨?_, ?_⟩ (h.of_accounts rfl) <;>
      · intro heq
        rw [heq] at header
        exact absurd header (by decide)
  | goodBlock header => exact hquiet (by rw [header]; decide) (h.of_accounts rfl)
  | @orphan hashOrphan data header payload hash =>
    have hread := files_refundPayouts (h.blockGet hashOrphan) (hkeyed.exec _).2 hk hashOrphan
    rw [postings_of_orphan parsed header payload hash, ← refundPosting_blockGet]
    exact hread.of_accounts rfl
  | rebuilt header =>
    refine hquiet (by rw [header]; decide) (h.of_accounts ?_)
    change (DataRegistry.exec _ w.registry).2.mAccountDb = w.registry.mAccountDb
    rw [(DaemonConnection.exec_rebuildCoinbase _ _ _).1]
  | delivered header => exact hquiet (by rw [header]; decide) h
  | swallowed header => exact hquiet (by rw [header]; decide) h
  | @round w₁ w₂ _ cause frame =>
    have hregistry : w₂.reset.registry = w₁.registry := frame.registry
    cases cause with
    | coinbaseSet header =>
      exact hquiet (by rw [header]; decide) (h.of_accounts (congrArg (·.mAccountDb) hregistry))
    | reward header =>
      exact hquiet (by rw [header]; decide) (h.of_accounts (congrArg (·.mAccountDb) hregistry))
    | good header =>
      have hpaid := files_settle h hkeyed hk w.daemon.mRoundReward w.daemon.mHashSubmitBlock
        w.daemon.mLastBlockfinder
      rw [postings_of_good parsed header]
      exact hpaid.of_accounts (congrArg (·.mAccountDb) hregistry)

theorem StepEffect.files {e : Event} (effect : StepEffect w e w' out) :
    w'.registry.Files k ((postings k ⟨w, e, w', out⟩).foldl Account.post r) := by
  cases effect with
  | miner parsed effect => exact effect.files h hkeyed hk
  | walletDropped dropped =>
    simpa [postings, World.paysFor, Event.receives, Event.orphan, dropped] using h
  | wallet parsed effect => exact effect.files h hkeyed hk parsed
  | blockTimer take forward =>
    exact h.of_accounts (by rw [StepEffect.registry_of_blockTimer take forward])
  | _ => exact h

end Step

/-! ### Whole runs -/

/-- From the moment an account has a record under its own key, the record is what the journal
since then makes of it. -/
theorem account_replay {past front : History World Event Output} {w₀ : World}
    (hpast : LoadedRun past w₀) (hfront : Run World.step (· = w₀) front w)
    {k : Bytes} (hk : k ≠ []) {r₀ : Account} (h₀ : w₀.registry.Files k r₀) :
    w.registry.Files k ((journal k front).foldl Account.post r₀) := by
  induction hfront with
  | start hw =>
    subst hw
    exact h₀
  | next hrun hstep ih =>
    have hall := hpast.append hrun
    have heffect := stepEffect_of_run (serverRun_of_loaded hall) hstep
    rw [journal, List.foldl_append]
    exact heffect.files ih (wellKeyed_of_loaded hall) hk

end Journal

section Refunded

attribute [local instance] Platform.plain

def submittedRun : Option (History World Event Output × World) :=
  trace World.step .fresh secondRound.dropLast

theorem submittedRun_isSome : submittedRun.isSome := by decide +kernel

theorem submittedRun_run : LoadedRun (submittedRun.get submittedRun_isSome).1
    (submittedRun.get submittedRun_isSome).2 :=
  Run.of_trace World.fresh_loaded (Option.some_get _).symm

theorem submittedRun_account :
    (submittedRun.get submittedRun_isSome).2.registry.account? [65] = some (.new [65]) := by
  decide +kernel

attribute [local irreducible] submittedRun

def orphanedRun : Option (History World Event Output × World) :=
  trace World.step (submittedRun.get submittedRun_isSome).2
    [.walletData (Packet.getPacket DaemonPacket.good).wire,
      .walletData (Packet.withData DaemonPacket.orphanBlock (List.replicate 128 0)).wire]

theorem orphanedRun_isSome : orphanedRun.isSome := by decide +kernel

theorem orphanedRun_run : Run World.step (· = (submittedRun.get submittedRun_isSome).2)
    (orphanedRun.get orphanedRun_isSome).1 (orphanedRun.get orphanedRun_isSome).2 :=
  Run.of_trace (by rfl) (Option.some_get orphanedRun_isSome).symm

theorem orphanedRun_journal : journal [65] (orphanedRun.get orphanedRun_isSome).1 =
    [.payout ⟨2, 0, 0, 98⟩, .refund 2 0] := by
  decide +kernel

attribute [local irreducible] orphanedRun

/-- The finder keeps the remainder. -/
theorem account_replay_orphaned :
    (orphanedRun.get orphanedRun_isSome).2.registry.Files [65]
      ([Posting.payout ⟨2, 0, 0, 98⟩, .refund 2 0].foldl Account.post (.new [65])) := by
  rw [← orphanedRun_journal]
  exact account_replay submittedRun_run orphanedRun_run (by decide) ⟨submittedRun_account, rfl⟩

end Refunded

end NexusPool
