import NexusPool.Ledger.Footprint
import NexusPool.Server.CoinbaseExchange

/-!
# Announced payouts and the accounts behind them

A rebuilt coinbase pays each account its balance, and the last block finder the rest. The
coinbase is announced again at every start of a round, also after the balances it pays were
deducted; as long as nothing lowers a balance, what is announced is backed.
-/

namespace NexusPool

open Concurrent Reactive World
open Std (ExtTreeMap)

namespace DataRegistry

def balance (s : DataRegistry) (k : Bytes) : UInt64 :=
  ((s.account? k).map (·.nAccountBalance)).getD 0

variable {s : DataRegistry}

theorem balance_of_some {k : Bytes} {r : Account} (h : s.account? k = some r) :
    s.balance k = r.nAccountBalance := by
  simp [balance, h]

theorem balance_getRecord (db : Database Bytes Account) (k a : Bytes) :
    (((db.getRecord k).2.mapRecords[a]?).map (·.nAccountBalance)).getD 0 =
      ((db.mapRecords[a]?).map (·.nAccountBalance)).getD 0 := by
  rw [Database.find_getRecord]
  split_ifs with ha
  · subst ha
    cases h : db.mapRecords[k]? with
    | some r => rw [Database.getRecord_of_some h]
    | none => simp [Database.getRecord_of_none h, Account.new]
  · rfl

theorem balance_opened (nxsAddress k : Bytes) : (s.opened nxsAddress).balance k = s.balance k := by
  unfold DataRegistry.opened
  split_ifs with hkey
  · rfl
  · have hnone : s.mAccountDb.mapRecords[nxsAddress]? = none := by
      rw [Database.hasKey_eq_isSome] at hkey
      simpa using hkey
    simp only [balance, account?, Database.find_updateRecord, Account.record_cKey]
    split_ifs with hk
    · have hk : nxsAddress = k := hk
      subst hk
      simp [hnone, Account.new]
    · rfl

theorem balance_addShares {nxsAddress : Bytes} {r : Account}
    (h : s.mAccountDb.mapRecords[nxsAddress]? = some r) (hkey : r.cKey = nxsAddress)
    (weight : UInt64)
    (k : Bytes) :
    (((s.mAccountDb.modifyRecord nxsAddress (·.addShares weight)).mapRecords[k]?).map
      (·.nAccountBalance)).getD 0 = s.balance k := by
  have hshares : Record.cKey (r.addShares weight) = nxsAddress := hkey
  rw [Database.find_modifyRecord_of_some h, hshares]
  split_ifs with hk
  · subst hk
    exact (balance_of_some h).symm
  · rfl

end DataRegistry

/-! ### The rebuilt coinbase -/

namespace Coinbase

theorem addTransaction_of_ne (c : Coinbase) {nAddress k : Bytes} (nValue : UInt64)
    (h : k ≠ nAddress) :
    (c.addTransaction nAddress nValue).2.mapOutputs[k]? = c.mapOutputs[k]? := by
  unfold addTransaction
  split_ifs
  · rfl
  · exact OrderedMap.getElem?_insert_of_ne _ h.symm _

/-- The first transaction to an address is refused or pays its whole value. -/
theorem addTransaction_of_none (c : Coinbase) {nAddress : Bytes} (nValue : UInt64)
    (h : c.mapOutputs[nAddress]? = none) :
    (c.addTransaction nAddress nValue).2.mapOutputs[nAddress]? = none ∨
      (c.addTransaction nAddress nValue).2.mapOutputs[nAddress]? = some nValue := by
  unfold addTransaction
  split_ifs
  · exact .inl h
  · right
    simp [addOutput, ExtTreeMap.getD_eq_getD_getElem?, h]

/-- Every output is the balance of an account among `keys`. -/
def PaysBalances (c : Coinbase) (s : DataRegistry) (keys : List Bytes) : Prop :=
  ∀ k, c.mapOutputs[k]? = none ∨ k ∈ keys ∧ c.mapOutputs[k]? = some (s.balance k)

end Coinbase

namespace DaemonConnection

variable {s : DataRegistry}

theorem exec_accountGet {k : Bytes} {r : Account} (h : s.account? k = some r) :
    DataRegistry.exec (DataRegistry.call (.accountGet k)) s = (r, s) := by
  have hdb : s.mAccountDb.mapRecords[k]? = some r := h
  rw [DataRegistry.exec_call]
  simp [DataRegistry.Call.handle, Database.getRecord_of_some hdb]

theorem exec_addPayout (coinbase : Coinbase) {k : Bytes} {r : Account} (h : s.account? k = some r) :
    DataRegistry.exec (addPayout coinbase k) s =
      (if r.nAccountBalance > 0 then (coinbase.addTransaction k r.nAccountBalance).2 else coinbase,
        s) := by
  rw [addPayout, DataRegistry.exec_bind, exec_accountGet h]
  split_ifs <;> rfl

theorem paysBalances_addPayout {coinbase : Coinbase} {keys : List Bytes} {k : Bytes}
    (h : coinbase.PaysBalances s keys) (hk : k ∉ keys) (hkey : k ∈ s.mAccountDb.getKeys) :
    ∃ coinbase', DataRegistry.exec (addPayout coinbase k) s = (coinbase', s) ∧
      coinbase'.PaysBalances s (k :: keys) := by
  obtain ⟨r, hr⟩ := Database.mem_getKeys.mp hkey
  have hgrow : ∀ k', coinbase.mapOutputs[k']? = none ∨
      k' ∈ k :: keys ∧ coinbase.mapOutputs[k']? = some (s.balance k') := by
    intro k'
    rcases h k' with hnone | ⟨hmem, hsome⟩
    · exact .inl hnone
    · exact .inr ⟨List.mem_cons_of_mem _ hmem, hsome⟩
  refine ⟨_, exec_addPayout coinbase hr, ?_⟩
  split_ifs
  · intro k'
    by_cases hk' : k' = k
    · subst hk'
      have hnone : coinbase.mapOutputs[k']? = none := by
        rcases h k' with hnone | ⟨hmem, -⟩
        · exact hnone
        · exact absurd hmem hk
      rcases coinbase.addTransaction_of_none r.nAccountBalance hnone with hrefused | hpaid
      · exact .inl hrefused
      · exact .inr ⟨List.mem_cons_self, by rw [hpaid, DataRegistry.balance_of_some hr]⟩
    · rw [Coinbase.addTransaction_of_ne _ _ hk']
      exact hgrow k'
  · exact hgrow

/-- The loop over the accounts, each of which comes once. -/
theorem paysBalances_loop (keys : List Bytes) {coinbase : Coinbase} {done : List Bytes}
    (h : coinbase.PaysBalances s done) (hnodup : keys.Nodup) (hnew : ∀ k ∈ keys, k ∉ done)
    (hkeys : ∀ k ∈ keys, k ∈ s.mAccountDb.getKeys) :
    ∃ coinbase' done', DataRegistry.exec (keys.foldlM addPayout coinbase) s = (coinbase', s) ∧
      coinbase'.PaysBalances s done' := by
  induction keys generalizing coinbase done with
  | nil => exact ⟨coinbase, done, rfl, h⟩
  | cons k keys ih =>
    obtain ⟨hk, hnodup⟩ := List.nodup_cons.mp hnodup
    obtain ⟨coinbase', hexec, hpays⟩ :=
      paysBalances_addPayout h (hnew k List.mem_cons_self) (hkeys k List.mem_cons_self)
    have hnew' : ∀ k' ∈ keys, k' ∉ k :: done := by
      intro k' hk' hmem
      rcases List.mem_cons.mp hmem with rfl | hmem
      · exact hk hk'
      · exact hnew k' (List.mem_cons_of_mem _ hk') hmem
    rw [List.foldlM_cons, DataRegistry.exec_bind, hexec]
    exact ih hpays hnodup hnew' fun k' hk' => hkeys k' (List.mem_cons_of_mem _ hk')

variable [Platform]

omit [Platform] in
theorem exec_balances (keys : List Bytes) (hkeys : ∀ k ∈ keys, k ∈ s.mAccountDb.getKeys) :
    DataRegistry.exec (keys.mapM fun key => do
      let cAccount ← DataRegistry.call (.accountGet key)
      return (key, cAccount.nAccountBalance)) s = (keys.map fun k => (k, s.balance k), s) := by
  induction keys with
  | nil => rfl
  | cons k keys ih =>
    obtain ⟨r, hr⟩ := Database.mem_getKeys.mp (hkeys k List.mem_cons_self)
    have hentry : DataRegistry.exec (do
        let cAccount ← DataRegistry.call (.accountGet k)
        return (k, cAccount.nAccountBalance)) s = ((k, s.balance k), s) := by
      rw [DataRegistry.exec_bind, exec_accountGet hr, DataRegistry.balance_of_some hr]
      rfl
    rw [List.mapM_cons, DataRegistry.exec_bind, hentry, DataRegistry.exec_bind,
      ih fun k' hk' => hkeys k' (List.mem_cons_of_mem _ hk')]
    rfl

/-- Every account comes once, those with the highest balance first. -/
theorem exec_getSortedAccounts : ∃ keys : List Bytes, keys.Perm s.mAccountDb.getKeys ∧
    (keys.map s.balance).Pairwise (· ≥ ·) ∧ DataRegistry.exec getSortedAccounts s = (keys, s) := by
  let balances := s.mAccountDb.getKeys.map fun k => (k, s.balance k)
  have hperm : (Platform.sortAccounts balances).Perm balances := Platform.sortAccounts_perm balances
  refine ⟨(Platform.sortAccounts balances).map (·.1), ?_, ?_, ?_⟩
  · simpa [balances, Function.comp_def] using hperm.map Prod.fst
  · have hbalance : ((Platform.sortAccounts balances).map (·.1)).map s.balance =
        (Platform.sortAccounts balances).map (·.2) := by
      rw [List.map_map]
      apply List.map_congr_left
      intro entry hentry
      obtain ⟨k, -, rfl⟩ := List.mem_map.mp (hperm.mem_iff.mp hentry)
      rfl
    rw [hbalance, List.pairwise_map]
    exact Platform.sortAccounts_sorted balances
  · have hbalances := exec_balances s.mAccountDb.getKeys fun _ hk => hk
    rw [getSortedAccounts, DataRegistry.exec_bind, DataRegistry.exec_call]
    simp only [DataRegistry.Call.handle]
    rw [DataRegistry.exec_bind, hbalances]
    rfl

/-- After a rebuild, every account but the finder's is paid its balance, or nothing. -/
theorem exec_rebuildCoinbase (reward : UInt64) (lastBlockfinder : Bytes) (coinbase : Coinbase) :
    (DataRegistry.exec (rebuildCoinbase reward lastBlockfinder coinbase) s).2 = s ∧
      ∀ k, k ≠ lastBlockfinder →
        (DataRegistry.exec (rebuildCoinbase reward lastBlockfinder coinbase)
          s).1.mapOutputs.getD k 0 ≤
          s.balance k := by
  obtain ⟨keys, hperm, -, hsorted⟩ := exec_getSortedAccounts (s := s)
  let start : Coinbase :=
    { coinbase with nPoolFee := reward * s.mConfig.poolFee.toUInt64 }.reset
      (reward - reward * s.mConfig.poolFee.toUInt64)
  have hstart : start.PaysBalances s [] := fun k => .inl ExtTreeMap.getElem?_empty
  obtain ⟨coinbase', done, hloop, hpays⟩ := paysBalances_loop keys hstart
    (hperm.nodup_iff.mpr s.mAccountDb.nodup_getKeys) (by simp) fun k hk => hperm.mem_iff.mp hk
  have hexec : DataRegistry.exec (rebuildCoinbase reward lastBlockfinder coinbase) s =
      (if coinbase'.isComplete then coinbase'
        else (coinbase'.addTransaction lastBlockfinder coinbase'.getRemainder).2, s) := by
    rw [rebuildCoinbase, DataRegistry.exec_bind, DataRegistry.exec_call]
    simp only [DataRegistry.Call.handle]
    rw [DataRegistry.exec_bind, hsorted, DataRegistry.exec_bind, hloop]
    split_ifs <;> rfl
  have hbound : ∀ k, coinbase'.mapOutputs.getD k 0 ≤ s.balance k := by
    intro k
    rw [ExtTreeMap.getD_eq_getD_getElem?]
    rcases hpays k with hnone | ⟨-, hsome⟩
    · simp [hnone]
    · simp [hsome]
  rw [hexec]
  refine ⟨rfl, fun k hk => ?_⟩
  split_ifs
  · exact hbound k
  · rw [ExtTreeMap.getD_eq_getD_getElem?, Coinbase.addTransaction_of_ne _ _ hk,
      ← ExtTreeMap.getD_eq_getD_getElem?]
    exact hbound k

end DaemonConnection

/-! ### Steps -/

/-- A reward for which the coinbase is rebuilt. -/
def rebuilds (o : Occurrence World Event Output) : Bool :=
  o.event.receives DaemonPacket.blockReward &&
    (decide (o.before.registry.mCurrentRound > 1) && o.before.daemon.mCoinbasePending)

def Event.orphan (e : Event) : Option Uint1024 := do
  let packet ← e.walletPacket
  let data ← packet.mData
  if packet.mHeader = DaemonPacket.orphanBlock then BaseUint.setBytes 32 data else none

/-- An orphan whose record has a coinbase value. -/
def refunds (o : Occurrence World Event Output) : Bool :=
  o.event.orphan.any fun hashOrphan =>
    (o.before.registry.mBlockDb.getRecord hashOrphan).1.nCoinbaseValue ≠ 0

/-- A share of a connection whose account is not stored under its own key. -/
def misfiles (o : Occurrence World Event Output) : Bool :=
  match o.event with
  | .minerData i receiveBuffer =>
    (Packet.ofBuffer .miner receiveBuffer).any (·.mHeader = Packet.submitShare) &&
      !o.before.pools[i]?.any fun pool =>
        (o.before.registry.account? pool.mNxsaddress).any (·.cKey = pool.mNxsaddress)
  | _ => false

/-- The steps that can take from a balance other than the finder's: payouts, refunds, a new
finder, and shares that overwrite another account. -/
def lowers (o : Occurrence World Event Output) : Bool :=
  o.event.receives DaemonPacket.good || refunds o ||
    o.after.daemon.mLastBlockfinder ≠ o.before.daemon.mLastBlockfinder || misfiles o

/-- The coinbase pays every account but the finder's no more than it has. -/
def World.Backed (w : World) : Prop :=
  ∀ k, k ≠ w.daemon.mLastBlockfinder →
    w.registry.mCoinbase.mapOutputs.getD k 0 ≤ w.registry.balance k

namespace World

theorem exists_settle (w : World) : ∃ db, w.settle =
    { w with registry :=
      { w.registry with
        mAccountDb := db
        mBlockDb := w.registry.mBlockDb.updateRecord
          (PayoutManager.paidBlock w.registry w.daemon.mHashSubmitBlock
            (PayoutManager.roundCredits w.registry w.daemon.mRoundReward w.daemon.mLastBlockfinder))
        mCurrentRound := w.registry.mCurrentRound + 1 } } := by
  obtain ⟨db, hpaid⟩ := PayoutManager.exists_exec_updateBalances w.daemon.mRoundReward
    w.daemon.mHashSubmitBlock w.daemon.mLastBlockfinder w.registry
  have hclear := PayoutManager.onlyAccounts_clearShares
    (DataRegistry.exec (PayoutManager.updateBalances w.daemon.mRoundReward w.daemon.mHashSubmitBlock
      w.daemon.mLastBlockfinder) w.registry).2
  unfold World.settle
  rw [DataRegistry.exec_bind, DataRegistry.exec, hclear, hpaid]
  exact ⟨_, rfl⟩

theorem exists_refund (w : World) (hashOrphan : Uint1024) : ∃ accountDb blockDb,
    w.refund hashOrphan =
      { w with registry := { w.registry with mAccountDb := accountDb, mBlockDb := blockDb } } := by
  obtain ⟨accountDb, blockDb, hrefund⟩ := PayoutManager.exists_exec_refundPayouts hashOrphan
    (DataRegistry.exec (DataRegistry.call (.blockGet hashOrphan)) w.registry).2
  unfold World.refund
  rw [DataRegistry.exec_bind, hrefund]
  exact ⟨accountDb, blockDb, rfl⟩

/-- An orphan whose record has no coinbase value costs nobody anything. -/
theorem refund_of_zero {w : World} {hashOrphan : Uint1024}
    (h : (w.registry.mBlockDb.getRecord hashOrphan).1.nCoinbaseValue = 0) :
    w.refund hashOrphan = { w with registry :=
      { w.registry with mBlockDb := (w.registry.mBlockDb.getRecord hashOrphan).2 } } := by
  have hagain := Database.getRecord_getRecord w.registry.mBlockDb hashOrphan
  unfold World.refund
  rw [DataRegistry.exec_bind, DataRegistry.exec_call]
  simp only [DataRegistry.Call.handle]
  rw [PayoutManager.exec_refundPayouts_of_zero]
  · simp only [hagain]
  · simp only [hagain, h]

/-- Neither the coinbase nor what accounts have is changed. -/
structure SameLedger (w w' : World) : Prop where
  coinbase : w'.registry.mCoinbase = w.registry.mCoinbase
  balance : ∀ k, w'.registry.balance k = w.registry.balance k

theorem SameLedger.of_accounts {w w' : World}
    (hcoinbase : w'.registry.mCoinbase = w.registry.mCoinbase)
    (haccounts : w'.registry.mAccountDb = w.registry.mAccountDb) : SameLedger w w' where
  coinbase := hcoinbase
  balance k := by
    unfold DataRegistry.balance DataRegistry.account?
    rw [haccounts]

theorem SameLedger.of_balances {w w' : World} {db : Database Bytes Account}
    (hbalance : ∀ k, ((db.mapRecords[k]?).map (·.nAccountBalance)).getD 0 = w.registry.balance k)
    (hcoinbase : w'.registry.mCoinbase = w.registry.mCoinbase)
    (haccounts : w'.registry.mAccountDb = db) :
    SameLedger w w' where
  coinbase := hcoinbase
  balance k := by
    subst haccounts
    exact hbalance k

end World

section Steps

variable [Platform] {w w' : World} {packet : Packet} {out : List Output}

theorem WalletEffect.backed (h : WalletEffect w packet w' out)
    (hheader : packet.mHeader = DaemonPacket.blockReward) (hround : w.registry.mCurrentRound > 1)
    (hpending : w.daemon.mCoinbasePending) : w'.Backed := by
  cases h with
  | ignored header => simp [hheader] at header
  | pending header => exact absurd (hheader ▸ header) (by decide)
  | goodBlock header => exact absurd (hheader.symm.trans header) (by decide)
  | orphan header => exact absurd (hheader.symm.trans header) (by decide)
  | @rebuilt data =>
    obtain ⟨hsame, hbound⟩ := DaemonConnection.exec_rebuildCoinbase (s := w.registry)
      (bytes2uint64 data 0) w.daemon.mLastBlockfinder w.registry.mCoinbase
    intro k hk
    have hbalance : (w.rebuilt (bytes2uint64 data 0)).balance k = w.registry.balance k := by
      change (DataRegistry.exec (DaemonConnection.rebuildCoinbase (bytes2uint64 data 0)
        w.daemon.mLastBlockfinder w.registry.mCoinbase) w.registry).2.balance k = _
      rw [hsame]
    change _ ≤ (w.rebuilt (bytes2uint64 data 0)).balance k
    rw [hbalance]
    exact hbound k hk
  | delivered header => exact absurd (hheader.symm.trans header) (by decide)
  | swallowed header => exact absurd (hheader.symm.trans header) (by decide)
  | round cause =>
    cases cause with
    | coinbaseSet header => exact absurd (hheader.symm.trans header) (by decide)
    | reward header payload settled => exact absurd ⟨hround, hpending⟩ settled
    | good header => exact absurd (hheader.symm.trans header) (by decide)

theorem WalletEffect.mCoinbase_eq (h : WalletEffect w packet w' out)
    (hkept : packet.mHeader = DaemonPacket.blockReward →
      ¬ (w.registry.mCurrentRound > 1 ∧ w.daemon.mCoinbasePending)) :
    w'.registry.mCoinbase = w.registry.mCoinbase := by
  cases h with
  | @orphan hashOrphan =>
    obtain ⟨accountDb, blockDb, hrefund⟩ := w.exists_refund hashOrphan
    simp only [modifyDaemon, hrefund]
  | rebuilt header payload round pending => exact absurd ⟨round, pending⟩ (hkept header)
  | round cause frame =>
    refine (congrArg DataRegistry.mCoinbase frame.registry).trans ?_
    cases cause with
    | coinbaseSet => rfl
    | reward => rfl
    | good =>
      obtain ⟨db, hsettle⟩ := w.exists_settle
      rw [hsettle]
      rfl
  | _ => rfl

theorem WalletEffect.sameLedger (h : WalletEffect w packet w' out)
    (hkept : packet.mHeader = DaemonPacket.blockReward →
      ¬ (w.registry.mCurrentRound > 1 ∧ w.daemon.mCoinbasePending))
    (hgood : packet.mHeader ≠ DaemonPacket.good)
    (horphan : packet.mHeader = DaemonPacket.orphanBlock → ∀ data hashOrphan,
      packet.mData = some data → BaseUint.setBytes 32 data = some hashOrphan →
        (w.registry.mBlockDb.getRecord hashOrphan).1.nCoinbaseValue = 0) : SameLedger w w' := by
  refine .of_accounts (h.mCoinbase_eq hkept) ?_
  cases h with
  | @orphan hashOrphan data header payload hash =>
    simp only [modifyDaemon, refund_of_zero (horphan header data hashOrphan payload hash)]
  | rebuilt header payload round pending => exact absurd ⟨round, pending⟩ (hkept header)
  | round cause frame =>
    refine (congrArg DataRegistry.mAccountDb frame.registry).trans ?_
    cases cause with
    | coinbaseSet => rfl
    | reward => rfl
    | good header => exact absurd header hgood
  | _ => rfl

/-- A packet of a miner, unless it is a share for an account not stored under its own key. -/
theorem MinerEffect.sameLedger {i : ℕ} (h : MinerEffect w i packet w' out)
    (hfiled : packet.mHeader = Packet.submitShare → ∀ pool, w.pools[i]? = some pool →
      ∃ r, w.registry.account? pool.mNxsaddress = some r ∧ r.cKey = pool.mNxsaddress) :
    SameLedger w w' := by
  have hshare : ∀ {data : Bytes} (share : VerifiedShare w i data),
      packet.mHeader = Packet.submitShare → SameLedger w share.credited := by
    intro data share header
    obtain ⟨r, hr, hkey⟩ := hfiled header share.pool share.self
    exact .of_balances (DataRegistry.balance_addShares hr hkey _) rfl rfl
  cases h with
  | reply => exact .of_accounts rfl rfl
  | @refused _ _ nxsAddress r self loggedOut registry =>
    rcases registry with rfl | ⟨-, b, rfl⟩
    · exact .of_accounts rfl rfl
    · refine ⟨?_, fun k => DataRegistry.balance_opened nxsAddress k⟩
      rw [DataRegistry.opened_eq]
  | @loggedIn _ _ nxsAddress =>
    refine ⟨?_, fun k => DataRegistry.balance_opened nxsAddress k⟩
    change (w.registry.opened nxsAddress).mCoinbase = _
    rw [DataRegistry.opened_eq]
  | getBlock => exact .of_accounts rfl rfl
  | @getBalance _ pool =>
    exact .of_balances (DataRegistry.balance_getRecord w.registry.mAccountDb
      pool.mNxsaddress) rfl rfl
  | credited share header => exact hshare share header
  | accepted share header =>
    obtain ⟨hcoinbase, hbalance⟩ := hshare share header
    exact ⟨hcoinbase, hbalance⟩

variable {e : Event}

/-- A step that does not rebuild the coinbase keeps it, and takes from no balance unless it is one
of those that can. -/
theorem StepEffect.ledger (h : StepEffect w e w' out) (hkept : ¬ rebuilds ⟨w, e, w', out⟩) :
    w'.registry.mCoinbase = w.registry.mCoinbase ∧
      (¬ lowers ⟨w, e, w', out⟩ → SameLedger w w') := by
  have hidle : ∀ {w' : World}, w'.registry.mCoinbase = w.registry.mCoinbase →
      w'.registry.mAccountDb = w.registry.mAccountDb → ∀ {P : Prop},
        w'.registry.mCoinbase = w.registry.mCoinbase ∧ (P → SameLedger w w') :=
    fun hcoinbase haccounts => ⟨hcoinbase, fun _ => .of_accounts hcoinbase haccounts⟩
  cases h with
  | @miner i receiveBuffer packet _ _ parsed effect =>
    refine ⟨?_, fun hlowers => effect.sameLedger fun header pool self => ?_⟩
    · cases effect with
      | refused self loggedOut registry =>
        rcases registry with rfl | ⟨-, b, rfl⟩
        · rfl
        · rw [DataRegistry.opened_eq]
      | loggedIn =>
        rw [DataRegistry.opened_eq]
      | _ => rfl
    · have hfiled : ¬ misfiles ⟨w, .minerData i receiveBuffer, w', out⟩ := by
        intro hmisfiles
        exact hlowers (by simp [lowers, hmisfiles])
      simp only [misfiles, parsed, Option.any_some, header, decide_true, Bool.true_and, self,
        Bool.not_eq_true', Bool.not_eq_false] at hfiled
      obtain ⟨r, hr, hkey⟩ := (Option.any_eq_true _ _).mp hfiled
      exact ⟨r, hr, of_decide_eq_true hkey⟩
  | @wallet receiveBuffer packet _ _ parsed effect =>
    have hreward : packet.mHeader = DaemonPacket.blockReward →
        ¬ (w.registry.mCurrentRound > 1 ∧ w.daemon.mCoinbasePending) := by
      rintro header ⟨hround, hpending⟩
      exact hkept (by simp [rebuilds, Event.receives, parsed, header, hround, hpending])
    refine ⟨effect.mCoinbase_eq hreward, fun hlowers => effect.sameLedger hreward ?_ ?_⟩
    · intro header
      exact hlowers (by simp [lowers, Event.receives, parsed, header])
    · intro header data hashOrphan payload hash
      by_contra hvalue
      have horphan : (Event.walletData receiveBuffer).orphan = some hashOrphan := by
        simp [Event.orphan, parsed, payload, header, hash]
      exact hlowers (by simp [lowers, refunds, horphan, hvalue])
  | blockTimer take forward =>
    refine hidle ?_ ?_
    · rw [forward.registry]
      cases take <;> rfl
    · rw [forward.registry]
      cases take <;> rfl
  | _ => exact hidle (by rfl) (by rfl)

theorem StepEffect.backed_of_rebuilds (h : StepEffect w e w' out)
    (hrebuilds : rebuilds ⟨w, e, w', out⟩) : w'.Backed := by
  simp only [rebuilds, Bool.and_eq_true, decide_eq_true_eq] at hrebuilds
  obtain ⟨hreward, hround, hpending⟩ := hrebuilds
  cases h with
  | wallet parsed effect =>
    exact effect.backed (Event.mHeader_of_receives parsed hreward) hround hpending
  | walletDropped dropped => simp [Event.receives, dropped] at hreward
  | _ => simp [Event.receives, Event.walletPacket] at hreward

end Steps

/-! ### Runs -/

/-- Some step of this kind since the coinbase was rebuilt. -/
def sinceRebuilt (p : Occurrence World Event Output → Bool) : History World Event Output → Bool
  | [] => false
  | o :: past => !rebuilds o && (p o || sinceRebuilt p past)

/-- A step that lowers balances while the coinbase has outputs. -/
def disturbs (o : Occurrence World Event Output) : Bool :=
  !o.before.registry.mCoinbase.mapOutputs.isEmpty && lowers o

/-- A payout that deducts the outputs of the coinbase. -/
def deducts (o : Occurrence World Event Output) : Bool :=
  !o.before.registry.mCoinbase.mapOutputs.isEmpty && o.event.receives DaemonPacket.good

theorem sinceRebuilt_mono {p q : Occurrence World Event Output → Bool} (hpq : ∀ o, p o → q o)
    (history : History World Event Output) (h : sinceRebuilt p history) :
    sinceRebuilt q history := by
  induction history with
  | nil => exact h
  | cons o past ih =>
    simp only [sinceRebuilt, Bool.and_eq_true, Bool.or_eq_true] at h ⊢
    exact ⟨h.1, h.2.imp (hpq o) ih⟩

section Runs

variable [Platform] {history : History World Event Output} {w : World}

/-- Undisturbed since it was rebuilt, the coinbase is backed. -/
theorem backed_of_run (h : ServerRun history w) (hquiet : ¬ sinceRebuilt disturbs history) :
    w.Backed := by
  induction h with
  | start h =>
    obtain ⟨config, blockDb, accountDb, mRoundReward, rfl⟩ := h
    intro k hk
    simp [World.init, DataRegistry.init, Coinbase.empty]
  | @next past w w' e out hrun hstep ih =>
    have heffect := stepEffect_of_run hrun hstep
    by_cases hrebuilds : rebuilds ⟨w, e, w', out⟩
    · exact heffect.backed_of_rebuilds hrebuilds
    · obtain ⟨hcoinbase, hledger⟩ := heffect.ledger hrebuilds
      simp only [sinceRebuilt, hrebuilds, Bool.not_false, Bool.true_and, Bool.or_eq_true, not_or]
        at hquiet
      obtain ⟨hdisturbs, hpast⟩ := hquiet
      intro k hk
      by_cases hempty : w.registry.mCoinbase.mapOutputs.isEmpty
      · have hnone : w.registry.mCoinbase.mapOutputs = ∅ := ExtTreeMap.isEmpty_iff.mp hempty
        simp [hcoinbase, hnone]
      · have hlowers : ¬ lowers ⟨w, e, w', out⟩ := by
          intro hlowers
          exact hdisturbs (by simp [disturbs, hempty, hlowers])
        have hsame := hledger hlowers
        have hfinder : w'.daemon.mLastBlockfinder = w.daemon.mLastBlockfinder := by
          by_contra hne
          exact hlowers (by simp [lowers, hne])
        rw [hsame.coinbase, hsame.balance k]
        exact ih hpast k (hfinder ▸ hk)

/-- What is sent with `SET_COINBASE` is backed, and no payout has deducted it. -/
def AnnouncesBacked (history : History World Event Output) : Prop :=
  Throughout (fun past o => ∀ payload,
    .toWallet (.withData DaemonPacket.setCoinbaseHeader payload) ∈ o.outputs →
      payload = o.after.registry.mCoinbase.serialize ∧
        (∀ k r, o.after.registry.account? k = some r → k ≠ o.after.daemon.mLastBlockfinder →
          o.after.registry.mCoinbase.mapOutputs.getD k 0 ≤ r.nAccountBalance) ∧
        ¬ sinceRebuilt deducts (o :: past)) history

/-- Whenever `SET_COINBASE` is sent, nothing has disturbed the balances since the coinbase was
rebuilt. -/
def AnnouncesUndisturbed (history : History World Event Output) : Prop :=
  Throughout (fun past o => o.outputs.any (Output.transmits DaemonPacket.setCoinbaseHeader) →
    ¬ sinceRebuilt disturbs (o :: past)) history

omit [Platform] in
instance : Decidable (AnnouncesUndisturbed history) :=
  inferInstanceAs (Decidable (Throughout _ history))

/-- A packet that sends `SET_COINBASE` sends the coinbase of the registry. -/
theorem WalletEffect.payload_eq {w' : World} {packet : Packet} {out : List Output} {payload : Bytes}
    (h : WalletEffect w packet w' out)
    (hmem : .toWallet (.withData DaemonPacket.setCoinbaseHeader payload) ∈ out) :
    payload = w'.registry.mCoinbase.serialize := by
  cases h with
  | rebuilt =>
    have hpacket := Output.toWallet.inj (List.mem_singleton.mp hmem)
    exact Option.some.inj (congrArg Packet.mData hpacket)
  | round cause frame =>
    rcases List.mem_append.mp hmem with hannounced | hreset
    · obtain ⟨i, height, heq⟩ := frame.outputs _ hannounced
      cases heq
    · unfold World.resetOutputs at hreset
      split_ifs at hreset
      · have hpacket := Output.toWallet.inj (List.mem_singleton.mp hreset)
        exact Option.some.inj (congrArg Packet.mData hpacket)
      · simp at hreset
  | _ => simp at hmem

theorem StepEffect.payload_eq {w' : World} {e : Event} {out : List Output} {payload : Bytes}
    (h : StepEffect w e w' out)
    (hmem : .toWallet (.withData DaemonPacket.setCoinbaseHeader payload) ∈ out) :
    payload = w'.registry.mCoinbase.serialize := by
  have hquiet : ∀ header, e.walletPacket = none → e.receives header = false :=
    fun header hnone => not_receives_of_walletPacket hnone header
  by_cases hpacket : e.walletPacket = none
  · have hcount := h.countP_outputs_le (by simp [hquiet _ hpacket])
    rw [if_neg (by simp [Event.callsForCoinbase, hquiet _ hpacket])] at hcount
    have hno := List.countP_eq_zero.mp (Nat.le_zero.mp hcount) _ hmem
    exact absurd rfl hno
  · cases h with
    | wallet parsed effect => exact effect.payload_eq hmem
    | walletDropped dropped => exact absurd dropped hpacket
    | _ => exact absurd rfl hpacket

/-- In runs that announce the coinbase only undisturbed, every announcement is backed. -/
theorem announcesBacked_of_undisturbed (h : ServerRun history w)
    (hquiet : AnnouncesUndisturbed history) : AnnouncesBacked history := by
  induction h with
  | start => trivial
  | @next past w w' e out hrun hstep ih =>
    refine ⟨fun payload hmem => ?_, ih hquiet.2⟩
    have hundisturbed := hquiet.1 (List.any_eq_true.mpr ⟨_, hmem, rfl⟩)
    have hbacked := backed_of_run (hrun.next hstep) hundisturbed
    refine ⟨(stepEffect_of_run hrun hstep).payload_eq hmem, fun k r hr hk => ?_, fun hdeducts => ?_⟩
    · rw [← DataRegistry.balance_of_some hr]
      exact hbacked k hk
    · refine hundisturbed (sinceRebuilt_mono (fun o hdeduct => ?_) _ hdeducts)
      simp only [deducts, disturbs, lowers, Bool.and_eq_true] at hdeduct ⊢
      exact ⟨hdeduct.1, by simp [hdeduct.2]⟩

end Runs

/-! ### A settled coinbase -/

section Resettled

attribute [local instance] Platform.plain

def World.solo : World :=
  World.init (DataRegistry.init ⟨0, 0, false⟩ .empty
    (Database.updateRecord .empty { Account.new [65] with nAccountBalance := 10 })) 0

theorem World.solo_initial : World.Initial World.solo := ⟨_, _, _, _, rfl⟩

def rewardAnnounced : List Event :=
  [.walletConnected, .walletData (Packet.getPacket DaemonPacket.good).wire,
    .walletData (Packet.withData DaemonPacket.blockHeight (uint2bytes 1)).wire,
    .walletData (Packet.withData DaemonPacket.blockReward (uint2bytes64 100)).wire,
    .walletData (Packet.getPacket DaemonPacket.coinbaseSet).wire]

def rewardAnnouncedRun : Option (History World Event Output × World) :=
  trace World.step .solo rewardAnnounced

theorem rewardAnnouncedRun_isSome : rewardAnnouncedRun.isSome := by decide +kernel

theorem rewardAnnouncedRun_run : ServerRun (rewardAnnouncedRun.get rewardAnnouncedRun_isSome).1
    (rewardAnnouncedRun.get rewardAnnouncedRun_isSome).2 :=
  Run.of_trace World.solo_initial (Option.some_get _).symm

theorem rewardAnnounced_undisturbed :
    AnnouncesUndisturbed (rewardAnnouncedRun.get rewardAnnouncedRun_isSome).1 := by
  decide +kernel

attribute [local irreducible] rewardAnnouncedRun

theorem rewardAnnounced_backed :
    AnnouncesBacked (rewardAnnouncedRun.get rewardAnnouncedRun_isSome).1 :=
  announcesBacked_of_undisturbed rewardAnnouncedRun_run rewardAnnounced_undisturbed

/-- The last step announces 10 for an account that has nothing. -/
def announcesDeducted : History World Event Output → Bool
  | [] => false
  | o :: _ =>
    .toWallet (DaemonPacket.setCoinbase o.after.registry.mCoinbase.serialize) ∈ o.outputs ∧
      (o.after.registry.account? [65]).any (·.nAccountBalance = 0) ∧
        o.after.registry.mCoinbase.mapOutputs.getD [65] 0 = 10 ∧
          o.after.daemon.mLastBlockfinder = []

/-- A `GOOD` deducts the announced output, and announces it again. -/
theorem deducted_announced : ¬ ∀ (platform : Platform) history w,
    @ServerRun platform history w → AnnouncesBacked history := by
  intro h
  obtain ⟨history, w, hrun, hp⟩ : ∃ history w, ServerRun history w ∧
    announcesDeducted history = true :=
    exists_run_of_trace World.solo_initial
      (rewardAnnounced ++ [.walletData (Packet.getPacket DaemonPacket.good).wire]) announcesDeducted
      (by decide +kernel)
  have hbacked := h .plain history w hrun
  cases history with
  | nil => cases hp
  | cons o past =>
    obtain ⟨hmem, haccount, houtput, hfinder⟩ := of_decide_eq_true hp
    obtain ⟨r, hr, hzero⟩ := (Option.any_eq_true _ _).mp haccount
    have hle := (hbacked.1 _ hmem).2.1 [65] r hr (by simp [hfinder])
    rw [houtput, of_decide_eq_true hzero] at hle
    exact absurd hle (by decide)

end Resettled

end NexusPool
