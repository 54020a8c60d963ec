import NexusPool.Ledger.Payout

/-!
# What the payout handlers leave alone

Whatever the account database looks like, a payout changes it, stores one block record and
leaves the rest of the registry as it was. A refund does the same, unless the record of the
block has no coinbase value.
-/

namespace NexusPool

open Concurrent DataRegistry
open Std (ExtTreeMap)

namespace DataRegistry

def OnlyAccounts (s s' : DataRegistry) : Prop := s' = { s with mAccountDb := s'.mAccountDb }

theorem OnlyAccounts.composes : Program.Composes OnlyAccounts where
  refl _ := rfl
  trans h h' := by
    rw [OnlyAccounts, h', h]

theorem OnlyAccounts.mBlockDb {s s' : DataRegistry} (h : OnlyAccounts s s') :
    s'.mBlockDb = s.mBlockDb := by
  rw [h]

theorem onlyAccounts_accountKeys :
    Program.Ensures Call.handle OnlyAccounts (call .accountKeys) := fun _ => rfl

theorem onlyAccounts_accountGet (cKey : Bytes) :
    Program.Ensures Call.handle OnlyAccounts (call (.accountGet cKey)) := fun _ => rfl

theorem onlyAccounts_accountUpdate (cRecord : Account) :
    Program.Ensures Call.handle OnlyAccounts (call (.accountUpdate cRecord)) := fun _ => rfl

theorem onlyAccounts_modifyAccount (cKey : Bytes) (change : Account → Account) :
    Program.Ensures Call.handle OnlyAccounts (modifyAccount cKey change) := fun _ => rfl

end DataRegistry

namespace PayoutManager

open Program

theorem onlyAccounts_totalWeight : Ensures Call.handle OnlyAccounts totalWeight := by
  apply Ensures.bind OnlyAccounts.composes onlyAccounts_accountKeys
  intro vKeys
  apply Ensures.foldlM OnlyAccounts.composes
  intro weight key
  apply Ensures.bind OnlyAccounts.composes (onlyAccounts_accountGet key)
  exact fun _ => .pure OnlyAccounts.composes _

theorem onlyAccounts_clearShares : Ensures Call.handle OnlyAccounts clearShares := by
  apply Ensures.bind OnlyAccounts.composes onlyAccounts_accountKeys
  intro vKeys
  exact .forM OnlyAccounts.composes (fun key => onlyAccounts_modifyAccount key _) vKeys

theorem onlyAccounts_payFinder (reward : UInt64) (lastBlockfinder : Bytes) :
    Ensures Call.handle OnlyAccounts (payFinder reward lastBlockfinder) := by
  unfold payFinder
  apply Ensures.ite
  · apply Ensures.bind OnlyAccounts.composes (onlyAccounts_modifyAccount _ _)
    exact fun _ => .pure OnlyAccounts.composes _
  · exact .pure OnlyAccounts.composes _

theorem onlyAccounts_payRemainder (lastBlockfinder : Bytes) (reward nTotalReward : UInt64) :
    Ensures Call.handle OnlyAccounts (payRemainder lastBlockfinder reward nTotalReward) := by
  unfold payRemainder
  apply Ensures.ite
  · exact onlyAccounts_modifyAccount _ _
  · exact .pure OnlyAccounts.composes _

/-- `operator[]` is used on the outputs only where there is one, so the coinbase is kept. -/
theorem onlyAccounts_payAccount (nTotalWeight reward : UInt64) (sums : Credits × UInt64)
    (key : Bytes) :
    Ensures Call.handle OnlyAccounts (payAccount nTotalWeight reward sums key) := by
  intro s
  cases hout : s.mCoinbase.mapOutputs[key]? with
  | some v =>
    by_cases hshares : (s.mAccountDb.getRecord key).1.nRoundShares = 0
    · simp [payAccount, Call.handle, Coinbase.findAddress, Coinbase.getMapOutputs, hout, hshares,
        Account.debit, ExtTreeMap.contains_eq_isSome_getElem?, OnlyAccounts]
    · simp [payAccount, Call.handle, Coinbase.findAddress, Coinbase.getMapOutputs, hout, hshares,
        Account.debit, ExtTreeMap.contains_eq_isSome_getElem?, OnlyAccounts]
  | none =>
    by_cases hshares : (s.mAccountDb.getRecord key).1.nRoundShares = 0
    · simp [payAccount, Call.handle, Coinbase.findAddress, hout, hshares,
        ExtTreeMap.contains_eq_isSome_getElem?, OnlyAccounts]
    · simp [payAccount, Call.handle, Coinbase.findAddress, hout, hshares,
        ExtTreeMap.contains_eq_isSome_getElem?, OnlyAccounts]

/-- The record that a payout stores. -/
def paidBlock (s : DataRegistry) (hashSubmitBlock : Uint1024) (cCredits : Credits) : Block where
  cKey := hashSubmitBlock
  nCoinbaseValue := s.mCoinbase.nMaxValue + s.mCoinbase.nPoolFee
  cCoinbase := s.mCoinbase
  cCredits := cCredits
  nRound := s.mCurrentRound

def roundCredits (s : DataRegistry) (reward : UInt64) (lastBlockfinder : Bytes) : Credits :=
  let finder := exec (payFinder (reward - reward * s.mConfig.poolFee.toUInt64) lastBlockfinder) s
  let weight := exec totalWeight finder.2
  (exec (weight.2.mAccountDb.getKeys.foldlM (payAccount weight.1 finder.1.2) (finder.1.1, 0))
    weight.2).1.1

/-- A payout changes the accounts and stores one block record. -/
theorem exists_exec_updateBalances (reward : UInt64) (hashSubmitBlock : Uint1024)
    (lastBlockfinder : Bytes) (s : DataRegistry) : ∃ db,
      (exec (updateBalances reward hashSubmitBlock lastBlockfinder) s).2 =
        { s with
          mAccountDb := db
          mBlockDb := s.mBlockDb.updateRecord
            (paidBlock s hashSubmitBlock (roundCredits s reward lastBlockfinder)) } := by
  simp only [roundCredits, updateBalances, exec, run_bind, run_perform, Call.handle]
  set finder := run Call.handle
    (payFinder (reward - reward * s.mConfig.poolFee.toUInt64) lastBlockfinder) s
  have hfinder : OnlyAccounts s finder.2 := onlyAccounts_payFinder _ _ s
  set weight := run Call.handle totalWeight finder.2
  have hweight : OnlyAccounts s weight.2 :=
    OnlyAccounts.composes.trans hfinder (onlyAccounts_totalWeight _)
  set paid := run Call.handle (weight.2.mAccountDb.getKeys.foldlM
    (payAccount weight.1 finder.1.2) (finder.1.1, 0)) weight.2
  have hpaid : OnlyAccounts s paid.2 :=
    OnlyAccounts.composes.trans hweight
      (Ensures.foldlM OnlyAccounts.composes (onlyAccounts_payAccount _ _) _ _ _)
  set final := run Call.handle (payRemainder lastBlockfinder finder.1.2 paid.1.2) paid.2
  have hfinal : OnlyAccounts s final.2 :=
    OnlyAccounts.composes.trans hpaid (onlyAccounts_payRemainder _ _ _ _)
  refine ⟨final.2.mAccountDb, ?_⟩
  have hcommit : ∀ (cBlock : Block) (s' : DataRegistry),
      (run Call.handle (commitBlock cBlock) s').2 =
      { s' with mBlockDb := s'.mBlockDb.updateRecord cBlock } := fun _ _ => rfl
  rw [hcommit, hfinal]
  rfl

/-- A refund of a block without a coinbase value reads its record and nothing else. -/
theorem exec_refundPayouts_of_zero {hashBlock : Uint1024} {s : DataRegistry}
    (h : (s.mBlockDb.getRecord hashBlock).1.nCoinbaseValue = 0) :
    (exec (refundPayouts hashBlock) s).2 =
      { s with mBlockDb := (s.mBlockDb.getRecord hashBlock).2 } := by
  rw [refundPayouts, exec_bind, exec_call]
  change (exec (if (s.mBlockDb.getRecord hashBlock).1.nCoinbaseValue = 0 then _ else _) _).2 = _
  rw [if_pos h]
  rfl

/-- Whatever record there is, a refund changes nothing but records. -/
theorem exists_exec_refundPayouts (hashBlock : Uint1024) (s : DataRegistry) : ∃ accountDb blockDb,
    (exec (refundPayouts hashBlock) s).2 =
      { s with mAccountDb := accountDb, mBlockDb := blockDb } := by
  by_cases hvalue : (s.mBlockDb.getRecord hashBlock).1.nCoinbaseValue = 0
  · exact ⟨_, _, exec_refundPayouts_of_zero hvalue⟩
  · rw [refundPayouts, exec_bind, exec_call]
    change ∃ accountDb blockDb, (exec (if (s.mBlockDb.getRecord hashBlock).1.nCoinbaseValue = 0
      then _ else _) _).2 = _
    rw [if_neg hvalue, exec_bind, exec_forM_modifyAccount (fun v r => r.debit v), exec_bind,
      exec_forM_modifyAccount (fun v r => r.credit v)]
    exact ⟨_, _, rfl⟩

end PayoutManager

open Program in
theorem PoolConnection.onlyAccounts_openAccount (nxsAddress : Bytes) :
    Ensures Call.handle OnlyAccounts (openAccount nxsAddress) := by
  apply Ensures.bind OnlyAccounts.composes
  · exact fun _ => rfl
  · intro found
    apply Ensures.ite
    · exact .pure OnlyAccounts.composes _
    · exact onlyAccounts_accountUpdate _

/-! ### A round without shares -/

namespace DataRegistry

def NoShares (s : DataRegistry) : Prop :=
  ∀ (k : Bytes) (r : Account), s.account? k = some r → r.nRoundShares = 0

instance (s : DataRegistry) : Decidable s.NoShares :=
  decidable_of_iff _ (Database.forall_toList_iff (P := fun _ (r : Account) => r.nRoundShares = 0))

theorem NoShares.getRecord {s : DataRegistry} (h : s.NoShares) (cKey : Bytes) :
    (s.mAccountDb.getRecord cKey).1.nRoundShares = 0 := by
  cases hr : s.mAccountDb.mapRecords[cKey]? with
  | some r =>
    rw [Database.getRecord_of_some hr]
    exact h cKey r hr
  | none =>
    rw [Database.getRecord_of_none hr]
    rfl

theorem NoShares.accountGet {s : DataRegistry} (h : s.NoShares) (cKey : Bytes) :
    (Call.handle (.accountGet cKey) s).2.NoShares := by
  intro k r hr
  have hfind : (s.mAccountDb.getRecord cKey).2.mapRecords[k]? = some r := hr
  rw [Database.find_getRecord] at hfind
  split_ifs at hfind with hk
  · cases hfind
    exact h.getRecord cKey
  · exact h k r hfind

theorem NoShares.accountUpdate {s : DataRegistry} (h : s.NoShares) {cRecord : Account}
    (hrecord : cRecord.nRoundShares = 0) : (Call.handle (.accountUpdate cRecord) s).2.NoShares := by
  intro k r hr
  have hfind : (s.mAccountDb.updateRecord cRecord).mapRecords[k]? = some r := hr
  rw [Database.find_updateRecord] at hfind
  split_ifs at hfind with hk
  · cases hfind
    exact hrecord
  · exact h k r hfind

end DataRegistry

namespace PayoutManager

open Program

theorem noShares_totalWeight {s : DataRegistry} (h : s.NoShares) :
    (exec totalWeight s).2.NoShares := by
  have hcomposes : Composes fun s s' : DataRegistry => s.NoShares → s'.NoShares :=
    ⟨fun _ h => h, fun h h' hs => h' (h hs)⟩
  have hensures : Ensures Call.handle (fun s s' => s.NoShares → s'.NoShares) totalWeight := by
    apply Ensures.bind hcomposes
    · exact fun _ h => h
    · intro vKeys
      apply Ensures.foldlM hcomposes
      intro weight key
      apply Ensures.bind hcomposes
      · exact fun _ h => h.accountGet key
      · exact fun _ => .pure hcomposes _
  exact hensures s h

/-- An account without shares is not credited; what the coinbase pays out leaves it without. -/
theorem payAccount_of_noShares {s : DataRegistry} (h : s.NoShares) (nTotalWeight reward : UInt64)
    (sums : Credits × UInt64) (key : Bytes) :
    (exec (payAccount nTotalWeight reward sums key) s).1 = sums ∧
      (exec (payAccount nTotalWeight reward sums key) s).2.NoShares := by
  have hread := h.accountGet key
  have hshares := h.getRecord key
  by_cases hfound : s.mCoinbase.findAddress key
  · have hexec : exec (payAccount nTotalWeight reward sums key) s =
        (sums, (Call.handle (.accountUpdate ((s.mAccountDb.getRecord key).1.debit
          (s.mCoinbase.getMapOutputs key).1)) { (Call.handle (.accountGet key) s).2 with
            mCoinbase := (s.mCoinbase.getMapOutputs key).2 }).2) := by
      simp [payAccount, Call.handle, hfound, hshares, Account.debit]
    rw [hexec]
    exact ⟨rfl, NoShares.accountUpdate hread hshares⟩
  · have hexec : exec (payAccount nTotalWeight reward sums key) s =
        (sums, (Call.handle (.accountGet key) s).2) := by
      simp [payAccount, Call.handle, hfound, hshares]
    rw [hexec]
    exact ⟨rfl, hread⟩

/-- Without a finder and without shares there is no one to credit. -/
theorem roundCredits_of_noShares {s : DataRegistry} (h : s.NoShares) (reward : UInt64) :
    roundCredits s reward [] = .empty := by
  have hfinder : ∀ reward : UInt64, exec (payFinder reward []) s = ((.empty, reward), s) := by
    intro reward
    rw [payFinder, if_neg (by simp)]
    rfl
  simp only [roundCredits, hfinder]
  have hweight := noShares_totalWeight h
  generalize exec totalWeight s = weight at hweight
  rw [exec, run_foldlM]
  have hturn : ∀ key ∈ weight.2.mAccountDb.getKeys, ∀ p : (Credits × UInt64) × DataRegistry,
      p.1.1 = .empty ∧ p.2.NoShares →
        (exec
          (payAccount weight.1 (reward - reward * s.mConfig.poolFee.toUInt64) p.1 key) p.2).1.1 =
          .empty ∧
        (exec (payAccount weight.1 (reward - reward * s.mConfig.poolFee.toUInt64) p.1 key)
          p.2).2.NoShares := by
    rintro key - p ⟨hcredits, hp⟩
    obtain ⟨hsums, hnext⟩ := payAccount_of_noShares hp weight.1 _ p.1 key
    exact ⟨by rw [hsums, hcredits], hnext⟩
  have hstart : ((Credits.empty, (0 : UInt64)), weight.2).1.1 = .empty ∧ weight.2.NoShares :=
    ⟨rfl, hweight⟩
  exact (Loop.foldl_inv hturn hstart).1

end PayoutManager

end NexusPool
