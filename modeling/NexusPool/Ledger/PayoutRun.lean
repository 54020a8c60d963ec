import NexusPool.Ledger.PayoutLoop

/-!
# What a payout and a refund do to each account

`exec_updateBalances` and `exec_refundPayouts` say what the two handlers leave of one account, as
a function of its record and of sums over all accounts, on a database whose records are under
their own keys.
-/

namespace NexusPool

open Concurrent DataRegistry
open Std (ExtTreeMap)

namespace PayoutManager

/-! ### The whole payout -/

section Settled

variable (s : DataRegistry) (reward : UInt64) (lastBlockfinder : Bytes)

/-- The reward without the pool's fee. -/
def netReward : UInt64 := reward - reward * s.mConfig.poolFee.toUInt64

def bonus : UInt64 := if lastBlockfinder = [] then 0 else finderBonus (netReward s reward)

/-- What is shared out by weight. -/
def sharedReward : UInt64 := netReward s reward - bonus s reward lastBlockfinder

def shareOf (r : Account) : UInt64 :=
  shareCredit s.totalShares (sharedReward s reward lastBlockfinder) r.nRoundShares

def totalReward : UInt64 := s.mAccountDb.sumOver (shareOf s reward lastBlockfinder)

/-- What the credits leave of the shared reward goes to the block finder. -/
def remainder : UInt64 :=
  if sharedReward s reward lastBlockfinder > totalReward s reward lastBlockfinder then
    sharedReward s reward lastBlockfinder - totalReward s reward lastBlockfinder
  else 0

/-- An amount that only the block finder gets. -/
def toFinder (k : Bytes) (nValue : UInt64) : UInt64 := if k = lastBlockfinder then nValue else 0

def settle (k : Bytes) (r : Account) : Account :=
  (((r.credit (toFinder lastBlockfinder k (bonus s reward lastBlockfinder))).debit
    (s.mCoinbase.mapOutputs.getD k 0)).credit (shareOf s reward lastBlockfinder r)).credit
      (toFinder lastBlockfinder k (remainder s reward lastBlockfinder))

/-- What a payout leaves behind. -/
structure Settled (hashSubmitBlock : Uint1024) (s' : DataRegistry) : Prop where
  rest : s' = { s with mAccountDb := s'.mAccountDb, mBlockDb := s'.mBlockDb }
  own : s'.mAccountDb.OwnKeys
  account : ∀ k, s'.account? k = (s.account? k).map (settle s reward lastBlockfinder k)
  block : ∃ cCredits : Credits,
    s'.mBlockDb.mapRecords[hashSubmitBlock]? = some
      { cKey := hashSubmitBlock
        nCoinbaseValue := s.mCoinbase.nMaxValue + s.mCoinbase.nPoolFee
        cCoinbase := s.mCoinbase
        cCredits := cCredits
        nRound := s.mCurrentRound } ∧
    (∀ k, cCredits.mapCredits.getD k 0 =
      toFinder lastBlockfinder k (bonus s reward lastBlockfinder) +
        ((s.account? k).map (shareOf s reward lastBlockfinder)).getD 0) ∧
    ∀ k, k ∈ cCredits.mapCredits → k ∈ s.mAccountDb.getKeys

/-! ### The parts of the payout -/

def finderCredits : Credits :=
  if lastBlockfinder = [] then .empty
  else Credits.empty.addCredit lastBlockfinder (bonus s reward lastBlockfinder)

def afterBonus : DataRegistry :=
  if lastBlockfinder = [] then s
  else { s with
    mAccountDb :=
      s.mAccountDb.modifyRecord lastBlockfinder (·.credit (bonus s reward lastBlockfinder)) }

def payShares : (Credits × UInt64) × DataRegistry :=
  payLoop (afterBonus s reward lastBlockfinder) (afterBonus s reward lastBlockfinder).totalShares
    (sharedReward s reward lastBlockfinder) (finderCredits s reward lastBlockfinder, 0)

def afterRemainder : Database Bytes Account :=
  let p := payShares s reward lastBlockfinder
  if sharedReward s reward lastBlockfinder > p.1.2 then
    p.2.mAccountDb.modifyRecord lastBlockfinder
      (·.credit (sharedReward s reward lastBlockfinder - p.1.2))
  else p.2.mAccountDb

def payoutBlock (hashSubmitBlock : Uint1024) : Block where
  cKey := hashSubmitBlock
  nCoinbaseValue := s.mCoinbase.nMaxValue + s.mCoinbase.nPoolFee
  cCoinbase := s.mCoinbase
  cCredits := (payShares s reward lastBlockfinder).1.1
  nRound := s.mCurrentRound

theorem mCoinbase_afterBonus : (afterBonus s reward lastBlockfinder).mCoinbase = s.mCoinbase := by
  rw [afterBonus]
  split_ifs <;> rfl

theorem exec_payFinder : exec (payFinder (netReward s reward) lastBlockfinder) s =
    ((finderCredits s reward lastBlockfinder, sharedReward s reward lastBlockfinder),
      afterBonus s reward lastBlockfinder) := by
  by_cases hempty : lastBlockfinder = []
  · simp [payFinder, finderCredits, afterBonus, hempty, sharedReward, bonus]
  · simp [payFinder, finderCredits, afterBonus, hempty, sharedReward, bonus]

/-- On any database, the payout is its three phases and the new block record. -/
theorem exec_updateBalances_eq (hashSubmitBlock : Uint1024) :
    (exec (updateBalances reward hashSubmitBlock lastBlockfinder) s).2 =
      { (payShares s reward lastBlockfinder).2 with
        mAccountDb := afterRemainder s reward lastBlockfinder
        mBlockDb := (payShares s reward lastBlockfinder).2.mBlockDb.updateRecord
          (payoutBlock s reward lastBlockfinder hashSubmitBlock) } := by
  have hfinder : Program.run Call.handle
      (payFinder (reward - reward * s.mConfig.poolFee.toUInt64) lastBlockfinder) s =
        ((finderCredits s reward lastBlockfinder, sharedReward s reward lastBlockfinder),
          afterBonus s reward lastBlockfinder) := exec_payFinder s reward lastBlockfinder
  have hweight : Program.run Call.handle totalWeight (afterBonus s reward lastBlockfinder) =
      ((afterBonus s reward lastBlockfinder).totalShares, afterBonus s reward lastBlockfinder) :=
    exec_totalWeight _
  have hpay : Program.run Call.handle
      ((afterBonus s reward lastBlockfinder).mAccountDb.getKeys.foldlM
        (payAccount (afterBonus s reward lastBlockfinder).totalShares
          (sharedReward s reward lastBlockfinder)) (finderCredits s reward lastBlockfinder, 0))
      (afterBonus s reward lastBlockfinder) = payShares s reward lastBlockfinder :=
    exec_payAccounts _ _ _ _
  simp only [updateBalances, exec, Program.run_bind, Program.run_perform, Call.handle]
  rw [hfinder]
  simp only [hweight, hpay]
  rw [payRemainder, afterRemainder]
  split_ifs <;> rfl

variable {s lastBlockfinder}

theorem wellKeyed_afterBonus (hkeyed : s.mAccountDb.WellKeyed) :
    (afterBonus s reward lastBlockfinder).mAccountDb.WellKeyed := by
  rw [afterBonus]
  split_ifs
  · exact hkeyed
  · exact hkeyed.modifyRecord

theorem sharing_payShares (hkeyed : s.mAccountDb.WellKeyed) :
    Sharing (afterBonus s reward lastBlockfinder) (payShares s reward lastBlockfinder) :=
  sharing_payLoop (wellKeyed_afterBonus reward hkeyed)

theorem payShares_rest (hkeyed : s.mAccountDb.WellKeyed) :
    (payShares s reward lastBlockfinder).2 =
      { s with mAccountDb := (payShares s reward lastBlockfinder).2.mAccountDb } := by
  have hrest := (@sharing_payShares s reward lastBlockfinder hkeyed).rest
  rw [hrest, afterBonus]
  split_ifs <;> rfl

theorem getD_finderCredits (k : Bytes) :
    (finderCredits s reward lastBlockfinder).mapCredits.getD k 0 =
      toFinder lastBlockfinder k (bonus s reward lastBlockfinder) := by
  by_cases hempty : lastBlockfinder = []
  · simp [finderCredits, Credits.empty, toFinder, bonus, hempty]
  · by_cases hk : lastBlockfinder = k
    · subst hk
      simp [finderCredits, Credits.empty, Credits.addCredit, toFinder, hempty]
    · simp [finderCredits, Credits.empty, Credits.addCredit, toFinder, hempty, hk, Ne.symm hk,
        ExtTreeMap.getD_insert]

theorem eq_of_mem_finderCredits {k : Bytes}
    (hk : k ∈ (finderCredits s reward lastBlockfinder).mapCredits) : k = lastBlockfinder := by
  by_cases hempty : lastBlockfinder = []
  · simp [finderCredits, Credits.empty, hempty] at hk
  · simpa [finderCredits, Credits.empty, Credits.addCredit, hempty, @eq_comm _ k] using hk

/-! Where the bonus displaces no shares, the sums are those over the accounts before it. -/

section Kept

variable (hkept : ∀ k, sharesAt (afterBonus s reward lastBlockfinder) k = sharesAt s k)
include hkept

theorem totalShares_afterBonus :
    (afterBonus s reward lastBlockfinder).totalShares = s.totalShares :=
  @sumOver_shares_congr _ _ hkept id rfl

variable (hkeyed : s.mAccountDb.WellKeyed)
include hkeyed

theorem payShares_total :
    (payShares s reward lastBlockfinder).1.2 = totalReward s reward lastBlockfinder := by
  refine (payLoop_total (wellKeyed_afterBonus reward hkeyed)).trans ((zero_add _).trans ?_)
  rw [totalShares_afterBonus reward hkept]
  exact sumOver_shares_congr hkept (shareCredit_zero _ _)

theorem payShares_credit (k : Bytes) :
    (payShares s reward lastBlockfinder).1.1.mapCredits.getD k 0 =
      toFinder lastBlockfinder k (bonus s reward lastBlockfinder) +
        ((s.account? k).map (shareOf s reward lastBlockfinder)).getD 0 := by
  rw [payShares, payLoop_credit (wellKeyed_afterBonus reward hkeyed), getD_finderCredits, earned_eq,
    hkept, totalShares_afterBonus reward hkept, ← earned_eq]
  rfl

end Kept

/-! Without a finder, or where the finder has an account of its own, the bonus goes to it. -/

section Finder

variable (hkeyed : s.mAccountDb.WellKeyed)
  (hfinder : lastBlockfinder = [] ∨ s.mAccountDb.filed lastBlockfinder)
include hfinder

theorem account_afterBonus (k : Bytes) : (afterBonus s reward lastBlockfinder).account? k =
    (s.account? k).map (·.credit
      (toFinder lastBlockfinder k (bonus s reward lastBlockfinder))) := by
  by_cases hempty : lastBlockfinder = []
  · simp [afterBonus, toFinder, bonus, hempty]
  · obtain ⟨r, hr, hkey⟩ := Database.filed_iff.mp (hfinder.resolve_left hempty)
    rw [afterBonus, if_neg hempty, account?,
      Database.find_modifyRecord_of_filed (fun r => r.cKey_credit _) hr hkey]
    by_cases hk : lastBlockfinder = k
    · subst hk
      simp [toFinder, account?, hr]
    · simp [toFinder, hk, Ne.symm hk, account?]

theorem sharesAt_afterBonus (k : Bytes) :
    sharesAt (afterBonus s reward lastBlockfinder) k = sharesAt s k := by
  rw [sharesAt, account_afterBonus reward hfinder, Option.map_map]
  rfl

include hkeyed

/-- An account before the remainder. -/
def shared (s : DataRegistry) (reward : UInt64) (lastBlockfinder k : Bytes) (r : Account) :
    Account :=
  ((r.credit (toFinder lastBlockfinder k (bonus s reward lastBlockfinder))).debit
    (s.mCoinbase.mapOutputs.getD k 0)).credit (shareOf s reward lastBlockfinder r)

omit hkeyed in
theorem map_pay_afterBonus (k : Bytes) :
    ((afterBonus s reward lastBlockfinder).account? k).map
        (·.pay ((afterBonus s reward lastBlockfinder).mCoinbase.mapOutputs.getD k 0)
          (afterBonus s reward lastBlockfinder).totalShares
            (sharedReward s reward lastBlockfinder)) =
      (s.account? k).map (shared s reward lastBlockfinder k) := by
  rw [account_afterBonus reward hfinder,
    totalShares_afterBonus reward (sharesAt_afterBonus reward hfinder), mCoinbase_afterBonus,
    Option.map_map]
  rfl

theorem payShares_account_of_ne {k : Bytes} (hk : k ≠ []) :
    (payShares s reward lastBlockfinder).2.account? k =
      (s.account? k).map (shared s reward lastBlockfinder k) := by
  rw [← map_pay_afterBonus reward hfinder]
  exact payLoop_account_of_ne (wellKeyed_afterBonus reward hkeyed) hk

omit hkeyed in
theorem filed_afterBonus (k : Bytes) :
    (afterBonus s reward lastBlockfinder).mAccountDb.filed k = s.mAccountDb.filed k := by
  have hk := account_afterBonus reward hfinder k
  rw [account?] at hk
  rw [Bool.eq_iff_iff, Database.filed_iff, Database.filed_iff, hk]
  cases hr : s.mAccountDb.mapRecords[k]? <;> simp [account?, hr]

theorem payShares_account_blank : (payShares s reward lastBlockfinder).2.account? [] =
    if s.mAccountDb.getKeys.any fun k => decide (k ≠ []) && displaces s k then some (Account.new [])
    else (s.account? []).map (shared s reward lastBlockfinder []) := by
  have hdisplaces : displaces (afterBonus s reward lastBlockfinder) = displaces s := by
    funext k
    rw [displaces, displaces, filed_afterBonus reward hfinder, mCoinbase_afterBonus]
  have hkeys : (afterBonus s reward lastBlockfinder).mAccountDb.getKeys = s.mAccountDb.getKeys := by
    refine Database.getKeys_congr fun k => ?_
    have hk := account_afterBonus reward hfinder k
    rw [account?] at hk
    rw [Database.hasKey_eq_isSome, hk, Option.isSome_map, Database.hasKey_eq_isSome]
    rfl
  rw [payShares, payLoop_account_blank (wellKeyed_afterBonus reward hkeyed),
    map_pay_afterBonus reward hfinder, hdisplaces, hkeys]

end Finder

theorem find_afterRemainder
    (hfiled : (payShares s reward lastBlockfinder).2.mAccountDb.filed lastBlockfinder)
    (htotal : (payShares s reward lastBlockfinder).1.2 = totalReward s reward lastBlockfinder)
    (k : Bytes) : (afterRemainder s reward lastBlockfinder).mapRecords[k]? =
      ((payShares s reward lastBlockfinder).2.account? k).map
        (·.credit (toFinder lastBlockfinder k (remainder s reward lastBlockfinder))) := by
  obtain ⟨r, hr, hkey⟩ := Database.filed_iff.mp hfiled
  rw [afterRemainder, remainder, htotal]
  by_cases hrem : sharedReward s reward lastBlockfinder > totalReward s reward lastBlockfinder
  · simp only [if_pos hrem]
    rw [Database.find_modifyRecord_of_filed (fun r => r.cKey_credit _) hr hkey]
    by_cases hk : lastBlockfinder = k
    · subst hk
      simp [toFinder, account?, hr]
    · simp [toFinder, hk, Ne.symm hk, account?]
  · simp [hrem, toFinder, account?]

/-! ### On records under their own keys -/

section OwnKeys

variable (hown : s.mAccountDb.OwnKeys)
  (hfinder : lastBlockfinder = [] ∨ s.mAccountDb.hasKey lastBlockfinder)
include hown hfinder

theorem filed_of_finder : lastBlockfinder = [] ∨ s.mAccountDb.filed lastBlockfinder :=
  hfinder.imp id hown.filed_iff_hasKey.mpr

theorem payShares_account (k : Bytes) : (payShares s reward lastBlockfinder).2.account? k =
    (s.account? k).map (shared s reward lastBlockfinder k) := by
  have hfiled := filed_of_finder hown hfinder
  by_cases hk : k = []
  · subst hk
    have hnone : (s.mAccountDb.getKeys.any fun k => decide (k ≠ []) && displaces s k) = false := by
      rw [List.any_eq_false]
      intro k hk
      have hkey := hown.filed_iff_hasKey.mpr (Database.hasKey_iff.mpr (Database.mem_getKeys.mp hk))
      simp [displaces, hkey]
    rw [payShares_account_blank reward hown.wellKeyed hfiled, hnone]
    rfl
  · exact payShares_account_of_ne reward hown.wellKeyed hfiled hk

theorem ownKeys_payShares : (payShares s reward lastBlockfinder).2.mAccountDb.OwnKeys := by
  intro k r hr
  have haccount := payShares_account reward hown hfinder k
  rw [account?, hr] at haccount
  obtain ⟨r₀, hr₀, rfl⟩ := Option.map_eq_some_iff.mp haccount.symm
  exact hown k r₀ hr₀

end OwnKeys

variable (hashSubmitBlock : Uint1024)

theorem exec_updateBalances (hown : s.mAccountDb.OwnKeys)
    (hfinder : s.mAccountDb.hasKey lastBlockfinder) :
    Settled s reward lastBlockfinder hashSubmitBlock
      (exec (updateBalances reward hashSubmitBlock lastBlockfinder) s).2 := by
  have hfiled := filed_of_finder hown (.inr hfinder)
  have hkept := sharesAt_afterBonus reward hfiled
  have htotal := payShares_total reward hkept hown.wellKeyed
  have hcredit := payShares_credit reward hkept hown.wellKeyed
  have haccount := payShares_account reward hown (.inr hfinder)
  have hownShares := ownKeys_payShares reward hown (.inr hfinder)
  have hfinder' : (payShares s reward lastBlockfinder).2.mAccountDb.filed lastBlockfinder := by
    obtain ⟨r, hr⟩ := Database.hasKey_iff.mp hfinder
    have hshared := haccount lastBlockfinder
    rw [show s.account? lastBlockfinder = some r from hr] at hshared
    exact hownShares.filed_iff_hasKey.mpr (Database.hasKey_iff.mpr ⟨_, hshared⟩)
  have hfind := find_afterRemainder reward hfinder' htotal
  rw [exec_updateBalances_eq]
  constructor
  · rw [payShares_rest reward hown.wellKeyed]
  · intro k r hr
    rw [hfind k] at hr
    obtain ⟨r₀, hr₀, rfl⟩ := Option.map_eq_some_iff.mp hr
    exact hownShares k r₀ hr₀
  · intro k
    rw [account?, hfind k, haccount k, Option.map_map]
    rfl
  · refine ⟨(payShares s reward lastBlockfinder).1.1, ?_, hcredit, fun k hk => ?_⟩
    · rw [Database.find_updateRecord]
      exact if_pos rfl
    · rcases payLoop_mem (wellKeyed_afterBonus reward hown.wellKeyed) hk with hk | hk
      · rw [eq_of_mem_finderCredits reward hk]
        exact Database.mem_getKeys.mpr (Database.hasKey_iff.mp hfinder)
      · obtain ⟨r, hr⟩ := Database.mem_getKeys.mp hk
        have hk := account_afterBonus reward hfiled k
        rw [account?, hr] at hk
        obtain ⟨r₀, hr₀, -⟩ := Option.map_eq_some_iff.mp hk.symm
        exact Database.mem_getKeys.mpr ⟨r₀, hr₀⟩

end Settled

/-! ### The refund -/

/-- Without a coinbase value the block counts as refunded already. -/
theorem exec_refundPayouts {s : DataRegistry} {hashBlock : Uint1024} {b : Block}
    (h : s.mBlockDb.mapRecords[hashBlock]? = some b) (hvalue : b.nCoinbaseValue ≠ 0) :
    (exec (refundPayouts hashBlock) s).2 =
      { s with
        mAccountDb :=
          (s.mAccountDb.modifyAll (fun v r => r.debit v) b.cCredits.mapCredits.toList).modifyAll
            (fun v r => r.credit v) b.cCoinbase.mapOutputs.toList
        mBlockDb := s.mBlockDb.updateRecord { b with nCoinbaseValue := 0 } } := by
  have hget : Call.handle (.blockGet hashBlock) s = (b, s) := by
    simp [Call.handle, Database.getRecord_of_some h]
  have hdebits := exec_forM_modifyAccount (fun v r => r.debit v) b.cCredits.mapCredits.toList s
  rw [refundPayouts, exec_bind, exec_call, hget, if_neg hvalue, exec_bind, hdebits, exec_bind,
    exec_forM_modifyAccount (fun v r => r.credit v)]
  rfl

theorem find_debitAll {db : Database Bytes Account} (hown : db.OwnKeys)
    (credits : ExtTreeMap Bytes UInt64) (hkeys : ∀ k, k ∈ credits → k ∈ db.getKeys) :
    (db.modifyAll (fun v r => r.debit v) credits.toList).OwnKeys ∧
      ∀ k : Bytes, (db.modifyAll (fun v r => r.debit v) credits.toList).mapRecords[k]? =
        db.mapRecords[k]?.map (·.debit (credits.getD k 0)) := by
  have hall := hown.modifyAll (fun v r => r.cKey_debit v) credits
    (fun e he => Database.hasKey_iff.mpr (Database.mem_getKeys.mp
      (hkeys e.1 (OrderedMap.mem_of_mem_toList he))))
  refine ⟨hall.1, fun k => ?_⟩
  rw [hall.2 k, ExtTreeMap.getD_eq_getD_getElem?]
  cases credits[k]? <;> simp

theorem find_creditAll {db : Database Bytes Account} (hown : db.OwnKeys)
    (outputs : ExtTreeMap Bytes UInt64) (hkeys : ∀ e ∈ outputs.toList, db.hasKey e.1) (k : Bytes) :
    (db.modifyAll (fun v r => r.credit v) outputs.toList).mapRecords[k]? =
      db.mapRecords[k]?.map (·.credit (outputs.getD k 0)) := by
  rw [(hown.modifyAll (fun v r => r.cKey_credit v) outputs hkeys).2 k,
    ExtTreeMap.getD_eq_getD_getElem?]
  cases outputs[k]? <;> simp

/-- Whatever addresses the coinbase pays, an account under a nonempty key gets its own
output back. -/
theorem find_creditAll_of_ne {db : Database Bytes Account} (hown : db.OwnKeys)
    (outputs : ExtTreeMap Bytes UInt64) {k : Bytes} (hk : k ≠ []) {r : Account}
    (hr : db.mapRecords[k]? = some r) :
    (db.modifyAll (fun v r => r.credit v) outputs.toList).mapRecords[k]? =
      some (r.credit (outputs.getD k 0)) := by
  rw [hown.find_modifyAll_of_ne (fun v r => r.cKey_credit v) outputs hk hr,
    ExtTreeMap.getD_eq_getD_getElem?]
  cases outputs[k]? <;> simp

end PayoutManager

end NexusPool
