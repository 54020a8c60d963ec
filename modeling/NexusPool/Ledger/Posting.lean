import NexusPool.Ledger.Crash
import NexusPool.Ledger.Proportional

/-!
# What is posted to an account

Three things change a record under its own key: shares, a payout and a refund. Each is a posting,
whose amounts are read off the registry before it. A record under another key than its own, and
what becomes of the empty key, does not matter to the account.
-/

namespace NexusPool

open Concurrent DataRegistry
open Std (ExtTreeMap)

/-- What a payout adds to an account and takes off it. -/
structure Payment where
  bonus : UInt64
  output : UInt64
  credit : UInt64
  remainder : UInt64
  deriving DecidableEq

/-- An entry in the journal of an account. -/
inductive Posting
  | shares (weight : UInt64)
  | payout (payment : Payment)
  | refund (credit output : UInt64)
  deriving DecidableEq

namespace Account

def receive (r : Account) (payment : Payment) : Account :=
  (((r.credit payment.bonus).debit payment.output).credit payment.credit).credit payment.remainder

/-- A payout ends the round, so no shares are left. -/
def post (r : Account) : Posting → Account
  | .shares weight => r.addShares weight
  | .payout payment => (r.receive payment).clear
  | .refund credit output => (r.debit credit).credit output

end Account

namespace PayoutManager

def leftOver (s : DataRegistry) (reward : UInt64) (lastBlockfinder : Bytes) : UInt64 :=
  let nTotalReward := (payShares s reward lastBlockfinder).1.2
  if sharedReward s reward lastBlockfinder > nTotalReward then
    sharedReward s reward lastBlockfinder - nTotalReward
  else 0

def shareEarned (s : DataRegistry) (reward : UInt64) (lastBlockfinder k : Bytes) : UInt64 :=
  earned (afterBonus s reward lastBlockfinder) (afterBonus s reward lastBlockfinder).totalShares
    (sharedReward s reward lastBlockfinder) k

def payment (s : DataRegistry) (reward : UInt64) (lastBlockfinder k : Bytes) : Payment where
  bonus := toFinder lastBlockfinder k (bonus s reward lastBlockfinder)
  output := s.mCoinbase.mapOutputs.getD k 0
  credit := shareEarned s reward lastBlockfinder k
  remainder := toFinder lastBlockfinder k (leftOver s reward lastBlockfinder)

/-- The posting of a refund, if the block has one coming. -/
def refundPosting (s : DataRegistry) (hashBlock : Uint1024) (k : Bytes) : List Posting :=
  match s.mBlockDb.mapRecords[hashBlock]? with
  | some b => if b.nCoinbaseValue = 0 then [] else [.refund (creditOf b k) (outputOf b k)]
  | none => []

end PayoutManager

/-! ### An account under its own key -/

/-- The account has this record, which is stored under its own key. -/
structure DataRegistry.Files (s : DataRegistry) (k : Bytes) (r : Account) : Prop where
  account : s.account? k = some r
  own : r.cKey = k

namespace DataRegistry.Files

variable {s s' : DataRegistry} {k : Bytes} {r : Account}

/-- The other parts of the registry do not matter. -/
theorem of_accounts (h : s.Files k r) (hdb : s'.mAccountDb = s.mAccountDb) : s'.Files k r :=
  ⟨by rw [account?, hdb]; exact h.account, h.own⟩

theorem getRecord (h : s.Files k r) (cKey : Bytes) :
    ({ s with mAccountDb := (s.mAccountDb.getRecord cKey).2 } : DataRegistry).Files k r := by
  refine ⟨?_, h.own⟩
  have hr : s.mAccountDb.mapRecords[k]? = some r := h.account
  change (s.mAccountDb.getRecord cKey).2.mapRecords[k]? = some r
  rw [Database.find_getRecord]
  split_ifs with hk
  · rw [hk, Database.getRecord_of_some hr]
  · exact hr

theorem blockGet (h : s.Files k r) (hashBlock : Uint1024) :
    (exec (call (.blockGet hashBlock)) s).2.Files k r := h.of_accounts rfl

/-- Away from the empty key, a read-modify-write changes the account of its key alone. -/
theorem modifyRecord (h : s.Files k r) (hkeyed : s.mAccountDb.WellKeyed) (hk : k ≠ []) (a : Bytes)
    {change : Account → Account} (hchange : ∀ r, (change r).cKey = r.cKey) :
    ({ s with mAccountDb := s.mAccountDb.modifyRecord a change } : DataRegistry).Files k
      (if k = a then change r else r) := by
  have hr : s.mAccountDb.mapRecords[k]? = some r := h.account
  have hown : (if k = a then change r else r).cKey = k := by
    split_ifs
    · rw [hchange, h.own]
    · exact h.own
  refine ⟨?_, hown⟩
  change (s.mAccountDb.modifyRecord a change).mapRecords[k]? = _
  by_cases hfiled : s.mAccountDb.filed a
  · obtain ⟨q, hq, hkey⟩ := Database.filed_iff.mp hfiled
    rw [Database.find_modifyRecord_of_filed hchange hq hkey]
    by_cases ha : k = a
    · subst ha
      rw [if_pos rfl, if_pos rfl, Option.some.inj (hq.symm.trans hr)]
    · rw [if_neg ha, if_neg (Ne.symm ha), hr]
  · have ha : k ≠ a := by
      rintro rfl
      exact hfiled (Database.filed_iff.mpr ⟨r, hr, h.own⟩)
    rw [hkeyed.find_modifyRecord_of_unfiled hchange hfiled, PayoutManager.cKey_blank,
      if_neg (Ne.symm hk), if_neg (Ne.symm ha), if_neg ha, hr]

end DataRegistry.Files

namespace PayoutManager

variable {s : DataRegistry} {k : Bytes} {r : Account}

/-! ### The payout -/

section Payout

variable (reward : UInt64) (lastBlockfinder : Bytes) (h : s.Files k r)
  (hkeyed : s.mAccountDb.WellKeyed) (hk : k ≠ [])
include h hkeyed hk

theorem files_afterBonus : (afterBonus s reward lastBlockfinder).Files k
    (r.credit (toFinder lastBlockfinder k (bonus s reward lastBlockfinder))) := by
  rw [afterBonus, toFinder]
  split_ifs with hempty hfinder hfinder
  · exact absurd (hfinder.trans hempty) hk
  · rw [Account.credit_zero]
    exact h
  · have hpaid := h.modifyRecord hkeyed hk lastBlockfinder
      (fun r => r.cKey_credit (bonus s reward lastBlockfinder))
    rwa [if_pos hfinder] at hpaid
  · have hpaid := h.modifyRecord hkeyed hk lastBlockfinder
      (fun r => r.cKey_credit (bonus s reward lastBlockfinder))
    rw [if_neg hfinder] at hpaid
    rwa [Account.credit_zero]

theorem files_payShares : (payShares s reward lastBlockfinder).2.Files k
    (((r.credit (toFinder lastBlockfinder k (bonus s reward lastBlockfinder))).debit
      (s.mCoinbase.mapOutputs.getD k 0)).credit (shareEarned s reward lastBlockfinder k)) := by
  have hbonus := files_afterBonus reward lastBlockfinder h hkeyed hk
  have hearned : shareEarned s reward lastBlockfinder k =
      shareCredit (afterBonus s reward lastBlockfinder).totalShares
        (sharedReward s reward lastBlockfinder) r.nRoundShares := by
    rw [shareEarned, earned, hbonus.account]
    rfl
  refine ⟨?_, h.own⟩
  rw [payShares, payLoop_account_of_ne (wellKeyed_afterBonus reward hkeyed) hk, hbonus.account,
    mCoinbase_afterBonus, hearned]
  rfl

theorem files_updateBalances (hashSubmitBlock : Uint1024) :
    (exec (updateBalances reward hashSubmitBlock lastBlockfinder) s).2.Files k
      (r.receive (payment s reward lastBlockfinder k)) := by
  have hpaid := files_payShares reward lastBlockfinder h hkeyed hk
  have hkeyed' := (@sharing_payShares _ reward lastBlockfinder hkeyed).keyed
  rw [exec_updateBalances_eq]
  simp only [Account.receive, payment]
  generalize ((r.credit _).debit _).credit _ = paid at hpaid
  have hrest : ∀ r', ({ (payShares s reward lastBlockfinder).2 with
      mAccountDb := afterRemainder s reward lastBlockfinder } : DataRegistry).Files k r' →
      ({ (payShares s reward lastBlockfinder).2 with
        mAccountDb := afterRemainder s reward lastBlockfinder
        mBlockDb := (payShares s reward lastBlockfinder).2.mBlockDb.updateRecord
          (payoutBlock s reward lastBlockfinder hashSubmitBlock) } : DataRegistry).Files k r' :=
    fun r' h' => h'.of_accounts rfl
  apply hrest
  rw [afterRemainder, leftOver, toFinder]
  dsimp only
  by_cases hrem : sharedReward s reward lastBlockfinder > (payShares s reward lastBlockfinder).1.2
  · simp only [if_pos hrem]
    have hcredited := hpaid.modifyRecord hkeyed' hk lastBlockfinder
      (fun r => r.cKey_credit (sharedReward s reward lastBlockfinder -
        (payShares s reward lastBlockfinder).1.2))
    split_ifs at hcredited ⊢
    · exact hcredited
    · rw [Account.credit_zero]
      exact hcredited
  · simp only [if_neg hrem, ite_self, Account.credit_zero]
    exact hpaid

end Payout

/-! ### The end of the round -/

abbrev clearTurn (s : DataRegistry) (key : Bytes) : DataRegistry :=
  { s with mAccountDb := s.mAccountDb.modifyRecord key .clear }

theorem exec_clearShares (s : DataRegistry) :
    exec clearShares s = ((), s.mAccountDb.getKeys.foldl clearTurn s) := by
  rw [clearShares, exec_bind]
  exact Program.run_forM Call.handle _ _ _

theorem files_clearTurn (h : s.Files k r) (hkeyed : s.mAccountDb.WellKeyed) (hk : k ≠ [])
    (key : Bytes) : (clearTurn s key).Files k (if k = key then r.clear else r) :=
  h.modifyRecord hkeyed hk key fun _ => rfl

theorem files_clearShares (h : s.Files k r) (hkeyed : s.mAccountDb.WellKeyed) (hk : k ≠ []) :
    (exec clearShares s).2.Files k r.clear := by
  have hkey : k ∈ s.mAccountDb.getKeys := Database.mem_getKeys.mpr ⟨r, h.account⟩
  have hinv : ∀ key ∈ s.mAccountDb.getKeys, ∀ s : DataRegistry,
      (s.mAccountDb.WellKeyed ∧ ∃ r, s.Files k r) →
        (clearTurn s key).mAccountDb.WellKeyed ∧ ∃ r, (clearTurn s key).Files k r :=
    fun key _ s ⟨hkeyed, r, h⟩ => ⟨hkeyed.modifyRecord, _, files_clearTurn h hkeyed hk key⟩
  have hframe : ∀ key ∈ s.mAccountDb.getKeys, key ≠ k → ∀ s : DataRegistry,
      (s.mAccountDb.WellKeyed ∧ ∃ r, s.Files k r) →
        (clearTurn s key).account? k = s.account? k := by
    rintro key - hne s ⟨hkeyed, r, h⟩
    rw [(files_clearTurn h hkeyed hk key).account, if_neg hne.symm, h.account]
  have hchange : ∀ s : DataRegistry, (s.mAccountDb.WellKeyed ∧ ∃ r, s.Files k r) →
      (clearTurn s k).account? k = (s.account? k).map .clear := by
    rintro s ⟨hkeyed, r, h⟩
    rw [(files_clearTurn h hkeyed hk k).account, if_pos rfl, h.account]
    rfl
  have hloop := Loop.foldl_of_mem (fun s : DataRegistry => s.account? k) hinv hkey
    s.mAccountDb.nodup_getKeys hframe (Option.map .clear) hchange ⟨hkeyed, r, h⟩
  refine ⟨?_, h.own⟩
  rw [exec_clearShares]
  exact hloop.trans (by rw [h.account]; rfl)

theorem files_settle (h : s.Files k r) (hkeyed : s.WellKeyed) (hk : k ≠ []) (reward : UInt64)
    (hashSubmitBlock : Uint1024) (lastBlockfinder : Bytes) :
    (exec (do
      updateBalances reward hashSubmitBlock lastBlockfinder
      clearShares) s).2.Files k (r.post (.payout (payment s reward lastBlockfinder k))) := by
  rw [exec_bind]
  exact files_clearShares (files_updateBalances reward lastBlockfinder h hkeyed.2 hk
    hashSubmitBlock)
    (hkeyed.exec _).2 hk

/-! ### The refund -/

theorem files_refundPayouts (h : s.Files k r) (hkeyed : s.mAccountDb.WellKeyed) (hk : k ≠ [])
    (hashBlock : Uint1024) :
    (exec (refundPayouts hashBlock) s).2.Files k
      ((refundPosting s hashBlock k).foldl Account.post r) := by
  cases hblock : s.mBlockDb.mapRecords[hashBlock]? with
  | none =>
    have hzero : (s.mBlockDb.getRecord hashBlock).1.nCoinbaseValue = 0 := by
      rw [Database.getRecord_of_none hblock]
      rfl
    rw [exec_refundPayouts_of_zero hzero, refundPosting, hblock]
    exact h.of_accounts rfl
  | some b =>
    rw [refundPosting, hblock]
    by_cases hvalue : b.nCoinbaseValue = 0
    · have hzero : (s.mBlockDb.getRecord hashBlock).1.nCoinbaseValue = 0 := by
        rw [Database.getRecord_of_some hblock, hvalue]
      rw [exec_refundPayouts_of_zero hzero]
      simp only [if_pos hvalue]
      exact h.of_accounts rfl
    · simp only [if_neg hvalue]
      refine ⟨?_, h.own⟩
      rw [account_refundPayouts hkeyed hblock hvalue h.account, refunded, if_neg hk, if_pos h.own]
      rfl

theorem find_blockGet (s : DataRegistry) (hashBlock : Uint1024) :
    (exec (call (.blockGet hashBlock)) s).2.mBlockDb.mapRecords[hashBlock]? =
      some (s.mBlockDb.getRecord hashBlock).1 :=
  (Database.find_getRecord _ _ _).trans (if_pos rfl)

/-- Reading the block first makes no difference. -/
theorem refundPosting_blockGet (s : DataRegistry) (hashBlock : Uint1024) (k : Bytes) :
    refundPosting (exec (call (.blockGet hashBlock)) s).2 hashBlock k =
      refundPosting s hashBlock k := by
  rw [refundPosting, find_blockGet, refundPosting]
  cases hblock : s.mBlockDb.mapRecords[hashBlock]? with
  | some b => rw [Database.getRecord_of_some hblock]
  | none => rw [Database.getRecord_of_none hblock]; rfl

end PayoutManager

end NexusPool
