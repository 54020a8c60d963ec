import NexusPool.Ledger.ForeignKeys
import NexusPool.Ledger.Refund

/-!
# When a refund changes each balance by the block's own amounts

Some time after its payout a block turns out to be an orphan. `refund_payouts` first takes the
credits of the block off the balances, stopping at zero, and then returns the outputs. Where a
balance lies below its credits, the missing part is forgiven, although the output covers it.
-/

namespace NexusPool

open Concurrent DataRegistry
open Std (ExtTreeMap)

namespace PayoutManager

def creditOf (b : Block) (k : Bytes) : UInt64 := b.cCredits.mapCredits.getD k 0

def outputOf (b : Block) (k : Bytes) : UInt64 := b.cCoinbase.mapOutputs.getD k 0

/-- An account `r` has become `r'`: the output was added and the credits taken off, where they
could be, and an account in neither map is as it was. -/
structure Exactly (b : Block) (k : Bytes) (r r' : Account) : Prop where
  change : (creditOf b k).toNat ≤ r.nAccountBalance.toNat + (outputOf b k).toNat →
    r'.nAccountBalance.toNat + (creditOf b k).toNat =
      r.nAccountBalance.toNat + (outputOf b k).toNat
  untouched : k ∉ b.cCredits.mapCredits → k ∉ b.cCoinbase.mapOutputs → r' = r

/-- Every account has changed by the amounts of the block. -/
def RefundsExactly (b : Block) (s s' : DataRegistry) : Prop :=
  ∀ k r, s.account? k = some r → ∃ r', s'.account? k = some r' ∧ Exactly b k r r'

/-! ### The record that a refund leaves -/

/-- The refund of a record under its own key. -/
def refund (b : Block) (k : Bytes) (r : Account) : Account :=
  (r.debit (creditOf b k)).credit (outputOf b k)

/-- What foreign keys leave under the empty key: the last output of one, or else the account's own
output on top of nothing, if there are credits of one. -/
def replacement (db : Database Bytes Account) (b : Block) : Option Account :=
  match db.lastForeign b.cCoinbase.mapOutputs with
  | some e => some ((Account.new []).credit e.2)
  | none => (db.lastForeign b.cCredits.mapCredits).map fun _ =>
    (Account.new []).credit (outputOf b [])

/-- The record under a key after the refund. -/
def refunded (db : Database Bytes Account) (b : Block) (k : Bytes) (r : Account) : Account :=
  if k = [] then (replacement db b).getD (refund b k r)
  else if r.cKey = k then refund b k r
  else r

section Accounts

variable {db : Database Bytes Account} {b : Block} {k : Bytes} {r : Account}

theorem find_refund_of_ne (hkeyed : db.WellKeyed) (hk : k ≠ []) (hr : db.mapRecords[k]? = some r) :
    ((db.modifyAll (fun v r => r.debit v) b.cCredits.mapCredits.toList).modifyAll
      (fun v r => r.credit v) b.cCoinbase.mapOutputs.toList).mapRecords[k]? =
        some (refunded db b k r) := by
  have hdebits := hkeyed.modifyAll (fun v r => Account.debit r v)
    b.cCredits.mapCredits.toList
  rw [refunded, if_neg hk]
  split_ifs with hkey
  · have hdebited := hkeyed.find_modifyAll_of_filed (fun v r => r.cKey_debit v)
      b.cCredits.mapCredits hk hr hkey
    rw [hdebits.find_modifyAll_of_filed (fun v r => r.cKey_credit v) b.cCoinbase.mapOutputs hk
      hdebited, refund, creditOf, outputOf, ExtTreeMap.getD_eq_getD_getElem?,
      ExtTreeMap.getD_eq_getD_getElem?]
    · cases b.cCredits.mapCredits[k]? <;> cases b.cCoinbase.mapOutputs[k]? <;> simp
    · cases b.cCredits.mapCredits[k]? <;> exact hkey
  · obtain rfl := (hkeyed k r hr).resolve_left hkey
    have hdebited := hkeyed.find_modifyAll_of_foreign (fun v r => r.cKey_debit v)
      b.cCredits.mapCredits.toList hk hr
    exact hdebits.find_modifyAll_of_foreign (fun v r => r.cKey_credit v) _ hk hdebited

/-- The credits that were taken off leave the foreign keys what they were. -/
theorem lastForeign_debitAll (hkeyed : db.WellKeyed) (hr : db.mapRecords[([] : Bytes)]? = some r)
    {r' : Account} (credits : ExtTreeMap Bytes UInt64)
    (hr' : (db.modifyAll (fun v r => Account.debit r v) credits.toList).mapRecords[([] : Bytes)]? =
      some r') (outputs : ExtTreeMap Bytes UInt64) :
    (db.modifyAll (fun v r => Account.debit r v) credits.toList).lastForeign outputs =
      db.lastForeign outputs := by
  have hdebits := hkeyed.modifyAll (fun v r => Account.debit r v) credits.toList
  have hsame : (db.modifyAll (fun v r => Account.debit r v) credits.toList).filed = db.filed := by
    funext a
    by_cases ha : a = []
    · subst ha
      rw [Bool.eq_iff_iff]
      exact iff_of_true (hdebits.filed_blank_of_some hr') (hkeyed.filed_blank_of_some hr)
    · exact hkeyed.filed_modifyAll (fun v r => r.cKey_debit v) credits.toList ha
  rw [Database.lastForeign, hsame]
  rfl

theorem foldl_credit_of_none {outputs : ExtTreeMap Bytes UInt64} (h : db.lastForeign outputs = none)
    (r : Account) : outputs.toList.foldl (db.blankTurn fun v r => r.credit v) r =
      r.credit (outputs.getD [] 0) := by
  rw [Database.foldl_blankTurn_of_none h, cKey_blank, ExtTreeMap.getD_eq_getD_getElem?]
  cases outputs[([] : Bytes)]? <;> simp

theorem foldl_debit_of_none {credits : ExtTreeMap Bytes UInt64} (h : db.lastForeign credits = none)
    (r : Account) : credits.toList.foldl (db.blankTurn fun v r => r.debit v) r =
      r.debit (credits.getD [] 0) := by
  rw [Database.foldl_blankTurn_of_none h, cKey_blank, ExtTreeMap.getD_eq_getD_getElem?]
  cases credits[([] : Bytes)]? <;> simp

theorem find_refund_blank (hkeyed : db.WellKeyed) (hr : db.mapRecords[([] : Bytes)]? = some r) :
    ((db.modifyAll (fun v r => r.debit v) b.cCredits.mapCredits.toList).modifyAll
      (fun v r => r.credit v) b.cCoinbase.mapOutputs.toList).mapRecords[([] : Bytes)]? =
        some (refunded db b [] r) := by
  have hfiled := hkeyed.filed_blank_of_some hr
  have hdebits := hkeyed.modifyAll (fun v r => Account.debit r v)
    b.cCredits.mapCredits.toList
  have hdebited := hkeyed.find_modifyAll_blankKey (fun v r => r.cKey_debit v)
    b.cCredits.mapCredits.toList hr
  have hcredited := hdebits.find_modifyAll_blankKey (fun v r => r.cKey_credit v)
    b.cCoinbase.mapOutputs.toList hdebited
  have hforeign := lastForeign_debitAll hkeyed hr b.cCredits.mapCredits hdebited
    b.cCoinbase.mapOutputs
  refine hcredited.trans (congrArg some ?_)
  rw [refunded, if_pos rfl, replacement]
  cases houtputs : db.lastForeign b.cCoinbase.mapOutputs with
  | some e =>
    exact Database.foldl_blankTurn_of_foreign not_lt_blankKey (hforeign.trans houtputs)
      (hdebits.filed_blank_of_some hdebited) _
  | none =>
    rw [foldl_credit_of_none (hforeign.trans houtputs)]
    cases hcredits : db.lastForeign b.cCredits.mapCredits with
    | some e =>
      have hzero : (Record.blank : Account).debit e.2 = Account.new [] := by
        simp [Account.debit, Account.new]
      rw [Database.foldl_blankTurn_of_foreign not_lt_blankKey hcredits hfiled, hzero]
      rfl
    | none =>
      rw [foldl_debit_of_none hcredits]
      rfl

end Accounts

theorem account_refundPayouts {s : DataRegistry} {hashBlock : Uint1024} {b : Block}
    (hkeyed : s.mAccountDb.WellKeyed) (hblock : s.mBlockDb.mapRecords[hashBlock]? = some b)
    (hvalue : b.nCoinbaseValue ≠ 0) {k : Bytes} {r : Account} (hr : s.account? k = some r) :
    (exec (refundPayouts hashBlock) s).2.account? k = some (refunded s.mAccountDb b k r) := by
  rw [exec_refundPayouts hblock hvalue, account?]
  by_cases hk : k = []
  · subst hk
    exact find_refund_blank hkeyed hr
  · exact find_refund_of_ne hkeyed hk hr

/-! ### When it is exact -/

/-- Either the balance covers the credits or not even balance and output do. -/
def Unclamped (b : Block) (k : Bytes) (r : Account) : Prop :=
  ¬ (r.nAccountBalance.toNat < (creditOf b k).toNat ∧
    (creditOf b k).toNat ≤ r.nAccountBalance.toNat + (outputOf b k).toNat)

/-- The condition on one entry of the map. A blank record under a foreign key is never changed,
and the record under the empty key may be replaced. -/
def Refundable (db : Database Bytes Account) (b : Block) (k : Bytes) (r : Account) : Prop :=
  if k = [] then
    match replacement db b with
    | some q => Exactly b k r q
    | none => Unclamped b k r
  else if r.cKey = k then Unclamped b k r
  else (outputOf b k).toNat ≤ (creditOf b k).toNat

section Exact

variable {b : Block} {k : Bytes} {r : Account}

theorem outputOf_of_notMem (hk : k ∉ b.cCoinbase.mapOutputs) : outputOf b k = 0 := by
  rw [outputOf, ExtTreeMap.getD_eq_fallback hk]

theorem creditOf_of_notMem (hk : k ∉ b.cCredits.mapCredits) : creditOf b k = 0 := by
  rw [creditOf, ExtTreeMap.getD_eq_fallback hk]

theorem exactly_refund_iff (hfits : r.nAccountBalance.toNat + (outputOf b k).toNat < 2 ^ 64) :
    Exactly b k r (refund b k r) ↔ Unclamped b k r := by
  have hdebit := Account.toNat_debit r (creditOf b k)
  have hbalance : (refund b k r).nAccountBalance.toNat =
      r.nAccountBalance.toNat - (creditOf b k).toNat + (outputOf b k).toNat := by
    rw [refund, Account.toNat_credit (by omega), hdebit]
  constructor
  · rintro ⟨hchange, -⟩ ⟨hbelow, hcovered⟩
    have hbalances := hchange hcovered
    omega
  · intro hunclamped
    refine ⟨fun hcovered => ?_, fun hcredits houtputs => ?_⟩
    · have habove : ¬ r.nAccountBalance.toNat < (creditOf b k).toNat :=
        fun hbelow => hunclamped ⟨hbelow, hcovered⟩
      omega
    · simp [refund, creditOf_of_notMem hcredits, outputOf_of_notMem houtputs]

theorem exactly_refunded_iff {db : Database Bytes Account} (hkeyed : db.WellKeyed)
    (hr : db.mapRecords[k]? = some r)
    (hfits : r.nAccountBalance.toNat + (outputOf b k).toNat < 2 ^ 64) :
    Exactly b k r (refunded db b k r) ↔ Refundable db b k r := by
  rw [refunded, Refundable]
  split_ifs with hk hkey
  · cases replacement db b with
    | some q => exact Iff.rfl
    | none => exact exactly_refund_iff hfits
  · exact exactly_refund_iff hfits
  · obtain rfl := (hkeyed k r hr).resolve_left hkey
    have hzero : (Record.blank : Account).nAccountBalance.toNat = 0 := rfl
    constructor
    · rintro ⟨hchange, -⟩
      rw [hzero] at hchange
      omega
    · intro hle
      refine ⟨fun hcovered => ?_, fun _ _ => rfl⟩
      rw [hzero] at hcovered ⊢
      omega

end Exact

/-- Whatever calls the account database was built by, a refund changes every balance by the
amounts of the block exactly if no credits are clamped away that balance and output cover, and
foreign keys replace nothing. -/
theorem refundsExactly_iff [Target] {s : DataRegistry} {hashBlock : Uint1024} {b : Block}
    {history : Reactive.History (DatabaseFile.State Bytes Account) (DatabaseFile.Call Bytes Account)
      (DatabaseFile.Answer Bytes Account)} {file : Option Bytes}
    (hrun : DatabaseFile.CallRun history ⟨s.mAccountDb, file⟩)
    (hblock : s.mBlockDb.mapRecords[hashBlock]? = some b) (hvalue : b.nCoinbaseValue ≠ 0)
    (hfits : ∀ k r, s.account? k = some r →
      r.nAccountBalance.toNat + (outputOf b k).toNat < 2 ^ 64) :
    RefundsExactly b s (exec (refundPayouts hashBlock) s).2 ↔
      ∀ k r, s.account? k = some r → Refundable s.mAccountDb b k r := by
  have hkeyed : s.mAccountDb.WellKeyed := DatabaseFile.wellKeyed_of_run hrun
  refine forall_congr' fun k => forall_congr' fun r => forall_congr' fun hr => ?_
  rw [account_refundPayouts hkeyed hblock hvalue hr]
  simp only [Option.some.injEq, exists_eq_left']
  exact exactly_refunded_iff hkeyed hr (hfits k r hr)

section Orphan

attribute [local instance] Target.masking

def orphan : Block :=
  { Block.new 0 with
    nCoinbaseValue := 8
    cCoinbase := ((Coinbase.empty.reset 8).addTransaction [65] 8).2
    cCredits := Credits.empty.addCredit [65] 10 }

def orphaned (nAccountBalance : UInt64) : DataRegistry :=
  init ⟨0, 0, false⟩ (Database.updateRecord .empty orphan)
    (Database.updateRecord .empty { Account.new [65] with nAccountBalance := nAccountBalance })

theorem orphaned_built (nAccountBalance : UInt64) : DatabaseFile.CallRun
    [⟨⟨.empty, none⟩, .updateRecord { Account.new [65] with nAccountBalance := nAccountBalance },
      ⟨(orphaned nAccountBalance).mAccountDb, none⟩, []⟩]
    ⟨(orphaned nAccountBalance).mAccountDb, none⟩ :=
  .next (.start rfl) rfl

theorem orphaned_account {nAccountBalance : UInt64} {k : Bytes} {r : Account}
    (hr : (orphaned nAccountBalance).account? k = some r) :
    k = [65] ∧ r = { Account.new [65] with nAccountBalance := nAccountBalance } := by
  simp only [account?, orphaned, init, Database.find_updateRecord] at hr
  split_ifs at hr with hk
  · exact ⟨hk.symm, (Option.some.inj hr).symm⟩
  · simp [Database.empty] at hr

theorem orphaned_block (nAccountBalance : UInt64) :
    (orphaned nAccountBalance).mBlockDb.mapRecords[(0 : Uint1024)]? = some orphan := by
  rw [orphaned, init, Database.find_updateRecord]
  exact if_pos rfl

theorem orphaned_fits (nAccountBalance : UInt64) (hfits : nAccountBalance.toNat + 8 < 2 ^ 64) :
    ∀ k r, (orphaned nAccountBalance).account? k = some r →
      r.nAccountBalance.toNat + (outputOf orphan k).toNat < 2 ^ 64 := by
  intro k r hr
  obtain ⟨rfl, rfl⟩ := orphaned_account hr
  have houtput : (outputOf orphan [65]).toNat = 8 := by decide +kernel
  rw [houtput]
  exact hfits

theorem orphaned_refundsExactly_iff :
    RefundsExactly orphan (orphaned 20) (exec (refundPayouts 0) (orphaned 20)).2 ↔
      ∀ k r, (orphaned 20).account? k = some r → Refundable (orphaned 20).mAccountDb orphan k r :=
  refundsExactly_iff (orphaned_built 20) (orphaned_block 20) (by decide +kernel)
    (orphaned_fits 20 (by decide))

/-- A balance of 5 loses 5 of the 10 credits and gains the whole output: 8 in place of 3. -/
theorem orphaned_overpaid : ¬ ∀ [Target] (s : DataRegistry) (hashBlock : Uint1024)
    (b : Block) (history : Reactive.History (DatabaseFile.State Bytes Account)
      (DatabaseFile.Call Bytes Account) (DatabaseFile.Answer Bytes Account)) (file : Option Bytes),
    DatabaseFile.CallRun history ⟨s.mAccountDb, file⟩ →
    s.mBlockDb.mapRecords[hashBlock]? = some b → b.nCoinbaseValue ≠ 0 →
    (∀ k r, s.account? k = some r →
      r.nAccountBalance.toNat + (outputOf b k).toNat < 2 ^ 64) →
    RefundsExactly b s (exec (refundPayouts hashBlock) s).2 := by
  intro h
  have hrefunds := h (orphaned 5) 0 orphan _ _ (orphaned_built 5) (orphaned_block 5)
    (by decide +kernel) (orphaned_fits 5 (by decide))
  obtain ⟨r', hr', hexactly⟩ := hrefunds [65] _ (by
    rw [account?, orphaned, init, Database.find_updateRecord]
    exact if_pos rfl)
  have hbalance : ((exec (refundPayouts 0) (orphaned 5)).2.account? [65]).map (·.nAccountBalance) =
      some 8 := by decide +kernel
  have hchange := hexactly.change (by decide +kernel)
  rw [hr', Option.map_some, Option.some_inj] at hbalance
  rw [hbalance] at hchange
  revert hchange
  decide +kernel

end Orphan

end PayoutManager

end NexusPool
