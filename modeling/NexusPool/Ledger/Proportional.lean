import NexusPool.Ledger.RefundExact

/-!
# When the credits are proportional to the shares

The sum of all shares is a 64-bit number, and the credit of an account passes through 32 bits.
Where both fit, every account is credited its part of the shared reward, rounded down.
-/

namespace NexusPool

open Concurrent DataRegistry
open Std (ExtTreeMap)

namespace PayoutManager

section Exact

variable (s : DataRegistry) (reward : UInt64) (lastBlockfinder : Bytes)

/-- The part of the shared reward that the shares of an account are of all shares, rounded down. -/
def exactShare (r : Account) : ℕ :=
  r.nRoundShares.toNat * sharedPart s reward lastBlockfinder / roundWeight s

/-- An account after a payout of exact shares. What these leave goes to the finder. -/
def proportioned (k : Bytes) (r : Account) : Account :=
  (((r.credit (toFinder lastBlockfinder k (bonus s reward lastBlockfinder))).debit
    (s.mCoinbase.mapOutputs.getD k 0)).credit
      (UInt64.ofNat (exactShare s reward lastBlockfinder r))).credit
        (toFinder lastBlockfinder k (UInt64.ofNat (sharedPart s reward lastBlockfinder -
          s.mAccountDb.sumOver (exactShare s reward lastBlockfinder))))

/-- The total that `update_balances` divides by is the sum of all shares, every account is credited
its exact share, in the record of the block and in its balance, and more shares earn no less. -/
structure Proportional (hashSubmitBlock : Uint1024) (s' : DataRegistry) : Prop where
  weight : (exec totalWeight
    (exec (payFinder (netReward s reward) lastBlockfinder) s).2).1.toNat = roundWeight s
  credits : ∃ b, s'.mBlockDb.mapRecords[hashSubmitBlock]? = some b ∧
    (∀ k r, s.account? k = some r → (creditOf b k).toNat =
      onlyFinder lastBlockfinder k (finderPart s reward lastBlockfinder) +
        exactShare s reward lastBlockfinder r) ∧
    ∀ k r k' r', s.account? k = some r → s.account? k' = some r' →
      r.nRoundShares ≤ r'.nRoundShares →
      (creditOf b k).toNat - onlyFinder lastBlockfinder k (finderPart s reward lastBlockfinder) ≤
        (creditOf b k').toNat - onlyFinder lastBlockfinder k' (finderPart s reward lastBlockfinder)
  balance : ∀ k r, s.account? k = some r → r.nRoundShares ≠ 0 →
    s'.account? k = some (proportioned s reward lastBlockfinder k r)

/-- The sum of all shares fits in 64 bits and every share of the reward in 32. If the account with
the empty key has shares, then nothing is stored over it: the finder has a record of its own, if
there is one, and no blank record under a foreign key is paid by the coinbase. -/
structure Undistorted : Prop where
  weight : roundWeight s < 2 ^ 64
  credit : ∀ k r, s.account? k = some r → exactShare s reward lastBlockfinder r < 2 ^ 32
  blank : ∀ r, s.account? [] = some r → r.nRoundShares ≠ 0 →
    (lastBlockfinder = [] ∨ s.mAccountDb.filed lastBlockfinder) ∧
      ∀ k ∈ s.mAccountDb.getKeys, k ≠ [] → ¬ displaces s k

end Exact

variable {s : DataRegistry} {reward : UInt64} {lastBlockfinder : Bytes}

/-! ### The shares that the bonus leaves -/

/-- The bonus of a finder without a record of its own goes under the empty key. -/
theorem account_afterBonus_of_unfiled (hkeyed : s.mAccountDb.WellKeyed) (hne : lastBlockfinder ≠ [])
    (hfiled : ¬ s.mAccountDb.filed lastBlockfinder) (k : Bytes) :
    (afterBonus s reward lastBlockfinder).account? k =
      if k = [] then some ((Account.new []).credit (bonus s reward lastBlockfinder))
      else if k = lastBlockfinder then some (Account.new []) else s.account? k := by
  rw [afterBonus, if_neg hne, account?,
    hkeyed.find_modifyRecord_of_unfiled (fun r => r.cKey_credit _) hfiled, cKey_blank]
  simp only [@eq_comm _ k]
  rfl

theorem sharesAt_of_unfiled (hkeyed : s.mAccountDb.WellKeyed) {k : Bytes}
    (hfiled : ¬ s.mAccountDb.filed k) : sharesAt s k = 0 := by
  rw [sharesAt]
  cases hr : s.account? k with
  | none => rfl
  | some r =>
    obtain rfl := (hkeyed k r hr).resolve_left ((Database.filed_of_some hr).not.mp hfiled)
    rfl

theorem sharesAt_afterBonus_of_unfiled (hkeyed : s.mAccountDb.WellKeyed)
    (hne : lastBlockfinder ≠ []) (hfiled : ¬ s.mAccountDb.filed lastBlockfinder) (k : Bytes) :
    sharesAt (afterBonus s reward lastBlockfinder) k = if k = [] then 0 else sharesAt s k := by
  rw [sharesAt, account_afterBonus_of_unfiled hkeyed hne hfiled]
  by_cases hempty : k = []
  · rw [if_pos hempty, if_pos hempty]
    rfl
  · rw [if_neg hempty, if_neg hempty]
    by_cases hk : k = lastBlockfinder
    · rw [if_pos hk, hk, sharesAt_of_unfiled hkeyed hfiled]
      rfl
    · rw [if_neg hk, sharesAt]

theorem roundWeight_eq_sum (s : DataRegistry) {keys : Finset Bytes}
    (hkeys : ∀ k ∈ s.mAccountDb.getKeys, k ∈ keys) :
    roundWeight s = ∑ k ∈ keys, (sharesAt s k).toNat := by
  rw [roundWeight, s.mAccountDb.sumOver_eq_sum _ hkeys]
  refine Finset.sum_congr rfl fun k _ => ?_
  rw [sharesAt, account?]
  cases s.mAccountDb.mapRecords[k]? <;> rfl

theorem roundWeight_afterBonus (hkeyed : s.mAccountDb.WellKeyed) (hne : lastBlockfinder ≠ [])
    (hfiled : ¬ s.mAccountDb.filed lastBlockfinder) :
    roundWeight (afterBonus s reward lastBlockfinder) + (sharesAt s []).toNat = roundWeight s := by
  let keys : Finset Bytes := insert [] (s.mAccountDb.getKeys.toFinset ∪
    (afterBonus s reward lastBlockfinder).mAccountDb.getKeys.toFinset)
  have hbefore : ∀ k ∈ s.mAccountDb.getKeys, k ∈ keys := fun k hk =>
    Finset.mem_insert_of_mem (Finset.mem_union_left _ (List.mem_toFinset.mpr hk))
  have hafter : ∀ k ∈ (afterBonus s reward lastBlockfinder).mAccountDb.getKeys, k ∈ keys :=
    fun k hk => Finset.mem_insert_of_mem (Finset.mem_union_right _ (List.mem_toFinset.mpr hk))
  have hempty : [] ∈ keys := Finset.mem_insert_self _ _
  have hothers : ∀ k ∈ keys.erase [],
      (sharesAt (afterBonus s reward lastBlockfinder) k).toNat = (sharesAt s k).toNat := by
    intro k hk
    rw [sharesAt_afterBonus_of_unfiled hkeyed hne hfiled, if_neg (Finset.ne_of_mem_erase hk)]
  rw [roundWeight_eq_sum _ hafter, roundWeight_eq_sum _ hbefore, ← Finset.add_sum_erase _ _ hempty,
    ← Finset.add_sum_erase _ (fun k => (sharesAt s k).toNat) hempty, Finset.sum_congr rfl hothers,
    sharesAt_afterBonus_of_unfiled hkeyed hne hfiled, if_pos rfl, UInt64.toNat_zero]
  omega

/-- The total is right exactly if it fits and the bonus displaces no shares. -/
theorem toNat_totalShares_afterBonus_iff (hkeyed : s.mAccountDb.WellKeyed) :
    (afterBonus s reward lastBlockfinder).totalShares.toNat = roundWeight s ↔
      roundWeight s < 2 ^ 64 ∧ ∀ k, sharesAt (afterBonus s reward lastBlockfinder) k =
        sharesAt s k := by
  constructor
  · intro htotal
    have hlt := (afterBonus s reward lastBlockfinder).totalShares.toNat_lt
    rw [htotal] at hlt
    refine ⟨hlt, ?_⟩
    by_cases hfinder : lastBlockfinder = [] ∨ s.mAccountDb.filed lastBlockfinder
    · exact sharesAt_afterBonus reward hfinder
    · obtain ⟨hne, hfiled⟩ := not_or.mp hfinder
      have hweight := @roundWeight_afterBonus _ reward _ hkeyed hne hfiled
      have hmod : (afterBonus s reward lastBlockfinder).totalShares.toNat =
          roundWeight (afterBonus s reward lastBlockfinder) % 2 ^ 64 :=
        Database.toNat_sumOver_mod _ _
      have hnone : (sharesAt s []).toNat = 0 := by omega
      intro k
      rw [sharesAt_afterBonus_of_unfiled hkeyed hne hfiled]
      split_ifs with hempty
      · rw [hempty]
        exact (UInt64.toNat_inj.mp hnone).symm
      · rfl
  · rintro ⟨hweight, hkept⟩
    rw [totalShares_afterBonus reward hkept]
    exact s.mAccountDb.toNat_sumOver _ hweight

/-! ### The accounts with shares -/

/-- Away from the empty key, the bonus of a finder is the only thing that the first phase adds to an
account with shares. -/
theorem account_afterBonus_of_shares (hkeyed : s.mAccountDb.WellKeyed) {k : Bytes} {r : Account}
    (hr : s.account? k = some r) (hshares : r.nRoundShares ≠ 0) (hk : k ≠ []) :
    (afterBonus s reward lastBlockfinder).account? k =
      some (r.credit (toFinder lastBlockfinder k (bonus s reward lastBlockfinder))) := by
  by_cases hfinder : lastBlockfinder = [] ∨ s.mAccountDb.filed lastBlockfinder
  · rw [account_afterBonus reward hfinder, hr, Option.map_some]
  · obtain ⟨hne, hfiled⟩ := not_or.mp hfinder
    have hother : k ≠ lastBlockfinder := by
      rintro rfl
      have hnone := sharesAt_of_unfiled hkeyed hfiled
      rw [sharesAt, hr] at hnone
      exact hshares hnone
    rw [account_afterBonus_of_unfiled hkeyed hne hfiled, if_neg hk, if_neg hother, hr, toFinder,
      if_neg hother, Account.credit_zero]

theorem filed_payShares (hkeyed : s.mAccountDb.WellKeyed) {k : Bytes} (hk : k ≠ [])
    (hfinder : lastBlockfinder = [] ∨ s.mAccountDb.filed lastBlockfinder) :
    (payShares s reward lastBlockfinder).2.mAccountDb.filed k = s.mAccountDb.filed k :=
  ((sharing_payShares reward hkeyed).filed k hk).trans (filed_afterBonus reward hfinder k)

/-- The remainder changes no account but the finder's and the one with the empty key. -/
theorem find_afterRemainder_of_ne (hkeyed : s.mAccountDb.WellKeyed) {k : Bytes}
    (hfiled : ¬ (payShares s reward lastBlockfinder).2.mAccountDb.filed lastBlockfinder)
    (hk : k ≠ []) (hne : k ≠ lastBlockfinder) :
    (afterRemainder s reward lastBlockfinder).mapRecords[k]? =
      (payShares s reward lastBlockfinder).2.account? k := by
  have hkeyed' := (@sharing_payShares _ reward lastBlockfinder hkeyed).keyed
  rw [afterRemainder]
  split_ifs
  · rw [hkeyed'.find_modifyRecord_of_unfiled (fun r => r.cKey_credit _) hfiled, cKey_blank,
      if_neg (Ne.symm hk), if_neg (Ne.symm hne)]
    rfl
  · rfl

/-- The account with the empty key: a foreign key that is paid leaves it without shares. -/
theorem account_blank_updateBalances (hkeyed : s.mAccountDb.WellKeyed)
    (hkept : ∀ k, sharesAt (afterBonus s reward lastBlockfinder) k = sharesAt s k)
    (hfinder : lastBlockfinder = [] ∨ s.mAccountDb.filed lastBlockfinder) {r : Account}
    (hr : s.account? [] = some r) :
    (afterRemainder s reward lastBlockfinder).mapRecords[([] : Bytes)]? =
      some (((if s.mAccountDb.getKeys.any fun k => decide (k ≠ []) &&
        displaces s k then Account.new []
        else shared s reward lastBlockfinder [] r)).credit
          (toFinder lastBlockfinder [] (remainder s reward lastBlockfinder))) := by
  have haccount := payShares_account_blank reward hkeyed hfinder
  rw [hr, Option.map_some, ← apply_ite some] at haccount
  have hfiled : (payShares s reward lastBlockfinder).2.mAccountDb.filed lastBlockfinder := by
    by_cases hempty : lastBlockfinder = []
    · rw [hempty]
      subst hempty
      exact (sharing_payShares reward hkeyed).keyed.filed_blank_of_some haccount
    · rw [filed_payShares hkeyed hempty hfinder]
      exact hfinder.resolve_left hempty
  rw [find_afterRemainder reward hfiled (payShares_total reward hkept hkeyed), haccount,
    Option.map_some]

theorem account_of_shares (hkeyed : s.mAccountDb.WellKeyed)
    (hkept : ∀ k, sharesAt (afterBonus s reward lastBlockfinder) k = sharesAt s k) {k : Bytes}
    {r : Account} (hr : s.account? k = some r) (hshares : r.nRoundShares ≠ 0)
    (hblank : k = [] → (lastBlockfinder = [] ∨ s.mAccountDb.filed lastBlockfinder) ∧
      ∀ a ∈ s.mAccountDb.getKeys, a ≠ [] → ¬ displaces s a) :
    (afterRemainder s reward lastBlockfinder).mapRecords[k]? =
      some (settle s reward lastBlockfinder k r) := by
  by_cases hk : k = []
  · subst hk
    obtain ⟨hfinder, hnone⟩ := hblank rfl
    have hany : (s.mAccountDb.getKeys.any fun k => decide (k ≠ []) && displaces s k) = false := by
      rw [List.any_eq_false]
      intro a ha
      by_cases hempty : a = []
      · simp [hempty]
      · simp [hnone a ha hempty]
    rw [account_blank_updateBalances hkeyed hkept hfinder hr, hany]
    rfl
  · have hown : r.cKey = k := by
      rcases hkeyed k r hr with hown | rfl
      · exact hown
      · exact absurd rfl hshares
    have haccount : (payShares s reward lastBlockfinder).2.account? k =
        some (shared s reward lastBlockfinder k r) := by
      rw [payShares, payLoop_account_of_ne (wellKeyed_afterBonus reward hkeyed) hk,
        account_afterBonus_of_shares hkeyed hr hshares hk, mCoinbase_afterBonus,
        totalShares_afterBonus reward hkept]
      rfl
    by_cases hfiled : (payShares s reward lastBlockfinder).2.mAccountDb.filed lastBlockfinder
    · rw [find_afterRemainder reward hfiled (payShares_total reward hkept hkeyed), haccount]
      rfl
    · have hne : k ≠ lastBlockfinder := by
        rintro rfl
        exact hfiled (Database.filed_iff.mpr ⟨_, haccount, hown⟩)
      have hnothing : toFinder lastBlockfinder k (remainder s reward lastBlockfinder) = 0 :=
        if_neg hne
      rw [find_afterRemainder_of_ne hkeyed hfiled hk hne, haccount, settle, hnothing,
        Account.credit_zero]
      rfl

/-! ### Exactness -/

theorem sharePart_eq (s : DataRegistry) (reward : UInt64) (lastBlockfinder : Bytes) (r : Account) :
    sharePart s reward lastBlockfinder r = exactShare s reward lastBlockfinder r % 2 ^ 32 := rfl

theorem toNat_credit_updateBalances (hkeyed : s.mAccountDb.WellKeyed)
    (hkept : ∀ k, sharesAt (afterBonus s reward lastBlockfinder) k = sharesAt s k)
    (hweight : roundWeight s < 2 ^ 64) (hash : Uint1024) {k : Bytes} {r : Account}
    (hr : s.account? k = some r) : (creditOf (payoutBlock s reward lastBlockfinder hash) k).toNat =
      onlyFinder lastBlockfinder k (finderPart s reward lastBlockfinder) +
        exactShare s reward lastBlockfinder r % 2 ^ 32 := by
  have hcredit := payShares_credit reward hkept hkeyed k
  rw [hr, Option.map_some, Option.getD_some] at hcredit
  have hpot : pot s reward < 2 ^ 64 := (netReward s reward).toNat_lt
  have hbonus : onlyFinder lastBlockfinder k (finderPart s reward lastBlockfinder) ≤
      pot s reward * 2 / 100 := by
    rw [onlyFinder, finderPart]
    split_ifs <;> omega
  have hshare := Nat.mod_lt (exactShare s reward lastBlockfinder r) (y := 2 ^ 32) (by norm_num)
  rw [creditOf, payoutBlock, hcredit, UInt64.toNat_add, toNat_toFinder, toNat_bonus,
    toNat_shareOf hweight, sharePart_eq]
  exact Nat.mod_eq_of_lt (by omega)

/-- Shares of the reward that fit in 32 bits are settled as they are. -/
theorem settle_eq_proportioned (hweight : roundWeight s < 2 ^ 64)
    (hcredit : ∀ k r, s.account? k = some r → exactShare s reward lastBlockfinder r < 2 ^ 32)
    {k : Bytes} {r : Account} (hr : s.account? k = some r) :
    settle s reward lastBlockfinder k r = proportioned s reward lastBlockfinder k r := by
  have hshare : shareOf s reward lastBlockfinder r =
      UInt64.ofNat (exactShare s reward lastBlockfinder r) := by
    have hlt := hcredit k r hr
    rw [← UInt64.toNat_inj, toNat_shareOf hweight, sharePart_eq, UInt64.toNat_ofNat',
      Nat.mod_eq_of_lt hlt, Nat.mod_eq_of_lt (by omega)]
  have hout : s.mAccountDb.sumOver (exactShare s reward lastBlockfinder) =
      sharedOut s reward lastBlockfinder := by
    refine congrArg List.sum (List.map_congr_left fun a _ => ?_)
    cases ha : s.mAccountDb.mapRecords[a]? with
    | none => rfl
    | some q =>
      rw [Option.map_some, Option.map_some, Option.getD_some, Option.getD_some, sharePart_eq]
      exact (Nat.mod_eq_of_lt (hcredit a q ha)).symm
  have hrest : remainder s reward lastBlockfinder =
      UInt64.ofNat (sharedPart s reward lastBlockfinder -
      s.mAccountDb.sumOver (exactShare s reward lastBlockfinder)) := by
    have hlt := (remainder s reward lastBlockfinder).toNat_lt
    rw [toNat_remainder hweight] at hlt
    rw [← UInt64.toNat_inj, toNat_remainder hweight, hout, UInt64.toNat_ofNat',
      Nat.mod_eq_of_lt hlt]
  rw [settle, proportioned, hshare, hrest]

theorem exec_totalWeight_payFinder : (exec totalWeight
    (exec (payFinder (netReward s reward) lastBlockfinder) s).2).1 =
      (afterBonus s reward lastBlockfinder).totalShares := by
  rw [exec_payFinder, exec_totalWeight]

theorem find_payoutBlock (hash : Uint1024) :
    (exec (updateBalances reward hash lastBlockfinder) s).2.mBlockDb.mapRecords[hash]? =
      some (payoutBlock s reward lastBlockfinder hash) := by
  rw [exec_updateBalances_eq, Database.find_updateRecord]
  exact if_pos rfl

theorem account_updateBalances_eq (hash : Uint1024) (k : Bytes) :
    (exec (updateBalances reward hash lastBlockfinder) s).2.account? k =
      (afterRemainder s reward lastBlockfinder).mapRecords[k]? := by
  rw [exec_updateBalances_eq]
  rfl

/-- Where nothing is distorted, the payout is proportional. -/
theorem proportional_of_undistorted (hkeyed : s.mAccountDb.WellKeyed) (hash : Uint1024)
    (h : Undistorted s reward lastBlockfinder) : Proportional s reward lastBlockfinder hash
      (exec (updateBalances reward hash lastBlockfinder) s).2 := by
  have hkept : ∀ k, sharesAt (afterBonus s reward lastBlockfinder) k = sharesAt s k := by
    by_cases hfinder : lastBlockfinder = [] ∨ s.mAccountDb.filed lastBlockfinder
    · exact sharesAt_afterBonus reward hfinder
    · obtain ⟨hne, hfiled⟩ := not_or.mp hfinder
      intro k
      rw [sharesAt_afterBonus_of_unfiled hkeyed hne hfiled]
      split_ifs with hempty
      · rw [hempty, sharesAt]
        cases hr : s.account? [] with
        | none => rfl
        | some r =>
          by_contra hshares
          exact hfinder (h.blank r hr (Ne.symm hshares)).1
      · rfl
  have hcredits : ∀ k r, s.account? k = some r →
      (creditOf (payoutBlock s reward lastBlockfinder hash) k).toNat =
        onlyFinder lastBlockfinder k (finderPart s reward lastBlockfinder) +
          exactShare s reward lastBlockfinder r := by
    intro k r hr
    rw [toNat_credit_updateBalances hkeyed hkept h.weight hash hr,
      Nat.mod_eq_of_lt (h.credit k r hr)]
  refine ⟨?_, ⟨_, find_payoutBlock hash, hcredits, fun k r k' r' hr hr' hle => ?_⟩,
    fun k r hr hshares => ?_⟩
  · rw [exec_totalWeight_payFinder]
    exact (toNat_totalShares_afterBonus_iff hkeyed).mpr ⟨h.weight, hkept⟩
  · rw [hcredits k r hr, hcredits k' r' hr', Nat.add_sub_cancel_left, Nat.add_sub_cancel_left]
    exact Nat.div_le_div_right (Nat.mul_le_mul_right _ (UInt64.le_iff_toNat_le.mp hle))
  · rw [account_updateBalances_eq, ← settle_eq_proportioned h.weight h.credit hr]
    refine account_of_shares hkeyed hkept hr hshares ?_
    rintro rfl
    exact h.blank r hr hshares

theorem undistorted_of_proportional (hkeyed : s.mAccountDb.WellKeyed) (hash : Uint1024)
    (h : Proportional s reward lastBlockfinder hash
      (exec (updateBalances reward hash lastBlockfinder) s).2) :
    Undistorted s reward lastBlockfinder := by
  have htotal := h.weight
  rw [exec_totalWeight_payFinder] at htotal
  obtain ⟨hweight, hkept⟩ := (toNat_totalShares_afterBonus_iff hkeyed).mp htotal
  obtain ⟨b, hb, hcredits, -⟩ := h.credits
  obtain rfl := Option.some.inj ((find_payoutBlock hash).symm.trans hb)
  refine ⟨hweight, fun k r hr => ?_, fun r hr hshares => ?_⟩
  · have hcredit := hcredits k r hr
    rw [toNat_credit_updateBalances hkeyed hkept hweight hash hr] at hcredit
    omega
  · have hfinder : lastBlockfinder = [] ∨ s.mAccountDb.filed lastBlockfinder := by
      by_contra hfinder
      obtain ⟨hne, hfiled⟩ := not_or.mp hfinder
      have hnone := hkept []
      rw [sharesAt_afterBonus_of_unfiled hkeyed hne hfiled, if_pos rfl, sharesAt, hr] at hnone
      exact hshares hnone.symm
    refine ⟨hfinder, fun k hk hne hdisplaces => ?_⟩
    have hany : (s.mAccountDb.getKeys.any fun k => decide (k ≠ []) && displaces s k) = true :=
      List.any_eq_true.mpr ⟨k, hk, by simp [hne, hdisplaces]⟩
    have hbalance := h.balance [] r hr hshares
    rw [account_updateBalances_eq, account_blank_updateBalances hkeyed hkept hfinder hr, hany]
      at hbalance
    have hkeeps := congrArg Account.nRoundShares (Option.some.inj hbalance)
    exact hshares hkeeps.symm

/-- Whatever calls the account database was built by, whoever found the block and whatever the
reward is: the payout is proportional exactly if no sum or share is cut and nothing is stored over
the shares of the account with the empty key. -/
theorem proportional_iff [Target] {s : DataRegistry}
    {history : Reactive.History (DatabaseFile.State Bytes Account) (DatabaseFile.Call Bytes Account)
      (DatabaseFile.Answer Bytes Account)} {file : Option Bytes}
    (hrun : DatabaseFile.CallRun history ⟨s.mAccountDb, file⟩) (reward : UInt64) (hash : Uint1024)
    (lastBlockfinder : Bytes) : Proportional s reward lastBlockfinder hash
      (exec (updateBalances reward hash lastBlockfinder) s).2 ↔
        Undistorted s reward lastBlockfinder := by
  have hkeyed : s.mAccountDb.WellKeyed := DatabaseFile.wellKeyed_of_run hrun
  exact ⟨undistorted_of_proportional hkeyed hash, proportional_of_undistorted hkeyed hash⟩

section Sole

attribute [local instance] Target.masking

def soleMiner : DataRegistry :=
  init ⟨0, 0, false⟩ .empty
    (Database.updateRecord .empty { Account.new [65] with nRoundShares := 1 })

theorem soleMiner_built : DatabaseFile.CallRun
    [⟨⟨.empty, none⟩, .updateRecord { Account.new [65] with nRoundShares := 1 },
      ⟨soleMiner.mAccountDb, none⟩, []⟩] ⟨soleMiner.mAccountDb, none⟩ :=
  .next (.start rfl) rfl

theorem soleMiner_proportional_iff : Proportional soleMiner 100 [] 0
    (exec (updateBalances 100 0 []) soleMiner).2 ↔ Undistorted soleMiner 100 [] :=
  proportional_iff soleMiner_built 100 0 []

/-- The one account with a share should get the whole reward of `2 ^ 32`, and is credited
nothing. -/
theorem soleMiner_cut : ¬ ∀ [Target] (s : DataRegistry) (history : Reactive.History
    (DatabaseFile.State Bytes Account) (DatabaseFile.Call Bytes Account)
    (DatabaseFile.Answer Bytes Account)) (file : Option Bytes),
    DatabaseFile.CallRun history ⟨s.mAccountDb, file⟩ →
    ∀ (reward : UInt64) (hash : Uint1024) (lastBlockfinder : Bytes),
      Proportional s reward lastBlockfinder hash
        (exec (updateBalances reward hash lastBlockfinder) s).2 := by
  intro h
  obtain ⟨b, hb, hcredits, -⟩ := (h soleMiner _ _ soleMiner_built 4294967296 0 []).credits
  have hentered : ((exec (updateBalances 4294967296 0 []) soleMiner).2.mBlockDb.mapRecords[
      (0 : Uint1024)]?).map (fun b => creditOf b [65]) = some 0 := by decide +kernel
  rw [hb, Option.map_some, Option.some_inj] at hentered
  have hcredit := hcredits [65] { Account.new [65] with nRoundShares := 1 } (by decide +kernel)
  rw [hentered] at hcredit
  revert hcredit
  decide +kernel

end Sole

end PayoutManager

end NexusPool
