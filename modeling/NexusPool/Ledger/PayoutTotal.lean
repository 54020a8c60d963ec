import NexusPool.Ledger.Refund

/-!
# What a payout adds to all balances together

The reward without the fee is handed out as the bonus, the credits and the remainder, and what
the coinbase paid is taken off. Added up over all accounts, the balances change by the one minus
the other.
-/

namespace NexusPool

open Concurrent DataRegistry
open Std (ExtTreeMap)

namespace PayoutManager

section Total

variable (s : DataRegistry) (reward : UInt64) (lastBlockfinder : Bytes)

def totalBalance : ℕ := s.mAccountDb.sumOver fun r => r.nAccountBalance.toNat

/-- What the deduction takes off an account that held `balance` and the bonus: the output of the
coinbase, but no more than there is. -/
def deduction (k : Bytes) (balance : ℕ) : ℕ :=
  min (balance + onlyFinder lastBlockfinder k (finderPart s reward lastBlockfinder))
    (s.mCoinbase.mapOutputs.getD k 0).toNat

/-- What is taken off an account, if there is one. -/
def takenOff (k : Bytes) : ℕ :=
  ((s.account? k).map fun r => deduction s reward lastBlockfinder k r.nAccountBalance.toNat).getD 0

/-- What is taken off all accounts. Without an output it is nothing. -/
def deducted : ℕ := (s.mAccountDb.getKeys.map (takenOff s reward lastBlockfinder)).sum

/-- No balance of the payout leaves the 64 bits, neither with the bonus nor at the end. -/
structure BalancesFit : Prop where
  bonus : ∀ k r, s.account? k = some r → r.nAccountBalance.toNat +
    onlyFinder lastBlockfinder k (finderPart s reward lastBlockfinder) < 2 ^ 64
  final : ∀ k r, s.account? k = some r → r.nAccountBalance.toNat +
    onlyFinder lastBlockfinder k (finderPart s reward lastBlockfinder) -
      (s.mCoinbase.mapOutputs.getD k 0).toNat + sharePart s reward lastBlockfinder r +
    onlyFinder lastBlockfinder k
      (sharedPart s reward lastBlockfinder - sharedOut s reward lastBlockfinder) < 2 ^ 64

variable {s reward lastBlockfinder}

/-! ### The accounts afterwards -/

/-- Nobody found the block: the remainder goes to an account of its own, under the empty name. -/
theorem account_updateBalances_nil (hown : s.mAccountDb.OwnKeys) (hnone : s.account? [] = none)
    (hashSubmitBlock : Uint1024) (k : Bytes) :
    (exec (updateBalances reward hashSubmitBlock []) s).2.account? k =
      match s.account? k with
      | some r => some (settle s reward [] k r)
      | none =>
        if k = [] ∧ sharedReward s reward [] > totalReward s reward []
        then some ((Account.new []).credit (remainder s reward [])) else none := by
  have hfinder : ([] : Bytes) = [] ∨ s.mAccountDb.hasKey [] := .inl rfl
  have hkept := sharesAt_afterBonus reward (filed_of_finder hown hfinder)
  have hshared := payShares_account reward hown hfinder
  have hpaid := hshared k
  rw [account?] at hpaid
  have hsettle {r : Account} (hr : s.account? k = some r) :
      shared s reward [] k r = settle s reward [] k r := by
    have hk : k ≠ [] := by
      rintro rfl
      rw [hnone] at hr
      cases hr
    simp [shared, settle, toFinder, hk]
  rw [exec_updateBalances_eq, account?, afterRemainder, payShares_total reward hkept hown.wellKeyed,
    remainder]
  by_cases hrem : sharedReward s reward [] > totalReward s reward []
  · have habsent := hshared []
    rw [hnone, Option.map_none] at habsent
    simp only [if_pos hrem]
    rw [Database.find_modifyRecord_of_none habsent]
    by_cases hk : k = []
    · subst hk
      simp [hnone, hrem, Account.new]
    · have hblank : Record.cKey ((Record.blank : Account).credit
          (sharedReward s reward [] - totalReward s reward [])) ≠ k := Ne.symm hk
      rw [if_neg hblank, if_neg (Ne.symm hk), hpaid]
      cases hr : s.account? k with
      | some r => exact congrArg some (hsettle hr)
      | none => simp [hk]
  · simp only [if_neg hrem]
    rw [hpaid]
    cases hr : s.account? k with
    | some r => exact congrArg some (hsettle hr)
    | none => simp [hrem]

/-- A finder without an account, which only an empty one may be, gets one for the remainder. -/
theorem account_updateBalances (hown : s.mAccountDb.OwnKeys)
    (hfinder : lastBlockfinder = [] ∨ s.mAccountDb.hasKey lastBlockfinder)
    (hashSubmitBlock : Uint1024) (k : Bytes) :
    (exec (updateBalances reward hashSubmitBlock lastBlockfinder) s).2.account? k =
      match s.account? k with
      | some r => some (settle s reward lastBlockfinder k r)
      | none =>
        if k = lastBlockfinder ∧
          sharedReward s reward lastBlockfinder > totalReward s reward lastBlockfinder
        then some ((Account.new []).credit (remainder s reward lastBlockfinder)) else none := by
  by_cases hkey : s.mAccountDb.hasKey lastBlockfinder
  · rw [(exec_updateBalances reward hashSubmitBlock hown hkey).account k]
    cases hr : s.account? k with
    | some r => rfl
    | none =>
      have hne : k ≠ lastBlockfinder := by
        rintro rfl
        obtain ⟨r, hr'⟩ := Database.hasKey_iff.mp hkey
        rw [account?, hr'] at hr
        cases hr
      simp [hne]
  · obtain rfl := hfinder.resolve_right hkey
    have hnone : s.account? [] = none := by
      cases hr : s.account? [] with
      | none => rfl
      | some r => exact absurd (Database.hasKey_iff.mpr ⟨r, hr⟩) hkey
    exact account_updateBalances_nil hown hnone hashSubmitBlock k

theorem toNat_settle (hweight : roundWeight s < 2 ^ 64)
    (hfits : BalancesFit s reward lastBlockfinder)
    {k : Bytes} {r : Account} (hr : s.account? k = some r) :
    (settle s reward lastBlockfinder k r).nAccountBalance.toNat +
        deduction s reward lastBlockfinder k r.nAccountBalance.toNat =
      r.nAccountBalance.toNat + sharePart s reward lastBlockfinder r +
        (onlyFinder lastBlockfinder k (finderPart s reward lastBlockfinder) +
          onlyFinder lastBlockfinder k
            (sharedPart s reward lastBlockfinder - sharedOut s reward lastBlockfinder)) := by
  have hbonus := hfits.bonus k r hr
  have hfinal := hfits.final k r hr
  rw [← toNat_bonus, ← toNat_toFinder] at hbonus hfinal ⊢
  rw [← toNat_remainder hweight, ← toNat_toFinder, ← toNat_shareOf hweight] at hfinal ⊢
  rw [deduction, ← toNat_bonus, ← toNat_toFinder]
  rw [settle, Account.toNat_payout hbonus hfinal]
  omega

/-! ### The sum over all accounts -/

/-- What an account holds, and nothing where there is none. -/
def held (s : DataRegistry) (k : Bytes) : ℕ :=
  ((s.account? k).map fun r => r.nAccountBalance.toNat).getD 0

def earnedShare (s : DataRegistry) (reward : UInt64) (lastBlockfinder k : Bytes) : ℕ :=
  ((s.account? k).map (sharePart s reward lastBlockfinder)).getD 0

section Conserved

variable (hown : s.mAccountDb.OwnKeys)
  (hfinder : lastBlockfinder = [] ∨ s.mAccountDb.hasKey lastBlockfinder)
  (hweight : roundWeight s < 2 ^ 64) (hfits : BalancesFit s reward lastBlockfinder)
include hown hfinder hweight

include hfits in
theorem held_updateBalances (hashSubmitBlock : Uint1024) {k : Bytes}
    (hk : k ∈ s.mAccountDb.getKeys ∨ k = lastBlockfinder) :
    held (exec (updateBalances reward hashSubmitBlock lastBlockfinder) s).2 k +
        takenOff s reward lastBlockfinder k =
      held s k + earnedShare s reward lastBlockfinder k +
        (onlyFinder lastBlockfinder k (finderPart s reward lastBlockfinder) +
          onlyFinder lastBlockfinder k
            (sharedPart s reward lastBlockfinder - sharedOut s reward lastBlockfinder)) := by
  have haccount := @account_updateBalances s reward lastBlockfinder hown hfinder hashSubmitBlock k
  rw [held, haccount, takenOff, held, earnedShare]
  cases hr : s.account? k with
  | some r => exact toNat_settle hweight hfits hr
  | none =>
    obtain rfl : k = lastBlockfinder := by
      rcases hk with hmem | heq
      · obtain ⟨r, hr'⟩ := Database.mem_getKeys.mp hmem
        rw [account?, hr'] at hr
        cases hr
      · exact heq
    have hempty : k = [] := by
      refine hfinder.resolve_right fun hkey => ?_
      obtain ⟨r, hr'⟩ := Database.hasKey_iff.mp hkey
      rw [account?, hr'] at hr
      cases hr
    subst hempty
    have hrest : (remainder s reward []).toNat = sharedPart s reward [] - sharedOut s reward [] :=
      toNat_remainder hweight
    have hnobonus : finderPart s reward [] = 0 := if_pos rfl
    rw [hnobonus, ← hrest]
    by_cases hrem : sharedReward s reward [] > totalReward s reward []
    · simp [hrem, onlyFinder, Account.credit, Account.new]
    · have hzero : remainder s reward [] = 0 := if_neg hrem
      simp [hrem, onlyFinder, hzero]

include hfits in
/-- A payout hands out the reward without the fee exactly once: over all accounts, the balances
gain it and lose what the coinbase paid. -/
theorem payout_conserves (hashSubmitBlock : Uint1024) :
    totalBalance (exec (updateBalances reward hashSubmitBlock lastBlockfinder) s).2 +
        deducted s reward lastBlockfinder = totalBalance s + pot s reward ∧
      (bonus s reward lastBlockfinder).toNat + (totalReward s reward lastBlockfinder).toNat +
        (remainder s reward lastBlockfinder).toNat = pot s reward := by
  let keys : Finset Bytes := insert lastBlockfinder s.mAccountDb.getKeys.toFinset
  have haccount := @account_updateBalances s reward lastBlockfinder hown hfinder hashSubmitBlock
  have heach : ∀ k ∈ keys, _ := fun k hk => held_updateBalances hown hfinder hweight hfits
    hashSubmitBlock ((Finset.mem_insert.mp hk).symm.imp_left List.mem_toFinset.mp)
  have hsum := Finset.sum_congr rfl heach
  generalize (exec (updateBalances reward hashSubmitBlock lastBlockfinder) s).2 = s' at *
  have hmem : ∀ k ∈ s.mAccountDb.getKeys, k ∈ keys := fun k hk =>
    Finset.mem_insert_of_mem (List.mem_toFinset.mpr hk)
  have hmem' : ∀ k ∈ s'.mAccountDb.getKeys, k ∈ keys := by
    intro k hk
    by_contra hnot
    obtain ⟨hne, hnew⟩ := not_or.mp (Finset.mem_insert.not.mp hnot)
    obtain ⟨r, hr⟩ := Database.mem_getKeys.mp hk
    have hnone := haccount k
    rw [account?_of_notMem (List.mem_toFinset.not.mp hnew)] at hnone
    simp only [hne, false_and, if_false] at hnone
    rw [account?, hr] at hnone
    cases hnone
  have hbefore : totalBalance s = ∑ k ∈ keys, held s k := s.mAccountDb.sumOver_eq_sum _ hmem
  have hafter : totalBalance s' = ∑ k ∈ keys, held s' k := s'.mAccountDb.sumOver_eq_sum _ hmem'
  have hshares : sharedOut s reward lastBlockfinder =
      ∑ k ∈ keys, earnedShare s reward lastBlockfinder k := s.mAccountDb.sumOver_eq_sum _ hmem
  have hdeducted : deducted s reward lastBlockfinder =
      ∑ k ∈ keys, takenOff s reward lastBlockfinder k := by
    refine Database.sum_getKeys (fun k hk => ?_) hmem
    rw [takenOff, account?_of_notMem hk]
    rfl
  have honly (amount : ℕ) : ∑ k ∈ keys, onlyFinder lastBlockfinder k amount = amount := by
    simp only [onlyFinder]
    rw [Finset.sum_ite_eq', if_pos (Finset.mem_insert_self _ _)]
  have hle : sharedOut s reward lastBlockfinder ≤ sharedPart s reward lastBlockfinder :=
    sharedOut_le
  have hpart : finderPart s reward lastBlockfinder + sharedPart s reward lastBlockfinder =
      pot s reward := by
    rw [sharedPart, finderPart]
    split_ifs <;> omega
  constructor
  · simp only [Finset.sum_add_distrib] at hsum
    rw [honly, honly, ← hafter, ← hdeducted, ← hbefore, ← hshares] at hsum
    omega
  · rw [toNat_bonus, toNat_totalReward hweight, toNat_remainder hweight]
    omega

end Conserved

end Total

/-! ### A payout of the pool with one account -/

theorem soloPool_balancesFit : BalancesFit (soloPool 3) 100 [65] where
  bonus k r hr := (soloPool_noWrap.account k r hr).bonus
  final k r hr := (soloPool_noWrap.account k r hr).remainder

theorem soloPool_conserves :
    totalBalance (exec (updateBalances 100 0 [65]) (soloPool 3)).2 +
      deducted (soloPool 3) 100 [65] =
        totalBalance (soloPool 3) + pot (soloPool 3) 100 ∧
      (bonus (soloPool 3) 100 [65]).toNat + (totalReward (soloPool 3) 100 [65]).toNat +
        (remainder (soloPool 3) 100 [65]).toNat = pot (soloPool 3) 100 :=
  payout_conserves (soloPool_ownKeys 3) (.inr (by decide)) (by decide) soloPool_balancesFit 0

end PayoutManager

end NexusPool
