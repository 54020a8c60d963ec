import NexusPool.Ledger.PayoutRun
import Mathlib.Data.UInt

/-!
# When a refund undoes a payout

The amounts of a payout are restated here in natural numbers, from the records before it.
A refund takes back what was entered in the credits and returns every output in full. It
misses the remainder given to the block finder, and it returns more than was deducted
where an output exceeds the balance. An output to an address without an account is
returned to the account with the empty key.
-/

namespace NexusPool

open Concurrent DataRegistry PayoutManager
open Std (ExtTreeMap)

/-! ### The amounts in natural numbers -/

theorem toNat_sum (xs : List UInt64) : xs.sum.toNat = (xs.map UInt64.toNat).sum % 2 ^ 64 := by
  induction xs with
  | nil => rfl
  | cons x xs ih =>
    rw [List.sum_cons, UInt64.toNat_add, ih, List.map_cons, List.sum_cons, Nat.add_mod_mod]

theorem Database.toNat_sumOver_mod {K R : Type} [Ord K] [Std.TransOrd K] [Std.LawfulEqOrd K]
    (db : Database K R) (g : R → UInt64) :
    (db.sumOver g).toNat = (db.sumOver fun r => (g r).toNat) % 2 ^ 64 := by
  have hmap : ((db.getKeys.map fun k => (db.mapRecords[k]?.map g).getD 0).map UInt64.toNat) =
      db.getKeys.map fun k => (db.mapRecords[k]?.map fun r => (g r).toNat).getD 0 := by
    rw [List.map_map]
    refine List.map_congr_left fun k _ => ?_
    cases hr : db.mapRecords[k]? <;> simp [hr]
  rw [Database.sumOver, toNat_sum, hmap]
  rfl

theorem Database.toNat_sumOver {K R : Type} [Ord K] [Std.TransOrd K] [Std.LawfulEqOrd K]
    (db : Database K R) (g : R → UInt64) (h : (db.sumOver fun r => (g r).toNat) < 2 ^ 64) :
    (db.sumOver g).toNat = db.sumOver fun r => (g r).toNat := by
  rw [db.toNat_sumOver_mod, Nat.mod_eq_of_lt h]

namespace Account

theorem toNat_credit {r : Account} {v : UInt64}
    (h : r.nAccountBalance.toNat + v.toNat < 2 ^ 64) :
    (r.credit v).nAccountBalance.toNat = r.nAccountBalance.toNat + v.toNat := by
  rw [credit, UInt64.toNat_add, Nat.mod_eq_of_lt h]

theorem toNat_debit (r : Account) (v : UInt64) :
    (r.debit v).nAccountBalance.toNat = r.nAccountBalance.toNat - v.toNat := by
  by_cases h : v > r.nAccountBalance
  · have hlt := UInt64.lt_iff_toNat_lt.mp h
    simp only [debit, h, if_true, UInt64.toNat_zero]
    omega
  · have hle : v ≤ r.nAccountBalance := UInt64.not_lt.mp h
    simp only [debit, h, if_false]
    exact UInt64.toNat_sub_of_le _ _ hle

theorem toNat_payout {r : Account} {b o c m : UInt64}
    (hbonus : r.nAccountBalance.toNat + b.toNat < 2 ^ 64)
    (hremainder : r.nAccountBalance.toNat + b.toNat - o.toNat + c.toNat + m.toNat < 2 ^ 64) :
    ((((r.credit b).debit o).credit c).credit m).nAccountBalance.toNat =
      r.nAccountBalance.toNat + b.toNat - o.toNat + c.toNat + m.toNat := by
  have h₁ := toNat_credit hbonus
  have h₂ := toNat_debit (r.credit b) o
  rw [h₁] at h₂
  have h₃ := @toNat_credit ((r.credit b).debit o) c (by omega)
  rw [h₂] at h₃
  have h₄ := @toNat_credit (((r.credit b).debit o).credit c) m (by omega)
  rw [h₄, h₃]

end Account

namespace PayoutManager

theorem toNat_finderBonus (reward : UInt64) :
    (finderBonus reward).toNat = reward.toNat * 2 / 100 := by
  have hlt := reward.toNat_lt
  have hbonus : truncate (reward.toNat * (2 / 100)) = reward.toNat * 2 / 100 := by
    rw [truncate, mul_div_assoc']
    exact_mod_cast Nat.floor_div_eq_div (K := ℚ) (reward.toNat * 2) 100
  rw [finderBonus, hbonus]
  simp only [Nat.toUInt64, UInt64.toNat_ofNat']
  omega

theorem toNat_shareCredit (nTotalWeight reward nRoundShares : UInt64) :
    (shareCredit nTotalWeight reward nRoundShares).toNat =
      nRoundShares.toNat * reward.toNat / nTotalWeight.toNat % 2 ^ 32 := by
  rw [shareCredit, truncate_div_mul]
  simp [Nat.toUInt32]

section Amounts

variable (s : DataRegistry) (reward : UInt64) (lastBlockfinder : Bytes)

/-- The reward after the fee, which is taken in 64-bit arithmetic. -/
def pot : ℕ := (reward - reward * s.mConfig.poolFee.toUInt64).toNat

/-- Two percent of the pot for the block finder, if there is one. -/
def finderPart : ℕ := if lastBlockfinder = [] then 0 else pot s reward * 2 / 100

/-- The rest of the pot is shared. -/
def sharedPart : ℕ := pot s reward - finderPart s reward lastBlockfinder

def roundWeight : ℕ := s.mAccountDb.sumOver fun r => r.nRoundShares.toNat

/-- An account gets the part of the shared reward that its weight is of the round's, rounded
down and cut to 32 bits. -/
def sharePart (r : Account) : ℕ :=
  r.nRoundShares.toNat * sharedPart s reward lastBlockfinder / roundWeight s % 2 ^ 32

def sharedOut : ℕ := s.mAccountDb.sumOver (sharePart s reward lastBlockfinder)

/-- The five sums made on one account: balance `a`, bonus `b`, output `o`, credit `c` and
remainder `m`. -/
structure SumsFit (a b o c m : ℕ) : Prop where
  bonus : a + b < 2 ^ 64
  credit : a + b - o + c < 2 ^ 64
  remainder : a + b - o + c + m < 2 ^ 64
  recorded : b + c < 2 ^ 64
  refund : a + b - o + c + m - (b + c) + o < 2 ^ 64

/-- What the block finder alone gets. -/
def onlyFinder (k : Bytes) (amount : ℕ) : ℕ := if k = lastBlockfinder then amount else 0

/-- No 64-bit sum of the payout or of the refund wraps. -/
structure NoWrap : Prop where
  weight : roundWeight s < 2 ^ 64
  credits : sharedOut s reward lastBlockfinder < 2 ^ 64
  account : ∀ k r, s.account? k = some r →
    SumsFit r.nAccountBalance.toNat
      (onlyFinder lastBlockfinder k (finderPart s reward lastBlockfinder))
      (s.mCoinbase.mapOutputs.getD k 0).toNat (sharePart s reward lastBlockfinder r)
      (onlyFinder lastBlockfinder k
        (sharedPart s reward lastBlockfinder - sharedOut s reward lastBlockfinder))

variable {s reward lastBlockfinder}

theorem toNat_bonus :
    (bonus s reward lastBlockfinder).toNat = finderPart s reward lastBlockfinder := by
  rw [bonus, finderPart]
  split_ifs
  · rfl
  · exact toNat_finderBonus _

theorem toNat_sharedReward :
    (sharedReward s reward lastBlockfinder).toNat = sharedPart s reward lastBlockfinder := by
  have hle : bonus s reward lastBlockfinder ≤ netReward s reward := by
    rw [UInt64.le_iff_toNat_le, toNat_bonus, finderPart]
    have hpot : pot s reward = (netReward s reward).toNat := rfl
    split_ifs <;> omega
  rw [sharedReward, UInt64.toNat_sub_of_le _ _ hle, toNat_bonus]
  rfl

theorem toNat_shareOf (hweight : roundWeight s < 2 ^ 64) (r : Account) :
    (shareOf s reward lastBlockfinder r).toNat = sharePart s reward lastBlockfinder r := by
  have htotal : s.totalShares.toNat = roundWeight s := s.mAccountDb.toNat_sumOver _ hweight
  rw [shareOf, toNat_shareCredit, toNat_sharedReward, htotal]
  rfl

/-- Rounded down, the shares of an amount do not exceed it. -/
theorem sum_share_le (weights : List ℕ) (amount : ℕ) :
    (weights.map fun w => w * amount / weights.sum).sum ≤ amount := by
  have hmul (total : ℕ) : ∀ ws : List ℕ,
      total * (ws.map fun w => w * amount / total).sum ≤ ws.sum * amount := by
    intro ws
    induction ws with
    | nil => simp
    | cons w ws ih =>
      have hfloor := Nat.mul_div_le (w * amount) total
      simp only [List.map_cons, List.sum_cons, Nat.mul_add, Nat.add_mul]
      omega
  rcases Nat.eq_zero_or_pos weights.sum with hzero | hpos
  · simp [hzero]
  · exact Nat.le_of_mul_le_mul_left (hmul weights.sum weights) hpos

/-- The credits never exceed what is shared. -/
theorem sharedOut_le :
    sharedOut s reward lastBlockfinder ≤ sharedPart s reward lastBlockfinder := by
  let weight (k : Bytes) : ℕ := ((s.account? k).map fun r => r.nRoundShares.toNat).getD 0
  have hshares := sum_share_le (s.mAccountDb.getKeys.map weight)
    (sharedPart s reward lastBlockfinder)
  refine le_trans ?_ hshares
  rw [sharedOut, Database.sumOver, List.map_map]
  apply List.sum_le_sum
  intro k _
  change ((s.account? k).map (sharePart s reward lastBlockfinder)).getD 0 ≤
    weight k * sharedPart s reward lastBlockfinder / roundWeight s
  cases hr : s.account? k with
  | none => exact Nat.zero_le _
  | some r =>
    simp only [weight, hr, Option.map_some, Option.getD_some]
    exact Nat.mod_le _ _

theorem toNat_totalReward (hweight : roundWeight s < 2 ^ 64) :
    (totalReward s reward lastBlockfinder).toNat = sharedOut s reward lastBlockfinder := by
  have hparts : (fun r => (shareOf s reward lastBlockfinder r).toNat) =
      sharePart s reward lastBlockfinder := funext (toNat_shareOf hweight)
  rw [totalReward, Database.toNat_sumOver, hparts]
  · rfl
  · have hle : sharedOut s reward lastBlockfinder ≤ sharedPart s reward lastBlockfinder :=
      sharedOut_le
    have hlt := (sharedReward s reward lastBlockfinder).toNat_lt
    rw [toNat_sharedReward] at hlt
    rw [hparts]
    exact lt_of_le_of_lt hle hlt

theorem toNat_remainder (hweight : roundWeight s < 2 ^ 64) :
    (remainder s reward lastBlockfinder).toNat =
      sharedPart s reward lastBlockfinder - sharedOut s reward lastBlockfinder := by
  rw [← toNat_sharedReward, ← toNat_totalReward hweight, remainder]
  split_ifs with hrem
  · exact UInt64.toNat_sub_of_le _ _ (UInt64.le_of_lt hrem)
  · have hle := UInt64.le_iff_toNat_le.mp (UInt64.not_lt.mp hrem)
    rw [UInt64.toNat_zero]
    omega

theorem toNat_toFinder (k : Bytes) (v : UInt64) :
    (toFinder lastBlockfinder k v).toNat = onlyFinder lastBlockfinder k v.toNat := by
  rw [toFinder, onlyFinder]
  split_ifs <;> rfl

end Amounts

/-- Paid out and refunded, an account has its old balance exactly when the output was
covered by it and no remainder was given. -/
theorem balance_restored_iff {r : Account} {b o c m : UInt64}
    (h : SumsFit r.nAccountBalance.toNat b.toNat o.toNat c.toNat m.toNat) :
    ((((((r.credit b).debit o).credit c).credit m).debit (b + c)).credit o).nAccountBalance =
        r.nAccountBalance ↔ o.toNat ≤ r.nAccountBalance.toNat ∧ m.toNat = 0 := by
  obtain ⟨hbonus, hcredit, hremainder, hrecorded, hrefund⟩ := h
  have h₄ := Account.toNat_payout hbonus hremainder
  have h₅ := Account.toNat_debit ((((r.credit b).debit o).credit c).credit m) (b + c)
  rw [h₄, UInt64.toNat_add, Nat.mod_eq_of_lt hrecorded] at h₅
  have h₆ := Account.toNat_credit (v := o)
    (r := ((((r.credit b).debit o).credit c).credit m).debit (b + c)) (by omega)
  rw [h₅] at h₆
  rw [← UInt64.toNat_inj, h₆]
  omega

/-! ### Payout and refund together -/

section Refund

variable (s : DataRegistry) (reward : UInt64) (hash : Uint1024) (lastBlockfinder : Bytes)

/-- The registry after a payout and the refund of the same block. -/
def paidAndRefunded : DataRegistry :=
  (exec (refundPayouts hash) (exec (updateBalances reward hash lastBlockfinder) s).2).2

/-- The last output, in address order, to an address that has no account. -/
def lastForeign : Option (Bytes × UInt64) :=
  s.mCoinbase.mapOutputs.toList.reverse.find? fun e => !s.mAccountDb.hasKey e.1

/-- The output is covered by the balance, and if the account is the block finder's, no
remainder is left over for it. -/
def Covered (k : Bytes) (r : Account) : Prop :=
  (s.mCoinbase.mapOutputs.getD k 0).toNat ≤ r.nAccountBalance.toNat ∧
    (k = lastBlockfinder → sharedPart s reward lastBlockfinder ≤ sharedOut s reward lastBlockfinder)

/-- The condition on one account. The one with the empty key ends up with the last output to
an address without an account, if there is any, in place of what it held. -/
def Reversible (k : Bytes) (r : Account) : Prop :=
  match lastForeign s with
  | some e => if k = [] then e.2 = r.nAccountBalance else Covered s reward lastBlockfinder k r
  | none => Covered s reward lastBlockfinder k r

variable {s lastBlockfinder}

theorem cKey_blank : Record.cKey (Record.blank : Account) = [] := rfl

/-- No key is before the empty one. -/
theorem not_lt_blankKey (k : Bytes) :
    compare k (Record.cKey (Record.blank : Account)) ≠ .lt := by
  rw [cKey_blank]
  cases k <;> simp [compare, List.compareLex]

/-- Every output after the last one to an unknown address goes to an account, and not to
the one with the empty key, which comes first in the order. -/
theorem lastForeign_eq_some {e : Bytes × UInt64} (h : lastForeign s = some e) :
    s.account? e.1 = none ∧ ∃ front back, s.mCoinbase.mapOutputs.toList = front ++ e :: back ∧
      ∀ x ∈ back, s.mAccountDb.hasKey x.1 ∧ x.1 ≠ [] := by
  obtain ⟨he, front, back, hlist, hbehind⟩ := OrderedMap.find?_reverse_eq_some h
  have hnone : s.account? e.1 = none := by
    cases hr : s.account? e.1 with
    | none => rfl
    | some r =>
      have hkey := Database.hasKey_iff.mpr ⟨r, hr⟩
      simp [hkey] at he
  refine ⟨hnone, front, back, hlist, fun x hx => ⟨?_, ?_⟩⟩
  · simpa using (hbehind x hx).1
  · intro hempty
    have hlt := (hbehind x hx).2
    rw [hempty] at hlt
    exact not_lt_blankKey e.1 hlt

theorem lastForeign_eq_none (h : lastForeign s = none) :
    ∀ e ∈ s.mCoinbase.mapOutputs.toList, s.mAccountDb.hasKey e.1 := by
  intro e he
  simpa using List.find?_eq_none.mp h e (List.mem_reverse.mpr he)

theorem paidAndRefunded_eq (hown : s.mAccountDb.OwnKeys)
    (hvalue : s.mCoinbase.nMaxValue + s.mCoinbase.nPoolFee ≠ 0)
    (hfinder : s.mAccountDb.hasKey lastBlockfinder) :
    ∃ db : Database Bytes Account, db.OwnKeys ∧
      (∀ k, db.mapRecords[k]? = (s.account? k).map fun r =>
        (settle s reward lastBlockfinder k r).debit
          (toFinder lastBlockfinder k (bonus s reward lastBlockfinder) +
            shareOf s reward lastBlockfinder r)) ∧
      (paidAndRefunded s reward hash lastBlockfinder).mAccountDb =
        db.modifyAll (fun v r => r.credit v) s.mCoinbase.mapOutputs.toList := by
  have hpaid := exec_updateBalances reward hash hown hfinder
  obtain ⟨cCredits, hblock, hcredits, hmem⟩ := hpaid.block
  have hkeys : ∀ k, k ∈ cCredits.mapCredits →
      k ∈ (exec (updateBalances reward hash lastBlockfinder) s).2.mAccountDb.getKeys := by
    intro k hk
    obtain ⟨r, hr⟩ := Database.mem_getKeys.mp (hmem k hk)
    have haccount := hpaid.account k
    rw [account?, show s.account? k = some r from hr] at haccount
    exact Database.mem_getKeys.mpr ⟨_, haccount⟩
  obtain ⟨howndb, hdb⟩ := find_debitAll hpaid.own cCredits.mapCredits hkeys
  refine ⟨_, howndb, fun k => ?_, ?_⟩
  · have haccount := hpaid.account k
    rw [account?] at haccount
    rw [hdb k, haccount, Option.map_map, hcredits k]
    cases s.account? k <;> rfl
  · rw [paidAndRefunded, exec_refundPayouts hblock hvalue]

theorem account_paidAndRefunded_of_foreign (hown : s.mAccountDb.OwnKeys)
    (hvalue : s.mCoinbase.nMaxValue + s.mCoinbase.nPoolFee ≠ 0)
    (hfinder : s.mAccountDb.hasKey lastBlockfinder) {e : Bytes × UInt64}
    (hforeign : lastForeign s = some e) {r : Account} (hr : s.account? [] = some r) :
    (paidAndRefunded s reward hash lastBlockfinder).account? [] =
      some ((Account.new []).credit e.2) := by
  obtain ⟨db, howndb, hdb, hfinal⟩ := paidAndRefunded_eq reward hash hown hvalue hfinder
  obtain ⟨hnone, front, back, hlist, hback⟩ := lastForeign_eq_some hforeign
  have hnodup : ((front ++ e :: back).map Prod.fst).Nodup := by
    rw [← hlist, ExtTreeMap.map_fst_toList_eq_keys]
    exact ExtTreeMap.nodup_keys
  have hnone' : db.mapRecords[e.1]? = none := by
    rw [hdb, hnone]
    rfl
  have hempty := hdb []
  rw [hr] at hempty
  rw [account?, hfinal, hlist]
  refine howndb.find_modifyAll_blank (fun v r => r.cKey_credit v) hnodup hnone' (fun x hx => ?_)
    (fun x hx => (hback x hx).2) hempty
  obtain ⟨q, hq⟩ := Database.hasKey_iff.mp (hback x hx).1
  exact Database.hasKey_iff.mpr ⟨_, (hdb x.1).trans (by rw [account?, hq]; rfl)⟩

theorem account_paidAndRefunded (hown : s.mAccountDb.OwnKeys)
    (hvalue : s.mCoinbase.nMaxValue + s.mCoinbase.nPoolFee ≠ 0)
    (hfinder : s.mAccountDb.hasKey lastBlockfinder) {k : Bytes}
    (hk : k = [] → lastForeign s = none) {r : Account} (hr : s.account? k = some r) :
    (paidAndRefunded s reward hash lastBlockfinder).account? k =
      some (((settle s reward lastBlockfinder k r).debit
        (toFinder lastBlockfinder k (bonus s reward lastBlockfinder) +
          shareOf s reward lastBlockfinder r)).credit (s.mCoinbase.mapOutputs.getD k 0)) := by
  obtain ⟨db, howndb, hdb, hfinal⟩ := paidAndRefunded_eq reward hash hown hvalue hfinder
  have hrecord := hdb k
  rw [hr] at hrecord
  rw [account?, hfinal]
  by_cases hempty : k = []
  · have hkeys : ∀ e ∈ s.mCoinbase.mapOutputs.toList, db.hasKey e.1 := by
      intro e he
      obtain ⟨q, hq⟩ := Database.hasKey_iff.mp (lastForeign_eq_none (hk hempty) e he)
      exact Database.hasKey_iff.mpr ⟨_, (hdb e.1).trans (by rw [account?, hq]; rfl)⟩
    rw [find_creditAll howndb _ hkeys, hrecord]
    rfl
  · exact find_creditAll_of_ne howndb _ hempty hrecord

theorem balance_paidAndRefunded_iff (hown : s.mAccountDb.OwnKeys)
    (hvalue : s.mCoinbase.nMaxValue + s.mCoinbase.nPoolFee ≠ 0)
    (hfinder : s.mAccountDb.hasKey lastBlockfinder) (hwrap : NoWrap s reward lastBlockfinder)
    {k : Bytes} {r : Account} (hr : s.account? k = some r) :
    ((paidAndRefunded s reward hash lastBlockfinder).account? k).map (·.nAccountBalance) =
      some r.nAccountBalance ↔ Reversible s reward lastBlockfinder k r := by
  have hcovered (hk : k = [] → lastForeign s = none) :
      ((paidAndRefunded s reward hash lastBlockfinder).account? k).map (·.nAccountBalance) =
        some r.nAccountBalance ↔ Covered s reward lastBlockfinder k r := by
    have hfits := hwrap.account k r hr
    rw [← toNat_bonus, ← toNat_remainder hwrap.weight, ← toNat_toFinder, ← toNat_toFinder,
      ← toNat_shareOf hwrap.weight] at hfits
    rw [account_paidAndRefunded reward hash hown hvalue hfinder hk hr, Option.map_some,
      Option.some_inj]
    refine (balance_restored_iff hfits).trans (and_congr_right fun _ => ?_)
    rw [toNat_toFinder, toNat_remainder hwrap.weight, onlyFinder]
    by_cases hkey : k = lastBlockfinder
    · simp [hkey, Nat.sub_eq_zero_iff_le]
    · simp [hkey]
  by_cases hk : k = []
  · subst hk
    cases hforeign : lastForeign s with
    | none => simpa [Reversible, hforeign] using hcovered fun _ => hforeign
    | some e =>
      rw [account_paidAndRefunded_of_foreign reward hash hown hvalue hfinder hforeign hr]
      simp [Reversible, hforeign, Account.credit, Account.new]
  · have hcase : Reversible s reward lastBlockfinder k r ↔
        Covered s reward lastBlockfinder k r := by
      cases hforeign : lastForeign s <;> simp [Reversible, hforeign, hk]
    exact (hcovered fun h => absurd h hk).trans hcase.symm

/-- A payout followed by the refund of its block leaves every balance as it was exactly when
each account meets its condition. -/
theorem refund_restores_iff (hown : s.mAccountDb.OwnKeys)
    (hvalue : s.mCoinbase.nMaxValue + s.mCoinbase.nPoolFee ≠ 0)
    (hfinder : s.mAccountDb.hasKey lastBlockfinder) (hwrap : NoWrap s reward lastBlockfinder) :
    (∀ k r, s.account? k = some r →
      ((paidAndRefunded s reward hash lastBlockfinder).account? k).map (·.nAccountBalance) =
        some r.nAccountBalance) ↔
      ∀ k r, s.account? k = some r → Reversible s reward lastBlockfinder k r :=
  forall_congr' fun _ => forall_congr' fun _ => forall_congr' fun hr =>
    balance_paidAndRefunded_iff reward hash hown hvalue hfinder hwrap hr

end Refund

/-! ### A pool with one account -/

/-- The only account found the block, holds 10 and is paid 4 of it. -/
def soloPool (nRoundShares : UInt64) : DataRegistry :=
  { init ⟨0, 0, false⟩ .empty
      ⟨(∅ : ExtTreeMap Bytes Account).insert [65] ⟨[65], 10, nRoundShares, 0⟩⟩ with
    mCoinbase := ((Coinbase.empty.reset 4).addTransaction [65] 4).2 }

theorem soloPool_account {nRoundShares : UInt64} {k : Bytes} {r : Account} :
    (soloPool nRoundShares).account? k = some r ↔ k = [65] ∧ r = ⟨[65], 10, nRoundShares, 0⟩ := by
  simp only [account?, soloPool, init, OrderedMap.getElem?_insert]
  by_cases hk : [65] = k
  · simp [← hk, eq_comm]
  · simp [hk, Ne.symm hk]

theorem soloPool_ownKeys (nRoundShares : UInt64) : (soloPool nRoundShares).mAccountDb.OwnKeys := by
  intro k r hr
  obtain ⟨rfl, rfl⟩ := soloPool_account.mp hr
  rfl

theorem soloPool_noWrap : NoWrap (soloPool 3) 100 [65] where
  weight := by decide
  credits := by decide
  account := by
    intro k r hr
    obtain ⟨rfl, rfl⟩ := soloPool_account.mp hr
    constructor <;> decide

theorem soloPool_noWrap_of_idle : NoWrap (soloPool 0) 100 [65] where
  weight := by decide
  credits := by decide
  account := by
    intro k r hr
    obtain ⟨rfl, rfl⟩ := soloPool_account.mp hr
    constructor <;> decide

/-- With shares in the round, the one account earns the whole reward by them. -/
theorem soloPool_restored :
    ((paidAndRefunded (soloPool 3) 100 0 [65]).account? [65]).map (·.nAccountBalance) =
      some 10 := by
  refine (refund_restores_iff 100 0 (soloPool_ownKeys 3) (by decide) (by decide)
    soloPool_noWrap).mpr ?_ [65] ⟨[65], 10, 3, 0⟩ (soloPool_account.mpr ⟨rfl, rfl⟩)
  intro k r hr
  obtain ⟨rfl, rfl⟩ := soloPool_account.mp hr
  have hforeign : lastForeign (soloPool 3) = none := by decide
  simp only [Reversible, hforeign]
  exact ⟨by decide, fun _ => by decide⟩

/-- Without shares in the round it gets the reward as remainder, and keeps it. -/
theorem soloPool_keeps_remainder :
    ¬ ∀ (s : DataRegistry) (reward : UInt64) (hash : Uint1024) (lastBlockfinder : Bytes),
      s.mAccountDb.OwnKeys → s.mCoinbase.nMaxValue + s.mCoinbase.nPoolFee ≠ 0 →
      s.mAccountDb.hasKey lastBlockfinder → NoWrap s reward lastBlockfinder →
      ∀ k r, s.account? k = some r →
        ((paidAndRefunded s reward hash lastBlockfinder).account? k).map (·.nAccountBalance) =
          some r.nAccountBalance := by
  intro h
  have hbalance := h (soloPool 0) 100 0 [65] (soloPool_ownKeys 0) (by decide) (by decide)
    soloPool_noWrap_of_idle [65] _ (soloPool_account.mpr ⟨rfl, rfl⟩)
  revert hbalance
  decide +kernel

end PayoutManager

end NexusPool
