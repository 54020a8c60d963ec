import NexusPool.Ledger.CoinbaseTotal
import NexusPool.Ledger.PayoutRun
import NexusPool.Server.Settlement

/-!
# The reward of a round

What `BLOCK_REWARD` and `update_balances` make of the reward: the fee that the pool keeps, the
balances that the coinbase pays from the highest down, and the bonus of the last block finder.
-/

namespace NexusPool

open Concurrent Reactive World
open Std (ExtTreeMap)

/-! ### The parts of the two functions -/

namespace PayoutManager

/-- `update_balances` from the line on that takes the fee off the reward. -/
def distribute (cCoinbase : Coinbase) (nRound : UInt32) (hashSubmitBlock : Uint1024)
    (lastBlockfinder : Bytes) (amount : UInt64) : DataRegistry.Handler Unit := do
  let (cCredits, reward) ← payFinder amount lastBlockfinder
  let nTotalWeight ← totalWeight
  let vKeys ← DataRegistry.call .accountKeys
  let (cCredits, nTotalReward) ← vKeys.foldlM (payAccount nTotalWeight reward) (cCredits, 0)
  payRemainder lastBlockfinder reward nTotalReward
  commitBlock
    { cKey := hashSubmitBlock
      nCoinbaseValue := cCoinbase.nMaxValue + cCoinbase.nPoolFee
      cCoinbase := cCoinbase
      cCredits := cCredits
      nRound := nRound }
  DataRegistry.call .accountWrite

theorem exec_updateBalances_eq_distribute (reward : UInt64) (hashSubmitBlock : Uint1024)
    (lastBlockfinder : Bytes) (s : DataRegistry) :
    DataRegistry.exec (updateBalances reward hashSubmitBlock lastBlockfinder) s =
      DataRegistry.exec (distribute s.mCoinbase s.mCurrentRound hashSubmitBlock lastBlockfinder
        (netReward s reward)) s := rfl

end PayoutManager

namespace DaemonConnection

/-- `BLOCK_REWARD` up to the end of the loop over the accounts. -/
def payBalances [Platform] (reward : UInt64) (coinbase : Coinbase) :
    DataRegistry.Handler Coinbase := do
  let poolFee ← DataRegistry.call .poolFee
  let nPoolFee := reward * poolFee.toUInt64
  let vAccounts ← getSortedAccounts
  vAccounts.foldlM addPayout ({ coinbase with nPoolFee := nPoolFee }.reset (reward - nPoolFee))

/-- The bonus of the block finder, on rounds where the coinbase is incomplete. -/
def payBonus (lastBlockfinder : Bytes) (coinbase : Coinbase) : Coinbase :=
  if coinbase.isComplete then coinbase
  else (coinbase.addTransaction lastBlockfinder coinbase.getRemainder).2

theorem rebuildCoinbase_eq [Platform] (reward : UInt64) (lastBlockfinder : Bytes)
    (coinbase : Coinbase) : rebuildCoinbase reward lastBlockfinder coinbase =
      (do return payBonus lastBlockfinder (← payBalances reward coinbase)) := by
  simp only [rebuildCoinbase, payBalances, payBonus, bind_assoc]
  refine bind_congr fun poolFee => bind_congr fun vAccounts => bind_congr fun coinbase' => ?_
  split_ifs <;> rfl

end DaemonConnection

/-! ### Filling the coinbase -/

def fitting (nMax : UInt64) : UInt64 → List UInt64 → List UInt64
  | _, [] => []
  | taken, nValue :: rest =>
    if nValue + taken > nMax then fitting nMax taken rest
    else nValue :: fitting nMax (nValue + taken) rest

theorem fitting_sublist (nMax taken : UInt64) (values : List UInt64) :
    (fitting nMax taken values).Sublist values := by
  induction values generalizing taken with
  | nil => exact List.Sublist.slnil
  | cons nValue rest ih =>
    rw [fitting]
    split_ifs
    · exact (ih taken).cons nValue
    · exact (ih (nValue + taken)).cons_cons nValue

theorem fitting_ne_cons (nMax taken nValue : UInt64) (rest : List UInt64) :
    fitting nMax taken rest ≠ nValue :: rest := by
  intro h
  have hlength := (fitting_sublist nMax taken rest).length_le
  rw [h, List.length_cons] at hlength
  omega

/-- As long as the sum of everything stays below `2 ^ 64`, all is taken exactly if it fits. -/
theorem fitting_eq_self_iff {nMax taken : UInt64} {values : List UInt64}
    (hsum : taken.toNat + (values.map (·.toNat)).sum < 2 ^ 64) (htaken : taken ≤ nMax) :
    fitting nMax taken values = values ↔
      taken.toNat + (values.map (·.toNat)).sum ≤ nMax.toNat := by
  induction values generalizing taken with
  | nil => simpa [fitting] using UInt64.le_iff_toNat_le.mp htaken
  | cons nValue rest ih =>
    simp only [List.map_cons, List.sum_cons] at hsum ⊢
    have hadd : (nValue + taken).toNat = nValue.toNat + taken.toNat := by
      rw [UInt64.toNat_add]
      omega
    rw [fitting]
    split_ifs with hgt
    · have hover := UInt64.lt_iff_toNat_lt.mp hgt
      simp only [fitting_ne_cons, false_iff]
      omega
    · have hle := UInt64.not_lt.mp hgt
      rw [List.cons.injEq, ih (by omega) hle]
      simp only [true_and, hadd]
      omega

namespace DaemonConnection

variable {s : DataRegistry}

def payBalance (s : DataRegistry) (coinbase : Coinbase) (key : Bytes) : Coinbase :=
  if s.balance key > 0 then (coinbase.addTransaction key (s.balance key)).2 else coinbase

theorem exec_addPayouts (keys : List Bytes) (hkeys : ∀ k ∈ keys, k ∈ s.mAccountDb.getKeys)
    (coinbase : Coinbase) : DataRegistry.exec (keys.foldlM addPayout coinbase) s =
      (keys.foldl (payBalance s) coinbase, s) := by
  induction keys generalizing coinbase with
  | nil => rfl
  | cons k keys ih =>
    obtain ⟨r, hr⟩ := Database.mem_getKeys.mp (hkeys k List.mem_cons_self)
    have hturn : DataRegistry.exec (addPayout coinbase k) s = (payBalance s coinbase k, s) := by
      rw [exec_addPayout coinbase hr, payBalance, DataRegistry.balance_of_some hr]
    rw [List.foldlM_cons, DataRegistry.exec_bind, hturn]
    exact ih (fun k' hk' => hkeys k' (List.mem_cons_of_mem _ hk')) _

/-- The balances that the loop offers to the coinbase. -/
def owed (s : DataRegistry) (keys : List Bytes) : List UInt64 :=
  (keys.map s.balance).filter (· > 0)

/-- What the loop over `keys` makes of a coinbase. -/
structure Pays (s : DataRegistry) (keys : List Bytes) (c c' : Coinbase) : Prop where
  nMaxValue : c'.nMaxValue = c.nMaxValue
  nPoolFee : c'.nPoolFee = c.nPoolFee
  total : c.nCurrentValue = UInt64.ofNat c.paid → c'.nCurrentValue = UInt64.ofNat c'.paid
  others : ∀ k, k ∉ keys → c'.mapOutputs[k]? = c.mapOutputs[k]?
  paid : c'.paid = c.paid +
    ((fitting c.nMaxValue c.nCurrentValue (owed s keys)).map (·.toNat)).sum
  all : (∀ k ∈ keys, 0 < s.balance k → c'.mapOutputs[k]? = some (s.balance k)) ↔
    fitting c.nMaxValue c.nCurrentValue (owed s keys) = owed s keys

theorem Pays.skip {keys : List Bytes} {k : Bytes} {c c' : Coinbase} (h : Pays s keys c c')
    (hbalance : s.balance k = 0) : Pays s (k :: keys) c c' := by
  have howed : owed s (k :: keys) = owed s keys := by simp [owed, hbalance]
  refine ⟨h.nMaxValue, h.nPoolFee, h.total, fun k' hk' => h.others k' ?_, ?_, ?_⟩
  · exact fun hmem => hk' (List.mem_cons_of_mem _ hmem)
  · rw [howed]
    exact h.paid
  · rw [howed, ← h.all]
    simp [hbalance]

theorem owed_cons {keys : List Bytes} {k : Bytes} (hbalance : s.balance k > 0) :
    owed s (k :: keys) = s.balance k :: owed s keys := by
  simp [owed, hbalance]

/-- An account whose balance does not fit gets no output, not even in part. -/
theorem Pays.refuse {keys : List Bytes} {k : Bytes} {c c' : Coinbase} (h : Pays s keys c c')
    (hbalance : s.balance k > 0) (hover : s.balance k + c.nCurrentValue > c.nMaxValue)
    (hk : k ∉ keys) (hnone : c.mapOutputs[k]? = none) : Pays s (k :: keys) c c' := by
  have hleft : fitting c.nMaxValue c.nCurrentValue (owed s (k :: keys)) =
      fitting c.nMaxValue c.nCurrentValue (owed s keys) := by
    rw [owed_cons hbalance, fitting, if_pos hover]
  refine ⟨h.nMaxValue, h.nPoolFee, h.total, fun k' hk' => h.others k' ?_, ?_, ?_⟩
  · exact fun hmem => hk' (List.mem_cons_of_mem _ hmem)
  · rw [hleft]
    exact h.paid
  · rw [hleft, owed_cons hbalance]
    constructor
    · intro hall
      have hpaid := hall k List.mem_cons_self hbalance
      rw [h.others k hk, hnone] at hpaid
      cases hpaid
    · intro hfit
      exact absurd hfit (fitting_ne_cons _ _ _ _)

theorem Pays.take {keys : List Bytes} {k : Bytes} {c c' : Coinbase}
    (h : Pays s keys (c.addOutput k (s.balance k)) c') (hbalance : s.balance k > 0)
    (hfits : ¬ s.balance k + c.nCurrentValue > c.nMaxValue) (hk : k ∉ keys)
    (hnone : c.mapOutputs[k]? = none) : Pays s (k :: keys) c c' := by
  have htake : fitting c.nMaxValue c.nCurrentValue (owed s (k :: keys)) =
      s.balance k :: fitting (c.addOutput k (s.balance k)).nMaxValue
        (c.addOutput k (s.balance k)).nCurrentValue (owed s keys) := by
    rw [owed_cons hbalance, fitting, if_neg hfits, UInt64.add_comm]
    rfl
  have houtput : c'.mapOutputs[k]? = some (s.balance k) := by
    rw [h.others k hk]
    simp [Coinbase.addOutput, ExtTreeMap.getD_eq_getD_getElem?, hnone]
  refine ⟨h.nMaxValue, h.nPoolFee, fun htotal => ?_, fun k' hk' => ?_, ?_, ?_⟩
  · exact h.total (Coinbase.nCurrentValue_addOutput _ hnone htotal)
  · obtain ⟨hne, hmem⟩ := not_or.mp (List.mem_cons.not.mp hk')
    rw [h.others k' hmem]
    exact OrderedMap.getElem?_insert_of_ne _ (Ne.symm hne) _
  · rw [htake, h.paid, Coinbase.paid_addOutput _ hnone, List.map_cons, List.sum_cons]
    omega
  · rw [htake, owed_cons hbalance, List.cons.injEq, ← h.all]
    simp [houtput]

theorem pays_foldl (keys : List Bytes) (hnodup : keys.Nodup) {coinbase : Coinbase}
    (hnew : ∀ k ∈ keys, coinbase.mapOutputs[k]? = none) :
    Pays s keys coinbase (keys.foldl (payBalance s) coinbase) := by
  induction keys generalizing coinbase with
  | nil => exact ⟨rfl, rfl, id, fun _ _ => rfl, by simp [owed, fitting], by simp [owed, fitting]⟩
  | cons k keys ih =>
    obtain ⟨hk, hnodup⟩ := List.nodup_cons.mp hnodup
    have hnone := hnew k List.mem_cons_self
    have hrest : ∀ k' ∈ keys, coinbase.mapOutputs[k']? = none :=
      fun k' hk' => hnew k' (List.mem_cons_of_mem _ hk')
    rw [List.foldl_cons, payBalance]
    split_ifs with hbalance
    · unfold Coinbase.addTransaction
      split_ifs with hover
      · exact (ih hnodup hrest).refuse hbalance hover hk hnone
      · refine (ih hnodup fun k' hk' => ?_).take hbalance hover hk hnone
        have hne : k ≠ k' := fun heq => hk (heq ▸ hk')
        have hkept := OrderedMap.getElem?_insert_of_ne coinbase.mapOutputs hne
          (coinbase.mapOutputs.getD k 0 + s.balance k)
        exact hkept.trans (hrest k' hk')
    · apply (ih hnodup hrest).skip
      simpa using hbalance

/-- The positive balances from the highest down. Which of two accounts with the same balance
comes first makes no difference to them. -/
def owedFromHighest (s : DataRegistry) : List UInt64 :=
  ((s.mAccountDb.getKeys.map s.balance).filter (· > 0)).insertionSort (· ≥ ·)

theorem owed_eq_owedFromHighest {keys : List Bytes} (hperm : keys.Perm s.mAccountDb.getKeys)
    (hsorted : (keys.map s.balance).Pairwise (· ≥ ·)) : owed s keys = owedFromHighest s := by
  have : Std.Total (α := UInt64) (· ≥ ·) := ⟨fun a b => UInt64.le_total b a⟩
  have : IsTrans UInt64 (· ≥ ·) := ⟨fun _ _ _ hab hbc => UInt64.le_trans hbc hab⟩
  apply List.Perm.eq_of_pairwise' (r := (· ≥ ·)) (hsorted.filter _)
    (List.pairwise_insertionSort _ _)
  exact ((hperm.map s.balance).filter _).trans (List.perm_insertionSort _ _).symm

variable [Platform]

/-- The coinbase in which the loop over the accounts starts. -/
abbrev rewardStart (s : DataRegistry) (reward : UInt64) (coinbase : Coinbase) : Coinbase :=
  { coinbase with nPoolFee := reward * s.mConfig.poolFee.toUInt64 }.reset
    (PayoutManager.netReward s reward)

theorem exec_payBalances_foldl (reward : UInt64) (coinbase : Coinbase) :
    ∃ keys, keys.Perm s.mAccountDb.getKeys ∧ owed s keys = owedFromHighest s ∧
      DataRegistry.exec (payBalances reward coinbase) s =
        (keys.foldl (payBalance s) (rewardStart s reward coinbase), s) := by
  obtain ⟨keys, hperm, hsorted, hexec⟩ := exec_getSortedAccounts (s := s)
  refine ⟨keys, hperm, owed_eq_owedFromHighest hperm hsorted, ?_⟩
  rw [payBalances, DataRegistry.exec_bind, DataRegistry.exec_call]
  simp only [DataRegistry.Call.handle]
  rw [DataRegistry.exec_bind, hexec]
  exact exec_addPayouts keys (fun k hk => hperm.mem_iff.mp hk) _

theorem exec_payBalances (reward : UInt64) (coinbase : Coinbase) :
    ∃ keys, (∀ k, k ∈ keys ↔ k ∈ s.mAccountDb.getKeys) ∧ owed s keys = owedFromHighest s ∧
      ∃ c', DataRegistry.exec (payBalances reward coinbase) s = (c', s) ∧
        Pays s keys (rewardStart s reward coinbase) c' := by
  obtain ⟨keys, hperm, howed, hexec⟩ := exec_payBalances_foldl (s := s) reward coinbase
  refine ⟨keys, fun k => hperm.mem_iff, howed, _, hexec, ?_⟩
  exact pays_foldl keys (hperm.nodup_iff.mpr s.mAccountDb.nodup_getKeys)
    fun k _ => ExtTreeMap.getElem?_empty

end DaemonConnection

/-! ### Balances before the bonus -/

/-- Every account with a balance has it as an output. -/
def PaidInFull (s : DataRegistry) (c : Coinbase) : Prop :=
  ∀ k r, s.account? k = some r → 0 < r.nAccountBalance →
    c.mapOutputs[k]? = some r.nAccountBalance

/-- After the loop all balances are paid, or the outputs add up to the maximum; then the bonus
comes only from what no account is owed. -/
structure BalancesFirst (s : DataRegistry) (lastBlockfinder : Bytes) (c : Coinbase) : Prop where
  paid : PaidInFull s c ∨ c.paid = c.nMaxValue.toNat
  bonus : DaemonConnection.payBonus lastBlockfinder c ≠ c → PaidInFull s c

/-- A coinbase that is paid up to its maximum has no bonus. -/
theorem DaemonConnection.payBonus_of_paid {c : Coinbase} (lastBlockfinder : Bytes)
    (htotal : c.nCurrentValue = UInt64.ofNat c.paid) (hpaid : c.paid = c.nMaxValue.toNat) :
    payBonus lastBlockfinder c = c := by
  rw [hpaid, UInt64.ofNat_toNat] at htotal
  rw [payBonus, if_pos]
  simp [Coinbase.isComplete, htotal]

section Balances

variable [Platform] (reward : UInt64) (coinbase : Coinbase) (s : DataRegistry)

theorem paidInFull_payBalances_iff :
    PaidInFull s (DataRegistry.exec (DaemonConnection.payBalances reward coinbase) s).1 ↔
      fitting (PayoutManager.netReward s reward) 0 (DaemonConnection.owedFromHighest s) =
        DaemonConnection.owedFromHighest s := by
  obtain ⟨keys, hkeys, howed, c', hexec, hpays⟩ :=
    DaemonConnection.exec_payBalances (s := s) reward coinbase
  rw [hexec, ← howed]
  refine Iff.trans ⟨fun h k hk hbalance => ?_, fun h k r hr hbalance => ?_⟩ hpays.all
  · obtain ⟨r, hr⟩ := Database.mem_getKeys.mp ((hkeys k).mp hk)
    rw [DataRegistry.balance_of_some hr] at hbalance ⊢
    exact h k r hr hbalance
  · have hpaid := h k ((hkeys k).mpr (Database.mem_getKeys.mpr ⟨r, hr⟩))
    rw [DataRegistry.balance_of_some hr] at hpaid
    exact hpaid hbalance

/-- Unless the balances add up to `2 ^ 64` or more, all are paid exactly if the reward without the
fee covers them. -/
theorem paidInFull_iff_sum_le
    (hsum : ((DaemonConnection.owedFromHighest s).map (·.toNat)).sum < 2 ^ 64) :
    PaidInFull s (DataRegistry.exec (DaemonConnection.payBalances reward coinbase) s).1 ↔
      ((DaemonConnection.owedFromHighest s).map (·.toNat)).sum ≤
        (PayoutManager.netReward s reward).toNat := by
  have hfits := @fitting_eq_self_iff (PayoutManager.netReward s reward) 0
    (DaemonConnection.owedFromHighest s) (by simpa using hsum) UInt64.zero_le
  rw [paidInFull_payBalances_iff, hfits]
  simp

/-- Balances are paid before the bonus exactly if all of them fit, or those that fit happen to add
up to the maximum. -/
theorem balancesFirst_iff (lastBlockfinder : Bytes) :
    BalancesFirst s lastBlockfinder
        (DataRegistry.exec (DaemonConnection.payBalances reward coinbase) s).1 ↔
      fitting (PayoutManager.netReward s reward) 0 (DaemonConnection.owedFromHighest s) =
          DaemonConnection.owedFromHighest s ∨
        ((fitting (PayoutManager.netReward s reward) 0
            (DaemonConnection.owedFromHighest s)).map (·.toNat)).sum =
          (PayoutManager.netReward s reward).toNat := by
  rw [← paidInFull_payBalances_iff reward coinbase s]
  obtain ⟨keys, -, howed, c', hexec, hpays⟩ :=
    DaemonConnection.exec_payBalances (s := s) reward coinbase
  have hsum : c'.paid = ((fitting (PayoutManager.netReward s reward) 0
      (DaemonConnection.owedFromHighest s)).map (·.toNat)).sum := by
    rw [hpays.paid, Coinbase.paid_reset, howed, Nat.zero_add]
    rfl
  have hmax : c'.nMaxValue = PayoutManager.netReward s reward := hpays.nMaxValue
  rw [hexec, ← hsum, ← hmax]
  constructor
  · exact BalancesFirst.paid
  · refine fun h => ⟨h, fun hbonus => ?_⟩
    rcases h with h | h
    · exact h
    · have htotal := hpays.total (by rw [Coinbase.paid_reset]; rfl)
      exact absurd (DaemonConnection.payBonus_of_paid lastBlockfinder htotal h) hbonus

end Balances

section Unpaid

attribute [local instance] Platform.plain

/-- A balance of 10 does not fit under a maximum of 5, and nothing of it is paid. -/
theorem unfitting_unpaid : ¬ ∀ (platform : Platform) (reward : UInt64) (lastBlockfinder : Bytes)
    (coinbase : Coinbase) (s : DataRegistry), BalancesFirst s lastBlockfinder
      (DataRegistry.exec (@DaemonConnection.payBalances platform reward coinbase) s).1 := by
  intro h
  have hpaid := (h .plain 5 [] .empty World.solo.registry).paid
  have hnone : (DataRegistry.exec (DaemonConnection.payBalances 5 .empty)
      World.solo.registry).1.mapOutputs[([65] : Bytes)]? = none := by decide +kernel
  have hzero : (DataRegistry.exec (DaemonConnection.payBalances 5 .empty)
      World.solo.registry).1.paid = 0 := by decide +kernel
  have hmax : (DataRegistry.exec (DaemonConnection.payBalances 5 .empty)
      World.solo.registry).1.nMaxValue = 5 := by decide +kernel
  rcases hpaid with hfull | hsum
  · have houtput := hfull [65] { Account.new [65] with nAccountBalance := 10 } (by decide +kernel)
      (by decide)
    rw [hnone] at houtput
    cases houtput
  · rw [hzero, hmax] at hsum
    cases hsum

end Unpaid

/-! ### The fee of the pool -/

/-- A fee of `poolFee` percent is taken off the reward, once for the coinbase and once for the
miners, and no product or difference leaves the 64 bits. -/
structure TakesFee (reward : UInt64) (poolFee : UInt32) (w : World) : Prop where
  product : reward.toNat * poolFee.toNat < 2 ^ 64
  nPoolFee : w.registry.mCoinbase.nPoolFee.toNat = reward.toNat * poolFee.toNat / 100
  nMaxValue : w.registry.mCoinbase.nMaxValue.toNat + w.registry.mCoinbase.nPoolFee.toNat =
    reward.toNat
  distributed : ∀ hashSubmitBlock lastBlockfinder, ∃ amount : UInt64,
    amount.toNat + w.registry.mCoinbase.nPoolFee.toNat = reward.toNat ∧
      DataRegistry.exec (PayoutManager.updateBalances w.daemon.mRoundReward hashSubmitBlock
          lastBlockfinder) w.registry =
        DataRegistry.exec (PayoutManager.distribute w.registry.mCoinbase w.registry.mCurrentRound
          hashSubmitBlock lastBlockfinder amount) w.registry

section Fee

variable [Platform]

theorem rebuildCoinbase_fee (reward : UInt64) (lastBlockfinder : Bytes) (coinbase : Coinbase)
    (s : DataRegistry) {c' : Coinbase} {s' : DataRegistry}
    (h : DataRegistry.exec (DaemonConnection.rebuildCoinbase reward lastBlockfinder coinbase) s =
      (c', s')) :
    c'.nPoolFee = reward * s.mConfig.poolFee.toUInt64 ∧
      c'.nMaxValue = PayoutManager.netReward s reward := by
  obtain ⟨keys, -, -, c, hexec, hpays⟩ :=
    DaemonConnection.exec_payBalances (s := s) reward coinbase
  have hbonus : (DaemonConnection.payBonus lastBlockfinder c).nPoolFee = c.nPoolFee ∧
      (DaemonConnection.payBonus lastBlockfinder c).nMaxValue = c.nMaxValue := by
    unfold DaemonConnection.payBonus Coinbase.addTransaction
    split_ifs <;> exact ⟨rfl, rfl⟩
  rw [DaemonConnection.rebuildCoinbase_eq, DataRegistry.exec_bind, hexec] at h
  cases h
  exact ⟨hbonus.1.trans hpays.nPoolFee, hbonus.2.trans hpays.nMaxValue⟩

theorem handleBlockReward_rebuilds {w w' : World} {data : Bytes} {u : Unit} {out : List Output}
    (hround : w.registry.mCurrentRound > 1) (hpending : w.daemon.mCoinbasePending)
    (h : DaemonConnection.handleBlockReward data w = some (u, w', out)) : ∃ c' : Coinbase,
      w' = { w with
        registry := { w.registry with mCoinbase := c' }
        daemon := { w.daemon with mRoundReward := bytes2uint64 data 0 } } ∧
      DataRegistry.exec (DaemonConnection.rebuildCoinbase (bytes2uint64 data 0)
        w.daemon.mLastBlockfinder w.registry.mCoinbase) w.registry = (c', w.registry) := by
  have hexec : (DataRegistry.exec (DaemonConnection.rebuildCoinbase (bytes2uint64 data 0)
      w.daemon.mLastBlockfinder w.registry.mCoinbase) w.registry).2 = w.registry :=
    (DaemonConnection.exec_rebuildCoinbase _ _ _).1
  simp only [DaemonConnection.handleBlockReward, Action.bind_eq_some_iff, Action.get_eq_some_iff,
    Action.modify_eq_some_iff] at h
  obtain ⟨_, _, _, _, ⟨rfl, rfl⟩, ⟨_, _, _, _, ⟨rfl, rfl, rfl⟩, h, rfl⟩, rfl⟩ := h
  rw [if_pos ⟨hround, hpending⟩] at h
  simp only [Action.bind_eq_some_iff, registryCall_eq_some_iff, Action.modify_eq_some_iff] at h
  obtain ⟨_, _, _, _, ⟨rfl, rfl, rfl⟩, ⟨_, _, _, _, ⟨rfl, rfl⟩, hsend, rfl⟩, rfl⟩ := h
  obtain ⟨rfl, rfl⟩ := DaemonConnection.transmit_eq_some hsend
  refine ⟨_, ?_, Prod.ext rfl hexec⟩
  simp only [modifyRegistry, modifyDaemon, hexec]

/-- The reward is multiplied by the percentage itself, so the fee is right only where there is
none. -/
theorem takesFee_iff {w w' : World} {data : Bytes} {u : Unit} {out : List Output}
    (hround : w.registry.mCurrentRound > 1) (hpending : w.daemon.mCoinbasePending)
    (h : DaemonConnection.handleBlockReward data w = some (u, w', out)) :
    TakesFee (bytes2uint64 data 0) w.registry.mConfig.poolFee w' ↔
      bytes2uint64 data 0 = 0 ∨ w.registry.mConfig.poolFee = 0 := by
  obtain ⟨c', rfl, hexec⟩ := handleBlockReward_rebuilds hround hpending h
  obtain ⟨hfee, hmax⟩ := rebuildCoinbase_fee _ _ _ _ hexec
  clear hexec
  generalize bytes2uint64 data 0 = reward at *
  constructor
  · intro htakes
    have hproduct : (reward * w.registry.mConfig.poolFee.toUInt64).toNat =
        reward.toNat * w.registry.mConfig.poolFee.toNat := by
      rw [UInt64.toNat_mul, UInt32.toNat_toUInt64]
      exact Nat.mod_eq_of_lt htakes.product
    have hpercent := htakes.nPoolFee
    simp only [hfee, hproduct] at hpercent
    have hzero : reward.toNat * w.registry.mConfig.poolFee.toNat = 0 := by omega
    rcases Nat.mul_eq_zero.mp hzero with hreward | hnone
    · exact .inl (UInt64.toNat_inj.mp hreward)
    · exact .inr (UInt32.toNat_inj.mp hnone)
  · intro hnone
    have hfree : reward * w.registry.mConfig.poolFee.toUInt64 = 0 := by
      rcases hnone with hreward | hpool
      · simp [hreward]
      · simp [hpool]
    have hnet : PayoutManager.netReward w.registry reward = reward := by
      rw [PayoutManager.netReward, hfree, UInt64.sub_zero]
    have hzero : reward.toNat * w.registry.mConfig.poolFee.toNat = 0 := by
      rcases hnone with hreward | hpool
      · simp [hreward]
      · simp [hpool]
    refine ⟨by omega, ?_, ?_, fun hashSubmitBlock lastBlockfinder => ⟨reward, ?_, ?_⟩⟩
    · simp [hfee, hfree, hzero]
    · simp [hfee, hfree, hmax, hnet]
    · simp [hfee, hfree]
    · rw [PayoutManager.exec_updateBalances_eq_distribute]
      congr 2

end Fee

section Billed

attribute [local instance] Platform.plain

def World.billed (poolFee : UInt32) : World :=
  { World.solo with
    registry := { World.solo.registry with mCurrentRound := 2, mConfig := ⟨poolFee, 0, false⟩ }
    daemon := { World.solo.daemon with mCoinbasePending := true } }

theorem World.billed_rebuilds :
    (DaemonConnection.handleBlockReward (uint2bytes64 100) (World.billed 1)).isSome := by
  decide +kernel

theorem billed_takesFee_iff : ∃ w' out,
    DaemonConnection.handleBlockReward (uint2bytes64 100) (World.billed 1) = some ((), w', out) ∧
      (TakesFee (bytes2uint64 (uint2bytes64 100) 0) 1 w' ↔
        bytes2uint64 (uint2bytes64 100) 0 = 0 ∨ (1 : UInt32) = 0) := by
  obtain ⟨⟨⟨⟩, w', out⟩, h⟩ := Option.isSome_iff_exists.mp World.billed_rebuilds
  exact ⟨w', out, h, takesFee_iff (by decide) rfl h⟩

/-- One percent of 100 is taken as 100. -/
theorem billed_overcharged : ¬ ∀ (platform : Platform) (w w' : World) (data : Bytes) (u : Unit)
    (out : List Output), w.registry.mCurrentRound > 1 → w.daemon.mCoinbasePending →
      w.registry.mConfig.poolFee ≤ 100 →
      @DaemonConnection.handleBlockReward platform data w = some (u, w', out) →
      TakesFee (bytes2uint64 data 0) w.registry.mConfig.poolFee w' := by
  intro hall
  obtain ⟨⟨⟨⟩, w', out⟩, h⟩ := Option.isSome_iff_exists.mp World.billed_rebuilds
  have htakes := hall .plain (World.billed 1) w' _ () out (by decide) rfl (by decide) h
  obtain ⟨c', rfl, hexec⟩ := handleBlockReward_rebuilds (by decide) rfl h
  obtain ⟨hfee, -⟩ := rebuildCoinbase_fee _ _ _ _ hexec
  have hpercent := htakes.nPoolFee
  simp only [hfee] at hpercent
  revert hpercent
  decide

end Billed

end NexusPool
