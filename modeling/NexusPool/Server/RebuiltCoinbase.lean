import NexusPool.Server.Reward

/-!
# The coinbase that a reward leaves

After the loop over the accounts the last block finder gets what is left of the maximum, on top
of a balance that it may have been paid in the loop. As long as no sum with the running total
wraps, the outputs then add up to the maximum, and all but the finder's are whole balances.
-/

namespace NexusPool

open Concurrent Reactive World
open Std (ExtTreeMap)

/-- No sum of a balance and what is taken before it leaves the 64 bits. -/
def NoSumWraps (nMax : UInt64) : UInt64 → List UInt64 → Prop
  | _, [] => True
  | taken, nValue :: rest =>
    nValue.toNat + taken.toNat < 2 ^ 64 ∧
      NoSumWraps nMax (if nValue + taken > nMax then taken else nValue + taken) rest

instance NoSumWraps.decidable (nMax : UInt64) : (taken : UInt64) → (values : List UInt64) →
    Decidable (NoSumWraps nMax taken values)
  | _, [] => .isTrue trivial
  | taken, nValue :: rest =>
    have := decidable nMax (if nValue + taken > nMax then taken else nValue + taken) rest
    inferInstanceAs (Decidable (nValue.toNat + taken.toNat < 2 ^ 64 ∧ _))

/-- The outputs add up to the maximum. Whoever has one, apart from the last block finder, is an
account with a balance, and the output is the balance. -/
structure Completed (s : DataRegistry) (lastBlockfinder : Bytes) (c : Coinbase) : Prop where
  sum : c.paid = c.nMaxValue.toNat
  complete : c.isComplete
  others : ∀ k v, k ≠ lastBlockfinder → c.mapOutputs[k]? = some v →
    ∃ r, s.account? k = some r ∧ v = r.nAccountBalance ∧ r.nAccountBalance ≠ 0

namespace DaemonConnection

variable {s : DataRegistry}

/-! ### The loop over the accounts -/

theorem counted_payBalance {c : Coinbase} (h : c.Counted) (k : Bytes)
    (hsum : (s.balance k).toNat + c.nCurrentValue.toNat < 2 ^ 64) :
    (payBalance s c k).Counted := by
  unfold payBalance Coinbase.addTransaction
  split_ifs with hbalance hover
  · exact h
  · have hle := UInt64.le_iff_toNat_le.mp (UInt64.not_lt.mp hover)
    rw [UInt64.toNat_add, Nat.mod_eq_of_lt hsum] at hle
    exact h.addOutput k hle
  · exact h

theorem counted_foldl (keys : List Bytes) {c : Coinbase} (h : c.Counted)
    (hsums : NoSumWraps c.nMaxValue c.nCurrentValue (owed s keys)) :
    (keys.foldl (payBalance s) c).Counted := by
  induction keys generalizing c with
  | nil => exact h
  | cons k keys ih =>
    rw [List.foldl_cons]
    by_cases hbalance : s.balance k > 0
    · rw [owed_cons hbalance] at hsums
      obtain ⟨hsum, hrest⟩ := hsums
      apply ih (counted_payBalance h k hsum)
      unfold payBalance Coinbase.addTransaction
      rw [if_pos hbalance]
      split_ifs at hrest ⊢
      · exact hrest
      · rwa [UInt64.add_comm] at hrest
    · have hskip : payBalance s c k = c := if_neg hbalance
      have howed : owed s (k :: keys) = owed s keys := by simp [owed, hbalance]
      rw [hskip]
      exact ih h (howed ▸ hsums)

/-- Where an account is new to the coinbase, a turn on it leaves no output or its balance. -/
theorem find_payBalance {c : Coinbase} {k : Bytes} (hnone : c.mapOutputs[k]? = none) {a : Bytes}
    {v : UInt64} (hv : (payBalance s c k).mapOutputs[a]? = some v) :
    c.mapOutputs[a]? = some v ∨ a = k ∧ v = s.balance k ∧ s.balance k > 0 := by
  unfold payBalance Coinbase.addTransaction at hv
  split_ifs at hv with hbalance hover
  · exact .inl hv
  · have hzero : c.mapOutputs.getD k 0 = 0 := by simp [ExtTreeMap.getD_eq_getD_getElem?, hnone]
    simp only [Coinbase.addOutput, hzero, UInt64.zero_add, OrderedMap.getElem?_insert] at hv
    split_ifs at hv with hk
    · exact .inr ⟨hk.symm, (Option.some.inj hv).symm, hbalance⟩
    · exact .inl hv
  · exact .inl hv

theorem find_foldl (keys : List Bytes) (hnodup : keys.Nodup) {c : Coinbase}
    (hnew : ∀ k ∈ keys, c.mapOutputs[k]? = none) {a : Bytes} {v : UInt64}
    (hv : (keys.foldl (payBalance s) c).mapOutputs[a]? = some v) :
    c.mapOutputs[a]? = some v ∨ a ∈ keys ∧ v = s.balance a ∧ s.balance a > 0 := by
  induction keys generalizing c with
  | nil => exact .inl hv
  | cons k keys ih =>
    obtain ⟨hk, hnodup⟩ := List.nodup_cons.mp hnodup
    have hnone := hnew k List.mem_cons_self
    have hrest : ∀ k' ∈ keys, (payBalance s c k).mapOutputs[k']? = none := by
      intro k' hk'
      by_contra hsome
      obtain ⟨v', hv'⟩ := Option.ne_none_iff_exists'.mp hsome
      rcases find_payBalance hnone hv' with hold | ⟨rfl, -, -⟩
      · rw [hnew k' (List.mem_cons_of_mem _ hk')] at hold
        cases hold
      · exact hk hk'
    rcases ih hnodup hrest hv with hturn | ⟨hmem, hbalance⟩
    · rcases find_payBalance hnone hturn with hold | ⟨rfl, hbalance⟩
      · exact .inl hold
      · exact .inr ⟨List.mem_cons_self, hbalance⟩
    · exact .inr ⟨List.mem_cons_of_mem _ hmem, hbalance⟩

/-! ### The top-up of the finder -/

/-- The finder gets what is left, whether it has an output already or not. -/
theorem payBonus_of_counted {c : Coinbase} (h : c.Counted) (lastBlockfinder : Bytes) :
    (payBonus lastBlockfinder c).Counted ∧ (payBonus lastBlockfinder c).isComplete ∧
      ∀ k, k ≠ lastBlockfinder →
        (payBonus lastBlockfinder c).mapOutputs[k]? = c.mapOutputs[k]? := by
  by_cases hcomplete : c.isComplete
  · rw [payBonus, if_pos hcomplete]
    exact ⟨h, hcomplete, fun _ _ => rfl⟩
  · have hfills : c.getRemainder + c.nCurrentValue = c.nMaxValue := UInt64.sub_add_cancel _ _
    have hfits : ¬ c.getRemainder + c.nCurrentValue > c.nMaxValue := by
      rw [hfills]
      exact UInt64.lt_irrefl _
    rw [payBonus, if_neg hcomplete, Coinbase.addTransaction, if_neg hfits]
    refine ⟨h.addOutput lastBlockfinder h.remainder.le, ?_, fun k hk => ?_⟩
    · simp only [Coinbase.isComplete, Coinbase.addOutput, UInt64.add_comm c.nCurrentValue, hfills,
        beq_self_eq_true]
    · exact OrderedMap.getElem?_insert_of_ne _ (Ne.symm hk) _

/-! ### The rebuilt coinbase -/

section Platform

variable [Platform] (reward : UInt64) (lastBlockfinder : Bytes) (coinbase : Coinbase)

theorem completed_rebuildCoinbase
    (hsums : NoSumWraps (PayoutManager.netReward s reward) 0 (owedFromHighest s)) :
    Completed s lastBlockfinder
      (DataRegistry.exec (rebuildCoinbase reward lastBlockfinder coinbase) s).1 := by
  obtain ⟨keys, hperm, howed, hexec⟩ := exec_payBalances_foldl (s := s) reward coinbase
  let c := keys.foldl (payBalance s) (rewardStart s reward coinbase)
  have hnew : ∀ k ∈ keys, (rewardStart s reward coinbase).mapOutputs[k]? = none :=
    fun k _ => ExtTreeMap.getElem?_empty
  have hcounted : c.Counted := counted_foldl keys ⟨rfl, Nat.zero_le _⟩ (howed ▸ hsums)
  obtain ⟨htotal, hcomplete, hothers⟩ := payBonus_of_counted hcounted lastBlockfinder
  have hrebuilt : (DataRegistry.exec (rebuildCoinbase reward lastBlockfinder coinbase) s).1 =
      payBonus lastBlockfinder c := by
    rw [rebuildCoinbase_eq, DataRegistry.exec_bind, hexec]
    rfl
  rw [hrebuilt]
  refine ⟨?_, hcomplete, fun k v hk hv => ?_⟩
  · rw [← htotal.total]
    exact congrArg UInt64.toNat (beq_iff_eq.mp hcomplete)
  · rw [hothers k hk] at hv
    rcases find_foldl keys (hperm.nodup_iff.mpr s.mAccountDb.nodup_getKeys) hnew hv with
      hold | ⟨hmem, hbalance, hpositive⟩
    · rw [show (rewardStart s reward coinbase).mapOutputs[k]? = none from
        ExtTreeMap.getElem?_empty] at hold
      cases hold
    · obtain ⟨r, hr⟩ := Database.mem_getKeys.mp (hperm.mem_iff.mp hmem)
      rw [DataRegistry.balance_of_some hr] at hbalance hpositive
      exact ⟨r, hr, hbalance, UInt64.pos_iff_ne_zero.mp hpositive⟩

/-- Whatever the accounts, the finder, the reward and the fee are: unless a sum with the running
total wraps, the coinbase that `BLOCK_REWARD` rebuilds is complete and pays exact balances. -/
theorem completed_handleBlockReward {w w' : World} {data : Bytes} {u : Unit} {out : List Output}
    (hround : w.registry.mCurrentRound > 1) (hpending : w.daemon.mCoinbasePending)
    (hsums : NoSumWraps (PayoutManager.netReward w.registry (bytes2uint64 data 0)) 0
      (owedFromHighest w.registry))
    (h : handleBlockReward data w = some (u, w', out)) :
    Completed w.registry w.daemon.mLastBlockfinder w'.registry.mCoinbase := by
  obtain ⟨c', rfl, hexec⟩ := handleBlockReward_rebuilds hround hpending h
  have hcompleted := completed_rebuildCoinbase (bytes2uint64 data 0) w.daemon.mLastBlockfinder
    w.registry.mCoinbase hsums
  rwa [hexec] at hcompleted

end Platform

section Rebuilt

attribute [local instance] Platform.plain

theorem World.free_rebuilds :
    (handleBlockReward (uint2bytes64 100) (World.billed 0)).isSome := by
  decide +kernel

theorem completed_billed : ∃ w' out,
    handleBlockReward (uint2bytes64 100) (World.billed 0) = some ((), w', out) ∧
      Completed (World.billed 0).registry (World.billed 0).daemon.mLastBlockfinder
        w'.registry.mCoinbase := by
  obtain ⟨⟨⟨⟩, w', out⟩, h⟩ := Option.isSome_iff_exists.mp World.free_rebuilds
  exact ⟨w', out, h, completed_handleBlockReward (by decide) rfl (by decide +kernel) h⟩

end Rebuilt

end DaemonConnection

end NexusPool
