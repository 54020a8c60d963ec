import NexusPool.Ledger.ForeignKeys
import NexusPool.Ledger.Payout

/-!
# The loop of a payout over the accounts

Run without interference, on a database that was built by its own calls, the loop of
`update_balances` acts on each account separately: it deducts what the coinbase paid and credits
the shares. Only the record under the empty key can be replaced, by the turn of a blank record
under a foreign key that the coinbase pays.
-/

namespace NexusPool

open Concurrent DataRegistry
open Std (ExtTreeMap)

namespace Account

@[simp] theorem cKey_credit (r : Account) (v : UInt64) : (r.credit v).cKey = r.cKey := rfl

@[simp] theorem cKey_debit (r : Account) (v : UInt64) : (r.debit v).cKey = r.cKey := rfl

@[simp] theorem nRoundShares_credit (r : Account) (v : UInt64) :
    (r.credit v).nRoundShares = r.nRoundShares := rfl

@[simp] theorem nRoundShares_debit (r : Account) (v : UInt64) :
    (r.debit v).nRoundShares = r.nRoundShares := rfl

@[simp] theorem credit_zero (r : Account) : r.credit 0 = r := by simp [credit]

@[simp] theorem debit_zero (r : Account) : r.debit 0 = r := by simp [debit]

end Account

/-! ### Sums over all accounts -/

namespace Database

variable {K R : Type} [Ord K] [Std.TransOrd K] [Std.LawfulEqOrd K]

def sumOver {V : Type} [AddCommMonoid V] (db : Database K R) (g : R → V) : V :=
  (db.getKeys.map fun k => (db.mapRecords[k]?.map g).getD 0).sum

omit [Std.LawfulEqOrd K] in
/-- A sum over the keys may be taken over more keys, where these add nothing. -/
theorem sum_getKeys {V : Type} [AddCommMonoid V] [DecidableEq K] {db : Database K R} {f : K → V}
    (hf : ∀ k, k ∉ db.getKeys → f k = 0) {keys : Finset K} (hkeys : ∀ k ∈ db.getKeys, k ∈ keys) :
    (db.getKeys.map f).sum = ∑ k ∈ keys, f k := by
  rw [← List.sum_toFinset _ db.nodup_getKeys]
  refine Finset.sum_subset (fun k hk => hkeys k (List.mem_toFinset.mp hk)) fun k _ hk => ?_
  exact hf k (List.mem_toFinset.not.mp hk)

theorem sumOver_eq_sum {V : Type} [AddCommMonoid V] [DecidableEq K] (db : Database K R) (g : R → V)
    {keys : Finset K} (hkeys : ∀ k ∈ db.getKeys, k ∈ keys) :
    db.sumOver g = ∑ k ∈ keys, (db.mapRecords[k]?.map g).getD 0 := by
  refine sum_getKeys (fun k hk => ?_) hkeys
  cases hr : db.mapRecords[k]? with
  | some r => exact absurd (mem_getKeys.mpr ⟨r, hr⟩) hk
  | none => rfl

/-- The sum depends on what is counted under each key, where an absent record counts nothing. -/
theorem sumOver_congr_getD {V : Type} [AddCommMonoid V] [DecidableEq K] {db db' : Database K R}
    {g : R → V}
    (h : ∀ k : K, (db.mapRecords[k]?.map g).getD 0 = (db'.mapRecords[k]?.map g).getD 0) :
    db.sumOver g = db'.sumOver g := by
  let keys : Finset K := db.getKeys.toFinset ∪ db'.getKeys.toFinset
  have hleft : ∀ k ∈ db.getKeys, k ∈ keys := fun k hk =>
    Finset.mem_union_left _ (List.mem_toFinset.mpr hk)
  have hright : ∀ k ∈ db'.getKeys, k ∈ keys := fun k hk =>
    Finset.mem_union_right _ (List.mem_toFinset.mpr hk)
  rw [sumOver_eq_sum db g hleft, sumOver_eq_sum db' g hright]
  exact Finset.sum_congr rfl fun k _ => h k

end Database

namespace DataRegistry

def totalShares (s : DataRegistry) : UInt64 := s.mAccountDb.sumOver (·.nRoundShares)

end DataRegistry

namespace PayoutManager

/-! ### The handlers, call by call -/

theorem shareCredit_zero (nTotalWeight reward : UInt64) :
    shareCredit nTotalWeight reward 0 = 0 := by
  simp [shareCredit, truncate]

theorem exec_addWeight {s : DataRegistry} {key : Bytes} {r : Account} (h : s.account? key = some r)
    (weight : UInt64) : exec (addWeight weight key) s = (weight + r.nRoundShares, s) := by
  have hdb : s.mAccountDb.mapRecords[key]? = some r := h
  simp [addWeight, Call.handle, Database.getRecord_of_some hdb]

theorem exec_addWeights (s : DataRegistry) {keys : List Bytes} (weight : UInt64)
    (hkeys : ∀ k ∈ keys, k ∈ s.mAccountDb.getKeys) : exec (keys.foldlM addWeight weight) s =
      (weight + (keys.map fun k => ((s.account? k).map (·.nRoundShares)).getD 0).sum, s) := by
  induction keys generalizing weight with
  | nil => simp
  | cons k keys ih =>
    obtain ⟨r, hr⟩ := Database.mem_getKeys.mp (hkeys k List.mem_cons_self)
    have hr : s.account? k = some r := hr
    rw [List.foldlM_cons, exec_bind, exec_addWeight hr,
      ih _ fun k hk => hkeys k (List.mem_cons_of_mem _ hk)]
    simp [hr, add_assoc]

theorem exec_totalWeight (s : DataRegistry) : exec totalWeight s = (s.totalShares, s) := by
  have hkeys : ∀ k ∈ s.mAccountDb.getKeys, k ∈ s.mAccountDb.getKeys := fun _ hk => hk
  have hloop := exec_addWeights s 0 hkeys
  rw [zero_add] at hloop
  exact hloop

end PayoutManager

namespace Account

/-- What the loop makes of an account: first the output of the coinbase, then the credit. -/
def pay (r : Account) (nOutput nTotalWeight reward : UInt64) : Account :=
  (r.debit nOutput).credit (PayoutManager.shareCredit nTotalWeight reward r.nRoundShares)

@[simp] theorem cKey_pay (r : Account) (nOutput nTotalWeight reward : UInt64) :
    (r.pay nOutput nTotalWeight reward).cKey = r.cKey := rfl

@[simp] theorem nRoundShares_pay (r : Account) (nOutput nTotalWeight reward : UInt64) :
    (r.pay nOutput nTotalWeight reward).nRoundShares = r.nRoundShares := rfl

end Account

namespace PayoutManager

/-- A turn stores the record only if it has an output or shares. -/
theorem exec_payAccount {s : DataRegistry} {key : Bytes} {r : Account}
    (h : s.account? key = some r) (nTotalWeight reward : UInt64) (sums : Credits × UInt64) :
    exec (payAccount nTotalWeight reward sums key) s =
      (if r.nRoundShares = 0 then sums else
        (sums.1.addCredit key (shareCredit nTotalWeight reward r.nRoundShares),
          sums.2 + shareCredit nTotalWeight reward r.nRoundShares),
        { s with
          mAccountDb :=
            if s.mCoinbase.findAddress key ∨ r.nRoundShares ≠ 0 then
              s.mAccountDb.updateRecord
                (r.pay (s.mCoinbase.mapOutputs.getD key 0) nTotalWeight reward)
            else s.mAccountDb }) := by
  have hdb : s.mAccountDb.mapRecords[key]? = some r := h
  cases hout : s.mCoinbase.mapOutputs[key]? with
  | some v =>
    by_cases hshares : r.nRoundShares = 0
    · simp [payAccount, Call.handle, Database.getRecord_of_some hdb, Coinbase.findAddress,
        Coinbase.getMapOutputs, hout, hshares, Account.pay, shareCredit_zero,
        ExtTreeMap.getD_eq_getD_getElem?, ExtTreeMap.contains_eq_isSome_getElem?]
    · simp [payAccount, Call.handle, Database.getRecord_of_some hdb, Coinbase.findAddress,
        Coinbase.getMapOutputs, hout, hshares, Account.pay,
        ExtTreeMap.getD_eq_getD_getElem?, ExtTreeMap.contains_eq_isSome_getElem?]
      exact Database.updateRecord_updateRecord _ rfl
  | none =>
    by_cases hshares : r.nRoundShares = 0
    · simp [payAccount, Call.handle, Database.getRecord_of_some hdb, Coinbase.findAddress,
        hout, hshares, ExtTreeMap.contains_eq_isSome_getElem?]
    · simp [payAccount, Call.handle, Database.getRecord_of_some hdb, Coinbase.findAddress,
        hout, hshares, Account.pay, ExtTreeMap.getD_eq_getD_getElem?,
        ExtTreeMap.contains_eq_isSome_getElem?]

/-- The credit an account earns by its shares. -/
def earned (s : DataRegistry) (nTotalWeight reward : UInt64) (key : Bytes) : UInt64 :=
  ((s.account? key).map fun r => shareCredit nTotalWeight reward r.nRoundShares).getD 0

/-- The shares of an account, and none where there is none. -/
def sharesAt (s : DataRegistry) (k : Bytes) : UInt64 :=
  ((s.account? k).map (·.nRoundShares)).getD 0

theorem earned_eq (s : DataRegistry) (nTotalWeight reward : UInt64) (k : Bytes) :
    earned s nTotalWeight reward k = shareCredit nTotalWeight reward (sharesAt s k) := by
  rw [earned, sharesAt]
  cases s.account? k with
  | some r => rfl
  | none => exact (shareCredit_zero _ _).symm

/-- Equal shares make equal sums of what depends on them. -/
theorem sumOver_shares_congr {s s' : DataRegistry} (h : ∀ k, sharesAt s k = sharesAt s' k)
    {g : UInt64 → UInt64} (hg : g 0 = 0) :
    (s.mAccountDb.sumOver fun r => g r.nRoundShares) =
      s'.mAccountDb.sumOver fun r => g r.nRoundShares := by
  have hvalue (s : DataRegistry) (k : Bytes) :
      ((s.mAccountDb.mapRecords[k]?).map fun r => g r.nRoundShares).getD 0 = g (sharesAt s k) := by
    rw [sharesAt, account?]
    cases s.mAccountDb.mapRecords[k]? with
    | some r => rfl
    | none => exact hg.symm
  refine Database.sumOver_congr_getD fun k => ?_
  rw [hvalue, hvalue, h k]

/-- The state of the loop over the accounts. Other parts of the registry are as before, and so are
shares and keys, except perhaps under the empty key. -/
structure Sharing (s : DataRegistry) (p : (Credits × UInt64) × DataRegistry) : Prop where
  rest : p.2 = { s with mAccountDb := p.2.mAccountDb }
  keyed : p.2.mAccountDb.WellKeyed
  filed : ∀ k, k ≠ [] → p.2.mAccountDb.filed k = s.mAccountDb.filed k
  shares : ∀ k, k ≠ [] →
    (p.2.account? k).map (·.nRoundShares) = (s.account? k).map (·.nRoundShares)
  home : s.mAccountDb.hasKey [] → p.2.mAccountDb.hasKey []

abbrev payTurn (nTotalWeight reward : UInt64) (p : (Credits × UInt64) × DataRegistry)
    (key : Bytes) :
    (Credits × UInt64) × DataRegistry :=
  exec (payAccount nTotalWeight reward p.1 key) p.2

/-- The turn of a key without a record of its own stores the blank record if there is an output. -/
def displaces (s : DataRegistry) (key : Bytes) : Bool :=
  !s.mAccountDb.filed key && s.mCoinbase.findAddress key

theorem pay_blank (nOutput nTotalWeight reward : UInt64) :
    (Account.new []).pay nOutput nTotalWeight reward = Account.new [] := by
  simp [Account.pay, Account.debit, Account.credit, Account.new, shareCredit_zero]

theorem account?_of_notMem {s : DataRegistry} {key : Bytes} (hk : key ∉ s.mAccountDb.getKeys) :
    s.account? key = none := by
  cases hr : s.account? key with
  | some r => exact absurd (Database.mem_getKeys.mpr ⟨r, hr⟩) hk
  | none => rfl

section Turn

variable {s : DataRegistry} {nTotalWeight reward : UInt64} {p : (Credits × UInt64) × DataRegistry}
  {key : Bytes}

theorem Sharing.start {sums : Credits × UInt64} (hkeyed : s.mAccountDb.WellKeyed) :
    Sharing s (sums, s) := ⟨rfl, hkeyed, fun _ _ => rfl, fun _ _ => rfl, id⟩

theorem Sharing.mCoinbase (h : Sharing s p) : p.2.mCoinbase = s.mCoinbase := by rw [h.rest]

/-- The account of a turn is there, and away from the empty key with the shares it had. -/
theorem Sharing.find (h : Sharing s p) (hkey : key ∈ s.mAccountDb.getKeys) :
    ∃ r, p.2.account? key = some r ∧
      (key ≠ [] → earned s nTotalWeight reward key =
        shareCredit nTotalWeight reward r.nRoundShares) := by
  obtain ⟨r₀, hr₀⟩ := Database.mem_getKeys.mp hkey
  have hr₀ : s.account? key = some r₀ := hr₀
  by_cases hempty : key = []
  · subst hempty
    obtain ⟨r, hr⟩ := Database.hasKey_iff.mp (h.home (Database.hasKey_iff.mpr ⟨r₀, hr₀⟩))
    exact ⟨r, hr, fun hne => absurd rfl hne⟩
  · have hshares := h.shares key hempty
    rw [hr₀] at hshares
    obtain ⟨r, hr, hsame⟩ := Option.map_eq_some_iff.mp hshares
    exact ⟨r, hr, fun _ => by simp [earned, hr₀, hsame]⟩

/-- What a turn stores goes under the key of the turn, or it is the blank record. -/
theorem Sharing.account_turn (h : Sharing s p) {r : Account} (hr : p.2.account? key = some r)
    (k : Bytes) : (payTurn nTotalWeight reward p key).2.account? k =
      if p.2.mAccountDb.filed key then
        if key = k then some (r.pay (s.mCoinbase.mapOutputs.getD key 0) nTotalWeight reward)
        else p.2.account? k
      else if k = [] ∧ s.mCoinbase.findAddress key then some (Account.new [])
      else p.2.account? k := by
  have hdb : p.2.mAccountDb.mapRecords[key]? = some r := hr
  rw [payTurn, exec_payAccount hr, h.mCoinbase]
  simp only [account?]
  by_cases hfiled : p.2.mAccountDb.filed key
  · have hown : r.cKey = key := (Database.filed_of_some hdb).mp hfiled
    rw [if_pos hfiled]
    by_cases hstores : s.mCoinbase.findAddress key ∨ r.nRoundShares ≠ 0
    · rw [if_pos hstores, Database.find_updateRecord, Account.record_cKey, Account.cKey_pay, hown]
    · rw [if_neg hstores]
      obtain ⟨hnone, hshares⟩ := not_or.mp hstores
      split_ifs with hk
      · have hzero : s.mCoinbase.mapOutputs.getD key 0 = 0 := by
          apply ExtTreeMap.getD_eq_fallback
          simpa [Coinbase.findAddress] using hnone
        rw [← hk, hdb, Account.pay, hzero, not_not.mp hshares, shareCredit_zero, Account.debit_zero,
          Account.credit_zero]
      · rfl
  · obtain rfl := (h.keyed key r hdb).resolve_left ((Database.filed_of_some hdb).not.mp hfiled)
    have hshares : ¬ (Account.new []).nRoundShares ≠ 0 := not_not.mpr rfl
    rw [if_neg hfiled, Account.record_blank, pay_blank]
    by_cases hpaid : s.mCoinbase.findAddress key
    · rw [if_pos (.inl hpaid), Database.find_updateRecord, Account.record_cKey]
      by_cases hk : k = []
      · subst hk
        simp [hpaid, Account.new]
      · rw [if_neg (fun heq => hk heq.symm), if_neg fun hand => hk hand.1]
    · rw [if_neg (not_or.mpr ⟨hpaid, hshares⟩), if_neg fun hand => hpaid hand.2]

theorem Sharing.account_turn_of_ne (h : Sharing s p) (hkey : key ∈ s.mAccountDb.getKeys) {k : Bytes}
    (hk : k ≠ []) : (payTurn nTotalWeight reward p key).2.account? k =
      if key = k then
        (p.2.account? k).map (·.pay (s.mCoinbase.mapOutputs.getD k 0) nTotalWeight reward)
      else p.2.account? k := by
  obtain ⟨r, hr, -⟩ := @Sharing.find _ nTotalWeight reward _ _ h hkey
  rw [h.account_turn hr]
  by_cases hfiled : p.2.mAccountDb.filed key
  · rw [if_pos hfiled]
    split_ifs with hkk
    · rw [← hkk, hr, Option.map_some]
    · rfl
  · rw [if_neg hfiled, if_neg fun hand => hk hand.1]
    split_ifs with hkk
    · have hdb : p.2.mAccountDb.mapRecords[key]? = some r := hr
      obtain rfl := (h.keyed key r hdb).resolve_left ((Database.filed_of_some hdb).not.mp hfiled)
      rw [← hkk, hr, Option.map_some, Account.record_blank, pay_blank]
    · rfl

/-- The turn of another key leaves the account with the empty key alone or replaces it. -/
theorem Sharing.account_turn_blank (h : Sharing s p) (hkey : key ∈ s.mAccountDb.getKeys)
    (hne : key ≠ []) : (payTurn nTotalWeight reward p key).2.account? [] =
      if displaces s key then some (Account.new []) else p.2.account? [] := by
  obtain ⟨r, hr, -⟩ := @Sharing.find _ nTotalWeight reward _ _ h hkey
  rw [h.account_turn hr, h.filed key hne, displaces]
  by_cases hfiled : s.mAccountDb.filed key
  · simp [hfiled, hne]
  · simp [hfiled]

theorem Sharing.step (h : Sharing s p) (hkey : key ∈ s.mAccountDb.getKeys) :
    Sharing s (payTurn nTotalWeight reward p key) := by
  obtain ⟨r, hr, -⟩ := @Sharing.find _ nTotalWeight reward _ _ h hkey
  have hdb : p.2.mAccountDb.mapRecords[key]? = some r := hr
  have hexec := exec_payAccount hr nTotalWeight reward p.1
  refine ⟨?_, ?_, fun k hk => ?_, fun k hk => ?_, fun hhome => ?_⟩
  · rw [payTurn, hexec]
    rw [h.rest]
  · rw [payTurn, hexec]
    simp only
    split_ifs
    · exact h.keyed.updateRecord _
    · exact h.keyed
  · rw [← h.filed k hk]
    have haccount := @Sharing.account_turn_of_ne _ nTotalWeight reward _ _ h hkey k hk
    simp only [account?] at haccount
    simp only [Database.filed, haccount]
    split_ifs
    · cases p.2.mAccountDb.mapRecords[k]? <;> rfl
    · rfl
  · rw [h.account_turn_of_ne hkey hk, ← h.shares k hk]
    split_ifs
    · cases p.2.account? k <;> rfl
    · rfl
  · obtain ⟨q, hq⟩ := Database.hasKey_iff.mp (h.home hhome)
    have hq : p.2.account? [] = some q := hq
    have haccount : ∃ q', (payTurn nTotalWeight reward p key).2.account? [] = some q' := by
      rw [h.account_turn hr, hq]
      split_ifs <;> exact ⟨_, rfl⟩
    exact Database.hasKey_iff.mpr haccount

/-- The credits gain the earned amount, also where that is zero and nothing is entered. -/
theorem payTurn_credit {r : Account} (hr : p.2.account? key = some r) (k : Bytes) :
    (payTurn nTotalWeight reward p key).1.1.mapCredits.getD k 0 =
      if key = k then
        p.1.1.mapCredits.getD k 0 + shareCredit nTotalWeight reward r.nRoundShares
      else p.1.1.mapCredits.getD k 0 := by
  rw [payTurn, exec_payAccount hr]
  by_cases hshares : r.nRoundShares = 0
  · simp [hshares, shareCredit_zero]
  · by_cases hk : key = k
    · subst hk
      simp [hshares, Credits.addCredit]
    · simp [hshares, Credits.addCredit, hk, ExtTreeMap.getD_insert]

theorem payTurn_total {r : Account} (hr : p.2.account? key = some r) :
    (payTurn nTotalWeight reward p key).1.2 =
      p.1.2 + shareCredit nTotalWeight reward r.nRoundShares := by
  rw [payTurn, exec_payAccount hr]
  by_cases hshares : r.nRoundShares = 0
  · simp [hshares, shareCredit_zero]
  · simp [hshares]

theorem payTurn_mem {r : Account} (hr : p.2.account? key = some r) {k : Bytes}
    (hk : k ∈ (payTurn nTotalWeight reward p key).1.1.mapCredits) :
    k ∈ p.1.1.mapCredits ∨ k = key := by
  rw [payTurn, exec_payAccount hr] at hk
  by_cases hshares : r.nRoundShares = 0
  · exact .inl (by simpa [hshares] using hk)
  · simp only [hshares, if_false, Credits.addCredit, ExtTreeMap.mem_insert] at hk
    rcases hk with hk | hk
    · exact .inr (Std.compare_eq_iff_eq.mp hk).symm
    · exact .inl hk

end Turn

/-! ### All turns -/

section Loop

variable (s : DataRegistry) (nTotalWeight reward : UInt64)

def payLoop (sums : Credits × UInt64) : (Credits × UInt64) × DataRegistry :=
  s.mAccountDb.getKeys.foldl (payTurn nTotalWeight reward) (sums, s)

theorem exec_payAccounts (sums : Credits × UInt64) :
    exec (s.mAccountDb.getKeys.foldlM (payAccount nTotalWeight reward) sums) s =
      payLoop s nTotalWeight reward sums :=
  Program.run_foldlM Call.handle _ _ _ _

variable {s nTotalWeight reward} {sums : Credits × UInt64}

theorem Sharing.all_steps : ∀ k ∈ s.mAccountDb.getKeys, ∀ p, Sharing s p →
    Sharing s (payTurn nTotalWeight reward p k) := fun _ hk _ h => h.step hk

/-- The account with the empty key comes first. -/
theorem getKeys_of_blank (h : [] ∈ s.mAccountDb.getKeys) :
    ∃ others, s.mAccountDb.getKeys = [] :: others ∧ ∀ k ∈ others, k ≠ [] := by
  have hnodup := s.mAccountDb.nodup_getKeys
  have hordered : s.mAccountDb.getKeys.Pairwise fun a b => compare a b = .lt :=
    s.mAccountDb.mapRecords.ordered_keys
  cases hkeys : s.mAccountDb.getKeys with
  | nil =>
    rw [hkeys] at h
    cases h
  | cons k others =>
    rw [hkeys] at h hnodup hordered
    have hfirst : k = [] := by
      rcases List.mem_cons.mp h with hk | hmem
      · exact hk.symm
      · have hlt := (List.pairwise_cons.mp hordered).1 [] hmem
        cases k <;> simp [compare, List.compareLex] at hlt
    subst hfirst
    refine ⟨others, rfl, ?_⟩
    rintro k hk rfl
    exact (List.nodup_cons.mp hnodup).1 hk

/-- The loop is the turn of the empty key, if that has an account, and those of the others. What
is stored so far when the others begin tells of the account with the empty key. -/
theorem payLoop_split (hkeyed : s.mAccountDb.WellKeyed) (sums : Credits × UInt64) :
    ∃ (others : List Bytes) (p : (Credits × UInt64) × DataRegistry),
      (∀ k ∈ others, k ∈ s.mAccountDb.getKeys ∧ k ≠ []) ∧
      (∀ k ∈ s.mAccountDb.getKeys, k ≠ [] → k ∈ others) ∧
      payLoop s nTotalWeight reward sums = others.foldl (payTurn nTotalWeight reward) p ∧
      Sharing s p ∧
      p.2.account? [] = (s.account? []).map
        (·.pay (s.mCoinbase.mapOutputs.getD [] 0) nTotalWeight reward) ∧
      p.1.1.mapCredits.getD [] 0 =
        sums.1.mapCredits.getD [] 0 + earned s nTotalWeight reward [] ∧
      p.1.2 + (others.map (earned s nTotalWeight reward)).sum =
        sums.2 + (s.mAccountDb.getKeys.map (earned s nTotalWeight reward)).sum := by
  have hstart : Sharing s (sums, s) := .start hkeyed
  by_cases hhome : [] ∈ s.mAccountDb.getKeys
  · obtain ⟨r, hr⟩ := Database.mem_getKeys.mp hhome
    have haccount : s.account? [] = some r := hr
    have hfiled : s.mAccountDb.filed [] := hkeyed.filed_blank_of_some hr
    have hearned : earned s nTotalWeight reward [] =
        shareCredit nTotalWeight reward r.nRoundShares := by simp [earned, haccount]
    obtain ⟨others, hkeys, hothers⟩ := getKeys_of_blank hhome
    refine ⟨others, payTurn nTotalWeight reward (sums, s) [], fun k hk => ⟨?_, hothers k hk⟩,
      fun k hk hne => ?_, ?_, hstart.step hhome, ?_, ?_, ?_⟩
    · rw [hkeys]
      exact List.mem_cons_of_mem _ hk
    · rw [hkeys] at hk
      exact (List.mem_cons.mp hk).resolve_left hne
    · rw [payLoop, hkeys, List.foldl_cons]
    · rw [hstart.account_turn haccount, if_pos hfiled, if_pos rfl, haccount, Option.map_some]
    · rw [payTurn_credit haccount, if_pos rfl, hearned]
    · rw [payTurn_total haccount, hkeys, List.map_cons, List.sum_cons, hearned, add_assoc]
  · have hnone := account?_of_notMem hhome
    refine ⟨s.mAccountDb.getKeys, (sums, s), fun k hk => ⟨hk, ?_⟩, fun k hk _ => hk, rfl, hstart,
      ?_, ?_, rfl⟩
    · rintro rfl
      exact hhome hk
    · simp [hnone]
    · simp [earned, hnone]

variable (hkeyed : s.mAccountDb.WellKeyed)
include hkeyed

theorem sharing_payLoop : Sharing s (payLoop s nTotalWeight reward sums) :=
  Loop.foldl_inv Sharing.all_steps (.start hkeyed)

theorem payLoop_account_of_ne {k : Bytes} (hne : k ≠ []) :
    (payLoop s nTotalWeight reward sums).2.account? k =
      (s.account? k).map (·.pay (s.mCoinbase.mapOutputs.getD k 0) nTotalWeight reward) := by
  have hstart : Sharing s (sums, s) := .start hkeyed
  have hframe : ∀ a ∈ s.mAccountDb.getKeys, a ≠ k → ∀ p, Sharing s p →
      (payTurn nTotalWeight reward p a).2.account? k = p.2.account? k := by
    intro a ha hak p h
    rw [h.account_turn_of_ne ha hne, if_neg hak]
  by_cases hk : k ∈ s.mAccountDb.getKeys
  · refine Loop.foldl_of_mem (fun p : (Credits × UInt64) × DataRegistry => p.2.account? k)
      Sharing.all_steps hk s.mAccountDb.nodup_getKeys hframe (Option.map _) ?_ hstart
    intro p h
    rw [h.account_turn_of_ne hk hne, if_pos rfl]
  · rw [payLoop, Loop.foldl_frame (fun p : (Credits × UInt64) × DataRegistry => p.2.account? k)
      Sharing.all_steps (fun a ha => hframe a ha fun hak => hk (hak ▸ ha)) hstart,
      account?_of_notMem hk]
    rfl

/-- The account with the empty key is paid, and replaced if a foreign key displaces it. -/
theorem payLoop_account_blank : (payLoop s nTotalWeight reward sums).2.account? [] =
    if s.mAccountDb.getKeys.any fun k => decide (k ≠ []) && displaces s k then some (Account.new [])
    else (s.account? []).map (·.pay (s.mCoinbase.mapOutputs.getD [] 0) nTotalWeight reward) := by
  obtain ⟨others, p, hothers, hall, hloop, hp, haccount, -, -⟩ :=
    @payLoop_split s nTotalWeight reward hkeyed sums
  have hsame : (s.mAccountDb.getKeys.any fun k => decide (k ≠ []) && displaces s k) =
      others.any (displaces s) := by
    rw [Bool.eq_iff_iff, List.any_eq_true, List.any_eq_true]
    constructor
    · rintro ⟨k, hk, hand⟩
      obtain ⟨hne, hdisplaces⟩ := Bool.and_eq_true_iff.mp hand
      exact ⟨k, hall k hk (by simpa using hne), hdisplaces⟩
    · rintro ⟨k, hk, hdisplaces⟩
      obtain ⟨hmem, hne⟩ := hothers k hk
      exact ⟨k, hmem, by simp [hne, hdisplaces]⟩
  rw [hsame, hloop, ← haccount]
  clear hloop haccount hsame hall
  induction others generalizing p with
  | nil => rfl
  | cons k others ih =>
    obtain ⟨hmem, hne⟩ := hothers k List.mem_cons_self
    rw [List.foldl_cons, ih _ (fun a ha => hothers a (List.mem_cons_of_mem _ ha)) (hp.step hmem),
      hp.account_turn_blank hmem hne, List.any_cons]
    cases displaces s k <;> cases others.any (displaces s) <;> rfl

theorem payLoop_credit (k : Bytes) :
    (payLoop s nTotalWeight reward sums).1.1.mapCredits.getD k 0 =
      sums.1.mapCredits.getD k 0 + earned s nTotalWeight reward k := by
  have hstart : Sharing s (sums, s) := .start hkeyed
  let view (p : (Credits × UInt64) × DataRegistry) : UInt64 := p.1.1.mapCredits.getD k 0
  have hframe : ∀ a ∈ s.mAccountDb.getKeys, a ≠ k → ∀ p, Sharing s p →
      view (payTurn nTotalWeight reward p a) = view p := by
    intro a ha hak p h
    obtain ⟨r, hr, -⟩ := @Sharing.find _ nTotalWeight reward _ _ h ha
    simp only [view, payTurn_credit hr, if_neg hak]
  by_cases hempty : k = []
  · subst hempty
    obtain ⟨others, p, hothers, -, hloop, hp, -, hcredit, -⟩ :=
      @payLoop_split s nTotalWeight reward hkeyed sums
    rw [hloop, ← hcredit]
    exact Loop.foldl_frame view (fun a ha _ h => h.step (hothers a ha).1)
      (fun a ha => hframe a (hothers a ha).1 (hothers a ha).2) hp
  · by_cases hk : k ∈ s.mAccountDb.getKeys
    · refine Loop.foldl_of_mem view Sharing.all_steps hk s.mAccountDb.nodup_getKeys hframe
        (· + earned s nTotalWeight reward k) ?_ hstart
      intro p h
      obtain ⟨r, hr, hearned⟩ := @Sharing.find _ nTotalWeight reward _ _ h hk
      simp only [view, payTurn_credit hr, if_true, hearned hempty]
    · rw [earned, account?_of_notMem hk]
      refine (Loop.foldl_frame view Sharing.all_steps
        (fun a ha => hframe a ha fun hak => hk (hak ▸ ha)) hstart).trans ?_
      simp [view]

theorem payLoop_mem {k : Bytes} (hk : k ∈ (payLoop s nTotalWeight reward sums).1.1.mapCredits) :
    k ∈ sums.1.mapCredits ∨ k ∈ s.mAccountDb.getKeys := by
  let Inv (p : (Credits × UInt64) × DataRegistry) : Prop := Sharing s p ∧
    (k ∈ p.1.1.mapCredits → k ∈ sums.1.mapCredits ∨ k ∈ s.mAccountDb.getKeys)
  have hstep : ∀ a ∈ s.mAccountDb.getKeys, ∀ p, Inv p → Inv (payTurn nTotalWeight reward p a) := by
    rintro a ha p ⟨h, hmem⟩
    obtain ⟨r, hr, -⟩ := @Sharing.find _ nTotalWeight reward _ _ h ha
    refine ⟨h.step ha, fun hk => ?_⟩
    rcases payTurn_mem hr hk with hk | rfl
    · exact hmem hk
    · exact .inr ha
  exact (Loop.foldl_inv hstep ⟨.start hkeyed, .inl⟩).2 hk

theorem payLoop_total : (payLoop s nTotalWeight reward sums).1.2 = sums.2 +
    s.mAccountDb.sumOver fun r => shareCredit nTotalWeight reward r.nRoundShares := by
  obtain ⟨others, p, hothers, -, hloop, hp, -, -, htotal⟩ :=
    @payLoop_split s nTotalWeight reward hkeyed sums
  refine hloop ▸ (Loop.foldl_sum (fun p : (Credits × UInt64) × DataRegistry => p.1.2)
    (earned s nTotalWeight reward) (fun a ha _ h => h.step (hothers a ha).1) ?_ hp).trans htotal
  intro a ha p h
  obtain ⟨r, hr, hearned⟩ := @Sharing.find _ nTotalWeight reward _ _ h (hothers a ha).1
  rw [payTurn_total hr, hearned (hothers a ha).2]

end Loop

end PayoutManager

end NexusPool
