import NexusPool.Ledger.Payout
import NexusPool.Library.Serializability

/-!
# Handlers that overlap

Shares, logins, payouts and refunds come from different connections and interleave call by
call. Each call reads and writes a few parts of the registry. When the conflicting calls
of different handlers all follow one order of the handlers, the registry ends up as after
running the handlers in that order. Two handlers that read the same account before either
has stored it have no such order, and one of the two updates is lost.
-/

namespace NexusPool

open Concurrent DataRegistry
open Std (ExtTreeMap)

/-- The requests and packets whose handling changes accounts. -/
inductive Request
  | submitShare (nxsAddress : Bytes) (weight : UInt64)
  | login (nxsAddress : Bytes)
  | good (reward : UInt64) (hashSubmitBlock : Uint1024) (lastBlockfinder : Bytes)
  | orphanBlock (hashOrphan : Uint1024)

/-- A `GOOD` pays out and then clears the shares of the round. -/
def Request.handler : Request → Handler Unit
  | submitShare nxsAddress weight => PoolConnection.acceptShare nxsAddress weight
  | login nxsAddress => PoolConnection.openAccount nxsAddress
  | good reward hashSubmitBlock lastBlockfinder => do
    PayoutManager.updateBalances reward hashSubmitBlock lastBlockfinder
    PayoutManager.clearShares
  | orphanBlock hashOrphan => PayoutManager.refundPayouts hashOrphan

namespace DataRegistry

/-! ### What each call reads and writes -/

/-- The parts of the registry that calls share. -/
inductive Part
  | account (cKey : Bytes)
  | accountKeys
  | block (cKey : Uint1024)
  | coinbase
  | settings

namespace Part

@[reducible] def Value : Part → Type
  | account _ => Option Account
  | accountKeys => Bytes → Bool
  | block _ => Option Block
  | coinbase => Coinbase
  | settings => BannedUsers × Config × UInt32 × UInt32

def view : (x : Part) → DataRegistry → Value x
  | account cKey, s => s.mAccountDb.mapRecords[cKey]?
  | accountKeys, s => s.mAccountDb.hasKey
  | block cKey, s => s.mBlockDb.mapRecords[cKey]?
  | coinbase, s => s.mCoinbase
  | settings, s => (s.mBannedUsers, s.mConfig, s.mBestHeight, s.mCurrentRound)

end Part

/-- `s` still has all accounts, blocks and outputs that `s₀` has. -/
structure Extends (s₀ s : DataRegistry) : Prop where
  account : ∀ k, s₀.mAccountDb.hasKey k → s.mAccountDb.hasKey k
  block : ∀ k, s₀.mBlockDb.hasKey k → s.mBlockDb.hasKey k
  output : ∀ k, s₀.mCoinbase.findAddress k → s.mCoinbase.findAddress k

namespace Call

/-- Reading an account that exists reads that account alone; a key that may be new can
change which keys there are. -/
def reads (s₀ : DataRegistry) : Call → Set Part
  | accountKeys => {.accountKeys}
  | accountHasKey cKey => {x | ¬ s₀.mAccountDb.hasKey cKey ∧ x = .account cKey}
  | accountGet cKey => {x | x = .account cKey ∨ ¬ s₀.mAccountDb.hasKey cKey ∧ x = .accountKeys}
  | accountUpdate cRecord => {x | ¬ s₀.mAccountDb.hasKey cRecord.cKey ∧ x = .accountKeys}
  | accountWrite => ∅
  | blockGet cKey => {.block cKey}
  | blockUpdate _ => ∅
  | blockWrite => ∅
  | coinbase => {.coinbase}
  | findAddress nxsAddress => {x | ¬ s₀.mCoinbase.findAddress nxsAddress ∧ x = .coinbase}
  | mapOutputs _ => {.coinbase}
  | currentRound => {.settings}
  | poolFee => {.settings}

def writes (s₀ : DataRegistry) : Call → Set Part
  | accountGet cKey =>
    {x | ¬ s₀.mAccountDb.hasKey cKey ∧ (x = .account cKey ∨ x = .accountKeys)}
  | accountUpdate cRecord =>
    {x | x = .account cRecord.cKey ∨ ¬ s₀.mAccountDb.hasKey cRecord.cKey ∧ x = .accountKeys}
  | blockGet cKey => {x | ¬ s₀.mBlockDb.hasKey cKey ∧ x = .block cKey}
  | blockUpdate cRecord => {.block cRecord.cKey}
  | mapOutputs nxsAddress => {x | ¬ s₀.mCoinbase.findAddress nxsAddress ∧ x = .coinbase}
  | _ => ∅

end Call

end DataRegistry

namespace DataRegistry

/-! ### The footprint -/

section Footprint

variable {s₀ : DataRegistry}

theorem Extends.handle (c : Call) {s : DataRegistry} (h : Extends s₀ s) :
    Extends s₀ (Call.handle c s).2 := by
  cases c with
  | accountGet cKey =>
    refine ⟨fun k hk => ?_, h.block, h.output⟩
    simp [Call.handle, Database.hasKey_getRecord, h.account k hk]
  | accountUpdate cRecord =>
    refine ⟨fun k hk => ?_, h.block, h.output⟩
    simp [Call.handle, Database.hasKey_updateRecord, h.account k hk]
  | blockGet cKey =>
    refine ⟨h.account, fun k hk => ?_, h.output⟩
    simp [Call.handle, Database.hasKey_getRecord, h.block k hk]
  | blockUpdate cRecord =>
    refine ⟨h.account, fun k hk => ?_, h.output⟩
    simp [Call.handle, Database.hasKey_updateRecord, h.block k hk]
  | mapOutputs nxsAddress =>
    refine ⟨h.account, h.block, fun k hk => ?_⟩
    exact Coinbase.findAddress_getMapOutputs _ nxsAddress (h.output k hk)
  | _ => exact h

theorem view_ext {s t : DataRegistry} (h : ∀ x : Part, x.view s = x.view t) : s = t := by
  have hsettings := h .settings
  simp only [Part.view, Prod.mk.injEq] at hsettings
  obtain ⟨hbanned, hconfig, hheight, hround⟩ := hsettings
  ext1
  · ext1
    exact ExtTreeMap.ext_getElem? fun {k} => h (.block k)
  · ext1
    exact ExtTreeMap.ext_getElem? fun {k} => h (.account k)
  · exact h .coinbase
  · exact hbanned
  · exact hconfig
  · exact hheight
  · exact hround

theorem handle_accountGet_of_hasKey {s : DataRegistry} {cKey : Bytes}
    (h : s.mAccountDb.hasKey cKey) :
    (Call.handle (.accountGet cKey) s).2 = s := by
  simp [Call.handle, Database.getRecord_of_hasKey h]

theorem handle_blockGet_of_hasKey {s : DataRegistry} {cKey : Uint1024}
    (h : s.mBlockDb.hasKey cKey) :
    (Call.handle (.blockGet cKey) s).2 = s := by
  simp [Call.handle, Database.getRecord_of_hasKey h]

theorem handle_mapOutputs_of_findAddress {s : DataRegistry} {nxsAddress : Bytes}
    (h : s.mCoinbase.findAddress nxsAddress) : (Call.handle (.mapOutputs nxsAddress) s).2 = s := by
  simp [Call.handle, Coinbase.getMapOutputs_of_findAddress h]

/-- A call leaves every part alone that it does not write. -/
theorem frame (c : Call) {s : DataRegistry} (h : Extends s₀ s) (x : Part)
    (hx : x ∉ c.writes s₀) : x.view (Call.handle c s).2 = x.view s := by
  cases c with
  | accountGet cKey =>
    by_cases hk : s₀.mAccountDb.hasKey cKey
    · rw [handle_accountGet_of_hasKey (h.account cKey hk)]
    · obtain ⟨hself, hkeys⟩ : x ≠ .account cKey ∧ x ≠ .accountKeys := by
        simpa [Call.writes, hk] using hx
      cases x with
      | account k =>
        have hne : cKey ≠ k := fun he => hself (he ▸ rfl)
        simp [Part.view, Call.handle, Database.find_getRecord, hne]
      | accountKeys => exact absurd rfl hkeys
      | _ => rfl
  | accountUpdate cRecord =>
    obtain ⟨hself, hkeys⟩ : x ≠ .account cRecord.cKey ∧
        (¬ s₀.mAccountDb.hasKey cRecord.cKey → x ≠ .accountKeys) := by
      simpa [Call.writes] using hx
    cases x with
    | account k =>
      have hne : cRecord.cKey ≠ k := fun he => hself (he ▸ rfl)
      simp [Part.view, Call.handle, Database.find_updateRecord, hne]
    | accountKeys =>
      have hk : s.mAccountDb.hasKey cRecord.cKey :=
        h.account _ (by_contra fun hk => hkeys hk rfl)
      funext k
      by_cases he : cRecord.cKey = k
      · subst he
        simp [Part.view, Call.handle, Database.hasKey_updateRecord, hk]
      · simp [Part.view, Call.handle, Database.hasKey_updateRecord, he]
    | _ => rfl
  | blockGet cKey =>
    by_cases hk : s₀.mBlockDb.hasKey cKey
    · rw [handle_blockGet_of_hasKey (h.block cKey hk)]
    · have hself : x ≠ .block cKey := by simpa [Call.writes, hk] using hx
      cases x with
      | block k =>
        have hne : cKey ≠ k := fun he => hself (he ▸ rfl)
        simp [Part.view, Call.handle, Database.find_getRecord, hne]
      | _ => rfl
  | blockUpdate cRecord =>
    have hself : x ≠ .block cRecord.cKey := by simpa [Call.writes] using hx
    cases x with
    | block k =>
      have hne : cRecord.cKey ≠ k := fun he => hself (he ▸ rfl)
      simp [Part.view, Call.handle, Database.find_updateRecord, hne]
    | _ => rfl
  | mapOutputs nxsAddress =>
    by_cases hk : s₀.mCoinbase.findAddress nxsAddress
    · rw [handle_mapOutputs_of_findAddress (h.output nxsAddress hk)]
    · have hself : x ≠ .coinbase := by simpa [Call.writes, hk] using hx
      cases x with
      | coinbase => exact absurd rfl hself
      | _ => rfl
  | _ => rfl

/-- The answer to a call depends on the parts it reads. -/
theorem answer (c : Call) {s t : DataRegistry} (hs : Extends s₀ s) (ht : Extends s₀ t)
    (h : ∀ x ∈ c.reads s₀, x.view s = x.view t) : (Call.handle c s).1 = (Call.handle c t).1 := by
  cases c with
  | accountKeys => exact Database.getKeys_congr fun k => congrFun (h .accountKeys rfl) k
  | accountHasKey cKey =>
    by_cases hk : s₀.mAccountDb.hasKey cKey
    · simp [Call.handle, hs.account cKey hk, ht.account cKey hk]
    · have hview := h (.account cKey) ⟨hk, rfl⟩
      simp only [Part.view] at hview
      simp [Call.handle, Database.hasKey_eq_isSome, hview]
  | accountGet cKey => exact Database.getRecord_congr (h (.account cKey) (.inl rfl))
  | blockGet cKey => exact Database.getRecord_congr (h (.block cKey) rfl)
  | coinbase => exact h .coinbase rfl
  | findAddress nxsAddress =>
    by_cases hk : s₀.mCoinbase.findAddress nxsAddress
    · simp [Call.handle, hs.output nxsAddress hk, ht.output nxsAddress hk]
    · have hview : s.mCoinbase = t.mCoinbase := h .coinbase ⟨hk, rfl⟩
      simp [Call.handle, hview]
  | mapOutputs nxsAddress =>
    have hview : s.mCoinbase = t.mCoinbase := h .coinbase rfl
    simp [Call.handle, hview]
  | currentRound =>
    have hview := h .settings rfl
    simp only [Part.view, Prod.mk.injEq] at hview
    exact hview.2.2.2
  | poolFee =>
    have hview := h .settings rfl
    simp only [Part.view, Prod.mk.injEq] at hview
    simp [Call.handle, hview.2.1]
  | _ => rfl

/-- What a call reads decides the new values of the parts it writes. -/
theorem effect (c : Call) {s t : DataRegistry}
    (h : ∀ x ∈ c.reads s₀, x.view s = x.view t) (x : Part) (hx : x ∈ c.writes s₀) :
    x.view (Call.handle c s).2 = x.view (Call.handle c t).2 := by
  cases c with
  | accountGet cKey =>
    obtain ⟨hk, rfl | rfl⟩ := hx
    · have hview := Database.getRecord_congr (h (.account cKey) (.inl rfl))
      simp [Part.view, Call.handle, Database.find_getRecord, hview]
    · have hview := h .accountKeys (.inr ⟨hk, rfl⟩)
      simp only [Part.view] at hview
      funext k
      simp [Part.view, Call.handle, Database.hasKey_getRecord, hview]
  | accountUpdate cRecord =>
    obtain rfl | ⟨hk, rfl⟩ := hx
    · simp [Part.view, Call.handle, Database.find_updateRecord]
    · have hview := h .accountKeys ⟨hk, rfl⟩
      simp only [Part.view] at hview
      funext k
      simp [Part.view, Call.handle, Database.hasKey_updateRecord, hview]
  | blockGet cKey =>
    obtain ⟨hk, rfl⟩ := hx
    have hview := Database.getRecord_congr (h (.block cKey) rfl)
    simp [Part.view, Call.handle, Database.find_getRecord, hview]
  | blockUpdate cRecord =>
    obtain rfl := hx
    simp [Part.view, Call.handle, Database.find_updateRecord]
  | mapOutputs nxsAddress =>
    obtain ⟨hk, rfl⟩ := hx
    have hview : s.mCoinbase = t.mCoinbase := h .coinbase rfl
    simp [Part.view, Call.handle, hview]
  | _ => exact absurd hx (Set.notMem_empty x)

variable (s₀) in
/-- The registry calls with their reads and writes, for runs from `s₀`. -/
def footprint : Footprint Call.handle (Extends s₀) where
  Part := Part
  Value := Part.Value
  view := Part.view
  reads := Call.reads s₀
  writes := Call.writes s₀
  ext _ _ := view_ext
  keep c _ h := h.handle c
  frame c _ h x hx := frame c h x hx
  answer c _ _ hs ht h := answer c hs ht h
  effect c _ _ _ _ h x hx := effect c h x hx

end Footprint

end DataRegistry

/-! ### Lost updates -/

section Handlers

variable {ι : Type} [DecidableEq ι]

def handlers (requests : ι → Request) : ι → Handler Unit := fun i => (requests i).handler

/-- The accounts end up as after some order in which the handlers run one by one. -/
def NothingLost (s : DataRegistry) (requests : ι → Request) (threads : List ι) (s' : DataRegistry) :
    Prop :=
  ∃ order : List ι, order.Perm threads ∧
    ∀ k, s'.account? k = (serial Call.handle (handlers requests) order s).account? k

/-- If the conflicting calls of different handlers follow one order of the handlers, no
update is lost. -/
theorem nothing_lost_of_respects {s s' : DataRegistry} {requests : ι → Request} {threads : List ι}
    {tr : List (Event ι Call)} {pool' : ι → Handler Unit}
    (h : Run Call.handle s (handlers requests) tr s' pool')
    (hnodup : threads.Nodup) (hthreads : ∀ e ∈ tr, e.thread ∈ threads)
    (hdone : ∀ i ∈ threads, pool' i = .done ())
    (hrespects : ∃ order, order.Perm threads ∧ Respects (footprint s).Conflict order tr) :
    NothingLost s requests threads s' := by
  obtain ⟨order, hperm, hrespects⟩ := hrespects
  have hstart : Extends s s := ⟨fun _ hk => hk, fun _ hk => hk, fun _ hk => hk⟩
  refine ⟨order, hperm, fun k => ?_⟩
  rw [h.serializable (footprint s) hstart (fun i hi => hdone i (hperm.mem_iff.mp hi))
    (hperm.nodup_iff.mpr hnodup) (fun e he => hperm.mem_iff.mpr (hthreads e he)) hrespects]

end Handlers

/-! ### Two shares -/

def twoAccounts : DataRegistry :=
  init ⟨0, 0, false⟩ .empty
    ⟨((∅ : ExtTreeMap Bytes Account).insert [65] (.new [65])).insert [66] (.new [66])⟩

/-- Both shares are read in before either is stored. -/
def overlappingShares (first second : Bytes) : List (Event (Fin 2) Call) :=
  [⟨0, .accountGet first⟩, ⟨1, .accountGet second⟩,
    ⟨0, .accountUpdate ((Account.new first).addShares 1)⟩,
    ⟨1, .accountUpdate ((Account.new second).addShares 1)⟩]

def twoShares (first second : Bytes) : Fin 2 → Request :=
  ![.submitShare first 1, .submitShare second 1]

def afterShares (first second : Bytes) : DataRegistry :=
  (overlappingShares first second).foldl (fun s e => (Call.handle e.call s).2) twoAccounts

theorem run_overlappingShares {first second : Bytes}
    (hfirst : twoAccounts.account? first = some (.new first))
    (hsecond : twoAccounts.account? second = some (.new second)) :
    Run Call.handle twoAccounts (handlers (twoShares first second))
      (overlappingShares first second) (afterShares first second) (fun _ => .done ()) := by
  have hget {k : Bytes} (hk : twoAccounts.account? k = some (.new k)) :
      Call.handle (.accountGet k) twoAccounts = (Account.new k, twoAccounts) := by
    simp [Call.handle, Database.getRecord_of_some hk]
  have hdone (s : DataRegistry) {pool : Fin 2 → Handler Unit} (h₀ : pool 0 = .done ())
      (h₁ : pool 1 = .done ()) : Run Call.handle s pool [] s (fun _ => .done ()) := by
    have hpool : pool = fun _ => .done () := by
      funext i
      fin_cases i
      · exact h₀
      · exact h₁
    exact hpool ▸ .nil s pool
  rw [afterShares, overlappingShares]
  simp only [List.foldl_cons, List.foldl_nil]
  refine .step rfl ?_
  rw [hget hfirst]
  refine .step rfl ?_
  rw [hget hsecond]
  refine .step rfl (.step rfl ?_)
  exact hdone _ rfl rfl

/-- Two handlers of the same account overlap: one of the two shares is gone. -/
theorem share_lost : ¬ ∀ (s s' : DataRegistry) (requests : Fin 2 → Request)
    (tr : List (Event (Fin 2) Call)) (pool' : Fin 2 → Handler Unit),
    Run Call.handle s (handlers requests) tr s' pool' → (∀ i, pool' i = .done ()) →
      NothingLost s requests [0, 1] s' := by
  intro h
  have hfound : twoAccounts.account? [65] = some (.new [65]) := by decide
  obtain ⟨order, hperm, hlost⟩ := h _ _ _ _ _ (run_overlappingShares hfound hfound) fun _ => rfl
  have hafter := hlost [65]
  rcases List.perm_pair.mp hperm with rfl | rfl <;> revert hafter <;> decide

theorem no_conflict_of_accounts : ¬ (footprint twoAccounts).Conflict (.accountGet [66])
    (.accountUpdate ((Account.new [65]).addShares 1)) := by
  have h₆₅ : twoAccounts.mAccountDb.hasKey [65] := by decide
  have h₆₆ : twoAccounts.mAccountDb.hasKey [66] := by decide
  rintro ⟨x, ⟨hwrite, -⟩ | ⟨hwrite, hread | hwrite'⟩⟩
  · exact hwrite.1 h₆₆
  · obtain rfl | ⟨hnew, -⟩ := hwrite
    · obtain hread | ⟨hnew, -⟩ := hread
      · cases hread
      · exact hnew h₆₆
    · exact hnew h₆₅
  · exact hwrite'.1 h₆₆

/-- Two handlers of different accounts overlap in the same way and lose nothing. -/
theorem shares_kept :
    NothingLost twoAccounts (twoShares [65] [66]) [0, 1] (afterShares [65] [66]) := by
  refine nothing_lost_of_respects (run_overlappingShares (by decide) (by decide)) (by decide)
    (by decide) (fun _ _ => rfl) ⟨[0, 1], .refl _, ?_⟩
  simp [Respects, overlappingShares, no_conflict_of_accounts]

end NexusPool
