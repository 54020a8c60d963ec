import NexusPool.Server.Audit

/-!
# The shares of the round

A credited share counts in the total weight until a payout has divided its reward by the total,
and then the shares are cleared. What was credited in a run is what the accounts hold, what was
in the total of one payout, and what was under the empty key when a record without an account of
its own was written there.
-/

namespace NexusPool

open Concurrent DataRegistry PayoutManager Reactive World
open Std (ExtTreeMap)

/-! ### Sums under read-modify-writes -/

namespace Database

variable {K R V : Type} [Ord K] [Std.TransOrd K] [Std.LawfulEqOrd K] [DecidableEq K] [Record K R]
  [AddCommMonoid V]

/-- What is counted under the blank key is lost if one of the keys has no record of its own. -/
def displaced (db : Database K R) (g : R → V) (keys : List K) : V :=
  if ∀ k ∈ keys, db.filed k then 0
  else ((db.mapRecords[Record.cKey (Record.blank : R)]?).map g).getD 0

variable {db : Database K R} {g : R → V} {change : R → R} {k : K}

omit [Std.LawfulEqOrd K] in
@[simp] theorem displaced_nil : db.displaced g [] = 0 := by simp [displaced]

omit [Std.LawfulEqOrd K] in
theorem displaced_cons_of_filed (hk : db.filed k) (keys : List K) :
    db.displaced g (k :: keys) = db.displaced g keys := by
  simp [displaced, hk]

omit [Std.LawfulEqOrd K] in
theorem displaced_cons_of_unfiled (hk : ¬ db.filed k) (keys : List K) :
    db.displaced g (k :: keys) =
      ((db.mapRecords[Record.cKey (Record.blank : R)]?).map g).getD 0 := by
  simp [displaced, hk]

theorem WellKeyed.sumOver_modifyRecord (h : db.WellKeyed) {g : R → V} (hg : g Record.blank = 0)
    (change : R → R) (hchange : ∀ r, Record.cKey (change r) = Record.cKey r) (k : K) :
    (db.modifyRecord k change).sumOver g + db.displaced g [k] + g (db.getRecord k).1 =
      db.sumOver g + g (change (db.getRecord k).1) := by
  have hmodify : db.modifyRecord k change =
      (db.getRecord k).2.updateRecord (change (db.getRecord k).1) := rfl
  have hsum := (db.getRecord k).2.sumOver_updateRecord g (change (db.getRecord k).1)
  rw [← hmodify, hchange, find_getRecord, sumOver_getRecord db hg] at hsum
  by_cases hk : db.filed k
  · obtain ⟨r, hr, hkey⟩ := filed_iff.mp hk
    rw [displaced_cons_of_filed hk, displaced_nil, add_zero]
    rw [getRecord_of_some hr] at hsum ⊢
    rwa [if_pos hkey.symm] at hsum
  · have hblank := h.getRecord_of_unfiled hk
    rw [displaced_cons_of_unfiled hk, hblank, hg, add_zero]
    rw [hblank] at hsum
    split_ifs at hsum with hkey
    · have hnone : db.mapRecords[Record.cKey (Record.blank : R)]? = none := by
        rw [Option.eq_none_iff_forall_ne_some]
        intro r hr
        exact hk (hkey ▸ h.filed_blank_of_some hr)
      rw [hnone]
      rwa [Option.map_some, Option.getD_some, hg] at hsum
    · exact hsum

theorem WellKeyed.sumOver_edits (h : db.WellKeyed) (hg : g Record.blank = 0)
    {edits : List (K × (R → R))} (hkeys : ∀ e ∈ edits, ∀ r, Record.cKey (e.2 r) = Record.cKey r)
    (hsame : ∀ e ∈ edits, ∀ r, g (e.2 r) = g r) :
    (edits.foldl (fun db e => db.modifyRecord e.1 e.2) db).sumOver g +
      db.displaced g (edits.map Prod.fst) = db.sumOver g := by
  induction edits generalizing db with
  | nil => simp
  | cons e edits ih =>
    have hkey := hkeys e List.mem_cons_self
    have hrest := ih (show (db.modifyRecord e.1 e.2).WellKeyed from h.modifyRecord)
      (fun e he => hkeys e (List.mem_cons_of_mem _ he))
      fun e he => hsame e (List.mem_cons_of_mem _ he)
    have hturn := h.sumOver_modifyRecord hg e.2 hkey e.1
    rw [List.foldl_cons, List.map_cons]
    by_cases he : db.filed e.1
    · obtain ⟨r, hr, hown⟩ := filed_iff.mp he
      have hvalue : ∀ a : K, (((db.modifyRecord e.1 e.2).mapRecords[a]?).map g).getD 0 =
          ((db.mapRecords[a]?).map g).getD 0 := by
        intro a
        rw [find_modifyRecord_of_filed hkey hr hown]
        split_ifs with ha
        · rw [← ha, hr, Option.map_some, Option.map_some, hsame e List.mem_cons_self]
        · rfl
      have hfiled : ∀ a : K, (db.modifyRecord e.1 e.2).filed a = db.filed a := by
        intro a
        rw [filed, find_modifyRecord_of_filed hkey hr hown, filed]
        split_ifs with ha
        · rw [← ha, hr, Option.any_some, Option.any_some, hkey]
        · rfl
      have hdisplaced : (db.modifyRecord e.1 e.2).displaced g (edits.map Prod.fst) =
          db.displaced g (edits.map Prod.fst) := by
        simp only [displaced, hfiled, hvalue]
      rw [displaced_cons_of_filed he, ← hdisplaced, hrest]
      exact sumOver_congr_getD hvalue
    · -- What was under the blank key is gone, so there is nothing left to lose.
      have hgone : (db.modifyRecord e.1 e.2).displaced g (edits.map Prod.fst) = 0 := by
        rw [displaced, h.find_modifyRecord_of_unfiled hkey he, if_pos rfl, Option.map_some,
          Option.getD_some, hsame e List.mem_cons_self, hg, ite_self]
      have hblank := h.getRecord_of_unfiled he
      rw [hgone, add_zero] at hrest
      rw [hblank, hsame e List.mem_cons_self, hg, add_zero, add_zero,
        displaced_cons_of_unfiled he] at hturn
      rw [hrest, displaced_cons_of_unfiled he]
      exact hturn

end Database

/-! ### The accounts -/

namespace PayoutManager

variable {s : DataRegistry}

/-- What the writes of these keys make of the shares under the empty key. -/
def displacedShares (s : DataRegistry) (keys : List Bytes) : UInt64 :=
  s.mAccountDb.displaced (·.nRoundShares) keys

theorem totalShares_of_accounts {s' : DataRegistry} (h : s'.mAccountDb = s.mAccountDb) :
    s'.totalShares = s.totalShares := by
  rw [DataRegistry.totalShares, h, DataRegistry.totalShares]

theorem totalShares_getRecord (s : DataRegistry) (cKey : Bytes) :
    ({ s with mAccountDb := (s.mAccountDb.getRecord cKey).2 } : DataRegistry).totalShares =
      s.totalShares := s.mAccountDb.sumOver_getRecord rfl cKey

theorem totalShares_opened (s : DataRegistry) (nxsAddress : Bytes) :
    (s.opened nxsAddress).totalShares = s.totalShares := by
  rw [DataRegistry.opened]
  split_ifs with hkey
  · rfl
  · have hnone : s.mAccountDb.mapRecords[nxsAddress]? = none := by
      rw [Option.eq_none_iff_forall_ne_some]
      intro r hr
      exact hkey (Database.hasKey_iff.mpr ⟨r, hr⟩)
    have hsum := s.mAccountDb.sumOver_updateRecord (·.nRoundShares) (.new nxsAddress)
    change _ + ((s.mAccountDb.mapRecords[nxsAddress]?).map _).getD 0 = _ + 0 at hsum
    rw [hnone] at hsum
    simpa [DataRegistry.totalShares] using hsum

/-- Shares of an account that has no record of its own go under the empty key. -/
theorem totalShares_addShares (hkeyed : s.mAccountDb.WellKeyed) (k : Bytes) (weight : UInt64) :
    ({ s with mAccountDb := s.mAccountDb.modifyRecord k (·.addShares weight) } :
        DataRegistry).totalShares + displacedShares s [k] = s.totalShares + weight := by
  have hblank : (fun r : Account => r.nRoundShares) Record.blank = 0 := rfl
  have hsum := hkeyed.sumOver_modifyRecord hblank (·.addShares weight) (fun _ => rfl) k
  change _ + _ + (s.mAccountDb.getRecord k).1.nRoundShares =
    _ + ((s.mAccountDb.getRecord k).1.nRoundShares + weight) at hsum
  rw [add_comm (s.mAccountDb.getRecord k).1.nRoundShares weight, ← add_assoc] at hsum
  exact add_right_cancel hsum

/-! ### Payouts -/

def bonusKeys (lastBlockfinder : Bytes) : List Bytes :=
  if lastBlockfinder = [] then [] else [lastBlockfinder]

theorem totalShares_afterBonus_add (hkeyed : s.mAccountDb.WellKeyed) (reward : UInt64)
    (lastBlockfinder : Bytes) : (afterBonus s reward lastBlockfinder).totalShares +
      displacedShares s (bonusKeys lastBlockfinder) = s.totalShares := by
  rw [afterBonus, bonusKeys]
  split_ifs
  · exact add_zero _
  · have hblank : (fun r : Account => r.nRoundShares) Record.blank = 0 := rfl
    have hsum := hkeyed.sumOver_modifyRecord hblank
      (·.credit (bonus s reward lastBlockfinder)) (fun _ => rfl) lastBlockfinder
    exact add_right_cancel hsum

/-- A turn of the loop leaves no shares under its key, and brings none under another. -/
theorem sharesAt_clearTurn (hkeyed : s.mAccountDb.WellKeyed) {key k : Bytes}
    (h : sharesAt (clearTurn s key) k ≠ 0) : k ≠ key ∧ sharesAt s k ≠ 0 := by
  have hchange : ∀ r : Account, Record.cKey r.clear = Record.cKey r := fun _ => rfl
  change (((s.mAccountDb.modifyRecord key .clear).mapRecords[k]?).map (·.nRoundShares)).getD 0 ≠ 0
    at h
  by_cases hkey : s.mAccountDb.filed key
  · obtain ⟨r, hr, hown⟩ := Database.filed_iff.mp hkey
    rw [Database.find_modifyRecord_of_filed hchange hr hown] at h
    split_ifs at h with hk
    · exact absurd rfl h
    · exact ⟨Ne.symm hk, h⟩
  · rw [hkeyed.find_modifyRecord_of_unfiled hchange hkey] at h
    split_ifs at h with hblank hk
    · exact absurd rfl h
    · exact absurd rfl h
    · exact ⟨Ne.symm hk, h⟩

/-- The loop that ends the round visits every account with shares. -/
theorem noShares_clearShares (hkeyed : s.mAccountDb.WellKeyed) :
    (exec clearShares s).2.NoShares := by
  have hloop : ∀ (keys : List Bytes) (s : DataRegistry), s.mAccountDb.WellKeyed →
      (∀ k, sharesAt s k ≠ 0 → k ∈ keys) → ∀ k, sharesAt (keys.foldl clearTurn s) k = 0 := by
    intro keys
    induction keys with
    | nil =>
      intro s _ hkeys k
      by_contra hk
      exact List.not_mem_nil (hkeys k hk)
    | cons key keys ih =>
      intro s hkeyed hkeys
      refine ih (clearTurn s key) hkeyed.modifyRecord fun k hk => ?_
      obtain ⟨hne, hshares⟩ := sharesAt_clearTurn hkeyed hk
      exact (List.mem_cons.mp (hkeys k hshares)).resolve_left hne
  intro k r hr
  have hvisited : ∀ k, sharesAt s k ≠ 0 → k ∈ s.mAccountDb.getKeys := by
    intro k hk
    cases hr : s.account? k with
    | some r => exact Database.mem_getKeys.mpr ⟨r, hr⟩
    | none => exact absurd (by rw [sharesAt, hr]; rfl) hk
  have hzero := hloop _ s hkeyed hvisited k
  rw [exec_clearShares] at hr
  rwa [sharesAt, hr] at hzero

theorem noShares_settle (hkeyed : s.WellKeyed) (reward : UInt64) (hashSubmitBlock : Uint1024)
    (lastBlockfinder : Bytes) : (exec (do
      updateBalances reward hashSubmitBlock lastBlockfinder
      clearShares) s).2.NoShares := by
  rw [exec_bind]
  exact noShares_clearShares (hkeyed.exec _).2

theorem totalShares_of_noShares (h : s.NoShares) : s.totalShares = 0 := by
  apply List.sum_eq_zero
  intro shares hshares
  obtain ⟨k, -, rfl⟩ := List.mem_map.mp hshares
  cases hr : s.mAccountDb.mapRecords[k]? with
  | some r => exact h k r hr
  | none => rfl

/-! ### Refunds -/

def refundKeys (s : DataRegistry) (hashBlock : Uint1024) : List Bytes :=
  match s.mBlockDb.mapRecords[hashBlock]? with
  | some b =>
    if b.nCoinbaseValue = 0 then []
    else (b.cCredits.mapCredits.toList ++ b.cCoinbase.mapOutputs.toList).map Prod.fst
  | none => []

theorem totalShares_refundPayouts (hkeyed : s.mAccountDb.WellKeyed) (hashBlock : Uint1024) :
    (exec (refundPayouts hashBlock) s).2.totalShares +
      displacedShares s (refundKeys s hashBlock) = s.totalShares := by
  have hquiet : (s.mBlockDb.getRecord hashBlock).1.nCoinbaseValue = 0 →
      (exec (refundPayouts hashBlock) s).2.totalShares + displacedShares s [] = s.totalShares := by
    intro hzero
    rw [totalShares_of_accounts (congrArg (·.mAccountDb) (exec_refundPayouts_of_zero hzero))]
    exact add_zero _
  rw [refundKeys]
  cases hblock : s.mBlockDb.mapRecords[hashBlock]? with
  | none =>
    apply hquiet
    rw [Database.getRecord_of_none hblock]
    rfl
  | some b =>
    by_cases hvalue : b.nCoinbaseValue = 0
    · simp only [if_pos hvalue]
      apply hquiet
      rw [Database.getRecord_of_some hblock, hvalue]
    · let edits : List (Bytes × (Account → Account)) :=
        b.cCredits.mapCredits.toList.map (fun e => (e.1, (·.debit e.2))) ++
          b.cCoinbase.mapOutputs.toList.map fun e => (e.1, (·.credit e.2))
      have hedits : ∀ e ∈ edits, (∀ r, (e.2 r).cKey = r.cKey) ∧
          ∀ r, (e.2 r).nRoundShares = r.nRoundShares := by
        intro e he
        rcases List.mem_append.mp he with he | he
        · obtain ⟨entry, -, rfl⟩ := List.mem_map.mp he
          exact ⟨fun _ => rfl, fun _ => rfl⟩
        · obtain ⟨entry, -, rfl⟩ := List.mem_map.mp he
          exact ⟨fun _ => rfl, fun _ => rfl⟩
      have hsum := hkeyed.sumOver_edits (g := fun r : Account => r.nRoundShares) rfl
        (fun e he => (hedits e he).1) fun e he => (hedits e he).2
      simp only [if_neg hvalue]
      rw [exec_refundPayouts hblock hvalue]
      simp only [edits, List.foldl_append, List.foldl_map, List.map_append, List.map_map,
        Function.comp_def] at hsum
      simpa only [DataRegistry.totalShares, displacedShares, Database.modifyAll,
        List.map_append] using hsum

theorem refundKeys_blockGet (s : DataRegistry) (hashBlock : Uint1024) :
    refundKeys (exec (call (.blockGet hashBlock)) s).2 hashBlock = refundKeys s hashBlock := by
  rw [refundKeys, find_blockGet, refundKeys]
  cases hblock : s.mBlockDb.mapRecords[hashBlock]? with
  | some b => rw [Database.getRecord_of_some hblock]
  | none => rw [Database.getRecord_of_none hblock]; rfl

end PayoutManager

/-! ### Steps and runs -/

/-- The keys for which a step writes an account that holds its shares. -/
def keysWritten (o : Occurrence World Event Output) : List Bytes :=
  match o.event with
  | .minerData i _ =>
    match ShareSignal.of i o with
    | .credited _ => (o.before.account i).toList
    | _ => []
  | e =>
    if (o.before.paysFor e).isSome then bonusKeys o.before.daemon.mLastBlockfinder
    else e.orphan.elim [] (refundKeys o.before.registry)

def sharesDisplaced (o : Occurrence World Event Output) : UInt64 :=
  displacedShares o.before.registry (keysWritten o)

/-- The total by which a payout divides its reward. -/
def sharesPaid (o : Occurrence World Event Output) : UInt64 :=
  if (o.before.paysFor o.event).isSome then
    (exec totalWeight (afterBonus o.before.registry o.before.daemon.mRoundReward
      o.before.daemon.mLastBlockfinder)).1
  else 0

section Shares

variable [Platform] {w w' : World} {out : List Output}

def sharesGained (o : Occurrence World Event Output) : UInt64 :=
  match o.event with
  | .minerData i _ =>
    match ShareSignal.of i o with
    | .credited value => weightOf value
    | _ => 0
  | _ => 0

/-- What is credited in a step is added to what the accounts hold, and what they lose has been
paid or displaced. -/
structure SharesKept (o : Occurrence World Event Output) : Prop where
  total : o.after.registry.totalShares + sharesPaid o + sharesDisplaced o =
    o.before.registry.totalShares + sharesGained o
  cleared : (o.before.paysFor o.event).isSome → o.after.registry.NoShares

theorem sharesKept_of_quiet {o : Occurrence World Event Output}
    (hpays : o.before.paysFor o.event = none) (hkeys : keysWritten o = [])
    (hgained : sharesGained o = 0)
    (htotal : o.after.registry.totalShares = o.before.registry.totalShares) : SharesKept o where
  total := by
    have hpaid : sharesPaid o = 0 := by simp [sharesPaid, hpays]
    have hdisplaced : sharesDisplaced o = 0 := by
      rw [sharesDisplaced, hkeys]
      exact Database.displaced_nil
    rw [hpaid, hdisplaced, hgained, htotal]
    simp
  cleared h := by simp [hpays] at h

theorem MinerEffect.sharesKept {i : ℕ} {receiveBuffer : Bytes} {packet : Packet}
    (hkeyed : w.registry.WellKeyed) (effect : MinerEffect w i packet w' out) :
    SharesKept ⟨w, .minerData i receiveBuffer, w', out⟩ := by
  have hquiet (hrounds : w'.rounds = w.rounds)
      (htotal : w'.registry.totalShares = w.registry.totalShares) :
      SharesKept ⟨w, .minerData i receiveBuffer, w', out⟩ := by
    have hsignal : ShareSignal.of i ⟨w, .minerData i receiveBuffer, w', out⟩ = .quiet :=
      signal_of_rounds hrounds
    exact sharesKept_of_quiet rfl (by simp only [keysWritten, hsignal])
      (by simp only [sharesGained, hsignal]) htotal
  have hshare {data : Bytes} (share : VerifiedShare w i data)
      (hround : w'.round = share.credited.round)
        (hregistry : w'.registry = share.credited.registry) :
      SharesKept ⟨w, .minerData i receiveBuffer, w', out⟩ := by
    have hsignal : ShareSignal.of i ⟨w, .minerData i receiveBuffer, w', out⟩ =
        .credited share.value := signal_of_share share hround
    have hadded := totalShares_addShares hkeyed.2 share.pool.mNxsaddress
      (Platform.shareWeight share.nDifficulty)
    refine ⟨?_, fun h => by cases h⟩
    simp only [sharesPaid, sharesDisplaced, sharesGained, keysWritten, hsignal, share.account,
      share.weightOf_value, hregistry, Option.toList_some]
    exact (congrArg (· + _) (add_zero _)).trans hadded
  cases effect with
  | reply => exact hquiet rfl rfl
  | refused self loggedOut registry =>
    refine hquiet (rounds_modifyPool (by intro _; rfl) _ w) ?_
    rcases registry with rfl | ⟨-, b, rfl⟩
    · rfl
    · exact totalShares_opened w.registry _
  | loggedIn => exact hquiet (rounds_modifyPool (by intro _; rfl) _ w) (totalShares_opened _ _)
  | getBlock => exact hquiet (rounds_modifyPool (by intro _; rfl) _ w) rfl
  | getBalance => exact hquiet rfl (totalShares_getRecord w.registry _)
  | credited share => exact hshare share rfl rfl
  | accepted share => exact hshare share rfl rfl

theorem WalletEffect.sharesKept {receiveBuffer : Bytes} {packet : Packet}
    (parsed : (Event.walletData receiveBuffer).walletPacket = some packet)
    (hkeyed : w.registry.WellKeyed) (effect : WalletEffect w packet w' out) :
    SharesKept ⟨w, .walletData receiveBuffer, w', out⟩ := by
  have hquiet : ∀ {header : UInt8} {w' : World} {out : List Output}, packet.mHeader = header →
      header ≠ DaemonPacket.good → header ≠ DaemonPacket.orphanBlock →
      w'.registry.mAccountDb = w.registry.mAccountDb →
      SharesKept ⟨w, .walletData receiveBuffer, w', out⟩ := by
    rintro header w' out rfl hgood horphan haccounts
    have hpays := World.paysFor_of_ne (w := w) parsed hgood
    have hnone := Event.orphan_of_ne parsed horphan
    exact sharesKept_of_quiet hpays (by simp [keysWritten, hpays, hnone]) rfl
      (totalShares_of_accounts haccounts)
  cases effect with
  | ignored header =>
    simp only [List.mem_cons, List.not_mem_nil, or_false, not_or] at header
    obtain ⟨-, -, horphan, hgood⟩ := header
    exact hquiet rfl hgood horphan rfl
  | pending header =>
    simp only [List.mem_cons, List.not_mem_nil, or_false] at header
    rcases header with header | header | header
    · exact hquiet header (by decide) (by decide) rfl
    · exact hquiet header (by decide) (by decide) rfl
    · exact hquiet header (by decide) (by decide) rfl
  | goodBlock header => exact hquiet header (by decide) (by decide) rfl
  | @orphan hashOrphan data header payload hash =>
    have horphan : (Event.walletData receiveBuffer).orphan = some hashOrphan := by
      simp [Event.orphan, parsed, payload, header, hash]
    have hpays : w.paysFor (.walletData receiveBuffer) = none := World.paysFor_of_orphan horphan
    have hrefund := totalShares_refundPayouts
      (hkeyed.exec (call (.blockGet hashOrphan))).2 hashOrphan
    rw [refundKeys_blockGet] at hrefund
    refine ⟨?_, fun h => by simp [hpays] at h⟩
    simp only [sharesPaid, sharesDisplaced, sharesGained, keysWritten, hpays, horphan,
      Option.isSome_none, Bool.false_eq_true, if_false, Option.elim_some, add_zero]
    exact hrefund
  | @rebuilt data header =>
    refine hquiet header (by decide) (by decide) ?_
    change (DataRegistry.exec _ w.registry).2.mAccountDb = w.registry.mAccountDb
    rw [(DaemonConnection.exec_rebuildCoinbase _ _ _).1]
  | delivered header => exact hquiet header (by decide) (by decide) rfl
  | swallowed header => exact hquiet header (by decide) (by decide) rfl
  | @round w₁ w₂ _ cause frame =>
    have hregistry : w₂.reset.registry = w₁.registry := frame.registry
    have haccounts := congrArg (·.mAccountDb) hregistry
    cases cause with
    | coinbaseSet header => exact hquiet header (by decide) (by decide) haccounts
    | reward header => exact hquiet header (by decide) (by decide) haccounts
    | good header =>
      have hpays : w.paysFor (.walletData receiveBuffer) = some w.daemon.mHashSubmitBlock := by
        simp [World.paysFor, Event.receives, parsed, header]
      have hsettled := noShares_settle hkeyed w.daemon.mRoundReward w.daemon.mHashSubmitBlock
        w.daemon.mLastBlockfinder
      have hnone : w₂.reset.registry.NoShares := by
        rw [hregistry]
        exact fun k r hr => hsettled k r hr
      refine ⟨?_, fun _ => hnone⟩
      simp only [sharesPaid, sharesDisplaced, sharesGained, keysWritten, hpays, Option.isSome_some,
        if_true, totalShares_of_noShares hnone, exec_totalWeight, zero_add, add_zero]
      exact totalShares_afterBonus_add hkeyed.2 _ _

theorem StepEffect.sharesKept {e : Event} (effect : StepEffect w e w' out)
    (hkeyed : w.registry.WellKeyed) : SharesKept ⟨w, e, w', out⟩ := by
  cases effect with
  | miner parsed effect => exact effect.sharesKept hkeyed
  | @walletDropped receiveBuffer dropped =>
    have hpays : w.paysFor (.walletData receiveBuffer) = none := by
      simp [World.paysFor, Event.receives, dropped]
    have horphan : (Event.walletData receiveBuffer).orphan = none := by
      simp [Event.orphan, dropped]
    exact sharesKept_of_quiet hpays (by simp [keysWritten, hpays, horphan]) rfl rfl
  | wallet parsed effect => exact effect.sharesKept parsed hkeyed
  | blockTimer take forward =>
    refine sharesKept_of_quiet rfl rfl rfl (totalShares_of_accounts ?_)
    exact congrArg (·.mAccountDb) (StepEffect.registry_of_blockTimer take forward)
  | _ => exact sharesKept_of_quiet rfl rfl rfl rfl

/-- In every run, the weights that are credited join the total weight, and leave it by the payout
that has divided its reward by them, unless they were displaced. -/
theorem round_shares_kept {past front : History World Event Output} {w₀ : World}
    (hpast : LoadedRun past w₀) (hfront : Run World.step (· = w₀) front w) :
    (exec totalWeight w.registry).1 + (front.map sharesPaid).sum +
        (front.map sharesDisplaced).sum =
      (exec totalWeight w₀.registry).1 + (front.map sharesGained).sum ∧
    ∀ o ∈ front, (o.before.paysFor o.event).isSome → o.after.registry.NoShares := by
  simp only [exec_totalWeight]
  induction hfront with
  | start hw =>
    subst hw
    simp
  | @next front w w' e out hrun hstep ih =>
    obtain ⟨htotal, hcleared⟩ := ih
    have hall := hpast.append hrun
    have hkept := (stepEffect_of_run (serverRun_of_loaded hall) hstep).sharesKept
      (wellKeyed_of_loaded hall)
    have hadded := hkept.total
    refine ⟨?_, List.forall_mem_cons.mpr ⟨hkept.cleared, hcleared⟩⟩
    simp only [List.map_cons, List.sum_cons]
    grind

end Shares

section Paid

attribute [local instance] Platform.counting

def workingRun : Option (History World Event Output × World) :=
  trace World.step .fresh (oneRequest ++ [firstBlock])

theorem workingRun_isSome : workingRun.isSome := by decide +kernel

theorem workingRun_run : LoadedRun (workingRun.get workingRun_isSome).1
    (workingRun.get workingRun_isSome).2 :=
  Run.of_trace World.fresh_loaded (Option.some_get _).symm

attribute [local irreducible] workingRun

def paidRun : Option (History World Event Output × World) :=
  trace World.step (workingRun.get workingRun_isSome).2
    [shareOf 1, shareOf 2, .walletData (Packet.getPacket DaemonPacket.good).wire]

theorem paidRun_isSome : paidRun.isSome := by decide +kernel

theorem paidRun_run : Run World.step (· = (workingRun.get workingRun_isSome).2)
    (paidRun.get paidRun_isSome).1 (paidRun.get paidRun_isSome).2 :=
  Run.of_trace (by rfl) (Option.some_get paidRun_isSome).symm

theorem paidRun_sums : ((paidRun.get paidRun_isSome).1.map sharesPaid).sum = 2 ∧
    ((paidRun.get paidRun_isSome).1.map sharesDisplaced).sum = 0 ∧
    ((paidRun.get paidRun_isSome).1.map sharesGained).sum = 2 := by
  decide +kernel

attribute [local irreducible] paidRun

/-- What was paid is what was credited. -/
theorem round_shares_kept_paid :
    (exec totalWeight (paidRun.get paidRun_isSome).2.registry).1 + 2 + 0 =
      (exec totalWeight (workingRun.get workingRun_isSome).2.registry).1 + 2 := by
  have hkept := (round_shares_kept workingRun_run paidRun_run).1
  rwa [paidRun_sums.1, paidRun_sums.2.1, paidRun_sums.2.2] at hkept

end Paid

end NexusPool
