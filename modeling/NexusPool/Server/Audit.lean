import NexusPool.Server.Journal

/-!
# The block records account for the balances

Each block record says what its payout credited to an account and what its coinbase paid the
account. As long as the block is not refunded, the balance has gained the one and lost the other.
What the two databases disagree about is exactly what the source lets go: the remainder that the
finder gets beside its credits, amounts that were cut off at zero, and block records that are
stored over, or stored as done with.
-/

namespace NexusPool

open Concurrent DataRegistry PayoutManager Reactive World
open Std (ExtTreeMap)

/-! ### What the block records say -/

def Block.posted (b : Block) (k : Bytes) : UInt64 :=
  if b.nCoinbaseValue = 0 then 0 else creditOf b k - outputOf b k

def DataRegistry.posted (s : DataRegistry) (k : Bytes) : UInt64 :=
  s.mBlockDb.sumOver fun b => b.posted k

def DataRegistry.postedBy (s : DataRegistry) (hash : Uint1024) (k : Bytes) : UInt64 :=
  ((s.mBlockDb.mapRecords[hash]?).map fun b => b.posted k).getD 0

namespace Database

variable {K R V : Type} [Ord K] [Std.TransOrd K] [Std.LawfulEqOrd K] [DecidableEq K] [Record K R]
  [AddCommMonoid V]

theorem sumOver_updateRecord (db : Database K R) (g : R → V) (r : R) :
    (db.updateRecord r).sumOver g + ((db.mapRecords[Record.cKey r]?).map g).getD 0 =
      db.sumOver g + g r := by
  let keys : Finset K := insert (Record.cKey r) (db.getKeys.toFinset ∪
    (db.updateRecord r).getKeys.toFinset)
  have hbefore : ∀ k ∈ db.getKeys, k ∈ keys := fun k hk =>
    Finset.mem_insert_of_mem (Finset.mem_union_left _ (List.mem_toFinset.mpr hk))
  have hafter : ∀ k ∈ (db.updateRecord r).getKeys, k ∈ keys := fun k hk =>
    Finset.mem_insert_of_mem (Finset.mem_union_right _ (List.mem_toFinset.mpr hk))
  have hkey : Record.cKey r ∈ keys := Finset.mem_insert_self _ _
  have hothers : ∀ k ∈ keys.erase (Record.cKey r),
      (((db.updateRecord r).mapRecords[k]?).map g).getD 0 = ((db.mapRecords[k]?).map g).getD 0 := by
    intro k hk
    rw [find_updateRecord, if_neg (Finset.ne_of_mem_erase hk).symm]
  rw [sumOver_eq_sum _ g hafter, sumOver_eq_sum db g hbefore, ← Finset.add_sum_erase _ _ hkey,
    ← Finset.add_sum_erase _ (fun k => ((db.mapRecords[k]?).map g).getD 0) hkey,
    Finset.sum_congr rfl hothers, find_updateRecord, if_pos rfl, Option.map_some, Option.getD_some]
  abel

theorem sumOver_getRecord (db : Database K R) {g : R → V} (hg : g Record.blank = 0) (cKey : K) :
    (db.getRecord cKey).2.sumOver g = db.sumOver g := by
  refine sumOver_congr_getD fun k => ?_
  rw [find_getRecord]
  split_ifs with hk
  · subst hk
    cases hr : db.mapRecords[cKey]? with
    | some r => rw [getRecord_of_some hr]
    | none => simp [getRecord_of_none hr, hg]
  · rfl

end Database

namespace DataRegistry

variable {s s' : DataRegistry} {k : Bytes}

theorem posted_of_blocks (h : s'.mBlockDb = s.mBlockDb) (k : Bytes) : s'.posted k = s.posted k := by
  rw [posted, h, posted]

theorem posted_of_getRecord {hash : Uint1024} (h : s'.mBlockDb = (s.mBlockDb.getRecord hash).2)
    (k : Bytes) : s'.posted k = s.posted k := by
  have hblank : (Record.blank : Block).posted k = 0 := if_pos rfl
  rw [posted, h]
  exact s.mBlockDb.sumOver_getRecord hblank hash

end DataRegistry

/-! ### The two handlers that write block records -/

namespace PayoutManager

variable {s : DataRegistry} {k : Bytes}

theorem mBlockDb_updateBalances (hkeyed : s.mAccountDb.WellKeyed) (reward : UInt64)
    (hashSubmitBlock : Uint1024) (lastBlockfinder : Bytes) :
    (exec (updateBalances reward hashSubmitBlock lastBlockfinder) s).2.mBlockDb =
      s.mBlockDb.updateRecord (payoutBlock s reward lastBlockfinder hashSubmitBlock) := by
  rw [exec_updateBalances_eq]
  dsimp only
  rw [payShares_rest reward hkeyed]

theorem posted_payoutBlock (hkeyed : s.mAccountDb.WellKeyed) (reward : UInt64)
    (lastBlockfinder : Bytes) (hashSubmitBlock : Uint1024) :
    (payoutBlock s reward lastBlockfinder hashSubmitBlock).posted k =
      if s.mCoinbase.value = 0 then 0
      else toFinder lastBlockfinder k (bonus s reward lastBlockfinder) +
        shareEarned s reward lastBlockfinder k - s.mCoinbase.mapOutputs.getD k 0 := by
  have hcredit : creditOf (payoutBlock s reward lastBlockfinder hashSubmitBlock) k =
      toFinder lastBlockfinder k (bonus s reward lastBlockfinder) +
        shareEarned s reward lastBlockfinder k := by
    rw [creditOf, payoutBlock, payShares, payLoop_credit (wellKeyed_afterBonus reward hkeyed),
      getD_finderCredits]
    rfl
  rw [Block.posted, hcredit]
  rfl

theorem posted_settle (hkeyed : s.mAccountDb.WellKeyed) (reward : UInt64)
    (hashSubmitBlock : Uint1024) (lastBlockfinder k : Bytes) :
    (exec (do
        updateBalances reward hashSubmitBlock lastBlockfinder
        clearShares) s).2.posted k + s.postedBy hashSubmitBlock k =
      s.posted k + (payoutBlock s reward lastBlockfinder hashSubmitBlock).posted k := by
  have hclear := (onlyAccounts_clearShares
    (exec (updateBalances reward hashSubmitBlock lastBlockfinder) s).2).mBlockDb
  rw [exec_bind, posted, hclear, mBlockDb_updateBalances hkeyed]
  exact s.mBlockDb.sumOver_updateRecord (fun b => b.posted k) _

theorem posted_refundPayouts (hkeyed : s.mBlockDb.WellKeyed) (hashBlock : Uint1024) (k : Bytes) :
    (exec (refundPayouts hashBlock) s).2.posted k + s.postedBy hashBlock k = s.posted k := by
  by_cases hvalue : (s.mBlockDb.getRecord hashBlock).1.nCoinbaseValue = 0
  · have hnothing : s.postedBy hashBlock k = 0 := by
      rw [postedBy]
      cases hblock : s.mBlockDb.mapRecords[hashBlock]? with
      | none => rfl
      | some b =>
        rw [Database.getRecord_of_some hblock] at hvalue
        exact if_pos hvalue
    rw [hnothing, add_zero]
    exact posted_of_getRecord (congrArg (·.mBlockDb) (exec_refundPayouts_of_zero hvalue)) k
  · cases hblock : s.mBlockDb.mapRecords[hashBlock]? with
    | none =>
      rw [Database.getRecord_of_none hblock] at hvalue
      exact absurd rfl hvalue
    | some b =>
      rw [Database.getRecord_of_some hblock] at hvalue
      have hown : b.cKey = hashBlock := by
        rcases hkeyed hashBlock b hblock with hown | rfl
        · exact hown
        · exact absurd rfl hvalue
      have hdone : ({ b with nCoinbaseValue := 0 } : Block).posted k = 0 := if_pos rfl
      have hsum := s.mBlockDb.sumOver_updateRecord (fun b => b.posted k)
        { b with nCoinbaseValue := 0 }
      rw [hdone, add_zero] at hsum
      rw [posted, exec_refundPayouts hblock hvalue, postedBy, ← hown]
      exact hsum

/-! ### What the source lets go -/

/-- What is cut off where more is taken off a balance than there is. -/
def shortfall (balance amount : UInt64) : UInt64 := if amount > balance then amount - balance else 0

theorem nAccountBalance_debit (r : Account) (amount : UInt64) :
    (r.debit amount).nAccountBalance =
      r.nAccountBalance - amount + shortfall r.nAccountBalance amount := by
  simp only [Account.debit, shortfall]
  split_ifs <;> grind

/-- A payout lets go the remainder, which is not entered in the credits, what is cut off, what the
record that it stores over said, and all that its own record says, if that has no value. -/
def payoutLeak (s : DataRegistry) (reward : UInt64) (hashSubmitBlock : Uint1024)
    (lastBlockfinder k : Bytes) (balance : UInt64) : UInt64 :=
  toFinder lastBlockfinder k (leftOver s reward lastBlockfinder) +
    shortfall (balance + toFinder lastBlockfinder k (bonus s reward lastBlockfinder))
      (s.mCoinbase.mapOutputs.getD k 0) +
    s.postedBy hashSubmitBlock k +
    if s.mCoinbase.value = 0 then
      toFinder lastBlockfinder k (bonus s reward lastBlockfinder) +
        shareEarned s reward lastBlockfinder k - s.mCoinbase.mapOutputs.getD k 0
    else 0

/-- A refund lets go what is cut off. -/
def refundLeak (s : DataRegistry) (hashBlock : Uint1024) (k : Bytes) (balance : UInt64) : UInt64 :=
  ((s.mBlockDb.mapRecords[hashBlock]?).map fun b =>
    if b.nCoinbaseValue = 0 then 0 else shortfall balance (creditOf b k)).getD 0

theorem audit_settle (hkeyed : s.mAccountDb.WellKeyed) (reward : UInt64)
    (hashSubmitBlock : Uint1024) (lastBlockfinder : Bytes) (r : Account) :
    (r.post (.payout (payment s reward lastBlockfinder k))).nAccountBalance -
        (exec (do
          updateBalances reward hashSubmitBlock lastBlockfinder
          clearShares) s).2.posted k =
      r.nAccountBalance - s.posted k +
        payoutLeak s reward hashSubmitBlock lastBlockfinder k r.nAccountBalance := by
  have hposted := posted_settle hkeyed reward hashSubmitBlock lastBlockfinder k
  rw [posted_payoutBlock hkeyed] at hposted
  have hbalance : (r.post (.payout (payment s reward lastBlockfinder k))).nAccountBalance =
      r.nAccountBalance + toFinder lastBlockfinder k (bonus s reward lastBlockfinder) -
          s.mCoinbase.mapOutputs.getD k 0 +
        shortfall (r.nAccountBalance + toFinder lastBlockfinder k (bonus s reward lastBlockfinder))
          (s.mCoinbase.mapOutputs.getD k 0) +
        shareEarned s reward lastBlockfinder k +
        toFinder lastBlockfinder k (leftOver s reward lastBlockfinder) := by
    simp only [payment, Account.post, Account.receive, Account.clear, Account.credit,
      nAccountBalance_debit]
  rw [hbalance, payoutLeak]
  split_ifs at hposted ⊢ <;> grind

theorem audit_refund (hkeyed : s.mBlockDb.WellKeyed) (hashBlock : Uint1024) (r : Account) :
    ((refundPosting s hashBlock k).foldl Account.post r).nAccountBalance -
        (exec (refundPayouts hashBlock) s).2.posted k =
      r.nAccountBalance - s.posted k + refundLeak s hashBlock k r.nAccountBalance := by
  have hposted := posted_refundPayouts hkeyed hashBlock k
  rw [postedBy] at hposted
  rw [refundPosting, refundLeak]
  cases hblock : s.mBlockDb.mapRecords[hashBlock]? with
  | none =>
    rw [hblock] at hposted
    simp only [Option.map_none, Option.getD_none, add_zero, List.foldl_nil] at hposted ⊢
    rw [hposted]
  | some b =>
    rw [hblock, Option.map_some, Option.getD_some, Block.posted] at hposted
    simp only [Option.map_some, Option.getD_some]
    split_ifs at hposted ⊢
    · rw [add_zero] at hposted
      rw [hposted, add_zero]
      rfl
    · simp only [List.foldl_cons, List.foldl_nil, Account.post, Account.credit,
        nAccountBalance_debit]
      grind

theorem refundLeak_blockGet (s : DataRegistry) (hashBlock : Uint1024) (k : Bytes)
    (balance : UInt64) :
    refundLeak (exec (call (.blockGet hashBlock)) s).2 hashBlock k balance =
      refundLeak s hashBlock k balance := by
  rw [refundLeak, find_blockGet, refundLeak]
  cases hblock : s.mBlockDb.mapRecords[hashBlock]? with
  | some b => rw [Database.getRecord_of_some hblock]
  | none => rw [Database.getRecord_of_none hblock]; rfl

theorem audit_orphan (hkeyed : s.WellKeyed) (hashBlock : Uint1024) (r : Account) :
    ((refundPosting s hashBlock k).foldl Account.post r).nAccountBalance -
        (exec (do
          let _ ← call (.blockGet hashBlock)
          refundPayouts hashBlock) s).2.posted k =
      r.nAccountBalance - s.posted k + refundLeak s hashBlock k r.nAccountBalance := by
  have hrefund := audit_refund (k := k) (hkeyed.exec (call (.blockGet hashBlock))).1 hashBlock r
  have hposted : (exec (call (.blockGet hashBlock)) s).2.posted k = s.posted k :=
    posted_of_getRecord rfl k
  rw [refundPosting_blockGet, refundLeak_blockGet, hposted] at hrefund
  rw [exec_bind]
  exact hrefund

end PayoutManager

/-! ### Steps and runs -/

section Audit

variable [Platform] {w w' : World} {out : List Output} {k : Bytes} {r : Account}

omit [Platform] in
/-- What the source lets go in a step. -/
def leak (k : Bytes) (o : Occurrence World Event Output) : UInt64 :=
  match o.before.paysFor o.event with
  | some hash =>
    payoutLeak o.before.registry o.before.daemon.mRoundReward hash
      o.before.daemon.mLastBlockfinder k (o.before.registry.balance k)
  | none => o.event.orphan.elim 0 fun hash =>
    refundLeak o.before.registry hash k (o.before.registry.balance k)

/-- The step changes what the databases disagree about by what is let go. -/
def Audited (k : Bytes) (r : Account) (o : Occurrence World Event Output) : Prop :=
  ((postings k o).foldl Account.post r).nAccountBalance - o.after.registry.posted k =
    r.nAccountBalance - o.before.registry.posted k + leak k o

theorem audited_of_quiet {o : Occurrence World Event Output}
    (hpays : o.before.paysFor o.event = none) (horphan : o.event.orphan = none)
    (hposted : o.after.registry.posted k = o.before.registry.posted k)
    (hshares : ∀ posting ∈ postings k o, ∃ weight, posting = .shares weight) : Audited k r o := by
  have hbalance : ∀ (postings : List Posting) (r : Account),
      (∀ posting ∈ postings, ∃ weight, posting = .shares weight) →
        (postings.foldl Account.post r).nAccountBalance = r.nAccountBalance := by
    intro postings
    induction postings with
    | nil => exact fun _ _ => rfl
    | cons posting postings ih =>
      intro r hshares
      obtain ⟨weight, rfl⟩ := hshares posting List.mem_cons_self
      rw [List.foldl_cons, ih _ fun p hp => hshares p (List.mem_cons_of_mem _ hp)]
      rfl
  have hleak : leak k o = 0 := by simp [leak, hpays, horphan]
  rw [Audited, hbalance _ r hshares, hposted, hleak, add_zero]

theorem postings_of_quiet {o : Occurrence World Event Output}
    (hpays : o.before.paysFor o.event = none) (horphan : o.event.orphan = none) :
    ∀ posting ∈ postings k o, ∃ weight, posting = .shares weight := by
  intro posting hposting
  unfold postings at hposting
  split at hposting
  · split at hposting
    · split_ifs at hposting
      · exact ⟨_, List.mem_singleton.mp hposting⟩
      · cases hposting
    · cases hposting
  · simp [hpays, horphan] at hposting

theorem WalletEffect.audited {receiveBuffer : Bytes} {packet : Packet}
    (parsed : (Event.walletData receiveBuffer).walletPacket = some packet)
    (effect : WalletEffect w packet w' out) (h : w.registry.Files k r)
    (hkeyed : w.registry.WellKeyed) : Audited k r ⟨w, .walletData receiveBuffer, w', out⟩ := by
  have hbalance := balance_of_some h.account
  have hquiet : ∀ {header : UInt8} {w' : World} {out : List Output}, packet.mHeader = header →
      header ≠ DaemonPacket.good → header ≠ DaemonPacket.orphanBlock →
      w'.registry.posted k = w.registry.posted k →
      Audited k r ⟨w, .walletData receiveBuffer, w', out⟩ := by
    rintro header w' out rfl hgood horphan hposted
    have hpays := World.paysFor_of_ne (w := w) parsed hgood
    have hnone := Event.orphan_of_ne parsed horphan
    exact audited_of_quiet hpays hnone hposted (postings_of_quiet hpays hnone)
  cases effect with
  | ignored header =>
    simp only [List.mem_cons, List.not_mem_nil, or_false, not_or] at header
    obtain ⟨-, -, horphan, hgood⟩ := header
    exact hquiet rfl hgood horphan rfl
  | pending header =>
    simp only [List.mem_cons, List.not_mem_nil, or_false] at header
    rcases header with header | header | header
    · exact hquiet header (by decide) (by decide) rfl
    · exact hquiet header (by decide) (by decide) rfl
    · exact hquiet header (by decide) (by decide) rfl
  | goodBlock header =>
    exact hquiet header (by decide) (by decide) (posted_of_getRecord rfl k)
  | @orphan hashOrphan data header payload hash =>
    have horphan : (Event.walletData receiveBuffer).orphan = some hashOrphan := by
      simp [Event.orphan, parsed, payload, header, hash]
    have hpays : w.paysFor (.walletData receiveBuffer) = none :=
      World.paysFor_of_ne parsed (by rw [header]; decide)
    have hrefund := audit_orphan (k := k) hkeyed hashOrphan r
    rw [Audited, postings_of_orphan parsed header payload hash]
    simp only [leak, hpays, horphan, Option.elim_some, hbalance]
    exact hrefund
  | @rebuilt data header =>
    refine hquiet header (by decide) (by decide) (posted_of_blocks ?_ k)
    change (DataRegistry.exec _ w.registry).2.mBlockDb = w.registry.mBlockDb
    rw [(DaemonConnection.exec_rebuildCoinbase _ _ _).1]
  | delivered header => exact hquiet header (by decide) (by decide) rfl
  | swallowed header => exact hquiet header (by decide) (by decide) rfl
  | @round w₁ w₂ _ cause frame =>
    have hregistry : w₂.reset.registry = w₁.registry := frame.registry
    have hblocks := posted_of_blocks (congrArg (·.mBlockDb) hregistry) k
    cases cause with
    | coinbaseSet header => exact hquiet header (by decide) (by decide) hblocks
    | reward header => exact hquiet header (by decide) (by decide) hblocks
    | good header =>
      have hpays : w.paysFor (.walletData receiveBuffer) = some w.daemon.mHashSubmitBlock := by
        simp [World.paysFor, Event.receives, parsed, header]
      have hsettle := audit_settle (k := k) hkeyed.2 w.daemon.mRoundReward
        w.daemon.mHashSubmitBlock w.daemon.mLastBlockfinder r
      rw [Audited, postings_of_good parsed header]
      simp only [leak, hpays, hbalance, hblocks, List.foldl_cons, List.foldl_nil]
      exact hsettle

theorem StepEffect.audited {e : Event} (effect : StepEffect w e w' out) (h : w.registry.Files k r)
    (hkeyed : w.registry.WellKeyed) : Audited k r ⟨w, e, w', out⟩ := by
  cases effect with
  | miner parsed effect =>
    refine audited_of_quiet rfl rfl ?_ (postings_of_quiet rfl rfl)
    cases effect with
    | refused self loggedOut registry =>
      rcases registry with rfl | ⟨-, b, rfl⟩
      · rfl
      · exact posted_of_blocks (by rw [DataRegistry.opened_eq]) k
    | loggedIn => exact posted_of_blocks (by rw [DataRegistry.opened_eq]) k
    | _ => rfl
  | @walletDropped receiveBuffer dropped =>
    have hpays : w.paysFor (.walletData receiveBuffer) = none := by
      simp [World.paysFor, Event.receives, dropped]
    have horphan : (Event.walletData receiveBuffer).orphan = none := by
      simp [Event.orphan, dropped]
    exact audited_of_quiet hpays horphan rfl (postings_of_quiet hpays horphan)
  | wallet parsed effect => exact effect.audited parsed h hkeyed
  | blockTimer take forward =>
    refine audited_of_quiet rfl rfl (posted_of_blocks ?_ k) (postings_of_quiet rfl rfl)
    exact congrArg (·.mBlockDb) (StepEffect.registry_of_blockTimer take forward)
  | _ => exact audited_of_quiet rfl rfl rfl (postings_of_quiet rfl rfl)

/-- In every run, from the moment an account has a record of its own, its balance and what the
block records say of it differ by what they differed by then, and by what was let go since. -/
theorem account_audit {past front : History World Event Output} {w₀ : World}
    (hpast : LoadedRun past w₀) (hfront : Run World.step (· = w₀) front w) (hk : k ≠ [])
    {r₀ : Account} (h₀ : w₀.registry.Files k r₀) :
    ∃ r, w.registry.Files k r ∧ r.nAccountBalance - w.registry.posted k =
      r₀.nAccountBalance - w₀.registry.posted k + (front.map (leak k)).sum := by
  induction hfront with
  | start hw =>
    subst hw
    exact ⟨r₀, h₀, by simp⟩
  | @next front w w' e out hrun hstep ih =>
    obtain ⟨r, h, hbalance⟩ := ih
    have hall := hpast.append hrun
    have heffect := stepEffect_of_run (serverRun_of_loaded hall) hstep
    have hkeyed := wellKeyed_of_loaded hall
    have haudited := heffect.audited h hkeyed
    refine ⟨_, heffect.files h hkeyed hk, ?_⟩
    rw [Audited] at haudited
    rw [haudited, hbalance, List.map_cons, List.sum_cons]
    grind

end Audit

section Refunded

attribute [local instance] Platform.plain
attribute [local irreducible] submittedRun orphanedRun

theorem account_audit_orphaned :
    ∃ r, (orphanedRun.get orphanedRun_isSome).2.registry.Files [65] r ∧
      r.nAccountBalance - (orphanedRun.get orphanedRun_isSome).2.registry.posted [65] =
        (Account.new [65]).nAccountBalance -
            (submittedRun.get submittedRun_isSome).2.registry.posted [65] +
          ((orphanedRun.get orphanedRun_isSome).1.map (leak [65])).sum := by
  have haccount : (submittedRun.get submittedRun_isSome).2.registry.Files [65] (.new [65]) :=
    ⟨submittedRun_account, rfl⟩
  exact account_audit submittedRun_run orphanedRun_run (by decide) haccount

end Refunded

end NexusPool
