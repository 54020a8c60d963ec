import NexusPool.Ledger.RefundFlag
import NexusPool.Server.Settlement
import NexusPool.Server.ShareCredit

/-!
# Orphaned blocks

A payout stores the coinbase value of its block, an orphan sets it to zero, and no other step
changes it. So an orphan that is reported again costs nobody anything, also after a restart.
A block that is paid out while the coinbase is empty counts as refunded from the start.
-/

namespace NexusPool

open Reactive World
open Std (ExtTreeMap)

/-! ### What a step does to the flags -/

/-- The block that is paid out in this step. -/
def World.paysFor (w : World) (e : Event) : Option Uint1024 :=
  if e.receives DaemonPacket.good then some w.daemon.mHashSubmitBlock else none

def Coinbase.value (c : Coinbase) : UInt64 := c.nMaxValue + c.nPoolFee

def World.paidRecord (w : World) : Block :=
  PayoutManager.paidBlock w.registry w.daemon.mHashSubmitBlock
    (PayoutManager.roundCredits w.registry w.daemon.mRoundReward w.daemon.mLastBlockfinder)

def World.flagsAfter (w : World) (e : Event) : Uint1024 → UInt64 :=
  match w.paysFor e, e.orphan with
  | some hash, _ => Function.update w.registry.mBlockDb.coinbaseValue hash
      w.registry.mCoinbase.value
  | none, some hash => Function.update w.registry.mBlockDb.coinbaseValue hash 0
  | none, none => w.registry.mBlockDb.coinbaseValue

section Effects

variable [Platform] {w w' : World} {e : Event} {out : List Output}

omit [Platform] in
theorem World.paysFor_of_orphan {hash : Uint1024} (h : e.orphan = some hash) :
    w.paysFor e = none := by
  cases parsed : e.walletPacket with
  | none => simp [Event.orphan, parsed] at h
  | some packet =>
    have hheader : packet.mHeader = DaemonPacket.orphanBlock := by
      by_contra hother
      simp [Event.orphan, parsed, hother] at h
    have hgood : packet.mHeader ≠ DaemonPacket.good := by
      rw [hheader]
      decide
    simp [World.paysFor, Event.receives, parsed, hgood]

omit [Platform] in
theorem World.flagsAfter_of_orphan {hash : Uint1024} (h : e.orphan = some hash) :
    w.flagsAfter e hash = 0 := by
  rw [World.flagsAfter, World.paysFor_of_orphan h, h]
  exact Function.update_self ..

omit [Platform] in
theorem World.flagsAfter_of_paysFor {hash : Uint1024} (h : w.paysFor e = some hash) :
    w.flagsAfter e hash = w.registry.mCoinbase.value := by
  rw [World.flagsAfter, h]
  exact Function.update_self ..

omit [Platform] in
theorem World.flagsAfter_of_ne {hash : Uint1024} (hpays : w.paysFor e ≠ some hash)
    (horphan : e.orphan ≠ some hash) :
    w.flagsAfter e hash = w.registry.mBlockDb.coinbaseValue hash := by
  unfold World.flagsAfter
  cases hpaid : w.paysFor e with
  | some paid =>
    rw [hpaid] at hpays
    exact Function.update_of_ne (fun h => hpays (congrArg some h.symm)) _ _
  | none =>
    cases hnamed : e.orphan with
    | some named =>
      rw [hnamed] at horphan
      exact Function.update_of_ne (fun h => horphan (congrArg some h.symm)) _ _
    | none => rfl

/-- The flags are as they should be, records with a value stay where they belong, and a payout
stores its record. -/
structure FlagEffect (w : World) (e : Event) (w' : World) : Prop where
  filed : w'.registry.mBlockDb.Filed
  values : w'.registry.mBlockDb.coinbaseValue = w.flagsAfter e
  paid : ∀ hash, w.paysFor e = some hash →
    w'.registry.mBlockDb = w.registry.mBlockDb.updateRecord w.paidRecord

omit [Platform] in
theorem World.paysFor_of_ne {packet : Packet} (parsed : e.walletPacket = some packet)
    (hgood : packet.mHeader ≠ DaemonPacket.good) : w.paysFor e = none := by
  simp [World.paysFor, Event.receives, parsed, hgood]

omit [Platform] in
theorem Event.orphan_of_ne {packet : Packet} (parsed : e.walletPacket = some packet)
    (horphan : packet.mHeader ≠ DaemonPacket.orphanBlock) : e.orphan = none := by
  simp [Event.orphan, parsed, horphan]

omit [Platform] in
theorem FlagEffect.of_blocks (hfiled : w.registry.mBlockDb.Filed) (hpays : w.paysFor e = none)
    (horphan : e.orphan = none) (hblocks : w'.registry.mBlockDb = w.registry.mBlockDb) :
    FlagEffect w e w' := by
  constructor
  · rw [hblocks]
    exact hfiled
  · rw [hblocks, World.flagsAfter, hpays, horphan]
  · simp [hpays]

omit [Platform] in
theorem FlagEffect.of_getRecord (hfiled : w.registry.mBlockDb.Filed) (hpays : w.paysFor e = none)
    (horphan : e.orphan = none) {hash : Uint1024}
    (hblocks : w'.registry.mBlockDb = (w.registry.mBlockDb.getRecord hash).2) :
    FlagEffect w e w' := by
  constructor
  · rw [hblocks]
    exact hfiled.getRecord hash
  · rw [hblocks, World.flagsAfter, hpays, horphan, Database.coinbaseValue_getRecord]
  · simp [hpays]

omit [Platform] in
/-- `ORPHAN_BLOCK` reads the record for the log first. -/
theorem World.flags_refund (hfiled : w.registry.mBlockDb.Filed) (hashOrphan : Uint1024) :
    (w.refund hashOrphan).registry.mBlockDb.Filed ∧
      (w.refund hashOrphan).registry.mBlockDb.coinbaseValue =
        Function.update w.registry.mBlockDb.coinbaseValue hashOrphan 0 := by
  have hread : (DataRegistry.exec (DataRegistry.call (.blockGet hashOrphan))
      w.registry).2.mBlockDb =
      (w.registry.mBlockDb.getRecord hashOrphan).2 := rfl
  unfold World.refund
  rw [DataRegistry.exec_bind]
  have hflags := PayoutManager.flags_refundPayouts
    (s := (DataRegistry.exec (DataRegistry.call (.blockGet hashOrphan)) w.registry).2)
    (by rw [hread]; exact hfiled.getRecord hashOrphan) hashOrphan
  rw [hread, Database.coinbaseValue_getRecord] at hflags
  exact hflags

theorem WalletEffect.flagEffect {packet : Packet} (parsed : e.walletPacket = some packet)
    (hfiled : w.registry.mBlockDb.Filed) (h : WalletEffect w packet w' out) :
    FlagEffect w e w' := by
  -- a packet other than the two that settle a block, after which the block database is as it was
  have hquiet : ∀ {header : UInt8} {w' : World}, packet.mHeader = header →
      header ≠ DaemonPacket.good → header ≠ DaemonPacket.orphanBlock →
      w'.registry.mBlockDb = w.registry.mBlockDb → FlagEffect w e w' := by
    rintro header w' rfl hgood horphan hblocks
    exact .of_blocks hfiled (World.paysFor_of_ne parsed hgood) (Event.orphan_of_ne parsed horphan)
      hblocks
  cases h with
  | ignored header =>
    simp only [List.mem_cons, List.not_mem_nil, or_false, not_or] at header
    obtain ⟨-, -, horphan, hgood⟩ := header
    exact hquiet rfl hgood horphan rfl
  | pending header =>
    simp only [List.mem_cons, List.not_mem_nil, or_false] at header
    rcases header with header | header | header
    · exact hquiet header (by decide) (by decide) rfl
    · exact hquiet header (by decide) (by decide) rfl
    · exact hquiet header (by decide) (by decide) rfl
  | goodBlock header =>
    have hpays : w.paysFor e = none := World.paysFor_of_ne parsed (by rw [header]; decide)
    have horphan : e.orphan = none := Event.orphan_of_ne parsed (by rw [header]; decide)
    exact .of_getRecord hfiled hpays horphan rfl
  | @orphan hashOrphan data header payload hash =>
    have horphan : e.orphan = some hashOrphan := by
      simp [Event.orphan, parsed, payload, header, hash]
    have hpays : w.paysFor e = none := World.paysFor_of_ne parsed (by rw [header]; decide)
    obtain ⟨hstored, hvalues⟩ := World.flags_refund hfiled hashOrphan
    refine ⟨hstored, ?_, by simp [hpays]⟩
    rw [World.flagsAfter, hpays, horphan]
    exact hvalues
  | @rebuilt data header =>
    obtain ⟨hsame, -⟩ := DaemonConnection.exec_rebuildCoinbase (s := w.registry)
      (bytes2uint64 data 0) w.daemon.mLastBlockfinder w.registry.mCoinbase
    refine hquiet header (by decide) (by decide) ?_
    simp only [World.rebuilt, hsame]
  | delivered header => exact hquiet header (by decide) (by decide) rfl
  | swallowed header => exact hquiet header (by decide) (by decide) rfl
  | @round w₁ w₂ _ cause frame =>
    have hblocks : w₂.reset.registry.mBlockDb = w₁.registry.mBlockDb := by
      change w₂.registry.mBlockDb = _
      rw [frame.registry]
      rfl
    cases cause with
    | coinbaseSet header => exact hquiet header (by decide) (by decide) hblocks
    | reward header => exact hquiet header (by decide) (by decide) hblocks
    | good header =>
      obtain ⟨db, hsettle⟩ := w.exists_settle
      rw [hsettle] at hblocks
      have hpays : w.paysFor e = some w.daemon.mHashSubmitBlock := by
        simp [World.paysFor, Event.receives, parsed, header]
      refine ⟨hblocks ▸ hfiled.updateRecord _, ?_, fun _ _ => hblocks⟩
      rw [hblocks, World.flagsAfter, hpays]
      exact Database.coinbaseValue_updateRecord _ _

theorem StepEffect.flagEffect (hfiled : w.registry.mBlockDb.Filed) (h : StepEffect w e w' out) :
    FlagEffect w e w' := by
  cases h with
  | wallet parsed effect => exact effect.flagEffect parsed hfiled
  | walletDropped dropped =>
    refine .of_blocks hfiled ?_ ?_ rfl
    · simp [World.paysFor, Event.receives, dropped]
    · simp [Event.orphan, dropped]
  | miner parsed effect =>
    refine .of_blocks hfiled rfl rfl ?_
    cases effect with
    | refused self loggedOut registry =>
      rcases registry with rfl | ⟨-, b, rfl⟩
      · rfl
      · rw [DataRegistry.opened_eq]
    | loggedIn => rw [DataRegistry.opened_eq]
    | _ => rfl
  | blockTimer take forward =>
    refine .of_blocks hfiled rfl rfl ?_
    rw [forward.registry]
    cases take <;> rfl
  | _ => exact .of_blocks hfiled rfl rfl rfl

/-! ### What was paid out can be refunded -/

/-- After start-up, with the databases as they were read from the two files. -/
def World.Loaded (w : World) : Prop :=
  ∃ config blkDat acctDat blockDb accountDb mRoundReward,
    Database.readIntoMemory blkDat = some blockDb ∧
      Database.readIntoMemory acctDat = some accountDb ∧
      w = World.init (DataRegistry.init config blockDb accountDb) mRoundReward

theorem World.Loaded.initial (h : w.Loaded) : w.Initial := by
  obtain ⟨config, -, -, blockDb, accountDb, mRoundReward, -, -, rfl⟩ := h
  exact ⟨config, blockDb, accountDb, mRoundReward, rfl⟩

theorem World.Loaded.filed (h : w.Loaded) : w.registry.mBlockDb.Filed := by
  obtain ⟨_, _, _, _, _, _, hblocks, -, rfl⟩ := h
  exact (Database.ownKeys_of_readIntoMemory hblocks).filed

/-- The runs of the server from its files. -/
abbrev LoadedRun := Run World.step World.Loaded

theorem serverRun_of_loaded {history : History World Event Output} (h : LoadedRun history w) :
    ServerRun history w :=
  h.of_init fun _ => World.Loaded.initial

theorem filed_of_run {history : History World Event Output} (h : LoadedRun history w) :
    w.registry.mBlockDb.Filed := by
  induction h with
  | start h => exact h.filed
  | next hrun hstep ih =>
    exact ((stepEffect_of_run (serverRun_of_loaded hrun) hstep).flagEffect ih).filed

/-- The block has a record that credits an account. -/
def World.credited (w : World) (hash : Uint1024) : Bool :=
  w.registry.mBlockDb.mapRecords[hash]?.any fun b => !b.cCredits.mapCredits.isEmpty

/-- The block was paid out to at least one account, and no orphan has named it since. -/
def toRefund (hash : Uint1024) : History World Event Output → Bool
  | [] => false
  | o :: past =>
    if o.before.paysFor o.event = some hash then o.after.credited hash
    else decide (o.event.orphan ≠ some hash) && toRefund hash past

/-- No block that is to be refunded is taken for one that is done with, neither by an orphan
nor by the orphan check. -/
def Refundable (history : History World Event Output) (w : World) : Prop :=
  ∀ hash, toRefund hash history → w.registry.mBlockDb.coinbaseValue hash ≠ 0

/-- A payout now would credit an account: there is a finder, or there are shares. -/
def World.CreditsSome (w : World) : Prop :=
  w.daemon.mLastBlockfinder ≠ [] ∨ ¬ w.registry.NoShares

instance (w : World) : Decidable w.CreditsSome :=
  inferInstanceAs (Decidable (_ ∨ ¬ w.registry.NoShares))

/-- Every `GOOD` that credits an account finds a coinbase with a value. -/
def PaysFromCoinbase (history : History World Event Output) : Prop :=
  Throughout (fun _ o => o.event.receives DaemonPacket.good → o.before.CreditsSome →
    o.before.registry.mCoinbase.value ≠ 0) history

instance (history : History World Event Output) : Decidable (PaysFromCoinbase history) :=
  Throughout.decidable _ history

omit [Platform] in
theorem World.creditsSome_of_credited {hash : Uint1024} (hpays : w.paysFor e = some hash)
    (hpaid : w'.registry.mBlockDb = w.registry.mBlockDb.updateRecord w.paidRecord)
    (hcredited : w'.credited hash = true) : w.CreditsSome := by
  have hhash : w.daemon.mHashSubmitBlock = hash := by
    unfold World.paysFor at hpays
    split_ifs at hpays
    exact Option.some.inj hpays
  have hkey : Record.cKey w.paidRecord = hash := hhash
  rw [World.credited, hpaid, Database.find_updateRecord, if_pos hkey] at hcredited
  by_contra hnone
  simp only [World.CreditsSome, not_or, not_not] at hnone
  obtain ⟨hfinder, hshares⟩ := hnone
  have hcredits : w.paidRecord.cCredits = .empty := by
    rw [World.paidRecord, hfinder]
    exact PayoutManager.roundCredits_of_noShares hshares _
  simp [hcredits, Credits.empty] at hcredited

theorem refundable_of_paysFromCoinbase {history : History World Event Output}
    (h : LoadedRun history w) (hvalued : PaysFromCoinbase history) : Refundable history w := by
  induction h with
  | start => exact fun _ h => absurd h Bool.false_ne_true
  | @next past w w' e out hrun hstep ih =>
    obtain ⟨hgood, hpast⟩ := hvalued
    have heffect := (stepEffect_of_run (serverRun_of_loaded hrun) hstep).flagEffect
      (filed_of_run hrun)
    intro hash hhash
    rw [heffect.values]
    by_cases hpays : w.paysFor e = some hash
    · rw [toRefund, if_pos hpays] at hhash
      rw [World.flagsAfter_of_paysFor hpays]
      apply hgood
      · by_contra hother
        simp [World.paysFor, hother] at hpays
      · exact World.creditsSome_of_credited hpays (heffect.paid hash hpays) hhash
    · rw [toRefund, if_neg hpays, Bool.and_eq_true, decide_eq_true_iff] at hhash
      rw [World.flagsAfter_of_ne hpays hhash.1]
      exact ih hpast hash hhash.2

end Effects

section FirstRound

attribute [local instance] Platform.plain

theorem World.fresh_loaded : World.Loaded World.fresh := ⟨_, [], [], _, _, _, rfl, rfl, rfl⟩

/-- A miner is given a block of this height and solves it, and the wallet accepts it. -/
def blockFound (nHeight : UInt32) : List Event :=
  oneRequest ++ [
    .walletData (Packet.withData DaemonPacket.blockData
      (List.replicate 200 0 ++ uint2bytes nHeight ++ List.replicate 12 0)).wire,
    .minerData 0 (Packet.withData Packet.submitShare (List.replicate 136 0)).wire, .blockTimer,
    .walletData (Packet.getPacket DaemonPacket.good).wire]

/-- Nobody has found the block of the first round, or has shares in it. -/
def secondRound : List Event :=
  [.walletConnected, .walletData (Packet.getPacket DaemonPacket.good).wire,
    .walletData (Packet.withData DaemonPacket.blockHeight (uint2bytes 1)).wire,
    .walletData (Packet.withData DaemonPacket.blockReward (uint2bytes64 100)).wire,
    .walletData (Packet.getPacket DaemonPacket.coinbaseSet).wire] ++ (blockFound 1).tail

def secondRoundRun : Option (History World Event Output × World) :=
  trace World.step .fresh secondRound

theorem secondRoundRun_isSome : secondRoundRun.isSome := by decide +kernel

theorem secondRoundRun_run : LoadedRun (secondRoundRun.get secondRoundRun_isSome).1
    (secondRoundRun.get secondRoundRun_isSome).2 :=
  Run.of_trace World.fresh_loaded (Option.some_get _).symm

theorem secondRoundRun_paysFromCoinbase :
    PaysFromCoinbase (secondRoundRun.get secondRoundRun_isSome).1 := by decide +kernel

theorem secondRoundRun_toRefund : toRefund 0 (secondRoundRun.get secondRoundRun_isSome).1 := by
  decide +kernel

attribute [local irreducible] secondRoundRun

theorem secondRoundRun_refundable :
    toRefund 0 (secondRoundRun.get secondRoundRun_isSome).1 ∧
      Refundable (secondRoundRun.get secondRoundRun_isSome).1
        (secondRoundRun.get secondRoundRun_isSome).2 :=
  ⟨secondRoundRun_toRefund,
    refundable_of_paysFromCoinbase secondRoundRun_run secondRoundRun_paysFromCoinbase⟩

/-- A block of the first round is paid out while the coinbase is empty. -/
theorem first_round_final : ¬ ∀ (platform : Platform) history w,
    @LoadedRun platform history w → Refundable history w := by
  intro h
  have hfound : (trace World.step .fresh (blockFound 0)).any (fun r =>
      toRefund 0 r.1 && decide (r.2.registry.mBlockDb.coinbaseValue 0 = 0)) = true := by
    decide +kernel
  obtain ⟨r, hr, hfound⟩ := (Option.any_eq_true _ _).mp hfound
  obtain ⟨hunrefunded, hzero⟩ := Bool.and_eq_true_iff.mp hfound
  have hrun := Run.of_trace World.fresh_loaded hr
  exact h .plain _ _ hrun 0 hunrefunded (of_decide_eq_true hzero)

end FirstRound

end NexusPool
