import NexusPool.Server.OrphanedBlocks

/-!
# Restarts

`blk.dat` is written by payouts and refunds, and by the persistence timer. A server that is
started again reads it, and with it which blocks were refunded. An orphan is refunded once,
however often it is reported, over any number of restarts.
-/

namespace NexusPool

open Reactive World

/-- The process and its file of block records. -/
structure Server where
  world : World
  blkDat : List Bytes

/-- An event of the process, the persistence timer, or the end of the process and the start of
the next one. What is read from the account file is left open. -/
inductive Incident
  | event (e : Event)
  | persisted
  | restarted (config : Config) (acctDat : List Bytes) (mRoundReward : UInt64)

/-- A payout writes the block records, and so does a refund that is not skipped. -/
def World.writesBlocks (w : World) (e : Event) : Bool :=
  e.receives DaemonPacket.good ||
    e.orphan.any fun hashOrphan => w.registry.mBlockDb.coinbaseValue hashOrphan ≠ 0

namespace Server

variable [Platform]

def step (s : Server) : Incident → Option (Server × List Output)
  | .event e => (s.world.step e).map fun next =>
    ({ world := next.1
       blkDat := if s.world.writesBlocks e then next.1.registry.mBlockDb.writeToDisk
         else s.blkDat },
      next.2)
  | .persisted => some ({ s with blkDat := s.world.registry.mBlockDb.writeToDisk }, [])
  | .restarted config acctDat mRoundReward => do
    let blockDb ← Database.readIntoMemory s.blkDat
    let accountDb ← Database.readIntoMemory acctDat
    return ({ s with
      world := World.init (DataRegistry.init config blockDb accountDb) mRoundReward }, [])

def Loaded (s : Server) : Prop :=
  ∃ config acctDat blockDb accountDb mRoundReward,
    Database.readIntoMemory s.blkDat = some blockDb ∧
      Database.readIntoMemory acctDat = some accountDb ∧
        s.world = World.init (DataRegistry.init config blockDb accountDb) mRoundReward

end Server

def Incident.orphan : Incident → Option Uint1024
  | .event e => e.orphan
  | _ => none

def Server.paysFor (s : Server) : Incident → Option Uint1024
  | .event e => s.world.paysFor e
  | _ => none

/-- The block was reported as an orphan, and has not been paid out since. -/
def refunded (hash : Uint1024) : History Server Incident Output → Bool
  | [] => false
  | o :: past => decide (o.event.orphan = some hash) ||
    (decide (o.before.paysFor o.event ≠ some hash) && refunded hash past)

theorem refunded_cons {hash : Uint1024} {o : Occurrence Server Incident Output}
    {past : History Server Incident Output} : refunded hash (o :: past) ↔
      o.event.orphan = some hash ∨ o.before.paysFor o.event ≠ some hash ∧ refunded hash past := by
  rw [refunded, Bool.or_eq_true, Bool.and_eq_true, decide_eq_true_iff, decide_eq_true_iff]

/-- An orphan that was reported before, or that nothing is known of, changes no account. -/
def RefundsOnce (history : History Server Incident Output) : Prop :=
  Throughout (fun past o => ∀ hash, o.event.orphan = some hash →
    refunded hash past ∨ o.before.world.registry.mBlockDb.hasKey hash = false →
      o.after.world.registry.mAccountDb = o.before.world.registry.mAccountDb) history

section Effects

variable [Platform] {w w' : World} {e : Event} {out : List Output}

theorem WalletEffect.accounts_of_orphan {packet : Packet} {hash : Uint1024}
    (parsed : e.walletPacket = some packet) (horphan : e.orphan = some hash)
    (hzero : w.registry.mBlockDb.coinbaseValue hash = 0) (h : WalletEffect w packet w' out) :
    w'.registry.mAccountDb = w.registry.mAccountDb := by
  have hheader : packet.mHeader = DaemonPacket.orphanBlock := by
    by_contra hother
    rw [Event.orphan_of_ne parsed hother] at horphan
    cases horphan
  cases h with
  | @orphan hashOrphan data header payload parsedHash =>
    have hnamed : e.orphan = some hashOrphan := by
      simp [Event.orphan, parsed, payload, header, parsedHash]
    rw [hnamed] at horphan
    cases horphan
    simp only [modifyDaemon, refund_of_zero hzero]
  | rebuilt header => rw [hheader] at header; exact absurd header (by decide)
  | round cause frame =>
    refine (congrArg DataRegistry.mAccountDb frame.registry).trans ?_
    cases cause with
    | good header => rw [hheader] at header; exact absurd header (by decide)
    | _ => rfl
  | _ => rfl

theorem StepEffect.accounts_of_orphan {hash : Uint1024} (horphan : e.orphan = some hash)
    (hzero : w.registry.mBlockDb.coinbaseValue hash = 0) (h : StepEffect w e w' out) :
    w'.registry.mAccountDb = w.registry.mAccountDb := by
  cases h with
  | wallet parsed effect => exact effect.accounts_of_orphan parsed horphan hzero
  | walletDropped => rfl
  | _ => cases horphan

omit [Platform] in
theorem World.flagsAfter_of_not_writes (h : w.writesBlocks e = false) :
    w.flagsAfter e = w.registry.mBlockDb.coinbaseValue := by
  simp only [World.writesBlocks, Bool.or_eq_false_iff] at h
  obtain ⟨hgood, horphan⟩ := h
  have hpays : w.paysFor e = none := by
    rw [World.paysFor, hgood]
    rfl
  unfold World.flagsAfter
  rw [hpays]
  cases hnamed : e.orphan with
  | none => rfl
  | some hash =>
    have hzero : w.registry.mBlockDb.coinbaseValue hash = 0 := by simpa [hnamed] using horphan
    change Function.update _ hash 0 = _
    rw [← hzero, Function.update_eq_self]

end Effects

/-! ### The flags of a run -/

section Runs

variable [Platform] {history : History Server Incident Output} {s s' : Server} {out : List Output}

/-- A block whose flag is set is read as such from the file. -/
def Server.Saved (s : Server) : Prop :=
  ∀ hash blockDb, s.world.registry.mBlockDb.coinbaseValue hash = 0 →
    Database.readIntoMemory s.blkDat = some blockDb → blockDb.coinbaseValue hash = 0

/-- What holds of the block records in every run, and what the history says of their flags. -/
structure FlagsKept (history : History Server Incident Output) (s : Server) : Prop where
  mNewBlock : s.world.daemon.mNewBlock = false
  filed : s.world.registry.mBlockDb.Filed
  saved : s.Saved
  flags : ∀ hash, refunded hash history → s.world.registry.mBlockDb.coinbaseValue hash = 0

theorem Server.saved_of_written {world : World} (hfiled : world.registry.mBlockDb.Filed) :
    Server.Saved ⟨world, world.registry.mBlockDb.writeToDisk⟩ :=
  fun _ _ hzero hread => hfiled.coinbaseValue_reload hzero hread

theorem Server.saved_of_read {blockDb : Database Uint1024 Block}
    (hread : Database.readIntoMemory s.blkDat = some blockDb)
    (hblocks : s.world.registry.mBlockDb = blockDb) : s.Saved := by
  intro hash blockDb' hzero hread'
  rw [hread] at hread'
  cases hread'
  rwa [hblocks] at hzero

theorem FlagsKept.start (h : s.Loaded) : FlagsKept [] s := by
  obtain ⟨config, acctDat, blockDb, accountDb, mRoundReward, hread, -, hworld⟩ := h
  have hblocks : s.world.registry.mBlockDb = blockDb := by
    rw [hworld]
    rfl
  constructor
  · rw [hworld]
    rfl
  · rw [hblocks]
    exact (Database.ownKeys_of_readIntoMemory hread).filed
  · exact Server.saved_of_read hread hblocks
  · exact fun hash h => absurd h Bool.false_ne_true

theorem FlagsKept.event {e : Event} {w' : World} (h : FlagsKept history s)
    (hstep : s.world.step e = some (w', out)) :
    FlagsKept (⟨s, .event e, ⟨w', if s.world.writesBlocks e then w'.registry.mBlockDb.writeToDisk
      else s.blkDat⟩, out⟩ :: history)
      ⟨w', if s.world.writesBlocks e then w'.registry.mBlockDb.writeToDisk else s.blkDat⟩ := by
  have heffect := step_effect h.mNewBlock hstep
  obtain ⟨hfiled, hvalues, -⟩ := heffect.flagEffect h.filed
  constructor
  · exact heffect.mNewBlock h.mNewBlock
  · exact hfiled
  · cases hwrites : s.world.writesBlocks e with
    | true => exact Server.saved_of_written hfiled
    | false =>
      rw [World.flagsAfter_of_not_writes hwrites] at hvalues
      intro hash blockDb hzero hread
      rw [hvalues] at hzero
      exact h.saved hash blockDb hzero hread
  · intro hash hrefunded
    rw [hvalues]
    by_cases horphan : e.orphan = some hash
    · exact World.flagsAfter_of_orphan horphan
    · obtain ⟨hpays, hpast⟩ := (refunded_cons.mp hrefunded).resolve_left horphan
      rw [World.flagsAfter_of_ne hpays horphan]
      exact h.flags hash hpast

theorem FlagsKept.persisted (h : FlagsKept history s) :
    FlagsKept (⟨s, .persisted, ⟨s.world, s.world.registry.mBlockDb.writeToDisk⟩, out⟩ :: history)
      ⟨s.world, s.world.registry.mBlockDb.writeToDisk⟩ where
  mNewBlock := h.mNewBlock
  filed := h.filed
  saved := Server.saved_of_written h.filed
  flags hash hrefunded := by
    obtain ⟨-, hpast⟩ := (refunded_cons.mp hrefunded).resolve_left (Option.some_ne_none hash).symm
    exact h.flags hash hpast

theorem FlagsKept.restarted {config : Config} {acctDat : List Bytes} {mRoundReward : UInt64}
    {blockDb : Database Uint1024 Block} {accountDb : Database Bytes Account}
    (h : FlagsKept history s) (hread : Database.readIntoMemory s.blkDat = some blockDb) :
    FlagsKept (⟨s, .restarted config acctDat mRoundReward,
      ⟨World.init (DataRegistry.init config blockDb accountDb) mRoundReward, s.blkDat⟩,
        out⟩ :: history)
      ⟨World.init (DataRegistry.init config blockDb accountDb) mRoundReward, s.blkDat⟩ where
  mNewBlock := rfl
  filed := (Database.ownKeys_of_readIntoMemory hread).filed
  saved := Server.saved_of_read hread rfl
  flags hash hrefunded := by
    obtain ⟨-, hpast⟩ := (refunded_cons.mp hrefunded).resolve_left (Option.some_ne_none hash).symm
    exact h.saved hash blockDb (h.flags hash hpast) hread

theorem FlagsKept.next {i : Incident} (h : FlagsKept history s)
    (hstep : s.step i = some (s', out)) :
    FlagsKept (⟨s, i, s', out⟩ :: history) s' := by
  cases i with
  | event e =>
    obtain ⟨⟨w', out'⟩, hw, heq⟩ := Option.map_eq_some_iff.mp hstep
    cases heq
    exact h.event hw
  | persisted =>
    cases hstep
    exact h.persisted
  | restarted config acctDat mRoundReward =>
    simp only [Server.step, Option.bind_eq_bind, Option.bind_eq_some_iff, Option.pure_def,
      Option.some.injEq, Prod.mk.injEq] at hstep
    obtain ⟨blockDb, hread, accountDb, -, rfl, rfl⟩ := hstep
    exact h.restarted hread

theorem flagsKept_of_run (h : Run Server.step Server.Loaded history s) : FlagsKept history s := by
  induction h with
  | start h => exact .start h
  | next _ hstep ih => exact ih.next hstep

theorem refundsOnce_of_run (h : Run Server.step Server.Loaded history s) : RefundsOnce history := by
  induction h with
  | start => trivial
  | @next past s s' i out hrun hstep ih =>
    refine ⟨fun hash horphan hdone => ?_, ih⟩
    have hkept := flagsKept_of_run hrun
    have hzero : s.world.registry.mBlockDb.coinbaseValue hash = 0 := by
      rcases hdone with hdone | hunknown
      · exact hkept.flags hash hdone
      · apply Database.coinbaseValue_of_none
        rwa [Database.hasKey_eq_isSome, Option.isSome_eq_false_iff,
          Option.isNone_iff_eq_none] at hunknown
    cases i with
    | event e =>
      obtain ⟨⟨w', out'⟩, hw, heq⟩ := Option.map_eq_some_iff.mp hstep
      cases heq
      exact (step_effect hkept.mNewBlock hw).accounts_of_orphan horphan hzero
    | _ => cases horphan

end Runs

section TwoReports

attribute [local instance] Platform.plain

def orphanReported : Incident :=
  .event (.walletData (Packet.withData DaemonPacket.orphanBlock (List.replicate 128 0)).wire)

def reportedTwice : Option (History Server Incident Output × Server) :=
  trace Server.step ⟨.fresh, []⟩ (secondRound.map .event ++
    [orphanReported, .persisted, .restarted ⟨0, 0, false⟩ [Account.serialize (.new [65])] 0,
      .event .walletConnected, orphanReported])

theorem reportedTwice_isSome : reportedTwice.isSome := by decide +kernel

theorem reportedTwice_run : Run Server.step Server.Loaded (reportedTwice.get reportedTwice_isSome).1
    (reportedTwice.get reportedTwice_isSome).2 := by
  have hloaded : Server.Loaded ⟨.fresh, []⟩ := ⟨_, [], _, _, _, rfl, rfl, rfl⟩
  exact Run.of_trace hloaded (Option.some_get _).symm

attribute [local irreducible] reportedTwice

theorem reportedTwice_refundsOnce : RefundsOnce (reportedTwice.get reportedTwice_isSome).1 :=
  refundsOnce_of_run reportedTwice_run

end TwoReports

end NexusPool
