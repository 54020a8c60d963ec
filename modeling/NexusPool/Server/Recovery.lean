import NexusPool.Server.Journal
import NexusPool.Server.Restart

/-!
# The accounts after a restart

`acct.dat` is written by the persistence timer, when the wallet has set the coinbase, and by a
payout, before the shares are cleared. A server that is started again reads it. Over any number
of restarts the record of an account is what was posted up to the last write before each of them,
as far as the amounts are read back as they were written, and what was posted after that write is
lost. Each write of the file is taken as a whole.
-/

namespace NexusPool

open DataRegistry PayoutManager Reactive World

/-! ### What is read back -/

section Reading

variable [Target]

/-- What is read of a record that was written. -/
def Account.reread (r : Account) : Account :=
  { r with
    nAccountBalance := bytes2uint64 (uint2bytes64 r.nAccountBalance) 0
    nRoundShares := bytes2uint64 (uint2bytes64 r.nRoundShares) 0 }

/-- Amounts of at most 32 bits, which is what can be read back. -/
def Account.Fits (r : Account) : Prop :=
  r.nAccountBalance.toNat < 2 ^ 32 ∧ r.nRoundShares.toNat < 2 ^ 32

instance (r : Account) : Decidable r.Fits := inferInstanceAs (Decidable (_ ∧ _))

theorem Account.reread_of_fits {r : Account} (h : r.Fits) : r.reread = r := by
  have hbalance := (preserved_iff r.nAccountBalance).mpr h.1
  have hshares := (preserved_iff r.nRoundShares).mpr h.2
  rw [Preserved] at hbalance hshares
  rw [reread, hbalance, hshares]

/-- The file can be read, and has this record for the account. -/
def OnFile (acctDat : List Bytes) (k : Bytes) (r : Account) : Prop :=
  ∃ db : Database Bytes Account,
    Database.readIntoMemory acctDat = some db ∧ db.mapRecords[k]? = some r

/-- Only one of the records that are written has this key. -/
theorem DataRegistry.Files.onFile {s : DataRegistry} {k : Bytes} {r : Account} (h : s.Files k r)
    (hkeyed : s.mAccountDb.WellKeyed) (hk : k ≠ []) :
    OnFile s.mAccountDb.writeToDisk k r.reread := by
  have hfile : ∀ vData ∈ s.mAccountDb.writeToDisk,
      ∃ r : Account, Stored.deserialize vData = some r := by
    intro vData hmem
    obtain ⟨k', r', -, rfl⟩ := Database.mem_writeToDisk.mp hmem
    exact ⟨_, r'.deserialize_serialize⟩
  obtain ⟨db, hread⟩ := Database.exists_readRecords hfile .empty
  have hkept : db.hasKey k := Database.hasKey_of_readRecords hread
    (.inr ⟨_, Database.mem_writeToDisk.mpr ⟨k, r, h.account, rfl⟩, _,
      r.deserialize_serialize, h.own⟩)
  have hfrom : ∀ (k' : Bytes) (r' : Account), db.mapRecords[k']? = some r' → k' = k →
      r' = r.reread := by
    refine Database.forall_of_readIntoMemory ?_ hread
    intro vData hmem r' hr' hkey
    obtain ⟨k₀, r₀, hr₀, rfl⟩ := Database.mem_writeToDisk.mp hmem
    have hwritten : r' = r₀.reread := Option.some.inj (hr'.symm.trans r₀.deserialize_serialize)
    rw [hwritten] at hkey ⊢
    rcases hkeyed k₀ r₀ hr₀ with hown | rfl
    · obtain rfl : k₀ = k := hown.symm.trans hkey
      rw [Option.some.inj (hr₀.symm.trans h.account)]
    · exact absurd hkey.symm hk
  obtain ⟨r', hr'⟩ := Database.hasKey_iff.mp hkept
  exact ⟨db, hread, (hfrom k r' hr' rfl) ▸ hr'⟩

end Reading

/-! ### The server and its account file -/

/-- The process and its file of accounts. -/
structure AccountServer where
  world : World
  acctDat : List Bytes

/-- An event of the process, the persistence timer, or the end of the process between two steps and
the start of the next one. A step writes the accounts once at most, and the write is taken as a
whole, so an end within a step leaves the file of before or after it. What is read from the block
file is left open. -/
inductive AccountIncident
  | event (e : Event)
  | persisted
  | restarted (config : Config) (blkDat : List Bytes) (mRoundReward : UInt64)

namespace AccountServer

variable [Platform]

def written (w : World) (e : Event) (w' : World) : Option (Database Bytes Account) :=
  if e.receives DaemonPacket.good then
    some (exec (updateBalances w.daemon.mRoundReward w.daemon.mHashSubmitBlock
      w.daemon.mLastBlockfinder) w.registry).2.mAccountDb
  else if e.receives DaemonPacket.coinbaseSet then some w'.registry.mAccountDb
  else none

def step (s : AccountServer) : AccountIncident → Option (AccountServer × List Output)
  | .event e => (s.world.step e).map fun next =>
    ({ world := next.1
       acctDat := (written s.world e next.1).elim s.acctDat Database.writeToDisk }, next.2)
  | .persisted => some ({ s with acctDat := s.world.registry.mAccountDb.writeToDisk }, [])
  | .restarted config blkDat mRoundReward => do
    let blockDb ← Database.readIntoMemory blkDat
    let accountDb ← Database.readIntoMemory s.acctDat
    return ({ s with
      world := World.init (DataRegistry.init config blockDb accountDb) mRoundReward }, [])

def Loaded (s : AccountServer) : Prop :=
  ∃ config blkDat blockDb accountDb mRoundReward,
    Database.readIntoMemory blkDat = some blockDb ∧
      Database.readIntoMemory s.acctDat = some accountDb ∧
        s.world = World.init (DataRegistry.init config blockDb accountDb) mRoundReward

/-- What holds of the process in every run. -/
structure Kept (s : AccountServer) : Prop where
  mNewBlock : s.world.daemon.mNewBlock = false
  keyed : s.world.registry.WellKeyed

theorem kept_init {config : Config} {blkDat acctDat : List Bytes} {mRoundReward : UInt64}
    {blockDb : Database Uint1024 Block} {accountDb : Database Bytes Account}
    (hblocks : Database.readIntoMemory blkDat = some blockDb)
    (haccounts : Database.readIntoMemory acctDat = some accountDb) (file : List Bytes) :
    Kept ⟨World.init (DataRegistry.init config blockDb accountDb) mRoundReward, file⟩ where
  mNewBlock := rfl
  keyed := ⟨(Database.ownKeys_of_readIntoMemory hblocks).wellKeyed,
    (Database.ownKeys_of_readIntoMemory haccounts).wellKeyed⟩

theorem Kept.next {s s' : AccountServer} {i : AccountIncident} {out : List Output} (h : s.Kept)
    (hstep : s.step i = some (s', out)) : s'.Kept := by
  cases i with
  | event e =>
    obtain ⟨⟨w', out'⟩, hw, heq⟩ := Option.map_eq_some_iff.mp hstep
    cases heq
    have heffect := step_effect h.mNewBlock hw
    exact ⟨heffect.mNewBlock h.mNewBlock, heffect.wellKeyed h.keyed⟩
  | persisted =>
    cases hstep
    exact ⟨h.mNewBlock, h.keyed⟩
  | restarted config blkDat mRoundReward =>
    simp only [step, Option.bind_eq_bind, Option.bind_eq_some_iff, Option.pure_def,
      Option.some.injEq, Prod.mk.injEq] at hstep
    obtain ⟨blockDb, hblocks, accountDb, haccounts, rfl, rfl⟩ := hstep
    exact kept_init hblocks haccounts _

theorem kept_of_run {history : History AccountServer AccountIncident Output} {s : AccountServer}
    (h : Run step Loaded history s) : s.Kept := by
  induction h with
  | @start s h =>
    obtain ⟨config, blkDat, blockDb, accountDb, mRoundReward, hblocks, haccounts, hworld⟩ := h
    obtain ⟨world, acctDat⟩ := s
    cases hworld
    exact kept_init hblocks haccounts _
  | next _ hstep ih => exact ih.next hstep

end AccountServer

/-! ### The two copies of a record -/

/-- The record of an account in memory, and as it would be read from the file. -/
structure Copies where
  memory : Account
  file : Account

section Copies

variable [Platform]

/-- The record that a step writes, if it does. A payout writes it with the shares that it has paid
for. -/
def Copies.written (k : Bytes) (c : Copies)
    (o : Occurrence AccountServer AccountIncident Output) : Option Account :=
  match o.event with
  | .event e =>
    if e.receives DaemonPacket.good then
      some (c.memory.receive (payment o.before.world.registry o.before.world.daemon.mRoundReward
        o.before.world.daemon.mLastBlockfinder k))
    else if e.receives DaemonPacket.coinbaseSet then
      some ((postings k ⟨o.before.world, e, o.after.world, o.outputs⟩).foldl Account.post c.memory)
    else none
  | .persisted => some c.memory
  | .restarted _ _ _ => none

/-- An event posts to the record in memory. What is written will be read as `read` says, and is
read at the next start. -/
def Copies.next (read : Account → Account) (k : Bytes) (c : Copies)
    (o : Occurrence AccountServer AccountIncident Output) : Copies where
  memory :=
    match o.event with
    | .event e =>
      (postings k ⟨o.before.world, e, o.after.world, o.outputs⟩).foldl Account.post c.memory
    | .persisted => c.memory
    | .restarted _ _ _ => c.file
  file := (c.written k o).elim c.file read

def copies (read : Account → Account) (k : Bytes) (c : Copies) :
    History AccountServer AccountIncident Output → Copies
  | [] => c
  | o :: past => (copies read k c past).next read k o

/-- All amounts of the account that are written fit, if they are read back as they are. -/
def WritesFit (k : Bytes) (c : Copies) (history : History AccountServer AccountIncident Output) :
    Prop :=
  Throughout (fun past o => ∀ r ∈ (copies id k c past).written k o, r.Fits) history

instance (k : Bytes) (c : Copies) (history : History AccountServer AccountIncident Output) :
    Decidable (WritesFit k c history) :=
  inferInstanceAs (Decidable (Throughout _ history))

theorem copies_reread {k : Bytes} {c : Copies}
    {history : History AccountServer AccountIncident Output} (h : WritesFit k c history) :
    copies Account.reread k c history = copies id k c history := by
  induction history with
  | nil => rfl
  | cons o past ih =>
    have hpast := ih h.2
    have hfile : ((copies id k c past).written k o).elim (copies id k c past).file Account.reread =
        ((copies id k c past).written k o).elim (copies id k c past).file id := by
      cases hwritten : (copies id k c past).written k o with
      | none => rfl
      | some r => exact Account.reread_of_fits (h.1 r hwritten)
    simp only [copies, hpast, Copies.next, hfile]

structure AccountServer.Holds (s : AccountServer) (k : Bytes) (c : Copies) : Prop where
  memory : s.world.registry.Files k c.memory
  file : OnFile s.acctDat k c.file

theorem AccountServer.Holds.next {s s' : AccountServer} {i : AccountIncident} {out : List Output}
    {k : Bytes} {c : Copies} (h : s.Holds k c) (hkept : s.Kept) (hk : k ≠ [])
    (hstep : s.step i = some (s', out)) :
    s'.Holds k (c.next Account.reread k ⟨s, i, s', out⟩) := by
  cases i with
  | event e =>
    obtain ⟨⟨w', out'⟩, hw, heq⟩ := Option.map_eq_some_iff.mp hstep
    cases heq
    have heffect := step_effect hkept.mNewBlock hw
    have hmemory := heffect.files h.memory hkept.keyed hk
    refine ⟨hmemory, ?_⟩
    simp only [AccountServer.written, Copies.next, Copies.written]
    split_ifs with hgood hset
    · exact (files_updateBalances _ _ h.memory hkept.keyed.2 hk _).onFile
        (hkept.keyed.exec _).2 hk
    · exact hmemory.onFile (heffect.wellKeyed hkept.keyed).2 hk
    · exact h.file
  | persisted =>
    cases hstep
    exact ⟨h.memory, h.memory.onFile hkept.keyed.2 hk⟩
  | restarted config blkDat mRoundReward =>
    simp only [AccountServer.step, Option.bind_eq_bind, Option.bind_eq_some_iff, Option.pure_def,
      Option.some.injEq, Prod.mk.injEq] at hstep
    obtain ⟨blockDb, hblocks, accountDb, haccounts, rfl, rfl⟩ := hstep
    obtain ⟨db, hread, hr⟩ := h.file
    obtain rfl : accountDb = db := Option.some.inj (haccounts.symm.trans hread)
    have hown : c.file.cKey = k := Database.ownKeys_of_readIntoMemory hread k _ hr
    exact ⟨⟨hr, hown⟩, ⟨accountDb, hread, hr⟩⟩

/-- In every run, over any number of restarts and whatever the block file is read as, from the
moment an account is in memory and in the file, both copies of its record are those that the
postings, the writes and the restarts since then leave. Where all amounts that are written fit, this
is without loss but for what was posted after the last write before a restart. -/
theorem account_recovery {past front : History AccountServer AccountIncident Output}
    {s₀ s : AccountServer} (hpast : Run AccountServer.step AccountServer.Loaded past s₀)
    (hfront : Run AccountServer.step (· = s₀) front s) {k : Bytes} (hk : k ≠ []) {c₀ : Copies}
    (h₀ : s₀.Holds k c₀) :
    s.Holds k (copies Account.reread k c₀ front) ∧
      (WritesFit k c₀ front → s.Holds k (copies id k c₀ front)) := by
  have hholds : s.Holds k (copies Account.reread k c₀ front) := by
    induction hfront with
    | start hs =>
      subst hs
      exact h₀
    | next hrun hstep ih =>
      exact ih.next (AccountServer.kept_of_run (hpast.append hrun)) hk hstep
  exact ⟨hholds, fun hfits => copies_reread hfits ▸ hholds⟩

end Copies

section LostRefund

attribute [local instance] Platform.plain

def persistedRun : Option (History AccountServer AccountIncident Output × AccountServer) :=
  trace AccountServer.step ⟨.fresh, []⟩ (secondRound.dropLast.map .event ++ [.persisted])

theorem persistedRun_isSome : persistedRun.isSome := by decide +kernel

theorem persistedRun_run : Run AccountServer.step AccountServer.Loaded
    (persistedRun.get persistedRun_isSome).1 (persistedRun.get persistedRun_isSome).2 :=
  Run.of_trace ⟨_, [], _, _, _, rfl, rfl, rfl⟩ (Option.some_get _).symm

theorem persistedRun_account :
    (persistedRun.get persistedRun_isSome).2.world.registry.account? [65] = some (.new [65]) ∧
      ((Database.readIntoMemory (persistedRun.get persistedRun_isSome).2.acctDat).bind
        fun db : Database Bytes Account => db.mapRecords[([65] : Bytes)]?) = some (.new [65]) := by
  decide +kernel

attribute [local irreducible] persistedRun

def restartedRun : Option (History AccountServer AccountIncident Output × AccountServer) :=
  trace AccountServer.step (persistedRun.get persistedRun_isSome).2
    [.event (.walletData (Packet.getPacket DaemonPacket.good).wire),
      .event (.walletData (Packet.withData DaemonPacket.orphanBlock (List.replicate 128 0)).wire),
      .restarted ⟨0, 0, false⟩ [] 0]

theorem restartedRun_isSome : restartedRun.isSome := by decide +kernel

theorem restartedRun_run : Run AccountServer.step (· = (persistedRun.get persistedRun_isSome).2)
    (restartedRun.get restartedRun_isSome).1 (restartedRun.get restartedRun_isSome).2 :=
  Run.of_trace (by rfl) (Option.some_get restartedRun_isSome).symm

theorem restartedRun_writesFit :
    WritesFit [65] ⟨.new [65], .new [65]⟩ (restartedRun.get restartedRun_isSome).1 := by
  decide +kernel

attribute [local irreducible] restartedRun

theorem account_recovery_restarted :
    (restartedRun.get restartedRun_isSome).2.Holds [65]
      (copies id [65] ⟨.new [65], .new [65]⟩ (restartedRun.get restartedRun_isSome).1) := by
  obtain ⟨hmemory, hfile⟩ := persistedRun_account
  have honFile : OnFile (persistedRun.get persistedRun_isSome).2.acctDat [65] (.new [65]) :=
    Option.bind_eq_some_iff.mp hfile
  have hk : ([65] : Bytes) ≠ [] := by decide
  exact (account_recovery persistedRun_run restartedRun_run hk
    ⟨⟨hmemory, rfl⟩, honFile⟩).2 restartedRun_writesFit

end LostRefund

end NexusPool
