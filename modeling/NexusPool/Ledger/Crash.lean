import NexusPool.Ledger.RefundFlag
import NexusPool.Library.Interrupt
import NexusPool.Library.Run

/-!
# Crashes between the two files

The block records and the accounts are written to two files, one after the other. A crash
may come between any two registry calls; what is read afterwards is what the files hold then.
The files agree if the accounts are those of a moment of the run, and the block records say of
every block whether it was paid out or refunded by that moment.
-/

namespace NexusPool

open Concurrent DataRegistry Reactive

namespace DataRegistry

def persistanceHandler : Handler Unit := do
  call .blockWrite
  call .accountWrite

namespace Call

def isAccountWrite : Call → Bool
  | accountWrite => true
  | _ => false

def isBlockWrite : Call → Bool
  | blockWrite => true
  | _ => false

def isBlockUpdate : Call → Bool
  | blockUpdate _ => true
  | _ => false

end Call

/-- Since the last write of the accounts, no block record was written that had just been
stored. The newest call comes first. -/
def settled : List Call → Bool
  | [] => true
  | c :: calls =>
    c.isAccountWrite || (!(c.isBlockWrite && calls.head?.any Call.isBlockUpdate) && settled calls)

end DataRegistry

/-- The registry and its two files, with the calls since the process was started. -/
structure Ledger where
  registry : DataRegistry
  blkDat : List Bytes
  acctDat : List Bytes
  calls : List Call

/-- What is done with the ledger. Between two payouts other handlers set the coinbase and the
round, so they come with the payout. -/
inductive Operation
  | updateBalances (cCoinbase : Coinbase) (nRound : UInt32) (reward : UInt64)
      (hashSubmitBlock : Uint1024) (lastBlockfinder : Bytes)
  | clearShares
  | refundPayouts (hashBlock : Uint1024)
  | persistance
  | acceptShare (nxsAddress : Bytes) (weight : UInt64)
  | openAccount (nxsAddress : Bytes)

def Operation.program : Operation → Handler Unit
  | .updateBalances _ _ reward hashSubmitBlock lastBlockfinder =>
    PayoutManager.updateBalances reward hashSubmitBlock lastBlockfinder
  | .clearShares => PayoutManager.clearShares
  | .refundPayouts hashBlock => PayoutManager.refundPayouts hashBlock
  | .persistance => persistanceHandler
  | .acceptShare nxsAddress weight => PoolConnection.acceptShare nxsAddress weight
  | .openAccount nxsAddress => PoolConnection.openAccount nxsAddress

def Operation.prepare : Operation → DataRegistry → DataRegistry
  | .updateBalances cCoinbase nRound _ _ _, s =>
    { s with mCoinbase := cCoinbase, mCurrentRound := nRound }
  | _, s => s

namespace Ledger

variable [Target]

/-- Each file is written as a whole. -/
def handle (c : Call) (l : Ledger) : Call.Res c × Ledger :=
  ((Call.handle c l.registry).1,
    { registry := (Call.handle c l.registry).2
      blkDat := if c.isBlockWrite then l.registry.mBlockDb.writeToDisk else l.blkDat
      acctDat := if c.isAccountWrite then l.registry.mAccountDb.writeToDisk else l.acctDat
      calls := c :: l.calls })

omit [Target] in
def prepare (l : Ledger) (op : Operation) : Ledger := { l with registry := op.prepare l.registry }

def perform (l : Ledger) (op : Operation) : Ledger :=
  (Program.run handle op.program (l.prepare op)).2

/-- The operation is cut off by a crash after `n` calls. -/
def interrupted (l : Ledger) (op : Operation) (n : ℕ) : Ledger :=
  Program.after handle n op.program (l.prepare op)

def step (l : Ledger) (op : Operation) : Option (Ledger × List Empty) := some (l.perform op, [])

def Loaded (l : Ledger) : Prop :=
  (∃ config blockDb accountDb, Database.readIntoMemory l.blkDat = some blockDb ∧
    Database.readIntoMemory l.acctDat = some accountDb ∧
      l.registry = DataRegistry.init config blockDb accountDb) ∧ l.calls = []

end Ledger

/-! ### What the files should say -/

/-- Whether the credits and payouts of a block are in the balances, or were reversed. -/
inductive Status
  | unpaid
  | paid
  | refunded
  deriving DecidableEq

namespace Status

/-- What a block record says when the process starts. -/
def ofRecords (blockDb : Database Uint1024 Block) (hash : Uint1024) : Status :=
  if blockDb.coinbaseValue hash ≠ 0 then .paid
  else if blockDb.hasKey hash then .refunded
  else .unpaid

def next (hash : Uint1024) : Operation → Status → Status
  | .updateBalances _ _ _ hashSubmitBlock _, s => if hashSubmitBlock = hash then .paid else s
  | .refundPayouts hashBlock, s => if hashBlock = hash ∧ s = .paid then .refunded else s
  | _, s => s

end Status

abbrev LedgerHistory := History Ledger Operation Empty

def status (l₀ : Ledger) (hash : Uint1024) : LedgerHistory → Status
  | [] => .ofRecords l₀.registry.mBlockDb hash
  | o :: past => (status l₀ hash past).next hash o.event

/-- The ledger that a history ends in. -/
def Ledger.latest (l₀ : Ledger) : LedgerHistory → Ledger
  | [] => l₀
  | o :: _ => o.after

/-- A block is there with a coinbase value exactly if it is paid, and without one exactly if it
is refunded. -/
structure Agrees (status : Uint1024 → Status) (blockDb : Database Uint1024 Block) : Prop where
  paid : ∀ hash, status hash = .paid ↔ blockDb.coinbaseValue hash ≠ 0
  refunded : ∀ hash, status hash = .refunded ↔
    status hash ≠ .unpaid ∧ blockDb.hasKey hash ∧ blockDb.coinbaseValue hash = 0

/-- What is read after a crash: the balances of a moment of the run, and of every block what
became of it by then. -/
def CrashConsistent [Target] (l₀ : Ledger) (history : LedgerHistory) (l : Ledger) : Prop :=
  ∃ past blockDb accountDb, past <:+ history ∧ Database.readIntoMemory l.blkDat = some blockDb ∧
    Database.readIntoMemory l.acctDat = some accountDb ∧
      (∀ k, accountDb.view Account.nAccountBalance k =
        (l₀.latest past).registry.mAccountDb.view Account.nAccountBalance k) ∧
        Agrees (fun hash => status l₀ hash past) blockDb

/-! ### When they do -/

/-- A payout finds a coinbase with a value, and what an operation writes can be read back. -/
def Meets [Target] (o : Occurrence Ledger Operation Empty) : Prop :=
  match o.event with
  | .updateBalances cCoinbase _ _ _ _ =>
    cCoinbase.nMaxValue + cCoinbase.nPoolFee ≠ 0 ∧
      o.after.registry.mBlockDb.Durable Block.nCoinbaseValue ∧
        o.after.registry.mAccountDb.Durable Account.nAccountBalance
  | .refundPayouts _ => o.after.registry.mBlockDb.Durable Block.nCoinbaseValue
  | .persistance =>
    o.after.registry.mBlockDb.Durable Block.nCoinbaseValue ∧
      o.after.registry.mAccountDb.Durable Account.nAccountBalance
  | _ => True

instance [Target] : (o : Occurrence Ledger Operation Empty) → Decidable (Meets o)
  | ⟨_, .updateBalances .., _, _⟩ => inferInstanceAs (Decidable (_ ∧ _ ∧ _))
  | ⟨_, .refundPayouts _, o, _⟩ =>
    inferInstanceAs (Decidable (o.registry.mBlockDb.Durable Block.nCoinbaseValue))
  | ⟨_, .persistance, o, _⟩ =>
    inferInstanceAs (Decidable (o.registry.mBlockDb.Durable Block.nCoinbaseValue ∧
      o.registry.mAccountDb.Durable Account.nAccountBalance))
  | ⟨_, .clearShares, _, _⟩ | ⟨_, .acceptShare .., _, _⟩ | ⟨_, .openAccount _, _, _⟩ =>
    .isTrue trivial

/-! ### Calls that write nothing -/

/-- Nothing has been written in between. -/
structure Quiet (l l' : Ledger) : Prop where
  blkDat : l'.blkDat = l.blkDat
  acctDat : l'.acctDat = l.acctDat
  settled : settled l'.calls = settled l.calls
  writes : l'.calls.countP Call.isBlockWrite = l.calls.countP Call.isBlockWrite

theorem Quiet.composes : Program.Composes Quiet where
  refl _ := ⟨rfl, rfl, rfl, rfl⟩
  trans h h' := ⟨h'.blkDat.trans h.blkDat, h'.acctDat.trans h.acctDat, h'.settled.trans h.settled,
    h'.writes.trans h.writes⟩

section Programs

variable [Target]

/-- The registry does not see its files. -/
theorem Ledger.run_handle {α : Type} (p : Handler α) (l : Ledger) :
    (Program.run Ledger.handle p l).1 = (exec p l.registry).1 ∧
      (Program.run Ledger.handle p l).2.registry = (exec p l.registry).2 := by
  induction p generalizing l with
  | done a => exact ⟨rfl, rfl⟩
  | call c next ih => exact ih _ (Ledger.handle c l).2

theorem Quiet.of_call {c : Call} (hblocks : c.isBlockWrite = false)
    (haccounts : c.isAccountWrite = false)
    (l : Ledger) : Quiet l (Ledger.handle c l).2 where
  blkDat := by simp [Ledger.handle, hblocks]
  acctDat := by simp [Ledger.handle, haccounts]
  settled := by simp [Ledger.handle, DataRegistry.settled, hblocks, haccounts]
  writes := by simp [Ledger.handle, hblocks]

theorem Quiet.keeps_call {c : Call} (hblocks : c.isBlockWrite = false)
    (haccounts : c.isAccountWrite = false) :
    Program.Keeps Ledger.handle Quiet (call c) :=
  .perform Quiet.composes (Quiet.of_call hblocks haccounts)

theorem Quiet.keeps_modifyAccount (cKey : Bytes) (change : Account → Account) :
    Program.Keeps Ledger.handle Quiet (modifyAccount cKey change) := by
  apply Program.Keeps.bind Quiet.composes
  · exact Quiet.keeps_call rfl rfl
  · exact fun _ => Quiet.keeps_call rfl rfl

open Program (Keeps)
open PayoutManager

theorem Quiet.keeps_totalWeight : Keeps Ledger.handle Quiet totalWeight := by
  apply Keeps.bind Quiet.composes
  · exact Quiet.keeps_call rfl rfl
  · intro vKeys
    apply Keeps.foldlM Quiet.composes
    intro weight key
    apply Keeps.bind Quiet.composes
    · exact Quiet.keeps_call rfl rfl
    · exact fun _ => .pure Quiet.composes _

theorem Quiet.keeps_clearShares : Keeps Ledger.handle Quiet clearShares := by
  apply Keeps.bind Quiet.composes
  · exact Quiet.keeps_call rfl rfl
  · exact fun vKeys => .forM Quiet.composes (fun key => Quiet.keeps_modifyAccount key _) vKeys

theorem Quiet.keeps_payFinder (reward : UInt64) (lastBlockfinder : Bytes) :
    Keeps Ledger.handle Quiet (payFinder reward lastBlockfinder) := by
  unfold payFinder
  apply Keeps.ite
  · apply Keeps.bind Quiet.composes
    · exact Quiet.keeps_modifyAccount _ _
    · exact fun _ => .pure Quiet.composes _
  · exact .pure Quiet.composes _

theorem Quiet.keeps_payRemainder (lastBlockfinder : Bytes) (reward nTotalReward : UInt64) :
    Keeps Ledger.handle Quiet (payRemainder lastBlockfinder reward nTotalReward) := by
  unfold payRemainder
  apply Keeps.ite
  · exact Quiet.keeps_modifyAccount _ _
  · exact .pure Quiet.composes _

theorem Quiet.keeps_payAccount (nTotalWeight reward : UInt64) (sums : Credits × UInt64)
    (key : Bytes) :
    Keeps Ledger.handle Quiet (payAccount nTotalWeight reward sums key) := by
  have hrest : ∀ cAccount : Account, Keeps Ledger.handle Quiet
      (if cAccount.nRoundShares = 0 then pure sums else do
        let nCredit := shareCredit nTotalWeight reward cAccount.nRoundShares
        call (.accountUpdate (cAccount.credit nCredit))
        return (sums.1.addCredit key nCredit, sums.2 + nCredit)) := by
    intro cAccount
    apply Keeps.ite
    · exact .pure Quiet.composes _
    · apply Keeps.bind Quiet.composes
      · exact Quiet.keeps_call rfl rfl
      · exact fun _ => .pure Quiet.composes _
  unfold payAccount
  apply Keeps.bind Quiet.composes
  · exact Quiet.keeps_call rfl rfl
  · intro cAccount
    apply Keeps.bind Quiet.composes
    · exact Quiet.keeps_call rfl rfl
    · intro found
      apply Keeps.ite
      · apply Keeps.bind Quiet.composes
        · exact Quiet.keeps_call rfl rfl
        · intro mapOutput
          apply Keeps.bind Quiet.composes
          · exact Quiet.keeps_call rfl rfl
          · exact fun _ => hrest _
      · exact hrest _

/-- A payout up to its commit. -/
def settleRound (reward : UInt64) (hashSubmitBlock : Uint1024) (lastBlockfinder : Bytes) :
    Handler Block := do
  let cCoinbase ← call .coinbase
  let nRound ← call .currentRound
  let poolFee ← call .poolFee
  let (cCredits, reward) ← payFinder (reward - reward * poolFee.toUInt64) lastBlockfinder
  let nTotalWeight ← totalWeight
  let vKeys ← call .accountKeys
  let (cCredits, nTotalReward) ← vKeys.foldlM (payAccount nTotalWeight reward) (cCredits, 0)
  payRemainder lastBlockfinder reward nTotalReward
  return {
    cKey := hashSubmitBlock
    nCoinbaseValue := cCoinbase.nMaxValue + cCoinbase.nPoolFee
    cCoinbase := cCoinbase
    cCredits := cCredits
    nRound := nRound }

omit [Target] in
theorem updateBalances_eq (reward : UInt64) (hashSubmitBlock : Uint1024) (lastBlockfinder : Bytes) :
    updateBalances reward hashSubmitBlock lastBlockfinder = (do
      let cBlock ← settleRound reward hashSubmitBlock lastBlockfinder
      commitBlock cBlock
      call .accountWrite) := by
  simp only [updateBalances, settleRound, bind_assoc, pure_bind]

theorem Quiet.keeps_settleRound (reward : UInt64) (hashSubmitBlock : Uint1024)
    (lastBlockfinder : Bytes) :
    Keeps Ledger.handle Quiet (settleRound reward hashSubmitBlock lastBlockfinder) := by
  unfold settleRound
  apply Keeps.bind Quiet.composes (Quiet.keeps_call rfl rfl)
  intro cCoinbase
  apply Keeps.bind Quiet.composes (Quiet.keeps_call rfl rfl)
  intro nRound
  apply Keeps.bind Quiet.composes (Quiet.keeps_call rfl rfl)
  intro poolFee
  apply Keeps.bind Quiet.composes (Quiet.keeps_payFinder _ _)
  intro finder
  apply Keeps.bind Quiet.composes Quiet.keeps_totalWeight
  intro nTotalWeight
  apply Keeps.bind Quiet.composes (Quiet.keeps_call rfl rfl)
  intro vKeys
  apply Keeps.bind Quiet.composes
  · exact .foldlM Quiet.composes (Quiet.keeps_payAccount _ _) _ _
  · intro paid
    apply Keeps.bind Quiet.composes (Quiet.keeps_payRemainder _ _ _)
    exact fun _ => .pure Quiet.composes _

theorem Quiet.keeps_openAccount (nxsAddress : Bytes) :
    Keeps Ledger.handle Quiet (PoolConnection.openAccount nxsAddress) := by
  unfold PoolConnection.openAccount
  apply Keeps.bind Quiet.composes (Quiet.keeps_call rfl rfl)
  intro found
  apply Keeps.ite
  · exact .pure Quiet.composes _
  · exact Quiet.keeps_call rfl rfl

/-! ### Where an operation can be cut off -/

/-- The files are as they were, or the block records are ahead of the accounts, or both have been
written. The timer writes block records that have not changed. -/
inductive CutOff (l : Ledger) (op : Operation) (l' : Ledger) : Prop
  | untouched (quiet : Quiet l l')
  | torn (unsettled : settled l'.calls = false)
  | half (timer : op = .persistance) (blkDat : l'.blkDat = l.registry.mBlockDb.writeToDisk)
      (acctDat : l'.acctDat = l.acctDat) (settled : settled l'.calls → settled l.calls)
      (written : l.calls.countP Call.isBlockWrite < l'.calls.countP Call.isBlockWrite)
  | finished (blkDat : l'.blkDat = (l.perform op).blkDat)
      (acctDat : l'.acctDat = (l.perform op).acctDat)
      (settled : settled (l.perform op).calls)
      (written : l.calls.countP Call.isBlockWrite < l'.calls.countP Call.isBlockWrite)

def Ledger.committed (l : Ledger) (cBlock : Block) : Ledger :=
  (Program.run Ledger.handle (commitBlock cBlock) l).2

theorem Ledger.writes_committed (l : Ledger) (cBlock : Block) :
    (l.committed cBlock).calls.countP Call.isBlockWrite = l.calls.countP Call.isBlockWrite + 1 := by
  change List.countP Call.isBlockWrite (.blockWrite :: .blockUpdate cBlock :: l.calls) = _
  rw [List.countP_cons_of_pos rfl, List.countP_cons_of_neg Bool.false_ne_true]

omit [Target] in
theorem Quiet.prepare (l : Ledger) (op : Operation) : Quiet l (l.prepare op) := ⟨rfl, rfl, rfl, rfl⟩

section Payout

variable (l : Ledger) (cCoinbase : Coinbase) (nRound : UInt32) (reward : UInt64)
  (hashSubmitBlock : Uint1024) (lastBlockfinder : Bytes)

/-- A payout is quiet up to its commit, and then the accounts are written. -/
theorem perform_updateBalances : ∃ (l₁ : Ledger) (cBlock : Block), Quiet l l₁ ∧
    l.perform (.updateBalances cCoinbase nRound reward hashSubmitBlock lastBlockfinder) =
      (Ledger.handle .accountWrite (l₁.committed cBlock)).2 ∧
    Program.Always Ledger.handle
      (CutOff l (.updateBalances cCoinbase nRound reward hashSubmitBlock lastBlockfinder))
      (updateBalances reward hashSubmitBlock lastBlockfinder)
      (l.prepare (.updateBalances cCoinbase nRound reward hashSubmitBlock lastBlockfinder)) := by
  set op : Operation :=
    .updateBalances cCoinbase nRound reward hashSubmitBlock lastBlockfinder with hop
  have hkeeps := Quiet.keeps_settleRound reward hashSubmitBlock lastBlockfinder (l.prepare op)
  set settling := Program.run Ledger.handle (settleRound reward hashSubmitBlock lastBlockfinder)
    (l.prepare op) with hsettling
  have hquiet : Quiet l settling.2 := Quiet.composes.trans (.prepare l op) hkeeps.run
  have hperform : l.perform op =
      (Ledger.handle .accountWrite (settling.2.committed settling.1)).2 := by
    rw [Ledger.perform, hop, Operation.program, updateBalances_eq, Program.run_bind]
    rfl
  refine ⟨settling.2, settling.1, hquiet, hperform, ?_⟩
  rw [updateBalances_eq]
  apply Program.Always.bind
  · exact hkeeps.mono fun l' h => .untouched (Quiet.composes.trans (.prepare l op) h)
  · rw [← hsettling]
    have hstored : Quiet l (Ledger.handle (.blockUpdate settling.1) settling.2).2 :=
      Quiet.composes.trans hquiet (.of_call rfl rfl _)
    have hwritten : CutOff l op (Ledger.handle .accountWrite
        (settling.2.committed settling.1)).2 := by
      apply CutOff.finished
      · rw [hperform]
      · rw [hperform]
      · rw [hperform]
        rfl
      · change _ < (settling.2.committed settling.1).calls.countP Call.isBlockWrite
        rw [Ledger.writes_committed, hquiet.writes]
        exact Nat.lt_succ_self _
    exact .call (.untouched hquiet)
      (.call (.untouched hstored) (.call (.torn rfl) (.done hwritten)))

end Payout

section Refund

variable {l : Ledger} {hashBlock : Uint1024}

/-- A refund between its test and its commit. -/
def reverseRound (cBlock : Block) : Handler Unit := do
  cBlock.cCredits.mapCredits.toList.forM fun e => modifyAccount e.1 (·.debit e.2)
  cBlock.cCoinbase.mapOutputs.toList.forM fun e => modifyAccount e.1 (·.credit e.2)

theorem Quiet.keeps_reverseRound (cBlock : Block) :
    Keeps Ledger.handle Quiet (reverseRound cBlock) := by
  apply Keeps.bind Quiet.composes
  · exact .forM Quiet.composes (fun e : Bytes × UInt64 => Quiet.keeps_modifyAccount e.1 _) _
  · exact fun _ => .forM Quiet.composes (fun e : Bytes × UInt64 =>
      Quiet.keeps_modifyAccount e.1 _) _

omit [Target] in
theorem refundPayouts_eq (hashBlock : Uint1024) : refundPayouts hashBlock = (do
    let cBlock ← call (.blockGet hashBlock)
    if cBlock.nCoinbaseValue = 0 then pure ()
    else
      reverseRound cBlock
      commitBlock { cBlock with nCoinbaseValue := 0 }) := by
  simp only [refundPayouts, reverseRound, bind_assoc]

/-- A refund that is skipped writes nothing. -/
theorem always_refundPayouts_of_zero (h : l.registry.mBlockDb.coinbaseValue hashBlock = 0) :
    Program.Always Ledger.handle (Quiet l) (refundPayouts hashBlock) l := by
  have hread := Quiet.keeps_call (c := .blockGet hashBlock) rfl rfl l
  rw [refundPayouts_eq]
  apply Program.Always.bind hread
  change Program.Always Ledger.handle (Quiet l) (if l.registry.mBlockDb.coinbaseValue hashBlock = 0
    then pure () else _) _
  rw [if_pos h]
  exact .done hread.run

/-- Another one is quiet up to its commit, which is its end. -/
theorem perform_refundPayouts (h : l.registry.mBlockDb.coinbaseValue hashBlock ≠ 0) :
    ∃ (l₁ : Ledger) (cBlock : Block), Quiet l l₁ ∧
      l.perform (.refundPayouts hashBlock) = l₁.committed cBlock ∧
      Program.Always Ledger.handle (CutOff l (.refundPayouts hashBlock))
        (refundPayouts hashBlock) l := by
  have hread := Quiet.keeps_call (c := .blockGet hashBlock) rfl rfl l
  set cBlock : Block := (l.registry.mBlockDb.getRecord hashBlock).1
  set l₁ := (Ledger.handle (.blockGet hashBlock) l).2
  have hreverse := Quiet.keeps_reverseRound cBlock l₁
  set l₂ := (Program.run Ledger.handle (reverseRound cBlock) l₁).2 with hl₂
  have hquiet : Quiet l l₂ := Quiet.composes.trans hread.run hreverse.run
  have hvalue : ¬ cBlock.nCoinbaseValue = 0 := h
  refine ⟨l₂, { cBlock with nCoinbaseValue := 0 }, hquiet, ?_, ?_⟩
  · rw [Ledger.perform, Operation.program, refundPayouts_eq, Program.run_bind]
    change (Program.run Ledger.handle (if cBlock.nCoinbaseValue = 0 then pure () else
      reverseRound cBlock >>= fun _ => commitBlock { cBlock with nCoinbaseValue := 0 }) l₁).2 = _
    rw [if_neg hvalue, Program.run_bind]
    rfl
  · rw [refundPayouts_eq]
    have hstart : Program.Always Ledger.handle (CutOff l (.refundPayouts hashBlock))
        (call (.blockGet hashBlock)) l := hread.mono fun _ => .untouched
    apply Program.Always.bind hstart
    change Program.Always Ledger.handle _ (if cBlock.nCoinbaseValue = 0 then pure () else _) l₁
    rw [if_neg hvalue]
    apply Program.Always.bind
    · exact hreverse.mono fun _ h => .untouched (Quiet.composes.trans hread.run h)
    · have hstored : Quiet l
          (Ledger.handle (.blockUpdate { cBlock with nCoinbaseValue := 0 }) l₂).2 :=
        Quiet.composes.trans hquiet (.of_call rfl rfl _)
      exact .call (.untouched hquiet) (.call (.untouched hstored) (.done (.torn rfl)))

end Refund

theorem always_cutOff (l : Ledger) (op : Operation) :
    Program.Always Ledger.handle (CutOff l op) op.program (l.prepare op) := by
  cases op with
  | updateBalances cCoinbase nRound reward hashSubmitBlock lastBlockfinder =>
    obtain ⟨_, _, -, -, halways⟩ :=
      perform_updateBalances l cCoinbase nRound reward hashSubmitBlock lastBlockfinder
    exact halways
  | clearShares => exact (Quiet.keeps_clearShares l).mono fun _ => .untouched
  | refundPayouts hashBlock =>
    by_cases hvalue : l.registry.mBlockDb.coinbaseValue hashBlock = 0
    · exact (always_refundPayouts_of_zero hvalue).mono fun _ => .untouched
    · obtain ⟨_, _, -, -, halways⟩ := perform_refundPayouts hvalue
      exact halways
  | persistance =>
    have hcount : l.calls.countP Call.isBlockWrite <
        List.countP Call.isBlockWrite (.blockWrite :: l.calls) := by
      rw [List.countP_cons_of_pos rfl]
      exact Nat.lt_succ_self _
    have hsettled : settled (.blockWrite :: l.calls) → settled l.calls := by
      rw [settled]
      exact fun h => (Bool.and_eq_true_iff.mp h).2
    exact .call (.untouched (Quiet.composes.refl l))
      (.call (.half rfl rfl rfl hsettled hcount) (.done (.finished rfl rfl rfl hcount)))
  | acceptShare nxsAddress weight =>
    exact (Quiet.keeps_modifyAccount nxsAddress _ l).mono fun _ => .untouched
  | openAccount nxsAddress => exact (Quiet.keeps_openAccount nxsAddress l).mono fun _ => .untouched

/-! ### What the registry holds -/

/-- Every record is where it belongs, in both databases. -/
def DataRegistry.WellKeyed (s : DataRegistry) : Prop :=
  s.mBlockDb.WellKeyed ∧ s.mAccountDb.WellKeyed

omit [Target] in
theorem DataRegistry.WellKeyed.exec {α : Type} {s : DataRegistry} (h : s.WellKeyed)
    (p : Handler α) :
    (DataRegistry.exec p s).2.WellKeyed := by
  have hcomposes : Program.Composes fun s s' : DataRegistry => s.WellKeyed → s'.WellKeyed :=
    ⟨fun _ h => h, fun h h' hs => h' (h hs)⟩
  refine Program.Ensures.of_calls hcomposes (fun c s hs => ?_) p s h
  cases c with
  | accountGet cKey => exact ⟨hs.1, hs.2.getRecord cKey⟩
  | accountUpdate cRecord => exact ⟨hs.1, hs.2.updateRecord cRecord⟩
  | blockGet cKey => exact ⟨hs.1.getRecord cKey, hs.2⟩
  | blockUpdate cRecord => exact ⟨hs.1.updateRecord cRecord, hs.2⟩
  | _ => exact hs

theorem Ledger.registry_perform (l : Ledger) (op : Operation) :
    (l.perform op).registry = (exec op.program (op.prepare l.registry)).2 :=
  (Ledger.run_handle op.program (l.prepare op)).2

/-- The operations that leave the block records alone. -/
def Operation.isPlain : Operation → Bool
  | .updateBalances .. | .refundPayouts _ => false
  | _ => true

theorem Ledger.blocks_perform {l : Ledger} {op : Operation} (h : op.isPlain) :
    (l.perform op).registry.mBlockDb = l.registry.mBlockDb := by
  rw [Ledger.registry_perform]
  cases op with
  | updateBalances => cases h
  | refundPayouts => cases h
  | clearShares => exact (onlyAccounts_clearShares l.registry).mBlockDb
  | persistance => rfl
  | acceptShare nxsAddress weight => rfl
  | openAccount nxsAddress =>
    exact (PoolConnection.onlyAccounts_openAccount nxsAddress l.registry).mBlockDb

/-- The block records in memory say what became of each block. -/
structure Marks (status : Uint1024 → Status) (blockDb : Database Uint1024 Block) : Prop where
  paid : ∀ hash, status hash = .paid ↔ blockDb.coinbaseValue hash ≠ 0
  refunded : ∀ hash, status hash = .refunded →
    ∃ b : Block, blockDb.mapRecords[hash]? = some b ∧ b.cKey = hash

namespace Marks

variable {status : Uint1024 → Status} {blockDb : Database Uint1024 Block}

omit [Target] in
theorem ofRecords (h : blockDb.OwnKeys) : Marks (Status.ofRecords blockDb) blockDb := by
  constructor
  · intro hash
    unfold Status.ofRecords
    split_ifs <;> simp_all
  · intro hash hrefunded
    unfold Status.ofRecords at hrefunded
    split_ifs at hrefunded with hvalue hfound
    obtain ⟨b, hb⟩ := Database.hasKey_iff.mp hfound
    exact ⟨b, hb, h hash b hb⟩

omit [Target] in
/-- Storing a record gives its block the status that its value says. -/
theorem updateRecord (h : Marks status blockDb) (r : Block) {s : Status}
    (hs : s = .paid ↔ r.nCoinbaseValue ≠ 0) :
    Marks (fun hash => if r.cKey = hash then s else status hash) (blockDb.updateRecord r) := by
  constructor
  · intro hash
    rw [Database.coinbaseValue_updateRecord]
    by_cases hkey : r.cKey = hash
    · subst hkey
      rw [if_pos rfl, Function.update_self]
      exact hs
    · rw [if_neg hkey, Function.update_of_ne (Ne.symm hkey)]
      exact h.paid hash
  · intro hash hrefunded
    have hfind := Database.find_updateRecord blockDb r hash
    by_cases hkey : r.cKey = hash
    · exact ⟨r, hfind.trans (if_pos hkey), hkey⟩
    · rw [if_neg hkey] at hrefunded
      obtain ⟨b, hb, hown⟩ := h.refunded hash hrefunded
      exact ⟨b, hfind.trans ((if_neg hkey).trans hb), hown⟩

omit [Target] in
theorem getRecord (h : Marks status blockDb) (cKey : Uint1024) :
    Marks status (blockDb.getRecord cKey).2 := by
  constructor
  · intro hash
    rw [Database.coinbaseValue_getRecord]
    exact h.paid hash
  · intro hash hrefunded
    obtain ⟨b, hb, hown⟩ := h.refunded hash hrefunded
    refine ⟨b, ?_, hown⟩
    rw [Database.find_getRecord]
    split_ifs with hkey
    · subst hkey
      rw [Database.getRecord_of_some hb]
    · exact hb

end Marks

structure InMemory (l₀ : Ledger) (history : LedgerHistory) (l : Ledger) : Prop where
  keyed : l.registry.WellKeyed
  marks : Marks (fun hash => status l₀ hash history) l.registry.mBlockDb

theorem InMemory.start {l : Ledger} (h : l.Loaded) : InMemory l [] l := by
  obtain ⟨⟨config, blockDb, accountDb, hblocks, haccounts, hregistry⟩, -⟩ := h
  have hown := Database.ownKeys_of_readIntoMemory hblocks
  constructor
  · rw [hregistry]
    exact ⟨hown.wellKeyed, (Database.ownKeys_of_readIntoMemory haccounts).wellKeyed⟩
  · have hdb : l.registry.mBlockDb = blockDb := by
      rw [hregistry]
      rfl
    apply Marks.ofRecords
    rw [hdb]
    exact hown

section Steps

variable {l₀ l : Ledger} {history : LedgerHistory}

omit [Target] in
theorem status_plain {op : Operation} (h : op.isPlain) (l₀ l l' : Ledger)
    (history : LedgerHistory) :
    (fun hash => status l₀ hash (⟨l, op, l', []⟩ :: history)) = fun hash =>
      status l₀ hash history := by
  cases op with
  | updateBalances => cases h
  | refundPayouts => cases h
  | _ => rfl

omit [Target] in
/-- A refund that is skipped is none. -/
theorem InMemory.status_of_zero (h : InMemory l₀ history l) {hashBlock : Uint1024}
    (hvalue : l.registry.mBlockDb.coinbaseValue hashBlock = 0) (l' : Ledger) :
    (fun hash => status l₀ hash (⟨l, .refundPayouts hashBlock, l', []⟩ :: history)) =
      fun hash => status l₀ hash history := by
  funext hash
  refine if_neg ?_
  rintro ⟨rfl, hpaid⟩
  exact (h.marks.paid hashBlock).mp hpaid hvalue

omit [Target] in
/-- Only a record under its own key has a coinbase value. -/
theorem InMemory.find_of_ne (h : InMemory l₀ history l) {hashBlock : Uint1024}
    (hvalue : l.registry.mBlockDb.coinbaseValue hashBlock ≠ 0) :
    ∃ b : Block, l.registry.mBlockDb.mapRecords[hashBlock]? = some b ∧ b.nCoinbaseValue ≠ 0 ∧
      b.cKey = hashBlock := by
  cases hb : l.registry.mBlockDb.mapRecords[hashBlock]? with
  | none => exact absurd (Database.coinbaseValue_of_none hb) hvalue
  | some b =>
    rw [Database.coinbaseValue_of_some hb] at hvalue
    rcases h.keyed.1 hashBlock b hb with hown | rfl
    · exact ⟨b, rfl, hvalue, hown⟩
    · exact absurd rfl hvalue

theorem InMemory.next (h : InMemory l₀ history l) (op : Operation)
    (hmeets : Meets ⟨l, op, l.perform op, []⟩) :
    InMemory l₀ (⟨l, op, l.perform op, []⟩ :: history) (l.perform op) := by
  constructor
  · rw [Ledger.registry_perform]
    apply DataRegistry.WellKeyed.exec
    cases op <;> exact h.keyed
  by_cases hplain : op.isPlain
  · rw [Ledger.blocks_perform hplain, status_plain hplain]
    exact h.marks
  · rw [Ledger.registry_perform]
    cases op with
    | updateBalances cCoinbase nRound reward hashSubmitBlock lastBlockfinder =>
      obtain ⟨db, hexec⟩ := exists_exec_updateBalances reward hashSubmitBlock lastBlockfinder
        { l.registry with mCoinbase := cCoinbase, mCurrentRound := nRound }
      change Marks _ (exec (updateBalances reward hashSubmitBlock lastBlockfinder)
        { l.registry with mCoinbase := cCoinbase, mCurrentRound := nRound }).2.mBlockDb
      rw [hexec]
      exact h.marks.updateRecord (paidBlock _ hashSubmitBlock _) (iff_of_true rfl hmeets.1)
    | refundPayouts hashBlock =>
      change Marks _ (exec (refundPayouts hashBlock) l.registry).2.mBlockDb
      by_cases hvalue : l.registry.mBlockDb.coinbaseValue hashBlock = 0
      · rw [h.status_of_zero hvalue, exec_refundPayouts_of_zero hvalue]
        exact h.marks.getRecord hashBlock
      · obtain ⟨b, hb, hb₀, rfl⟩ := h.find_of_ne hvalue
        have hpaid : status l₀ b.cKey history = .paid := (h.marks.paid b.cKey).mpr hvalue
        have hstatus : (fun hash => status l₀ hash (⟨l, .refundPayouts b.cKey,
            l.perform (.refundPayouts b.cKey), []⟩ :: history)) =
            fun hash => if b.cKey = hash then .refunded else status l₀ hash history := by
          funext hash
          by_cases hkey : b.cKey = hash
          · subst hkey
            rw [if_pos rfl]
            exact if_pos ⟨rfl, hpaid⟩
          · rw [if_neg hkey]
            exact if_neg fun h => hkey h.1
        rw [hstatus, exec_refundPayouts hb hb₀]
        exact h.marks.updateRecord { b with nCoinbaseValue := 0 } (by simp)
    | _ => exact absurd rfl hplain

/-! ### What the files hold -/

omit [Target] in
theorem Marks.agrees {status : Uint1024 → Status} {blockDb blockDb' : Database Uint1024 Block}
    (h : Marks status blockDb)
    (hvalues : ∀ hash, blockDb'.coinbaseValue hash = blockDb.coinbaseValue hash)
    (hkept : ∀ (hash : Uint1024) (b : Block), blockDb.mapRecords[hash]? = some b → b.cKey = hash →
      blockDb'.hasKey hash) : Agrees status blockDb' := by
  have hpaid : ∀ hash, status hash = .paid ↔ blockDb'.coinbaseValue hash ≠ 0 := by
    intro hash
    rw [hvalues]
    exact h.paid hash
  refine ⟨hpaid, fun hash => ⟨fun hrefunded => ?_, ?_⟩⟩
  · obtain ⟨b, hb, hown⟩ := h.refunded hash hrefunded
    have hzero : blockDb'.coinbaseValue hash = 0 := by
      by_contra hvalue
      rw [(hpaid hash).mpr hvalue] at hrefunded
      cases hrefunded
    exact ⟨by simp [hrefunded], hkept hash b hb hown, hzero⟩
  · rintro ⟨hknown, -, hzero⟩
    cases hstatus : status hash with
    | unpaid => exact absurd hstatus hknown
    | paid => exact absurd hzero ((hpaid hash).mp hstatus)
    | refunded => rfl

/-- The block records in the file, and the balances in the other one with the moment that they
are from. If all is settled, no block has another status since. -/
structure OnDisk (l₀ : Ledger) (history : LedgerHistory) (l : Ledger) : Prop where
  blkDat : ∃ blockDb, Database.readIntoMemory l.blkDat = some blockDb ∧
    Agrees (fun hash => status l₀ hash history) blockDb
  acctDat : ∃ past accountDb, past <:+ history ∧
    Database.readIntoMemory l.acctDat = some accountDb ∧
    (∀ k, accountDb.view Account.nAccountBalance k =
      (l₀.latest past).registry.mAccountDb.view Account.nAccountBalance k) ∧
    (settled l.calls → (fun hash => status l₀ hash past) = fun hash => status l₀ hash history)

theorem OnDisk.start (h : l.Loaded) : OnDisk l [] l := by
  have hmarks := (InMemory.start h).marks
  obtain ⟨⟨config, blockDb, accountDb, hblocks, haccounts, hregistry⟩, -⟩ := h
  constructor
  · have hdb : l.registry.mBlockDb = blockDb := by
      rw [hregistry]
      rfl
    rw [hdb] at hmarks
    exact ⟨blockDb, hblocks,
      hmarks.agrees (fun _ => rfl) fun _ b hb _ => Database.hasKey_iff.mpr ⟨b, hb⟩⟩
  · refine ⟨[], accountDb, List.suffix_rfl, haccounts, fun k => ?_, fun _ => rfl⟩
    rw [Ledger.latest, hregistry]
    rfl

/-- What is on disk agrees as soon as all is settled. -/
theorem OnDisk.consistent (h : OnDisk l₀ history l) (hsettled : settled l.calls) {l' : Ledger}
    (hblkDat : l'.blkDat = l.blkDat) (hacctDat : l'.acctDat = l.acctDat) :
    CrashConsistent l₀ history l' := by
  obtain ⟨blockDb, hblocks, hagrees⟩ := h.blkDat
  obtain ⟨past, accountDb, hpast, haccounts, hbalances, hstatus⟩ := h.acctDat
  rw [← hstatus hsettled] at hagrees
  rw [← hblkDat] at hblocks
  rw [← hacctDat] at haccounts
  exact ⟨past, blockDb, accountDb, hpast, hblocks, haccounts, hbalances, hagrees⟩

theorem InMemory.agrees_reload (h : InMemory l₀ history l)
    (hdurable : l.registry.mBlockDb.Durable Block.nCoinbaseValue) :
    ∃ blockDb, Database.readIntoMemory l.registry.mBlockDb.writeToDisk = some blockDb ∧
      Agrees (fun hash => status l₀ hash history) blockDb := by
  obtain ⟨blockDb, hread, hvalues, hkept⟩ := hdurable.reload h.keyed.1
  exact ⟨blockDb, hread, h.marks.agrees hvalues hkept⟩

theorem OnDisk.quiet {o : Occurrence Ledger Operation Empty} (h : OnDisk l₀ history l)
    (hquiet : Quiet l o.after)
    (hstatus : (fun hash => status l₀ hash (o :: history)) = fun hash => status l₀ hash history) :
    OnDisk l₀ (o :: history) o.after := by
  obtain ⟨past, accountDb, hpast, haccounts, hbalances, hsince⟩ := h.acctDat
  constructor
  · rw [hquiet.blkDat, hstatus]
    exact h.blkDat
  · refine ⟨past, accountDb, hpast.trans (List.suffix_cons _ _), ?_, hbalances, ?_⟩
    · rw [hquiet.acctDat]
      exact haccounts
    · rw [hquiet.settled, hstatus]
      exact hsince

theorem OnDisk.written {o : Occurrence Ledger Operation Empty}
    (h : InMemory l₀ (o :: history) o.after)
    (hblkDat : o.after.blkDat = o.after.registry.mBlockDb.writeToDisk)
    (hacctDat : o.after.acctDat = o.after.registry.mAccountDb.writeToDisk)
    (hblocks : o.after.registry.mBlockDb.Durable Block.nCoinbaseValue)
    (haccounts : o.after.registry.mAccountDb.Durable Account.nAccountBalance) :
    OnDisk l₀ (o :: history) o.after := by
  constructor
  · rw [hblkDat]
    exact h.agrees_reload hblocks
  · obtain ⟨accountDb, hread, hbalances, -⟩ := haccounts.reload h.keyed.2
    refine ⟨o :: history, accountDb, List.suffix_rfl, ?_, hbalances, fun _ => rfl⟩
    rw [hacctDat]
    exact hread

theorem OnDisk.next (h : OnDisk l₀ history l) (hmemory : InMemory l₀ history l) (op : Operation)
    (hmeets : Meets ⟨l, op, l.perform op, []⟩) :
    OnDisk l₀ (⟨l, op, l.perform op, []⟩ :: history) (l.perform op) := by
  have hnext := hmemory.next op hmeets
  cases op with
  | updateBalances cCoinbase nRound reward hashSubmitBlock lastBlockfinder =>
    obtain ⟨l₁, cBlock, -, hperform, -⟩ :=
      perform_updateBalances l cCoinbase nRound reward hashSubmitBlock lastBlockfinder
    obtain ⟨-, hblocks, haccounts⟩ := hmeets
    refine .written hnext ?_ ?_ hblocks haccounts
    · rw [hperform]
      rfl
    · rw [hperform]
      rfl
  | refundPayouts hashBlock =>
    by_cases hvalue : l.registry.mBlockDb.coinbaseValue hashBlock = 0
    · exact h.quiet (always_refundPayouts_of_zero hvalue).run (hmemory.status_of_zero hvalue _)
    · obtain ⟨l₁, cBlock, hquiet, hperform, -⟩ := perform_refundPayouts hvalue
      obtain ⟨past, accountDb, hpast, haccounts, hbalances, -⟩ := h.acctDat
      rw [← hquiet.acctDat] at haccounts
      constructor
      · have hwritten : (l.perform (.refundPayouts hashBlock)).blkDat =
            (l.perform (.refundPayouts hashBlock)).registry.mBlockDb.writeToDisk := by
          rw [hperform]
          rfl
        rw [hwritten]
        exact hnext.agrees_reload hmeets
      · refine ⟨past, accountDb, hpast.trans (List.suffix_cons _ _), ?_, hbalances,
          fun hsettled => ?_⟩
        · rw [hperform]
          exact haccounts
        · rw [hperform] at hsettled
          cases hsettled
  | persistance => exact .written hnext rfl rfl hmeets.1 hmeets.2
  | clearShares => exact h.quiet (Quiet.keeps_clearShares l).run (status_plain rfl _ _ _ _)
  | acceptShare nxsAddress weight =>
    have hquiet : Quiet l (l.perform (.acceptShare nxsAddress weight)) :=
      (Quiet.keeps_modifyAccount nxsAddress (·.addShares weight) l).run
    exact h.quiet hquiet (status_plain rfl _ _ _ _)
  | openAccount nxsAddress =>
    exact h.quiet (Quiet.keeps_openAccount nxsAddress l).run (status_plain rfl _ _ _ _)

theorem inMemory_onDisk_of_run {l₀ : Ledger} (hl₀ : l₀.Loaded)
    (h : Run Ledger.step (· = l₀) history l)
    (hmeets : Throughout (fun _ o => Meets o) history) :
    InMemory l₀ history l ∧ OnDisk l₀ history l := by
  induction h with
  | start h =>
    subst h
    exact ⟨.start hl₀, .start hl₀⟩
  | next _ hstep ih =>
    obtain ⟨hmemory, hdisk⟩ := ih hmeets.2
    cases hstep
    exact ⟨hmemory.next _ hmeets.1, hdisk.next hmemory _ hmeets.1⟩

/-- If a crash comes when all is settled, the files agree, provided that every payout finds a
coinbase with a value and that what is written can be read back. Of the operation that is cut
off this is asked if it has written block records. -/
theorem crashConsistent_of_settled {l₀ : Ledger} (hl₀ : l₀.Loaded)
    (h : Run Ledger.step (· = l₀) history l) (hmeets : Throughout (fun _ o => Meets o) history)
    (op : Operation) (n : ℕ)
    (hlast : l.calls.countP Call.isBlockWrite <
        (l.interrupted op n).calls.countP Call.isBlockWrite →
      Meets ⟨l, op, l.perform op, []⟩)
    (hsettled : settled (l.interrupted op n).calls) :
    CrashConsistent l₀ (⟨l, op, l.perform op, []⟩ :: history) (l.interrupted op n) := by
  obtain ⟨hmemory, hdisk⟩ := inMemory_onDisk_of_run hl₀ h hmeets
  have hlonger : ∀ {l' : Ledger}, CrashConsistent l₀ history l' →
      CrashConsistent l₀ (⟨l, op, l.perform op, []⟩ :: history) l' := by
    rintro l' ⟨past, blockDb, accountDb, hpast, hrest⟩
    exact ⟨past, blockDb, accountDb, hpast.trans (List.suffix_cons _ _), hrest⟩
  cases always_cutOff l op n with
  | untouched quiet =>
    apply hlonger
    refine hdisk.consistent ?_ quiet.blkDat quiet.acctDat
    rw [← quiet.settled]
    exact hsettled
  | torn unsettled =>
    rw [Ledger.interrupted, unsettled] at hsettled
    cases hsettled
  | half timer blkDat acctDat before written =>
    subst timer
    apply hlonger
    obtain ⟨hblocks, -⟩ := hlast written
    obtain ⟨blockDb, hread, hagrees⟩ := hmemory.agrees_reload hblocks
    obtain ⟨past, accountDb, hpast, haccounts, hbalances, hstatus⟩ := hdisk.acctDat
    rw [← hstatus (before hsettled)] at hagrees
    refine ⟨past, blockDb, accountDb, hpast, ?_, ?_, hbalances, hagrees⟩
    · rw [Ledger.interrupted, blkDat]
      exact hread
    · rw [Ledger.interrupted, acctDat]
      exact haccounts
  | finished blkDat acctDat after written =>
    exact (hdisk.next hmemory op (hlast written)).consistent after blkDat acctDat

end Steps

end Programs

/-! ### A crash after a refund -/

section OneAccount

attribute [local instance] Target.masking

def Ledger.blank : Ledger := ⟨DataRegistry.init ⟨0, 0, false⟩ .empty .empty, [], [], []⟩

theorem Ledger.blank_loaded : Ledger.Loaded Ledger.blank := ⟨⟨_, _, _, rfl, rfl, rfl⟩, rfl⟩

def foundBlock : Uint1024 := BaseUint.ofUInt64 30 1

def payAndRefund : List Operation :=
  [.openAccount [65], .updateBalances { Coinbase.empty with nMaxValue := 100 } 1 100
    foundBlock [65], .refundPayouts foundBlock]

def savedRefund : Option (LedgerHistory × Ledger) :=
  trace Ledger.step .blank (payAndRefund ++ [.persistance])

theorem savedRefund_isSome : savedRefund.isSome := by decide +kernel

theorem savedRefund_run : Run Ledger.step (· = Ledger.blank) (savedRefund.get savedRefund_isSome).1
    (savedRefund.get savedRefund_isSome).2 := by
  apply Run.of_trace ?_ (Option.some_get savedRefund_isSome).symm
  rfl

theorem savedRefund_meets :
    Throughout (fun _ o => Meets o) (savedRefund.get savedRefund_isSome).1 := by decide +kernel

theorem savedRefund_settled :
    settled ((savedRefund.get savedRefund_isSome).2.interrupted .clearShares 0).calls := by
  decide +kernel

theorem savedRefund_idle :
    ¬ (savedRefund.get savedRefund_isSome).2.calls.countP Call.isBlockWrite <
      ((savedRefund.get savedRefund_isSome).2.interrupted .clearShares 0).calls.countP
        Call.isBlockWrite := by decide +kernel

attribute [local irreducible] savedRefund

/-- The timer has written the accounts since the refund. -/
theorem savedRefund_consistent :
    CrashConsistent Ledger.blank
      (⟨(savedRefund.get savedRefund_isSome).2, .clearShares,
        (savedRefund.get savedRefund_isSome).2.perform .clearShares, []⟩ ::
          (savedRefund.get savedRefund_isSome).1)
      ((savedRefund.get savedRefund_isSome).2.interrupted .clearShares 0) :=
  crashConsistent_of_settled Ledger.blank_loaded savedRefund_run savedRefund_meets .clearShares 0
    (fun h => absurd h savedRefund_idle) savedRefund_settled

/-- The account in the file has another balance than at this moment, or the block record another
value than the status says. -/
def differs (l : Ledger) (past : LedgerHistory) : Bool :=
  (Database.readIntoMemory l.acctDat).any (fun accountDb : Database Bytes Account =>
    accountDb.view Account.nAccountBalance [65] ≠
      (Ledger.blank.latest past).registry.mAccountDb.view Account.nAccountBalance [65]) ||
  (Database.readIntoMemory l.blkDat).any fun blockDb : Database Uint1024 Block =>
    status Ledger.blank foundBlock past = .paid ∧ blockDb.coinbaseValue foundBlock = 0

theorem not_consistent_of_differs {history : LedgerHistory} {l : Ledger}
    (h : ∀ past ∈ history.tails, differs l past) : ¬ CrashConsistent Ledger.blank history l := by
  rintro ⟨past, blockDb, accountDb, hpast, hblocks, haccounts, hbalances, hagrees⟩
  have hdiffers := h past ((List.mem_tails _ _).mpr hpast)
  simp only [differs, hblocks, haccounts, Option.any_some, Bool.or_eq_true,
    decide_eq_true_iff] at hdiffers
  rcases hdiffers with hbalance | ⟨hpaid, hzero⟩
  · exact hbalance (hbalances [65])
  · exact (hagrees.paid foundBlock).mp hpaid hzero

/-- A refund writes the block records only, so the accounts still hold what it took back. -/
theorem refund_torn : ¬ ∀ (target : Target) l₀ history l op n, @Ledger.Loaded target l₀ →
    Run (@Ledger.step target) (· = l₀) history l →
      @CrashConsistent target l₀ (⟨l, op, @Ledger.perform target l op, []⟩ :: history)
        (@Ledger.interrupted target l op n) := by
  intro h
  have hdiffers : (trace Ledger.step .blank payAndRefund).any (fun r =>
      (((⟨r.2, .clearShares, r.2.perform .clearShares, []⟩ : Occurrence Ledger Operation Empty) ::
        r.1).tails.all fun past => differs (r.2.interrupted .clearShares 0) past)) = true := by
    decide +kernel
  obtain ⟨r, hr, hdiffers⟩ := (Option.any_eq_true _ _).mp hdiffers
  refine not_consistent_of_differs (fun past hpast => List.all_eq_true.mp hdiffers past hpast)
    (h .masking .blank r.1 r.2 .clearShares 0 Ledger.blank_loaded ?_)
  apply Run.of_trace ?_ hr
  rfl

end OneAccount

end NexusPool
