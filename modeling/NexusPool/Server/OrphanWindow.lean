import NexusPool.Server.OrphanedBlocks

/-!
# The window of the orphan check

The orphan check asks the wallet about the paid blocks of the last five rounds. It takes the
first round of the window in 32 bits, where the difference wraps in the first rounds after a
start. The rounds start at one with every start of the server, the database does not.
-/

namespace NexusPool

open Reactive World

/-- A block whose coinbase has been paid out and not refunded, in one of the last five rounds. -/
def Block.InWindow (currentRound : UInt32) (block : Block) : Prop :=
  0 < block.nCoinbaseValue ∧ currentRound.toNat ≤ block.nRound.toNat + 5

/-- The wallet is asked about the stored blocks in the window, about each of them once, and
about nothing else. -/
structure World.ChecksWindow (w : World) (out : List Output) : Prop where
  mem_iff : ∀ o, o ∈ out ↔
    ∃ hashBlock block, w.registry.mBlockDb.mapRecords[hashBlock]? = some block ∧
    block.InWindow w.registry.mCurrentRound ∧ o = .toWallet (DaemonPacket.checkBlock hashBlock)
  once : out.Nodup

/-! ### What the handler sends -/

/-- The test that `orphan_check_timer_handler` makes. -/
def Block.isChecked (currentRound : UInt32) (block : Block) : Bool :=
  block.nRound ≥ currentRound - 5 ∧ block.nCoinbaseValue > 0

def World.checkedBlocks (w : World) : List Uint1024 :=
  w.registry.mBlockDb.getKeys.filter fun key =>
    (w.registry.mBlockDb.mapRecords[key]?).any (·.isChecked w.registry.mCurrentRound)

variable {w : World}

theorem checkBlock_eq (hconnection : w.daemon.mConnection = true) {key : Uint1024} {block : Block}
    (hblock : w.registry.mBlockDb.mapRecords[key]? = some block) :
    (registryCall (DataRegistry.call (.blockGet key)) >>= fun cBlock =>
      if cBlock.nRound ≥ w.registry.mCurrentRound - 5 ∧ cBlock.nCoinbaseValue > 0 then
        DaemonConnection.transmit (DaemonPacket.checkBlock key)
      else pure ()) w =
      some ((), w, if block.isChecked w.registry.mCurrentRound then
        [.toWallet (DaemonPacket.checkBlock key)] else []) := by
  have hget : registryCall (DataRegistry.call (.blockGet key)) w = some (block, w, []) := by
    have hread := Database.getRecord_of_some hblock
    rw [registryCall_eq_some_iff]
    refine ⟨(congrArg Prod.fst hread).symm, ?_, rfl⟩
    change w = { w with
      registry := { w.registry with mBlockDb := (w.registry.mBlockDb.getRecord key).2 } }
    rw [hread]
  rw [Action.bind_of_eq_some hget]
  simp only [Block.isChecked, decide_eq_true_eq]
  split_ifs
  · simp [DaemonConnection.transmit, Action.get_bind, hconnection]
  · rfl

theorem orphanCheckTimerHandler_eq (hconnection : w.daemon.mConnection = true) :
    DaemonConnection.orphanCheckTimerHandler w =
      some ((), w, w.checkedBlocks.map fun key => .toWallet (DaemonPacket.checkBlock key)) := by
  rw [DaemonConnection.orphanCheckTimerHandler, Action.get_bind, checkedBlocks]
  have hkeys : ∀ key ∈ w.registry.mBlockDb.getKeys, ∃ block,
      w.registry.mBlockDb.mapRecords[key]? = some block :=
    fun key => Database.mem_getKeys.mp
  generalize w.registry.mBlockDb.getKeys = keys at hkeys
  induction keys with
  | nil => rfl
  | cons key keys ih =>
    obtain ⟨⟨block, hblock⟩, hothers⟩ := List.forall_mem_cons.mp hkeys
    refine (Action.bind_of_eq_some_append (checkBlock_eq hconnection hblock) _).trans ?_
    rw [ih hothers]
    by_cases hchecked : block.isChecked w.registry.mCurrentRound
    · simp [hblock, hchecked]
    · simp [hblock, hchecked]

theorem checkBlock_injective : Function.Injective DaemonPacket.checkBlock := by
  intro a b h
  have hbytes : a.getBytes = b.getBytes := Option.some.inj (congrArg Packet.mData h)
  have hset := BaseUint.setBytes_getBytes a
  rw [hbytes, BaseUint.setBytes_getBytes] at hset
  exact (Option.some.inj hset).symm

theorem mem_checkedBlocks {hashBlock : Uint1024} : hashBlock ∈ w.checkedBlocks ↔
    ∃ block, w.registry.mBlockDb.mapRecords[hashBlock]? = some block ∧
      block.isChecked w.registry.mCurrentRound := by
  rw [checkedBlocks, List.mem_filter, Option.any_eq_true, Database.mem_getKeys,
    and_iff_right_iff_imp]
  rintro ⟨block, hblock, -⟩
  exact ⟨block, hblock⟩

/-! ### The window -/

/-- From the fifth round on the difference does not wrap. -/
theorem Block.isChecked_iff (currentRound : UInt32) (block : Block) :
    block.isChecked currentRound ↔ 0 < block.nCoinbaseValue ∧
      currentRound.toNat + (if 5 ≤ currentRound.toNat then 0 else 2 ^ 32) ≤
        block.nRound.toNat + 5 := by
  have hfive : (5 : UInt32).toNat = 5 := rfl
  have hcurrent := currentRound.toNat_lt
  simp only [isChecked, decide_eq_true_eq, ge_iff_le, gt_iff_lt, UInt32.le_iff_toNat_le,
    UInt32.toNat_sub, hfive]
  rw [and_comm, and_congr_right_iff]
  intro _
  split_ifs <;> omega

/-- The orphan check sees the window from the fifth round on. Before that, nothing in it may be
left to check. -/
theorem World.checksWindow_iff [Platform] (henabled : w.enabled .orphanCheckTimer)
    (hconnection : w.daemon.mConnection = true) :
    (∃ w' out, w.step .orphanCheckTimer = some (w', out) ∧ w.ChecksWindow out) ↔
      5 ≤ w.registry.mCurrentRound.toNat ∨
        ∀ (hashBlock : Uint1024) (block : Block),
          w.registry.mBlockDb.mapRecords[hashBlock]? = some block →
          0 < block.nCoinbaseValue →
            w.registry.mCurrentRound.toNat + 2 ^ 32 ≤ block.nRound.toNat + 5 := by
  have hstep : w.step .orphanCheckTimer =
      some (w, w.checkedBlocks.map fun key => .toWallet (DaemonPacket.checkBlock key)) := by
    rw [World.step, if_pos henabled, handler, orphanCheckTimerHandler_eq hconnection]
    rfl
  rw [hstep]
  constructor
  · rintro ⟨_, _, hout, hexact⟩
    cases hout
    by_cases hfifth : 5 ≤ w.registry.mCurrentRound.toNat
    · exact .inl hfifth
    · refine .inr fun hashBlock block hblock hvalue => ?_
      have hmem := (hexact.mem_iff (.toWallet (DaemonPacket.checkBlock hashBlock))).mpr
        ⟨hashBlock, block, hblock, ⟨hvalue, by omega⟩, rfl⟩
      obtain ⟨key, hkey, heq⟩ := List.mem_map.mp hmem
      obtain rfl := checkBlock_injective (Output.toWallet.inj heq)
      obtain ⟨block', hblock', hchecked⟩ := mem_checkedBlocks.mp hkey
      cases hblock.symm.trans hblock'
      have hwindow := (block.isChecked_iff _).mp hchecked
      rw [if_neg hfifth] at hwindow
      exact hwindow.2
  · intro hcondition
    refine ⟨w, _, rfl, fun o => ?_, ?_⟩
    · have hchecked : ∀ (hashBlock : Uint1024) (block : Block),
          w.registry.mBlockDb.mapRecords[hashBlock]? = some block →
          (block.isChecked w.registry.mCurrentRound ↔ block.InWindow w.registry.mCurrentRound) := by
        intro hashBlock block hblock
        rw [block.isChecked_iff, Block.InWindow, and_congr_right_iff]
        intro hvalue
        split_ifs with hfifth
        · rw [Nat.add_zero]
        · have hlate := hcondition.resolve_left hfifth hashBlock block hblock hvalue
          omega
      rw [List.mem_map]
      constructor
      · rintro ⟨key, hkey, rfl⟩
        obtain ⟨block, hblock, h⟩ := mem_checkedBlocks.mp hkey
        exact ⟨key, block, hblock, (hchecked key block hblock).mp h, rfl⟩
      · rintro ⟨key, block, hblock, h, rfl⟩
        exact ⟨key, mem_checkedBlocks.mpr ⟨block, hblock, (hchecked key block hblock).mpr h⟩, rfl⟩
    · exact (w.registry.mBlockDb.nodup_getKeys.filter _).map fun a b h =>
        checkBlock_injective (Output.toWallet.inj h)

/-! ### After a restart -/

section PaidBlock

attribute [local instance] Platform.plain

def blockOfRound (nRound : UInt32) : Database Uint1024 Block :=
  Database.empty.updateRecord { Block.new 0 with nCoinbaseValue := 1, nRound := nRound }

theorem find_blockOfRound (nRound : UInt32) : (blockOfRound nRound).mapRecords[(0 : Uint1024)]? =
    some { Block.new 0 with nCoinbaseValue := 1, nRound := nRound } :=
  Std.ExtTreeMap.getElem?_insert_self

def started (nRound : UInt32) : World :=
  (World.init (DataRegistry.init ⟨0, 0, false⟩ (blockOfRound nRound) .empty) 0).modifyDaemon
    ({ · with timersStarted := true })

def inRound (currentRound nRound : UInt32) : World :=
  (started nRound).modifyRegistry ({ · with mCurrentRound := currentRound })

theorem inRound_six : ∃ w' out,
    (inRound 6 1).step .orphanCheckTimer = some (w', out) ∧ (inRound 6 1).ChecksWindow out :=
  (World.checksWindow_iff rfl rfl).mpr (.inl (by decide))

/-- The block has been paid out, but nobody asks the wallet about it. -/
theorem paidBlock_unchecked : ¬ ∀ [Platform] (w : World), w.enabled .orphanCheckTimer →
    w.daemon.mConnection = true →
      ∃ w' out, w.step .orphanCheckTimer = some (w', out) ∧ w.ChecksWindow out := by
  intro h
  obtain ⟨w', out, hstep, hexact⟩ := @h Platform.plain (started 1) rfl rfl
  have hnothing : ((started 1).step .orphanCheckTimer).map (·.2) = some [] := by decide +kernel
  rw [hstep, Option.map_some, Option.some.injEq] at hnothing
  subst hnothing
  have hmem := (hexact.mem_iff (.toWallet (DaemonPacket.checkBlock 0))).mpr
    ⟨0, _, find_blockOfRound 1, ⟨by decide, by decide⟩, rfl⟩
  cases hmem

end PaidBlock

end NexusPool
