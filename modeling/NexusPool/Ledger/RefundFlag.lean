import NexusPool.Ledger.Disk
import NexusPool.Ledger.PayoutRun
import NexusPool.Ledger.Footprint

/-!
# The coinbase value as a flag

A block record has been refunded, or there is nothing to refund, if its coinbase value is
zero. `GetRecord` makes up such a record for an unknown hash, with the key zero in it. As long
as only these stand under a foreign key, every change of a flag is where it should be.
-/

namespace NexusPool

open Concurrent DataRegistry

namespace Database

variable {db db' : Database Uint1024 Block}

/-- What the tests of the flag read. -/
def coinbaseValue (db : Database Uint1024 Block) (hash : Uint1024) : UInt64 :=
  (db.getRecord hash).1.nCoinbaseValue

/-- A record with a coinbase value is stored under its own key. -/
def Filed (db : Database Uint1024 Block) : Prop :=
  ∀ (k : Uint1024) (r : Block), db.mapRecords[k]? = some r → r.cKey = k ∨ r.nCoinbaseValue = 0

theorem coinbaseValue_of_some {hash : Uint1024} {r : Block} (h : db.mapRecords[hash]? = some r) :
    db.coinbaseValue hash = r.nCoinbaseValue :=
  view_of_some h

theorem coinbaseValue_of_none {hash : Uint1024} (h : db.mapRecords[hash]? = none) :
    db.coinbaseValue hash = 0 :=
  view_of_none h

theorem coinbaseValue_updateRecord (db : Database Uint1024 Block) (r : Block) :
    (db.updateRecord r).coinbaseValue =
      Function.update db.coinbaseValue r.cKey r.nCoinbaseValue := by
  funext hash
  have hfind := find_updateRecord db r hash
  by_cases hkey : hash = r.cKey
  · subst hkey
    rw [Function.update_self]
    apply coinbaseValue_of_some
    rw [hfind, if_pos (Block.record_cKey r)]
  · rw [Block.record_cKey, if_neg (Ne.symm hkey)] at hfind
    rw [Function.update_of_ne hkey, coinbaseValue, getRecord_congr hfind]
    rfl

theorem coinbaseValue_getRecord (db : Database Uint1024 Block) (k : Uint1024) :
    (db.getRecord k).2.coinbaseValue = db.coinbaseValue := by
  funext hash
  have hfind := find_getRecord db k hash
  split_ifs at hfind with hk
  · subst hk
    exact coinbaseValue_of_some hfind
  · rw [coinbaseValue, getRecord_congr hfind]
    rfl

theorem OwnKeys.filed (h : db.OwnKeys) : db.Filed := fun k r hr => .inl (h k r hr)

theorem Filed.updateRecord (h : db.Filed) (r : Block) : (db.updateRecord r).Filed :=
  KeyedOr.updateRecord h r

theorem Filed.getRecord (h : db.Filed) (hash : Uint1024) : (db.getRecord hash).2.Filed :=
  KeyedOr.getRecord h rfl hash

/-- A flag survives the file: no other record is read back under that key with a value. -/
theorem Filed.coinbaseValue_reload [Target] (h : db.Filed) {hash : Uint1024}
    (hzero : db.coinbaseValue hash = 0) (hreload : db.reload = some db') :
    db'.coinbaseValue hash = 0 := by
  have hall : ∀ (k : Uint1024) (r : Block), db'.mapRecords[k]? = some r → k = hash →
      r.nCoinbaseValue = 0 := by
    refine forall_of_readIntoMemory (P := fun k r => k = hash → r.nCoinbaseValue = 0) ?_ hreload
    rintro vData hmem r' hr' rfl
    obtain ⟨⟨k, r⟩, he, rfl⟩ := List.mem_map.mp hmem
    have hr : db.mapRecords[k]? = some r := Std.ExtTreeMap.mem_toList_iff_getElem?_eq_some.mp he
    obtain ⟨hkey, -⟩ := Block.fields_of_deserialize hr'
    apply Block.nCoinbaseValue_of_zero hr'
    rcases h k r hr with hown | hvalue
    · have hk : k = Record.cKey r' := hown.symm.trans hkey.symm
      rw [← hk] at hzero
      exact (coinbaseValue_of_some hr).symm.trans hzero
    · exact hvalue
  cases hr : db'.mapRecords[hash]? with
  | none => exact coinbaseValue_of_none hr
  | some r =>
    rw [coinbaseValue_of_some hr]
    exact hall hash r hr rfl

end Database

namespace PayoutManager

/-- After a refund the flag of the block is set, and the others are as before. -/
theorem flags_refundPayouts {s : DataRegistry} (h : s.mBlockDb.Filed) (hashBlock : Uint1024) :
    (exec (refundPayouts hashBlock) s).2.mBlockDb.Filed ∧
      (exec (refundPayouts hashBlock) s).2.mBlockDb.coinbaseValue =
        Function.update s.mBlockDb.coinbaseValue hashBlock 0 := by
  by_cases hvalue : s.mBlockDb.coinbaseValue hashBlock = 0
  · rw [exec_refundPayouts_of_zero hvalue]
    refine ⟨h.getRecord hashBlock, ?_⟩
    rw [Database.coinbaseValue_getRecord, ← hvalue, Function.update_eq_self]
  · cases hb : s.mBlockDb.mapRecords[hashBlock]? with
    | none => exact absurd (Database.coinbaseValue_of_none hb) hvalue
    | some b =>
      rw [Database.coinbaseValue_of_some hb] at hvalue
      rw [exec_refundPayouts hb hvalue]
      refine ⟨h.updateRecord _, ?_⟩
      rw [Database.coinbaseValue_updateRecord]
      rcases h hashBlock b hb with hkey | hzero
      · rw [hkey]
      · exact absurd hzero hvalue

end PayoutManager

end NexusPool
