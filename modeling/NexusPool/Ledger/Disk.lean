import NexusPool.Ledger.Record

/-!
# Database files

`WriteToDisk` writes the records in the order of their keys, `ReadIntoMemory` builds the map
again from what the records say their keys are. In the file each record stands behind its
size, by which it is read back; here a file is the list of its records.
-/

namespace NexusPool

open Std (ExtTreeMap)

/-- How a record is written to a file. Reading may leave the data. -/
class Stored (R : Type) where
  serialize : R → Bytes
  deserialize : Bytes → Option R

instance [Target] : Stored Account := ⟨Account.serialize, Account.deserialize⟩

instance [Target] : Stored Block := ⟨Block.serialize, Block.deserialize⟩

namespace Database

variable {K R : Type} [Ord K] [Std.TransOrd K] [Record K R] [Stored R]

omit [Record K R] in
def writeToDisk (db : Database K R) : List Bytes :=
  db.mapRecords.toList.map fun e => Stored.serialize e.2

/-- The loop over the file. -/
def readRecords (db : Database K R) (file : List Bytes) : Option (Database K R) :=
  file.foldlM (fun db vData => (Stored.deserialize vData).map db.updateRecord) db

def readIntoMemory (file : List Bytes) : Option (Database K R) := readRecords .empty file

def reload (db : Database K R) : Option (Database K R) := readIntoMemory db.writeToDisk

theorem readRecords_cons {db db' : Database K R} {vData : Bytes} {file : List Bytes}
    (h : db.readRecords (vData :: file) = some db') :
    ∃ r, Stored.deserialize vData = some r ∧ (db.updateRecord r).readRecords file = some db' := by
  simp only [readRecords, List.foldlM_cons, Option.bind_eq_bind, Option.bind_eq_some_iff,
    Option.map_eq_some_iff] at h
  obtain ⟨_, ⟨r, hr, rfl⟩, hrest⟩ := h
  exact ⟨r, hr, hrest⟩

variable [Std.LawfulEqOrd K] [DecidableEq K]

theorem forall_of_readRecords {P : K → R → Prop} {db db' : Database K R} {file : List Bytes}
    (hdb : ∀ k r, db.mapRecords[k]? = some r → P k r)
    (hfile : ∀ vData ∈ file, ∀ r, Stored.deserialize vData = some r → P (Record.cKey r) r)
    (h : db.readRecords file = some db') : ∀ k r, db'.mapRecords[k]? = some r → P k r := by
  induction file generalizing db with
  | nil =>
    cases h
    exact hdb
  | cons vData file ih =>
    obtain ⟨r, hr, hrest⟩ := readRecords_cons h
    refine ih (fun k r' hr' => ?_) (fun v hv => hfile v (List.mem_cons_of_mem _ hv)) hrest
    rw [find_updateRecord] at hr'
    split_ifs at hr' with hkey
    · cases hr'
      rw [← hkey]
      exact hfile vData List.mem_cons_self r hr
    · exact hdb k r' hr'

theorem forall_of_readIntoMemory {P : K → R → Prop} {file : List Bytes} {db : Database K R}
    (hfile : ∀ vData ∈ file, ∀ r, Stored.deserialize vData = some r → P (Record.cKey r) r)
    (h : readIntoMemory file = some db) : ∀ k r, db.mapRecords[k]? = some r → P k r :=
  forall_of_readRecords (fun k r hr => by simp [empty] at hr) hfile h

/-- A database that was read from a file has its records under their own keys. -/
theorem ownKeys_of_readIntoMemory {file : List Bytes} {db : Database K R}
    (h : readIntoMemory file = some db) : db.OwnKeys :=
  forall_of_readIntoMemory (fun _ _ _ _ => rfl) h

/-! ### What is read back -/

omit [Std.LawfulEqOrd K] [DecidableEq K] in
theorem exists_readRecords {file : List Bytes}
    (hfile : ∀ vData ∈ file, ∃ r : R, Stored.deserialize vData = some r) (db : Database K R) :
    ∃ db', db.readRecords file = some db' := by
  induction file generalizing db with
  | nil => exact ⟨db, rfl⟩
  | cons vData file ih =>
    obtain ⟨r, hr⟩ := hfile vData List.mem_cons_self
    obtain ⟨db', hrest⟩ := ih (fun v hv => hfile v (List.mem_cons_of_mem _ hv)) (db.updateRecord r)
    refine ⟨db', ?_⟩
    simp only [readRecords, List.foldlM_cons, hr, Option.map_some, Option.bind_eq_bind,
      Option.bind_some]
    exact hrest

/-- No record of the file is left out. -/
theorem hasKey_of_readRecords {db db' : Database K R} {file : List Bytes} {k : K}
    (h : db.readRecords file = some db')
    (hk : db.hasKey k ∨ ∃ vData ∈ file, ∃ r : R, Stored.deserialize vData = some r ∧
      Record.cKey r = k) :
    db'.hasKey k := by
  induction file generalizing db with
  | nil =>
    cases h
    exact hk.resolve_right (by simp)
  | cons vData file ih =>
    obtain ⟨r, hr, hrest⟩ := readRecords_cons h
    apply ih hrest
    rw [hasKey_updateRecord]
    rcases hk with hk | ⟨v, hv, r', hr', hkey⟩
    · simp [hk]
    · rcases List.mem_cons.mp hv with rfl | hv
      · rw [hr] at hr'
        cases hr'
        simp [hkey]
      · exact .inr ⟨v, hv, r', hr', hkey⟩

omit [Record K R] [DecidableEq K] in
theorem mem_writeToDisk {db : Database K R} {vData : Bytes} :
    vData ∈ db.writeToDisk ↔ ∃ (k : K) (r : R), db.mapRecords[k]? = some r ∧
      Stored.serialize r = vData := by
  simp only [writeToDisk, List.mem_map, Prod.exists, ExtTreeMap.mem_toList_iff_getElem?_eq_some]

variable {V : Type} {g : R → V} {db : Database K R}

/-- The key and this part of every record survive their encoding, and there is nothing under
the blank key that a blank record could overwrite. -/
structure Durable (g : R → V) (db : Database K R) : Prop where
  survives : ∀ (k : K) (r : R), db.mapRecords[k]? = some r →
    ∃ r', Stored.deserialize (Stored.serialize r) = some r' ∧
      Record.cKey r' = Record.cKey r ∧ g r' = g r
  blank : db.OwnKeys ∨ db.view g (Record.cKey (Record.blank : R)) = g Record.blank

theorem durable_iff [DecidableEq V] (g : R → V) (db : Database K R) : db.Durable g ↔
    (∀ e ∈ db.mapRecords.toList,
      (Stored.deserialize (Stored.serialize e.2) : Option R).any fun r' =>
      decide (Record.cKey r' = Record.cKey e.2 ∧ g r' = g e.2)) ∧
    (db.OwnKeys ∨ db.view g (Record.cKey (Record.blank : R)) = g Record.blank) := by
  have hread : ∀ r : R, ((Stored.deserialize (Stored.serialize r) : Option R).any fun r' =>
      decide (Record.cKey r' = Record.cKey r ∧ g r' = g r)) = true ↔
        ∃ r', Stored.deserialize (Stored.serialize r) = some r' ∧
          Record.cKey r' = Record.cKey r ∧ g r' = g r := by
    intro r
    rw [Option.any_eq_true]
    simp only [decide_eq_true_iff]
  rw [forall_toList_iff (P := fun _ r => ((Stored.deserialize (Stored.serialize r) : Option R).any
    fun r' => decide (Record.cKey r' = Record.cKey r ∧ g r' = g r)) = true)]
  simp only [hread]
  exact ⟨fun h => ⟨h.survives, h.blank⟩, fun h => ⟨h.1, h.2⟩⟩

instance [DecidableEq V] (g : R → V) (db : Database K R) : Decidable (db.Durable g) :=
  decidable_of_iff _ (durable_iff g db).symm

theorem Durable.reload (h : db.Durable g) (hkeyed : db.WellKeyed) : ∃ db', db.reload = some db' ∧
    (∀ k, db'.view g k = db.view g k) ∧
      ∀ (k : K) (r : R), db.mapRecords[k]? = some r → Record.cKey r = k → db'.hasKey k := by
  have hfile : ∀ vData ∈ db.writeToDisk, ∃ r : R, Stored.deserialize vData = some r := by
    intro vData hmem
    obtain ⟨k, r, hr, rfl⟩ := mem_writeToDisk.mp hmem
    obtain ⟨r', hr', -⟩ := h.survives k r hr
    exact ⟨r', hr'⟩
  obtain ⟨db', hreload⟩ := exists_readRecords hfile .empty
  -- no record is left out, and each one that is read stands for one that was written
  have hkept : ∀ (k : K) (r : R), db.mapRecords[k]? = some r → db'.hasKey (Record.cKey r) := by
    intro k r hr
    obtain ⟨r', hr', hkey, -⟩ := h.survives k r hr
    exact hasKey_of_readRecords hreload (.inr ⟨_, mem_writeToDisk.mpr ⟨k, r, hr, rfl⟩,
      r', hr', hkey⟩)
  have hfrom : ∀ (k' : K) (r' : R), db'.mapRecords[k']? = some r' →
      ∃ (k : K) (r : R), db.mapRecords[k]? = some r ∧ Record.cKey r = k' ∧ g r' = g r := by
    refine forall_of_readIntoMemory ?_ hreload
    intro vData hmem r' hr'
    obtain ⟨k, r, hr, rfl⟩ := mem_writeToDisk.mp hmem
    obtain ⟨r'', hr'', hkey, hview⟩ := h.survives k r hr
    rw [hr'] at hr''
    cases hr''
    exact ⟨k, r, hr, hkey.symm, hview⟩
  refine ⟨db', hreload, fun k => ?_, fun k r hr hkey => hkey ▸ hkept k r hr⟩
  cases hk' : db'.mapRecords[k]? with
  | some r' =>
    rw [view_of_some hk']
    obtain ⟨k₀, r, hr, hkey, hview⟩ := hfrom k r' hk'
    rw [hview]
    rcases hkeyed k₀ r hr with hown | rfl
    · rw [← hkey, hown, view_of_some hr]
    · rcases h.blank with hown | hblank
      · rw [← hkey, hown k₀ _ hr, view_of_some hr]
      · rw [← hkey, hblank]
  | none =>
    rw [view_of_none hk']
    cases hk : db.mapRecords[k]? with
    | none => rw [view_of_none hk]
    | some r =>
      rw [view_of_some hk]
      rcases hkeyed k r hk with hown | rfl
      · have hkey := hkept k r hk
        rw [hown, hasKey_eq_isSome, hk'] at hkey
        cases hkey
      · rfl

end Database

/-! ### Block records -/

namespace Block

section Reading

variable [Target] {b b' : Block}

theorem fields_of_deserialize (h : deserialize b.serialize = some b') :
    b'.cKey = b.cKey ∧ b'.nCoinbaseValue = bytes2uint64 (uint2bytes64 b.nCoinbaseValue) 0 := by
  have hkey : b.serialize.drop (b.serialize.length - 128) = b.cKey.getBytes := by
    rw [serialize]
    exact List.drop_left' (by simp; omega)
  simp only [deserialize] at h
  split_ifs at h
  simp only [Option.bind_eq_bind, Option.bind_eq_some_iff, Option.some.injEq, hkey,
    BaseUint.setBytes_getBytes] at h
  obtain ⟨cCoinbase, -, cCredits, -, cKey, rfl, rfl⟩ := h
  exact ⟨rfl, rfl⟩

theorem nCoinbaseValue_of_zero (h : deserialize b.serialize = some b')
    (hzero : b.nCoinbaseValue = 0) :
    b'.nCoinbaseValue = 0 := by
  rw [(fields_of_deserialize h).2, hzero]
  have hpreserved : Preserved 0 := by
    rw [preserved_iff]
    decide
  exact hpreserved

end Reading

end Block

end NexusPool
