import NexusPool.Ledger.Disk
import NexusPool.Library.InputStream

/-!
# Database files, byte by byte

`WriteToDisk` puts the size of a record in front of its data. `ReadIntoMemory` has no count of
the records: it asks the stream for its position until that is the end of the file. A file of
which each record is read back as a whole is the list of its records.
-/

namespace NexusPool

open FileInput
open Std (ExtTreeMap)

namespace DatabaseFile

variable {K R : Type} [Ord K] [Std.TransOrd K] [Stored R]

/-- The size, as `uint32_t`, and the data. -/
def recordBytes (vData : Bytes) : Bytes := uint2bytes vData.length.toUInt32 ++ vData

/-- An empty vector has no first element to write from. -/
def writeRecord (vData : Bytes) : Option Bytes :=
  if vData = [] then none else some (recordBytes vData)

/-- The bytes of the file, in the order of the keys. -/
def writeToDisk (db : Database K R) : Option Bytes :=
  (db.mapRecords.toList.mapM fun e => writeRecord (Stored.serialize e.2)).map List.flatten

variable [Record K R]

/-- One turn of the loop. The data is read into a vector of the size that stands in front. -/
def readRecord (s : InputStream UInt8 × Database K R) :
    Option (InputStream UInt8 × Database K R) :=
  let (vSize, fIncoming) := s.1.read (List.replicate 4 0)
  let nSize := bytes2uint vSize 0
  if nSize = 0 then none
  else
    let (vData, fIncoming) := fIncoming.read (List.replicate nSize.toNat 0)
    (Stored.deserialize vData).map fun cRecord => (fIncoming, s.2.updateRecord cRecord)

/-- `while(fIncoming.tellg() < nLength)`. -/
def readRecords (nLength fuel : ℕ) (s : InputStream UInt8 × Database K R) :
    Option (InputStream UInt8 × Database K R) :=
  whileLoop (fun s => decide (s.1.tellg < nLength)) readRecord fuel s

/-- The map is cleared first; without a file it stays empty. -/
def readIntoMemory (fuel : ℕ) : Option Bytes → Option (Database K R)
  | none => some .empty
  | some content =>
    (readRecords content.length fuel (InputStream.ofFile content, .empty)).map (·.2)

/-! ### The file as the list of its records -/

/-- The size of a record is kept in four bytes. -/
def Sized (vData : Bytes) : Prop := 1 ≤ vData.length ∧ vData.length < 2 ^ 32

theorem writeRecord_of_sized {vData : Bytes} (h : Sized vData) :
    writeRecord vData = some (recordBytes vData) := by
  have hne : vData ≠ [] := List.length_pos_iff.mp h.1
  rw [writeRecord, if_neg hne]

omit [Record K R] in
theorem writeToDisk_of_sized {db : Database K R} (h : ∀ vData ∈ db.writeToDisk, Sized vData) :
    writeToDisk db = some (db.writeToDisk.flatMap recordBytes) := by
  have hmap : ∀ records : List (K × R), (∀ e ∈ records, Sized (Stored.serialize e.2)) →
      (records.mapM fun e => writeRecord (Stored.serialize e.2)) =
        some (records.map fun e => recordBytes (Stored.serialize e.2)) := by
    intro records hrecords
    induction records with
    | nil => rfl
    | cons e records ih =>
      rw [List.mapM_cons, writeRecord_of_sized (hrecords e List.mem_cons_self),
        ih fun e' he' => hrecords e' (List.mem_cons_of_mem _ he')]
      rfl
  rw [writeToDisk, hmap _ fun e he => h _ (List.mem_map.mpr ⟨e, he, rfl⟩)]
  simp [Database.writeToDisk, List.flatMap_def, Function.comp_def]

theorem readRecord_append {vData : Bytes} (h : Sized vData) (front rest : Bytes)
    (db : Database K R) :
    readRecord (⟨front ++ (recordBytes vData ++ rest), front.length, false⟩, db) =
      (Stored.deserialize vData).map fun cRecord =>
        (⟨front ++ (recordBytes vData ++ rest), (front ++ recordBytes vData).length, false⟩,
          db.updateRecord cRecord) := by
  have hlength : vData.length.toUInt32.toNat = vData.length := Nat.mod_eq_of_lt h.2
  have hsize : bytes2uint (uint2bytes vData.length.toUInt32) 0 = vData.length.toUInt32 := by
    simpa using bytes2uint_uint2bytes vData.length.toUInt32 []
  have hne : vData.length.toUInt32 ≠ 0 := by
    intro hzero
    rw [hzero] at hlength
    exact absurd hlength.symm (Nat.ne_of_gt h.1)
  have hread := InputStream.read_append front (uint2bytes vData.length.toUInt32) (vData ++ rest)
    (List.replicate 4 0) rfl
  have hdata := InputStream.read_append (front ++ uint2bytes vData.length.toUInt32) vData rest
    (List.replicate vData.length 0) (by simp)
  simp only [List.append_assoc] at hread hdata
  simp only [readRecord, recordBytes, List.append_assoc, hread, hsize, if_neg hne, hlength, hdata]

/-- From any position on, the loop does what reading the records one after the other does. -/
theorem readRecords_flatMap (records : List Bytes) (h : ∀ vData ∈ records, Sized vData)
    (front : Bytes) {db db' : Database K R}
    (hread : db.readRecords records = some db') {nLength : ℕ}
    (hend : (front ++ records.flatMap recordBytes).length = nLength) :
    ∃ f, readRecords nLength (records.length + 1)
      (⟨front ++ records.flatMap recordBytes, front.length, false⟩, db) = some (f, db') := by
  induction records generalizing front db with
  | nil =>
    cases hread
    exact ⟨_, whileLoop_stop (by simp [InputStream.tellg, ← hend])⟩
  | cons vData records ih =>
    have hvData := h vData List.mem_cons_self
    obtain ⟨cRecord, hrecord, hrest⟩ := Database.readRecords_cons hread
    obtain ⟨f, hf⟩ := ih (fun v hv => h v (List.mem_cons_of_mem _ hv))
      (front ++ recordBytes vData) hrest (by simpa using hend)
    refine ⟨f, ?_⟩
    have hturn := readRecord_append hvData front (records.flatMap recordBytes) db
    rw [hrecord, Option.map_some] at hturn
    rw [List.flatMap_cons, readRecords, List.length_cons, whileLoop_turn _ hturn]
    · simpa [readRecords] using hf
    · simp only [InputStream.tellg, decide_eq_true_eq]
      have := hvData.1
      simp [recordBytes] at hend ⊢
      omega

/-- More fuel than the loop needs changes nothing. -/
theorem readIntoMemory_mono {fuel fuel' : ℕ} {file : Option Bytes} {db : Database K R}
    (hfuel : fuel ≤ fuel') (h : readIntoMemory fuel file = some db) :
    readIntoMemory fuel' file = some db := by
  cases file with
  | none => exact h
  | some content =>
    obtain ⟨s, hloop, rfl⟩ := Option.map_eq_some_iff.mp h
    rw [readIntoMemory, readRecords, whileLoop_mono hfuel hloop]
    rfl

theorem readIntoMemory_flatMap {records : List Bytes} (h : ∀ vData ∈ records, Sized vData)
    {db : Database K R} (hread : Database.readIntoMemory records = some db) :
    readIntoMemory (records.length + 1) (some (records.flatMap recordBytes)) = some db := by
  obtain ⟨f, hf⟩ := readRecords_flatMap records h [] hread rfl
  simp only [List.nil_append, List.length_nil] at hf
  rw [readIntoMemory, InputStream.ofFile, hf]
  rfl

/-! ### The round trip -/

/-- The byte constructor undoes `Serialize` on every record of the map. -/
def Undone (db : Database K R) : Prop :=
  ∀ (k : K) (r : R), db.mapRecords[k]? = some r →
    Stored.deserialize (Stored.serialize r) = some r

/-- The map is rebuilt from the keys inside the records. -/
theorem readRecords_map (entries : List (K × R))
    (h : ∀ e ∈ entries, Stored.deserialize (Stored.serialize e.2) = some e.2 ∧
      Record.cKey e.2 = e.1)
    (db : Database K R) : db.readRecords (entries.map fun e => Stored.serialize e.2) =
      some ⟨entries.foldl (fun t e => t.insert e.1 e.2) db.mapRecords⟩ := by
  induction entries generalizing db with
  | nil => rfl
  | cons e entries ih =>
    obtain ⟨hundone, hkey⟩ := h e List.mem_cons_self
    have hturn : db.readRecords ((e :: entries).map fun e => Stored.serialize e.2) =
        (db.updateRecord e.2).readRecords (entries.map fun e => Stored.serialize e.2) := by
      simp [Database.readRecords, hundone]
    rw [hturn, ih (fun e' he' => h e' (List.mem_cons_of_mem _ he')), List.foldl_cons,
      Database.updateRecord, hkey]

variable [Std.LawfulEqOrd K] [DecidableEq K] {db : Database K R}

theorem reload_of_undone (hown : db.OwnKeys) (hundone : Undone db) : db.reload = some db := by
  have hread := readRecords_map db.mapRecords.toList (fun e he => ?_) .empty
  · have hmap := OrderedMap.assignAll_toList db.mapRecords
    rw [OrderedMap.assignAll] at hmap
    rw [Database.reload, Database.writeToDisk, Database.readIntoMemory, hread]
    simp [Database.empty, hmap]
  · have hr := ExtTreeMap.mem_toList_iff_getElem?_eq_some.mp he
    exact ⟨hundone e.1 e.2 hr, hown e.1 e.2 hr⟩

/-- Whatever the file is, a record is stored under the key it carries. -/
theorem ownKeys_of_readIntoMemory {fuel : ℕ} {file : Option Bytes}
    (h : readIntoMemory fuel file = some db) : db.OwnKeys := by
  have hempty : (Database.empty : Database K R).OwnKeys := by
    intro k r hr
    simp [Database.empty] at hr
  cases file with
  | none =>
    cases h
    exact hempty
  | some content =>
    obtain ⟨s, hloop, rfl⟩ := Option.map_eq_some_iff.mp h
    let Own : InputStream UInt8 × Database K R → Prop := fun s => s.2.OwnKeys
    have hkeeps : ∀ s s', Own s → readRecord s = some s' → Own s' := by
      intro s s' hown hturn
      simp only [readRecord] at hturn
      split_ifs at hturn
      obtain ⟨cRecord, -, rfl⟩ := Option.map_eq_some_iff.mp hturn
      exact hown.updateRecord cRecord
    have hend : Own s := whileLoop_inv hkeeps hempty hloop
    exact hend

/-- What is written to the file is read back, however many records there are, and the loop ends. -/
theorem readIntoMemory_writeToDisk (hown : db.OwnKeys) (hundone : Undone db)
    (hsized : ∀ (k : K) (r : R), db.mapRecords[k]? = some r → Sized (Stored.serialize r)) :
    ∃ content, writeToDisk db = some content ∧
      ∃ turns, ∀ fuel, turns ≤ fuel → readIntoMemory fuel (some content) = some db := by
  have hfile : ∀ vData ∈ db.writeToDisk, Sized vData := by
    intro vData hvData
    obtain ⟨k, r, hr, rfl⟩ := Database.mem_writeToDisk.mp hvData
    exact hsized k r hr
  refine ⟨_, writeToDisk_of_sized hfile, db.writeToDisk.length + 1, fun fuel hfuel => ?_⟩
  have hread := readIntoMemory_flatMap hfile (reload_of_undone hown hundone)
  exact readIntoMemory_mono hfuel hread

section TwoAccounts

attribute [local instance] Target.masking

def twoAccounts : Database Bytes Account :=
  (Database.updateRecord .empty { Account.new [65] with nAccountBalance := 10 }).updateRecord
    (Account.new [66, 67])

theorem forall_twoAccounts {P : Account → Prop}
    (h₁ : P { Account.new [65] with nAccountBalance := 10 })
    (h₂ : P (Account.new [66, 67])) (k : Bytes) (r : Account)
    (hr : twoAccounts.mapRecords[k]? = some r) : P r := by
  rw [twoAccounts, Database.find_updateRecord, Database.find_updateRecord] at hr
  split_ifs at hr
  · cases hr
    exact h₂
  · cases hr
    exact h₁
  · simp [Database.empty] at hr

theorem readIntoMemory_writeToDisk_twoAccounts : ∃ content,
    writeToDisk twoAccounts = some content ∧
      ∃ turns, ∀ fuel, turns ≤ fuel → readIntoMemory fuel (some content) = some twoAccounts :=
  readIntoMemory_writeToDisk (by decide +kernel)
    (forall_twoAccounts (by decide +kernel) (by decide +kernel))
    (forall_twoAccounts ⟨by decide, by decide⟩ ⟨by decide, by decide⟩)

end TwoAccounts

end DatabaseFile

end NexusPool
