import NexusPool.Ledger.DatabaseFile

/-!
# Loading any file

`ReadIntoMemory` asks for the position of the stream, but not whether a read has failed. After a
short read the position is -1 and every size is read as zero, so the loop goes on, to a record
without bytes. Only a file that is made of whole records is loaded.
-/

namespace NexusPool

open FileInput

namespace DatabaseFile

/-! ### The complete records of a file -/

/-- The record at the front of a file and what comes after it, if the file has all its bytes. -/
def nextRecord (content : Bytes) : Option (Bytes × Bytes) :=
  let nSize := (bytes2uint content 0).toNat
  if content.length < 4 + nSize ∨ content.length < 4 then none
  else some ((content.drop 4).take nSize, content.drop (4 + nSize))

theorem length_lt_of_nextRecord {content vData rest : Bytes}
    (h : nextRecord content = some (vData, rest)) : rest.length < content.length := by
  simp only [nextRecord] at h
  split_ifs at h with hshort
  cases h
  rw [List.length_drop]
  omega

/-- The complete records from the front of a file on. -/
def completeRecords (content : Bytes) : List Bytes :=
  match _hnext : nextRecord content with
  | none => []
  | some (vData, rest) => vData :: completeRecords rest
termination_by content.length
decreasing_by exact length_lt_of_nextRecord ‹_›

theorem nextRecord_append {vData : Bytes} (h : Sized vData) (rest : Bytes) :
    nextRecord (recordBytes vData ++ rest) = some (vData, rest) := by
  have hlength : vData.length.toUInt32.toNat = vData.length := Nat.mod_eq_of_lt h.2
  have hsize : bytes2uint (recordBytes vData ++ rest) 0 = vData.length.toUInt32 := by
    rw [recordBytes, List.append_assoc]
    exact bytes2uint_uint2bytes _ _
  have henough : ¬ ((recordBytes vData ++ rest).length < 4 + vData.length ∨
      (recordBytes vData ++ rest).length < 4) := by
    simp only [recordBytes, List.length_append, length_uint2bytes]
    omega
  have hdata : (recordBytes vData ++ rest).drop 4 = vData ++ rest := by
    rw [recordBytes, List.append_assoc]
    exact List.drop_left' rfl
  simp only [nextRecord, hsize, hlength]
  rw [if_neg henough, ← List.drop_drop, hdata, List.take_left, List.drop_left]

theorem completeRecords_nil : completeRecords [] = [] := by
  rw [completeRecords]
  rfl

theorem completeRecords_flatMap {records : List Bytes} (h : ∀ vData ∈ records, Sized vData) :
    completeRecords (records.flatMap recordBytes) = records := by
  induction records with
  | nil => exact completeRecords_nil
  | cons vData records ih =>
    have hnext := nextRecord_append (h vData List.mem_cons_self) (records.flatMap recordBytes)
    rw [List.flatMap_cons, completeRecords]
    split
    · simp_all
    · rename_i vData' rest hrest
      rw [hnext] at hrest
      cases hrest
      rw [ih fun v hv => h v (List.mem_cons_of_mem _ hv)]

/-! ### What a loop that ends has read -/

section Loop

variable {K R : Type} [Ord K] [Std.TransOrd K] [Stored R] [Record K R]

theorem exists_eq_cons_of_four_le {bytes : Bytes} (h : 4 ≤ bytes.length) :
    ∃ b₀ b₁ b₂ b₃ tail, bytes = b₀ :: b₁ :: b₂ :: b₃ :: tail := by
  match bytes, h with
  | b₀ :: b₁ :: b₂ :: b₃ :: tail, _ => exact ⟨b₀, b₁, b₂, b₃, tail, rfl⟩

theorem of_readRecord {content : Bytes} {position : ℕ} {db : Database K R}
    {s : InputStream UInt8 × Database K R}
    (h : readRecord (⟨content, position, false⟩, db) = some s) (hread : s.1.failed = false) :
    ∃ (vData rest : Bytes) (cRecord : R), content.drop position = recordBytes vData ++ rest ∧
      Sized vData ∧ Stored.deserialize vData = some cRecord ∧
      s = (⟨content, position + (recordBytes vData).length, false⟩, db.updateRecord cRecord) := by
  simp only [readRecord] at h
  cases hfirst : (InputStream.read (List.replicate 4 0) ⟨content, position, false⟩).2.failed with
  | true =>
    rw [InputStream.read_of_failed hfirst] at h
    split_ifs at h
    obtain ⟨cRecord, -, rfl⟩ := Option.map_eq_some_iff.mp h
    rw [hfirst] at hread
    cases hread
  | false =>
    obtain ⟨henough, hsize⟩ := InputStream.read_of_not_failed hfirst
    simp only [List.length_replicate] at henough hsize
    simp only [hsize] at h
    split_ifs at h with hzero
    obtain ⟨cRecord, hrecord, rfl⟩ := Option.map_eq_some_iff.mp h
    obtain ⟨hall, hdata⟩ := InputStream.read_of_not_failed hread
    simp only [List.length_replicate] at hall hdata
    simp only [hdata] at hrecord ⊢
    rw [← List.drop_drop] at hall hrecord
    obtain ⟨b₀, b₁, b₂, b₃, tail, hdrop⟩ := exists_eq_cons_of_four_le henough
    rw [hdrop] at hzero hall hrecord ⊢
    have hsame := uint2bytes_bytes2uint b₀ b₁ b₂ b₃ []
    simp only [List.take_succ_cons, List.take_zero, List.drop_succ_cons,
      List.drop_zero] at hzero hall hrecord ⊢
    generalize bytes2uint [b₀, b₁, b₂, b₃] 0 = nSize at *
    have hlength : (tail.take nSize.toNat).length = nSize.toNat := by
      rw [List.length_take, Nat.min_eq_left hall]
    have hbytes : recordBytes (tail.take nSize.toNat) =
        b₀ :: b₁ :: b₂ :: b₃ :: tail.take nSize.toNat := by
      rw [recordBytes, hlength, Nat.toUInt32, UInt32.ofNat_toNat, hsame]
      rfl
    have hpositive : nSize.toNat ≠ 0 := fun hnone => hzero (UInt32.toNat_inj.mp hnone)
    refine ⟨tail.take nSize.toNat, tail.drop nSize.toNat, cRecord, ?_, ⟨?_, ?_⟩, hrecord, ?_⟩
    · rw [hbytes]
      simp
    · omega
    · rw [hlength]
      exact nSize.toNat_lt
    · rw [hbytes]
      simp only [List.length_cons, hlength]
      congr 2
      omega

/-- Once a read has failed, the next turn finds the size zero. -/
theorem readRecords_of_failed {f : InputStream UInt8} (hfailed : f.failed = true)
    (db : Database K R) (nLength fuel : ℕ) : readRecords nLength fuel (f, db) = none := by
  cases fuel with
  | zero => rfl
  | succ fuel =>
    have hcond : decide (f.tellg < nLength) = true := by
      rw [InputStream.tellg, hfailed]
      simp
      omega
    have hturn : readRecord (f, db) = none := by
      simp only [readRecord, InputStream.read, hfailed, if_true]
      rfl
    rw [readRecords, whileLoop, if_pos hcond, hturn]
    rfl

/-- From a position on, a loop that ends has read whole records up to the end of the file. -/
theorem records_of_readRecords (fuel : ℕ) {content : Bytes} {position : ℕ} {db : Database K R}
    {s : InputStream UInt8 × Database K R}
    (h : readRecords content.length fuel (⟨content, position, false⟩, db) = some s) :
    ∃ records : List Bytes, content.drop position = records.flatMap recordBytes ∧
      ∀ vData ∈ records, Sized vData ∧ ∃ cRecord : R, Stored.deserialize vData = some cRecord := by
  induction fuel generalizing position db with
  | zero => cases h
  | succ fuel ih =>
    rw [readRecords, whileLoop] at h
    split_ifs at h with hcond
    · obtain ⟨⟨f, db'⟩, hturn, hrest⟩ := Option.bind_eq_some_iff.mp h
      cases hfailed : f.failed with
      | true =>
        have hnone := readRecords_of_failed hfailed db' content.length fuel
        rw [readRecords, hrest] at hnone
        cases hnone
      | false =>
        obtain ⟨vData, rest, cRecord, hdrop, hsized, hrecord, heq⟩ := of_readRecord hturn hfailed
        cases heq
        obtain ⟨records, hrecords, hall⟩ := ih hrest
        refine ⟨vData :: records, ?_, ?_⟩
        · rw [← List.drop_drop, hdrop, List.drop_left] at hrecords
          rw [hdrop, hrecords, List.flatMap_cons]
        · intro v hv
          rcases List.mem_cons.mp hv with rfl | hv
          · exact ⟨hsized, cRecord, hrecord⟩
          · exact hall v hv
    · refine ⟨[], ?_, by simp⟩
      have hend : content.length ≤ position := by
        simpa [InputStream.tellg] using hcond
      exact List.drop_eq_nil_of_le hend

/-- Loading from some point on needs no more turns, and gives what the complete records make one
after the other. -/
def LoadsSafely (K R : Type) [Ord K] [Std.TransOrd K] [Stored R] [Record K R] (content : Bytes) :
    Prop :=
  ∃ (turns : ℕ) (db : Database K R),
    (∀ fuel, turns ≤ fuel → readIntoMemory fuel (some content) = some db) ∧
      Database.readIntoMemory (completeRecords content) = some db

theorem loadsSafely_iff_records (content : Bytes) : LoadsSafely K R content ↔
    ∃ records : List Bytes, content = records.flatMap recordBytes ∧
      ∀ vData ∈ records, Sized vData ∧ ∃ cRecord : R, Stored.deserialize vData = some cRecord := by
  constructor
  · rintro ⟨turns, db, hloads, -⟩
    obtain ⟨s, hloop, -⟩ := Option.map_eq_some_iff.mp (hloads turns le_rfl)
    exact records_of_readRecords turns hloop
  · rintro ⟨records, rfl, hall⟩
    have hsized : ∀ vData ∈ records, Sized vData := fun vData hvData => (hall vData hvData).1
    obtain ⟨db, hread⟩ := Database.exists_readRecords (fun vData hvData => (hall vData hvData).2)
      (.empty : Database K R)
    refine ⟨records.length + 1, db, fun fuel hfuel => ?_, ?_⟩
    · exact readIntoMemory_mono hfuel (readIntoMemory_flatMap hsized hread)
    · rw [completeRecords_flatMap hsized]
      exact hread

end Loop

/-! ### The account database -/

section Accounts

variable [Target]

/-- The whole file is records of at least the 20 bytes in front of an account's key. -/
def WholeAccounts (content : Bytes) : Prop :=
  ∃ records : List Bytes, content = records.flatMap recordBytes ∧
    ∀ vData ∈ records, 20 ≤ vData.length ∧ vData.length < 2 ^ 32

/-- Whatever the file is, loading the accounts is safe exactly if the file is whole records from
the first byte to the last. -/
theorem loadsSafely_iff (content : Bytes) :
    LoadsSafely Bytes Account content ↔ WholeAccounts content := by
  rw [loadsSafely_iff_records]
  refine exists_congr fun records => and_congr_right fun _ => forall_congr' fun vData =>
    forall_congr' fun _ => ?_
  constructor
  · rintro ⟨⟨-, hlt⟩, r, hr⟩
    refine ⟨?_, hlt⟩
    by_contra hshort
    have hnone : Account.deserialize vData = none := if_pos (Nat.not_le.mp hshort)
    rw [show Account.deserialize vData = some r from hr] at hnone
    cases hnone
  · rintro ⟨hlong, hlt⟩
    refine ⟨⟨by omega, hlt⟩, _, if_neg (Nat.not_lt.mpr hlong)⟩

end Accounts

section Truncated

attribute [local instance] Target.masking

/-- The first three bytes of the file of a database with one account, as a crash may leave them. -/
theorem truncated_unsafe : ¬ ∀ [Target] (content : Bytes), LoadsSafely Bytes Account content := by
  intro h
  have hprefix : (writeToDisk (Database.updateRecord (.empty : Database Bytes Account)
      (Account.new [65]))).map (List.take 3) = some [0, 0, 0] := by decide +kernel
  obtain ⟨content, -, hcontent⟩ := Option.map_eq_some_iff.mp hprefix
  obtain ⟨turns, db, hloads, -⟩ := h (content.take 3)
  rw [hcontent] at hloads
  have hnone : readIntoMemory (turns + 1) (some [0, 0, 0]) =
      (none : Option (Database Bytes Account)) := rfl
  rw [hloads (turns + 1) (Nat.le_succ turns)] at hnone
  cases hnone

end Truncated

end DatabaseFile

end NexusPool
