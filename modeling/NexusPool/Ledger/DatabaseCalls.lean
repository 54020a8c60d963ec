import NexusPool.Ledger.DatabaseFile
import NexusPool.Library.Run

/-!
# Sequences of database calls

Every payout reads a record by its key, changes it and stores it under the key it carries. That
writes the entry it was read from as long as records are stored under their own keys, and the
three calls that ask something leave the map as it is.
-/

namespace NexusPool

open Reactive
open Std (ExtTreeMap)

namespace DatabaseFile

/-- The calls of `LLD::Database`. `turns` bounds the loop over the file. -/
inductive Call (K R : Type)
  | getKeys
  | hasKey (cKey : K)
  | getRecord (cKey : K)
  | updateRecord (cRecord : R)
  | eraseRecord (cKey : K)
  | writeToDisk
  | readIntoMemory (turns : ℕ)

/-- What a call returns. -/
inductive Answer (K R : Type)
  | keys (vKeys : List K)
  | count (present : Bool)
  | record (cRecord : R)

/-- The calls that only ask. -/
def Call.asks {K R : Type} : Call K R → Bool
  | getKeys | hasKey _ | getRecord _ => true
  | _ => false

structure State (K R : Type) [Ord K] where
  db : Database K R
  file : Option Bytes

variable {K R : Type} [Ord K] [Std.TransOrd K] [Stored R] [Record K R]

/-- `none` where a call is undefined or its loop does not end in time. -/
def step (s : State K R) : Call K R → Option (State K R × List (Answer K R))
  | .getKeys => some (s, [.keys s.db.getKeys])
  | .hasKey cKey => some (s, [.count (s.db.hasKey cKey)])
  | .getRecord cKey =>
    let (cRecord, db) := s.db.getRecord cKey
    some ({ s with db := db }, [.record cRecord])
  | .updateRecord cRecord => some ({ s with db := s.db.updateRecord cRecord }, [])
  | .eraseRecord cKey => some ({ s with db := s.db.eraseRecord cKey }, [])
  | .writeToDisk => (writeToDisk s.db).map fun content => ({ s with file := some content }, [])
  | .readIntoMemory turns =>
    (readIntoMemory turns s.file).map fun db => ({ s with db := db }, [])

/-- No record is in memory; the file may hold anything. -/
def Empty (s : State K R) : Prop := s.db = .empty

abbrev CallRun : History (State K R) (Call K R) (Answer K R) → State K R → Prop :=
  Run step Empty

/-- Every record is stored under its own key, what asks changes nothing, and what is read under a
key carries this key. -/
def KeepsKeys (history : History (State K R) (Call K R) (Answer K R)) : Prop :=
  Throughout (fun _ o => o.after.db.OwnKeys ∧ (o.event.asks → o.after.db = o.before.db) ∧
    ∀ cKey cRecord, o.event = .getRecord cKey → .record cRecord ∈ o.outputs →
      Record.cKey cRecord = cKey) history

def AsksPresent (history : History (State K R) (Call K R) (Answer K R)) : Prop :=
  Throughout (fun _ o => ∀ cKey, o.event = .getRecord cKey → o.before.db.hasKey cKey) history

/-! ### Steps -/

variable [Std.LawfulEqOrd K] [DecidableEq K] {s s' : State K R} {e : Call K R}
  {answers : List (Answer K R)}

omit [Std.LawfulEqOrd K] [DecidableEq K] in
theorem of_getRecord {cKey : K} (h : step s (.getRecord cKey) = some (s', answers)) :
    s' = { s with db := (s.db.getRecord cKey).2 } ∧
      answers = [.record (s.db.getRecord cKey).1] := by
  simp only [step, Option.some.injEq, Prod.mk.injEq] at h
  exact ⟨h.1.symm, h.2.symm⟩

/-- A call that asks for no key that is absent. -/
theorem ownKeys_of_step (hown : s.db.OwnKeys) (hstep : step s e = some (s', answers))
    (hpresent : ∀ cKey, e = .getRecord cKey → s.db.hasKey cKey) : s'.db.OwnKeys := by
  cases e with
  | getKeys | hasKey cKey =>
    cases hstep
    exact hown
  | getRecord cKey =>
    obtain ⟨rfl, -⟩ := of_getRecord hstep
    rw [Database.getRecord_of_hasKey (hpresent cKey rfl)]
    exact hown
  | updateRecord cRecord =>
    cases hstep
    exact hown.updateRecord cRecord
  | eraseRecord cKey =>
    cases hstep
    exact hown.eraseRecord cKey
  | writeToDisk =>
    obtain ⟨content, -, heq⟩ := Option.map_eq_some_iff.mp hstep
    cases heq
    exact hown
  | readIntoMemory turns =>
    obtain ⟨db, hdb, heq⟩ := Option.map_eq_some_iff.mp hstep
    cases heq
    exact ownKeys_of_readIntoMemory hdb

/-- Where the records are under their own keys, a call keeps them there and asks without a change
exactly if it asks for no absent key. -/
theorem keeps_iff (hown : s.db.OwnKeys) (hstep : step s e = some (s', answers)) :
    (s'.db.OwnKeys ∧ (e.asks → s'.db = s.db) ∧
      ∀ cKey cRecord, e = .getRecord cKey → .record cRecord ∈ answers →
        Record.cKey cRecord = cKey) ↔
        ∀ cKey, e = .getRecord cKey → s.db.hasKey cKey := by
  constructor
  · rintro ⟨-, hasks, -⟩ cKey rfl
    obtain ⟨rfl, -⟩ := of_getRecord hstep
    exact Database.hasKey_of_getRecord_eq (hasks rfl)
  · intro hpresent
    refine ⟨ownKeys_of_step hown hstep hpresent, fun hasks => ?_, ?_⟩
    · cases e with
      | getKeys | hasKey cKey =>
        cases hstep
        rfl
      | getRecord cKey =>
        obtain ⟨rfl, -⟩ := of_getRecord hstep
        exact Database.getRecord_of_hasKey (hpresent cKey rfl)
      | _ => cases hasks
    · rintro cKey cRecord rfl hmem
      obtain ⟨r, hr⟩ := Database.hasKey_iff.mp (hpresent cKey rfl)
      obtain ⟨-, rfl⟩ := of_getRecord hstep
      rw [Database.getRecord_of_some hr, List.mem_singleton] at hmem
      cases hmem
      exact hown cKey r hr

/-! ### Runs -/

variable {history : History (State K R) (Call K R) (Answer K R)}

theorem ownKeys_of_run (h : CallRun history s) (hpresent : AsksPresent history) : s.db.OwnKeys := by
  induction h with
  | start hs =>
    intro k r hr
    rw [show _ = Database.empty from hs] at hr
    simp [Database.empty] at hr
  | next _ hstep ih => exact ownKeys_of_step (ih hpresent.2) hstep hpresent.1

/-- From an empty database on, whatever the calls and the file: the keys stay right and asking
changes nothing exactly as long as `GetRecord` is asked only for keys that are there. -/
theorem keepsKeys_iff (h : CallRun history s) : KeepsKeys history ↔ AsksPresent history := by
  induction h with
  | start => exact Iff.rfl
  | @next past s s' e answers hrun hstep ih =>
    refine Throughout.cons_congr ih fun hpast => ?_
    exact keeps_iff (ownKeys_of_run hrun (ih.mp hpast)) hstep

section Absent

attribute [local instance] Target.masking

def fresh : State Bytes Account := ⟨.empty, none⟩

theorem fresh_empty : Empty fresh := rfl

def storedAccount : List (Call Bytes Account) :=
  [.updateRecord (Account.new [65]), .getRecord [65], .hasKey [66], .writeToDisk, .readIntoMemory 2,
    .getRecord [65]]

def storedAccountRun : Option (History (State Bytes Account) (Call Bytes Account)
    (Answer Bytes Account) × State Bytes Account) :=
  trace step fresh storedAccount

theorem storedAccountRun_isSome : storedAccountRun.isSome := by decide +kernel

theorem storedAccountRun_run : CallRun (storedAccountRun.get storedAccountRun_isSome).1
    (storedAccountRun.get storedAccountRun_isSome).2 :=
  Run.of_trace fresh_empty (Option.some_get _).symm

attribute [local irreducible] storedAccountRun

theorem storedAccount_keepsKeys_iff :
    KeepsKeys (storedAccountRun.get storedAccountRun_isSome).1 ↔
      AsksPresent (storedAccountRun.get storedAccountRun_isSome).1 :=
  keepsKeys_iff storedAccountRun_run

/-- Asking an empty database for the account `A` stores the blank record under `A`. -/
theorem absent_planted : ¬ ∀ [Target] (history : History (State Bytes Account) (Call Bytes Account)
    (Answer Bytes Account)) (s : State Bytes Account), CallRun history s → KeepsKeys history := by
  intro h
  have hstart : CallRun [] fresh := .start fresh_empty
  have hkeeps := h _ _ (hstart.next (e := .getRecord [65]) rfl)
  have hkey := hkeeps.1.1 [65] (Account.new []) (by decide +kernel)
  cases hkey

end Absent

end DatabaseFile

end NexusPool
