import NexusPool.Ledger.DatabaseCalls

/-!
# Blank records under foreign keys

`GetRecord` on an absent key leaves the blank record there. A payout or refund that goes on with
it stores the result under the key of the blank record, over what is there. So in a database that
was built by its own calls an entry is a record under its own key or a blank one, and only the
account with the empty key can lose what it holds to the others.
-/

namespace NexusPool

open Reactive
open Std (ExtTreeMap)

namespace Database

variable {K R : Type} [Ord K] [Std.TransOrd K] [Std.LawfulEqOrd K] [DecidableEq K] [Record K R]

/-- A key has a record that carries it. -/
def filed (db : Database K R) (k : K) : Bool :=
  (db.mapRecords[k]?).any fun r => decide (Record.cKey r = k)

variable {db : Database K R} {change : R → R} {k a : K}

omit [Std.LawfulEqOrd K] in
theorem filed_iff : db.filed k ↔ ∃ r, db.mapRecords[k]? = some r ∧ Record.cKey r = k := by
  cases h : db.mapRecords[k]? <;> simp [filed, h]

omit [Std.LawfulEqOrd K] in
theorem filed_of_some {r : R} (hr : db.mapRecords[k]? = some r) :
    db.filed k ↔ Record.cKey r = k := by
  simp [filed, hr]

omit [Std.LawfulEqOrd K] in
theorem OwnKeys.filed_iff_hasKey (h : db.OwnKeys) : db.filed k ↔ db.hasKey k := by
  rw [filed_iff, hasKey_iff]
  constructor
  · rintro ⟨r, hr, -⟩
    exact ⟨r, hr⟩
  · rintro ⟨r, hr⟩
    exact ⟨r, hr, h k r hr⟩

omit [Std.LawfulEqOrd K] in
/-- A key without a record of its own has none or the blank one. -/
theorem WellKeyed.getRecord_of_unfiled (h : db.WellKeyed) (hk : ¬ db.filed k) :
    (db.getRecord k).1 = Record.blank := by
  cases hr : db.mapRecords[k]? with
  | none => rw [getRecord_of_none hr]
  | some r =>
    rw [getRecord_of_some hr]
    exact (h k r hr).resolve_left ((filed_of_some hr).not.mp hk)

omit [Std.LawfulEqOrd K] in
/-- The blank record is at home under its key. -/
theorem WellKeyed.filed_blank_of_some (h : db.WellKeyed) {r : R}
    (hr : db.mapRecords[Record.cKey (Record.blank : R)]? = some r) :
    db.filed (Record.cKey (Record.blank : R)) := by
  rw [filed_of_some hr]
  rcases h _ r hr with hown | rfl
  · exact hown
  · rfl

/-! ### One read-modify-write -/

theorem WellKeyed.modifyRecord (h : db.WellKeyed) : (db.modifyRecord k change).WellKeyed :=
  (h.getRecord k).updateRecord _

theorem find_modifyRecord_of_filed (hchange : ∀ r, Record.cKey (change r) = Record.cKey r) {r : R}
    (hr : db.mapRecords[k]? = some r) (hkey : Record.cKey r = k) :
    (db.modifyRecord k change).mapRecords[a]? =
      if k = a then some (change r) else db.mapRecords[a]? := by
  rw [find_modifyRecord_of_some hr, hchange, hkey]

theorem WellKeyed.find_modifyRecord_of_unfiled (h : db.WellKeyed)
    (hchange : ∀ r, Record.cKey (change r) = Record.cKey r) (hk : ¬ db.filed k) :
    (db.modifyRecord k change).mapRecords[a]? =
      if Record.cKey (Record.blank : R) = a then some (change Record.blank)
      else if k = a then some Record.blank else db.mapRecords[a]? := by
  have hblank := h.getRecord_of_unfiled hk
  rw [Database.modifyRecord, find_updateRecord, hblank, hchange, find_getRecord, hblank]

/-- Away from the blank key, a read-modify-write decides for no key whether it has a record of
its own. -/
theorem WellKeyed.filed_modifyRecord (h : db.WellKeyed)
    (hchange : ∀ r, Record.cKey (change r) = Record.cKey r)
    (ha : a ≠ Record.cKey (Record.blank : R)) :
    (db.modifyRecord k change).filed a = db.filed a := by
  by_cases hk : db.filed k
  · obtain ⟨r, hr, hkey⟩ := filed_iff.mp hk
    simp only [filed, find_modifyRecord_of_filed hchange hr hkey]
    split_ifs with hka
    · subst hka
      simp [hr, hchange]
    · rfl
  · simp only [filed, h.find_modifyRecord_of_unfiled hchange hk, if_neg ha.symm]
    split_ifs with hka
    · subst hka
      have hunfiled : db.filed k = false := by simpa using hk
      rw [filed] at hunfiled
      simp [hunfiled, ha.symm]
    · rfl

/-! ### One for each entry of a map -/

section ModifyAll

variable {V : Type} {changes : V → R → R}
  (hchanges : ∀ v r, Record.cKey (changes v r) = Record.cKey r)

theorem WellKeyed.modifyAll (h : db.WellKeyed) (changes : V → R → R) (amounts : List (K × V)) :
    (db.modifyAll changes amounts).WellKeyed := by
  have hturn : ∀ e ∈ amounts, ∀ db : Database K R, db.WellKeyed →
      (db.modifyRecord e.1 (changes e.2)).WellKeyed := fun _ _ _ h => h.modifyRecord
  exact Loop.foldl_inv hturn h

include hchanges

theorem WellKeyed.filed_modifyAll (h : db.WellKeyed) (amounts : List (K × V))
    (ha : a ≠ Record.cKey (Record.blank : R)) :
    (db.modifyAll changes amounts).filed a = db.filed a := by
  have hturn : ∀ e ∈ amounts, ∀ db : Database K R, db.WellKeyed →
      (db.modifyRecord e.1 (changes e.2)).WellKeyed := fun _ _ _ h => h.modifyRecord
  exact Loop.foldl_frame (fun db : Database K R => db.filed a) hturn
    (fun e _ _ h => h.filed_modifyRecord (hchanges e.2) ha) h

theorem WellKeyed.find_modifyAll_of_filed (h : db.WellKeyed) (t : ExtTreeMap K V)
    (ha : a ≠ Record.cKey (Record.blank : R)) {r : R} (hr : db.mapRecords[a]? = some r)
    (hkey : Record.cKey r = a) : (db.modifyAll changes t.toList).mapRecords[a]? =
      some (match t[a]? with
        | some v => changes v r
        | none => r) := by
  let Inv (db' : Database K R) : Prop := db'.WellKeyed ∧ db'.filed a
  have hinv : ∀ e ∈ t.toList, ∀ db', Inv db' → Inv (db'.modifyRecord e.1 (changes e.2)) := by
    rintro e - db' ⟨h', hfiled⟩
    exact ⟨h'.modifyRecord, (h'.filed_modifyRecord (hchanges e.2) ha).trans hfiled⟩
  have hturn : ∀ e ∈ t.toList, ∀ db', Inv db' →
      (db'.modifyRecord e.1 (changes e.2)).mapRecords[a]? =
        if e.1 = a then db'.mapRecords[a]?.map (changes e.2) else db'.mapRecords[a]? := by
    rintro e - db' ⟨h', hfiled⟩
    by_cases he : db'.filed e.1
    · obtain ⟨q, hq, hqkey⟩ := filed_iff.mp he
      rw [find_modifyRecord_of_filed (hchanges e.2) hq hqkey]
      split_ifs with hea
      · rw [← hea, hq, Option.map_some]
      · rfl
    · have hea : e.1 ≠ a := by
        rintro rfl
        exact he hfiled
      rw [h'.find_modifyRecord_of_unfiled (hchanges e.2) he, if_neg ha.symm, if_neg hea, if_neg hea]
  have hfiled : Inv db := ⟨h, filed_iff.mpr ⟨r, hr, hkey⟩⟩
  rw [find_modifyAll_of_turn t hinv hturn hfiled, hr]
  cases t[a]? <;> rfl

theorem WellKeyed.find_modifyAll_of_foreign (h : db.WellKeyed) (amounts : List (K × V))
    (ha : a ≠ Record.cKey (Record.blank : R)) (hr : db.mapRecords[a]? = some Record.blank) :
    (db.modifyAll changes amounts).mapRecords[a]? = some Record.blank := by
  let Inv (db' : Database K R) : Prop := db'.WellKeyed ∧ db'.mapRecords[a]? = some Record.blank
  have hinv : ∀ e ∈ amounts, ∀ db', Inv db' → Inv (db'.modifyRecord e.1 (changes e.2)) := by
    rintro e - db' ⟨h', hblank⟩
    refine ⟨h'.modifyRecord, ?_⟩
    by_cases he : db'.filed e.1
    · obtain ⟨q, hq, hqkey⟩ := filed_iff.mp he
      have hea : e.1 ≠ a := by
        rintro rfl
        rw [hblank] at hq
        cases hq
        exact ha hqkey.symm
      rw [find_modifyRecord_of_filed (hchanges e.2) hq hqkey, if_neg hea, hblank]
    · rw [h'.find_modifyRecord_of_unfiled (hchanges e.2) he, if_neg ha.symm]
      split_ifs
      · rfl
      · exact hblank
  exact (Loop.foldl_inv hinv ⟨h, hr⟩).2

/-- What the turn of an entry makes of the record under the blank key. -/
def blankTurn (db : Database K R) (changes : V → R → R) (r : R) (e : K × V) : R :=
  if e.1 = Record.cKey (Record.blank : R) then changes e.2 r
  else if db.filed e.1 then r
  else changes e.2 Record.blank

theorem WellKeyed.find_modifyAll_blankKey (h : db.WellKeyed) (amounts : List (K × V)) {r : R}
    (hr : db.mapRecords[Record.cKey (Record.blank : R)]? = some r) :
    (db.modifyAll changes amounts).mapRecords[Record.cKey (Record.blank : R)]? =
      some (amounts.foldl (db.blankTurn changes) r) := by
  induction amounts generalizing db r with
  | nil => exact hr
  | cons e amounts ih =>
    have hturn : (db.modifyRecord e.1 (changes e.2)).mapRecords[Record.cKey (Record.blank : R)]? =
        some (db.blankTurn changes r e) := by
      by_cases hfiled : db.filed e.1
      · obtain ⟨q, hq, hqkey⟩ := filed_iff.mp hfiled
        rw [find_modifyRecord_of_filed (hchanges e.2) hq hqkey, blankTurn]
        split_ifs with he
        · rw [he, hr] at hq
          rw [Option.some.inj hq]
        · exact hr
      · have he : e.1 ≠ Record.cKey (Record.blank : R) := by
          intro he
          exact hfiled (he ▸ h.filed_blank_of_some hr)
        rw [h.find_modifyRecord_of_unfiled (hchanges e.2) hfiled, if_pos rfl, blankTurn, if_neg he,
          if_neg hfiled]
    have hsame : (db.modifyRecord e.1 (changes e.2)).blankTurn changes = db.blankTurn changes := by
      funext r' e'
      unfold blankTurn
      split_ifs with he h₁ h₂ h₂
      · rfl
      · rfl
      · rw [h.filed_modifyRecord (hchanges e.2) he] at h₁
        exact absurd h₁ h₂
      · rw [h.filed_modifyRecord (hchanges e.2) he] at h₁
        exact absurd h₂ h₁
      · rfl
    have hrest := ih h.modifyRecord hturn
    rw [hsame] at hrest
    exact hrest

end ModifyAll

/-! What the entries leave under the blank key, which comes first in the order of the keys. -/

section BlankTurn

variable {V : Type} {changes : V → R → R}

/-- The last entry of a key that has no record of its own. -/
def lastForeign (db : Database K R) (t : ExtTreeMap K V) : Option (K × V) :=
  t.toList.reverse.find? fun e => !db.filed e.1

omit [Std.LawfulEqOrd K] in
/-- An entry of a foreign key is followed by none of the blank key. -/
theorem foldl_blankTurn_of_foreign
    (hleast : ∀ k : K, compare k (Record.cKey (Record.blank : R)) ≠ .lt)
    {t : ExtTreeMap K V} {e : K × V} (hlast : db.lastForeign t = some e)
    (hblank : db.filed (Record.cKey (Record.blank : R))) (r : R) :
    t.toList.foldl (db.blankTurn changes) r = changes e.2 Record.blank := by
  obtain ⟨he, front, back, hlist, hbehind⟩ := OrderedMap.find?_reverse_eq_some hlast
  have hfiled : ¬ db.filed e.1 := by simpa using he
  have hne : e.1 ≠ Record.cKey (Record.blank : R) := fun heq => hfiled (heq ▸ hblank)
  have hback : ∀ x ∈ back, ∀ r', db.blankTurn changes r' x = r' := by
    intro x hx r'
    obtain ⟨hforeign, hlt⟩ := hbehind x hx
    have hxne : x.1 ≠ Record.cKey (Record.blank : R) := by
      intro heq
      rw [heq] at hlt
      exact hleast e.1 hlt
    have hxfiled : db.filed x.1 := by simpa using hforeign
    rw [blankTurn, if_neg hxne, if_pos hxfiled]
  rw [hlist, List.foldl_append, List.foldl_cons, Loop.foldl_fixed hback, blankTurn, if_neg hne,
    if_neg hfiled]

/-- Without foreign keys, only the blank key's own amount counts. -/
theorem foldl_blankTurn_of_none {t : ExtTreeMap K V} (hlast : db.lastForeign t = none) (r : R) :
    t.toList.foldl (db.blankTurn changes) r =
      match t[Record.cKey (Record.blank : R)]? with
      | some v => changes v r
      | none => r := by
  have hturn : ∀ e ∈ t.toList, e.1 ≠ Record.cKey (Record.blank : R) →
      ∀ r', db.blankTurn changes r' e = r' := by
    intro e he hne r'
    have hfiled : db.filed e.1 := by
      simpa using List.find?_eq_none.mp hlast e (List.mem_reverse.mpr he)
    rw [blankTurn, if_neg hne, if_pos hfiled]
  have hother : ∀ e ∈ t.toList, t[e.1]? = some e.2 :=
    fun e he => ExtTreeMap.mem_toList_iff_getElem?_eq_some.mp he
  cases hv : t[Record.cKey (Record.blank : R)]? with
  | some v =>
    have hmem := ExtTreeMap.mem_toList_iff_getElem?_eq_some.mpr hv
    obtain ⟨front, back, hlist⟩ := List.append_of_mem hmem
    have hnodup := OrderedMap.nodup_toList t
    rw [hlist] at hnodup
    obtain ⟨-, hback, hdisjoint⟩ := List.nodup_append.mp hnodup
    have hkeep : ∀ e ∈ t.toList, e ≠ (Record.cKey (Record.blank : R), v) →
        ∀ r', db.blankTurn changes r' e = r' := by
      intro e he hne
      refine hturn e he fun heq => hne (Prod.ext heq ?_)
      exact Option.some.inj ((hother e he).symm.trans (heq ▸ hv))
    have hfront := @Loop.foldl_fixed _ _ (db.blankTurn changes) front fun e he =>
      hkeep e (hlist ▸ List.mem_append_left _ he) (hdisjoint e he _ List.mem_cons_self)
    have hrest := @Loop.foldl_fixed _ _ (db.blankTurn changes) back fun e he =>
      hkeep e (hlist ▸ List.mem_append_right _ (List.mem_cons_of_mem _ he))
        fun heq => (List.nodup_cons.mp hback).1 (heq ▸ he)
    rw [hlist, List.foldl_append, List.foldl_cons, hfront, hrest, blankTurn, if_pos rfl]
  | none =>
    apply Loop.foldl_fixed
    intro e he
    refine hturn e he fun heq => ?_
    have hnone := hother e he
    rw [heq, hv] at hnone
    cases hnone

end BlankTurn

end Database

/-! ### Databases that calls have built -/

namespace DatabaseFile

variable {K R : Type} [Ord K] [Std.TransOrd K] [Stored R] [Record K R] [Std.LawfulEqOrd K]
  [DecidableEq K] {history : History (State K R) (Call K R) (Answer K R)} {s : State K R}

theorem wellKeyed_of_run (h : CallRun history s) : s.db.WellKeyed := by
  refine @Run.invariant _ _ _ step Empty (fun s : State K R => s.db.WellKeyed) ?_ ?_ _ _ h
  · intro s hs k r hr
    rw [show _ = Database.empty from hs] at hr
    simp [Database.empty] at hr
  · intro s e s' answers hkeyed hstep
    cases e with
    | getKeys | hasKey cKey =>
      cases hstep
      exact hkeyed
    | getRecord cKey =>
      obtain ⟨rfl, -⟩ := of_getRecord hstep
      exact hkeyed.getRecord cKey
    | updateRecord cRecord =>
      cases hstep
      exact hkeyed.updateRecord cRecord
    | eraseRecord cKey =>
      cases hstep
      exact fun k r hr => hkeyed k r (Database.find_of_eraseRecord hr)
    | writeToDisk =>
      obtain ⟨content, -, heq⟩ := Option.map_eq_some_iff.mp hstep
      cases heq
      exact hkeyed
    | readIntoMemory turns =>
      obtain ⟨db, hdb, heq⟩ := Option.map_eq_some_iff.mp hstep
      cases heq
      exact (ownKeys_of_readIntoMemory hdb).wellKeyed

end DatabaseFile

end NexusPool
