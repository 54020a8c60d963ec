import NexusPool.Library.Loops
import NexusPool.Library.OrderedMap

/-!
# The in-memory record database

`LLD::Database` keeps one map from key to record. Each method holds `DATABASE_MUTEX`
for its whole length, so each is one atomic step here. `GetRecord` goes through
`operator[]` and therefore inserts a blank record under a key that has none.
-/

namespace NexusPool

open Std (ExtTreeMap)

/-- What the database needs of a record type: the key it carries and the blank record. -/
class Record (K : outParam Type) (R : Type) where
  cKey : R → K
  blank : R

structure Database (K R : Type) [Ord K] where
  mapRecords : ExtTreeMap K R

namespace Database

variable {K R : Type} [Ord K]

@[ext] theorem ext {db db' : Database K R} (h : db.mapRecords = db'.mapRecords) : db = db' := by
  cases db
  cases db'
  cases h
  rfl

def empty : Database K R := ⟨∅⟩

variable [Std.TransOrd K]

def getKeys (db : Database K R) : List K := db.mapRecords.keys

def hasKey (db : Database K R) (cKey : K) : Bool := db.mapRecords.contains cKey

def eraseRecord (db : Database K R) (cKey : K) : Database K R := ⟨db.mapRecords.erase cKey⟩

theorem nodup_getKeys (db : Database K R) : db.getKeys.Nodup := db.mapRecords.nodup_keys

theorem hasKey_iff {db : Database K R} {k : K} :
    db.hasKey k = true ↔ ∃ r, db.mapRecords[k]? = some r := by
  rw [hasKey, ExtTreeMap.contains_eq_isSome_getElem?, Option.isSome_iff_exists]

theorem hasKey_eq_isSome (db : Database K R) (k : K) :
    db.hasKey k = (db.mapRecords[k]?).isSome := by
  rw [hasKey, ExtTreeMap.contains_eq_isSome_getElem?]

theorem mem_getKeys [Std.LawfulEqOrd K] {db : Database K R} {k : K} :
    k ∈ db.getKeys ↔ ∃ r, db.mapRecords[k]? = some r := by
  rw [getKeys, ExtTreeMap.mem_keys, ExtTreeMap.mem_iff_isSome_getElem?, Option.isSome_iff_exists]

/-- The keys are listed in order, so which ones there are decides the list. -/
theorem getKeys_congr [Std.LawfulEqOrd K] {db db' : Database K R}
    (h : ∀ k, db.hasKey k = db'.hasKey k) : db.getKeys = db'.getKeys := by
  have hperm : db.getKeys.Perm db'.getKeys := by
    rw [List.perm_ext_iff_of_nodup db.nodup_getKeys db'.nodup_getKeys]
    intro k
    rw [mem_getKeys, mem_getKeys, ← hasKey_iff, ← hasKey_iff, h k]
  refine hperm.eq_of_pairwise (fun a b _ _ hab hba => ?_) db.mapRecords.ordered_keys
    db'.mapRecords.ordered_keys
  rw [Std.OrientedOrd.eq_swap (a := b), hab] at hba
  cases hba

variable [Record K R]

def getRecord (db : Database K R) (cKey : K) : R × Database K R :=
  match db.mapRecords[cKey]? with
  | some cRecord => (cRecord, db)
  | none => (Record.blank, ⟨db.mapRecords.insert cKey Record.blank⟩)

/-- Stores a record under the key it carries. -/
def updateRecord (db : Database K R) (cRecord : R) : Database K R :=
  ⟨db.mapRecords.insert (Record.cKey cRecord) cRecord⟩

/-- Reads a record and stores what `change` makes of it. -/
def modifyRecord (db : Database K R) (cKey : K) (change : R → R) : Database K R :=
  let (cRecord, db) := db.getRecord cKey
  db.updateRecord (change cRecord)

/-- Every record is stored under its own key. -/
def OwnKeys (db : Database K R) : Prop :=
  ∀ (k : K) (r : R), db.mapRecords[k]? = some r → Record.cKey r = k

theorem getRecord_of_some {db : Database K R} {k : K} {r : R} (h : db.mapRecords[k]? = some r) :
    db.getRecord k = (r, db) := by
  simp [getRecord, h]

theorem getRecord_of_none {db : Database K R} {k : K} (h : db.mapRecords[k]? = none) :
    db.getRecord k = (Record.blank, ⟨db.mapRecords.insert k Record.blank⟩) := by
  simp [getRecord, h]

theorem getRecord_of_hasKey {db : Database K R} {k : K} (h : db.hasKey k) :
    (db.getRecord k).2 = db := by
  obtain ⟨r, hr⟩ := hasKey_iff.mp h
  rw [getRecord_of_some hr]

theorem getRecord_congr {db db' : Database K R} {k : K}
    (h : db.mapRecords[k]? = db'.mapRecords[k]?) :
    (db.getRecord k).1 = (db'.getRecord k).1 := by
  cases hr : db.mapRecords[k]? with
  | some r => rw [getRecord_of_some hr, getRecord_of_some (h ▸ hr)]
  | none => rw [getRecord_of_none hr, getRecord_of_none (h ▸ hr)]

variable [Std.LawfulEqOrd K] [DecidableEq K]

omit [DecidableEq K] in
theorem getRecord_getRecord (db : Database K R) (k : K) :
    (db.getRecord k).2.getRecord k = db.getRecord k := by
  cases h : db.mapRecords[k]? with
  | some r => rw [getRecord_of_some h, getRecord_of_some h]
  | none =>
    rw [getRecord_of_none h]
    exact getRecord_of_some (by simp)

theorem find_getRecord (db : Database K R) (k a : K) :
    (db.getRecord k).2.mapRecords[a]? =
      if k = a then some (db.getRecord k).1 else db.mapRecords[a]? := by
  cases h : db.mapRecords[k]? with
  | some r =>
    rw [getRecord_of_some h]
    split_ifs with ha
    · rw [← ha, h]
    · rfl
  | none =>
    rw [getRecord_of_none h]
    exact OrderedMap.getElem?_insert db.mapRecords k a _

theorem hasKey_getRecord (db : Database K R) (k a : K) :
    (db.getRecord k).2.hasKey a = (decide (k = a) || db.hasKey a) := by
  rw [hasKey_eq_isSome, hasKey_eq_isSome, find_getRecord]
  by_cases h : k = a <;> simp [h]

theorem hasKey_of_getRecord_eq {db : Database K R} {k : K} (h : (db.getRecord k).2 = db) :
    db.hasKey k := by
  rw [← h, hasKey_getRecord]
  simp

omit [Record K R] [DecidableEq K] in
theorem forall_toList_iff {P : K → R → Prop} {db : Database K R} :
    (∀ e ∈ db.mapRecords.toList, P e.1 e.2) ↔
      ∀ (k : K) (r : R), db.mapRecords[k]? = some r → P k r := by
  constructor
  · intro h k r hr
    exact h (k, r) (ExtTreeMap.mem_toList_iff_getElem?_eq_some.mpr hr)
  · intro h e he
    exact h e.1 e.2 (ExtTreeMap.mem_toList_iff_getElem?_eq_some.mp he)

instance (db : Database K R) : Decidable db.OwnKeys := decidable_of_iff _ forall_toList_iff

theorem find_updateRecord (db : Database K R) (r : R) (k : K) :
    (db.updateRecord r).mapRecords[k]? = if Record.cKey r = k then some r else db.mapRecords[k]? :=
  OrderedMap.getElem?_insert db.mapRecords (Record.cKey r) k r

theorem hasKey_updateRecord (db : Database K R) (r : R) (k : K) :
    (db.updateRecord r).hasKey k = (decide (Record.cKey r = k) || db.hasKey k) := by
  rw [hasKey_eq_isSome, hasKey_eq_isSome, find_updateRecord]
  by_cases h : Record.cKey r = k <;> simp [h]

theorem OwnKeys.updateRecord {db : Database K R} (h : db.OwnKeys) (r : R) :
    (db.updateRecord r).OwnKeys := by
  intro k r' hk
  rw [find_updateRecord] at hk
  split_ifs at hk with hkey
  · cases hk
    exact hkey
  · exact h k r' hk

omit [Record K R] [Std.LawfulEqOrd K] [DecidableEq K] in
theorem find_of_eraseRecord {db : Database K R} {cKey k : K} {r : R}
    (h : (db.eraseRecord cKey).mapRecords[k]? = some r) : db.mapRecords[k]? = some r := by
  simp only [eraseRecord, ExtTreeMap.getElem?_erase] at h
  split_ifs at h
  exact h

omit [Std.LawfulEqOrd K] [DecidableEq K] in
theorem OwnKeys.eraseRecord {db : Database K R} (h : db.OwnKeys) (cKey : K) :
    (db.eraseRecord cKey).OwnKeys :=
  fun k r hr => h k r (find_of_eraseRecord hr)

theorem updateRecord_updateRecord (db : Database K R) {r r' : R}
    (h : Record.cKey r = Record.cKey r') :
    (db.updateRecord r).updateRecord r' = db.updateRecord r' := by
  ext1
  apply ExtTreeMap.ext_getElem?
  intro a
  simp only [find_updateRecord, h]
  split_ifs <;> rfl

theorem updateRecord_self {db : Database K R} {r : R}
    (h : db.mapRecords[Record.cKey r]? = some r) : db.updateRecord r = db := by
  ext1
  apply ExtTreeMap.ext_getElem?
  intro a
  rw [find_updateRecord]
  split_ifs with ha
  · rw [← ha, h]
  · rfl

/-! ### Modifying records -/

variable {db : Database K R} {change : R → R} {k : K}

theorem find_modifyRecord_of_some {r : R} (h : db.mapRecords[k]? = some r) (a : K) :
    (db.modifyRecord k change).mapRecords[a]? =
      if Record.cKey (change r) = a then some (change r) else db.mapRecords[a]? := by
  rw [modifyRecord, getRecord_of_some h, find_updateRecord]

/-- Modifying a key without a record leaves the blank record there and stores the modified
one under the key of the blank record. -/
theorem find_modifyRecord_of_none (h : db.mapRecords[k]? = none) (a : K) :
    (db.modifyRecord k change).mapRecords[a]? =
      if Record.cKey (change Record.blank) = a then some (change Record.blank)
      else if k = a then some Record.blank else db.mapRecords[a]? := by
  rw [modifyRecord, getRecord_of_none h, find_updateRecord, OrderedMap.getElem?_insert]

omit [Std.LawfulEqOrd K] [DecidableEq K] in
theorem modifyRecord_of_some {r : R} (h : db.mapRecords[k]? = some r) :
    db.modifyRecord k change = db.updateRecord (change r) := by
  rw [modifyRecord, getRecord_of_some h]

/-- Nothing is modified if the modified record is what its key has. -/
theorem modifyRecord_eq_self_iff : db.modifyRecord k change = db ↔ ∃ r,
    db.mapRecords[k]? = some r ∧
      db.mapRecords[Record.cKey (change r)]? = some (change r) := by
  constructor
  · intro h
    cases hr : db.mapRecords[k]? with
    | some r =>
      refine ⟨r, rfl, ?_⟩
      have hfind : (db.modifyRecord k change).mapRecords[Record.cKey (change r)]? = _ :=
        find_modifyRecord_of_some hr _
      rwa [h, if_pos rfl] at hfind
    | none =>
      have hfind : (db.modifyRecord k change).mapRecords[k]? = _ := find_modifyRecord_of_none hr k
      rw [h, hr] at hfind
      split_ifs at hfind with hblank hself
      exact absurd rfl hself
  · rintro ⟨r, hr, hself⟩
    rw [modifyRecord_of_some hr, updateRecord_self hself]

theorem OwnKeys.modifyRecord (hown : db.OwnKeys) (hk : db.hasKey k) :
    (db.modifyRecord k change).OwnKeys := by
  obtain ⟨r, hr⟩ := hasKey_iff.mp hk
  rw [modifyRecord_of_some hr]
  exact hown.updateRecord _

theorem OwnKeys.find_modifyRecord (hchange : ∀ r, Record.cKey (change r) = Record.cKey r)
    (hown : db.OwnKeys) (hk : db.hasKey k) (a : K) : (db.modifyRecord k change).mapRecords[a]? =
      if k = a then db.mapRecords[a]?.map change else db.mapRecords[a]? := by
  obtain ⟨r, hr⟩ := hasKey_iff.mp hk
  rw [find_modifyRecord_of_some hr, hchange, hown k r hr]
  split_ifs with ha
  · rw [← ha, hr, Option.map_some]
  · rfl

theorem OwnKeys.hasKey_modifyRecord (hchange : ∀ r, Record.cKey (change r) = Record.cKey r)
    (hown : db.OwnKeys) (hk : db.hasKey k) (a : K) :
    (db.modifyRecord k change).hasKey a = db.hasKey a := by
  rw [Bool.eq_iff_iff, hasKey_iff, hasKey_iff, hown.find_modifyRecord hchange hk]
  split_ifs <;> simp

/-! ### Modifying every key of a map -/

section ModifyAll

variable {V : Type} {changes : V → R → R}

/-- The loop that reads, changes and stores the record of each key of a list. -/
def modifyAll (db : Database K R) (changes : V → R → R) (amounts : List (K × V)) : Database K R :=
  amounts.foldl (fun db e => db.modifyRecord e.1 (changes e.2)) db

/-- If each turn changes what is stored at `a` only when its own key is `a`, so does the loop. -/
theorem find_modifyAll_of_turn {Inv : Database K R → Prop} (t : ExtTreeMap K V) {a : K}
    (hinv : ∀ e ∈ t.toList, ∀ db, Inv db → Inv (db.modifyRecord e.1 (changes e.2)))
    (hturn : ∀ e ∈ t.toList, ∀ db, Inv db →
      (db.modifyRecord e.1 (changes e.2)).mapRecords[a]? =
        if e.1 = a then db.mapRecords[a]?.map (changes e.2) else db.mapRecords[a]?)
    (hdb : Inv db) : (db.modifyAll changes t.toList).mapRecords[a]? =
      match t[a]? with
      | some v => db.mapRecords[a]?.map (changes v)
      | none => db.mapRecords[a]? := by
  cases ha : t[a]? with
  | some v =>
    have hmem : (a, v) ∈ t.toList := ExtTreeMap.mem_toList_iff_getElem?_eq_some.mpr ha
    refine Loop.foldl_of_mem (fun db : Database K R => db.mapRecords[a]?) hinv hmem
      (OrderedMap.nodup_toList t) ?_ (Option.map (changes v)) ?_ hdb
    · intro e he hne db hdb
      have hkey : e.1 ≠ a := by
        rintro rfl
        have := ExtTreeMap.mem_toList_iff_getElem?_eq_some.mp he
        exact hne (Prod.ext rfl (Option.some.inj (this.symm.trans ha)))
      rw [hturn e he db hdb, if_neg hkey]
    · intro db hdb
      rw [hturn _ hmem db hdb, if_pos rfl]
  | none =>
    refine Loop.foldl_frame (fun db : Database K R => db.mapRecords[a]?) hinv ?_ hdb
    intro e he db hdb
    have hkey : e.1 ≠ a := by
      rintro rfl
      have := ExtTreeMap.mem_toList_iff_getElem?_eq_some.mp he
      exact absurd (this.symm.trans ha) (by simp)
    rw [hturn e he db hdb, if_neg hkey]

variable (hchanges : ∀ v r, Record.cKey (changes v r) = Record.cKey r)
include hchanges

/-- Where every key of the map has a record, each is changed by its own amount. -/
theorem OwnKeys.modifyAll (hown : db.OwnKeys) (t : ExtTreeMap K V)
    (hkeys : ∀ e ∈ t.toList, db.hasKey e.1) : (db.modifyAll changes t.toList).OwnKeys ∧
      ∀ a : K, (db.modifyAll changes t.toList).mapRecords[a]? =
        match t[a]? with
        | some v => db.mapRecords[a]?.map (changes v)
        | none => db.mapRecords[a]? := by
  let Inv (db' : Database K R) : Prop := db'.OwnKeys ∧ ∀ a, db'.hasKey a = db.hasKey a
  have hinv : ∀ e ∈ t.toList, ∀ db', Inv db' → Inv (db'.modifyRecord e.1 (changes e.2)) := by
    rintro e he db' ⟨hown', hsame⟩
    have hk : db'.hasKey e.1 := hsame e.1 ▸ hkeys e he
    exact ⟨hown'.modifyRecord hk, fun a =>
      (hown'.hasKey_modifyRecord (hchanges e.2) hk a).trans (hsame a)⟩
  have hstart : Inv db := ⟨hown, fun _ => rfl⟩
  refine ⟨(Loop.foldl_inv hinv hstart).1, fun a => find_modifyAll_of_turn t hinv ?_ hstart⟩
  rintro e he db' ⟨hown', hsame⟩
  exact hown'.find_modifyRecord (hchanges e.2) (hsame e.1 ▸ hkeys e he) a

/-! Where some keys of the map have no record, the blank record is created for each of them
and what is stored goes under the key of the blank record. -/

/-- `db'` differs from `db` by records under the blank key and by blank records; the others
are still under their own keys. -/
structure Overlay (db db' : Database K R) : Prop where
  own : ∀ (a : K) (r : R), db'.mapRecords[a]? = some r →
    Record.cKey r = a ∨ Record.cKey r = Record.cKey (Record.blank : R)
  kept : ∀ (a : K) (r : R), a ≠ Record.cKey (Record.blank : R) → db.mapRecords[a]? = some r →
    ∃ r', db'.mapRecords[a]? = some r' ∧ Record.cKey r' = a

omit hchanges [Std.LawfulEqOrd K] [DecidableEq K] in
theorem OwnKeys.overlay (hown : db.OwnKeys) : Overlay db db where
  own a r h := .inl (hown a r h)
  kept a r _ h := ⟨r, h, hown a r h⟩

omit hchanges in
/-- A turn changes the record of its own key or records at the blank key. -/
theorem Overlay.find_modifyRecord_of_ne {db' : Database K R} (h : Overlay db db') {a : K}
    (hchange : ∀ r, Record.cKey (change r) = Record.cKey r)
    (ha : a ≠ Record.cKey (Record.blank : R)) {r : R} (hr : db'.mapRecords[a]? = some r)
    (hkey : Record.cKey r = a) : (db'.modifyRecord k change).mapRecords[a]? =
      if k = a then some (change r) else some r := by
  split_ifs with hk
  · subst hk
    rw [find_modifyRecord_of_some hr, hchange, if_pos hkey]
  · cases hdb : db'.mapRecords[k]? with
    | some q =>
      have hq : Record.cKey (change q) ≠ a := by
        rw [hchange]
        rcases h.own k q hdb with hq | hq
        · exact hq ▸ hk
        · exact hq ▸ ha.symm
      rw [find_modifyRecord_of_some hdb, if_neg hq, hr]
    | none =>
      rw [find_modifyRecord_of_none hdb, hchange, if_neg ha.symm, if_neg hk, hr]

omit hchanges in
theorem Overlay.modifyRecord {db' : Database K R} (h : Overlay db db')
    (hchange : ∀ r, Record.cKey (change r) = Record.cKey r) :
    Overlay db (db'.modifyRecord k change) where
  own a r hr := by
    cases hk : db'.mapRecords[k]? with
    | some q =>
      rw [find_modifyRecord_of_some hk] at hr
      split_ifs at hr with ha
      · cases hr
        exact .inl ha
      · exact h.own a r hr
    | none =>
      rw [find_modifyRecord_of_none hk] at hr
      split_ifs at hr with ha hka
      · cases hr
        exact .inl ha
      · cases hr
        exact .inr rfl
      · exact h.own a r hr
  kept a r ha hr := by
    obtain ⟨r', hr', hkey⟩ := h.kept a r ha hr
    rw [h.find_modifyRecord_of_ne hchange ha hr' hkey]
    split_ifs
    · exact ⟨change r', rfl, (hchange r').trans hkey⟩
    · exact ⟨r', rfl, hkey⟩

/-- A record under a key of its own is changed by its own amount, whatever the other keys
of the map are. -/
theorem OwnKeys.find_modifyAll_of_ne (hown : db.OwnKeys) (t : ExtTreeMap K V) {a : K}
    (ha : a ≠ Record.cKey (Record.blank : R)) {r : R} (hr : db.mapRecords[a]? = some r) :
    (db.modifyAll changes t.toList).mapRecords[a]? =
      match t[a]? with
      | some v => some (changes v r)
      | none => some r := by
  have hturn : ∀ e ∈ t.toList, ∀ db', Overlay db db' →
      (db'.modifyRecord e.1 (changes e.2)).mapRecords[a]? =
        if e.1 = a then db'.mapRecords[a]?.map (changes e.2) else db'.mapRecords[a]? := by
    intro e _ db' h
    obtain ⟨r', hr', hkey⟩ := h.kept a r ha hr
    rw [h.find_modifyRecord_of_ne (hchanges e.2) ha hr' hkey, hr']
    rfl
  rw [find_modifyAll_of_turn t (fun e _ db' h => h.modifyRecord (hchanges e.2)) hturn hown.overlay,
    hr]
  rfl

/-- The blank key ends up with what the last key without a record made of the blank record. -/
theorem OwnKeys.find_modifyAll_blank (hown : db.OwnKeys) {front back : List (K × V)} {e : K × V}
    (hnodup : ((front ++ e :: back).map Prod.fst).Nodup) (he : db.mapRecords[e.1]? = none)
    (hback : ∀ x ∈ back, db.hasKey x.1) (hleast : ∀ x ∈ back, x.1 ≠ Record.cKey (Record.blank : R))
    {r : R} (hr : db.mapRecords[Record.cKey (Record.blank : R)]? = some r) :
    (db.modifyAll changes (front ++ e :: back)).mapRecords[Record.cKey (Record.blank : R)]? =
      some (changes e.2 Record.blank) := by
  have hne : e.1 ≠ Record.cKey (Record.blank : R) := by
    intro h
    rw [h, hr] at he
    cases he
  have hdistinct : ∀ x ∈ front, x.1 ≠ e.1 := by
    intro x hx
    rw [List.map_append, List.map_cons] at hnodup
    exact (List.nodup_append.mp hnodup).2.2 _ (List.mem_map_of_mem hx) _ List.mem_cons_self
  -- up to the turn of `e` its key stays without a record
  let Inv (db' : Database K R) : Prop := Overlay db db' ∧ db'.mapRecords[e.1]? = none
  have hfront : ∀ x ∈ front, ∀ db', Inv db' → Inv (db'.modifyRecord x.1 (changes x.2)) := by
    rintro x hx db' ⟨h, hnone⟩
    refine ⟨h.modifyRecord (hchanges x.2), ?_⟩
    cases hdb : db'.mapRecords[x.1]? with
    | some q =>
      have hq : Record.cKey (changes x.2 q) ≠ e.1 := by
        rw [hchanges]
        rcases h.own x.1 q hdb with hq | hq
        · exact hq ▸ hdistinct x hx
        · exact hq ▸ hne.symm
      rw [find_modifyRecord_of_some hdb, if_neg hq, hnone]
    | none =>
      rw [find_modifyRecord_of_none hdb, hchanges, if_neg hne.symm, if_neg (hdistinct x hx), hnone]
  obtain ⟨hmid, hnone⟩ : Inv (db.modifyAll changes front) :=
    Loop.foldl_inv hfront ⟨hown.overlay, he⟩
  have hturn : ((db.modifyAll changes front).modifyRecord e.1
      (changes e.2)).mapRecords[Record.cKey (Record.blank : R)]? =
        some (changes e.2 Record.blank) := by
    rw [find_modifyRecord_of_none hnone, if_pos (hchanges _ _)]
  rw [Database.modifyAll, List.foldl_append, List.foldl_cons, ← hturn]
  refine Loop.foldl_frame (fun db : Database K R => db.mapRecords[Record.cKey (Record.blank : R)]?)
    (fun x _ db' h => h.modifyRecord (hchanges x.2)) ?_ (hmid.modifyRecord (hchanges e.2))
  intro x hx db' h
  obtain ⟨q, hq⟩ := hasKey_iff.mp (hback x hx)
  obtain ⟨q', hq', hkey⟩ := h.kept x.1 q (hleast x hx) hq
  rw [find_modifyRecord_of_some hq', hchanges, hkey, if_neg (hleast x hx)]

end ModifyAll

/-! ### What readers see -/

section Views

variable {V : Type} {g : R → V} {db : Database K R}

omit [Std.LawfulEqOrd K] [DecidableEq K] in
/-- A part of the record that `GetRecord` answers with. -/
def view (g : R → V) (db : Database K R) (k : K) : V := g (db.getRecord k).1

omit [Std.LawfulEqOrd K] [DecidableEq K] in
theorem view_of_some {k : K} {r : R} (h : db.mapRecords[k]? = some r) : db.view g k = g r := by
  rw [view, getRecord_of_some h]

omit [Std.LawfulEqOrd K] [DecidableEq K] in
theorem view_of_none {k : K} (h : db.mapRecords[k]? = none) : db.view g k = g Record.blank := by
  rw [view, getRecord_of_none h]

/-- Every record is under its own key, but for some that `P` tells. -/
def KeyedOr (P : R → Prop) (db : Database K R) : Prop :=
  ∀ (k : K) (r : R), db.mapRecords[k]? = some r → Record.cKey r = k ∨ P r

theorem KeyedOr.updateRecord {P : R → Prop} (h : db.KeyedOr P) (r : R) :
    (db.updateRecord r).KeyedOr P := by
  intro k r' hr'
  rw [find_updateRecord] at hr'
  split_ifs at hr' with hkey
  · cases hr'
    exact .inl hkey
  · exact h k r' hr'

theorem KeyedOr.getRecord {P : R → Prop} (h : db.KeyedOr P) (hblank : P Record.blank) (cKey : K) :
    (db.getRecord cKey).2.KeyedOr P := by
  intro k r hr
  rw [find_getRecord] at hr
  split_ifs at hr with hk
  · cases hr
    subst hk
    cases hdb : db.mapRecords[cKey]? with
    | some r =>
      rw [getRecord_of_some hdb]
      exact h cKey r hdb
    | none =>
      rw [getRecord_of_none hdb]
      exact .inr hblank
  · exact h k r hr

/-- Every record is under its own key, or one that `GetRecord` made up. -/
def WellKeyed (db : Database K R) : Prop :=
  ∀ (k : K) (r : R), db.mapRecords[k]? = some r → Record.cKey r = k ∨ r = Record.blank

omit [Std.LawfulEqOrd K] [DecidableEq K] in
theorem OwnKeys.wellKeyed (h : db.OwnKeys) : db.WellKeyed := fun k r hr => .inl (h k r hr)

theorem WellKeyed.updateRecord (h : db.WellKeyed) (r : R) : (db.updateRecord r).WellKeyed :=
  KeyedOr.updateRecord h r

theorem WellKeyed.getRecord (h : db.WellKeyed) (cKey : K) : (db.getRecord cKey).2.WellKeyed :=
  KeyedOr.getRecord h rfl cKey

end Views

end Database

end NexusPool
