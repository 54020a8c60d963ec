import Mathlib.Tactic

/-!
# Ordered maps as sums and as lists of entries

`Std.ExtTreeMap` is the model of `std::map`: entries in key order, and equality of maps is
equality of lookups. Added here is how the entry list and sums over it change under an
insertion.
-/

namespace OrderedMap

open Std (ExtTreeMap)

/-! ### Entry lists -/

variable {K V : Type} [Ord K] [Std.TransOrd K]

/-- Assigning entries one after the other to an empty map. -/
def assignAll (entries : List (K × V)) : ExtTreeMap K V :=
  entries.foldl (fun t e => t.insert e.1 e.2) ∅

theorem assignAll_eq_ofList (entries : List (K × V)) :
    assignAll entries = ExtTreeMap.ofList entries compare :=
  ExtTreeMap.ofList_eq_foldl.symm

theorem size_assignAll_le (entries : List (K × V)) : (assignAll entries).size ≤ entries.length := by
  rw [assignAll_eq_ofList]
  exact ExtTreeMap.size_ofList_le

theorem nodup_toList (t : ExtTreeMap K V) : t.toList.Nodup := by
  have h := t.nodup_keys
  rw [← ExtTreeMap.map_fst_toList_eq_keys] at h
  exact h.of_map _

/-- The last entry of a kind is followed by entries of the other kind, with greater keys. -/
theorem find?_reverse_eq_some {t : ExtTreeMap K V} {p : K × V → Bool} {e : K × V}
    (h : t.toList.reverse.find? p = some e) : p e = true ∧ ∃ front back,
      t.toList = front ++ e :: back ∧ ∀ x ∈ back, p x = false ∧ compare e.1 x.1 = .lt := by
  obtain ⟨he, after, before, hsplit, hafter⟩ := List.find?_eq_some_iff_append.mp h
  have hlist : t.toList = before.reverse ++ e :: after.reverse := by
    rw [← List.reverse_reverse t.toList, hsplit]
    simp
  have hordered := t.ordered_keys_toList
  rw [hlist] at hordered
  refine ⟨he, before.reverse, after.reverse, hlist, fun x hx => ⟨?_, ?_⟩⟩
  · simpa using hafter x (List.mem_reverse.mp hx)
  · exact (List.pairwise_cons.mp (List.pairwise_append.mp hordered).2.1).1 x hx

variable [Std.LawfulEqOrd K]

theorem getElem?_insert_of_ne (t : ExtTreeMap K V) {k a : K} (h : k ≠ a) (v : V) :
    (t.insert k v)[a]? = t[a]? := by
  simp [ExtTreeMap.getElem?_insert, h]

theorem mem_insert_iff (t : ExtTreeMap K V) (k a : K) (v : V) :
    a ∈ t.insert k v ↔ a = k ∨ a ∈ t := by
  rw [ExtTreeMap.mem_insert, Std.LawfulEqCmp.compare_eq_iff_eq, eq_comm]

theorem mem_of_mem_toList {t : ExtTreeMap K V} {e : K × V} (he : e ∈ t.toList) : e.1 ∈ t := by
  rw [ExtTreeMap.mem_iff_isSome_getElem?, ExtTreeMap.mem_toList_iff_getElem?_eq_some.mp he]
  rfl

variable [DecidableEq K]

theorem getElem?_insert (t : ExtTreeMap K V) (k a : K) (v : V) :
    (t.insert k v)[a]? = if k = a then some v else t[a]? := by
  simp [ExtTreeMap.getElem?_insert]

/-- Assigning all entries of a map in order rebuilds the map. -/
theorem assignAll_toList (t : ExtTreeMap K V) : assignAll t.toList = t := by
  rw [assignAll_eq_ofList]
  apply ExtTreeMap.ext_getElem?
  intro k
  cases hk : t[k]? with
  | some v =>
    exact ExtTreeMap.getElem?_ofList_of_mem Std.ReflOrd.compare_self t.distinct_keys_toList
      (ExtTreeMap.mem_toList_iff_getElem?_eq_some.mpr hk)
  | none =>
    apply ExtTreeMap.getElem?_ofList_of_contains_eq_false
    rw [ExtTreeMap.map_fst_toList_eq_keys]
    simpa using hk

/-- An insertion replaces the entry of its key and keeps the others. -/
theorem toList_insert_perm (t : ExtTreeMap K V) (k : K) (v : V) :
    (t.insert k v).toList.Perm ((k, v) :: t.toList.filter fun e => e.1 ≠ k) := by
  rw [List.perm_ext_iff_of_nodup (nodup_toList _)
    (by simp [(nodup_toList t).filter])]
  rintro ⟨a, b⟩
  simp only [ExtTreeMap.mem_toList_iff_getElem?_eq_some, getElem?_insert, List.mem_cons,
    List.mem_filter, Prod.mk.injEq]
  by_cases h : k = a
  · simp [h, eq_comm]
  · simp [h, Ne.symm h, eq_comm]

theorem filter_ne_of_none {t : ExtTreeMap K V} {k : K} (hk : t[k]? = none) :
    (t.toList.filter fun e => e.1 ≠ k) = t.toList := by
  rw [List.filter_eq_self]
  rintro ⟨a, v⟩ hmem
  have ha := ExtTreeMap.mem_toList_iff_getElem?_eq_some.mp hmem
  have hne : a ≠ k := by
    rintro rfl
    simp [hk] at ha
  simpa using hne

/-- The entry of a key and those of the others. -/
theorem toList_perm_of_some {t : ExtTreeMap K V} {k : K} {v : V} (hk : t[k]? = some v) :
    t.toList.Perm ((k, v) :: t.toList.filter fun e => e.1 ≠ k) := by
  have hsame : t.insert k v = t := by
    apply ExtTreeMap.ext_getElem?
    intro a
    rw [getElem?_insert]
    split_ifs with h
    · rw [← h, hk]
    · rfl
  have hperm := toList_insert_perm t k v
  rwa [hsame] at hperm

/-! ### Sums of values -/

/-- An insertion changes a sum over the values by the new value minus the replaced one. -/
theorem sum_map_insert (f : V → ℕ) (t : ExtTreeMap K V) (k : K) (v : V) :
    ((t.insert k v).toList.map fun e => f e.2).sum + (t[k]?.map f).getD 0 =
      (t.toList.map fun e => f e.2).sum + f v := by
  have hnew := ((toList_insert_perm t k v).map fun e => f e.2).sum_eq
  simp only [List.map_cons, List.sum_cons] at hnew
  cases hk : t[k]? with
  | some w =>
    have hold := ((toList_perm_of_some hk).map fun e => f e.2).sum_eq
    simp only [List.map_cons, List.sum_cons] at hold
    simp only [Option.map_some, Option.getD_some]
    omega
  | none =>
    rw [filter_ne_of_none hk] at hnew
    simp only [Option.map_none, Option.getD_none]
    omega

section Sums

variable [AddCommMonoid V]

def sumValues (t : ExtTreeMap K V) : V := (t.toList.map Prod.snd).sum

omit [Std.LawfulEqOrd K] [DecidableEq K] in
theorem foldl_add (t : ExtTreeMap K V) (start : V) :
    t.toList.foldl (fun total entry => total + entry.2) start = start + sumValues t := by
  rw [sumValues]
  induction t.toList generalizing start with
  | nil => simp
  | cons entry entries ih => simp [ih, add_assoc]

theorem sumValues_insert (t : ExtTreeMap K V) (k : K) (v : V) :
    sumValues (t.insert k v) = v + ((t.toList.filter fun e => e.1 ≠ k).map Prod.snd).sum := by
  have h := ((toList_insert_perm t k v).map Prod.snd).sum_eq
  simpa [sumValues] using h

theorem sumValues_eq_add (t : ExtTreeMap K V) (k : K) :
    sumValues t = t.getD k 0 + ((t.toList.filter fun e => e.1 ≠ k).map Prod.snd).sum := by
  cases hk : t[k]? with
  | some v =>
    have hperm := ((toList_perm_of_some hk).map Prod.snd).sum_eq
    rw [sumValues, hperm, ExtTreeMap.getD_eq_getD_getElem?, hk, List.map_cons, List.sum_cons]
    rfl
  | none =>
    rw [filter_ne_of_none hk, ExtTreeMap.getD_eq_getD_getElem?, hk]
    simp [sumValues]

/-- Adding to the value of a key, present or not, adds to the sum. -/
theorem sumValues_insert_add (t : ExtTreeMap K V) (k : K) (v : V) :
    sumValues (t.insert k (t.getD k 0 + v)) = sumValues t + v := by
  rw [sumValues_insert, sumValues_eq_add t k]
  abel

end Sums

end OrderedMap
