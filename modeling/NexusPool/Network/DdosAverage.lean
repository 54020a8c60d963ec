import NexusPool.Library.Run
import NexusPool.Network.Ddos

/-!
# The score as a moving average

A slot of `SCORE` stands for a second since the timer was started. When more seconds have passed
than there are slots, the timer is started anew, but the increment goes to the slot of the
remainder, and the slots behind it keep what they hold until the loop comes by. A score is the
average over its time span as long as what these slots hold is not older than the span.
-/

namespace NexusPool.LLP

open Reactive

def ofSeconds (second : ℤ) : ℤ := second * 1000000000

/-- The clock counts nanoseconds in 64 bits. -/
def ClockShows (second : ℤ) : Prop := -2 ^ 63 ≤ ofSeconds second ∧ ofSeconds second < 2 ^ 63

instance (second : ℤ) : Decidable (ClockShows second) :=
  inferInstanceAs (Decidable (_ ∧ _))

/-- `nScore` is added at a whole second of the clock. -/
structure Increment where
  second : ℤ
  nScore : ℤ
  deriving DecidableEq

/-- A score, and the second of its last change. -/
structure TimedScore where
  score : DdosScore
  second : ℤ

namespace TimedScore

/-- The clock does not go back. -/
def step (s : TimedScore) (x : Increment) : Option (TimedScore × List Empty) :=
  if s.second ≤ x.second ∧ ClockShows x.second then
    (s.score.add x.nScore (ofSeconds x.second) (ofSeconds x.second)).map fun score =>
      (⟨score, x.second⟩, [])
  else none

def Starts (nTimespan : ℕ) (s : TimedScore) : Prop :=
  ClockShows s.second ∧ s.score = .new nTimespan (ofSeconds s.second)

/-- What the timer shows at an increment. -/
def elapsed (s : TimedScore) (x : Increment) : ℕ :=
  (s.score.TIMER.elapsed (ofSeconds x.second)).toNat

end TimedScore

/-- The increments in the last `n` seconds. -/
def windowSum (n : ℕ) (second : ℤ) (increments : List Increment) : ℤ :=
  ((increments.filter fun x => second - n < x.second ∧ x.second ≤ second).map (·.nScore)).sum

namespace DdosScore

/-! ### What an increment does to the slots -/

/-- A slot after the loop of `operator+=` has come by. -/
def visitSlot (slot : Bool × ℤ) : Bool × ℤ := if slot.1 then slot else (true, 0)

theorem visitSlot_eq_zero {slot : Bool × ℤ} (h : slot.1 = true → slot.2 = 0) :
    visitSlot slot = (true, 0) := by
  unfold visitSlot
  split_ifs with hvisited
  · exact Prod.ext hvisited (h hvisited)
  · rfl

theorem visit_eq {SCORE : List (Bool × ℤ)} {i : ℕ} (h : i < SCORE.length) :
    visit SCORE i = some (SCORE.modify i visitSlot) := by
  rw [visit, List.getElem?_eq_getElem h, Option.bind_eq_bind, Option.bind_some, Option.pure_def,
    List.modify_eq_set_getElem?, List.getElem?_eq_getElem h, Option.some.injEq]
  change _ = SCORE.set i (visitSlot SCORE[i])
  unfold visitSlot
  split_ifs
  · exact (List.set_getElem_self h).symm
  · rfl

theorem foldlM_visit (a k : ℕ) {SCORE : List (Bool × ℤ)} (h : a + k ≤ SCORE.length) :
    ∃ SCORE', (List.range' a k).foldlM visit SCORE = some SCORE' ∧ SCORE'.length = SCORE.length ∧
      ∀ i, SCORE'[i]? = if a ≤ i ∧ i < a + k then SCORE[i]?.map visitSlot else SCORE[i]? := by
  induction k with
  | zero =>
    refine ⟨SCORE, rfl, rfl, fun i => ?_⟩
    rw [if_neg (by omega)]
  | succ k ih =>
    obtain ⟨SCORE', hvisited, hlength, hslots⟩ := ih (by omega)
    refine ⟨SCORE'.modify (a + k) visitSlot, ?_, by rw [List.length_modify, hlength], fun i => ?_⟩
    · rw [List.range'_concat, List.foldlM_append, hvisited, Option.bind_eq_bind,
        Option.bind_some, one_mul, List.foldlM_cons, visit_eq (by omega)]
      rfl
    · rw [List.getElem?_modify, hslots]
      rcases Nat.lt_trichotomy i (a + k) with hi | rfl | hi
      · simp [show i < a + (k + 1) by omega, hi, show a + k ≠ i by omega]
      · simp
      · simp [show ¬ i < a + (k + 1) by omega, show ¬ i < a + k by omega, show a + k ≠ i by omega]

/-- The slot `i` after an increment that finds the loop at `a` and is counted at `b`. -/
def recordSlot (a b : ℕ) (nScore : ℤ) (i : ℕ) (slot : Bool × ℤ) : Bool × ℤ :=
  let slot := if a ≤ i ∧ i ≤ b then visitSlot slot else slot
  if i = b then (slot.1, slot.2 + nScore) else slot

theorem recordSlot_of_ne {a b i : ℕ} (hi : i ≠ b) (nScore : ℤ) (slot : Bool × ℤ) :
    recordSlot a b nScore i slot = if a ≤ i ∧ i ≤ b then visitSlot slot else slot :=
  if_neg hi

/-- The slots after the loop and the addition. -/
structure Records (a b : ℕ) (nScore : ℤ) (s s' : DdosScore) : Prop where
  length : s'.SCORE.length = s.SCORE.length
  timer : s'.TIMER = s.TIMER
  iterator : s'.nIterator = .ofNat b
  slots : ∀ i : ℕ, s'.SCORE[i]? = s.SCORE[i]?.map (recordSlot a b nScore i)

theorem Records.slot_behind {a b : ℕ} {nScore : ℤ} {s s' : DdosScore}
    (h : Records a b nScore s s') {i : ℕ}
    (hi : b < i) : s'.SCORE[i]? = s.SCORE[i]? := by
  have hsame : ∀ slot, recordSlot a b nScore i slot = slot := fun slot => by
    rw [recordSlot_of_ne (by omega), if_neg (by omega)]
  rw [h.slots, funext hsame]
  exact Option.map_id'

/-- The second part of `operator+=`, which counts the increment at slot `nTime`. -/
theorem exists_records {s : DdosScore} {nTime : ℕ} (hnTime : nTime < s.SCORE.length)
    (hiterator : s.nIterator.toNat < s.SCORE.length) (nScore : ℤ) :
    ∃ s', Records s.nIterator.toNat nTime nScore s s' ∧
      ((List.range' s.nIterator.toNat (nTime + 1 - s.nIterator.toNat)).foldlM visit s.SCORE).bind
        (fun SCORE => SCORE[nTime]?.bind fun slot => some
          { s with
            SCORE := SCORE.set nTime (slot.1, slot.2 + nScore), nIterator := .ofNat nTime }) =
        some s' := by
  have hfits : s.nIterator.toNat + (nTime + 1 - s.nIterator.toNat) ≤ s.SCORE.length := by omega
  obtain ⟨SCORE', hvisited, hlength, hslots⟩ := foldlM_visit _ _ hfits
  rw [hvisited, Option.bind_some, List.getElem?_eq_getElem (hlength ▸ hnTime), Option.bind_some]
  refine ⟨_, ?_, rfl⟩
  refine ⟨(List.length_set ..).trans hlength, rfl, rfl, fun i => ?_⟩
  have hrange : s.nIterator.toNat ≤ i ∧ i < s.nIterator.toNat + (nTime + 1 - s.nIterator.toNat) ↔
      s.nIterator.toNat ≤ i ∧ i ≤ nTime := by omega
  have hslot : SCORE'[i]? = s.SCORE[i]?.map fun slot =>
      if s.nIterator.toNat ≤ i ∧ i ≤ nTime then visitSlot slot else slot := by
    rw [hslots, if_congr hrange rfl rfl]
    split_ifs
    · rfl
    · rw [Option.map_id_fun']
      rfl
  rw [List.getElem?_set]
  by_cases hi : nTime = i
  · subst hi
    have hget := List.getElem?_eq_getElem (hlength ▸ hnTime : nTime < SCORE'.length)
    rw [hslot, List.getElem?_eq_getElem hnTime, Option.map_some, Option.some.injEq] at hget
    rw [if_pos rfl, if_pos (hlength ▸ hnTime), ← hget, List.getElem?_eq_getElem hnTime]
    simp [recordSlot]
  · rw [if_neg hi, hslot]
    congr 1
    funext slot
    simp [recordSlot, Ne.symm hi]

variable {s : DdosScore} {nScore now resetAt : ℤ}

theorem add_of_lt (hlt : (s.TIMER.elapsed now).toNat < s.SCORE.length)
    (hiterator : s.nIterator.toNat < s.SCORE.length) :
    ∃ s', s.add nScore now resetAt = some s' ∧
      Records s.nIterator.toNat (s.TIMER.elapsed now).toNat nScore s s' := by
  obtain ⟨s', hrecords, hs'⟩ := exists_records hlt hiterator nScore
  refine ⟨s', ?_, hrecords⟩
  rw [add, if_neg (not_le.mpr hlt)]
  exact hs'

theorem add_of_ge (hpos : 0 < s.SCORE.length) (hge : s.SCORE.length ≤ (s.TIMER.elapsed now).toNat) :
    ∃ s', s.add nScore now resetAt = some s' ∧
      Records 0 ((s.TIMER.elapsed now).toNat % s.SCORE.length) nScore (s.reset resetAt) s' := by
  have hlength : (s.reset resetAt).SCORE.length = s.SCORE.length := List.length_map _
  have hnTime : (s.TIMER.elapsed now).toNat % s.SCORE.length < (s.reset resetAt).SCORE.length := by
    rw [hlength]
    exact Nat.mod_lt _ hpos
  have hiterator : (s.reset resetAt).nIterator.toNat < (s.reset resetAt).SCORE.length := by
    rw [hlength]
    exact hpos
  obtain ⟨s', hrecords, hs'⟩ := exists_records hnTime hiterator nScore
  refine ⟨s', ?_, hrecords⟩
  rw [add, if_pos hge, if_neg (by omega)]
  exact hs'

/-- Whatever the clock shows, an increment stays inside the slots and is counted at one of them. -/
theorem exists_add (hiterator : s.nIterator.toNat < s.SCORE.length) :
    ∃ s' b, s.add nScore now resetAt = some s' ∧ b < s.SCORE.length ∧
      s'.SCORE.length = s.SCORE.length ∧ s'.nIterator = .ofNat b := by
  by_cases hlt : (s.TIMER.elapsed now).toNat < s.SCORE.length
  · obtain ⟨s', hs', hrecords⟩ := add_of_lt hlt hiterator
    exact ⟨s', _, hs', hlt, hrecords.length, hrecords.iterator⟩
  · have hpos := Nat.zero_lt_of_lt hiterator
    obtain ⟨s', hs', hrecords⟩ := add_of_ge hpos (not_lt.mp hlt)
    exact ⟨s', _, hs', Nat.mod_lt _ hpos, hrecords.length.trans (List.length_map _),
      hrecords.iterator⟩

end DdosScore

/-! ### Sums over the increments -/

/-- The increments at this second. -/
def secondSum (second : ℤ) (increments : List Increment) : ℤ :=
  ((increments.filter (·.second = second)).map (·.nScore)).sum

theorem secondSum_cons (second : ℤ) (x : Increment) (past : List Increment) :
    secondSum second (x :: past) = (if x.second = second then x.nScore else 0) +
      secondSum second past := by
  unfold secondSum
  by_cases hx : x.second = second <;> simp [hx]

theorem secondSum_of_ne {second : ℤ} {x : Increment} (hx : x.second ≠ second)
    (past : List Increment) :
    secondSum second (x :: past) = secondSum second past := by
  rw [secondSum_cons, if_neg hx, zero_add]

theorem secondSum_eq_zero {second : ℤ} {increments : List Increment}
    (h : ∀ x ∈ increments, x.second ≠ second) : secondSum second increments = 0 := by
  rw [secondSum, List.filter_eq_nil_iff.mpr fun x hx => by simpa using h x hx]
  rfl

theorem windowSum_eq (n : ℕ) (second : ℤ) (increments : List Increment) :
    windowSum n second increments =
      ∑ j ∈ Finset.range n, secondSum (second - n + 1 + j) increments := by
  induction increments with
  | nil => simp [windowSum, secondSum]
  | cons x past ih =>
    simp only [secondSum_cons, Finset.sum_add_distrib, ← ih]
    by_cases hx : second - n < x.second ∧ x.second ≤ second
    · obtain ⟨j, hj⟩ : ∃ j : ℕ, x.second = second - n + 1 + j :=
        ⟨(x.second - (second - n + 1)).toNat, by omega⟩
      have hterm : ∀ k ∈ Finset.range n, (if x.second = second - n + 1 + k then x.nScore else 0) =
          if k = j then x.nScore else 0 := fun k _ => if_congr (by omega) rfl rfl
      have hmem : j ∈ Finset.range n := Finset.mem_range.mpr (by omega)
      rw [Finset.sum_congr rfl hterm, Finset.sum_ite_eq' _ _ _, if_pos hmem]
      simp [windowSum, hx]
    · have hterm : ∀ k ∈ Finset.range n,
          (if x.second = second - n + 1 + k then x.nScore else 0) = 0 :=
        fun k hk => if_neg (by have hk := Finset.mem_range.mp hk; omega)
      rw [Finset.sum_congr rfl hterm, Finset.sum_const_zero, zero_add, windowSum,
        List.filter_cons_of_neg]
      · rfl
      · simpa using hx

/-- The seconds that the slots stand for, `e` seconds after the timer was started at `start`: behind
the second of the last increment those of the time before, as far as they are still in the
window. -/
def held (n : ℕ) (start : ℤ) (slot e : ℕ) (increments : List Increment) (i : ℕ) : ℤ :=
  if i ≤ e then secondSum (start + i) increments
  else if i ≤ e + slot then 0
  else secondSum (start - n - slot + i) increments

theorem sum_shift (g : ℕ → ℤ) {slot rest : ℕ} (hzero : ∀ i, rest - slot ≤ i → i < rest → g i = 0) :
    ∑ i ∈ Finset.range rest, (if i < slot then 0 else g (i - slot)) =
      ∑ i ∈ Finset.range rest, g i := by
  rcases le_total slot rest with hle | hle
  · obtain ⟨k, rfl⟩ := Nat.exists_eq_add_of_le hle
    have hfront : ∀ i ∈ Finset.range slot, (if i < slot then 0 else g (i - slot)) = 0 := fun i hi =>
      if_pos (Finset.mem_range.mp hi)
    have hback : ∀ i ∈ Finset.range slot, g (k + i) = 0 := fun i hi =>
      hzero _ (by omega) (by have hi := Finset.mem_range.mp hi; omega)
    rw [Finset.sum_range_add, Finset.sum_eq_zero hfront, Nat.add_comm slot k, Finset.sum_range_add,
      Finset.sum_eq_zero hback]
    simp
  · have hfront : ∀ i ∈ Finset.range rest, (if i < slot then 0 else g (i - slot)) = 0 := fun i hi =>
      if_pos ((Finset.mem_range.mp hi).trans_le hle)
    have hnone : ∀ i ∈ Finset.range rest, g i = 0 := fun i hi =>
      hzero i (by omega) (Finset.mem_range.mp hi)
    rw [Finset.sum_eq_zero hfront, Finset.sum_eq_zero hnone]

theorem sum_held {start : ℤ} {slot e rest : ℕ} {increments : List Increment}
    (hgap : ∀ second, start - slot ≤ second → second < start → secondSum second increments = 0) :
    ∑ i ∈ Finset.range (e + 1 + rest), held (e + 1 + rest) start slot e increments i =
      windowSum (e + 1 + rest) (start + e) increments := by
  have hcurrent : ∀ i ∈ Finset.range (e + 1), held (e + 1 + rest) start slot e increments i =
      secondSum (start + e - (e + 1 + rest : ℕ) + 1 + (rest + i : ℕ)) increments := fun i hi => by
    have hi := Finset.mem_range.mp hi
    rw [held, if_pos (by omega)]
    congr 1
    push_cast
    ring
  have hbehind : ∀ i, held (e + 1 + rest) start slot e increments (e + 1 + i) =
      if i < slot then 0
      else secondSum (start + e - (e + 1 + rest : ℕ) + 1 + (i - slot : ℕ)) increments := by
    intro i
    rw [held, if_neg (by omega), if_congr (by omega : e + 1 + i ≤ e + slot ↔ i < slot) rfl rfl]
    split_ifs with hi
    · rfl
    · congr 1
      push_cast [not_lt.mp hi]
      ring
  have hbetween : ∀ i, rest - slot ≤ i → i < rest →
      secondSum (start + e - (e + 1 + rest : ℕ) + 1 + i) increments = 0 := fun i hge hlt =>
    hgap _ (by omega) (by omega)
  have hshift : ∑ i ∈ Finset.range rest, held (e + 1 + rest) start slot e increments (e + 1 + i) =
      ∑ i ∈ Finset.range rest, secondSum (start + e - (e + 1 + rest : ℕ) + 1 + i) increments := by
    simp only [hbehind]
    exact sum_shift
      (fun i => secondSum (start + e - (e + 1 + rest : ℕ) + 1 + i) increments) hbetween
  rw [windowSum_eq, Finset.sum_range_add, hshift, Finset.sum_congr rfl hcurrent, add_comm]
  conv_rhs => rw [Nat.add_comm (e + 1) rest, Finset.sum_range_add]
  rw [Nat.add_comm rest (e + 1)]

/-! ### What the slots hold -/

/-- The score `s` after these increments, with the timer started at second `start`, where the
increment that started it was of `nScore` and went to slot `slot`. The slots up to `slot` or the
last second have been visited since, the others hold the seconds of the time before. -/
structure Holds (n : ℕ) (start : ℤ) (slot : ℕ) (nScore : ℤ) (increments : List Increment) (last : ℤ)
    (s : DdosScore) : Prop where
  length : s.SCORE.length = n
  timer : s.TIMER = Timer.new.start (ofSeconds start)
  slot_lt : slot < n
  iterator : s.nIterator.toNat ≤ max slot (last - start).toNat
  start_le : start ≤ last
  last_lt : last < start + n
  le_last : ∀ x ∈ increments, x.second ≤ last
  gap : ∀ x ∈ increments, x.second < start → x.second < start - slot
  visited : ∀ (i : ℕ) (v : Bool × ℤ), i ≤ max slot (last - start).toNat → s.SCORE[i]? = some v →
    v = (true, secondSum (start + i) increments + (if i = slot then nScore else 0) -
      if i = 0 then nScore else 0)
  unvisited : ∀ (i : ℕ) (v : Bool × ℤ), max slot (last - start).toNat < i → s.SCORE[i]? = some v →
    v.2 = secondSum (start - n - slot + i) increments ∧ (v.1 = true → v.2 = 0)

namespace Holds

variable {n slot : ℕ} {start last nScore : ℤ} {increments : List Increment} {s s' : DdosScore}

theorem new (hpos : 0 < n) (start : ℤ) : Holds n start 0 0 [] start (.new n (ofSeconds start)) where
  length := List.length_replicate
  timer := rfl
  slot_lt := hpos
  iterator := Nat.zero_le _
  start_le := le_rfl
  last_lt := by omega
  le_last := nofun
  gap := nofun
  visited i v _ hv := by
    obtain ⟨-, rfl⟩ := List.getElem?_eq_some_iff.mp hv
    simp [DdosScore.new, secondSum]
  unvisited i v _ hv := by
    obtain ⟨-, rfl⟩ := List.getElem?_eq_some_iff.mp hv
    simp [DdosScore.new, secondSum]

/-- An increment before the time span is over. -/
theorem next {second score : ℤ} (h : Holds n start slot nScore increments last s)
    (hle : last ≤ second) (hlt : second < start + n) (hfits : n < 2 ^ 64)
    (hrecords : DdosScore.Records s.nIterator.toNat (second - start).toNat score s s') :
    Holds n start slot nScore (⟨second, score⟩ :: increments) second s' := by
  have hstart := h.start_le
  have hslot := h.slot_lt
  have hiterator := h.iterator
  -- the slot of the increment is the one of its second
  have hsecond : ∀ i : ℕ, second = start + i ↔ i = (second - start).toNat := fun i => by omega
  constructor
  · exact hrecords.length.trans h.length
  · exact hrecords.timer.trans h.timer
  · exact hslot
  · rw [hrecords.iterator, UInt64.toNat_ofNat']
    omega
  · omega
  · exact hlt
  · intro x hx
    rcases List.mem_cons.mp hx with rfl | hx
    · exact le_rfl
    · exact (h.le_last x hx).trans hle
  · intro x hx hbefore
    rcases List.mem_cons.mp hx with rfl | hx
    · exact absurd hbefore (by simpa using hstart.trans hle)
    · exact h.gap x hx hbefore
  · intro i v hi hv
    rw [hrecords.slots] at hv
    obtain ⟨v, hbefore, rfl⟩ := Option.map_eq_some_iff.mp hv
    rw [secondSum_cons, if_congr (hsecond i) rfl rfl]
    by_cases hvisited : i ≤ max slot (last - start).toNat
    · obtain rfl := h.visited i v hvisited hbefore
      simp only [DdosScore.recordSlot, DdosScore.visitSlot, if_true, ite_self]
      split_ifs <;> ring_nf
    · -- visited now for the first time: nothing is counted at its second but this increment
      have hzero : secondSum (start + i) increments = 0 :=
        secondSum_eq_zero fun x hx => by have hx := h.le_last x hx; omega
      have hloop : s.nIterator.toNat ≤ i ∧ i ≤ (second - start).toNat := by omega
      have hvisit := DdosScore.visitSlot_eq_zero (h.unvisited i v (by omega) hbefore).2
      rw [hzero, if_neg (by omega : i ≠ slot), if_neg (by omega : i ≠ 0)]
      simp only [DdosScore.recordSlot, if_pos hloop, hvisit]
      split_ifs <;> ring_nf
  · intro i v hi hv
    rw [hrecords.slots] at hv
    obtain ⟨v, hbefore, rfl⟩ := Option.map_eq_some_iff.mp hv
    have hn : i < n := h.length ▸ (List.getElem?_eq_some_iff.mp hbefore).1
    have hsame : DdosScore.recordSlot s.nIterator.toNat (second - start).toNat score i v = v := by
      rw [DdosScore.recordSlot_of_ne (by omega), if_neg (by omega)]
    rw [hsame, secondSum_of_ne (by change second ≠ _; omega)]
    exact h.unvisited i v (by omega) hbefore

/-- An increment after the time span, where the slots that are left hold nothing but the seconds
that are still in the window. -/
theorem restart {second score : ℤ} (h : Holds n start slot nScore increments last s)
    (hge : start + n ≤ second) (hfits : n < 2 ^ 64)
    (hleft : ∀ (i : ℕ) (v : Bool × ℤ), (second - start).toNat % n < i → s.SCORE[i]? = some v →
      v.2 = secondSum (second - n - ((second - start).toNat % n : ℕ) + i) increments)
    (hrecords : DdosScore.Records 0 ((second - start).toNat % n) score
      (s.reset (ofSeconds second)) s') :
    Holds n second ((second - start).toNat % n) score (⟨second, score⟩ :: increments)
      second s' := by
  have hlast := h.last_lt
  have hstart := h.start_le
  have hpos : 0 < n := by omega
  have hmod := Nat.mod_lt (second - start).toNat hpos
  constructor
  · exact (hrecords.length.trans (List.length_map _)).trans h.length
  · refine hrecords.timer.trans ?_
    rw [DdosScore.reset, h.timer]
    rfl
  · exact hmod
  · rw [hrecords.iterator, UInt64.toNat_ofNat']
    omega
  · exact le_rfl
  · omega
  · intro x hx
    rcases List.mem_cons.mp hx with rfl | hx
    · exact le_rfl
    · have hx := h.le_last x hx
      change x.second ≤ second
      omega
  · intro x hx hbefore
    rcases List.mem_cons.mp hx with rfl | hx
    · exact absurd hbefore (lt_irrefl _)
    · have hx := h.le_last x hx
      have hdiv := Nat.mod_add_div (second - start).toNat n
      have hturns : n ≤ n * ((second - start).toNat / n) :=
        Nat.le_mul_of_pos_right n (Nat.div_pos (by omega) hpos)
      change x.second < second - _
      omega
  · intro i v hi hv
    rw [hrecords.slots] at hv
    obtain ⟨v, hbefore, rfl⟩ := Option.map_eq_some_iff.mp hv
    obtain ⟨v, -, rfl⟩ : ∃ w, s.SCORE[i]? = some w ∧ (false, w.2) = v := by
      simpa [DdosScore.reset] using hbefore
    have hzero : secondSum (second + i) increments = 0 :=
      secondSum_eq_zero fun x hx => by have hx := h.le_last x hx; omega
    have hloop : 0 ≤ i ∧ i ≤ (second - start).toNat % n := by omega
    rw [secondSum_cons, hzero]
    have hfirst : second = second + i ↔ i = 0 := by omega
    simp only [DdosScore.recordSlot, if_pos hloop, DdosScore.visitSlot,
      Bool.false_eq_true, if_false, if_congr hfirst rfl rfl]
    split_ifs <;> ring_nf
  · intro i v hi hv
    rw [hrecords.slots] at hv
    obtain ⟨v, hreset, rfl⟩ := Option.map_eq_some_iff.mp hv
    obtain ⟨v, hbefore, rfl⟩ : ∃ w, s.SCORE[i]? = some w ∧ (false, w.2) = v := by
      simpa [DdosScore.reset] using hreset
    have hn : i < n := h.length ▸ (List.getElem?_eq_some_iff.mp hbefore).1
    have hsame : ∀ slot,
        DdosScore.recordSlot 0 ((second - start).toNat % n) score i slot = slot := by
      intro slot
      rw [DdosScore.recordSlot_of_ne (by omega), if_neg (by omega)]
    rw [hsame, secondSum_of_ne (by change second ≠ _; omega)]
    exact ⟨hleft i v (by omega) hbefore, nofun⟩

/-- Nothing is counted for the seconds between the window of a restart and the restart. -/
theorem secondSum_eq_zero_of_gap (h : Holds n start slot nScore increments last s) {second : ℤ}
    (hge : start - slot ≤ second) (hlt : second < start) : secondSum second increments = 0 :=
  secondSum_eq_zero fun x hx => by
    have hgap := h.gap x hx
    omega

/-- If what is left behind the visited slots is not older than the window, the slots add up to
it. -/
theorem sum_eq (h : Holds n start slot nScore increments last s)
    (hfresh : ∀ (i : ℕ) (v : Bool × ℤ), max slot (last - start).toNat < i →
      i ≤ (last - start).toNat + slot →
      s.SCORE[i]? = some v → v.2 = 0) :
    (s.SCORE.map (·.2)).sum = windowSum n last increments := by
  have hstart := h.start_le
  have hlast := h.last_lt
  obtain ⟨e, rfl⟩ : ∃ e : ℕ, last = start + e := ⟨(last - start).toNat, by omega⟩
  obtain ⟨rest, rfl⟩ : ∃ rest, n = e + 1 + rest := ⟨n - (e + 1), by omega⟩
  have he : (start + e - start).toNat = e := by omega
  rw [he] at hfresh
  have hslots : s.SCORE.map (·.2) = (List.range (e + 1 + rest)).map fun i =>
      held (e + 1 + rest) start slot e increments i + (if i = slot then nScore else 0) -
        if i = 0 then nScore else 0 := by
    apply List.ext_getElem?
    intro i
    rw [List.getElem?_map, List.getElem?_map]
    by_cases hi : i < e + 1 + rest
    · have hv := List.getElem?_eq_getElem (h.length.symm ▸ hi : i < s.SCORE.length)
      rw [hv, List.getElem?_range hi, Option.map_some, Option.map_some, Option.some.injEq]
      by_cases hvisited : i ≤ max slot e
      · have hheld : held (e + 1 + rest) start slot e increments i =
            secondSum (start + i) increments := by
          rw [held]
          split_ifs with hcurrent hbetween
          · rfl
          · -- the slot of the restart may be ahead of the seconds
            exact (secondSum_eq_zero fun x hx => by have hx := h.le_last x hx; omega).symm
          · omega
        rw [h.visited i _ (he.symm ▸ hvisited) hv, hheld]
      · have hbehind := (h.unvisited i _ (he.symm ▸ not_le.mp hvisited) hv).1
        rw [if_neg (by omega : i ≠ slot), if_neg (by omega : i ≠ 0), add_zero, sub_zero, held,
          if_neg (by omega)]
        split_ifs with hbetween
        · exact hfresh i _ (not_le.mp hvisited) hbetween hv
        · exact hbehind
    · rw [List.getElem?_eq_none (by rw [h.length]; omega),
        List.getElem?_eq_none (by simpa using hi)]
      rfl
  rw [hslots, ← sum_held fun second => h.secondSum_eq_zero_of_gap]
  change ∑ i ∈ Finset.range (e + 1 + rest), _ = _
  rw [Finset.sum_sub_distrib, Finset.sum_add_distrib, Finset.sum_ite_eq', Finset.sum_ite_eq',
    if_pos (Finset.mem_range.mpr h.slot_lt), if_pos (Finset.mem_range.mpr (by omega))]
  ring

end Holds

/-! ### Runs -/

/-- The slot into which the increment went that last started the timer anew. -/
def restartSlot (n : ℕ) : History TimedScore Increment Empty → ℕ
  | [] => 0
  | o :: past =>
    if o.before.elapsed o.event < n then restartSlot n past else o.before.elapsed o.event % n

/-- Nothing counts that is older than the time span: before the span is over the slots that the
seconds have not reached are looked at as far as the restart has moved them ahead, at a restart
within two spans those behind the new slot, and after that all of them, visited or not. -/
def Fresh (n slot e : ℕ) (SCORE : List (Bool × ℤ)) : Prop :=
  if e < n then ∀ v ∈ (SCORE.take (e + slot + 1)).drop (max slot e + 1), v.1 = false → v.2 = 0
  else if e < 2 * n then slot ≤ e - n ∧ ∀ v ∈ SCORE.drop (e - n + 1), v.1 = false → v.2 = 0
  else ∀ v ∈ SCORE.drop (e % n + 1), v.2 = 0

instance (n slot e : ℕ) (SCORE : List (Bool × ℤ)) : Decidable (Fresh n slot e SCORE) := by
  unfold Fresh
  infer_instance

theorem mem_drop {SCORE : List (Bool × ℤ)} {a i : ℕ} {v : Bool × ℤ} (hi : a < i)
    (hv : SCORE[i]? = some v) : v ∈ SCORE.drop (a + 1) := by
  refine List.mem_iff_getElem?.mpr ⟨i - (a + 1), ?_⟩
  rw [List.getElem?_drop, Nat.add_sub_of_le hi, hv]

theorem mem_take_drop {SCORE : List (Bool × ℤ)} {a b i : ℕ} {v : Bool × ℤ} (ha : a < i) (hb : i ≤ b)
    (hv : SCORE[i]? = some v) : v ∈ (SCORE.take (b + 1)).drop (a + 1) :=
  mem_drop ha ((List.getElem?_take_of_lt (by omega)).trans hv)

/-- The score after the increment is the average over the last `n` seconds. -/
def Averages (n : ℕ) (past : History TimedScore Increment Empty)
    (o : Occurrence TimedScore Increment Empty) : Prop :=
  o.after.score.score = some ((windowSum n o.event.second ((o :: past).map (·.event))).tdiv n)

instance (n : ℕ) (past : History TimedScore Increment Empty)
    (o : Occurrence TimedScore Increment Empty) :
    Decidable (Averages n past o) := inferInstanceAs (Decidable (_ = _))

section Runs

variable {n : ℕ} {history : History TimedScore Increment Empty} {s s' : TimedScore}

theorem elapsed_eq {start : ℤ} {x : Increment}
    (htimer : s.score.TIMER = Timer.new.start (ofSeconds start))
    (hle : start ≤ x.second) (hstart : ClockShows start) (hclock : ClockShows x.second) :
    s.elapsed x = (x.second - start).toNat := by
  obtain ⟨hlow, -⟩ := hstart
  obtain ⟨-, hhigh⟩ := hclock
  unfold ofSeconds at hlow hhigh
  rw [TimedScore.elapsed, htimer, Timer.elapsed_start _ (by unfold ofSeconds; omega)
    (by unfold ofSeconds; omega)]
  congr 1
  unfold ofSeconds
  omega

/-- What is left behind the new slot at a restart is the second it should be. -/
theorem Holds.left_of_fresh {slot : ℕ} {start nScore last second : ℤ} {increments : List Increment}
    {score : DdosScore} (h : Holds n start slot nScore increments last score)
    (hge : start + n ≤ second)
    (hfresh : Fresh n slot (second - start).toNat score.SCORE) (i : ℕ) (v : Bool × ℤ)
    (hi : (second - start).toNat % n < i) (hv : score.SCORE[i]? = some v) :
    v.2 = secondSum (second - n - ((second - start).toNat % n : ℕ) + i) increments := by
  have hlast := h.last_lt
  have hstart := h.start_le
  rw [Fresh, if_neg (by omega)] at hfresh
  split_ifs at hfresh with htwo
  · obtain ⟨hslot, hfresh⟩ := hfresh
    have hmod : (second - start).toNat % n = (second - start).toNat - n := by
      rw [Nat.mod_eq_sub_mod (by omega), Nat.mod_eq_of_lt (by omega)]
    rw [hmod] at hi ⊢
    have hsecond : second - n - ((second - start).toNat - n : ℕ) + i = start + i := by omega
    rw [hsecond]
    by_cases hvisited : i ≤ max slot (last - start).toNat
    · rw [h.visited i v hvisited hv, if_neg (by omega), if_neg (by omega), add_zero, sub_zero]
    · rw [secondSum_eq_zero fun x hx => by have hx := h.le_last x hx; omega]
      obtain ⟨visited, value⟩ := v
      cases visited with
      | false => exact hfresh _ (mem_drop hi hv) rfl
      | true => exact (h.unvisited i _ (by omega) hv).2 rfl
  · have hdiv := Nat.mod_add_div (second - start).toNat n
    rw [hfresh v (mem_drop hi hv), secondSum_eq_zero]
    intro x hx
    have hx := h.le_last x hx
    have hspan : 2 ≤ (second - start).toNat / n := (Nat.le_div_iff_mul_le (by omega)).mpr (by omega)
    have hturns : n * 2 ≤ n * ((second - start).toNat / n) := Nat.mul_le_mul_left n hspan
    omega

theorem Holds.averages {slot : ℕ} {start nScore last : ℤ} {increments : List Increment}
    {score : DdosScore}
    (h : Holds n start slot nScore increments last score)
    (hsum : (score.SCORE.map (·.2)).sum = windowSum n last increments) :
    score.score = some ((windowSum n last increments).tdiv n) := by
  have hslot := h.slot_lt
  rw [DdosScore.score, h.length, if_neg (by omega), hsum]

theorem Holds.step {slot : ℕ} {start nScore : ℤ} {increments : List Increment} {x : Increment}
    {out : List Empty} (h : Holds n start slot nScore increments s.second s.score)
    (hfits : n < 2 ^ 31)
    (hstartClock : ClockShows start) (hstep : s.step x = some (s', out))
    (hfresh : Fresh n slot (s.elapsed x) s.score.SCORE) :
    s'.second = x.second ∧ (∃ start' nScore', ClockShows start' ∧
      Holds n start' (if s.elapsed x < n then slot else s.elapsed x % n) nScore'
        (x :: increments) x.second
        s'.score) ∧
      s'.score.score = some ((windowSum n x.second (x :: increments)).tdiv n) := by
  unfold TimedScore.step at hstep
  split_ifs at hstep with hguard
  obtain ⟨hle, hclock⟩ := hguard
  obtain ⟨score, hadd, hs'⟩ := Option.map_eq_some_iff.mp hstep
  cases hs'
  have hstart := h.start_le
  have hlast := h.last_lt
  have hslot := h.slot_lt
  have hiterator := h.iterator
  have hlength := h.length
  have helapsed := elapsed_eq h.timer (hstart.trans hle) hstartClock hclock
  have hseconds : (s.score.TIMER.elapsed (ofSeconds x.second)).toNat = (x.second - start).toNat :=
    helapsed
  rw [helapsed] at hfresh ⊢
  refine ⟨rfl, ?_⟩
  by_cases hlt : (x.second - start).toNat < n
  · obtain ⟨score', hadd', hrecords⟩ :=
      DdosScore.add_of_lt (s := s.score) (hseconds ▸ hlength ▸ hlt)
      (by omega)
    cases hadd.symm.trans hadd'
    rw [hseconds] at hrecords
    have hholds := h.next hle (by omega) (by omega) hrecords
    rw [if_pos hlt]
    rw [Fresh, if_pos hlt] at hfresh
    refine ⟨⟨start, nScore, hstartClock, hholds⟩, hholds.averages (hholds.sum_eq ?_)⟩
    intro i v hbehind hmoved hv
    obtain ⟨visited, value⟩ := v
    cases visited with
    | true => exact (hholds.unvisited i _ hbehind hv).2 rfl
    | false =>
      exact hfresh _ (mem_take_drop hbehind hmoved
        ((hrecords.slot_behind (by omega)).symm.trans hv)) rfl
  · obtain ⟨score', hadd', hrecords⟩ :=
      DdosScore.add_of_ge (s := s.score) (hlength ▸ (by omega : 0 < n))
      (hseconds ▸ hlength ▸ not_lt.mp hlt)
    cases hadd.symm.trans hadd'
    rw [hseconds, hlength] at hrecords
    have hge : start + n ≤ x.second := by omega
    have hholds := h.restart hge (by omega) (h.left_of_fresh hge hfresh) hrecords
    rw [if_neg hlt]
    refine ⟨⟨x.second, x.nScore, hclock, hholds⟩, hholds.averages (hholds.sum_eq ?_)⟩
    intro i v hbehind hmoved
    omega

/-- An increment never leaves the slots. -/
theorem Holds.step_isSome {slot : ℕ} {start nScore : ℤ} {increments : List Increment}
    {x : Increment}
    (h : Holds n start slot nScore increments s.second s.score) (hle : s.second ≤ x.second)
    (hclock : ClockShows x.second) : (s.step x).isSome := by
  have hslot := h.slot_lt
  have hlast := h.last_lt
  have hiterator := h.iterator
  have hlength := h.length
  rw [TimedScore.step, if_pos ⟨hle, hclock⟩, Option.isSome_map]
  obtain ⟨_, _, hadd, -⟩ := DdosScore.exists_add (s := s.score) (by omega)
  rw [hadd]
  rfl

/-- While nothing counts that is older than the time span, every increment is counted and the score
is the moving average. -/
theorem averages_of_fresh (hpos : 1 ≤ n) (hfits : n < 2 ^ 31)
    (hrun : Run TimedScore.step (TimedScore.Starts n) history s)
    (hfresh : Throughout (fun past o =>
      Fresh n (restartSlot n past) (o.before.elapsed o.event) o.before.score.SCORE) history) :
    Throughout (Averages n) history ∧
      ∀ x : Increment, s.second ≤ x.second → ClockShows x.second → (s.step x).isSome := by
  suffices hall : (∃ start nScore, ClockShows start ∧
      Holds n start (restartSlot n history) nScore (history.map (·.event)) s.second s.score) ∧
        Throughout (Averages n) history by
    obtain ⟨⟨_, _, _, hholds⟩, haverages⟩ := hall
    exact ⟨haverages, fun x => hholds.step_isSome⟩
  induction hrun with
  | @start s h =>
    obtain ⟨hclock, hscore⟩ := h
    rw [hscore]
    exact ⟨⟨_, _, hclock, Holds.new hpos _⟩, trivial⟩
  | next hrun hstep ih =>
    obtain ⟨hnow, hpast⟩ := hfresh
    obtain ⟨⟨start, nScore, hstartClock, hholds⟩, haverages⟩ := ih hpast
    obtain ⟨hsecond, hnext, haverage⟩ := hholds.step hfits hstartClock hstep hnow
    rw [hsecond]
    exact ⟨hnext, haverage, haverages⟩

end Runs

/-! ### A gap of two spans -/

def thirtySeconds : TimedScore := ⟨.new 30 (ofSeconds 0), 0⟩

theorem thirtySeconds_starts : TimedScore.Starts 30 thirtySeconds := ⟨by decide, rfl⟩

/-- The second increment comes a second after the first span. -/
theorem shortGap_averages : ∃ history s, Run TimedScore.step (TimedScore.Starts 30) history s ∧
    history.length = 3 ∧ Throughout (Averages 30) history := by
  obtain ⟨history, s, hrun, htest⟩ := @exists_run_of_trace _ _ _ TimedScore.step
    (TimedScore.Starts 30) _ thirtySeconds_starts [⟨1, 30⟩, ⟨31, 60⟩, ⟨32, 90⟩]
    (fun history => decide (history.length = 3 ∧ Throughout (fun past o =>
      Fresh 30 (restartSlot 30 past) (o.before.elapsed o.event) o.before.score.SCORE) history))
    (by decide +kernel)
  obtain ⟨hlength, hfresh⟩ := of_decide_eq_true htest
  exact ⟨history, s, hrun, hlength, (averages_of_fresh (by decide) (by decide) hrun hfresh).1⟩

/-- The score of second 1 still counts at second 60. -/
theorem staleSlot_counts : ¬ ∀ n, 1 ≤ n → n < 2 ^ 31 →
    ∀ history s, Run TimedScore.step (TimedScore.Starts n) history s →
      Throughout (Averages n) history := by
  intro h
  obtain ⟨history, s, hrun, htest⟩ := @exists_run_of_trace _ _ _ TimedScore.step
    (TimedScore.Starts 30) _ thirtySeconds_starts [⟨1, 30⟩, ⟨60, 30⟩]
    (fun history => decide (¬ Throughout (Averages 30) history)) (by decide +kernel)
  exact of_decide_eq_true htest (h 30 (by decide) (by decide) history s hrun)

end NexusPool.LLP
