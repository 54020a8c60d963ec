import NexusPool.Network.DdosAverage

/-!
# The bounds of a score

`operator+=` takes its index from the clock, which knows no bound, and runs its loop from the slot
of the last increment to that index. An increment leaves behind an index below the time span,
whatever the clock shows, so the next one stays inside the slots again.
-/

namespace NexusPool.LLP

open Reactive

namespace DdosScore

/-! ### The loop in 64 bits -/

/-- The loop of `operator+=`. `none` when the fuel does not suffice or `SCORE` is accessed past its
end. -/
def visitUpTo (nTime : UInt64) : ℕ → UInt64 → List (Bool × ℤ) → Option (List (Bool × ℤ))
  | 0, _, _ => none
  | fuel + 1, i, SCORE =>
    if i ≤ nTime then (visit SCORE i.toNat).bind (visitUpTo nTime fuel (i + 1)) else some SCORE

/-- `operator+=` with its 64-bit integers; a division by zero is undefined as well. -/
def addAssign (fuel : ℕ) (s : DdosScore) (nScore now resetAt : ℤ) : Option DdosScore := do
  let nTime := s.TIMER.elapsed now
  let size : UInt64 := .ofNat s.SCORE.length
  let (s, nTime) ←
    if nTime ≥ size then
      if size = 0 then none else some (s.reset resetAt, nTime % size)
    else some (s, nTime)
  let SCORE ← visitUpTo nTime fuel s.nIterator s.SCORE
  let slot ← SCORE[nTime.toNat]?
  return { s with SCORE := SCORE.set nTime.toNat (slot.1, slot.2 + nScore), nIterator := nTime }

/-- The loop ends, unless `nTime` is the largest index there is. -/
theorem visitUpTo_eq {nTime : UInt64} (hnTime : nTime.toNat + 1 < 2 ^ 64) {fuel : ℕ} {i : UInt64}
    {SCORE : List (Bool × ℤ)} (hfuel : nTime.toNat + 1 - i.toNat < fuel) :
    visitUpTo nTime fuel i SCORE =
      (List.range' i.toNat (nTime.toNat + 1 - i.toNat)).foldlM visit SCORE := by
  induction fuel generalizing i SCORE with
  | zero => omega
  | succ fuel ih =>
    rw [visitUpTo]
    by_cases hle : i ≤ nTime
    · have hle' := UInt64.le_iff_toNat_le.mp hle
      have hone : (1 : UInt64).toNat = 1 := rfl
      have hnext : (i + 1).toNat = i.toNat + 1 := by
        rw [UInt64.toNat_add]
        omega
      have hcount : nTime.toNat + 1 - i.toNat = nTime.toNat + 1 - (i + 1).toNat + 1 := by omega
      rw [if_pos hle, hcount, List.range'_succ, List.foldlM_cons, Option.bind_eq_bind]
      congr 1
      funext SCORE'
      rw [ih (by omega), hnext]
    · have hlt : nTime.toNat < i.toNat := not_le.mp (mt UInt64.le_iff_toNat_le.mpr hle)
      have hcount : nTime.toNat + 1 - i.toNat = 0 := by omega
      rw [if_neg hle, hcount]
      rfl

/-! ### The invariant -/

/-- The slots are those of the time span, and the loop will start at one of them. -/
structure Bounded (n : ℕ) (s : DdosScore) : Prop where
  length : s.SCORE.length = n
  iterator : s.nIterator.toNat < n

namespace Bounded

variable {n : ℕ} {s : DdosScore}

theorem new (hpos : 1 ≤ n) (now : ℤ) : Bounded n (.new n now) := ⟨List.length_replicate, hpos⟩

theorem pos (h : Bounded n s) : 0 < n := Nat.zero_lt_of_lt h.iterator

theorem reset (h : Bounded n s) (now : ℤ) : Bounded n (s.reset now) :=
  ⟨(List.length_map _).trans h.length, h.pos⟩

theorem flush (h : Bounded n s) (now : ℤ) : Bounded n (s.flush now) :=
  ⟨(List.length_map _).trans (h.reset now).length, h.pos⟩

theorem score (h : Bounded n s) : s.score = some ((s.SCORE.map Prod.snd).sum.tdiv n) := by
  have hpos := h.pos
  rw [DdosScore.score, h.length, if_neg (by omega)]

theorem add (h : Bounded n s) (hfits : n < 2 ^ 31) (nScore now resetAt : ℤ) :
    ∃ s', s.add nScore now resetAt = some s' ∧ Bounded n s' := by
  obtain ⟨s', b, hs', hb, hlength, hiterator⟩ := exists_add (h.iterator.trans_eq h.length.symm)
  rw [h.length] at hb hlength
  refine ⟨s', hs', hlength, ?_⟩
  rw [hiterator, UInt64.toNat_ofNat_of_lt' (hb.trans (hfits.trans (by decide)))]
  exact hb

/-- The 64-bit integers hold every index there is, so the loop ends and `add` is what the code
computes. -/
theorem addAssign_eq (h : Bounded n s) (hfits : n < 2 ^ 31) {fuel : ℕ} (hfuel : n < fuel)
    (nScore now resetAt : ℤ) : s.addAssign fuel nScore now resetAt = s.add nScore now resetAt := by
  have hlength := h.length
  have hpos := h.pos
  have hsize : (UInt64.ofNat s.SCORE.length).toNat = s.SCORE.length := by
    rw [hlength]
    exact UInt64.toNat_ofNat_of_lt' (hfits.trans (by decide))
  have hcompare : s.TIMER.elapsed now ≥ .ofNat s.SCORE.length ↔
      (s.TIMER.elapsed now).toNat ≥ s.SCORE.length := by
    rw [ge_iff_le, UInt64.le_iff_toNat_le, hsize]
  unfold addAssign DdosScore.add
  by_cases hlt : (s.TIMER.elapsed now).toNat < s.SCORE.length
  · rw [if_neg (mt hcompare.mp (not_le.mpr hlt)), if_neg (not_le.mpr hlt)]
    simp only [Option.bind_eq_bind, Option.bind_some]
    rw [visitUpTo_eq (by omega) (by omega), UInt64.ofNat_toNat]
  · have hne : UInt64.ofNat s.SCORE.length ≠ 0 := by
      intro hzero
      rw [hzero] at hsize
      change 0 = _ at hsize
      omega
    have hindex : (s.TIMER.elapsed now % .ofNat s.SCORE.length).toNat =
        (s.TIMER.elapsed now).toNat % s.SCORE.length := by
      rw [UInt64.toNat_mod, hsize]
    have hbelow : (s.TIMER.elapsed now % .ofNat s.SCORE.length).toNat < n := by
      rw [hindex, hlength]
      exact Nat.mod_lt _ hpos
    rw [if_pos (hcompare.mpr (not_lt.mp hlt)), if_neg hne, if_pos (not_lt.mp hlt),
      if_neg (by omega)]
    simp only [Option.bind_eq_bind, Option.bind_some]
    rw [visitUpTo_eq (by omega) (by omega), ← hindex, UInt64.ofNat_toNat]

end Bounded

/-! ### Runs of calls -/

/-- The public operations of a score. -/
inductive Call
  | addAssign (nScore now resetAt : ℤ)
  | flush (now : ℤ)
  | score

/-- A call of `Score` returns the average. -/
def step (fuel : ℕ) (s : DdosScore) : Call → Option (DdosScore × List ℤ)
  | .addAssign nScore now resetAt => (s.addAssign fuel nScore now resetAt).map fun s' => (s', [])
  | .flush now => some (s.flush now, [])
  | .score => s.score.map fun average => (s, [average])

theorem Bounded.step {n : ℕ} {s : DdosScore} (h : Bounded n s) (hfits : n < 2 ^ 31) {fuel : ℕ}
    (hfuel : n < fuel) (call : Call) :
    ∃ s' out, s.step fuel call = some (s', out) ∧ Bounded n s' := by
  cases call with
  | addAssign nScore now resetAt =>
    obtain ⟨s', hs', hbounded⟩ := h.add hfits nScore now resetAt
    refine ⟨s', [], ?_, hbounded⟩
    rw [DdosScore.step, h.addAssign_eq hfits hfuel, hs', Option.map_some]
  | flush now => exact ⟨_, _, rfl, h.flush now⟩
  | score => exact ⟨s, _, by rw [DdosScore.step, h.score, Option.map_some], h⟩

/-- Every sequence of calls is defined, whatever the clock shows at each of them: no access leaves
the slots, every loop ends, and no average is divided by zero. -/
theorem calls_defined {n : ℕ} (hpos : 1 ≤ n) (hfits : n < 2 ^ 31) {fuel : ℕ} (hfuel : n < fuel)
    (start : ℤ) (calls : List Call) :
    ∃ history s, trace (DdosScore.step fuel) (.new n start) calls = some (history, s) ∧
      history.length = calls.length ∧
      Throughout (fun _ o => Bounded n o.before ∧ Bounded n o.after) history ∧
      s.SCORE.length = n ∧ s.nIterator.toNat < n := by
  obtain ⟨history, s, htrace, hlength, hthroughout, hbounded⟩ :=
    exists_trace (fun _ call h => Bounded.step h hfits hfuel call) (Bounded.new hpos start) calls
  exact ⟨history, s, htrace, hlength, hthroughout, hbounded.length, hbounded.iterator⟩

/-- Forward over more than a span, and back before the start. -/
theorem thirtySeconds_defined : ∃ history s,
    trace (DdosScore.step 31) (.new 30 0)
      [.addAssign 1 100000000000 100000000001, .addAssign 2 5 7, .flush 9, .score] =
        some (history, s) ∧
    s.nIterator.toNat < 30 := by
  obtain ⟨history, s, htrace, -, -, -, hiterator⟩ := calls_defined (by decide : 1 ≤ 30) (by decide)
    (by decide : 30 < 31) 0 [.addAssign 1 100000000000 100000000001, .addAssign 2 5 7,
      .flush 9, .score]
  exact ⟨history, s, htrace, hiterator⟩

end DdosScore

end NexusPool.LLP
