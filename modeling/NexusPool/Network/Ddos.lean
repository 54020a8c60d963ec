import Mathlib.Tactic

/-!
# The DDOS filter

`DDOS_Score` counts what a connection does in each second of a time span, and `DDOS_Filter`
bans it, the longer the more often it was banned. Each reading of the clock is an argument, in
nanoseconds.
-/

namespace NexusPool.LLP

/-- `endTime` counts only for a timer that was stopped. -/
structure Timer where
  startTime : ℤ
  endTime : ℤ
  fStopped : Bool

namespace Timer

def new : Timer := ⟨0, 0, false⟩

def start (timer : Timer) (now : ℤ) : Timer := { timer with startTime := now, fStopped := false }

def reset (timer : Timer) (now : ℤ) : Timer := timer.start now

/-- Whole seconds, in an unsigned type: before its start a timer shows a huge number. -/
def elapsed (timer : Timer) (now : ℤ) : UInt64 :=
  .ofInt (((if timer.fStopped then timer.endTime else now) - timer.startTime).tdiv 1000000000)

/-- As long as the seconds fit their type, they are counted down to the whole second. -/
theorem elapsed_start (timer : Timer) {startAt now : ℤ} (hle : startAt ≤ now)
    (hfits : now - startAt < 2 ^ 64 * 1000000000) :
    ((timer.start startAt).elapsed now).toNat = ((now - startAt) / 1000000000).toNat := by
  have hnonneg : 0 ≤ now - startAt := by omega
  have hdiv : (now - startAt).tdiv 1000000000 = (now - startAt) / 1000000000 :=
    Int.tdiv_eq_ediv_of_nonneg hnonneg
  have hseconds : 0 ≤ (now - startAt) / 1000000000 := by omega
  have hlt : (now - startAt) / 1000000000 < 2 ^ 64 := by omega
  simp only [elapsed, start, Bool.false_eq_true, if_false, hdiv]
  rw [UInt64.ofInt, Int.emod_eq_of_lt hseconds hlt, UInt64.toNat_ofNat']
  omega

end Timer

/-- Each slot of `SCORE` says if the loop of `operator+=` has come by, and holds a score. -/
structure DdosScore where
  SCORE : List (Bool × ℤ)
  TIMER : Timer
  nIterator : UInt64

namespace DdosScore

def new (nTimespan : ℕ) (now : ℤ) : DdosScore :=
  ⟨.replicate nTimespan (true, 0), Timer.new.start now, 0⟩

/-- The scores stay; they are to be overwritten. -/
def reset (s : DdosScore) (now : ℤ) : DdosScore where
  SCORE := s.SCORE.map fun slot => (false, slot.2)
  TIMER := s.TIMER.reset now
  nIterator := 0

def flush (s : DdosScore) (now : ℤ) : DdosScore :=
  let s := s.reset now
  { s with SCORE := s.SCORE.map fun slot => (slot.1, 0) }

/-- The average over the slots, of which there has to be one. -/
def score (s : DdosScore) : Option ℤ :=
  if s.SCORE.length = 0 then none
  else some (Int.tdiv (s.SCORE.map (·.2)).sum s.SCORE.length)

/-- A turn of the loop of `operator+=`. -/
def visit (SCORE : List (Bool × ℤ)) (i : ℕ) : Option (List (Bool × ℤ)) := do
  let slot ← SCORE[i]?
  return if slot.1 then SCORE else SCORE.set i (true, 0)

/-- `operator+=`, undefined where `SCORE` is accessed past its end. The second reading is that
of the reset. -/
def add (s : DdosScore) (nScore now resetAt : ℤ) : Option DdosScore := do
  let nTime := s.TIMER.elapsed now
  let (s, nTime) ←
    if nTime.toNat ≥ s.SCORE.length then
      if s.SCORE.length = 0 then none
      else some (s.reset resetAt, nTime.toNat % s.SCORE.length)
    else some (s, nTime.toNat)
  let visited := List.range' s.nIterator.toNat (nTime + 1 - s.nIterator.toNat)
  let SCORE ← visited.foldlM visit s.SCORE
  let slot ← SCORE[nTime]?
  return { s with SCORE := SCORE.set nTime (slot.1, slot.2 + nScore), nIterator := .ofNat nTime }

end DdosScore

/-- `BANTIME` is in seconds. -/
structure DdosFilter where
  TIMER : Timer
  BANTIME : UInt32
  TOTALBANS : UInt32
  rSCORE : DdosScore
  cSCORE : DdosScore

namespace DdosFilter

def new (nTimespan : ℕ) (rStart cStart : ℤ) : DdosFilter :=
  ⟨.new, 0, 0, .new nTimespan rStart, .new nTimespan cStart⟩

def banned (f : DdosFilter) (now : ℤ) : Bool := f.TIMER.elapsed now < f.BANTIME.toUInt64

/-- Does nothing during a ban. The clock is read by `Banned`, at the start of the timer and by
the two flushes. -/
def ban (f : DdosFilter) (clock : ℕ → ℤ) : Option DdosFilter :=
  if f.banned (clock 0) then some f
  else do
    let rScore ← f.rSCORE.score
    let cScore ← f.cSCORE.score
    let TOTALBANS := f.TOTALBANS + 1
    return {
      TIMER := f.TIMER.start (clock 1)
      BANTIME := max (TOTALBANS * .ofInt (rScore + 1) * .ofInt (cScore + 1)) (TOTALBANS * 1200)
      TOTALBANS := TOTALBANS
      cSCORE := f.cSCORE.flush (clock 2)
      rSCORE := f.rSCORE.flush (clock 3) }

theorem toNat_le_max (a b : UInt32) : b.toNat ≤ (max a b).toNat := by
  change b.toNat ≤ (if a ≤ b then b else a).toNat
  split_ifs with hle
  · exact le_rfl
  · exact UInt32.le_iff_toNat_le.mp (UInt32.le_of_lt (UInt32.not_le.mp hle))

/-- A ban is felt for as long as it was imposed: 1200 seconds for each ban there was, unless
that does not fit the type. -/
theorem banned_of_ban {f f' : DdosFilter} {clock : ℕ → ℤ} (h : f.ban clock = some f')
    (himposed : f.banned (clock 0) = false) (hfits : f.TOTALBANS.toNat + 1 < 2 ^ 32 / 1200)
    {now : ℤ} (hstart : clock 1 ≤ now)
    (hnow : now < clock 1 + 1200 * (f.TOTALBANS.toNat + 1) * 1000000000) :
    f'.banned now = true := by
  unfold ban at h
  rw [himposed, if_neg Bool.false_ne_true] at h
  simp only [Option.bind_eq_bind, Option.bind_eq_some_iff] at h
  obtain ⟨rScore, -, cScore, -, hf'⟩ := h
  cases hf'
  have hcount : (f.TOTALBANS + 1).toNat = f.TOTALBANS.toNat + 1 := by
    rw [UInt32.toNat_add]
    have hone : (1 : UInt32).toNat = 1 := rfl
    omega
  have hseconds : ((f.TOTALBANS + 1) * 1200).toNat = (f.TOTALBANS.toNat + 1) * 1200 := by
    have htwelve : (1200 : UInt32).toNat = 1200 := rfl
    rw [UInt32.toNat_mul, hcount, htwelve]
    omega
  have helapsed := f.TIMER.elapsed_start hstart (by omega)
  unfold banned
  rw [decide_eq_true_eq, UInt64.lt_iff_toNat_lt, helapsed, UInt32.toNat_toUInt64]
  have hmax := toNat_le_max ((f.TOTALBANS + 1) * .ofInt (rScore + 1) * .ofInt (cScore + 1))
    ((f.TOTALBANS + 1) * 1200)
  rw [hseconds] at hmax
  apply lt_of_lt_of_le _ hmax
  omega

end DdosFilter

end NexusPool.LLP
