import NexusPool.Server.Step
import Mathlib.Logic.Relation

/-!
# The server process

`main` constructs the server, initialises it and runs it; from then on the events arrive. The
global variables of the prime tests live as long as the process, and the share verification
of every event reads them.
-/

namespace NexusPool

open Reactive

/-- How far `main` has come. -/
inductive Phase
  | constructed
  | initFailed
  | initialised (registry : DataRegistry)
  | runReturned
  | running (w : World)

structure Process where
  globals : Prime.Globals
  phase : Phase

/-- The platform of a process: shares are verified with its globals. -/
@[reducible] def Platform.verifying (platform : Platform) (g : Prime.Globals) (fuel : ℕ) :
    Platform :=
  { platform with gmpVerification := Prime.gmpVerification g fuel }

namespace Process

/-- Before `main` does anything. -/
def initial : Process := ⟨.static, .constructed⟩

/-- What `main`, `Server::init` and `Server::run` do to the process, and what events do. None
of them assigns the globals. -/
inductive Step (platform : Platform) (fuel : ℕ) : Process → Process → Prop
  | configMissing {g : Prime.Globals} : Step platform fuel ⟨g, .constructed⟩ ⟨g, .initFailed⟩
  | init {g : Prime.Globals} {config : Config} {blockDb : Database Uint1024 Block}
      {accountDb : Database Bytes Account} :
      Step platform fuel ⟨g, .constructed⟩
        ⟨g, .initialised (DataRegistry.init config blockDb accountDb)⟩
  | connectFailed {g : Prime.Globals} {registry : DataRegistry} :
      Step platform fuel ⟨g, .initialised registry⟩ ⟨g, .runReturned⟩
  | run {g : Prime.Globals} {registry : DataRegistry} {mRoundReward : UInt64} :
      Step platform fuel ⟨g, .initialised registry⟩ ⟨g, .running (World.init registry mRoundReward)⟩
  | event {g : Prime.Globals} {w w' : World} {e : Event} {out : List Output}
      (step : @World.step (platform.verifying g fuel) w e = some (w', out)) :
      Step platform fuel ⟨g, .running w⟩ ⟨g, .running w'⟩

/-- The states a process can reach. -/
def Reachable (platform : Platform) (fuel : ℕ) (p : Process) : Prop :=
  Relation.ReflTransGen (Step platform fuel) initial p

/-- The test decides what it is for on `n`, and a share on a number that passes has a positive
difficulty. -/
def VerifiesShares (p : Process) (fuel n : ℕ) : Prop :=
  (Prime.gmpPrimeTest p.globals n = some true ↔ Prime.Passes n) ∧
    ∀ prime : Uint1024, prime.toNat = n → Prime.Passes n →
      ∃ nDifficulty, Prime.gmpVerification p.globals fuel prime = some nDifficulty ∧ nDifficulty > 0

variable {platform : Platform} {fuel : ℕ} {p : Process}

theorem globals_of_reachable (h : Reachable platform fuel p) : p.globals = .static := by
  induction h with
  | refl => rfl
  | tail _ hstep ih =>
    cases hstep with
    | configMissing => exact ih
    | init => exact ih
    | connectFailed => exact ih
    | run => exact ih
    | event step => exact ih

/-- Every share is below any positive difficulty, in every state of the process. -/
theorem difficulty_eq_zero (h : Reachable platform fuel p) {prime : Uint1024}
    (hprime : 1 < prime.toNat)
    {nDifficulty : ℚ} (hverified : Prime.gmpVerification p.globals fuel prime = some nDifficulty) :
    nDifficulty = 0 := by
  rw [globals_of_reachable h, Prime.gmpVerification_static fuel hprime] at hverified
  exact (Option.some.inj hverified).symm

/-- The running server verifies a share right exactly where the right answer is to refuse it. -/
theorem verifiesShares_iff (h : Reachable platform fuel p) {n : ℕ} (hn : 1 < n) :
    p.VerifiesShares fuel n ↔ ¬ Prime.Passes n := by
  have htest : Prime.gmpPrimeTest p.globals n = some false := by
    rw [globals_of_reachable h, Prime.gmpPrimeTest_static hn]
  rw [VerifiesShares, htest]
  constructor
  · rintro ⟨hiff, -⟩ hpasses
    exact absurd (hiff.mpr hpasses) (by decide)
  · intro hfails
    exact ⟨by simp [hfails], fun _ _ hpasses => absurd hpasses hfails⟩

def started : Process := ⟨.static, .running .fresh⟩

theorem started_reachable (platform : Platform) (fuel : ℕ) : Reachable platform fuel started :=
  .tail (.tail .refl .init) .run

theorem started_refuses_four : started.VerifiesShares 1 4 :=
  (verifiesShares_iff (started_reachable .plain 1) (by decide)).mpr
    fun h => absurd h.2 (by decide)

/-- The prime 83 does not pass. -/
theorem started_refuses_prime : ¬ ∀ platform fuel p, Reachable platform fuel p →
    ∀ n, 1 < n → p.VerifiesShares fuel n := by
  intro h
  have hverifies := h .plain 1 started (started_reachable .plain 1) 83 (by decide)
  have hpasses : Prime.Passes 83 := ⟨by decide +kernel, by decide +kernel⟩
  have htest : Prime.gmpPrimeTest .static 83 = some true := hverifies.1.mpr hpasses
  rw [Prime.gmpPrimeTest_static (by decide)] at htest
  exact absurd htest (by decide)

end Process

end NexusPool
