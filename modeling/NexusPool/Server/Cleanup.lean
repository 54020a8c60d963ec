import NexusPool.Library.Loops
import NexusPool.Server.Step

/-!
# Removing expired entries

`cleanup_expired_pool_connections` erases from the vector it walks over, and the increment of the
loop follows every erasure. The connection behind an erased one is not looked at, and behind the
last one the iterator leaves the vector.
-/

namespace NexusPool

open Reactive World

def World.expired (w : World) (poolData : PoolConnectionData) : Bool :=
  (w.lock poolData.mConnection).isNone

namespace DaemonConnection

def cleanupExpiredPoolConnections : Act Unit := do
  let w ← Action.get
  let mPoolConnections ← Action.ofOption (Loop.eraseWalk w.expired 0 w.daemon.mPoolConnections)
  Action.modify (modifyDaemon ({ · with mPoolConnections := mPoolConnections }))

/-- An expiry that was not canceled. The source never starts this timer. -/
def maintenanceTimerHandler : Act Unit := cleanupExpiredPoolConnections

theorem cleanupExpiredPoolConnections_eq_some {u : Unit} {w w' : World} {out : List Output} :
    cleanupExpiredPoolConnections w = some (u, w', out) ↔
      ∃ mPoolConnections, Loop.sweep w.expired w.daemon.mPoolConnections = some mPoolConnections ∧
        w' = w.modifyDaemon ({ · with mPoolConnections := mPoolConnections }) ∧ out = [] := by
  rw [cleanupExpiredPoolConnections, Action.get_bind, Loop.eraseWalk_zero]
  simp only [Action.bind_eq_some_iff, Action.ofOption_eq_some_iff, Action.modify_eq_some_iff]
  constructor
  · rintro ⟨mPoolConnections, _, _, _, ⟨hsweep, rfl, rfl⟩, ⟨rfl, rfl⟩, rfl⟩
    exact ⟨mPoolConnections, hsweep, rfl, rfl⟩
  · rintro ⟨mPoolConnections, hsweep, rfl, rfl⟩
    exact ⟨mPoolConnections, _, _, _, ⟨hsweep, rfl, rfl⟩, ⟨rfl, rfl⟩, rfl⟩

end DaemonConnection

/-- The same state without the expired entries. The others are as they were, in their order. -/
def World.withoutExpired (w : World) : World :=
  w.modifyDaemon fun d => { d with mPoolConnections := d.mPoolConnections.filter (!w.expired ·) }

/-- The cleanup comes to its end, and has removed the expired entries and nothing else. -/
def World.CleansUp (w : World) : Prop :=
  DaemonConnection.cleanupExpiredPoolConnections w = some ((), w.withoutExpired, [])

/-- That is so if behind every expired entry there is one that is not expired. -/
theorem World.cleansUp_iff (w : World) : w.CleansUp ↔
    ∀ j poolData, w.daemon.mPoolConnections[j]? = some poolData → w.expired poolData →
      ∃ next, w.daemon.mPoolConnections[j + 1]? = some next ∧ ¬ w.expired next := by
  refine Iff.trans ?_ (Loop.sweep_eq_filter_iff w.daemon.mPoolConnections)
  rw [CleansUp, DaemonConnection.cleanupExpiredPoolConnections_eq_some]
  constructor
  · rintro ⟨mPoolConnections, hsweep, heq, -⟩
    have hentries := congrArg (·.daemon.mPoolConnections) heq
    rw [hsweep]
    exact congrArg some hentries.symm
  · exact fun hsweep => ⟨_, hsweep, rfl, rfl⟩

section OneClosed

attribute [local instance] Platform.plain

def oneClosed : List Event := [.minerConnected [1], .minerClosed 0, .serverMaintenance]

/-- Its entry is the last one. -/
theorem lastExpired_not_cleansUp : ¬ ∀ (platform : Platform) (history : History World Event Output)
    (w : World), @ServerRun platform history w → w.CleansUp := by
  intro h
  obtain ⟨⟨history, w⟩, hw⟩ : ∃ r, trace World.step .fresh oneClosed = some r :=
    Option.isSome_iff_exists.mp (by decide +kernel)
  have hexpired : (trace World.step .fresh oneClosed).any (fun r =>
      r.2.daemon.mPoolConnections.length == 1 && r.2.daemon.mPoolConnections.all r.2.expired) =
        true := by
    decide +kernel
  rw [hw, Option.any_some, Bool.and_eq_true, beq_iff_eq, List.all_eq_true] at hexpired
  obtain ⟨hlength, hexpired⟩ := hexpired
  obtain ⟨poolData, hentries⟩ := List.length_eq_one_iff.mp hlength
  rw [hentries] at hexpired
  have hcleans := w.cleansUp_iff.mp
    (h .plain history w (Run.of_trace World.fresh_initial hw)) 0 poolData
  rw [hentries] at hcleans
  obtain ⟨next, hnext, -⟩ := hcleans rfl (hexpired poolData List.mem_cons_self)
  cases hnext

end OneClosed

end NexusPool
