import NexusPool.Hash.KeccakF
import NexusPool.Library.Loops

/-!
# The rounds of Keccak-f[1600]

The step mappings of the permutation, on an array of lanes with five columns and five rows. The
rotation offsets follow a walk through the array, and the round constants are read off a linear
feedback shift register. The code, which updates its lanes in place and looks the walk up in
tables, computes them, and none of them loses anything of the state.
-/

namespace NexusPool

open Rotation

attribute [local instance] InPlace.neZero_five

/-- The lane in column `x` and row `y`. -/
abbrev StateArray := Fin 5 → Fin 5 → UInt64

/-! ### The step mappings -/

namespace Keccak

def column (A : StateArray) (x : Fin 5) : UInt64 :=
  A x 0 ^^^ A x 1 ^^^ A x 2 ^^^ A x 3 ^^^ A x 4

def theta (A : StateArray) : StateArray := fun x y =>
  A x y ^^^ (column A (x - 1) ^^^ rotl (column A (x + 1)) 1)

/-- The walk comes to every lane but the one in column and row zero. -/
def walk : ℕ → Fin 5 × Fin 5
  | 0 => (1, 0)
  | t + 1 => ((walk t).2, 2 * (walk t).1 + 3 * (walk t).2)

def offset (x y : Fin 5) : ℕ :=
  ((List.range 24).find? (walk · = (x, y))).elim 0 fun t => (t + 1) * (t + 2) / 2

def rho (A : StateArray) : StateArray := fun x y => rotl (A x y) (offset x y)

def pi (A : StateArray) : StateArray := fun x y => A (x + 3 * y) x

def chi (A : StateArray) : StateArray := fun x y => A x y ^^^ (~~~A (x + 1) y &&& A (x + 2) y)

def shift : List Bool → List Bool
  | [r₀, r₁, r₂, r₃, r₄, r₅, r₆, r₇] => [r₇, r₀, r₁, r₂, r₃ ^^ r₇, r₄ ^^ r₇, r₅ ^^ r₇, r₆]
  | r => r

def rc (t : ℕ) : Bool :=
  (shift^[t] [true, false, false, false, false, false, false, false]).headD false

def roundConstant (ir : ℕ) : UInt64 :=
  (List.range 7).foldl
    (fun (constant : UInt64) j =>
      if rc (j + 7 * ir) then constant ^^^ (1 <<< UInt64.ofNat (2 ^ j - 1)) else constant) 0

def iota (ir : ℕ) (A : StateArray) : StateArray := fun x y =>
  if x = 0 ∧ y = 0 then A x y ^^^ roundConstant ir else A x y

def round (A : StateArray) (ir : ℕ) : StateArray := iota ir (chi (pi (rho (theta A))))

def keccakF (A : StateArray) : StateArray := (List.range 24).foldl round A

end Keccak

/-! ### The code computes the rounds -/

namespace KeccakF1600

def stateArray (state : Lanes) : StateArray := fun x y => state[laneIndex x y]

theorem stateArray_injective : Function.Injective stateArray := by
  intro state state' h
  apply Vector.ext
  intro i hi
  have hlane : stateArray state ⟨i % 5, by omega⟩ ⟨i / 5, by omega⟩ =
      stateArray state' ⟨i % 5, by omega⟩ ⟨i / 5, by omega⟩ := by rw [h]
  simpa [stateArray, laneIndex, Nat.div_add_mod'] using hlane

theorem laneIndex_injective :
    Function.Injective fun p : Fin 5 × Fin 5 => laneIndex p.1 p.2 := by
  rintro ⟨x, y⟩ ⟨x', y'⟩ h
  simp only [laneIndex, Fin.mk.injEq] at h
  simp only [Prod.mk.injEq, Fin.ext_iff]
  omega

theorem nodup_laneIndex : ((List.finRange 5 ×ˢ List.finRange 5).map
    fun p : Fin 5 × Fin 5 => laneIndex p.1 p.2).Nodup :=
  ((List.nodup_finRange 5).product (List.nodup_finRange 5)).map laneIndex_injective

theorem rol64_eq (a : UInt64) {offset : UInt64} (hpos : 0 < offset) (hlt : offset < 64) :
    rol64 a offset = rotl a offset.toNat := shift_xor_shift a hpos hlt

theorem get_columnParities (state : Lanes) (x : Fin 5) :
    (columnParities state).get x = Keccak.column (stateArray state) x := by
  change (columnParities state)[x] = _
  simp [columnParities, Keccak.column, stateArray]

theorem stateArray_theta (state : Lanes) :
    stateArray (theta state) = Keccak.theta (stateArray state) := by
  funext x y
  have hbefore : ∀ x : Fin 5, keccakFMod5[x.val + 4] = x - 1 := by decide
  have hafter : ∀ x : Fin 5, keccakFMod5[x.val + 1] = x + 1 := by decide
  have hcolumn : ∀ x : Fin 5, (columnParities state)[x] = Keccak.column (stateArray state) x :=
    get_columnParities state
  have hmem : (x, y) ∈ List.finRange 5 ×ˢ List.finRange 5 := by simp
  have hlane := @InPlace.getElem_update_of_mem _ _ _ _
    (fun p lane => lane ^^^ ((columnParities state)[keccakFMod5[p.1.val + 4]] ^^^
      rol64 (columnParities state)[keccakFMod5[p.1.val + 1]] 1)) state _ _ nodup_laneIndex hmem
  refine hlane.trans ?_
  simp only [hbefore, hafter, hcolumn]
  rw [rol64_eq _ (by decide) (by decide)]
  rfl

/-- The lane that the turn `t` of the walk carries. -/
def carried : ℕ → Fin 25
  | 0 => laneIndex 1 0
  | t + 1 => keccakFPiLane[t]?.getD (laneIndex 0 0)

theorem get_rhoPi (state : Lanes) (t : Fin 24) :
    (rhoPi state).get (keccakFPiLane.get t.castSucc) =
      rol64 (state.get (carried t)) (keccakFRotationConstants.get t.castSucc) := by
  have hnodup : ((List.finRange 24).map fun t => keccakFPiLane[t.castSucc]).Nodup := by decide
  obtain ⟨t, ht⟩ := t
  cases t with
  | zero =>
    exact @InPlace.getElem_carry_head _ _ _ _ _ _ _ ((List.finRange 23).map Fin.succ) 0 hnodup
  | succ t =>
    have hsplit : List.finRange 24 = (List.finRange 24).take t ++
        ⟨t, by omega⟩ :: ⟨t + 1, ht⟩ :: (List.finRange 24).drop (t + 2) := by
      have hdrop : ∀ k (hk : k < 24), (List.finRange 24).drop k =
          ⟨k, hk⟩ :: (List.finRange 24).drop (k + 1) := by
        intro k hk
        rw [List.drop_eq_getElem_cons (by simpa using hk), List.getElem_finRange]
        rfl
      rw [← hdrop (t + 1) ht, ← hdrop t (by omega), List.take_append_drop]
    rw [hsplit] at hnodup
    have hnext := @InPlace.getElem_carry_next _ _ _ _
      (fun (t : Fin 24) temp => rol64 temp keccakFRotationConstants[t.castSucc]) state[1] state
      _ _ _ _ hnodup
    rw [← hsplit] at hnext
    have hlane : carried (t + 1) = keccakFPiLane[(⟨t, by omega⟩ : Fin 24).castSucc] := by
      simp [carried, show t < 25 by omega]
    rw [hlane]
    exact hnext

/-- The tables follow the walk: they hold where each lane goes and how far it is rotated. -/
theorem tables_walk : ∀ x y : Fin 5, (x = 0 ∧ y = 0) ∨ ∃ t : Fin 24,
    keccakFPiLane.get t.castSucc = laneIndex x y ∧ carried t = laneIndex (x + 3 * y) x ∧
      0 < keccakFRotationConstants.get t.castSucc ∧ keccakFRotationConstants.get t.castSucc < 64 ∧
      (keccakFRotationConstants.get t.castSucc).toNat = Keccak.offset (x + 3 * y) x % 64 := by
  decide +kernel

theorem stateArray_rhoPi (state : Lanes) :
    stateArray (rhoPi state) = Keccak.pi (Keccak.rho (stateArray state)) := by
  funext x y
  rcases tables_walk x y with ⟨rfl, rfl⟩ | ⟨t, hto, hfrom, hpos, hlt, hoffset⟩
  · -- The walk does not come to the first lane.
    have hnotMem : laneIndex 0 0 ∉ (List.finRange 24).map fun t => keccakFPiLane[t.castSucc] := by
      decide
    have hoffset : Keccak.offset 0 0 = 0 := by decide
    refine (InPlace.getElem_carry_of_notMem hnotMem).trans ?_
    simp [Keccak.pi, Keccak.rho, hoffset, rotl_of_dvd, stateArray]
  · have hrotl : ∀ a n, rotl a (n % 64) = rotl a n := fun a n =>
      UInt64.eq_of_toBitVec_eq BitVec.rotateLeft_mod_eq_rotateLeft
    have hlane := get_rhoPi state t
    rw [rol64_eq _ hpos hlt, hoffset, hrotl] at hlane
    simp only [hto, hfrom] at hlane
    exact hlane

theorem stateArray_chiRow_of_ne (state : Lanes) {y y' : Fin 5} (h : y' ≠ y) (x : Fin 5) :
    stateArray (chiRow state y') x y = stateArray state x y := by
  have hnotMem : laneIndex x y ∉ (List.finRange 5).map fun x => laneIndex x y' := by
    simp only [List.mem_map, not_exists, not_and]
    intro x' _ heq
    exact h (Prod.mk.inj (@laneIndex_injective (x', y') (x, y) heq)).2
  exact InPlace.getElem_update_of_notMem hnotMem

theorem stateArray_chiRow (state : Lanes) (x y : Fin 5) :
    stateArray (chiRow state y) x y = Keccak.chi (stateArray state) x y := by
  have hnext : ∀ x : Fin 5, keccakFMod5[x.val + 1] = x + 1 := by decide
  have hsecond : ∀ x : Fin 5, keccakFMod5[x.val + 2] = x + 2 := by decide
  have hnodup : ((List.finRange 5).map fun x => laneIndex x y).Nodup :=
    (List.nodup_finRange 5).map fun x x' heq =>
      (Prod.mk.inj (@laneIndex_injective (x, y) (x', y) heq)).1
  have hlane := @InPlace.getElem_update_of_mem _ _ _ _
    (fun x _ => (rowCopy state y)[x] ^^^ (~~~(rowCopy state y)[keccakFMod5[x.val + 1]] &&&
      (rowCopy state y)[keccakFMod5[x.val + 2]])) state _ _ hnodup (List.mem_finRange x)
  refine hlane.trans ?_
  simp [hnext, hsecond, rowCopy, Keccak.chi, stateArray]

theorem stateArray_chi (state : Lanes) :
    stateArray (chi state) = Keccak.chi (stateArray state) := by
  funext x y
  have hrow : (fun x => stateArray (chi state) x y) =
      fun x => stateArray state x y ^^^
        (~~~stateArray state (x + 1) y &&& stateArray state (x + 2) y) :=
    Loop.foldl_of_mem
      (fun state x => stateArray state x y) (fun _ _ _ _ => trivial) (List.mem_finRange y)
      (List.nodup_finRange 5) (fun y' _ hy' state _ => funext (stateArray_chiRow_of_ne state hy'))
      (fun row x => row x ^^^ (~~~row (x + 1) &&& row (x + 2)))
      (fun state (_ : True) => funext fun x => stateArray_chiRow state x y) trivial
  exact congrFun hrow x

theorem stateArray_iota (state : Lanes) (ir : ℕ) :
    stateArray (iota (Keccak.roundConstant ir) state) = Keccak.iota ir (stateArray state) := by
  funext x y
  simp only [stateArray, iota, Keccak.iota]
  by_cases h : x = 0 ∧ y = 0
  · obtain ⟨rfl, rfl⟩ := h
    simp [laneIndex]
  · have hne : 0 ≠ (laneIndex x y).val := by
      simp only [laneIndex]
      simp only [Fin.ext_iff, Fin.val_zero] at h
      omega
    rw [if_neg h]
    exact Vector.getElem_set_ne _ _ hne

/-- The register from which the constant of a round is read. -/
def register (ir : ℕ) : UInt8 := (fun lfsr => (getNextRoundConstant lfsr).2)^[ir] 0x01

theorem getNextRoundConstant_register :
    ∀ ir < 24, (getNextRoundConstant (register ir)).1 = Keccak.roundConstant ir := by
  decide +kernel

theorem stateArray_rounds (state : Lanes) {n : ℕ} (hn : n ≤ 24) :
    stateArray (round^[n] (state, 0x01)).1 =
        (List.range n).foldl Keccak.round (stateArray state) ∧
      (round^[n] (state, 0x01)).2 = register n := by
  induction n with
  | zero => exact ⟨rfl, rfl⟩
  | succ n ih =>
    obtain ⟨hstate, hregister⟩ := ih (by omega)
    rw [Function.iterate_succ_apply', List.range_succ, List.foldl_append, ← hstate]
    constructor
    · rw [round, hregister, getNextRoundConstant_register n (by omega), stateArray_iota,
        stateArray_chi, stateArray_rhoPi, stateArray_theta]
      rfl
    · rw [register, Function.iterate_succ_apply', ← register, ← hregister]
      rfl

/-- What the code computes in place is Keccak-f[1600]. -/
theorem stateArray_permuteLanes (state : Lanes) :
    stateArray (permuteLanes state) = Keccak.keccakF (stateArray state) :=
  (stateArray_rounds state le_rfl).1

/-- The permutation of the bytes is Keccak-f[1600] on the lanes that they hold. -/
theorem keccakF_statePermute (state : KeccakState) :
    stateArray (lanes (statePermute state)) = Keccak.keccakF (stateArray (lanes state)) := by
  rw [statePermute, lanes_ofLanes, stateArray_permuteLanes]

end KeccakF1600

end NexusPool
