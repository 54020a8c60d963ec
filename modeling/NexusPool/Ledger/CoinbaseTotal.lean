import NexusPool.Ledger.Coinbase
import NexusPool.Library.Run

/-!
# The running total of a coinbase

`AddTransaction` refuses an output that does not fit under the maximum. The comparison is made
with a 64-bit sum, so that a value which makes the sum wrap passes it.
-/

namespace NexusPool

open Reactive
open Std (ExtTreeMap)

namespace Coinbase

/-! ### What the outputs add up to -/

/-- What the outputs add up to. -/
def paid (c : Coinbase) : ℕ := (c.mapOutputs.toList.map fun e => e.2.toNat).sum

theorem paid_reset (c : Coinbase) (nMax : UInt64) : (c.reset nMax).paid = 0 := rfl

/-- An output replaces the one that the address had before. -/
theorem paid_addOutput_add (c : Coinbase) (nAddress : Bytes) (nValue : UInt64) :
    (c.addOutput nAddress nValue).paid + (c.mapOutputs.getD nAddress 0).toNat =
      c.paid + (c.mapOutputs.getD nAddress 0 + nValue).toNat := by
  have hsum := OrderedMap.sum_map_insert UInt64.toNat c.mapOutputs nAddress
    (c.mapOutputs.getD nAddress 0 + nValue)
  rw [ExtTreeMap.getD_eq_getD_getElem?] at hsum ⊢
  rw [paid, paid, addOutput, ExtTreeMap.getD_eq_getD_getElem?, ← hsum]
  cases c.mapOutputs[nAddress]? <;> rfl

/-- The first output of an address adds its value. -/
theorem paid_addOutput {c : Coinbase} {nAddress : Bytes} (nValue : UInt64)
    (h : c.mapOutputs[nAddress]? = none) :
    (c.addOutput nAddress nValue).paid = nValue.toNat + c.paid := by
  have hsum := paid_addOutput_add c nAddress nValue
  simp only [ExtTreeMap.getD_eq_getD_getElem?, h, Option.getD_none, UInt64.toNat_zero,
    UInt64.zero_add] at hsum
  omega

theorem getD_le_paid (c : Coinbase) (nAddress : Bytes) :
    (c.mapOutputs.getD nAddress 0).toNat ≤ c.paid := by
  cases h : c.mapOutputs[nAddress]? with
  | none => simp [ExtTreeMap.getD_eq_getD_getElem?, h]
  | some nValue =>
    have hmem := ExtTreeMap.mem_toList_iff_getElem?_eq_some.mpr h
    have hle := List.single_le_sum (fun _ _ => Nat.zero_le _) _
      (List.mem_map_of_mem (f := fun e : Bytes × UInt64 => e.2.toNat) hmem)
    simpa [ExtTreeMap.getD_eq_getD_getElem?, h, paid] using hle

/-- Where the outputs with the new value stay below `2 ^ 64`, also a second output of an address
adds its value. -/
theorem paid_addOutput_of_lt {c : Coinbase} {nAddress : Bytes} {nValue : UInt64}
    (h : nValue.toNat + c.paid < 2 ^ 64) :
    (c.addOutput nAddress nValue).paid = nValue.toNat + c.paid := by
  have hsum := paid_addOutput_add c nAddress nValue
  have hle := c.getD_le_paid nAddress
  rw [UInt64.toNat_add, Nat.mod_eq_of_lt (by omega)] at hsum
  omega

/-- The running total is what the outputs add up to, in 64-bit arithmetic. -/
theorem nCurrentValue_addOutput {c : Coinbase} {nAddress : Bytes} (nValue : UInt64)
    (hnone : c.mapOutputs[nAddress]? = none) (h : c.nCurrentValue = UInt64.ofNat c.paid) :
    (c.addOutput nAddress nValue).nCurrentValue =
      UInt64.ofNat (c.addOutput nAddress nValue).paid := by
  rw [paid_addOutput nValue hnone, UInt64.ofNat_add, UInt64.ofNat_toNat, ← h, UInt64.add_comm]
  rfl

/-! ### Sequences of calls -/

inductive Call
  | reset (nMax : UInt64)
  | addTransaction (nAddress : Bytes) (nValue : UInt64)

/-- `AddTransaction` returns what is left. -/
def step (c : Coinbase) : Call → Option (Coinbase × List UInt64)
  | .reset nMax => some (c.reset nMax, [])
  | .addTransaction nAddress nValue =>
    let (nRemaining, c) := c.addTransaction nAddress nValue
    some (c, [nRemaining])

/-- What the constructors that take no bytes leave. -/
def Constructed (c : Coinbase) : Prop := c.mapOutputs = ∅ ∧ c.nCurrentValue = 0

abbrev CallRun : History Coinbase Call UInt64 → Coinbase → Prop := Run step Constructed

/-- The running total is the sum of the outputs and at most the maximum. -/
structure Counted (c : Coinbase) : Prop where
  total : c.nCurrentValue.toNat = c.paid
  bounded : c.nCurrentValue.toNat ≤ c.nMaxValue.toNat

/-- A call that leaves the total counted and the remainder in range, and adds nothing that does
not fit. -/
structure KeepsTotal (o : Occurrence Coinbase Call UInt64) : Prop where
  counted : o.after.Counted
  remainder : o.after.getRemainder.toNat + o.after.nCurrentValue.toNat = o.after.nMaxValue.toNat
  refused : ∀ nAddress nValue, o.event = .addTransaction nAddress nValue →
    o.before.nMaxValue.toNat < nValue.toNat + o.before.nCurrentValue.toNat → o.after = o.before

/-- The sum with the total leaves the 64 bits and comes out under the maximum again. -/
def WrapsUnder (c : Coinbase) (nValue : UInt64) : Prop :=
  2 ^ 64 ≤ nValue.toNat + c.nCurrentValue.toNat ∧
    nValue.toNat + c.nCurrentValue.toNat ≤ 2 ^ 64 + c.nMaxValue.toNat

/-- No output is added whose sum with the total wraps under the maximum. -/
def NoneWraps (o : Occurrence Coinbase Call UInt64) : Prop :=
  ∀ nAddress nValue, o.event = .addTransaction nAddress nValue → ¬ o.before.WrapsUnder nValue

/-! ### Steps -/

variable {c c' : Coinbase} {e : Call} {answers : List UInt64}

theorem Counted.remainder (h : c.Counted) :
    c.getRemainder.toNat + c.nCurrentValue.toNat = c.nMaxValue.toNat := by
  have hle := UInt64.le_iff_toNat_le.mpr h.bounded
  have hbounded := h.bounded
  rw [getRemainder, UInt64.toNat_sub_of_le _ _ hle]
  omega

/-- The comparison of `AddTransaction`, on a value that does not wrap under the maximum. -/
theorem refuses_iff {nValue : UInt64} (h : ¬ c.WrapsUnder nValue) :
    nValue + c.nCurrentValue > c.nMaxValue ↔
      c.nMaxValue.toNat < nValue.toNat + c.nCurrentValue.toNat := by
  have hvalue := nValue.toNat_lt
  have hcurrent := c.nCurrentValue.toNat_lt
  unfold WrapsUnder at h
  rw [gt_iff_lt, UInt64.lt_iff_toNat_lt, UInt64.toNat_add]
  omega

theorem WrapsUnder.exceeds {nValue : UInt64} (h : c.WrapsUnder nValue) :
    c.nMaxValue.toNat < nValue.toNat + c.nCurrentValue.toNat := by
  have hmax := c.nMaxValue.toNat_lt
  have hover := h.1
  omega

/-- What wraps under the maximum passes the comparison and is added. -/
theorem WrapsUnder.changes {nValue : UInt64} (h : c.WrapsUnder nValue) (nAddress : Bytes) :
    (c.addTransaction nAddress nValue).2 ≠ c := by
  obtain ⟨hover, hunder⟩ := h
  have hvalue := nValue.toNat_lt
  have hcurrent := c.nCurrentValue.toNat_lt
  have hsum : (nValue + c.nCurrentValue).toNat =
      nValue.toNat + c.nCurrentValue.toNat - 2 ^ 64 := by
    rw [UInt64.toNat_add]
    omega
  have hpasses : ¬ nValue + c.nCurrentValue > c.nMaxValue := by
    rw [gt_iff_lt, UInt64.lt_iff_toNat_lt, hsum]
    omega
  intro hsame
  have htotal := congrArg (fun c => c.nCurrentValue.toNat) hsame
  simp only [addTransaction, if_neg hpasses, Coinbase.addOutput, UInt64.add_comm c.nCurrentValue,
    hsum] at htotal
  omega

theorem Counted.addOutput (h : c.Counted) {nValue : UInt64} (nAddress : Bytes)
    (hfits : nValue.toNat + c.nCurrentValue.toNat ≤ c.nMaxValue.toNat) :
    (c.addOutput nAddress nValue).Counted := by
  have hmax := c.nMaxValue.toNat_lt
  have htotal : (c.addOutput nAddress nValue).nCurrentValue.toNat =
      nValue.toNat + c.nCurrentValue.toNat := by
    simp only [Coinbase.addOutput, UInt64.toNat_add]
    omega
  refine ⟨?_, ?_⟩
  · rw [htotal, paid_addOutput_of_lt (by rw [← h.total]; omega), h.total]
  · rw [htotal]
    exact hfits

/-- On a counted coinbase a call is right exactly if it does not wrap under the maximum. -/
theorem keepsTotal_iff (h : c.Counted) (hstep : step c e = some (c', answers)) :
    KeepsTotal ⟨c, e, c', answers⟩ ↔ NoneWraps ⟨c, e, c', answers⟩ := by
  cases e with
  | reset nMax =>
    cases hstep
    have hempty : (c.reset nMax).Counted := ⟨rfl, Nat.zero_le _⟩
    constructor
    · rintro - nAddress nValue hcall
      cases hcall
    · rintro -
      refine ⟨hempty, hempty.remainder, ?_⟩
      rintro nAddress nValue hcall
      cases hcall
  | addTransaction nAddress nValue =>
    obtain ⟨rfl⟩ : c' = (c.addTransaction nAddress nValue).2 := by
      cases hstep
      rfl
    constructor
    · rintro hkeeps nAddress' nValue' hcall ⟨hover, hunder⟩
      cases hcall
      have hwraps : c.WrapsUnder nValue := ⟨hover, hunder⟩
      exact hwraps.changes nAddress (hkeeps.refused nAddress nValue rfl hwraps.exceeds)
    · intro hnone
      have hrefuses := refuses_iff (hnone nAddress nValue rfl)
      by_cases hover : nValue + c.nCurrentValue > c.nMaxValue
      · rw [addTransaction, if_pos hover]
        exact ⟨h, h.remainder, fun _ _ _ _ => rfl⟩
      · have hfits := hrefuses.not.mp hover
        have hadded := h.addOutput nAddress (Nat.not_lt.mp hfits)
        rw [addTransaction, if_neg hover]
        refine ⟨hadded, hadded.remainder, ?_⟩
        intro nAddress' nValue' hcall hexceeds
        cases hcall
        exact absurd hexceeds hfits

/-! ### Runs -/

variable {history : History Coinbase Call UInt64}

theorem Constructed.counted (h : c.Constructed) : c.Counted := by
  obtain ⟨houtputs, htotal⟩ := h
  constructor
  · rw [htotal, paid, houtputs]
    rfl
  · rw [htotal]
    exact Nat.zero_le _

theorem counted_of_run (h : CallRun history c)
    (hkeeps : Throughout (fun _ => KeepsTotal) history) : c.Counted := by
  cases h with
  | start hc => exact Constructed.counted hc
  | next _ _ => exact hkeeps.1.counted

/-- Whatever is added and reset, the total is right in the whole run exactly as long as no value
wraps under the maximum. -/
theorem keepsTotal_throughout_iff (h : CallRun history c) :
    Throughout (fun _ => KeepsTotal) history ↔ Throughout (fun _ => NoneWraps) history := by
  induction h with
  | start => exact Iff.rfl
  | next hrun hstep ih =>
    refine Throughout.cons_congr ih fun hpast => ?_
    exact keepsTotal_iff (counted_of_run hrun hpast) hstep

section Wrapped

def smallCalls : List Call :=
  [.reset 10, .addTransaction [65] 5, .addTransaction [65] 3, .addTransaction [66] 4]

def smallRun : Option (History Coinbase Call UInt64 × Coinbase) := trace step .empty smallCalls

theorem smallRun_isSome : smallRun.isSome := by decide +kernel

theorem smallRun_run : CallRun (smallRun.get smallRun_isSome).1 (smallRun.get smallRun_isSome).2 :=
  Run.of_trace ⟨rfl, rfl⟩ (Option.some_get _).symm

attribute [local irreducible] smallRun

theorem smallRun_keepsTotal_iff :
    Throughout (fun _ => KeepsTotal) (smallRun.get smallRun_isSome).1 ↔
      Throughout (fun _ => NoneWraps) (smallRun.get smallRun_isSome).1 :=
  keepsTotal_throughout_iff smallRun_run

/-- Three short of `2 ^ 64` on top of five is two, which is under the maximum of ten. -/
theorem wrapped_added : ¬ ∀ (history : History Coinbase Call UInt64) (c : Coinbase),
    CallRun history c → Throughout (fun _ => KeepsTotal) history := by
  intro h
  let full : Coinbase := ((Coinbase.empty.reset 10).addTransaction [65] 5).2
  have hreset : CallRun _ (Coinbase.empty.reset 10) :=
    (Run.start ⟨rfl, rfl⟩ : CallRun [] .empty).next (e := .reset 10) rfl
  have hfull : CallRun _ full := hreset.next (e := .addTransaction [65] 5) rfl
  have hkeeps := h _ _ (hfull.next (e := .addTransaction [66] 18446744073709551613) rfl)
  have hsame := congrArg nCurrentValue (hkeeps.1.refused [66] 18446744073709551613 rfl (by decide))
  revert hsame
  decide

end Wrapped

end Coinbase

end NexusPool
