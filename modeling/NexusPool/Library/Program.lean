import Mathlib.Tactic

/-!
# Programs of calls on shared objects

A handler that works on mutex-protected objects is a tree: it is done, or it makes
one atomic call and continues with the answer. `run` executes it alone. The same tree
is the object that `Serializability` interleaves with others.
-/

namespace Concurrent

/-- Either finished with a result, or one atomic call followed by what its answer leads to. -/
inductive Program (Call : Type) (Res : Call → Type) (α : Type)
  | done (a : α)
  | call (c : Call) (next : Res c → Program Call Res α)

namespace Program

variable {Call : Type} {Res : Call → Type} {α β σ : Type}

def bind (f : α → Program Call Res β) : Program Call Res α → Program Call Res β
  | .done a => f a
  | .call c next => .call c fun r => (next r).bind f

instance : Monad (Program Call Res) where
  pure := .done
  bind p f := p.bind f

theorem bind_done (p : Program Call Res α) : p.bind .done = p := by
  induction p with
  | done a => rfl
  | call c next ih => simp [bind, ih]

theorem bind_assoc {γ : Type} (p : Program Call Res α) (f : α → Program Call Res β)
    (g : β → Program Call Res γ) : (p.bind f).bind g = p.bind fun a => (f a).bind g := by
  induction p with
  | done a => rfl
  | call c next ih => simp [bind, ih]

instance : LawfulMonad (Program Call Res) :=
  LawfulMonad.mk' _ bind_done (fun _ _ => rfl) bind_assoc

def perform (c : Call) : Program Call Res (Res c) := .call c .done

variable (handle : (c : Call) → σ → Res c × σ)

/-- Execution without interference: each call acts on the state the last one left. -/
def run : Program Call Res α → σ → α × σ
  | .done a, s => (a, s)
  | .call c next, s => run (next (handle c s).1) (handle c s).2

@[simp] theorem run_done (a : α) (s : σ) : run handle (.done a : Program Call Res α) s = (a, s) :=
  rfl

@[simp] theorem run_pure (a : α) (s : σ) :
    run handle (pure a : Program Call Res α) s = (a, s) := rfl

@[simp] theorem run_call (c : Call) (next : Res c → Program Call Res α) (s : σ) :
    run handle (.call c next) s = run handle (next (handle c s).1) (handle c s).2 := rfl

@[simp] theorem run_perform (c : Call) (s : σ) :
    run handle (perform c) s = handle c s := rfl

theorem run_bind' (p : Program Call Res α) (f : α → Program Call Res β) (s : σ) :
    run handle (p.bind f) s = run handle (f (run handle p s).1) (run handle p s).2 := by
  induction p generalizing s with
  | done a => rfl
  | call c next ih => exact ih _ _

@[simp] theorem run_bind (p : Program Call Res α) (f : α → Program Call Res β) (s : σ) :
    run handle (p >>= f) s = run handle (f (run handle p s).1) (run handle p s).2 :=
  run_bind' handle p f s

@[simp] theorem run_map (f : α → β) (p : Program Call Res α) (s : σ) :
    run handle (f <$> p) s = (f (run handle p s).1, (run handle p s).2) := by
  rw [map_eq_pure_bind, run_bind, run_pure]

@[simp] theorem run_ite (P : Prop) [Decidable P] (p q : Program Call Res α) (s : σ) :
    run handle (if P then p else q) s = if P then run handle p s else run handle q s := by
  split_ifs <;> rfl

theorem run_foldlM (f : β → α → Program Call Res β) (xs : List α) (b : β) (s : σ) :
    run handle (xs.foldlM f b) s = xs.foldl (fun p x => run handle (f p.1 x) p.2) (b, s) := by
  induction xs generalizing b s with
  | nil => rfl
  | cons x xs ih => simp [List.foldlM_cons, ih]

theorem run_forM (f : α → Program Call Res Unit) (xs : List α) (s : σ) :
    run handle (xs.forM f) s = ((), xs.foldl (fun s x => (run handle (f x) s).2) s) := by
  induction xs generalizing s with
  | nil => rfl
  | cons x xs ih => exact (run_bind handle (f x) (fun _ => xs.forM f) s).trans (ih _)

/-- The calls a program makes when it runs alone, in order. -/
def calls : Program Call Res α → σ → List Call
  | .done _, _ => []
  | .call c next, s => c :: calls (next (handle c s).1) (handle c s).2

/-! ### What a program changes -/

/-- A relation that holds of doing nothing, and of two programs in a row if it holds of each. -/
structure Composes (R : σ → σ → Prop) : Prop where
  refl : ∀ s, R s s
  trans : ∀ {s s' s''}, R s s' → R s' s'' → R s s''

/-- Run alone from any state, the program ends in a state that `R` relates to it. -/
def Ensures (R : σ → σ → Prop) (p : Program Call Res α) : Prop := ∀ s, R s (run handle p s).2

namespace Ensures

variable {handle} {R : σ → σ → Prop}

theorem pure (hR : Composes R) (a : α) : Ensures handle R (pure a : Program Call Res α) := hR.refl

theorem perform {c : Call} (h : ∀ s, R s (handle c s).2) :
    Ensures handle R (perform c : Program Call Res (Res c)) := h

theorem bind (hR : Composes R) {p : Program Call Res α} {f : α → Program Call Res β}
    (hp : Ensures handle R p) (hf : ∀ a, Ensures handle R (f a)) : Ensures handle R (p >>= f) := by
  intro s
  rw [run_bind]
  exact hR.trans (hp s) (hf _ _)

theorem ite {P : Prop} [Decidable P] {p q : Program Call Res α} (hp : Ensures handle R p)
    (hq : Ensures handle R q) : Ensures handle R (if P then p else q) := by
  split_ifs
  · exact hp
  · exact hq

theorem foldlM (hR : Composes R) {f : β → α → Program Call Res β}
    (hf : ∀ b a, Ensures handle R (f b a))
    (xs : List α) (b : β) : Ensures handle R (xs.foldlM f b) := by
  induction xs generalizing b with
  | nil => exact pure hR b
  | cons x xs ih =>
    rw [List.foldlM_cons]
    exact bind hR (hf b x) ih

theorem forM (hR : Composes R) {f : α → Program Call Res PUnit} (hf : ∀ a, Ensures handle R (f a))
    (xs : List α) : Ensures handle R (xs.forM f) := by
  induction xs with
  | nil => exact pure hR _
  | cons x xs ih => exact bind hR (hf x) fun _ => ih

/-- What no single call breaks, no program breaks, whatever its calls are. -/
theorem of_calls (hR : Composes R) (hcall : ∀ c s, R s (handle c s).2) (p : Program Call Res α) :
    Ensures handle R p := by
  induction p with
  | done a => exact hR.refl
  | call c next ih =>
    intro s
    exact hR.trans (hcall c s) (ih _ _)

end Ensures

end Program

end Concurrent
