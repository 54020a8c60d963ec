import NexusPool.Library.Program

/-!
# Interrupted programs

A program may be stopped after any number of its calls. What holds then is derived along the
program, like what it ensures in the end.
-/

namespace Concurrent

namespace Program

variable {Call : Type} {Res : Call → Type} {α β σ : Type}

section Definitions

variable (handle : (c : Call) → σ → Res c × σ)

/-- The state that the first `n` calls leave behind. -/
def after : ℕ → Program Call Res α → σ → σ
  | 0, _, s => s
  | _ + 1, .done _, s => s
  | n + 1, .call c next, s => after n (next (handle c s).1) (handle c s).2

/-- `P` holds wherever the program is stopped. -/
def Always (P : σ → Prop) (p : Program Call Res α) (s : σ) : Prop := ∀ n, P (after handle n p s)

/-- Wherever the program is stopped, `R` relates the state to the one it started from. -/
def Keeps (R : σ → σ → Prop) (p : Program Call Res α) : Prop := ∀ s, Always handle (R s) p s

end Definitions

variable {handle : (c : Call) → σ → Res c × σ}

namespace Always

variable {P Q : σ → Prop} {s : σ}

theorem done {a : α} (h : P s) : Always handle P (.done a : Program Call Res α) s := by
  intro n
  cases n <;> exact h

theorem call {c : Call} {next : Res c → Program Call Res α} (h : P s)
    (hnext : Always handle P (next (handle c s).1) (handle c s).2) :
    Always handle P (.call c next) s := by
  intro n
  cases n with
  | zero => exact h
  | succ n => exact hnext n

theorem start {p : Program Call Res α} (h : Always handle P p s) : P s := by
  have hzero := h 0
  cases p <;> exact hzero

theorem next {c : Call} {next : Res c → Program Call Res α} (h : Always handle P (.call c next) s) :
    Always handle P (next (handle c s).1) (handle c s).2 :=
  fun n => h (n + 1)

theorem mono {p : Program Call Res α} (h : Always handle P p s) (hPQ : ∀ s, P s → Q s) :
    Always handle Q p s :=
  fun n => hPQ _ (h n)

theorem run {p : Program Call Res α} (h : Always handle P p s) : P (run handle p s).2 := by
  induction p generalizing s with
  | done a => exact h.start
  | call c next ih => exact ih _ h.next

theorem bind {p : Program Call Res α} {f : α → Program Call Res β} (hp : Always handle P p s)
    (hf : Always handle P (f (Program.run handle p s).1) (Program.run handle p s).2) :
    Always handle P (p >>= f) s := by
  induction p generalizing s with
  | done a => exact hf
  | call c next ih => exact .call hp.start (ih _ hp.next hf)

end Always

namespace Keeps

variable {R : σ → σ → Prop}

theorem ensures {p : Program Call Res α} (h : Keeps handle R p) : Ensures handle R p :=
  fun s => (h s).run

theorem pure (hR : Composes R) (a : α) : Keeps handle R (pure a : Program Call Res α) :=
  fun s => .done (hR.refl s)

theorem perform (hR : Composes R) {c : Call} (h : ∀ s, R s (handle c s).2) :
    Keeps handle R (perform c : Program Call Res (Res c)) :=
  fun s => .call (hR.refl s) (.done (h s))

theorem bind (hR : Composes R) {p : Program Call Res α} {f : α → Program Call Res β}
    (hp : Keeps handle R p) (hf : ∀ a, Keeps handle R (f a)) : Keeps handle R (p >>= f) := by
  intro s
  apply Always.bind (hp s)
  exact (hf _ _).mono fun s' => hR.trans (hp.ensures s)

theorem ite {P : Prop} [Decidable P] {p q : Program Call Res α} (hp : Keeps handle R p)
    (hq : Keeps handle R q) : Keeps handle R (if P then p else q) := by
  split_ifs
  · exact hp
  · exact hq

theorem foldlM (hR : Composes R) {f : β → α → Program Call Res β}
    (hf : ∀ b a, Keeps handle R (f b a))
    (xs : List α) (b : β) : Keeps handle R (xs.foldlM f b) := by
  induction xs generalizing b with
  | nil => exact pure hR b
  | cons x xs ih =>
    rw [List.foldlM_cons]
    exact bind hR (hf b x) ih

theorem forM (hR : Composes R) {f : α → Program Call Res PUnit} (hf : ∀ a, Keeps handle R (f a))
    (xs : List α) : Keeps handle R (xs.forM f) := by
  induction xs with
  | nil => exact pure hR _
  | cons x xs ih => exact bind hR (hf x) fun _ => ih

end Keeps

end Program

end Concurrent
