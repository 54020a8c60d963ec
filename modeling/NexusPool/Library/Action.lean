import Mathlib.Tactic

/-!
# Handlers of a reactive system

A handler changes a state, sends outputs and returns a value; where the code it models is
undefined, so is the handler. Facts about a handler are relations between the state before,
the state after and the outputs, and a relation that composes need only be shown for the
parts of a handler.
-/

namespace Reactive

/-- `none` where the handler is undefined. -/
def Action (S O α : Type) := S → Option (α × S × List O)

namespace Action

variable {S O α β : Type}

def bind (x : Action S O α) (f : α → Action S O β) : Action S O β := fun s =>
  match x s with
  | none => none
  | some (a, s', out) =>
    match f a s' with
    | none => none
    | some (b, s'', out') => some (b, s'', out ++ out')

instance : Monad (Action S O) where
  pure a := fun s => some (a, s, [])
  bind := bind

def get : Action S O S := fun s => some (s, s, [])

def modify (f : S → S) : Action S O Unit := fun s => some ((), f s, [])

def send (o : O) : Action S O Unit := fun s => some ((), s, [o])

/-- Undefined on `none`. -/
def ofOption (a : Option α) : Action S O α := fun s => a.map fun a => (a, s, [])

/-- Undefined unless `P` holds. -/
def require (P : Prop) [Decidable P] : Action S O Unit := fun s =>
  if P then some ((), s, []) else none

theorem bind_of_eq_some_append {x : Action S O α} {a : α} {s s' : S} {out : List O}
    (h : x s = some (a, s', out)) (f : α → Action S O β) :
    (x >>= f) s = (f a s').map fun r => (r.1, r.2.1, out ++ r.2.2) := by
  change bind x f s = _
  cases hf : f a s' <;> simp [bind, h, hf]

theorem bind_of_eq_some {x : Action S O α} {a : α} {s s' : S} (h : x s = some (a, s', []))
    (f : α → Action S O β) : (x >>= f) s = f a s' := by
  rw [bind_of_eq_some_append h]
  cases f a s' <;> rfl

theorem get_bind (f : S → Action S O β) (s : S) : (get >>= f) s = f s s := bind_of_eq_some rfl f

theorem pure_bind (a : α) (f : α → Action S O β) : (Pure.pure a >>= f) = f a :=
  funext fun _ => bind_of_eq_some rfl f

theorem bind_assoc {γ : Type} (x : Action S O α) (f : α → Action S O β) (g : β → Action S O γ) :
    x >>= f >>= g = x >>= fun a => f a >>= g := by
  funext s
  change bind (bind x f) g s = bind x (fun a => bind (f a) g) s
  simp only [bind]
  cases x s with
  | none => rfl
  | some r =>
    obtain ⟨a, s', out⟩ := r
    cases hf : f a s' with
    | none => simp [hf]
    | some r =>
      obtain ⟨b, s'', out'⟩ := r
      cases hg : g b s'' <;> simp [hf, hg, List.append_assoc]

/-! ### What a defined handler has done -/

@[simp] theorem pure_eq_some_iff {a b : α} {s s' : S} {out : List O} :
    (pure a : Action S O α) s = some (b, s', out) ↔ b = a ∧ s' = s ∧ out = [] := by
  change some (a, s, ([] : List O)) = _ ↔ _
  grind

@[simp] theorem bind_eq_some_iff {x : Action S O α} {f : α → Action S O β} {b : β} {s s'' : S}
    {out : List O} : (x >>= f) s = some (b, s'', out) ↔
      ∃ a s' out₁ out₂, x s = some (a, s', out₁) ∧ f a s' = some (b, s'', out₂) ∧
        out = out₁ ++ out₂ := by
  change bind x f s = _ ↔ _
  unfold bind
  constructor
  · intro h
    split at h
    · cases h
    · rename_i a s' out₁ hx
      split at h
      · cases h
      · rename_i b' t out₂ hf
        cases h
        exact ⟨a, s', out₁, out₂, hx, hf, rfl⟩
  · rintro ⟨a, s', out₁, out₂, hx, hf, rfl⟩
    simp only [hx, hf]

theorem turns_of_forM_cons {f : β → Action S O PUnit} {x : β} {xs : List β} {u : PUnit} {s s' : S}
    {out : List O} (h : (x :: xs).forM f s = some (u, s', out)) : ∃ s₁ out₁ out₂,
      f x s = some (.unit, s₁, out₁) ∧ xs.forM f s₁ = some (u, s', out₂) ∧ out = out₁ ++ out₂ := by
  have hturns : (f x >>= fun _ => xs.forM f) s = some (u, s', out) := h
  obtain ⟨_, s₁, out₁, out₂, hturn, hrest, rfl⟩ := bind_eq_some_iff.mp hturns
  exact ⟨s₁, out₁, out₂, hturn, hrest, rfl⟩

@[simp] theorem get_eq_some_iff {a s s' : S} {out : List O} :
    (get : Action S O S) s = some (a, s', out) ↔ a = s ∧ s' = s ∧ out = [] := by
  change some (s, s, ([] : List O)) = _ ↔ _
  grind

@[simp] theorem modify_eq_some_iff {f : S → S} {u : Unit} {s s' : S} {out : List O} :
    (modify f : Action S O Unit) s = some (u, s', out) ↔ s' = f s ∧ out = [] := by
  change some ((), f s, ([] : List O)) = _ ↔ _
  grind

@[simp] theorem send_eq_some_iff {o : O} {u : Unit} {s s' : S} {out : List O} :
    (send o : Action S O Unit) s = some (u, s', out) ↔ s' = s ∧ out = [o] := by
  change some ((), s, [o]) = _ ↔ _
  grind

@[simp] theorem ofOption_eq_some_iff {x : Option α} {a : α} {s s' : S} {out : List O} :
    (ofOption x : Action S O α) s = some (a, s', out) ↔ x = some a ∧ s' = s ∧ out = [] := by
  cases x with
  | none => simp [ofOption]
  | some b =>
    change some (b, s, ([] : List O)) = _ ↔ _
    grind

@[simp] theorem require_eq_some_iff {P : Prop} [Decidable P] {u : Unit} {s s' : S} {out : List O} :
    (require P : Action S O Unit) s = some (u, s', out) ↔ P ∧ s' = s ∧ out = [] := by
  unfold require
  split_ifs with h
  · grind
  · simp [h]

/-! ### Where a handler is defined -/

def Defined (x : Action S O α) (s : S) : Prop := ∃ a s' out, x s = some (a, s', out)

theorem not_defined_iff {x : Action S O α} {s : S} : ¬ x.Defined s ↔ x s = none := by
  rw [Option.eq_none_iff_forall_not_mem]
  constructor
  · rintro h ⟨a, s', out⟩ hr
    exact h ⟨a, s', out, hr⟩
  · rintro h ⟨a, s', out, hr⟩
    exact h _ hr

@[simp] theorem defined_pure (a : α) (s : S) : (pure a : Action S O α).Defined s :=
  ⟨a, s, [], rfl⟩

@[simp] theorem defined_modify (f : S → S) (s : S) : (modify f : Action S O Unit).Defined s :=
  ⟨(), f s, [], rfl⟩

@[simp] theorem defined_send (o : O) (s : S) : (send o : Action S O Unit).Defined s :=
  ⟨(), s, [o], rfl⟩

theorem defined_bind {x : Action S O α} {f : α → Action S O β} {s : S} :
    (x >>= f).Defined s ↔ ∃ a s' out, x s = some (a, s', out) ∧ (f a).Defined s' := by
  unfold Defined
  simp only [bind_eq_some_iff]
  constructor
  · rintro ⟨b, s'', _, a, s', out₁, out₂, hx, hf, rfl⟩
    exact ⟨a, s', out₁, hx, b, s'', out₂, hf⟩
  · rintro ⟨a, s', out₁, hx, b, s'', out₂, hf⟩
    exact ⟨b, s'', _, a, s', out₁, out₂, hx, hf, rfl⟩

@[simp] theorem defined_get_bind (f : S → Action S O β) (s : S) :
    (get >>= f).Defined s ↔ (f s).Defined s := by
  rw [Defined, Defined, get_bind]

@[simp] theorem defined_modify_bind (g : S → S) (f : Unit → Action S O β) (s : S) :
    (modify g >>= f).Defined s ↔ (f ()).Defined (g s) := by
  simp [defined_bind, Unique.exists_iff]

@[simp] theorem defined_require_bind (P : Prop) [Decidable P] (f : Unit → Action S O β) (s : S) :
    (require P >>= f).Defined s ↔ P ∧ (f ()).Defined s := by
  simp [defined_bind, Unique.exists_iff]

@[simp] theorem defined_ofOption_bind (x : Option α) (f : α → Action S O β) (s : S) :
    (ofOption x >>= f).Defined s ↔ ∃ a, x = some a ∧ (f a).Defined s := by
  simp [defined_bind]

theorem defined_bind_bind {γ : Type} {x : Action S O α} {f : α → Action S O β}
    {g : β → Action S O γ}
    {s : S} : ((x >>= f) >>= g).Defined s ↔ (x >>= fun a => f a >>= g).Defined s := by
  simp only [defined_bind, bind_eq_some_iff]
  constructor
  · rintro ⟨b, s'', _, ⟨a, s', out₁, out₂, hx, hf, rfl⟩, hg⟩
    exact ⟨a, s', out₁, hx, b, s'', out₂, hf, hg⟩
  · rintro ⟨a, s', out₁, hx, b, s'', out₂, hf, hg⟩
    exact ⟨b, s'', _, ⟨a, s', out₁, out₂, hx, hf, rfl⟩, hg⟩

theorem defined_forM {f : β → Action S O PUnit} {D : β → Prop} {Inv : S → Prop}
    {xs : List β} {s : S}
    (hD : ∀ x ∈ xs, ∀ s, Inv s → ((f x).Defined s ↔ D x))
    (hInv : ∀ x ∈ xs, ∀ s u s' out, Inv s → f x s = some (u, s', out) → Inv s') (hs : Inv s) :
    (xs.forM f).Defined s ↔ ∀ x ∈ xs, D x := by
  induction xs generalizing s with
  | nil => exact ⟨fun _ => by simp, fun _ => defined_pure _ _⟩
  | cons x xs ih =>
    have hrest : ∀ {s'}, Inv s' → ((xs.forM f).Defined s' ↔ ∀ y ∈ xs, D y) := ih
      (fun y hy => hD y (List.mem_cons_of_mem _ hy)) fun y hy => hInv y (List.mem_cons_of_mem _ hy)
    have hturns : ((x :: xs).forM f).Defined s ↔ (f x >>= fun _ => xs.forM f).Defined s := Iff.rfl
    have hfirst := hD x List.mem_cons_self s hs
    rw [hturns, defined_bind, List.forall_mem_cons, ← hfirst]
    constructor
    · rintro ⟨u, s', out, hturn, hothers⟩
      have hs' := hInv x List.mem_cons_self s u s' out hs hturn
      exact ⟨⟨u, s', out, hturn⟩, (hrest hs').mp hothers⟩
    · rintro ⟨⟨u, s', out, hturn⟩, hothers⟩
      have hs' := hInv x List.mem_cons_self s u s' out hs hturn
      exact ⟨u, s', out, hturn, (hrest hs').mpr hothers⟩

/-! ### Relations that compose -/

/-- A relation that holds of doing nothing, and of two handlers in a row if it holds of each. -/
structure Composes (R : S → S → List O → Prop) : Prop where
  refl : ∀ s, R s s []
  trans : ∀ {s s' s'' out out'}, R s s' out → R s' s'' out' → R s s'' (out ++ out')

/-- Whenever the handler is defined, `R` relates the states and the outputs. -/
def Ensures (R : S → S → List O → Prop) (x : Action S O α) : Prop :=
  ∀ s a s' out, x s = some (a, s', out) → R s s' out

namespace Ensures

variable {R : S → S → List O → Prop}

theorem pure (hR : Composes R) (a : α) : Ensures R (pure a : Action S O α) := by
  intro s b s' out h
  obtain ⟨-, rfl, rfl⟩ := pure_eq_some_iff.mp h
  exact hR.refl s'

theorem bind (hR : Composes R) {x : Action S O α} {f : α → Action S O β} (hx : Ensures R x)
    (hf : ∀ a, Ensures R (f a)) : Ensures R (x >>= f) := by
  intro s b s'' out h
  obtain ⟨a, s', out₁, out₂, h₁, h₂, rfl⟩ := bind_eq_some_iff.mp h
  exact hR.trans (hx s a s' out₁ h₁) (hf a s' b s'' out₂ h₂)

theorem get (hR : Composes R) : Ensures R (get : Action S O S) := by
  intro s a s' out h
  obtain ⟨-, rfl, rfl⟩ := get_eq_some_iff.mp h
  exact hR.refl s'

theorem modify {f : S → S} (h : ∀ s, R s (f s) []) : Ensures R (modify f : Action S O Unit) := by
  intro s u s' out hs
  obtain ⟨rfl, rfl⟩ := modify_eq_some_iff.mp hs
  exact h s

theorem send {o : O} (h : ∀ s, R s s [o]) : Ensures R (send o : Action S O Unit) := by
  intro s u s' out hs
  obtain ⟨rfl, rfl⟩ := send_eq_some_iff.mp hs
  exact h s'

theorem ofOption (hR : Composes R) (x : Option α) : Ensures R (ofOption x : Action S O α) := by
  intro s a s' out h
  obtain ⟨-, rfl, rfl⟩ := ofOption_eq_some_iff.mp h
  exact hR.refl s'

theorem require (hR : Composes R) (P : Prop) [Decidable P] :
    Ensures R (require P : Action S O Unit) := by
  intro s u s' out h
  obtain ⟨-, rfl, rfl⟩ := require_eq_some_iff.mp h
  exact hR.refl s'

theorem ite {P : Prop} [Decidable P] {x y : Action S O α} (hx : P → Ensures R x)
    (hy : ¬ P → Ensures R y) : Ensures R (if P then x else y) := by
  split_ifs with h
  · exact hx h
  · exact hy h

/-- A loop over a list, one handler for each item. -/
theorem forM (hR : Composes R) {f : β → Action S O PUnit} (xs : List β)
    (hf : ∀ x ∈ xs, Ensures R (f x)) : Ensures R (xs.forM f) := by
  induction xs with
  | nil => exact pure hR ()
  | cons x xs ih =>
    exact bind hR (hf x List.mem_cons_self) fun _ => ih fun y hy => hf y (List.mem_cons_of_mem _ hy)

theorem mono {R' : S → S → List O → Prop} {x : Action S O α}
    (h : ∀ s s' out, R s s' out → R' s s' out)
    (hx : Ensures R x) : Ensures R' x := fun s a s' out hs => h s s' out (hx s a s' out hs)

end Ensures

/-- Nothing is sent but what `P` allows, whatever becomes of the state. -/
def Sending (P : O → Prop) (_ _ : S) (out : List O) : Prop := ∀ o ∈ out, P o

namespace Sending

variable {P : O → Prop}

theorem composes (P : O → Prop) : Composes (Sending P : S → S → List O → Prop) where
  refl _ := List.forall_mem_nil P
  trans h h' := List.forall_mem_append.mpr ⟨h, h'⟩

theorem modify (P : O → Prop) (f : S → S) : Ensures (Sending P) (modify f : Action S O Unit) :=
  .modify fun _ => List.forall_mem_nil P

theorem send {o : O} (h : P o) : Ensures (Sending P) (send o : Action S O Unit) :=
  .send fun _ => List.forall_mem_singleton.mpr h

end Sending

/-- The state stays, and nothing is sent but what `P` allows. -/
def Only (P : O → Prop) (s s' : S) (out : List O) : Prop := s' = s ∧ ∀ o ∈ out, P o

namespace Only

variable {P : O → Prop}

theorem composes (P : O → Prop) : Composes (Only P : S → S → List O → Prop) where
  refl s := ⟨rfl, (Sending.composes P).refl s⟩
  trans h h' := ⟨h'.1.trans h.1, List.forall_mem_append.mpr ⟨h.2, h'.2⟩⟩

theorem send {o : O} (h : P o) : Ensures (Only P) (send o : Action S O Unit) :=
  .send fun _ => ⟨rfl, List.forall_mem_singleton.mpr h⟩

theorem sending {x : Action S O α} (hx : Ensures (Only P) x) : Ensures (Sending P) x :=
  hx.mono fun _ _ _ h => h.2

end Only

/-! ### Handlers that send -/

/-- Whenever the handler is defined, something is sent. -/
def Sends (x : Action S O α) : Prop :=
  ∀ s a s' out, x s = some (a, s', out) → out ≠ []

namespace Sends

theorem send (o : O) : Sends (send o : Action S O Unit) := by
  intro s u s' out h
  obtain ⟨-, rfl⟩ := send_eq_some_iff.mp h
  exact List.cons_ne_nil o []

theorem bind_left {x : Action S O α} (hx : Sends x) (f : α → Action S O β) : Sends (x >>= f) := by
  intro s b s'' out h
  obtain ⟨a, s', out₁, out₂, h₁, -, rfl⟩ := bind_eq_some_iff.mp h
  exact List.append_ne_nil_of_left_ne_nil (hx s a s' out₁ h₁) out₂

theorem bind_right {x : Action S O α} {f : α → Action S O β} (hf : ∀ a, Sends (f a)) :
    Sends (x >>= f) := by
  intro s b s'' out h
  obtain ⟨a, s', out₁, out₂, -, h₂, rfl⟩ := bind_eq_some_iff.mp h
  exact List.append_ne_nil_of_right_ne_nil out₁ (hf a s' b s'' out₂ h₂)

theorem ite {P : Prop} [Decidable P] {x y : Action S O α} (hx : Sends x) (hy : Sends y) :
    Sends (if P then x else y) := by
  split_ifs
  · exact hx
  · exact hy

end Sends

/-! ### Handlers on related states -/

/-- Where the handler is defined on a state, it does the same on a state related to it. -/
def Follows (R : S → S → Prop) (x : Action S O α) : Prop :=
  ∀ s t, R s t → ∀ a s' out, x s = some (a, s', out) → ∃ t', x t = some (a, t', out) ∧ R s' t'

theorem Follows.defined {R : S → S → Prop} {x : Action S O α} (hx : Follows R x) {s t : S}
    (hR : R s t) (h : x.Defined s) : x.Defined t := by
  obtain ⟨a, s', out, hs⟩ := h
  obtain ⟨t', ht, -⟩ := hx s t hR a s' out hs
  exact ⟨a, t', out, ht⟩

namespace Follows

variable {R : S → S → Prop}

theorem pure (a : α) : Follows R (pure a : Action S O α) := by
  intro s t hR b s' out h
  obtain ⟨rfl, rfl, rfl⟩ := pure_eq_some_iff.mp h
  exact ⟨t, rfl, hR⟩

theorem bind {x : Action S O α} {f : α → Action S O β} (hx : Follows R x)
    (hf : ∀ a, Follows R (f a)) : Follows R (x >>= f) := by
  intro s t hR b s'' out h
  obtain ⟨a, s', out₁, out₂, h₁, h₂, rfl⟩ := bind_eq_some_iff.mp h
  obtain ⟨t', ht', hR'⟩ := hx s t hR a s' out₁ h₁
  obtain ⟨t'', ht'', hR''⟩ := hf a s' t' hR' b s'' out₂ h₂
  exact ⟨t'', bind_eq_some_iff.mpr ⟨a, t', out₁, out₂, ht', ht'', rfl⟩, hR''⟩

/-- What is read of the state is the same in both. -/
theorem get_bind {f : S → Action S O β} (hread : ∀ s t, R s t → f t = f s)
    (hf : ∀ s, Follows R (f s)) : Follows R (get >>= f) := by
  intro s t hR b s' out h
  rw [Action.get_bind] at h ⊢
  rw [hread s t hR]
  exact hf s s t hR b s' out h

theorem modify {f : S → S} (h : ∀ s t, R s t → R (f s) (f t)) :
    Follows R (modify f : Action S O Unit) := by
  intro s t hR u s' out hs
  obtain ⟨rfl, rfl⟩ := modify_eq_some_iff.mp hs
  exact ⟨f t, rfl, h s t hR⟩

theorem send (o : O) : Follows R (send o : Action S O Unit) := by
  intro s t hR u s' out h
  obtain ⟨rfl, rfl⟩ := send_eq_some_iff.mp h
  exact ⟨t, rfl, hR⟩

theorem ofOption (x : Option α) : Follows R (ofOption x : Action S O α) := by
  intro s t hR a s' out h
  obtain ⟨rfl, rfl, rfl⟩ := ofOption_eq_some_iff.mp h
  exact ⟨t, rfl, hR⟩

theorem require (P : Prop) [Decidable P] : Follows R (require P : Action S O Unit) := by
  intro s t hR u s' out h
  obtain ⟨hP, rfl, rfl⟩ := require_eq_some_iff.mp h
  exact ⟨t, require_eq_some_iff.mpr ⟨hP, rfl, rfl⟩, hR⟩

theorem ite {P : Prop} [Decidable P] {x y : Action S O α} (hx : Follows R x) (hy : Follows R y) :
    Follows R (if P then x else y) := by
  split_ifs
  · exact hx
  · exact hy

theorem forM {f : β → Action S O PUnit} (xs : List β) (hf : ∀ x, Follows R (f x)) :
    Follows R (xs.forM f) := by
  induction xs with
  | nil => exact pure ()
  | cons x xs ih => exact bind (hf x) fun _ => ih

end Follows

end Action

end Reactive
