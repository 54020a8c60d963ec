import Mathlib.Tactic

/-!
# Runs of a reactive system

A system takes one event at a time, and each step may send outputs or be undefined. A run is
recorded as its history, the newest step first, so the part of a history behind a step is
the run up to that step.
-/

namespace Reactive

/-- A step as it happened. -/
structure Occurrence (S E O : Type) where
  before : S
  event : E
  after : S
  outputs : List O

variable {S E O : Type}

abbrev History (S E O : Type) := List (Occurrence S E O)

/-- The histories of the runs from a state that satisfies `init`, with the state each ends in. -/
inductive Run (step : S → E → Option (S × List O)) (init : S → Prop) : History S E O → S → Prop
  | start {s : S} (h : init s) : Run step init [] s
  | next {past : History S E O} {s s' : S} {e : E} {out : List O} (h : Run step init past s)
      (hstep : step s e = some (s', out)) : Run step init (⟨s, e, s', out⟩ :: past) s'

/-- `P` holds of every step, seen with the history before it. -/
def Throughout (P : History S E O → Occurrence S E O → Prop) : History S E O → Prop
  | [] => True
  | o :: past => P past o ∧ Throughout P past

@[simp] theorem throughout_nil (P : History S E O → Occurrence S E O → Prop) : Throughout P [] :=
  trivial

@[simp] theorem throughout_cons (P : History S E O → Occurrence S E O → Prop)
    (o : Occurrence S E O) (past : History S E O) :
    Throughout P (o :: past) ↔ P past o ∧ Throughout P past := Iff.rfl

instance Throughout.decidable (P : History S E O → Occurrence S E O → Prop)
    [∀ past o, Decidable (P past o)] : (history : History S E O) → Decidable (Throughout P history)
  | [] => .isTrue trivial
  | o :: past =>
    have := decidable P past
    inferInstanceAs (Decidable (P past o ∧ Throughout P past))

namespace Throughout

variable {P Q : History S E O → Occurrence S E O → Prop} {past history : History S E O}

theorem suffix (h : Throughout P history) (hpast : past <:+ history) : Throughout P past := by
  obtain ⟨front, rfl⟩ := hpast
  induction front with
  | nil => exact h
  | cons o front ih => exact ih h.2

theorem congr (h : Throughout (fun past o => P past o ↔ Q past o) history) :
    Throughout P history ↔ Throughout Q history := by
  induction history with
  | nil => rfl
  | cons o past ih => exact and_congr h.1 (ih h.2)

/-- Two conditions that agree on a step if one of them held before. -/
theorem cons_congr {o : Occurrence S E O} (hpast : Throughout P past ↔ Throughout Q past)
    (ho : Throughout P past → (P past o ↔ Q past o)) :
    Throughout P (o :: past) ↔ Throughout Q (o :: past) := by
  constructor
  · rintro ⟨hP, hbefore⟩
    exact ⟨(ho hbefore).mp hP, hpast.mp hbefore⟩
  · rintro ⟨hQ, hbefore⟩
    exact ⟨(ho (hpast.mpr hbefore)).mpr hQ, hpast.mpr hbefore⟩

theorem mp (h : Throughout (fun past o => P past o → Q past o) history)
    (hP : Throughout P history) : Throughout Q history := by
  induction history with
  | nil => trivial
  | cons o past ih => exact ⟨h.1 hP.1, ih h.2 hP.2⟩

/-- A condition that does not ask for the history holds of every step as of a list. -/
theorem iff_forall {P : Occurrence S E O → Prop} :
    Throughout (fun _ => P) history ↔ ∀ o ∈ history, P o := by
  induction history with
  | nil => simp
  | cons o past ih => simp [ih]

end Throughout

variable {step : S → E → Option (S × List O)} {init : S → Prop}

theorem Run.invariant {Inv : S → Prop} (hinit : ∀ s, init s → Inv s)
    (hstep : ∀ s e s' out, Inv s → step s e = some (s', out) → Inv s') {history : History S E O}
    {s : S} (h : Run step init history s) : Inv s := by
  induction h with
  | start h => exact hinit _ h
  | next _ hs ih => exact hstep _ _ _ _ ih hs

theorem Run.of_init {init' : S → Prop} (h : ∀ s, init s → init' s) {history : History S E O} {s : S}
    (hrun : Run step init history s) : Run step init' history s := by
  induction hrun with
  | start hs => exact .start (h _ hs)
  | next _ hs ih => exact ih.next hs

theorem Run.append {past front : History S E O} {s₀ s : S} (hpast : Run step init past s₀)
    (hfront : Run step (· = s₀) front s) : Run step init (front ++ past) s := by
  induction hfront with
  | start h =>
    subst h
    exact hpast
  | next _ hs ih => exact ih.next hs

/-! ### Runs of given events -/

/-- The history of taking these events in order, if every step is defined. -/
def trace (step : S → E → Option (S × List O)) (s : S) (events : List E) :
    Option (History S E O × S) :=
  events.foldlM (fun r e => (step r.2 e).map fun next => (⟨r.2, e, next.1, next.2⟩ :: r.1, next.1))
    ([], s)

theorem Run.foldlM_trace :
    ∀ (events : List E) {past : History S E O} {s : S} {r : History S E O × S},
    Run step init past s →
      events.foldlM (fun r e => (step r.2 e).map fun next =>
        ((⟨r.2, e, next.1, next.2⟩ : Occurrence S E O) :: r.1, next.1)) (past, s) = some r →
      Run step init r.1 r.2
  | [], _, _, _, hpast, h => by
    cases h
    exact hpast
  | e :: events, past, s, r, hpast, h => by
    simp only [List.foldlM_cons, Option.bind_eq_bind, Option.bind_eq_some_iff,
      Option.map_eq_some_iff] at h
    obtain ⟨_, ⟨next, hnext, rfl⟩, hrest⟩ := h
    exact foldlM_trace events (hpast.next hnext) hrest

theorem Run.of_trace {s : S} (hs : init s) {events : List E} {r : History S E O × S}
    (h : trace step s events = some r) : Run step init r.1 r.2 :=
  Run.foldlM_trace events (.start hs) h

/-- A trace is a run, so a check that it passes is a check that some run passes. -/
theorem exists_run_of_trace {s : S} (hs : init s) (events : List E) (p : History S E O → Bool)
    (h : (trace step s events).any (p ·.1) = true) :
    ∃ history s', Run step init history s' ∧ p history = true := by
  obtain ⟨r, hr, hp⟩ := (Option.any_eq_true _ _).mp h
  exact ⟨r.1, r.2, Run.of_trace hs hr, hp⟩

/-- If in all states that satisfy `Inv` every event is defined and keeps `Inv`, then every list of
events is a trace, and `Inv` holds before and after each of its steps. -/
theorem exists_trace {Inv : S → Prop}
    (hstep : ∀ s e, Inv s → ∃ s' out, step s e = some (s', out) ∧ Inv s') {s : S} (hs : Inv s)
    (events : List E) : ∃ history s', trace step s events = some (history, s') ∧
      history.length = events.length ∧ Throughout (fun _ o => Inv o.before ∧ Inv o.after) history ∧
      Inv s' := by
  induction events using List.reverseRecOn with
  | nil => exact ⟨[], s, rfl, rfl, trivial, hs⟩
  | append_singleton events e ih =>
    obtain ⟨past, s', htrace, hlength, hpast, hs'⟩ := ih
    obtain ⟨s'', out, hnext, hs''⟩ := hstep s' e hs'
    refine ⟨⟨s', e, s'', out⟩ :: past, s'', ?_, by simp [hlength], ⟨⟨hs', hs''⟩, hpast⟩, hs''⟩
    rw [trace] at htrace ⊢
    rw [List.foldlM_append, htrace, Option.bind_eq_bind, Option.bind_some, List.foldlM_cons, hnext]
    rfl

/-! ### Counting -/

theorem countP_eq_zero_of_forall {p : O → Bool} {out : List O} (h : ∀ o ∈ out, p o = false) :
    out.countP p = 0 := by
  apply List.countP_eq_zero.mpr
  intro o ho
  rw [h o ho]
  exact Bool.false_ne_true

/-- The number of outputs of a kind in a history. -/
def sent (p : O → Bool) (history : History S E O) : ℕ :=
  (history.map fun o => o.outputs.countP p).sum

def received (q : E → Bool) (history : History S E O) : ℕ := history.countP fun o => q o.event

@[simp] theorem sent_cons (p : O → Bool) (o : Occurrence S E O) (past : History S E O) :
    sent p (o :: past) = o.outputs.countP p + sent p past := by
  simp [sent]

@[simp] theorem received_cons (q : E → Bool) (o : Occurrence S E O) (past : History S E O) :
    received q (o :: past) = (if q o.event then 1 else 0) + received q past := by
  simp [received, List.countP_cons, add_comm]

/-- If no step sends more than it has received, no history does. -/
theorem sent_le_received {p : O → Bool} {q : E → Bool} {history : History S E O}
    (h : Throughout (fun _ o => o.outputs.countP p ≤ if q o.event then 1 else 0) history) :
    sent p history ≤ received q history := by
  induction history with
  | nil => simp [sent]
  | cons o past ih =>
    have hpast := ih h.2
    rw [sent_cons, received_cons]
    exact Nat.add_le_add h.1 hpast

end Reactive
