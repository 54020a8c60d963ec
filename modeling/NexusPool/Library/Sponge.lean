import Mathlib.Tactic

/-!
# Sponge functions with a byte queue

A state of `b` symbols is changed by a function `f` whenever `rate` symbols have been taken in
or given out. Data is taken in one symbol at a time, each combined with the state at a position
that moves on, so how the data is cut into pieces makes no difference. What comes out is read
from the state in the same manner.
-/

namespace Sponge

variable {α : Type*} {b : ℕ}

/-! ### Data laid over the state -/

section Overlay

variable (combine : α → α → α)

def adjust (state : Vector α b) (i : ℕ) (change : α → α) : Vector α b :=
  if h : i < b then state.set i (change state[i]) else state

/-- The data combined with the state from a position on; what lies behind its end is dropped. -/
def overlay : Vector α b → ℕ → List α → Vector α b
  | state, _, [] => state
  | state, start, a :: data => overlay (adjust state start (combine · a)) (start + 1) data

variable {combine} {state : Vector α b} {start : ℕ} {data data' : List α}

theorem getElem_adjust {i k : ℕ} (hk : k < b) (change : α → α) :
    (adjust state i change)[k] = if i = k then change state[k] else state[k] := by
  unfold adjust
  by_cases hik : i = k
  · subst hik
    simp [hk]
  · split_ifs
    · exact Vector.getElem_set_ne _ hk hik
    · rfl

/-- Each symbol of the state is combined with the datum above it, if there is one. -/
theorem getElem_overlay {k : ℕ} (hk : k < b) :
    (overlay combine state start data)[k] =
      if start ≤ k then (data[k - start]?).elim state[k] (combine state[k]) else state[k] := by
  induction data generalizing state start with
  | nil => simp [overlay]
  | cons a data ih =>
    rw [overlay, ih, getElem_adjust hk]
    rcases lt_trichotomy start k with h | rfl | h
    · have hpos : k - start = k - (start + 1) + 1 := by omega
      simp only [h.le, h.ne, if_false, if_true, show start + 1 ≤ k from h, hpos,
        List.getElem?_cons_succ]
    · simp
    · simp only [h.not_ge, h.ne', if_false, show ¬start + 1 ≤ k by omega]

@[simp] theorem overlay_nil : overlay combine state start [] = state := rfl

theorem overlay_append :
    overlay combine state start (data ++ data') =
      overlay combine (overlay combine state start data) (start + data.length) data' := by
  induction data generalizing state start with
  | nil => rfl
  | cons a data ih =>
    rw [List.cons_append, overlay, ih, overlay, List.length_cons, Nat.add_assoc,
      Nat.add_comm 1 data.length]

theorem overlay_behind :
    overlay combine (overlay combine state (start + data.length) data') start data =
      overlay combine state start (data ++ data') := by
  apply Vector.ext
  intro k hk
  rw [overlay_append, getElem_overlay, getElem_overlay, getElem_overlay, getElem_overlay]
  by_cases hstart : start ≤ k
  · by_cases hlen : start + data.length ≤ k
    · have hnone : data[k - start]? = none := List.getElem?_eq_none (by omega)
      simp [hstart, hnone]
    · simp [hlen]
  · simp [hstart, show ¬start + data.length ≤ k by omega]

/-- Symbols that change nothing. -/
theorem overlay_neutral {a : α} (ha : ∀ b, combine b a = b) (n : ℕ) :
    overlay combine state start (List.replicate n a) = state := by
  apply Vector.ext
  intro k hk
  rw [getElem_overlay hk, List.getElem?_replicate]
  split_ifs
  · exact ha _
  · rfl
  · rfl

end Overlay

/-- The state, and the position of the next symbol to be taken in or given out. -/
@[ext] structure Io (α : Type*) (b : ℕ) where
  state : Vector α b
  index : ℕ

section Absorb

variable (combine : α → α → α) (f : Vector α b → Vector α b) (rate : ℕ)

def absorbOne (io : Io α b) (a : α) : Io α b :=
  let state := adjust io.state io.index (combine · a)
  if io.index + 1 = rate then ⟨f state, 0⟩ else ⟨state, io.index + 1⟩

def absorb (io : Io α b) (data : List α) : Io α b := data.foldl (absorbOne combine f rate) io

variable {combine f rate} {io : Io α b} {data data' : List α}

@[simp] theorem absorb_nil : absorb combine f rate io [] = io := rfl

theorem absorb_append :
    absorb combine f rate io (data ++ data') =
      absorb combine f rate (absorb combine f rate io data) data' := List.foldl_append

theorem absorb_within (h : io.index + data.length < rate) :
    absorb combine f rate io data =
      ⟨overlay combine io.state io.index data, io.index + data.length⟩ := by
  induction data generalizing io with
  | nil => rfl
  | cons a data ih =>
    rw [List.length_cons] at h
    have hone : absorbOne combine f rate io a =
        ⟨adjust io.state io.index (combine · a), io.index + 1⟩ := by
      simp [absorbOne, show io.index + 1 ≠ rate by omega]
    rw [absorb, List.foldl_cons, hone, ← absorb, ih (by simpa using (by omega)), overlay,
      List.length_cons]
    simp only [Io.mk.injEq, true_and]
    omega

/-- Data that fills the block is followed by the function. -/
theorem absorb_fill (hdata : data ≠ []) (h : io.index + data.length = rate) :
    absorb combine f rate io data = ⟨f (overlay combine io.state io.index data), 0⟩ := by
  obtain ⟨front, a, rfl⟩ := List.eq_nil_or_concat data |>.resolve_left hdata
  rw [List.concat_eq_append, List.length_append, List.length_singleton] at h
  have hfront : absorb combine f rate io front =
      ⟨overlay combine io.state io.index front, io.index + front.length⟩ :=
    absorb_within (by omega)
  rw [List.concat_eq_append, absorb_append, hfront, overlay_append]
  simp [absorb, absorbOne, overlay, Nat.add_assoc, h]

theorem index_absorb_lt (hrate : 0 < rate) (h : io.index < rate) :
    (absorb combine f rate io data).index < rate := by
  induction data generalizing io with
  | nil => exact h
  | cons a data ih =>
    refine ih ?_
    simp only [absorbOne]
    split_ifs with hfull
    · exact hrate
    · exact lt_of_le_of_ne h hfull

theorem index_absorb (h : io.index < rate) :
    (absorb combine f rate io data).index = (io.index + data.length) % rate := by
  induction data generalizing io with
  | nil => simp [Nat.mod_eq_of_lt h]
  | cons a data ih =>
    rw [absorb, List.foldl_cons, ← absorb]
    by_cases hfull : io.index + 1 = rate
    · have hone : absorbOne combine f rate io a =
          ⟨f (adjust io.state io.index (combine · a)), 0⟩ := by
        simp [absorbOne, hfull]
      rw [hone, ih (by simpa using (by omega)), List.length_cons,
        show io.index + (data.length + 1) = data.length + rate by omega, Nat.add_mod_right,
        Nat.zero_add]
    · have hone : absorbOne combine f rate io a =
          ⟨adjust io.state io.index (combine · a), io.index + 1⟩ := by
        simp [absorbOne, hfull]
      rw [hone, ih (by simpa using (by omega)), List.length_cons, Nat.add_assoc,
        Nat.add_comm 1 data.length]

end Absorb

section Squeeze

variable (f : Vector α b → Vector α b) (rate : ℕ)

/-- A block that has been given out is followed by the function. -/
def squeezeOne (io : Io α b) : List α × Io α b :=
  let io := if io.index = rate then ⟨f io.state, 0⟩ else io
  (io.state[io.index]?.toList, ⟨io.state, io.index + 1⟩)

def squeeze : ℕ → Io α b → List α × Io α b
  | 0, io => ([], io)
  | n + 1, io =>
    let (one, io) := squeezeOne f rate io
    let (rest, io) := squeeze n io
    (one ++ rest, io)

variable {f rate} {io : Io α b} {m n : ℕ}

@[simp] theorem squeeze_zero : squeeze f rate 0 io = ([], io) := rfl

theorem squeeze_succ :
    squeeze f rate (n + 1) io =
      ((squeezeOne f rate io).1 ++ (squeeze f rate n (squeezeOne f rate io).2).1,
        (squeeze f rate n (squeezeOne f rate io).2).2) := rfl

/-- Two requests give what one request for the sum gives. -/
theorem squeeze_add :
    squeeze f rate (m + n) io =
      ((squeeze f rate m io).1 ++ (squeeze f rate n (squeeze f rate m io).2).1,
        (squeeze f rate n (squeeze f rate m io).2).2) := by
  induction m generalizing io with
  | zero => simp
  | succ m ih => rw [Nat.add_right_comm, squeeze_succ, ih, squeeze_succ, List.append_assoc]

theorem index_squeezeOne_le (hrate : 0 < rate) (h : io.index ≤ rate) :
    (squeezeOne f rate io).2.index ≤ rate := by
  simp only [squeezeOne]
  split_ifs with hfull
  · exact hrate
  · exact Nat.lt_of_le_of_ne h hfull

theorem index_squeeze_le (hrate : 0 < rate) (h : io.index ≤ rate) :
    (squeeze f rate n io).2.index ≤ rate := by
  induction n generalizing io with
  | zero => exact h
  | succ n ih =>
    rw [squeeze_succ]
    exact ih (index_squeezeOne_le hrate h)

theorem length_squeeze (hrate : 0 < rate) (hb : rate ≤ b) (h : io.index ≤ rate) :
    (squeeze f rate n io).1.length = n := by
  induction n generalizing io with
  | zero => rfl
  | succ n ih =>
    have hnext := index_squeezeOne_le (f := f) hrate h
    have hone : (squeezeOne f rate io).1.length = 1 := by
      simp only [squeezeOne]
      split_ifs
      · simp [show 0 < b by omega]
      · simp [show io.index < b by omega]
    rw [squeeze_succ, List.length_append, hone, ih hnext, Nat.add_comm]

/-- Up to the end of the block the symbols are read off the state. -/
theorem squeeze_within (h : io.index + n ≤ rate) :
    squeeze f rate n io = ((io.state.toList.drop io.index).take n, ⟨io.state, io.index + n⟩) := by
  induction n generalizing io with
  | zero => simp
  | succ n ih =>
    have hone : squeezeOne f rate io = (io.state[io.index]?.toList, ⟨io.state, io.index + 1⟩) := by
      simp [squeezeOne, show io.index ≠ rate by omega]
    rw [squeeze_succ, hone, ih (by simpa using (by omega))]
    simp only [Prod.mk.injEq, Io.mk.injEq, true_and]
    refine ⟨?_, by omega⟩
    by_cases hindex : io.index < b
    · have hdrop : io.state.toList.drop io.index =
          io.state[io.index] :: io.state.toList.drop (io.index + 1) := by
        rw [List.drop_eq_getElem_cons (by simpa using hindex)]
        simp
      simp [hindex, hdrop]
    · simp [hindex, List.drop_eq_nil_of_le, show b ≤ io.index by omega,
        show b ≤ io.index + 1 by omega]

/-- At the end of a block the function is called before the next symbol. -/
theorem squeeze_full (hrate : 0 < rate) (hn : 0 < n) (h : io.index = rate) :
    squeeze f rate n io = squeeze f rate n ⟨f io.state, 0⟩ := by
  obtain ⟨n, rfl⟩ := Nat.exists_eq_add_one.mpr hn
  have hone : squeezeOne f rate io = squeezeOne f rate ⟨f io.state, 0⟩ := by
    simp [squeezeOne, h, hrate.ne]
  rw [squeeze_succ, squeeze_succ, hone]

end Squeeze

/-! ### Symbols made of smaller ones -/

/-- A state whose symbols are `k` smaller ones each, and what the functions do to these. -/
structure Parts {β : Type*} {c : ℕ} (k : ℕ) (combine : β → β → β) (f : Vector β c → Vector β c)
    (combine' : α → α → α) (f' : Vector α b → Vector α b) where
  symbols : β → List α
  state : Vector β c → Vector α b
  length_symbols : ∀ x, (symbols x).length = k
  state_adjust : ∀ s i x,
    state (adjust s i (combine · x)) = overlay combine' (state s) (k * i) (symbols x)
  state_function : ∀ s, state (f s) = f' (state s)
  read : ∀ s i, ((state s).toList.drop (k * i)).take k = (s[i]?.map symbols).getD []

namespace Parts

variable {β : Type*} {c k : ℕ} {combine : β → β → β} {f : Vector β c → Vector β c}
  {combine' : α → α → α} {f' : Vector α b → Vector α b} (parts : Parts k combine f combine' f')

def io (io : Io β c) : Io α b := ⟨parts.state io.state, k * io.index⟩

theorem state_overlay (s : Vector β c) (start : ℕ) (data : List β) :
    parts.state (overlay combine s start data) =
      overlay combine' (parts.state s) (k * start) (data.flatMap parts.symbols) := by
  induction data generalizing s start with
  | nil => rfl
  | cons x data ih =>
    rw [overlay, ih, parts.state_adjust, List.flatMap_cons, overlay_append, parts.length_symbols,
      Nat.mul_succ]

variable {rate : ℕ} {io : Io β c}

theorem io_absorbOne (hk : 0 < k) (h : io.index < rate) (x : β) :
    parts.io (absorbOne combine f rate io x) =
      absorb combine' f' (k * rate) (parts.io io) (parts.symbols x) := by
  have hlength := parts.length_symbols x
  have hindex : (parts.io io).index = k * io.index := rfl
  by_cases hfull : io.index + 1 = rate
  · have hne : parts.symbols x ≠ [] := by
      intro hnil
      rw [hnil] at hlength
      exact hk.ne hlength
    rw [absorb_fill hne (by rw [hindex, hlength, ← hfull, Nat.mul_succ]), absorbOne, if_pos hfull]
    simp only [Parts.io, parts.state_function, parts.state_adjust, Nat.mul_zero]
  · have hlt : k * (io.index + 1) < k * rate :=
      Nat.mul_lt_mul_of_pos_left (lt_of_le_of_ne h hfull) hk
    rw [absorb_within (by rwa [hindex, hlength, ← Nat.mul_succ]), absorbOne, if_neg hfull]
    simp only [Parts.io, parts.state_adjust, hlength, Nat.mul_succ]

/-- Taking in the smaller symbols is taking in what they make. -/
theorem io_absorb (hk : 0 < k) (hrate : 0 < rate) (h : io.index < rate) (data : List β) :
    parts.io (absorb combine f rate io data) =
      absorb combine' f' (k * rate) (parts.io io) (data.flatMap parts.symbols) := by
  induction data generalizing io with
  | nil => rfl
  | cons x data ih =>
    have hone : absorb combine f rate io (x :: data) =
        absorb combine f rate (absorbOne combine f rate io x) data := rfl
    have hnext : (absorbOne combine f rate io x).index < rate := by
      have hlt := @index_absorb_lt _ _ combine f rate io [x] hrate h
      exact hlt
    rw [hone, ih hnext, parts.io_absorbOne hk h, List.flatMap_cons, absorb_append]

theorem io_squeezeOne (hk : 0 < k) (hrate : 0 < rate) (h : io.index ≤ rate) :
    squeeze f' (k * rate) k (parts.io io) =
      ((squeezeOne f rate io).1.flatMap parts.symbols, parts.io (squeezeOne f rate io).2) := by
  have hwithin : ∀ io : Io β c, io.index < rate → squeeze f' (k * rate) k (parts.io io) =
      (io.state[io.index]?.toList.flatMap parts.symbols, parts.io ⟨io.state, io.index + 1⟩) := by
    intro io hlt
    have hle : k * (io.index + 1) ≤ k * rate := Nat.mul_le_mul_left k hlt
    rw [squeeze_within (show k * io.index + k ≤ k * rate by rwa [← Nat.mul_succ])]
    have hread := parts.read io.state io.index
    refine Prod.ext ?_ rfl
    refine hread.trans ?_
    cases io.state[io.index]? <;> simp
  by_cases hfull : io.index = rate
  · have hone : squeezeOne f rate io = squeezeOne f rate ⟨f io.state, 0⟩ := by
      simp [squeezeOne, hfull, hrate.ne]
    have hzero : parts.io ⟨f io.state, 0⟩ = ⟨f' (parts.io io).state, 0⟩ := by
      simp only [Parts.io, parts.state_function, Nat.mul_zero]
    rw [squeeze_full (Nat.mul_pos hk hrate) hk (congrArg (k * ·) hfull), ← hzero, hwithin _ hrate,
      hone]
    simp [squeezeOne, hrate.ne]
  · rw [hwithin io (lt_of_le_of_ne h hfull)]
    simp [squeezeOne, hfull]

/-- The smaller symbols that are given out make up what is given out. -/
theorem io_squeeze (hk : 0 < k) (hrate : 0 < rate) (h : io.index ≤ rate) (n : ℕ) :
    squeeze f' (k * rate) (k * n) (parts.io io) =
      ((squeeze f rate n io).1.flatMap parts.symbols, parts.io (squeeze f rate n io).2) := by
  induction n generalizing io with
  | zero => rfl
  | succ n ih =>
    have hnext := index_squeezeOne_le (f := f) hrate h
    rw [Nat.mul_succ, Nat.add_comm, squeeze_add, parts.io_squeezeOne hk hrate h, ih hnext,
      squeeze_succ, List.flatMap_append]

end Parts

end Sponge
