import Mathlib.Tactic

/-!
# Reading a file from the front

An input stream over a file: its position, and whether a read has gone past the end. After that
nothing more is read and the position is reported as -1. A loop that asks for the position has
no bound of its own, so loops run on fuel.
-/

namespace FileInput

variable {α S : Type}

structure InputStream (α : Type) where
  content : List α
  position : ℕ
  failed : Bool

namespace InputStream

/-- A file just opened. -/
def ofFile (content : List α) : InputStream α := ⟨content, 0, false⟩

def tellg (f : InputStream α) : ℤ := if f.failed then -1 else f.position

/-- Fills the buffer as far as the file goes; the rest of the buffer stays as it was. -/
def read (buffer : List α) (f : InputStream α) : List α × InputStream α :=
  if f.failed then (buffer, f)
  else
    let items := (f.content.drop f.position).take buffer.length
    (items ++ buffer.drop items.length,
      { f with
        position := f.position + items.length
        failed := items.length < buffer.length })

theorem read_append (front items rest buffer : List α) (h : items.length = buffer.length) :
    read buffer ⟨front ++ (items ++ rest), front.length, false⟩ =
      (items, ⟨front ++ (items ++ rest), (front ++ items).length, false⟩) := by
  simp [read, ← h]

theorem read_of_failed {f : InputStream α} (h : f.failed = true) (buffer : List α) :
    read buffer f = (buffer, f) := by
  rw [read, if_pos h]

theorem read_of_not_failed {content buffer : List α} {position : ℕ}
    (h : (read buffer ⟨content, position, false⟩).2.failed = false) :
    buffer.length ≤ (content.drop position).length ∧
      read buffer ⟨content, position, false⟩ = ((content.drop position).take buffer.length,
        ⟨content, position + buffer.length, false⟩) := by
  have hlength : ((content.drop position).take buffer.length).length = buffer.length := by
    simp only [read, Bool.false_eq_true, if_false, decide_eq_false_iff_not, Nat.not_lt] at h
    exact Nat.le_antisymm (List.length_take_le _ _) h
  refine ⟨?_, ?_⟩
  · rw [List.length_take] at hlength
    omega
  · simp only [read, Bool.false_eq_true, if_false, hlength, List.drop_length, List.append_nil,
      Nat.lt_irrefl, decide_false]

end InputStream

/-! ### Lines -/

section Lines

variable [DecidableEq α] (separator : α)

/-- `while (getline(f, line))` from here on, with what it has extracted so far of this line. A last
line that nothing ends counts, unless it is empty. -/
def getlines (line : List α) : List α → List (List α)
  | [] => if line = [] then [] else [line]
  | c :: rest =>
    if c = separator then line :: getlines [] rest else getlines (line ++ [c]) rest

/-- Each line, with the separator that ends it. -/
def unlines (lines : List (List α)) : List α := lines.flatMap (· ++ [separator])

variable {separator}

theorem getlines_append {front : List α} (h : separator ∉ front) (line rest : List α) :
    getlines separator line (front ++ separator :: rest) =
      (line ++ front) :: getlines separator [] rest := by
  induction front generalizing line with
  | nil => rw [List.nil_append, getlines, if_pos rfl, List.append_nil]
  | cons c front ih =>
    obtain ⟨hc, hfront⟩ := not_or.mp (mt List.mem_cons.mpr h)
    rw [List.cons_append, getlines, if_neg (Ne.symm hc), ih hfront, List.append_assoc,
      List.singleton_append]

/-- Lines that contain no separator are read back as they were written. -/
theorem getlines_unlines {lines : List (List α)} (h : ∀ line ∈ lines, separator ∉ line) :
    getlines separator [] (unlines separator lines) = lines := by
  induction lines with
  | nil => rfl
  | cons line lines ih =>
    rw [unlines, List.flatMap_cons, List.append_assoc, List.singleton_append,
      getlines_append (h line List.mem_cons_self), List.nil_append, ← unlines,
      ih fun line' h' => h line' (List.mem_cons_of_mem _ h')]

end Lines

/-! ### Loops without a bound -/

/-- `while (cond) body`. `none` where a turn is undefined or the fuel runs out. -/
def whileLoop (cond : S → Bool) (body : S → Option S) : ℕ → S → Option S
  | 0, _ => none
  | fuel + 1, s => if cond s then (body s).bind (whileLoop cond body fuel) else some s

variable {cond : S → Bool} {body : S → Option S} {fuel : ℕ} {s s' : S}

theorem whileLoop_stop (h : cond s = false) : whileLoop cond body (fuel + 1) s = some s := by
  simp [whileLoop, h]

theorem whileLoop_turn (hcond : cond s) (hbody : body s = some s') :
    whileLoop cond body (fuel + 1) s = whileLoop cond body fuel s' := by
  simp [whileLoop, hcond, hbody]

/-- A loop that has ended ends in the same way with more fuel. -/
theorem whileLoop_mono {fuel' : ℕ} (hfuel : fuel ≤ fuel')
    (h : whileLoop cond body fuel s = some s') :
    whileLoop cond body fuel' s = some s' := by
  induction fuel generalizing s fuel' with
  | zero => cases h
  | succ fuel ih =>
    obtain ⟨more, rfl⟩ : ∃ more, fuel' = more + 1 := ⟨fuel' - 1, by omega⟩
    rw [whileLoop] at h ⊢
    split_ifs at h ⊢ with hcond
    · obtain ⟨t, ht, hrest⟩ := Option.bind_eq_some_iff.mp h
      rw [ht]
      exact ih (by omega) hrest
    · exact h

/-- What every turn preserves, the loop preserves. -/
theorem whileLoop_inv {Inv : S → Prop} (hinv : ∀ s s', Inv s → body s = some s' → Inv s')
    (hs : Inv s) (h : whileLoop cond body fuel s = some s') : Inv s' := by
  induction fuel generalizing s with
  | zero => cases h
  | succ fuel ih =>
    rw [whileLoop] at h
    split_ifs at h with hcond
    · obtain ⟨t, ht, hrest⟩ := Option.bind_eq_some_iff.mp h
      exact ih (hinv s t hs ht) hrest
    · cases h
      exact hs

end FileInput
