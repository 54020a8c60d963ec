import Mathlib.Tactic

/-!
# Streams that hold their last block back

A stream is worked off in blocks of `n` symbols, but its last block, whole or not, is kept until
nothing follows. What has been worked off and what is kept depend on the stream alone: a piece
that is added meets only what was kept, so the pieces a stream comes in make no difference.
-/

namespace HoldBack

variable {α S : Type*} (n : ℕ)

def blocks : ℕ → List α → List (List α)
  | 0, _ => []
  | k + 1, data => data.take n :: blocks k (data.drop n)

/-- How many blocks of a stream are not held back. -/
def done (length : ℕ) : ℕ := (length - 1) / n

def worked (turn : S → List α → S) (s : S) (data : List α) : S :=
  (blocks n (done n data.length) data).foldl turn s

def kept (data : List α) : List α := data.drop (done n data.length * n)

variable {n} {data front piece : List α} {turn : S → List α → S} {s : S}

@[simp] theorem blocks_zero : blocks n 0 data = [] := rfl

theorem blocks_one : blocks n 1 data = [data.take n] := rfl

theorem blocks_add (j k : ℕ) :
    blocks n (j + k) data = blocks n j data ++ blocks n k (data.drop (j * n)) := by
  induction j generalizing data with
  | zero => simp
  | succ j ih =>
    rw [Nat.add_right_comm, blocks, blocks, ih, List.drop_drop, List.cons_append, Nat.succ_mul,
      Nat.add_comm (j * n)]

/-- Blocks that end in front of a piece are not changed by it. -/
theorem blocks_append {k : ℕ} (h : k * n ≤ front.length) :
    blocks n k (front ++ piece) = blocks n k front := by
  induction k generalizing front with
  | zero => rfl
  | succ k ih =>
    have hn : n ≤ front.length := (Nat.le_mul_of_pos_left n k.succ_pos).trans h
    rw [blocks, blocks, List.take_append_of_le_length hn, List.drop_append_of_le_length hn, ih]
    rw [List.length_drop, Nat.le_sub_iff_add_le hn, ← Nat.succ_mul]
    exact h

/-! ### What is kept -/

theorem done_mul_le (length : ℕ) : done n length * n ≤ length :=
  (Nat.div_mul_le_self _ _).trans (Nat.sub_le _ _)

theorem length_kept : (kept n data).length = data.length - done n data.length * n :=
  List.length_drop

theorem length_kept_le (hn : 0 < n) : (kept n data).length ≤ n := by
  have hmod := Nat.mod_lt (data.length - 1) hn
  have hdiv := Nat.div_add_mod' (data.length - 1) n
  rw [length_kept, done]
  omega

/-- Of a stream with a symbol in it, one is kept. -/
theorem kept_ne_nil (h : data ≠ []) : kept n data ≠ [] := by
  have hlength := List.length_pos_of_ne_nil h
  have hle : done n data.length * n ≤ data.length - 1 := Nat.div_mul_le_self _ _
  rw [← List.length_pos_iff, length_kept]
  omega

@[simp] theorem kept_nil : kept n ([] : List α) = [] := by simp [kept]

@[simp] theorem worked_nil : worked n turn s [] = s := by simp [worked, done]

theorem done_of_le {length : ℕ} (hn : 0 < n) (h : length ≤ n) : done n length = 0 :=
  Nat.div_eq_of_lt (by omega)

theorem done_add (hn : 0 < n) {length : ℕ} (h : 0 < length) :
    done n (n + length) = 1 + done n length := by
  rw [done, done, Nat.add_sub_assoc h, Nat.add_div_left _ hn, Nat.add_comm]

/-! ### Pieces -/

theorem done_append (hn : 0 < n) :
    done n (data ++ piece).length =
      done n data.length + done n (kept n data ++ piece).length := by
  rcases eq_or_ne data [] with rfl | hdata
  · simp [done]
  · have hpos := List.length_pos_of_ne_nil (kept_ne_nil hdata (n := n))
    have hle := done_mul_le (n := n) data.length
    have hkept := @length_kept _ n data
    rw [List.length_append, List.length_append]
    have hlength : data.length + piece.length - 1 =
        done n data.length * n + ((kept n data).length + piece.length - 1) := by
      omega
    rw [done, hlength, Nat.add_comm, Nat.add_mul_div_right _ _ hn, Nat.add_comm]
    rfl

theorem kept_append (hn : 0 < n) : kept n (data ++ piece) = kept n (kept n data ++ piece) := by
  rw [kept, done_append hn, Nat.add_mul, ← List.drop_drop,
    List.drop_append_of_le_length (done_mul_le _)]
  rfl

/-- A piece meets what was kept. -/
theorem worked_append (hn : 0 < n) :
    worked n turn s (data ++ piece) =
      worked n turn (worked n turn s data) (kept n data ++ piece) := by
  rw [worked, done_append hn, blocks_add, List.foldl_append, blocks_append (done_mul_le _),
    List.drop_append_of_le_length (done_mul_le _)]
  rfl

/-- If not all fits into one block, the first block is worked off, and the rest stands alone. -/
theorem worked_of_lt (hn : 0 < n) (h : n < data.length) :
    worked n turn s data = worked n turn (turn s (data.take n)) (data.drop n) := by
  have hlength : data.length = n + (data.drop n).length := by
    rw [List.length_drop]
    omega
  rw [worked, hlength, done_add hn (by rw [List.length_drop]; omega), blocks_add, blocks_one,
    Nat.one_mul]
  rfl

theorem kept_of_lt (hn : 0 < n) (h : n < data.length) : kept n data = kept n (data.drop n) := by
  have hlength : data.length = n + (data.drop n).length := by
    rw [List.length_drop]
    omega
  rw [kept, hlength, done_add hn (by rw [List.length_drop]; omega), Nat.add_mul, Nat.one_mul,
    ← List.drop_drop]
  rfl

theorem worked_of_le (hn : 0 < n) (h : data.length ≤ n) : worked n turn s data = s := by
  rw [worked, done_of_le hn h]
  rfl

theorem kept_of_le (hn : 0 < n) (h : data.length ≤ n) : kept n data = data := by
  rw [kept, done_of_le hn h, Nat.zero_mul, List.drop_zero]

end HoldBack
