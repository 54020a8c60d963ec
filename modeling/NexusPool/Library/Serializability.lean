import NexusPool.Library.Program

/-!
# Interleaved programs and their serial orders

Threads share one state and take turns, a call at a time. A complete run ends where some
serial order of the threads ends, provided every two conflicting calls of different threads
happen in that order. The proof moves the calls of the first thread of the order to the
front, past calls they commute with, and continues with the rest.
-/

namespace Concurrent

open Program

variable {ι Call : Type} {Res : Call → Type} {σ : Type}

/-- Two calls that give the same answers and the same state in either order from `s`. -/
structure Commute (handle : (c : Call) → σ → Res c × σ) (c d : Call) (s : σ) : Prop where
  first : (handle c (handle d s).2).1 = (handle c s).1
  second : (handle d (handle c s).2).1 = (handle d s).1
  state : (handle d (handle c s).2).2 = (handle c (handle d s).2).2

theorem sublist_of_sublist_cons_of_ne {x y i : ι} {order : List ι}
    (h : [x, y].Sublist (i :: order)) (hx : x ≠ i) : [x, y].Sublist order := by
  cases h with
  | cons _ h => exact h
  | cons_cons => exact absurd rfl hx

/-! ### Calls with footprints -/

/-- What each call reads and writes, as sets of named parts of the state. The answer and
the new values of the written parts depend on the parts read alone. -/
structure Footprint (handle : (c : Call) → σ → Res c × σ) (Inv : σ → Prop) where
  Part : Type
  Value : Part → Type
  view : (x : Part) → σ → Value x
  reads : Call → Set Part
  writes : Call → Set Part
  ext : ∀ s t, (∀ x, view x s = view x t) → s = t
  keep : ∀ c s, Inv s → Inv (handle c s).2
  frame : ∀ c s, Inv s → ∀ x ∉ writes c, view x (handle c s).2 = view x s
  answer : ∀ c s t, Inv s → Inv t → (∀ x ∈ reads c, view x s = view x t) →
    (handle c s).1 = (handle c t).1
  effect : ∀ c s t, Inv s → Inv t → (∀ x ∈ reads c, view x s = view x t) →
    ∀ x ∈ writes c, view x (handle c s).2 = view x (handle c t).2

namespace Footprint

variable {handle : (c : Call) → σ → Res c × σ} {Inv : σ → Prop} (F : Footprint handle Inv)

/-- One of the two calls writes a part that the other reads or writes. -/
def Conflict (c d : Call) : Prop :=
  ∃ x, x ∈ F.writes c ∧ (x ∈ F.reads d ∨ x ∈ F.writes d) ∨
    x ∈ F.writes d ∧ (x ∈ F.reads c ∨ x ∈ F.writes c)

theorem Conflict.symm {c d : Call} (h : F.Conflict c d) : F.Conflict d c := by
  obtain ⟨x, h⟩ := h
  exact ⟨x, h.symm⟩

/-- Calls without a conflict leave the same values of every part in either order. -/
theorem view_swap {c d : Call} (h : ¬ F.Conflict c d) {s : σ} (hs : Inv s) (x : F.Part)
    (hx : x ∈ F.writes c) : F.view x (handle d (handle c s).2).2 =
      F.view x (handle c (handle d s).2).2 := by
  have hxd : x ∉ F.writes d := fun hd => h ⟨x, .inl ⟨hx, .inr hd⟩⟩
  rw [F.frame d _ (F.keep c s hs) x hxd]
  refine F.effect c s _ hs (F.keep d s hs) (fun y hy => ?_) x hx
  exact (F.frame d s hs y fun hd => h ⟨y, .inr ⟨hd, .inl hy⟩⟩).symm

theorem answer_after {c d : Call} (h : ¬ F.Conflict c d) {s : σ} (hs : Inv s) :
    (handle c (handle d s).2).1 = (handle c s).1 :=
  F.answer c _ _ (F.keep d s hs) hs fun y hy =>
    F.frame d s hs y fun hd => h ⟨y, .inr ⟨hd, .inl hy⟩⟩

theorem commute {c d : Call} (h : ¬ F.Conflict c d) {s : σ} (hs : Inv s) :
    Commute handle c d s where
  first := F.answer_after h hs
  second := F.answer_after (fun hdc => h (Conflict.symm F hdc)) hs
  state := by
    refine F.ext _ _ fun x => ?_
    by_cases hc : x ∈ F.writes c
    · exact F.view_swap h hs x hc
    by_cases hd : x ∈ F.writes d
    · exact (F.view_swap (fun hdc => h (Conflict.symm F hdc)) hs x hd).symm
    · rw [F.frame d _ (F.keep c s hs) x hd, F.frame c s hs x hc,
        F.frame c _ (F.keep d s hs) x hc, F.frame d s hs x hd]

end Footprint

/-! ### Interleavings -/

section Run

variable [DecidableEq ι] (handle : (c : Call) → σ → Res c × σ)

/-- One scheduled call: the thread that made it and the call itself. -/
structure Event (ι Call : Type) where
  thread : ι
  call : Call

/-- Any interleaving, one atomic call at a time, with the calls in the order they happen. -/
inductive Run : σ → (ι → Program Call Res Unit) → List (Event ι Call) →
    σ → (ι → Program Call Res Unit) → Prop
  | nil (s : σ) (pool : ι → Program Call Res Unit) : Run s pool [] s pool
  | step {s s' : σ} {pool pool' : ι → Program Call Res Unit} {i : ι} {c : Call}
      {next : Res c → Program Call Res Unit} {tr : List (Event ι Call)}
      (turn : pool i = .call c next)
      (rest : Run (handle c s).2 (Function.update pool i (next (handle c s).1)) tr s' pool') :
      Run s pool (⟨i, c⟩ :: tr) s' pool'

/-- The interleaving in which the threads take turns in this order; `none` if one has finished
before its turn. -/
def schedule : List ι → σ → (ι → Program Call Res Unit) →
    Option (List (Event ι Call) × σ × (ι → Program Call Res Unit))
  | [], s, pool => some ([], s, pool)
  | i :: turns, s, pool =>
    match pool i with
    | .done _ => none
    | .call c next =>
      (schedule turns (handle c s).2 (Function.update pool i (next (handle c s).1))).map fun r =>
        (⟨i, c⟩ :: r.1, r.2)

/-- The threads of a list, each run to its end before the next one starts. -/
def serial (pool : ι → Program Call Res Unit) (order : List ι) (s : σ) : σ :=
  order.foldl (fun s i => (run handle (pool i) s).2) s

variable {handle}

theorem Run.of_schedule {turns : List ι} {s : σ} {pool : ι → Program Call Res Unit}
    {r : List (Event ι Call) × σ × (ι → Program Call Res Unit)}
    (h : schedule handle turns s pool = some r) : Run handle s pool r.1 r.2.1 r.2.2 := by
  induction turns generalizing s pool r with
  | nil =>
    cases h
    exact .nil s pool
  | cons i turns ih =>
    rw [schedule] at h
    split at h
    · cases h
    · obtain ⟨r', hr', rfl⟩ := Option.map_eq_some_iff.mp h
      rename_i c next hturn
      exact .step hturn (ih hr')

theorem Run.foldl_eq {s s' : σ} {pool pool' : ι → Program Call Res Unit} {tr : List (Event ι Call)}
    (h : Run handle s pool tr s' pool') :
    tr.foldl (fun s e => (handle e.call s).2) s = s' := by
  induction h with
  | nil => rfl
  | step _ _ ih => exact ih

/-- The next call of a thread is the one its program makes first. -/
theorem Run.first_call {s s' : σ} {pool pool' : ι → Program Call Res Unit}
    {tr : List (Event ι Call)}
    (h : Run handle s pool tr s' pool') {i : ι} {e : Event ι Call}
    (hfirst : (tr.filter (·.thread = i)).head? = some e) : ∃ next, pool i = .call e.call next := by
  induction h with
  | nil => cases hfirst
  | @step s s' pool pool' j c next tr turn rest ih =>
    by_cases hj : j = i
    · subst hj
      rw [List.filter_cons_of_pos (by simp)] at hfirst
      cases hfirst
      exact ⟨next, turn⟩
    · rw [List.filter_cons_of_neg (by simpa using hj)] at hfirst
      obtain ⟨next', hnext'⟩ := ih hfirst
      rw [Function.update_of_ne (Ne.symm hj)] at hnext'
      exact ⟨next', hnext'⟩

/-- A call that commutes with all calls of a program can be made after it instead. -/
theorem run_commute {α : Type} (Inv : σ → Prop) (hinv : ∀ c s, Inv s → Inv (handle c s).2)
    (c : Call) : ∀ (p : Program Call Res α) (s : σ), Inv s →
      (∀ d ∈ calls handle p (handle c s).2, ∀ t, Inv t → Commute handle c d t) →
      run handle p (handle c s).2 =
        ((run handle p s).1, (handle c (run handle p s).2).2) ∧
      (handle c (run handle p s).2).1 = (handle c s).1
  | .done a, s, _, _ => ⟨rfl, rfl⟩
  | .call d next, s, hs, hcomm => by
    have h := hcomm d (by simp [calls]) s hs
    have ih := run_commute Inv hinv c (next (handle d s).1) (handle d s).2 (hinv d s hs) (by
      intro e he
      apply hcomm e
      rw [← h.state] at he
      rw [calls, h.second]
      exact List.mem_cons_of_mem _ he)
    simp only [run_call]
    rw [h.second, h.state]
    exact ⟨ih.1, ih.2.trans h.first⟩

theorem calls_commute {α : Type} (Inv : σ → Prop) (hinv : ∀ c s, Inv s → Inv (handle c s).2)
    (c : Call) : ∀ (p : Program Call Res α) (s : σ), Inv s →
      (∀ d ∈ calls handle p (handle c s).2, ∀ t, Inv t → Commute handle c d t) →
      calls handle p (handle c s).2 = calls handle p s
  | .done a, s, _, _ => rfl
  | .call d next, s, hs, hcomm => by
    have h := hcomm d (by simp [calls]) s hs
    have ih := calls_commute Inv hinv c (next (handle d s).1) (handle d s).2 (hinv d s hs) (by
      intro e he
      apply hcomm e
      rw [← h.state] at he
      rw [calls, h.second]
      exact List.mem_cons_of_mem _ he)
    rw [calls, calls, h.second, h.state, ih]

/-- The calls of thread `i` move to the front when every call of another thread
commutes with the calls `i` makes after it. -/
theorem Run.front (Inv : σ → Prop) (hinv : ∀ c s, Inv s → Inv (handle c s).2) (i : ι)
    {s s' : σ} {pool pool' : ι → Program Call Res Unit} {tr : List (Event ι Call)}
    (h : Run handle s pool tr s' pool') (hs : Inv s) (hdone : pool' i = .done ())
    (hcomm : tr.Pairwise fun x y => x.thread ≠ i → y.thread = i →
      ∀ t, Inv t → Commute handle x.call y.call t) :
    calls handle (pool i) s = (tr.filter (·.thread = i)).map (·.call) ∧
      Run handle (run handle (pool i) s).2 (Function.update pool i (.done ()))
        (tr.filter (·.thread ≠ i)) s' pool' := by
  induction h with
  | nil s pool =>
    rw [hdone, ← hdone, Function.update_eq_self, hdone]
    exact ⟨rfl, .nil s pool⟩
  | @step s s' pool pool' j c next tr turn rest ih =>
    obtain ⟨hhead, htail⟩ := List.pairwise_cons.mp hcomm
    obtain ⟨hcalls, hrun⟩ := ih (hinv c s hs) hdone htail
    by_cases hj : j = i
    · subst hj
      rw [Function.update_self] at hcalls hrun
      rw [Function.update_idem] at hrun
      simp only [turn, calls, run_call, hcalls]
      simpa using hrun
    · rw [Function.update_of_ne (Ne.symm hj)] at hcalls hrun
      -- the call of `j` is made after the whole program of `i`
      have hmine : ∀ d ∈ calls handle (pool i) (handle c s).2, ∀ t, Inv t →
          Commute handle c d t := by
        intro d hd
        rw [hcalls] at hd
        obtain ⟨e, he, rfl⟩ := List.mem_map.mp hd
        obtain ⟨he, hthread⟩ := List.mem_filter.mp he
        exact hhead e he hj (by simpa using hthread)
      have hlate := run_commute Inv hinv c (pool i) s hs hmine
      rw [calls_commute Inv hinv c (pool i) s hs hmine] at hcalls
      rw [hlate.1, Function.update_comm hj] at hrun
      have hturn : Function.update pool i (.done ()) j = .call c next := by
        rw [Function.update_of_ne hj, turn]
      have hothers : (⟨j, c⟩ :: tr : List (Event ι Call)).filter (·.thread ≠ i) =
          ⟨j, c⟩ :: tr.filter (·.thread ≠ i) := by
        simp [hj]
      refine ⟨by simpa [hj] using hcalls, ?_⟩
      rw [hothers]
      refine Run.step hturn ?_
      rw [hlate.2]
      exact hrun

/-- Every conflicting pair of calls of different threads happens in the order of the list. -/
def Respects (Conflict : Call → Call → Prop) (order : List ι) (tr : List (Event ι Call)) : Prop :=
  tr.Pairwise fun x y => x.thread ≠ y.thread → Conflict x.call y.call →
    [x.thread, y.thread].Sublist order

theorem run_inv {α : Type} (Inv : σ → Prop) (hinv : ∀ c s, Inv s → Inv (handle c s).2) :
    ∀ (p : Program Call Res α) (s : σ), Inv s → Inv (run handle p s).2
  | .done _, _, hs => hs
  | .call c next, s, hs => run_inv Inv hinv (next (handle c s).1) _ (hinv c s hs)

/-- A finished thread that is not in the list plays no part. -/
theorem serial_update (pool : ι → Program Call Res Unit) {i : ι} {order : List ι}
    (hi : i ∉ order) (p : Program Call Res Unit) (s : σ) :
    serial handle (Function.update pool i p) order s = serial handle pool order s := by
  induction order generalizing s with
  | nil => rfl
  | cons j order ih =>
    obtain ⟨hj, hi⟩ := not_or.mp (mt List.mem_cons.mpr hi)
    simp only [serial, List.foldl_cons, Function.update_of_ne (Ne.symm hj)]
    exact ih hi _

/-- A complete run whose conflicts follow a serial order ends where that order ends. -/
theorem Run.serializable {Inv : σ → Prop} (F : Footprint handle Inv) {s s' : σ}
    {pool pool' : ι → Program Call Res Unit} {tr : List (Event ι Call)}
    {order : List ι} (h : Run handle s pool tr s' pool') (hs : Inv s)
    (hdone : ∀ i ∈ order, pool' i = .done ()) (hnodup : order.Nodup)
    (hthreads : ∀ e ∈ tr, e.thread ∈ order) (hresp : Respects F.Conflict order tr) :
    s' = serial handle pool order s := by
  induction order generalizing s pool tr with
  | nil =>
    cases h with
    | nil => rfl
    | step turn rest => exact absurd (hthreads _ List.mem_cons_self) (by simp)
  | cons i order ih =>
    obtain ⟨hfresh, hnodup⟩ := List.nodup_cons.mp hnodup
    have hfirst : tr.Pairwise fun x y => x.thread ≠ i → y.thread = i →
        ∀ t, Inv t → Commute handle x.call y.call t := by
      refine hresp.imp fun {x y} hxy hx hy t => F.commute fun hconflict => hfresh ?_
      have hsub := sublist_of_sublist_cons_of_ne
        (hxy (fun he => hx (he.trans hy)) hconflict) hx
      exact hy ▸ hsub.subset (by simp)
    have hrun := (h.front Inv F.keep i hs (hdone i List.mem_cons_self) hfirst).2
    have hlater := ih hrun (run_inv Inv F.keep _ s hs)
      (fun j hj => hdone j (List.mem_cons_of_mem _ hj)) hnodup
      (by
        intro e he
        obtain ⟨he, hne⟩ := List.mem_filter.mp he
        exact (List.mem_cons.mp (hthreads e he)).resolve_left (by simpa using hne))
      (by
        refine (hresp.filter _).imp_of_mem fun {x y} hx _ hxy hne hconflict => ?_
        have hx := (List.mem_filter.mp hx).2
        exact sublist_of_sublist_cons_of_ne (hxy hne hconflict) (by simpa using hx))
    rw [hlater, serial_update pool hfresh]
    rfl

end Run

end Concurrent
