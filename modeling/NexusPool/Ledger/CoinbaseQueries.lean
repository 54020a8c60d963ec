import NexusPool.Ledger.Coinbase
import NexusPool.Library.Serializability

/-!
# Queries of the coinbase while it is rebuilt

Each method of `Coinbase_mt` holds the mutex, but a query is two of them: it asks whether an
address has an output and then reads the output, and a `reset` may come in between. What reads
an output goes through `operator[]` and leaves one behind.
-/

namespace NexusPool

open Concurrent
open Std (ExtTreeMap)

namespace CoinbaseMt

/-- The methods that take the mutex and return something or change the coinbase. -/
inductive Call
  | reset (nMax : UInt64)
  | getRemainder
  | addTransaction (nAddress : Bytes) (nValue : UInt64)
  | serialize
  | findAddress (nxsAddress : Bytes)
  | getMapOutputs (nxsAddress : Bytes)
  | isComplete

namespace Call

@[reducible] def Res : Call → Type
  | reset _ => Unit
  | getRemainder => UInt64
  | addTransaction _ _ => UInt64
  | serialize => Bytes
  | findAddress _ => Bool
  | getMapOutputs _ => UInt64
  | isComplete => Bool

def handle : (c : Call) → Coinbase → Res c × Coinbase
  | reset nMax, s => ((), s.reset nMax)
  | getRemainder, s => (s.getRemainder, s)
  | addTransaction nAddress nValue, s => s.addTransaction nAddress nValue
  | serialize, s => (s.serialize, s)
  | findAddress nxsAddress, s => (s.findAddress nxsAddress, s)
  | getMapOutputs nxsAddress, s => s.getMapOutputs nxsAddress
  | isComplete, s => (s.isComplete, s)

end Call

abbrev Handler := Program Call Call.Res

abbrev call (c : Call) : Handler (Call.Res c) := Program.perform c

/-! ### The handlers -/

/-- `GET_PAYOUT`: the payout that is pending for an address. -/
def getPayout (nxsAddress : Bytes) : Handler UInt64 := do
  if ← call (.findAddress nxsAddress) then
    call (.getMapOutputs nxsAddress)
  else
    return 0

def readOutput (key : Bytes) : Handler Unit := do
  if ← call (.findAddress key) then
    let _ ← call (.getMapOutputs key)

/-- `BLOCK_REWARD`, with the payouts that it reads from the accounts. -/
def rebuild (nMax : UInt64) (payouts : List (Bytes × UInt64)) (lastBlockfinder : Bytes) :
    Handler Unit := do
  call (.reset nMax)
  payouts.forM fun payout => do
    let _ ← call (.addTransaction payout.1 payout.2)
  if !(← call .isComplete) then
    let nBonus ← call .getRemainder
    let _ ← call (.addTransaction lastBlockfinder nBonus)
  let _ ← call .serialize

/-- What a thread does with the coinbase. -/
inductive Task
  | getPayout (nxsAddress : Bytes)
  | updateBalances (vKeys : List Bytes)
  | blockReward (nMax : UInt64) (payouts : List (Bytes × UInt64)) (lastBlockfinder : Bytes)

def Task.handler : Task → Handler Unit
  | .getPayout nxsAddress => do
    let _ ← CoinbaseMt.getPayout nxsAddress
  | .updateBalances vKeys => vKeys.forM readOutput
  | .blockReward nMax payouts lastBlockfinder => rebuild nMax payouts lastBlockfinder

def threads {ι : Type} (tasks : ι → List Task) (i : ι) : Handler Unit := (tasks i).forM Task.handler

/-! ### What was added and asked since the last reset -/

structure Log where
  coinbase : Coinbase
  added : List Bytes
  asked : List Bytes

namespace Log

def start : Log := ⟨.empty, [], []⟩

/-- An address is added if its transaction is not refused. -/
def note (l : Log) (c : Call) : Log where
  coinbase := (Call.handle c l.coinbase).2
  added :=
    match c with
    | .reset _ => []
    | .addTransaction nAddress nValue =>
      if nValue + l.coinbase.nCurrentValue > l.coinbase.nMaxValue then l.added
      else nAddress :: l.added
    | _ => l.added
  asked :=
    match c with
    | .reset _ => []
    | .getMapOutputs nxsAddress => nxsAddress :: l.asked
    | _ => l.asked

/-- What was asked for has been added. -/
def Answered (l : Log) : Prop := ∀ a ∈ l.asked, a ∈ l.added

instance (l : Log) : Decidable l.Answered :=
  inferInstanceAs (Decidable (∀ a ∈ l.asked, a ∈ l.added))

/-- The log of the calls in the order they were made. -/
def ofCalls {ι : Type} (tr : List (Event ι Call)) : Log := tr.foldl (fun l e => l.note e.call) start

theorem coinbase_foldl_note {ι : Type} (tr : List (Event ι Call)) (l : Log) :
    (tr.foldl (fun l e => l.note e.call) l).coinbase =
      tr.foldl (fun s e => (Call.handle e.call s).2) l.coinbase := by
  induction tr generalizing l with
  | nil => rfl
  | cons e tr ih => exact ih (l.note e.call)

/-- The outputs are of the addresses that were added and of those that were asked for. -/
def Explained (l : Log) : Prop := ∀ a, a ∈ l.coinbase.mapOutputs ↔ a ∈ l.added ∨ a ∈ l.asked

theorem explained_start : start.Explained := fun a => by simp [start, Coinbase.empty]

theorem Explained.note {l : Log} (h : l.Explained) (c : Call) : (l.note c).Explained := by
  cases c with
  | reset nMax => exact fun a => by simp [Log.note, Call.handle, Coinbase.reset]
  | addTransaction nAddress nValue =>
    intro a
    simp only [Log.note, Call.handle, Coinbase.addTransaction]
    split_ifs
    · exact h a
    · rw [Coinbase.addOutput, OrderedMap.mem_insert_iff, h a, List.mem_cons, or_assoc]
  | getMapOutputs nxsAddress =>
    intro a
    simp only [Log.note, Call.handle, Coinbase.getMapOutputs]
    split
    · rename_i nValue hvalue
      have hmem : nxsAddress ∈ l.coinbase.mapOutputs := by
        rw [ExtTreeMap.mem_iff_isSome_getElem?, hvalue]
        rfl
      rw [List.mem_cons, or_left_comm, ← h a]
      constructor
      · exact .inr
      · rintro (rfl | ha)
        · exact hmem
        · exact ha
    · rw [OrderedMap.mem_insert_iff, h a, List.mem_cons, or_left_comm]
  | _ => exact h

theorem explained_ofCalls {ι : Type} (tr : List (Event ι Call)) : (ofCalls tr).Explained := by
  have hfoldl : ∀ (tr : List (Event ι Call)) (l : Log), l.Explained →
      (tr.foldl (fun l e => l.note e.call) l).Explained := by
    intro tr
    induction tr with
    | nil => exact fun l h => h
    | cons e tr ih => exact fun l h => ih _ (h.note e.call)
  exact hfoldl tr start explained_start

end Log

section Runs

variable {ι : Type} [DecidableEq ι] {tasks : ι → List Task}
    {tr : List (Event ι Call)} {c : Coinbase}
  {pool' : ι → Handler Unit}

/-- The outputs are of the addresses added since the last reset, and of no others. -/
def OnlyAdded (c : Coinbase) (tr : List (Event ι Call)) : Prop :=
  ∀ a, a ∈ c.mapOutputs ↔ a ∈ (Log.ofCalls tr).added

/-- The outputs of a run are of the addresses that were added and of those that were asked for. -/
theorem mem_mapOutputs_iff {pool : ι → Handler Unit} (h : Run Call.handle .empty pool tr c pool')
    (a : Bytes) : a ∈ c.mapOutputs ↔ a ∈ (Log.ofCalls tr).added ∨ a ∈ (Log.ofCalls tr).asked := by
  have hcoinbase : (Log.ofCalls tr).coinbase = c := by
    rw [Log.ofCalls, Log.coinbase_foldl_note]
    exact h.foldl_eq
  rw [← hcoinbase]
  exact Log.explained_ofCalls tr a

/-- At whatever point the coinbase is serialised, it has the added addresses only, exactly if every
address that was asked for since the last reset has been added since then. -/
theorem onlyAdded_iff (h : Run Call.handle .empty (threads tasks) tr c pool') :
    OnlyAdded c tr ↔ (Log.ofCalls tr).Answered := by
  constructor
  · intro hadded a ha
    exact (hadded a).mp ((mem_mapOutputs_iff h a).mpr (.inr ha))
  · intro hanswered a
    rw [mem_mapOutputs_iff h a]
    constructor
    · rintro (ha | ha)
      · exact ha
      · exact hanswered a ha
    · exact .inl

end Runs

/-! ### Queries that no reset splits -/

/-- `get_map_outputs` is only called directly behind a `find_address` that found the address. -/
def Checked (found : Bytes → Prop) {α : Type} : Handler α → Prop
  | .done _ => True
  | .call (.getMapOutputs nxsAddress) next =>
    found nxsAddress ∧ ∀ r, Checked (fun _ => False) (next r)
  | .call (.findAddress nxsAddress) next =>
    ∀ r : Bool, Checked (fun a => r = true ∧ a = nxsAddress) (next r)
  | .call _ next => ∀ r, Checked (fun _ => False) (next r)

section Checked

variable {α β : Type} {found found' : Bytes → Prop}

theorem Checked.mono {p : Handler α} (h : Checked found p) (hfound : ∀ a, found a → found' a) :
    Checked found' p := by
  cases p with
  | done => trivial
  | call c next =>
    cases c with
    | getMapOutputs nxsAddress => exact ⟨hfound _ h.1, h.2⟩
    | _ => exact h

/-- Only a program that is about to call `get_map_outputs` depends on what was found. -/
theorem Checked.of_first {c : Call} {next : Call.Res c → Handler α}
    (h : Checked found (.call c next)) (hc : ∀ a, c ≠ .getMapOutputs a) :
    Checked found' (.call c next) := by
  cases c with
  | getMapOutputs nxsAddress => exact absurd rfl (hc nxsAddress)
  | _ => exact h

theorem Checked.bind {p : Handler α} {f : α → Handler β} (hp : Checked found p)
    (hf : ∀ a, Checked (fun _ => False) (f a)) : Checked found (p >>= f) := by
  induction p generalizing found with
  | done a => exact (hf a).mono fun _ h => h.elim
  | call c next ih =>
    cases c with
    | getMapOutputs nxsAddress => exact ⟨hp.1, fun r => ih r (hp.2 r)⟩
    | _ => exact fun r => ih r (hp r)

theorem Checked.forM {f : α → Handler PUnit} (hf : ∀ a, Checked (fun _ => False) (f a))
    (xs : List α) : Checked (fun _ => False) (xs.forM f) := by
  induction xs with
  | nil => trivial
  | cons x xs ih => exact (hf x).bind fun _ => ih

theorem checked_getPayout (nxsAddress : Bytes) :
    Checked (fun _ => False) (getPayout nxsAddress) := by
  intro r
  cases r with
  | false => trivial
  | true => exact ⟨⟨rfl, rfl⟩, fun _ => trivial⟩

theorem checked_readOutput (key : Bytes) : Checked (fun _ => False) (readOutput key) := by
  intro r
  cases r with
  | false => trivial
  | true => exact ⟨⟨rfl, rfl⟩, fun _ => trivial⟩

theorem checked_rebuild (nMax : UInt64) (payouts : List (Bytes × UInt64))
    (lastBlockfinder : Bytes) :
    Checked (fun _ => False) (rebuild nMax payouts lastBlockfinder) := by
  have hpayout : ∀ payout : Bytes × UInt64, Checked (fun _ => False) (do
      let _ ← call (.addTransaction payout.1 payout.2)) := fun _ _ => trivial
  intro _
  refine (Checked.forM hpayout payouts).bind fun _ isComplete => ?_
  cases isComplete with
  | false => exact fun _ _ _ => trivial
  | true => exact fun _ => trivial

theorem checked_threads {ι : Type} (tasks : ι → List Task) (i : ι) :
    Checked (fun _ => False) (threads tasks i) := by
  refine Checked.forM (fun task => ?_) (tasks i)
  cases task with
  | getPayout nxsAddress => exact (checked_getPayout nxsAddress).bind fun _ => trivial
  | updateBalances vKeys => exact Checked.forM checked_readOutput vKeys
  | blockReward nMax payouts lastBlockfinder => exact checked_rebuild nMax payouts lastBlockfinder

end Checked

section Unsplit

variable {ι : Type} [DecidableEq ι]

/-- When the coinbase is reset, no other thread goes on with `get_map_outputs`. -/
def Unsplit : List (Event ι Call) → Prop
  | [] => True
  | e :: tr =>
    (∀ nMax, e.call = .reset nMax → ∀ i, i ≠ e.thread → ∀ e',
      (tr.filter (·.thread = i)).head? = some e' → ∀ a, e'.call ≠ .getMapOutputs a) ∧ Unsplit tr

/-- Only a reset takes outputs away. -/
theorem mem_mapOutputs_handle {d : Call} (hd : ∀ nMax, d ≠ .reset nMax) {c : Coinbase} {a : Bytes}
    (ha : a ∈ c.mapOutputs) : a ∈ (Call.handle d c).2.mapOutputs := by
  cases d with
  | reset nMax => exact absurd rfl (hd nMax)
  | addTransaction nAddress nValue =>
    simp only [Call.handle, Coinbase.addTransaction]
    split_ifs
    · exact ha
    · exact (OrderedMap.mem_insert_iff _ _ _ _).mpr (.inr ha)
  | getMapOutputs nxsAddress =>
    simp only [Call.handle, Coinbase.getMapOutputs]
    split
    · exact ha
    · exact (OrderedMap.mem_insert_iff _ _ _ _).mpr (.inr ha)
  | _ => exact ha

theorem Checked.next {c : Coinbase} {d : Call} {next : Call.Res d → Handler Unit}
    (h : Checked (· ∈ c.mapOutputs) (.call d next)) :
    Checked (· ∈ (Call.handle d c).2.mapOutputs) (next (Call.handle d c).1) := by
  cases d with
  | findAddress nxsAddress =>
    refine (h _).mono ?_
    rintro a ⟨hfound, rfl⟩
    exact hfound
  | getMapOutputs nxsAddress => exact (h.2 _).mono fun _ hfalse => hfalse.elim
  | _ => exact (h _).mono fun _ hfalse => hfalse.elim

theorem Checked.wait {c : Coinbase} {d : Call} {tr : List (Event ι Call)} {i j : ι}
    {pool pool' : ι → Handler Unit} {s s' : Coinbase} (hrun : Run Call.handle s pool tr s' pool')
    (hunsplit : Unsplit (⟨i, d⟩ :: tr)) (hj : j ≠ i) (hturn : ∃ e ∈ tr, e.thread = j)
    (h : Checked (· ∈ c.mapOutputs) (pool j)) :
    Checked (· ∈ (Call.handle d c).2.mapOutputs) (pool j) := by
  by_cases hreset : ∃ nMax, d = .reset nMax
  · obtain ⟨nMax, rfl⟩ := hreset
    obtain ⟨e, he, hthread⟩ := hturn
    have hmem : e ∈ tr.filter (·.thread = j) := List.mem_filter.mpr ⟨he, by simpa using hthread⟩
    obtain ⟨e', hfirst⟩ : ∃ e', (tr.filter (·.thread = j)).head? = some e' :=
      Option.isSome_iff_exists.mp (List.isSome_head?.mpr (List.ne_nil_of_mem hmem))
    obtain ⟨next, hnext⟩ := hrun.first_call hfirst
    rw [hnext] at h ⊢
    exact h.of_first (hunsplit.1 nMax rfl j hj e' hfirst)
  · exact h.mono fun a ha => mem_mapOutputs_handle (fun nMax hd => hreset ⟨nMax, hd⟩) ha

theorem Log.Answered.note {l : Log} (h : l.Answered) (hexplained : l.Explained) {d : Call}
    (hasked : ∀ a, d = .getMapOutputs a → a ∈ l.coinbase.mapOutputs) : (l.note d).Answered := by
  cases d with
  | reset nMax => exact fun a ha => absurd ha List.not_mem_nil
  | addTransaction nAddress nValue =>
    intro a ha
    simp only [Log.note]
    split_ifs
    · exact h a ha
    · exact List.mem_cons_of_mem _ (h a ha)
  | getMapOutputs nxsAddress =>
    intro a ha
    rcases List.mem_cons.mp ha with rfl | ha
    · rcases (hexplained a).mp (hasked a rfl) with hadded | hasked
      · exact hadded
      · exact h a hasked
    · exact h a ha
  | _ => exact h

theorem answered_of_unsplit {c c' : Coinbase} {pool pool' : ι → Handler Unit}
    {tr : List (Event ι Call)} (hrun : Run Call.handle c pool tr c' pool') {l : Log}
    (hl : l.coinbase = c) (hexplained : l.Explained) (hanswered : l.Answered)
    (hchecked : ∀ i, (∃ e ∈ tr, e.thread = i) → Checked (· ∈ c.mapOutputs) (pool i))
    (hunsplit : Unsplit tr) : (tr.foldl (fun l e => l.note e.call) l).Answered := by
  induction hrun generalizing l with
  | nil => exact hanswered
  | @step c c' pool pool' i d next tr turn rest ih =>
    subst hl
    have hmine := hchecked i ⟨_, List.mem_cons_self, rfl⟩
    rw [turn] at hmine
    have hasked : ∀ a, d = .getMapOutputs a → a ∈ l.coinbase.mapOutputs := by
      rintro a rfl
      exact hmine.1
    refine ih rfl (hexplained.note d) (hanswered.note hexplained hasked) (fun j hturn => ?_)
      hunsplit.2
    by_cases hj : j = i
    · subst hj
      rw [Function.update_self]
      exact hmine.next
    · have hwait := hchecked j (hturn.imp fun e he => ⟨List.mem_cons_of_mem _ he.1, he.2⟩)
      have hsame : Function.update pool i (next (Call.handle d l.coinbase).1) j = pool j :=
        Function.update_of_ne hj _ _
      rw [← hsame] at hwait
      exact hwait.wait rest hunsplit hj hturn

/-- Queries that no reset splits leave the coinbase as it is. -/
theorem onlyAdded_of_unsplit {tasks : ι → List Task} {tr : List (Event ι Call)} {c : Coinbase}
    {pool' : ι → Handler Unit} (h : Run Call.handle .empty (threads tasks) tr c pool')
    (hunsplit : Unsplit tr) : OnlyAdded c tr := by
  have hanswered : (Log.ofCalls tr).Answered := by
    refine answered_of_unsplit h rfl Log.explained_start (fun a ha => ?_) (fun i _ => ?_) hunsplit
    · cases ha
    · exact (checked_threads tasks i).mono fun _ hfalse => hfalse.elim
  intro a
  rw [mem_mapOutputs_iff h a]
  exact ⟨fun ha => ha.elim id (hanswered a), .inl⟩

end Unsplit

/-! ### A query and two rewards -/

section TwoRewards

/-- One thread rebuilds the coinbase twice, with an output to `A` only the first time; the other
asks for the payout of `A`. -/
def twoRewards : Bool → List Task
  | true => [.blockReward 10 [([65], 10)] [66], .blockReward 10 [] [66]]
  | false => [.getPayout [65]]

/-- The query comes between the two rewards. -/
def queryBetween : Option (List (Event Bool Call) × Coinbase × (Bool → Handler Unit)) :=
  schedule Call.handle [true, true, true, true, false, false] .empty (threads twoRewards)

theorem queryBetween_isSome : queryBetween.isSome := by decide +kernel

theorem queryBetween_run : Run Call.handle .empty (threads twoRewards)
    (queryBetween.get queryBetween_isSome).1 (queryBetween.get queryBetween_isSome).2.1
    (queryBetween.get queryBetween_isSome).2.2 :=
  Run.of_schedule (Option.some_get queryBetween_isSome).symm

theorem queryBetween_onlyAdded_iff :
    OnlyAdded (queryBetween.get queryBetween_isSome).2.1 (queryBetween.get queryBetween_isSome).1 ↔
      (Log.ofCalls (queryBetween.get queryBetween_isSome).1).Answered :=
  onlyAdded_iff queryBetween_run

/-- The second reset comes between the two calls of the query, and the rest of the second reward
after it, up to the point where the coinbase is serialised. -/
def querySplit : Option (List (Event Bool Call) × Coinbase × (Bool → Handler Unit)) :=
  schedule Call.handle [true, true, true, true, false, true, false, true, true, true] .empty
    (threads twoRewards)

theorem querySplit_isSome : querySplit.isSome := by decide +kernel

/-- The coinbase that is sent to the wallet has an output of zero for `A`. -/
theorem query_planted : ¬ ∀ (tasks : Bool → List Task) (tr : List (Event Bool Call)) (c : Coinbase)
    (pool' : Bool → Handler Unit), Run Call.handle .empty (threads tasks) tr c pool' →
      (∃ i next, pool' i = .call .serialize next) → OnlyAdded c tr := by
  intro h
  have hrun : Run Call.handle .empty (threads twoRewards) (querySplit.get querySplit_isSome).1
      (querySplit.get querySplit_isSome).2.1 (querySplit.get querySplit_isSome).2.2 :=
    Run.of_schedule (Option.some_get querySplit_isSome).symm
  have honly := h _ _ _ _ hrun ⟨true, _, rfl⟩ [65]
  have hplanted : ([65] : Bytes) ∈ (querySplit.get querySplit_isSome).2.1.mapOutputs := by
    decide +kernel
  have hadded : ([65] : Bytes) ∉ (Log.ofCalls (querySplit.get querySplit_isSome).1).added := by
    decide +kernel
  exact hadded (honly.mp hplanted)

end TwoRewards

end CoinbaseMt

end NexusPool
