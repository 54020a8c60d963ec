import NexusPool.Server.Requests

/-!
# Counting requests

The history says how many blocks a miner asked for in a round, how many it was given, and how
many `GET_BLOCK` packets the daemon connection transmitted on its behalf. The 16-bit counters of
the server are compared with these numbers.
-/

namespace NexusPool

open Reactive World

def Output.isGetBlock : Output → Bool := Output.transmits DaemonPacket.getBlockHeader

/-- The connections in whose turn the block timer sends a packet, in the order of its two loops:
each entry as often as it has requests. -/
def World.turns (w : World) : List ℕ :=
  w.daemon.mPoolConnections.zipIdx.flatMap fun poolData =>
    List.replicate poolData.1.mBlocksRequested.toNat poolData.2

/-- The `GET_BLOCK` packets among the outputs of a step that are on behalf of connection `i`, those
of its turns. One that is sent after all turns would count for every connection. -/
def transmitted (i : ℕ) (o : Occurrence World Event Output) : ℕ :=
  (o.outputs.filter Output.isGetBlock).zipIdx.countP fun packet =>
    o.before.turns[packet.2]?.all (· = i)

/-- What happened to a connection since it was last told of a new round: the `GET_BLOCK`
packets received from it, the blocks given to it, and the `GET_BLOCK` packets that the daemon
connection transmitted on its behalf. -/
structure Tally where
  asked : ℕ
  given : ℕ
  forwarded : ℕ

/-- A new round of connection `i` starts its counts anew. -/
def Tally.next (i transmitted : ℕ) (signal : RequestSignal) (t : Tally) : Tally :=
  let t := { t with forwarded := t.forwarded + transmitted }
  match signal with
  | .asked k => if k = i then { t with asked := t.asked + 1 } else t
  | .delivered k => if k = i then { t with given := t.given + 1 } else t
  | .forwarded => t
  | .restarted started => if i ∈ started then ⟨0, 0, 0⟩ else t

def tally (i : ℕ) : History World Event Output → Tally
  | [] => ⟨0, 0, 0⟩
  | o :: past => (tally i past).next i (transmitted i o) (.of o)

/-! ### Whose packets a tick sends -/

theorem count_turns_from (entries : List PoolConnectionData) (k i : ℕ) :
    ((entries.zipIdx k).flatMap fun poolData =>
      List.replicate poolData.1.mBlocksRequested.toNat poolData.2).count (k + i) =
        ((entries[i]?.map PoolConnectionData.mBlocksRequested).getD 0).toNat := by
  induction entries generalizing k i with
  | nil => simp
  | cons poolData entries ih =>
    rw [List.zipIdx_cons, List.flatMap_cons, List.count_append, List.count_replicate]
    cases i with
    | zero =>
      have hlater : ((entries.zipIdx (k + 1)).flatMap fun poolData =>
          List.replicate poolData.1.mBlocksRequested.toNat poolData.2).count k = 0 := by
        rw [List.count_eq_zero]
        intro hmem
        obtain ⟨⟨other, j⟩, hother, hj⟩ := List.mem_flatMap.mp hmem
        have hle := (List.mem_zipIdx hother).1
        have hsame : k = j := List.eq_of_mem_replicate hj
        omega
      simp [hlater]
    | succ i =>
      have hrest := ih (k + 1) i
      rw [show k + 1 + i = k + (i + 1) by omega] at hrest
      simp [hrest]

/-- A connection has as many turns as its entry has requests. -/
theorem World.count_turns (w : World) (i : ℕ) :
    w.turns.count i = (w.counters.blocksRequested i).toNat := by
  have hcount := count_turns_from w.daemon.mPoolConnections 0 i
  rwa [Nat.zero_add] at hcount

theorem World.length_turns (w : World) :
    w.turns.length = (w.daemon.mPoolConnections.map (·.mBlocksRequested.toNat)).sum := by
  have hfirst : w.daemon.mPoolConnections.zipIdx.map Prod.fst = w.daemon.mPoolConnections :=
    List.zipIdx_map_fst _ _
  conv_rhs => rw [← hfirst, List.map_map]
  simp [turns, List.length_flatMap, Function.comp_def]

/-- One packet in each turn. -/
theorem countP_turns (front : List ℕ) {packets : List Output} {turns : List ℕ}
    (h : packets.length = turns.length) (i : ℕ) :
    (packets.zipIdx front.length).countP (fun packet =>
      (front ++ turns)[packet.2]?.all (· = i)) = turns.count i := by
  induction packets generalizing front turns with
  | nil =>
    rw [List.eq_nil_of_length_eq_zero h.symm]
    rfl
  | cons packet packets ih =>
    obtain _ | ⟨turn, turns⟩ := turns
    · cases h
    · have hrest := @ih (front ++ [turn]) turns (by simpa using h)
      rw [List.length_append, List.length_singleton, List.append_assoc,
        List.singleton_append] at hrest
      rw [List.zipIdx_cons, List.countP_cons, hrest, List.count_cons]
      simp

section Effects

variable [Platform] {w w' : World} {e : Event} {out : List Output}

/-- Only a tick sends `GET_BLOCK`, one in each turn. -/
theorem StepEffect.getBlocks (h : StepEffect w e w' out) :
    (RequestSignal.of ⟨w, e, w', out⟩ ≠ .forwarded ∧ out.filter Output.isGetBlock = []) ∨
      (RequestSignal.of ⟨w, e, w', out⟩ = .forwarded ∧
        out.filter Output.isGetBlock =
          List.replicate w.turns.length (.toWallet DaemonPacket.getBlock)) := by
  have hnone (hout : ∀ o ∈ out, o.isGetBlock = false) : out.filter Output.isGetBlock = [] := by
    rw [List.filter_eq_nil_iff]
    intro o ho
    rw [hout o ho]
    exact Bool.false_ne_true
  cases h with
  | @miner i receiveBuffer packet _ _ parsed effect =>
    refine .inl ⟨?_, hnone (effect.not_transmits DaemonPacket.getBlockHeader)⟩
    simp only [RequestSignal.of]
    cases w.requests Packet.getBlock (.minerData i receiveBuffer) <;> simp
  | wallet parsed effect =>
    refine .inl ⟨?_, hnone (effect.not_transmits (by decide))⟩
    simp only [RequestSignal.of, parsed, Option.elim_some, RequestSignal.ofWallet]
    split <;> simp
  | walletDropped dropped =>
    refine .inl ⟨?_, rfl⟩
    simp [RequestSignal.of, dropped]
  | blockTimerPending pending =>
    refine .inl ⟨?_, rfl⟩
    simp [RequestSignal.of, pending]
  | @blockTimer w₁ w₂ out₁ out₂ take forward settled forwarded =>
    refine .inr ⟨by simp [RequestSignal.of, settled], ?_⟩
    have htake : out₁.filter Output.isGetBlock = [] := by cases take <;> rfl
    have hforward : out₂.filter Output.isGetBlock = out₂ := by
      rw [List.filter_eq_self]
      intro o ho
      rw [forward.outputs o ho]
      rfl
    rw [List.filter_append, htake, hforward, List.nil_append, forwarded.outputs,
      take.map_entries (g := (·.mBlocksRequested.toNat)) (by intro _; rfl), w.length_turns]
  | orphanCheckTimer outputs =>
    refine .inl ⟨by simp [RequestSignal.of], hnone fun o ho => ?_⟩
    obtain ⟨hashBlock, rfl⟩ := outputs o ho
    rfl
  | getHeightTimer outputs =>
    refine .inl ⟨by simp [RequestSignal.of], hnone fun o ho => ?_⟩
    have hmem := outputs o ho
    simp only [List.mem_cons, List.not_mem_nil, or_false] at hmem
    rcases hmem with rfl | rfl | rfl <;> rfl
  | _ => exact .inl ⟨by simp [RequestSignal.of], rfl⟩

/-- A tick transmits for a connection what its entry has to request. -/
theorem StepEffect.transmitted_eq (h : StepEffect w e w' out) (i : ℕ) :
    transmitted i ⟨w, e, w', out⟩ =
      if RequestSignal.of ⟨w, e, w', out⟩ = .forwarded then
        (w.counters.blocksRequested i).toNat
      else 0 := by
  unfold transmitted
  obtain ⟨hsignal, hout⟩ | ⟨hsignal, hout⟩ := h.getBlocks
  · simp [hsignal, hout]
  · have hlength : (out.filter Output.isGetBlock).length = w.turns.length := by
      rw [hout, List.length_replicate]
    rw [if_pos hsignal, ← w.count_turns]
    exact countP_turns [] hlength i

end Effects

/-! ### The counter of a connection -/

/-- `add_block` does not find the counter at zero, and a `GET_BLOCK` does not take it to zero. -/
def RequestSignal.NeverWraps (w : World) : RequestSignal → Prop
  | .delivered i => w.counters.numBlocksRequested i ≠ 0
  | .asked i => w.counters.numBlocksRequested i + 1 ≠ 0
  | _ => True

/-- A connection that is given a block was given fewer than it asked for in the round, and
fewer than 65535 are outstanding when it asks for one. -/
def RequestSignal.AskedFor (past : History World Event Output) : RequestSignal → Prop
  | .delivered i => (tally i past).given < (tally i past).asked
  | .asked i => (tally i past).asked < (tally i past).given + 65535
  | _ => True

def NeverWraps (history : History World Event Output) : Prop :=
  Throughout (fun _ o => (RequestSignal.of o).NeverWraps o.before) history

def AskedFor (history : History World Event Output) : Prop :=
  Throughout (fun past o => (RequestSignal.of o).AskedFor past) history

instance (past : History World Event Output) :
    (signal : RequestSignal) → Decidable (signal.AskedFor past)
  | .delivered _ | .asked _ => inferInstanceAs (Decidable (_ < _))
  | .forwarded | .restarted _ => .isTrue trivial

instance (history : History World Event Output) : Decidable (AskedFor history) :=
  inferInstanceAs (Decidable (Throughout _ history))

/-- The counter is what the connection asked for and was not given. -/
def Counted (history : History World Event Output) (w : World) : Prop :=
  ∀ i, (w.counters.numBlocksRequested i).toNat + (tally i history).given = (tally i history).asked

theorem Counted.next {past : History World Event Output} {w w' : World} {e : Event}
    {out : List Output}
    (h : Counted past w) (heffect : RequestEffect w w'.counters (.of ⟨w, e, w', out⟩))
    (hwraps : NeverWraps (⟨w, e, w', out⟩ :: past)) : Counted (⟨w, e, w', out⟩ :: past) w' := by
  have hstep : (RequestSignal.of ⟨w, e, w', out⟩).NeverWraps w := hwraps.1
  intro i
  have hi := h i
  simp only [tally]
  generalize hsignal : RequestSignal.of ⟨w, e, w', out⟩ = signal at heffect hstep
  generalize hcounters : w'.counters = c at heffect
  cases heffect with
  | restarted started =>
    by_cases hstarted : i ∈ started
    · simp [Tally.next, hstarted]
    · simpa [Tally.next, hstarted] using hi
  | @asked k j pool self isOpen entry =>
    by_cases hk : k = i
    · subst hk
      have hcount := toNat_add_one hstep
      simp only [Tally.next, if_true, Function.update_self]
      omega
    · simpa [Tally.next, hk, Function.update_of_ne (Ne.symm hk)] using hi
  | @delivered k pool self isOpen waiting =>
    by_cases hk : k = i
    · subst hk
      have hcount := toNat_sub_one hstep
      simp only [Tally.next, if_true, Function.update_self]
      omega
    · simpa [Tally.next, hk, Function.update_of_ne (Ne.symm hk)] using hi
  | swallowed => simpa [Tally.next] using hi
  | forwarded => simpa [Tally.next] using hi

/-- The counter never wraps in exactly those runs in which no connection is given more than it
asked for. -/
theorem neverWraps_iff [Platform] {history : History World Event Output} {w : World}
    (h : ServerRun history w) : NeverWraps history ↔ AskedFor history := by
  have hboth : (NeverWraps history ↔ AskedFor history) ∧
      (NeverWraps history → Counted history w) := by
    refine requests_induction (P := fun history w =>
      (NeverWraps history ↔ AskedFor history) ∧ (NeverWraps history → Counted history w)) ?_ ?_ h
    · rintro w ⟨config, blockDb, accountDb, mRoundReward, rfl⟩
      exact ⟨Iff.rfl, fun _ _ => rfl⟩
    · intro past w e w' out _ _ ih _ heffect
      refine ⟨Throughout.cons_congr ih.1 fun hpast => ?_, fun hwraps =>
        (ih.2 hwraps.2).next heffect hwraps⟩
      have hcounted := ih.2 hpast
      cases RequestSignal.of ⟨w, e, w', out⟩ with
      | asked i =>
        have hi := hcounted i
        have hlt := (w.counters.numBlocksRequested i).toNat_lt
        have hwrap : w.counters.numBlocksRequested i + 1 = 0 ↔
            (w.counters.numBlocksRequested i).toNat = 65535 := by
          rw [← UInt16.toNat_inj, UInt16.toNat_add]
          simp only [UInt16.toNat_one, UInt16.toNat_zero]
          omega
        simp only [RequestSignal.NeverWraps, RequestSignal.AskedFor, ne_eq, hwrap]
        omega
      | delivered i =>
        have hi := hcounted i
        have hzero : w.counters.numBlocksRequested i = 0 ↔
            (w.counters.numBlocksRequested i).toNat = 0 := by
          rw [← UInt16.toNat_inj, UInt16.toNat_zero]
        simp only [RequestSignal.NeverWraps, RequestSignal.AskedFor, ne_eq, hzero]
        omega
      | _ => exact Iff.rfl
  exact hboth.1

/-! ### Requests sent to the wallet -/

/-- Within a round, no more `GET_BLOCK` packets were transmitted on behalf of the connection than
were received from it, and as many once no request is left. -/
def Tally.OneForOne (t : Tally) (requested : UInt16) : Prop :=
  t.forwarded ≤ t.asked ∧ (requested = 0 → t.forwarded = t.asked)

def ForwardsOneForOne (history : History World Event Output) : Prop :=
  Throughout (fun past o =>
    ∀ i, (tally i (o :: past)).OneForOne (o.after.counters.blocksRequested i)) history

/-- A `GET_BLOCK` comes from a connection for which the wallet owes no block, does not take
the counter to zero, and finds no other connection with the same address. A new round finds no
request left and no block owed. -/
def RequestSignal.Orderly (w : World) : RequestSignal → Prop
  | .asked i =>
    w.Unshared i ∧ w.counters.blocksWaiting i = 0 ∧ w.counters.numBlocksRequested i + 1 ≠ 0
  | .restarted started =>
    ∀ i ∈ started, w.counters.blocksRequested i = 0 ∧ w.counters.blocksWaiting i = 0
  | _ => True

def Orderly (history : History World Event Output) : Prop :=
  Throughout (fun _ o => (RequestSignal.of o).Orderly o.before) history

instance (w : World) : (signal : RequestSignal) → Decidable (signal.Orderly w)
  | .asked _ => inferInstanceAs (Decidable (_ ∧ _ ∧ _))
  | .restarted started => inferInstanceAs (Decidable (∀ i ∈ started, _ ∧ _))
  | .forwarded | .delivered _ => .isTrue trivial

instance (history : History World Event Output) : Decidable (Orderly history) :=
  inferInstanceAs (Decidable (Throughout _ history))

/-- What was asked for is requested or will be, and what was requested is given or owed, as
long as the connection is not closed. -/
structure Balanced (t : Tally) (num requested waiting : UInt16) (closed : Prop) : Prop where
  asked : t.forwarded + requested.toNat = t.asked
  given : t.given + waiting.toNat ≤ t.forwarded
  owed : ¬ closed → t.given + waiting.toNat = t.forwarded
  count : num.toNat + t.given = t.asked

namespace Balanced

variable {t : Tally} {num requested waiting : UInt16} {closed closed' : Prop}

theorem start (closed : Prop) : Balanced ⟨0, 0, 0⟩ 0 0 0 closed :=
  ⟨rfl, le_rfl, fun _ => rfl, rfl⟩

theorem mono (h : Balanced t num requested waiting closed) (hclosed : closed → closed') :
    Balanced t num requested waiting closed' :=
  ⟨h.asked, h.given, fun hnot => h.owed (mt hclosed hnot), h.count⟩

/-- The new count replaces the requests that are left; nothing is owed, so it is right. -/
theorem ask (h : Balanced t num requested 0 closed) (hopen : ¬ closed) (hnum : num + 1 ≠ 0) :
    Balanced { t with asked := t.asked + 1 } (num + 1) (num + 1) 0 closed := by
  have howed := h.owed hopen
  have hcount := h.count
  have hnext := toNat_add_one hnum
  rw [UInt16.toNat_zero] at howed
  constructor
  · change t.forwarded + (num + 1).toNat = t.asked + 1
    omega
  · exact h.given
  · exact h.owed
  · change (num + 1).toNat + t.given = t.asked + 1
    omega

theorem give (h : Balanced t num requested waiting closed) (hwaiting : waiting ≠ 0) :
    Balanced { t with given := t.given + 1 } (num - 1) requested (waiting - 1) closed := by
  obtain ⟨hasked, hgiven, howed, hcount⟩ := h
  have hdown := toNat_sub_one hwaiting
  have hnum : num ≠ 0 := by
    rintro rfl
    rw [UInt16.toNat_zero] at hcount
    omega
  have hless := toNat_sub_one hnum
  constructor
  · exact hasked
  · change t.given + 1 + (waiting - 1).toNat ≤ t.forwarded
    omega
  · intro hopen
    have hall := howed hopen
    change t.given + 1 + (waiting - 1).toNat = t.forwarded
    omega
  · change (num - 1).toNat + (t.given + 1) = t.asked
    omega

theorem swallow (h : Balanced t num requested waiting closed) (hclosed : closed)
    (hwaiting : waiting ≠ 0) :
    Balanced t num requested (waiting - 1) closed := by
  have hdown := toNat_sub_one hwaiting
  have hgiven := h.given
  constructor
  · exact h.asked
  · omega
  · exact fun hopen => absurd hclosed hopen
  · exact h.count

theorem forward (h : Balanced t num requested waiting closed) :
    Balanced { t with forwarded := t.forwarded + requested.toNat } num 0
      (waiting + requested) closed := by
  obtain ⟨hasked, hgiven, howed, hcount⟩ := h
  have hfits := num.toNat_lt
  have hsum : (waiting + requested).toNat = waiting.toNat + requested.toNat := by
    rw [UInt16.toNat_add, Nat.mod_eq_of_lt]
    omega
  constructor
  · exact hasked
  · change t.given + (waiting + requested).toNat ≤ t.forwarded + requested.toNat
    omega
  · intro hopen
    have hall := howed hopen
    change t.given + (waiting + requested).toNat = t.forwarded + requested.toNat
    omega
  · exact hcount

theorem oneForOne (h : Balanced t num requested waiting closed) : t.OneForOne requested := by
  have hasked := h.asked
  constructor
  · omega
  · rintro rfl
    simpa using hasked

end Balanced

def AllBalanced (history : History World Event Output) (w : World) : Prop :=
  ∀ i, Balanced (tally i history) (w.counters.numBlocksRequested i) (w.counters.blocksRequested i)
    (w.counters.blocksWaiting i) (w.Closed i)

theorem AllBalanced.next {past : History World Event Output} {w w' : World} {e : Event}
    {out : List Output} (hw : w.Linked) (h : AllBalanced past w) (hlink : LinkEffect w w' e)
    (heffect : RequestEffect w w'.counters (.of ⟨w, e, w', out⟩))
    (hsent : ∀ i, transmitted i ⟨w, e, w', out⟩ =
      if RequestSignal.of ⟨w, e, w', out⟩ = .forwarded then
        (w.counters.blocksRequested i).toNat
      else 0)
    (horderly : (RequestSignal.of ⟨w, e, w', out⟩).Orderly w) :
    AllBalanced (⟨w, e, w', out⟩ :: past) w' := by
  intro i
  have hi := h i
  refine Balanced.mono ?_ hlink.closed_of_closed
  simp only [tally, hsent]
  generalize RequestSignal.of ⟨w, e, w', out⟩ = signal at heffect horderly
  generalize w'.counters = c at heffect
  cases heffect with
  | restarted started =>
    simp only [Tally.next, reduceCtorEq, if_false, Nat.add_zero]
    by_cases hstarted : i ∈ started
    · obtain ⟨hrequested, hwaiting⟩ := horderly i hstarted
      simp only [hstarted, if_true, hrequested, hwaiting]
      exact .start _
    · simpa only [hstarted, if_false] using hi
  | @asked k j pool self isOpen entry =>
    obtain ⟨hunshared, hwaiting, hnum⟩ := horderly
    have hown := hw.paired.findPoolConnection_eq self (hw.alive_of_open self isOpen) hunshared
    cases hown.symm.trans entry
    simp only [Tally.next, reduceCtorEq, if_false, Nat.add_zero]
    by_cases hk : k = i
    · subst hk
      simp only [if_true, Function.update_self, hwaiting]
      rw [hwaiting] at hi
      exact hi.ask (World.not_closed_of_open self isOpen) hnum
    · simpa only [hk, if_false, Function.update_of_ne (Ne.symm hk)] using hi
  | @delivered k pool self isOpen waiting =>
    simp only [Tally.next, reduceCtorEq, if_false, Nat.add_zero]
    by_cases hk : k = i
    · subst hk
      simp only [if_true, Function.update_self]
      exact hi.give waiting
    · simpa only [hk, if_false, Function.update_of_ne (Ne.symm hk)] using hi
  | @swallowed k pool self isClosed waiting =>
    simp only [Tally.next, reduceCtorEq, if_false, Nat.add_zero, List.not_mem_nil]
    by_cases hk : k = i
    · subst hk
      simp only [Function.update_self]
      exact hi.swallow (World.closed_of_not_open self isClosed) waiting
    · simpa only [Function.update_of_ne (Ne.symm hk)] using hi
  | forwarded =>
    simp only [Tally.next, if_true]
    exact hi.forward

/-- Requests are forwarded one for one in every run that is orderly. -/
theorem forwardsOneForOne_of_orderly [Platform] {history : History World Event Output} {w : World}
    (h : ServerRun history w) (horderly : Orderly history) : ForwardsOneForOne history := by
  have hboth : Orderly history → AllBalanced history w ∧ ForwardsOneForOne history := by
    refine requests_induction (P := fun history w => Orderly history →
      AllBalanced history w ∧ ForwardsOneForOne history) ?_ ?_ h
    · rintro w ⟨config, blockDb, accountDb, mRoundReward, rfl⟩ -
      exact ⟨fun i => .start _, trivial⟩
    · intro past w e w' out _ hw ih hstep heffect horderly
      obtain ⟨hbalanced, hforwards⟩ := ih horderly.2
      have hnext := hbalanced.next hw hstep.linkEffect heffect hstep.transmitted_eq horderly.1
      exact ⟨hnext, fun i => (hnext i).oneForOne, hforwards⟩
  exact (hboth horderly).2

/-! ### Runs with one miner -/

section OneMiner

attribute [local instance] Platform.plain

def oneRequest : List Event :=
  [.walletConnected, .minerConnected [1], .minerData 0 (Packet.withData Packet.login [65]).wire,
    .minerData 0 (Packet.getPacket Packet.getBlock).wire, .blockTimer]

def firstBlock : Event :=
  .walletData (Packet.withData DaemonPacket.blockData (List.replicate 216 0)).wire

def oneBlock : Option (History World Event Output × World) :=
  trace World.step .fresh (oneRequest ++ [firstBlock])

theorem oneBlock_isSome : oneBlock.isSome := by decide +kernel

theorem oneBlock_run :
    ServerRun (oneBlock.get oneBlock_isSome).1 (oneBlock.get oneBlock_isSome).2 :=
  Run.of_trace World.fresh_initial (Option.some_get _).symm

theorem oneBlock_askedFor : AskedFor (oneBlock.get oneBlock_isSome).1 := by decide +kernel

theorem oneBlock_orderly : Orderly (oneBlock.get oneBlock_isSome).1 := by decide +kernel

attribute [local irreducible] oneBlock

theorem oneBlock_neverWraps : NeverWraps (oneBlock.get oneBlock_isSome).1 :=
  (neverWraps_iff oneBlock_run).mpr oneBlock_askedFor

theorem oneBlock_forwardsOneForOne : ForwardsOneForOne (oneBlock.get oneBlock_isSome).1 :=
  forwardsOneForOne_of_orderly oneBlock_run oneBlock_orderly

/-- A round starts between the request and the block. -/
theorem counter_wraps : ¬ ∀ (platform : Platform) history w,
    @ServerRun platform history w → NeverWraps history := by
  intro h
  obtain ⟨history, w, hrun, hp⟩ : ∃ history w, ServerRun history w ∧
      (history.head?.any fun o => decide (RequestSignal.of o = .delivered 0) &&
        decide (o.before.counters.numBlocksRequested 0 = 0)) = true :=
    exists_run_of_trace World.fresh_initial
      (oneRequest ++ [.walletData (Packet.getPacket DaemonPacket.coinbaseSet).wire, firstBlock])
      (fun history => history.head?.any fun o => decide (RequestSignal.of o = .delivered 0) &&
        decide (o.before.counters.numBlocksRequested 0 = 0)) (by decide +kernel)
  have hwraps := h .plain history w hrun
  cases history with
  | nil => cases hp
  | cons o past =>
    simp only [List.head?_cons, Option.any_some, Bool.and_eq_true, decide_eq_true_eq] at hp
    have hstep : (RequestSignal.of o).NeverWraps o.before := hwraps.1
    rw [hp.1] at hstep
    exact hstep hp.2

/-- The second request makes the daemon connection ask for two blocks. -/
theorem request_repeated : ¬ ∀ (platform : Platform) history w,
    @ServerRun platform history w → ForwardsOneForOne history := by
  intro h
  obtain ⟨history, w, hrun, hp⟩ : ∃ history w, ServerRun history w ∧
      (!history.isEmpty && decide ((tally 0 history).asked < (tally 0 history).forwarded)) = true :=
    exists_run_of_trace World.fresh_initial
      (oneRequest ++ [.minerData 0 (Packet.getPacket Packet.getBlock).wire, .blockTimer])
      (fun history => !history.isEmpty &&
        decide ((tally 0 history).asked < (tally 0 history).forwarded))
      (by decide +kernel)
  have hforwards := h .plain history w hrun
  cases history with
  | nil => cases hp
  | cons o past =>
    have hle := (hforwards.1 0).1
    simp only [Bool.and_eq_true, decide_eq_true_eq] at hp
    exact absurd hp.2 (not_lt.mpr hle)

end OneMiner

end NexusPool
