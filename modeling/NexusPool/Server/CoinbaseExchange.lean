import NexusPool.Server.StepEffect

/-!
# The coinbase exchange

The pool sends `SET_COINBASE` for a reward and after an accepted block, and the wallet
acknowledges with `COINBASE_SET`. From the second round on, the acknowledgement itself makes
the pool send `SET_COINBASE` again.
-/

namespace NexusPool

open Reactive World

def Output.isSetCoinbase : Output → Bool := Output.transmits DaemonPacket.setCoinbaseHeader

def Event.callsForCoinbase (e : Event) : Bool :=
  e.receives DaemonPacket.blockReward || e.receives DaemonPacket.good

/-- At no point of the run have more coinbases been sent than called for, and no
acknowledgement is answered with another one. -/
def Quiesces (history : History World Event Output) : Prop :=
  (∀ past, past <:+ history →
    sent Output.isSetCoinbase past ≤ received Event.callsForCoinbase past) ∧
  Throughout (fun _ o => o.event.receives DaemonPacket.coinbaseSet →
    o.outputs.countP Output.isSetCoinbase = 0) history

/-- Acknowledgements come in the first round only. -/
def AcknowledgedInFirstRound (history : History World Event Output) : Prop :=
  Throughout (fun _ o => o.event.receives DaemonPacket.coinbaseSet →
    o.before.registry.mCurrentRound ≤ 1) history

instance (history : History World Event Output) : Decidable (AcknowledgedInFirstRound history) :=
  inferInstanceAs (Decidable (Throughout _ history))

/-! ### What a step sends -/

theorem countP_resetOutputs (w : World) : w.resetOutputs.countP Output.isSetCoinbase =
    if w.registry.mCurrentRound > 1 then 1 else 0 := by
  unfold World.resetOutputs
  split_ifs <;> rfl

theorem RoundFrame.countP_outputs {w w' : World} {out : List Output} (h : RoundFrame w w' out) :
    out.countP Output.isSetCoinbase = 0 := by
  refine countP_eq_zero_of_forall fun o ho => ?_
  obtain ⟨i, height, rfl⟩ := h.outputs o ho
  rfl

theorem ForwardFrame.countP_outputs {w w' : World} {out : List Output} (h : ForwardFrame w w' out) :
    out.countP Output.isSetCoinbase = 0 := by
  refine countP_eq_zero_of_forall fun o ho => ?_
  rw [h.outputs o ho]
  rfl

section Steps

variable [Platform] {w w' : World} {i : ℕ} {packet : Packet} {out : List Output}

theorem MinerEffect.countP_outputs (h : MinerEffect w i packet w' out) :
    out.countP Output.isSetCoinbase = 0 :=
  countP_eq_zero_of_forall (h.not_transmits DaemonPacket.setCoinbaseHeader)

theorem TakeEffect.countP_outputs (h : TakeEffect w w' out) :
    out.countP Output.isSetCoinbase = 0 := by
  cases h <;> rfl

theorem RoundCause.callsForCoinbase {w₁ : World} {e : Event} (cause : RoundCause w packet w₁)
    (hpacket : e.walletPacket = some packet)
    (hset : ¬ e.receives DaemonPacket.coinbaseSet) : e.callsForCoinbase := by
  cases cause with
  | coinbaseSet header => exact absurd (by simp [Event.receives, hpacket, header]) hset
  | reward header payload settled => simp [Event.callsForCoinbase, Event.receives, hpacket, header]
  | good header => simp [Event.callsForCoinbase, Event.receives, hpacket, header]

/-- A packet that is not an acknowledgement sends a coinbase only if it calls for one. -/
theorem WalletEffect.countP_outputs_le {e : Event} (h : WalletEffect w packet w' out)
    (hpacket : e.walletPacket = some packet) (hset : ¬ e.receives DaemonPacket.coinbaseSet) :
    out.countP Output.isSetCoinbase ≤ if e.callsForCoinbase then 1 else 0 := by
  cases h with
  | rebuilt header payload round pending =>
    have hcalls : e.callsForCoinbase := by
      simp [Event.callsForCoinbase, Event.receives, hpacket, header]
    rw [if_pos hcalls]
    rfl
  | round cause frame =>
    rw [if_pos (cause.callsForCoinbase hpacket hset), List.countP_append, frame.countP_outputs,
      countP_resetOutputs]
    split_ifs <;> simp
  | _ => exact Nat.zero_le _

/-- An acknowledgement sends a coinbase exactly if the round is not the first one. -/
theorem WalletEffect.countP_outputs_of_coinbaseSet (h : WalletEffect w packet w' out)
    (hset : packet.mHeader = DaemonPacket.coinbaseSet) :
    out.countP Output.isSetCoinbase = if w.registry.mCurrentRound > 1 then 1 else 0 := by
  cases h with
  | ignored header => simp [hset] at header
  | pending header => exact absurd (hset ▸ header) (by decide)
  | goodBlock header => exact absurd (header.symm.trans hset) (by decide)
  | orphan header payload hash => exact absurd (header.symm.trans hset) (by decide)
  | rebuilt header payload round pending => exact absurd (header.symm.trans hset) (by decide)
  | delivered header => exact absurd (header.symm.trans hset) (by decide)
  | swallowed header => exact absurd (header.symm.trans hset) (by decide)
  | round cause frame =>
    rw [List.countP_append, frame.countP_outputs, countP_resetOutputs, frame.registry, zero_add]
    cases cause with
    | coinbaseSet header => rfl
    | reward header payload settled => exact absurd (header.symm.trans hset) (by decide)
    | good header => exact absurd (header.symm.trans hset) (by decide)

omit [Platform] in
theorem not_receives_of_walletPacket {e : Event} (h : e.walletPacket = none) (header : UInt8) :
    e.receives header = false := by
  simp [Event.receives, h]

/-- What any step sends, unless it handles an acknowledgement. -/
theorem StepEffect.countP_outputs_le {e : Event} (h : StepEffect w e w' out)
    (hset : ¬ e.receives DaemonPacket.coinbaseSet) :
    out.countP Output.isSetCoinbase ≤ if e.callsForCoinbase then 1 else 0 := by
  cases h with
  | miner parsed effect => exact effect.countP_outputs.trans_le (Nat.zero_le _)
  | wallet parsed effect => exact effect.countP_outputs_le parsed hset
  | blockTimer take forward =>
    rw [List.countP_append, take.countP_outputs, forward.countP_outputs]
    exact Nat.zero_le _
  | orphanCheckTimer outputs =>
    have hcheck : ∀ o ∈ out, o.isSetCoinbase = false := by
      intro o ho
      obtain ⟨hashBlock, rfl⟩ := outputs o ho
      rfl
    exact (countP_eq_zero_of_forall hcheck).trans_le (Nat.zero_le _)
  | getHeightTimer outputs =>
    have hpoll : ∀ o ∈ out, o.isSetCoinbase = false := by
      intro o ho
      have hmem := outputs o ho
      simp only [List.mem_cons, List.not_mem_nil, or_false] at hmem
      rcases hmem with rfl | rfl | rfl <;> rfl
    exact (countP_eq_zero_of_forall hpoll).trans_le (Nat.zero_le _)
  | _ => exact Nat.zero_le _

theorem StepEffect.countP_outputs_of_coinbaseSet {e : Event} (h : StepEffect w e w' out)
    (hset : e.receives DaemonPacket.coinbaseSet) :
    out.countP Output.isSetCoinbase = if w.registry.mCurrentRound > 1 then 1 else 0 := by
  cases h with
  | walletDropped dropped =>
    rw [not_receives_of_walletPacket dropped] at hset
    exact absurd hset (by decide)
  | wallet parsed effect =>
    rw [Event.receives, parsed] at hset
    exact effect.countP_outputs_of_coinbaseSet (by simpa using hset)
  | _ => exact absurd hset (by simp [Event.receives, Event.walletPacket])

end Steps

/-! ### Runs -/

/-- The exchange quiesces in exactly those runs in which every acknowledgement arrives in the
first round. -/
theorem quiesces_iff [Platform] {history : History World Event Output} {w : World}
    (h : ServerRun history w) : Quiesces history ↔ AcknowledgedInFirstRound history := by
  have hack : Throughout (fun _ o => (o.event.receives DaemonPacket.coinbaseSet →
        o.outputs.countP Output.isSetCoinbase = 0) ↔
      (o.event.receives DaemonPacket.coinbaseSet →
        o.before.registry.mCurrentRound ≤ 1)) history := by
    refine throughout_of_effect (fun _ w e w' out heffect => imp_congr_right fun hset => ?_) h
    rw [heffect.countP_outputs_of_coinbaseSet hset]
    simp
  constructor
  · rintro ⟨-, hquiet⟩
    exact hack.congr.mp hquiet
  · intro hfirst
    have hquiet := hack.congr.mpr hfirst
    have hbound : Throughout (fun _ o => (o.event.receives DaemonPacket.coinbaseSet →
        o.outputs.countP Output.isSetCoinbase = 0) → o.outputs.countP Output.isSetCoinbase ≤
          if o.event.callsForCoinbase then 1 else 0) history := by
      refine throughout_of_effect (fun _ w e w' out heffect hzero => ?_) h
      by_cases hset : e.receives DaemonPacket.coinbaseSet
      · exact (hzero hset).trans_le (Nat.zero_le _)
      · exact heffect.countP_outputs_le hset
    exact ⟨fun past hpast => sent_le_received ((hbound.mp hquiet).suffix hpast), hquiet⟩

/-! ### One acknowledgement -/

section Acknowledgement

local instance : Platform := .plain

def firstRound : Option (History World Event Output × World) :=
  trace World.step .fresh
    [.walletConnected, .walletData [4, 0, 0, 0, 1, 0], .walletData [202]]

theorem firstRound_isSome : firstRound.isSome := by decide +kernel

theorem firstRound_run :
    ServerRun (firstRound.get firstRound_isSome).1 (firstRound.get firstRound_isSome).2 :=
  Run.of_trace World.fresh_initial (Option.some_get _).symm

theorem firstRound_quiesces : Quiesces (firstRound.get firstRound_isSome).1 :=
  (quiesces_iff firstRound_run).mpr (by decide +kernel)

/-- After an accepted block, the acknowledgement of its coinbase sends another one. -/
theorem acknowledgement_answered : ¬ ∀ (platform : Platform) history w,
    @ServerRun platform history w → Quiesces history := by
  intro h
  obtain ⟨history, w, hrun, hp⟩ : ∃ history w, ServerRun history w ∧
      decide (received Event.callsForCoinbase history < sent Output.isSetCoinbase history) = true :=
    exists_run_of_trace World.fresh_initial [.walletConnected, .walletData [200], .walletData [202]]
      (fun history => decide (_ < _)) (by decide +kernel)
  have hle := (h .plain history w hrun).1 history (List.suffix_refl _)
  exact absurd hle (by simpa using hp)

end Acknowledgement

end NexusPool
