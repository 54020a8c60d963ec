import NexusPool.Server.Defined

/-!
# Losing the wallet

What reaches the daemon connection, in any order: results of the connection to the wallet,
which either set it up, end it or bring data, and expiries of its timers. The end of the
connection sets the pointer to null and leaves the timers running.
-/

namespace NexusPool

open Reactive World

/-- `Result::Code`. -/
inductive ResultCode
  | ok
  | error
  | socketOk
  | socketError
  | connectionOk
  | connectionError
  | connectionClosed
  | connectionAborted
  | connectionDeclined
  | receiveOk
  | transmitOk
  deriving DecidableEq

/-- The timers that `connect` starts. -/
inductive DaemonTimer
  | block
  | orphanCheck
  | getHeight
  deriving DecidableEq

inductive WalletEvent
  | connection (result : ResultCode) (receiveBuffer : Bytes)
  | expiry (timer : DaemonTimer) (canceled : Bool)

/-- The results after which the connection is given up. -/
def ResultCode.ends (result : ResultCode) : Bool :=
  result = .connectionDeclined ∨ result = .connectionAborted ∨ result = .connectionClosed ∨
    result = .connectionError

namespace DaemonConnection

/-- The handler that `connect` gives to the socket. -/
def connectionHandler [Platform] (result : ResultCode) (receiveBuffer : Bytes) : Act Unit :=
  if result.ends then
    walletClosed
  else if result = .connectionOk then
    walletConnected
  else
    processData receiveBuffer

/-- A timer that has been canceled does nothing. -/
def timerHandler [Platform] : DaemonTimer → Bool → Act Unit
  | _, true => pure ()
  | .block, false => blockTimerHandler
  | .orphanCheck, false => orphanCheckTimerHandler
  | .getHeight, false => getHeightTimerHandler

def walletHandler [Platform] : WalletEvent → Act Unit
  | .connection result receiveBuffer => connectionHandler result receiveBuffer
  | .expiry timer canceled => timerHandler timer canceled

end DaemonConnection

/-- A timer expires only after it was started. Nothing is assumed of the order of results. -/
def World.admits (w : World) : WalletEvent → Bool
  | .connection _ _ => true
  | .expiry _ _ => w.daemon.timersStarted

/-- The events that do not concern the connection to the wallet. -/
def Event.ofMiners : Event → Bool
  | .minerConnected _ | .minerData _ _ | .minerClosed _ | .serverMaintenance => true
  | _ => false

/-- What happens to the daemon connection, and between it what the miners do. -/
def World.walletStep [Platform] (w : World) : WalletEvent ⊕ Event → Option (World × List Output)
  | .inl e => if w.admits e then (DaemonConnection.walletHandler e w).map (·.2) else none
  | .inr e => if e.ofMiners then w.step e else none

abbrev WalletRun [Platform] := Run World.walletStep World.Initial

/-- The same world with the pointer to the wallet's connection set. -/
def World.reconnected (w : World) : World := w.modifyDaemon ({ · with mConnection := true })

/-- The handler dereferences the null pointer: it is undefined, and would be defined if the
pointer were set. -/
def World.dereferencesLost [Platform] (w : World) (e : WalletEvent) : Prop :=
  w.admits e = true ∧ ¬ (DaemonConnection.walletHandler e).Defined w ∧
    (DaemonConnection.walletHandler e).Defined w.reconnected

/-! ### What is sent to the wallet -/

/-- The packet makes its handler send the coinbase, and nothing stops it before. -/
def World.answers (w : World) (packet : Packet) : Prop :=
  w.sendsCoinbase packet ∧ (w.startsRound packet → w.listsClosed = false)

/-- The handler of the event sends something to the wallet. -/
def WalletEvent.sends (w : World) : WalletEvent → Prop
  | .connection result receiveBuffer =>
    result = .connectionOk ∨ (result.ends = false ∧ ∃ packet,
      (Event.walletData receiveBuffer).walletPacket = some packet ∧ w.answers packet)
  | .expiry .block canceled => canceled = false ∧ w.blockTimerSends = true
  | .expiry .orphanCheck canceled => canceled = false ∧ w.checksBlocks = true
  | .expiry .getHeight canceled => canceled = false

section Handlers

variable [Platform] {w : World}

theorem processData_dereferences_iff (hnew : w.daemon.mNewBlock = false) (receiveBuffer : Bytes) :
    (¬ (DaemonConnection.processData receiveBuffer).Defined w ∧
      (DaemonConnection.processData receiveBuffer).Defined w.reconnected) ↔
      w.daemon.mConnection = false ∧ ∃ packet,
        (Event.walletData receiveBuffer).walletPacket = some packet ∧ w.answers packet := by
  have hreconnected : (DaemonConnection.processData receiveBuffer).Defined w.reconnected ↔ _ :=
    processData_defined hnew
  rw [processData_defined hnew, hreconnected]
  constructor
  · rintro ⟨hundefined, packet, hparse, hwell⟩
    have hvalid : packet.isValid .wallet = true := by
      by_contra hinvalid
      exact hundefined ⟨packet, hparse, fun hvalid => absurd hvalid hinvalid⟩
    obtain ⟨hreadable, hround, -⟩ := hwell hvalid
    have hsends : ¬ (w.sendsCoinbase packet → w.daemon.mConnection = true) := fun hsends =>
      hundefined ⟨packet, hparse, fun _ => ⟨hreadable, hround, hsends⟩⟩
    obtain ⟨hsends, hlost⟩ := Classical.not_imp.mp hsends
    have hpacket : (Event.walletData receiveBuffer).walletPacket = some packet := by
      simp [Event.walletPacket, hparse, hvalid]
    exact ⟨by simpa using hlost, packet, hpacket, hsends, hround⟩
  · rintro ⟨hlost, packet, hpacket, hsends, hround⟩
    obtain ⟨hparse, hvalid⟩ := Option.filter_eq_some_iff.mp hpacket
    constructor
    · rintro ⟨packet', hparse', hwell⟩
      cases hparse.symm.trans hparse'
      have hconnected := (hwell hvalid).2.2 hsends
      exact Bool.false_ne_true (hlost.symm.trans hconnected)
    · have hreadable := Packet.readable_of_sendsCoinbase hsends
      exact ⟨packet, hparse, fun _ => ⟨hreadable, hround, fun _ => rfl⟩⟩

omit [Platform] in
/-- A handler that is defined as long as it does not have to send without a connection. -/
theorem dereferences_iff {x : Act Unit} {S : Prop}
    (hx : x.Defined w ↔ (S → w.daemon.mConnection = true))
    (hreconnected : x.Defined w.reconnected) :
    (¬ x.Defined w ∧ x.Defined w.reconnected) ↔ w.daemon.mConnection = false ∧ S := by
  rw [and_iff_left hreconnected, hx, Classical.not_imp, Bool.not_eq_true, and_comm]

theorem timerHandler_dereferences_iff (timer : DaemonTimer) (canceled : Bool) :
    (¬ (DaemonConnection.timerHandler timer canceled).Defined w ∧
      (DaemonConnection.timerHandler timer canceled).Defined w.reconnected) ↔
      w.daemon.mConnection = false ∧ (WalletEvent.expiry timer canceled).sends w := by
  cases canceled with
  | true =>
    have hnothing : (DaemonConnection.timerHandler timer true).Defined w := by
      cases timer <;> exact Action.defined_pure _ _
    cases timer <;> simp [hnothing, WalletEvent.sends]
  | false =>
    cases timer with
    | block =>
      apply dereferences_iff
      · simp [DaemonConnection.timerHandler, blockTimerHandler_defined, WalletEvent.sends]
      · exact blockTimerHandler_defined.mpr fun _ => rfl
    | orphanCheck =>
      apply dereferences_iff
      · simp [DaemonConnection.timerHandler, orphanCheckTimerHandler_defined, WalletEvent.sends]
      · exact orphanCheckTimerHandler_defined.mpr fun _ => rfl
    | getHeight =>
      apply dereferences_iff
      · simp [DaemonConnection.timerHandler, getHeightTimerHandler_defined, WalletEvent.sends]
      · exact getHeightTimerHandler_defined.mpr rfl

/-- The pointer is dereferenced exactly if it is null and the event has something to send. -/
theorem walletHandler_dereferences_iff (hnew : w.daemon.mNewBlock = false) (e : WalletEvent) :
    (¬ (DaemonConnection.walletHandler e).Defined w ∧
      (DaemonConnection.walletHandler e).Defined w.reconnected) ↔
      w.daemon.mConnection = false ∧ e.sends w := by
  cases e with
  | expiry timer canceled => exact timerHandler_dereferences_iff timer canceled
  | connection result receiveBuffer =>
    simp only [DaemonConnection.walletHandler, DaemonConnection.connectionHandler,
      WalletEvent.sends]
    cases hends : result.ends with
    | true =>
      have hresult : result ≠ .connectionOk := by
        rintro rfl
        cases hends
      simp [hresult, World.walletClosed]
    | false =>
      by_cases hok : result = .connectionOk
      · simp only [hok, Bool.false_eq_true, if_false, if_true, true_or, and_true]
        simp [World.walletConnected, modifyDaemon, World.reconnected]
      · simp only [hok, Bool.false_eq_true, if_false, false_or, true_and]
        exact processData_dereferences_iff hnew receiveBuffer

end Handlers

/-! ### Runs -/

def WalletEvent.ends : WalletEvent → Bool
  | .connection result _ => result.ends
  | .expiry _ _ => false

def lostWallet (history : History World (WalletEvent ⊕ Event) Output) : Bool :=
  history.any fun o => o.event.elim WalletEvent.ends fun _ => false

/-- The event of a run of the server that runs the same handler. -/
def WalletEvent.event : WalletEvent → Option Event
  | .connection result receiveBuffer =>
    if result.ends then some .walletClosed
    else if result = .connectionOk then some .walletConnected
    else some (.walletData receiveBuffer)
  | .expiry _ true => none
  | .expiry .block false => some .blockTimer
  | .expiry .orphanCheck false => some .orphanCheckTimer
  | .expiry .getHeight false => some .getHeightTimer

theorem WalletEvent.event_eq_walletClosed (e : WalletEvent) :
    e.event = some .walletClosed ↔ e.ends = true := by
  cases e with
  | connection result receiveBuffer =>
    simp only [WalletEvent.event, WalletEvent.ends]
    split_ifs with hends hok <;> simp [hends]
  | expiry timer canceled =>
    cases timer <;> cases canceled <;> simp [WalletEvent.event, WalletEvent.ends]

section Runs

variable [Platform] {w w' : World} {out : List Output}

theorem walletHandler_eq (e : WalletEvent) :
    DaemonConnection.walletHandler e = e.event.elim (pure ()) World.handler := by
  cases e with
  | connection result receiveBuffer =>
    simp only [DaemonConnection.walletHandler, DaemonConnection.connectionHandler,
      WalletEvent.event]
    split_ifs <;> rfl
  | expiry timer canceled => cases timer <;> cases canceled <;> rfl

theorem StepEffect.mConnection {e : Event} (h : StepEffect w e w' out) (he : e ≠ .walletClosed) :
    w'.daemon.mConnection = w.daemon.mConnection := by
  cases h with
  | walletClosed => exact absurd rfl he
  | miner parsed effect => cases effect <;> rfl
  | wallet parsed effect =>
    cases effect with
    | round cause frame =>
      have hcause := congrArg DaemonConnection.mConnection frame.daemon
      cases cause <;> exact hcause
    | _ => rfl
  | blockTimer take forward =>
    rw [forward.daemon]
    cases take <;> rfl
  | _ => rfl

/-- What a step leaves of the pointer, and that no round is starting. -/
structure WalletFrame (w : World) (e : WalletEvent ⊕ Event) (w' : World) : Prop where
  mNewBlock : w'.daemon.mNewBlock = false
  mConnection : w'.daemon.mConnection =
    (w.daemon.mConnection && !e.elim WalletEvent.ends fun _ => false)

theorem walletFrame_of_step {e : WalletEvent ⊕ Event} (hnew : w.daemon.mNewBlock = false)
    (hstep : w.walletStep e = some (w', out)) : WalletFrame w e w' := by
  unfold World.walletStep at hstep
  cases e with
  | inl e =>
    have hends := e.event_eq_walletClosed
    dsimp only at hstep
    split_ifs at hstep
    obtain ⟨⟨⟨⟩, r⟩, h, rfl⟩ := Option.map_eq_some_iff.mp hstep
    rw [walletHandler_eq] at h
    cases hevent : e.event with
    | none =>
      rw [hevent] at h hends
      obtain ⟨-, rfl, -⟩ := Action.pure_eq_some_iff.mp h
      have hkept : e.ends = false := by simpa using hends
      exact ⟨hnew, by simp [hkept]⟩
    | some e' =>
      rw [hevent] at h hends
      have heffect := handler_effect hnew h
      refine ⟨heffect.mNewBlock hnew, ?_⟩
      cases hlost : e.ends with
      | true =>
        obtain rfl := Option.some.inj (hends.mpr hlost)
        cases heffect
        simp [hlost, modifyDaemon]
      | false =>
        have hother : e' ≠ .walletClosed := by
          rintro rfl
          exact Bool.false_ne_true (hlost.symm.trans (hends.mp rfl))
        simp [hlost, heffect.mConnection hother]
  | inr e =>
    dsimp only at hstep
    split_ifs at hstep with hminers
    have heffect := step_effect hnew hstep
    have hother : e ≠ .walletClosed := by
      rintro rfl
      cases hminers
    exact ⟨heffect.mNewBlock hnew, by simp [heffect.mConnection hother]⟩

/-- The pointer is null exactly if the connection has ended. -/
theorem walletRun_invariant {history : History World (WalletEvent ⊕ Event) Output}
    (h : WalletRun history w) :
    w.daemon.mNewBlock = false ∧ w.daemon.mConnection = !lostWallet history := by
  induction h with
  | start h =>
    obtain ⟨config, blockDb, accountDb, mRoundReward, rfl⟩ := h
    exact ⟨rfl, rfl⟩
  | next hrun hstep ih =>
    obtain ⟨hnew, hconnection⟩ := ih
    have hframe := walletFrame_of_step hnew hstep
    refine ⟨hframe.mNewBlock, ?_⟩
    rw [hframe.mConnection, hconnection]
    simp only [lostWallet, List.any_cons, Bool.not_or]
    exact Bool.and_comm _ _

theorem dereferencesLost_iff {history : History World (WalletEvent ⊕ Event) Output}
    (h : WalletRun history w) (e : WalletEvent) : w.dereferencesLost e ↔
      w.admits e = true ∧ lostWallet history = true ∧ e.sends w := by
  obtain ⟨hnew, hconnection⟩ := walletRun_invariant h
  unfold World.dereferencesLost
  rw [walletHandler_dereferences_iff hnew, hconnection, Bool.not_eq_false']

/-- A handler of the daemon connection gets along without the wallet exactly if it has nothing
to send, or the connection to the wallet has not ended. -/
theorem lostHarmless_iff {history : History World (WalletEvent ⊕ Event) Output}
    (h : WalletRun history w) (e : WalletEvent) : ¬ w.dereferencesLost e ↔
      ¬ (w.admits e = true ∧ lostWallet history = true ∧ e.sends w) := by
  rw [dereferencesLost_iff h]

end Runs

section Hangup

attribute [local instance] Platform.plain

def walletHangup : List (WalletEvent ⊕ Event) :=
  [.inl (.connection .connectionOk []), .inl (.connection .connectionClosed [])]

def walletHangupRun : Option (History World (WalletEvent ⊕ Event) Output × World) :=
  trace World.walletStep .fresh walletHangup

theorem walletHangupRun_isSome : walletHangupRun.isSome := by decide +kernel

theorem walletHangupRun_run : WalletRun (walletHangupRun.get walletHangupRun_isSome).1
    (walletHangupRun.get walletHangupRun_isSome).2 :=
  Run.of_trace World.fresh_initial (Option.some_get _).symm

theorem walletHangupRun_timers :
    (walletHangupRun.get walletHangupRun_isSome).2.daemon.timersStarted = true := by decide +kernel

theorem walletHangupRun_idle :
    (walletHangupRun.get walletHangupRun_isSome).2.blockTimerSends = false := by decide +kernel

theorem walletHangupRun_lost :
    lostWallet (walletHangupRun.get walletHangupRun_isSome).1 = true := by decide +kernel

attribute [local irreducible] walletHangupRun

/-- Without miners the block timer has nothing to send. -/
theorem walletHangup_harmless :
    ¬ (walletHangupRun.get walletHangupRun_isSome).2.dereferencesLost (.expiry .block false) := by
  apply (lostHarmless_iff walletHangupRun_run _).mpr
  rintro ⟨-, -, -, hsends⟩
  exact Bool.false_ne_true (walletHangupRun_idle.symm.trans hsends)

/-- Two seconds later the wallet is asked for the height. -/
theorem walletHangup_dereferenced : ¬ ∀ (platform : Platform) history w,
    @WalletRun platform history w → ∀ e, ¬ @World.dereferencesLost platform w e := by
  intro h
  apply h .plain _ _ walletHangupRun_run (.expiry .getHeight false)
  exact (dereferencesLost_iff walletHangupRun_run _).mpr
    ⟨walletHangupRun_timers, walletHangupRun_lost, rfl⟩

end Hangup

end NexusPool
