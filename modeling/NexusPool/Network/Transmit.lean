import NexusPool.Library.Run
import NexusPool.Network.Packet

/-!
# The outbound stream

`Connection_impl::transmit` posts a task for each payload. The tasks run on a pool of threads, in
any order, and each makes one `async_send`, which may send less than the payload; the completion
handler does not look at how much was sent. The peer receives what the sends put on the stream.
-/

namespace NexusPool

open Reactive

/-- The payloads of the calls, those whose task has not run yet, and what the peer has received. -/
structure Outbound where
  transmitted : List Bytes
  posted : List Bytes
  received : Bytes

namespace Outbound

inductive Event
  | transmit (payload : Bytes)
  | send (j : ℕ) (nBytes : ℕ)

/-- A send puts a non-empty prefix of its buffer on the stream; an empty buffer is sent as such. -/
def Sendable (payload : Bytes) (nBytes : ℕ) : Prop :=
  nBytes ≤ payload.length ∧ (payload ≠ [] → 1 ≤ nBytes)

instance (payload : Bytes) (nBytes : ℕ) : Decidable (Sendable payload nBytes) :=
  inferInstanceAs (Decidable (_ ∧ _))

/-- Any of the posted tasks may run next. A task is named by its place among those posted before. -/
def step (s : Outbound) : Event → Option (Outbound × List Bytes)
  | .transmit payload =>
    some ({ s with transmitted := s.transmitted ++ [payload], posted := s.posted ++ [payload] }, [])
  | .send j nBytes => do
    let payload ← s.posted[j]?
    if Sendable payload nBytes then
      some ({ s with
        posted := s.posted.eraseIdx j
        received := s.received ++ payload.take nBytes }, [payload.take nBytes])
    else
      none

def Fresh (s : Outbound) : Prop := s = ⟨[], [], []⟩

/-- The peer receives the payloads in the order of the calls, and all of them once no task is
left. -/
structure InOrder (s : Outbound) : Prop where
  order : s.received <+: s.transmitted.flatten
  complete : s.posted = [] → s.received = s.transmitted.flatten

/-- The task that runs is the oldest one, and its whole payload is sent. -/
def SendsWhole (history : History Outbound Event Bytes) : Prop :=
  Throughout (fun _ o => ∀ j nBytes, o.event = .send j nBytes →
    j = 0 ∧ ∀ payload, o.before.posted[j]? = some payload → nBytes = payload.length) history

variable {s s' : Outbound} {e : Event} {out : List Bytes}

theorem of_send {j nBytes : ℕ} (h : step s (.send j nBytes) = some (s', out)) :
    ∃ payload, s.posted[j]? = some payload ∧ Sendable payload nBytes ∧
      s' = { s with
        posted := s.posted.eraseIdx j
        received := s.received ++ payload.take nBytes } ∧ out = [payload.take nBytes] := by
  simp only [step, Option.bind_eq_bind, Option.bind_eq_some_iff] at h
  obtain ⟨payload, hpayload, h⟩ := h
  split_ifs at h with hsend
  cases h
  exact ⟨payload, hpayload, hsend, rfl, rfl⟩

/-! ### Tasks in order -/

/-- What was received and what is still posted make up what was transmitted. -/
def Accounted (s : Outbound) : Prop := s.received ++ s.posted.flatten = s.transmitted.flatten

theorem Accounted.inOrder (h : s.Accounted) : s.InOrder where
  order := ⟨s.posted.flatten, h⟩
  complete hposted := by
    rw [Accounted, hposted] at h
    simpa using h

theorem Accounted.step (h : s.Accounted) (hstep : step s e = some (s', out))
    (hwhole : ∀ j nBytes, e = .send j nBytes →
      j = 0 ∧ ∀ payload, s.posted[j]? = some payload → nBytes = payload.length) : s'.Accounted := by
  rw [Accounted] at h ⊢
  cases e with
  | transmit payload =>
    cases hstep
    simp only [List.flatten_append, List.flatten_singleton, ← List.append_assoc, h]
  | send j nBytes =>
    obtain ⟨payload, hpayload, -, rfl, -⟩ := of_send hstep
    obtain ⟨rfl, hlength⟩ := hwhole j nBytes rfl
    obtain ⟨rest, hposted⟩ : ∃ rest, s.posted = payload :: rest := by
      cases hposted : s.posted with
      | nil => simp [hposted] at hpayload
      | cons first rest =>
        rw [hposted] at hpayload
        cases hpayload
        exact ⟨rest, rfl⟩
    rw [hposted, List.flatten_cons] at h
    simp only [hposted, List.eraseIdx_cons_zero, hlength payload hpayload, List.take_length,
      List.append_assoc, h]

/-- If the tasks run in the order of the calls and send whole payloads, the peer receives the
payloads whole and in order, at whatever point of the run. -/
theorem inOrder_of_sendsWhole {history : History Outbound Event Bytes}
    (h : Run step Fresh history s) (hwhole : SendsWhole history) : s.InOrder := by
  apply Accounted.inOrder
  induction h with
  | start hs =>
    cases hs
    rfl
  | next _ hstep ih => exact (ih hwhole.2).step hstep hwhole.1

/-! ### Tasks in any order -/

def ranPayload (o : Occurrence Outbound Event Bytes) : Option Bytes :=
  match o.event with
  | .transmit _ => none
  | .send j _ => o.before.posted[j]?

/-- The payloads in the order in which their tasks ran. -/
def ran (history : History Outbound Event Bytes) : List Bytes :=
  (history.filterMap ranPayload).reverse

theorem ran_cons {o : Occurrence Outbound Event Bytes} {past : History Outbound Event Bytes}
    {payload : Bytes} (h : ranPayload o = some payload) :
    ran (o :: past) = ran past ++ [payload] := by
  rw [ran, List.filterMap_cons_some h, List.reverse_cons, ran]

/-- Every send took its whole payload. -/
def Whole (history : History Outbound Event Bytes) : Prop :=
  Throughout (fun _ o => ∀ payload, ranPayload o = some payload → o.outputs = [payload]) history

theorem length_flatten_eraseIdx {posted : List Bytes} {j : ℕ} {payload : Bytes}
    (h : posted[j]? = some payload) :
    (posted.eraseIdx j).flatten.length + payload.length = posted.flatten.length := by
  induction posted generalizing j with
  | nil => simp at h
  | cons first rest ih =>
    cases j with
    | zero =>
      cases h
      simp only [List.eraseIdx_cons_zero, List.flatten_cons, List.length_append]
      omega
    | succ j =>
      have hrest := ih h
      simp only [List.eraseIdx_cons_succ, List.flatten_cons, List.length_append]
      omega

/-- Whole sends put on the stream what the tasks had. -/
theorem received_of_whole {history : History Outbound Event Bytes}
    (h : Run step Fresh history s) (hwhole : Whole history) :
    s.received = (ran history).flatten := by
  induction h with
  | start hs =>
    cases hs
    rfl
  | @next past s s' e out hrun hstep ih =>
    have hpast := ih hwhole.2
    cases e with
    | transmit payload =>
      cases hstep
      exact hpast
    | send j nBytes =>
      obtain ⟨payload, hpayload, -, hs', hout⟩ := of_send hstep
      have hran : ranPayload ⟨s, .send j nBytes, s', out⟩ = some payload := hpayload
      have htake : payload.take nBytes = payload :=
        List.singleton_inj.mp (hout.symm.trans (hwhole.1 payload hran))
      rw [ran_cons hran, List.flatten_append, List.flatten_singleton, ← hpast, hs', htake]

/-- What is sent short is missing on the stream for good. -/
theorem length_of_run {history : History Outbound Event Bytes} (h : Run step Fresh history s) :
    s.received.length + s.posted.flatten.length ≤ s.transmitted.flatten.length ∧
      (s.received.length + s.posted.flatten.length = s.transmitted.flatten.length →
        Whole history) := by
  induction h with
  | start hs =>
    cases hs
    exact ⟨Nat.le_refl 0, fun _ => trivial⟩
  | @next past s s' e out hrun hstep ih =>
    obtain ⟨hle, hwhole⟩ := ih
    cases e with
    | transmit payload =>
      cases hstep
      simp only [List.flatten_append, List.flatten_singleton, List.length_append]
      refine ⟨by omega, fun heq => ⟨fun _ hran => ?_, hwhole (by omega)⟩⟩
      cases hran
    | send j nBytes =>
      obtain ⟨payload, hpayload, hsend, rfl, rfl⟩ := of_send hstep
      have herase := length_flatten_eraseIdx hpayload
      have hshort := hsend.1
      simp only [List.length_append, List.length_take]
      refine ⟨by omega, fun heq => ⟨fun payload' hran => ?_, hwhole (by omega)⟩⟩
      have hsame : payload = payload' := Option.some.inj (hpayload.symm.trans hran)
      rw [← hsame, List.take_of_length_le (by omega)]

/-- Once all tasks have run, the peer has the payloads in the order of the calls exactly if all
sends were whole and the order of the tasks made no difference to the bytes. -/
theorem received_eq_iff {history : History Outbound Event Bytes} (h : Run step Fresh history s)
    (hdone : s.posted = []) : s.received = s.transmitted.flatten ↔
      Whole history ∧ (ran history).flatten = s.transmitted.flatten := by
  constructor
  · intro heq
    have hwhole := (length_of_run h).2 (by simp [hdone, heq])
    exact ⟨hwhole, (received_of_whole h hwhole).symm.trans heq⟩
  · rintro ⟨hwhole, hran⟩
    exact (received_of_whole h hwhole).trans hran

/-! ### A stale share -/

/-- The answers to a stale share: `STALE`, and then the height. -/
def staleAnswers : List Event :=
  [.transmit (Packet.getPacket Packet.stale).wire, .transmit (Packet.getHeight 7).wire]

theorem fresh_start : Fresh ⟨[], [], []⟩ := rfl

def answeredRun : Option (History Outbound Event Bytes × Outbound) :=
  trace step ⟨[], [], []⟩ (staleAnswers ++ [.send 0 1, .send 0 1])

theorem answeredRun_isSome : answeredRun.isSome := by decide

theorem answeredRun_sendsWhole : SendsWhole (answeredRun.get answeredRun_isSome).1 := by
  refine ⟨?_, ?_, nofun, nofun, trivial⟩
  · rintro j nBytes ⟨⟩
    exact ⟨rfl, by decide⟩
  · rintro j nBytes ⟨⟩
    exact ⟨rfl, by decide⟩

theorem answeredRun_inOrder : (answeredRun.get answeredRun_isSome).2.InOrder :=
  inOrder_of_sendsWhole (Run.of_trace fresh_start (Option.some_get _).symm) answeredRun_sendsWhole

/-- All is sent, but not in the order of the calls. -/
def outOfOrder : History Outbound Event Bytes → Bool
  | [] => false
  | o :: _ => o.after.posted = [] ∧ o.after.received ≠ o.after.transmitted.flatten

/-- The height is sent before the `STALE`. -/
theorem heightFirst_outOfOrder :
    (trace step ⟨[], [], []⟩ (staleAnswers ++ [.send 1 1, .send 0 1])).any (outOfOrder ·.1) =
      true := by
  decide

theorem overtaken : ¬ ∀ (history : History Outbound Event Bytes) (s : Outbound),
    Run step Fresh history s → s.InOrder := by
  intro h
  obtain ⟨history, s, hrun, hp⟩ :=
    exists_run_of_trace fresh_start _ outOfOrder heightFirst_outOfOrder
  cases hrun with
  | start => cases hp
  | next hpast hstep =>
    obtain ⟨hposted, hreceived⟩ := of_decide_eq_true hp
    exact hreceived ((h _ _ (hpast.next hstep)).complete hposted)

end Outbound

end NexusPool
