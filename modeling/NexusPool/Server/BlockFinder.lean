import NexusPool.Server.SubmittedBlock

/-!
# Finders of accepted blocks

A `GOOD` pays the block and the finder that two variables of the daemon connection name. The
timer sets them for each block it takes out of an entry, so they belong to the block that the
`GOOD` answers only if no other block was taken since.
-/

namespace NexusPool

open Reactive World

section Finders

variable [Platform]

/-- Every `GOOD` makes `update_balances` run with the hash and the finder of the submission
that it answers. -/
def PaysFinders (history : History World Event Output) : Prop :=
  Throughout (fun past o => o.event.receives DaemonPacket.good →
    ∀ sub ∈ (docket past).inFlight.head?,
      sub.hash = some o.before.daemon.mHashSubmitBlock ∧
        sub.finder = o.before.daemon.mLastBlockfinder) history

/-- Every `GOOD` answers a submission with the hash of the one taken last, sent or dropped, and
with the finder of the one sent last. -/
def AnswersLast (history : History World Event Output) : Prop :=
  Throughout (fun past o => o.event.receives DaemonPacket.good →
    ∀ sub ∈ (docket past).inFlight.head?,
      (docket past).lastTaken.bind Submission.hash = sub.hash ∧
        (docket past).lastSent.map Submission.finder = some sub.finder) history

omit [Platform] in
/-- An accepted block goes to an entry whose connection is logged in to the account of the
finder. -/
def Signal.StoredWithFinder (w : World) : Signal → Prop
  | .found _ j finder _ => (w.owner j).bind w.account = some finder
  | _ => True

omit [Platform] in
def StoredWithFinder (history : History World Event Output) : Prop :=
  Throughout (fun _ o => (Signal.of o).StoredWithFinder o.before) history

instance (history : History World Event Output) : Decidable (AnswersLast history) :=
  inferInstanceAs (Decidable (Throughout _ history))

omit [Platform] in
instance (w : World) : (signal : Signal) → Decidable (signal.StoredWithFinder w)
  | .found _ _ _ _ => inferInstanceAs (Decidable (_ = _))
  | .quiet | .delivered _ _ | .taken _ _ | .answered => .isTrue trivial

omit [Platform] in
instance (history : History World Event Output) : Decidable (StoredWithFinder history) :=
  inferInstanceAs (Decidable (Throughout _ history))

/-- The accounts behind the blocks of the entries, and behind the block sent last. -/
structure FindersKnown (d : Docket) (w : World) : Prop where
  waiting : ∀ j sub, d.waiting j = some sub →
    ∃ k, w.owner j = some k ∧ w.account k = some sub.finder
  lastSent : ∀ sub, d.lastSent = some sub → w.daemon.mLastBlockfinder = sub.finder

namespace FindersKnown

variable {d : Docket} {w w' : World}

omit [Platform] in
theorem kept (h : FindersKnown d w) (hk : Kept w w') : FindersKnown d w' where
  waiting j sub hsub := by
    obtain ⟨k, howner, haccount⟩ := h.waiting j sub hsub
    exact ⟨k, hk.owner j k howner, hk.account k _ haccount⟩
  lastSent sub hsub := hk.finder ▸ h.lastSent sub hsub

omit [Platform] in
theorem owner_modifyEntry {f : PoolConnectionData → PoolConnectionData}
    (hf : ∀ poolData, (f poolData).mConnection = poolData.mConnection) (j k : ℕ) (w : World) :
    (w.modifyEntry j f).owner k = w.owner k := by
  unfold World.owner
  simp only [modifyEntry, modifyDaemon, List.getElem?_modify]
  split_ifs
  · simp [Function.comp_def, hf]
  · simp

/-- The timer notes the finder of the block it sends. -/
theorem take (h : FindersKnown d w) (htracks : Tracks d w) {w₁ : World} {out : List Output}
    (htake : TakeEffect w w₁ out) {j : ℕ}
    (hentry : (DaemonConnection.nextSubmission w).map (·.1) = some j) :
    FindersKnown (d.take j (out.any Output.isSubmitBlock)) w₁ := by
  obtain ⟨⟨j, pool, block⟩, hnext, rfl⟩ := Option.map_eq_some_iff.mp hentry
  obtain ⟨hblock, i, howner, hlock⟩ := DaemonConnection.submission_of_nextSubmission hnext
  obtain ⟨sub, hwaiting, -⟩ := htracks.held j block hblock
  obtain ⟨k, howner', haccount⟩ := h.waiting j sub hwaiting
  have hpool : pool.mNxsaddress = sub.finder := by
    cases howner.symm.trans howner'
    obtain ⟨hself, -⟩ := Option.filter_eq_some_iff.mp hlock
    unfold World.account at haccount
    obtain ⟨pool', hpool', heq⟩ := Option.map_eq_some_iff.mp haccount
    cases hself.symm.trans (Option.filter_eq_some_iff.mp hpool').1
    exact heq
  have hrest : ∀ w₂ : World, w₂.owner = w.owner → w₂.account = w.account → ∀ k sub',
      Function.update d.waiting j none k = some sub' →
        ∃ i, (w₂.modifyEntry j ({ · with mSubmitBlock := none })).owner k = some i ∧
          (w₂.modifyEntry j ({ · with mSubmitBlock := none })).account i = some sub'.finder := by
    intro w₂ howners haccounts k sub' hsub'
    by_cases hk : k = j
    · simp [hk] at hsub'
    · rw [Function.update_of_ne hk] at hsub'
      obtain ⟨i, hi, hfinder⟩ := h.waiting k sub' hsub'
      exact ⟨i, by rw [owner_modifyEntry (by intro _; rfl), howners, hi],
        (congrFun haccounts i).trans hfinder⟩
  cases htake with
  | idle next => simp [hnext] at next
  | stale next old =>
    cases hnext.symm.trans next
    exact ⟨hrest _ rfl rfl, h.lastSent⟩
  | sent next current =>
    cases hnext.symm.trans next
    refine ⟨hrest _ rfl rfl, fun sub' hsub' => ?_⟩
    have hlast : d.waiting j = some sub' := by
      simpa [Docket.take, Output.isSubmitBlock, Output.transmits, DaemonPacket.submitBlock,
        Packet.withData] using hsub'
    cases hwaiting.symm.trans hlast
    exact hpool

theorem next (h : FindersKnown d w) (htracks : Tracks d w) {out : List Output} {signal : Signal}
    (heffect : SubmissionEffect w w' out signal)
    (hstored : signal.StoredWithFinder w) : FindersKnown (d.next signal) w' := by
  cases heffect with
  | kept unrelated hkept silent =>
    rcases unrelated with rfl | rfl
    · exact h.kept hkept
    · exact ⟨(h.kept hkept).waiting, (h.kept hkept).lastSent⟩
  | @delivered w₁ _ i blockData block hkept parsed silent =>
    have hknown := h.kept hkept
    rw [Docket.next, Docket.deliver, parsed]
    refine ⟨fun j sub hsub => ?_, hknown.lastSent⟩
    obtain ⟨k, howner, haccount⟩ := hknown.waiting j sub hsub
    refine ⟨k, howner, ?_⟩
    rw [World.account_modifyPool (by intro _; rfl) (by intro _; rfl), haccount]
  | @found _ i j data share silent =>
    have hknown := h.kept share.kept_credited
    obtain ⟨k, howner, haccount⟩ := Option.bind_eq_some_iff.mp hstored
    obtain ⟨sub, hsub, -, hfinder, -⟩ := htracks.submitted (j := j) share
    refine ⟨fun j' sub' hsub' => ?_, hknown.lastSent⟩
    rw [owner_modifyEntry (by intro _; rfl)]
    change Function.update d.waiting j _ j' = some sub' at hsub'
    by_cases hj : j' = j
    · subst hj
      rw [Function.update_self, hsub] at hsub'
      cases hsub'
      exact ⟨k, share.kept_credited.owner _ _ howner,
        hfinder ▸ share.kept_credited.account _ _ haccount⟩
    · rw [Function.update_of_ne hj] at hsub'
      exact hknown.waiting j' sub' hsub'
  | taken htake hentry hkept silent => exact (h.take htracks htake hentry).kept hkept

end FindersKnown

theorem findersKnown_of_run {history : History World Event Output} {w : World}
    (h : ServerRun history w)
    (hstored : StoredWithFinder history) : FindersKnown (docket history) w := by
  induction h with
  | start h =>
    obtain ⟨config, blockDb, accountDb, mRoundReward, rfl⟩ := h
    constructor
    · intro j sub hsub
      simp [docket, Docket.empty] at hsub
    · intro sub hsub
      simp [docket, Docket.empty] at hsub
  | next hrun hstep ih =>
    exact (ih hstored.2).next (tracks_of_run hrun)
      (stepEffect_of_run hrun hstep).submissionEffect hstored.1

end Finders

/-! ### Two blocks in flight -/

section InFlight

attribute [local instance] Platform.plain

/-- A miner finds two blocks, and both are sent before the first one is answered. -/
def twoInFlight : List Event :=
  [.walletConnected, .minerConnected [1], .minerData 0 (Packet.withData Packet.login [65]).wire,
    .minerData 0 (Packet.getPacket Packet.getBlock).wire,
    .minerData 0 (Packet.getPacket Packet.getBlock).wire, .blockTimer,
    .walletData (Packet.withData DaemonPacket.blockData (List.replicate 216 0)).wire,
    .walletData (Packet.withData DaemonPacket.blockData
      (List.replicate 132 0 ++ 1 :: List.replicate 83 0)).wire,
    .minerData 0 (Packet.withData Packet.submitShare (List.replicate 136 0)).wire, .blockTimer,
    .minerData 0 (Packet.withData Packet.submitShare (1 :: List.replicate 135 0)).wire, .blockTimer,
    .walletData (Packet.getPacket DaemonPacket.good).wire]

def oneInFlight : Option (History World Event Output × World) :=
  trace World.step .fresh (twoInFlight.take 10 ++
    [.walletData (Packet.getPacket DaemonPacket.good).wire])

theorem oneInFlight_isSome : oneInFlight.isSome := by decide +kernel

theorem oneInFlight_run :
    ServerRun (oneInFlight.get oneInFlight_isSome).1 (oneInFlight.get oneInFlight_isSome).2 :=
  Run.of_trace World.fresh_initial (Option.some_get _).symm

theorem oneInFlight_stored : StoredWithFinder (oneInFlight.get oneInFlight_isSome).1 := by
  decide +kernel

theorem oneInFlight_answersLast : AnswersLast (oneInFlight.get oneInFlight_isSome).1 := by
  decide +kernel

attribute [local irreducible] oneInFlight

/-- The last step is a `GOOD` for a block with another hash than the one that is paid. -/
def paysOther : History World Event Output → Bool
  | [] => false
  | o :: past => o.event.receives DaemonPacket.good && (docket past).inFlight.head?.any fun sub =>
      decide (sub.hash ≠ some o.before.daemon.mHashSubmitBlock)

end InFlight

end NexusPool
