import NexusPool.Server.Restart

/-!
# Round numbers

`GOOD` stores the block with the number of the round and counts the round up. The counter is
not kept on disk: it starts again from one whenever the server is started, while the numbers
that were given before are still in the file of the block records.
-/

namespace NexusPool

open Reactive World

/-! ### The counter -/

section Effects

variable [Platform] {w w' : World} {e : Event} {out : List Output}

theorem MinerEffect.mCurrentRound {i : ℕ} {packet : Packet} (h : MinerEffect w i packet w' out) :
    w'.registry.mCurrentRound = w.registry.mCurrentRound := by
  have hopened : ∀ nxsAddress : Bytes,
      (w.registry.opened nxsAddress).mCurrentRound = w.registry.mCurrentRound := by
    intro nxsAddress
    unfold DataRegistry.opened
    split_ifs <;> rfl
  cases h with
  | refused self loggedOut registry replies =>
    rcases registry with rfl | ⟨-, b, rfl⟩
    · rfl
    · exact hopened _
  | loggedIn self loggedOut valid unbanned replies => exact hopened _
  | _ => rfl

theorem WalletEffect.mCurrentRound {packet : Packet} (parsed : e.walletPacket = some packet)
    (h : WalletEffect w packet w' out) : w'.registry.mCurrentRound =
      if e.receives DaemonPacket.good then w.registry.mCurrentRound + 1
      else w.registry.mCurrentRound := by
  have hother : packet.mHeader ≠ DaemonPacket.good → e.receives DaemonPacket.good = false := by
    intro hheader
    simp [Event.receives, parsed, hheader]
  cases h with
  | ignored header =>
    rw [hother fun hgood => header (by simp [hgood])]
    rfl
  | pending header =>
    rw [hother fun hgood => absurd (hgood ▸ header) (by decide)]
    rfl
  | orphan header =>
    obtain ⟨accountDb, blockDb, hrefund⟩ := w.exists_refund _
    rw [hother (by rw [header]; decide), hrefund]
    rfl
  | rebuilt header =>
    rw [hother (by rw [header]; decide), World.rebuilt,
      (DaemonConnection.exec_rebuildCoinbase _ _ _).1]
    rfl
  | round cause frame =>
    refine (congrArg DataRegistry.mCurrentRound frame.registry).trans ?_
    cases cause with
    | good header =>
      obtain ⟨db, hsettle⟩ := w.exists_settle
      rw [modifyDaemon, hsettle, if_pos (by simp [Event.receives, parsed, header])]
    | coinbaseSet header | reward header =>
      rw [hother (by rw [header]; decide)]
      rfl
  | goodBlock header | delivered header | swallowed header =>
    rw [hother (by rw [header]; decide)]
    rfl

theorem StepEffect.mCurrentRound (h : StepEffect w e w' out) : w'.registry.mCurrentRound =
    if e.receives DaemonPacket.good then w.registry.mCurrentRound + 1
    else w.registry.mCurrentRound := by
  have hquiet : e.walletPacket = none → w'.registry.mCurrentRound = w.registry.mCurrentRound →
      w'.registry.mCurrentRound =
        if e.receives DaemonPacket.good then w.registry.mCurrentRound + 1
        else w.registry.mCurrentRound := by
    intro hnone hsame
    rw [not_receives_of_walletPacket hnone, hsame]
    rfl
  cases h with
  | wallet parsed effect => exact effect.mCurrentRound parsed
  | walletDropped dropped => exact hquiet dropped rfl
  | miner parsed effect => exact hquiet rfl effect.mCurrentRound
  | blockTimer take forward =>
    refine hquiet rfl ((congrArg DataRegistry.mCurrentRound forward.registry).trans ?_)
    cases take <;> rfl
  | _ => exact hquiet rfl rfl

end Effects

/-! ### The numbers of a history -/

def paysOut (o : Occurrence Server Incident Output) : Bool := (o.before.paysFor o.event).isSome

def storedRound (o : Occurrence Server Incident Output) : Option UInt32 := do
  let hash ← o.before.paysFor o.event
  let cBlock ← o.after.world.registry.mBlockDb.mapRecords[hash]?
  return cBlock.nRound

/-- The numbers that were given, the last one first. -/
def storedRounds (history : History Server Incident Output) : List UInt32 :=
  history.filterMap storedRound

/-- Every number is greater than those given before it, so the blocks from any round on are the
most recent ones. -/
structure RoundsIncrease (history : History Server Incident Output) : Prop where
  increasing : (storedRounds history).Pairwise (· > ·)
  window : ∀ nRound, (storedRounds history).filter (· ≥ nRound) <+: storedRounds history

theorem filter_prefix_of_pairwise {rounds : List UInt32} (h : rounds.Pairwise (· > ·))
    (nRound : UInt32) : rounds.filter (· ≥ nRound) <+: rounds := by
  induction rounds with
  | nil => exact List.prefix_rfl
  | cons r rounds ih =>
    obtain ⟨hr, hrest⟩ := List.pairwise_cons.mp h
    by_cases hge : r ≥ nRound
    · rw [List.filter_cons_of_pos (by simpa using hge)]
      exact List.prefix_cons_inj r |>.mpr (ih hrest)
    · have hnone : (r :: rounds).filter (· ≥ nRound) = [] := by
        apply List.filter_eq_nil_iff.mpr
        intro r' hr' hge'
        have hr'ge : nRound ≤ r' := by simpa using hge'
        rcases List.mem_cons.mp hr' with rfl | hr'
        · exact hge hr'ge
        · exact hge (UInt32.le_trans hr'ge (UInt32.le_of_lt (hr r' hr')))
      rw [hnone]
      exact List.nil_prefix

def paidSinceStart : History Server Incident Output → ℕ
  | [] => 0
  | o :: past =>
    match o.event with
    | .restarted .. => 0
    | _ => (if paysOut o then 1 else 0) + paidSinceStart past

def paidEver (history : History Server Incident Output) : ℕ := history.countP paysOut

/-- All payouts are made by one process, and there are fewer than `2 ^ 32`. -/
def PaidByOneProcess (history : History Server Incident Output) : Prop :=
  Throughout (fun past o => paysOut o →
    paidSinceStart past = paidEver past ∧ paidEver past + 1 < 2 ^ 32) history

instance (history : History Server Incident Output) : Decidable (PaidByOneProcess history) :=
  inferInstanceAs (Decidable (Throughout _ history))

theorem paysOut_event (s s' : Server) (e : Event) (out : List Output) :
    paysOut ⟨s, .event e, s', out⟩ = e.receives DaemonPacket.good := by
  simp only [paysOut, Server.paysFor, World.paysFor]
  split_ifs with hgood
  · exact hgood.symm
  · exact (Bool.eq_false_iff.mpr hgood).symm

theorem paidSinceStart_event (s s' : Server) (e : Event) (out : List Output)
    (past : History Server Incident Output) : paidSinceStart (⟨s, .event e, s', out⟩ :: past) =
      (if e.receives DaemonPacket.good then 1 else 0) + paidSinceStart past := by
  rw [paidSinceStart, paysOut_event]

theorem paidEver_cons (o : Occurrence Server Incident Output)
    (past : History Server Incident Output) :
    paidEver (o :: past) = (if paysOut o then 1 else 0) + paidEver past := by
  rw [paidEver, List.countP_cons, add_comm, paidEver]

theorem paidSinceStart_le (history : History Server Incident Output) :
    paidSinceStart history ≤ paidEver history := by
  induction history with
  | nil => exact Nat.le_refl 0
  | cons o past ih =>
    rw [paidEver_cons, paidSinceStart]
    split
    · exact Nat.zero_le _
    · exact Nat.add_le_add_left ih _

section Runs

variable [Platform] {history past : History Server Incident Output} {s s' : Server} {i : Incident}
  {out : List Output}

theorem storedRound_of_step (hkept : FlagsKept past s) (hstep : s.step i = some (s', out)) :
    storedRound ⟨s, i, s', out⟩ =
      if paysOut ⟨s, i, s', out⟩ then some s.world.registry.mCurrentRound else none := by
  cases hpays : s.paysFor i with
  | none => simp [storedRound, paysOut, hpays]
  | some hash =>
    cases i with
    | event e =>
      obtain ⟨⟨w', out'⟩, hw, heq⟩ := Option.map_eq_some_iff.mp hstep
      cases heq
      have hblocks := ((step_effect hkept.mNewBlock hw).flagEffect hkept.filed).paid hash hpays
      have hkey : s.world.daemon.mHashSubmitBlock = hash := by
        simp only [Server.paysFor, World.paysFor] at hpays
        split_ifs at hpays
        exact Option.some.inj hpays
      have hstored : w'.registry.mBlockDb.mapRecords[hash]? = some s.world.paidRecord := by
        rw [hblocks, Database.find_updateRecord]
        exact if_pos hkey
      simp [storedRound, paysOut, hpays, hstored]
      rfl
    | _ => cases hpays

/-- The round is one more than the number of payouts since the start. -/
theorem mCurrentRound_of_run (h : Run Server.step Server.Loaded history s) :
    s.world.registry.mCurrentRound = UInt32.ofNat (1 + paidSinceStart history) := by
  induction h with
  | start h =>
    obtain ⟨config, acctDat, blockDb, accountDb, mRoundReward, -, -, hworld⟩ := h
    rw [hworld]
    rfl
  | @next past s s' i out hrun hstep ih =>
    cases i with
    | event e =>
      obtain ⟨⟨w', out'⟩, hw, heq⟩ := Option.map_eq_some_iff.mp hstep
      cases heq
      have hround := (step_effect (flagsKept_of_run hrun).mNewBlock hw).mCurrentRound
      rw [paidSinceStart_event]
      refine hround.trans ?_
      by_cases hgood : e.receives DaemonPacket.good
      · rw [if_pos hgood, if_pos hgood, ih, Nat.add_comm 1 (1 + _)]
        exact (UInt32.ofNat_add _ 1).symm
      · rw [if_neg hgood, if_neg hgood, ih, Nat.zero_add]
    | persisted =>
      cases hstep
      rw [ih]
      simp [paidSinceStart, paysOut, Server.paysFor]
    | restarted config acctDat mRoundReward =>
      simp only [Server.step, Option.bind_eq_bind, Option.bind_eq_some_iff, Option.pure_def,
        Option.some.injEq, Prod.mk.injEq] at hstep
      obtain ⟨blockDb, -, accountDb, -, rfl, rfl⟩ := hstep
      rfl

theorem mem_storedRounds_iff (h : Run Server.step Server.Loaded history s)
    (hone : PaidByOneProcess history) : paidEver history < 2 ^ 32 ∧
      ∀ r, r ∈ storedRounds history ↔ 1 ≤ r.toNat ∧ r.toNat ≤ paidEver history := by
  induction h with
  | start =>
    refine ⟨by decide, fun r => ?_⟩
    simp [storedRounds, paidEver]
    omega
  | @next past s s' i out hrun hstep ih =>
    obtain ⟨hlt, hmem⟩ := ih hone.2
    have hstored := storedRound_of_step (flagsKept_of_run hrun) hstep
    rw [paidEver_cons]
    cases hpays : paysOut ⟨s, i, s', out⟩ with
    | false =>
      rw [hpays, if_neg Bool.false_ne_true] at hstored
      rw [storedRounds, List.filterMap_cons_none hstored, if_neg Bool.false_ne_true, Nat.zero_add]
      exact ⟨hlt, hmem⟩
    | true =>
      obtain ⟨hsame, hbound⟩ := hone.1 hpays
      rw [hpays, if_pos rfl, mCurrentRound_of_run hrun, hsame] at hstored
      have hnumber : (UInt32.ofNat (1 + paidEver past)).toNat = 1 + paidEver past :=
        Nat.mod_eq_of_lt (by omega)
      rw [storedRounds, List.filterMap_cons_some hstored, if_pos rfl]
      refine ⟨by omega, fun r => ?_⟩
      have hpast := hmem r
      rw [storedRounds] at hpast
      rw [List.mem_cons, hpast, ← UInt32.toNat_inj, hnumber]
      omega

theorem increasing_iff (h : Run Server.step Server.Loaded history s) :
    (storedRounds history).Pairwise (· > ·) ↔ PaidByOneProcess history := by
  induction h with
  | start => exact iff_of_true List.Pairwise.nil trivial
  | @next past s s' i out hrun hstep ih =>
    have hstored := storedRound_of_step (flagsKept_of_run hrun) hstep
    have hle := paidSinceStart_le past
    cases hpays : paysOut ⟨s, i, s', out⟩ with
    | false =>
      rw [hpays, if_neg Bool.false_ne_true] at hstored
      rw [storedRounds, List.filterMap_cons_none hstored]
      refine ih.trans ⟨fun hone => ⟨fun hpaid => ?_, hone⟩, And.right⟩
      rw [hpays] at hpaid
      cases hpaid
    | true =>
      rw [hpays, if_pos rfl, mCurrentRound_of_run hrun] at hstored
      rw [storedRounds, List.filterMap_cons_some hstored, List.pairwise_cons]
      constructor
      · rintro ⟨hgreater, hpast⟩
        have hone := ih.mp hpast
        obtain ⟨hlt, hmem⟩ := mem_storedRounds_iff hrun hone
        refine ⟨fun _ => ?_, hone⟩
        by_cases hnone : paidEver past = 0
        · omega
        · have hlast : UInt32.ofNat (paidEver past) ∈ storedRounds past := by
            rw [hmem, UInt32.toNat_ofNat_of_lt' hlt]
            omega
          have hnext := UInt32.lt_iff_toNat_lt.mp (hgreater _ hlast)
          rw [UInt32.toNat_ofNat_of_lt' hlt, UInt32.toNat_ofNat'] at hnext
          omega
      · rintro ⟨hone, hpast⟩
        obtain ⟨hsame, hbound⟩ := hone hpays
        obtain ⟨hlt, hmem⟩ := mem_storedRounds_iff hrun hpast
        refine ⟨fun r hr => ?_, ih.mpr hpast⟩
        apply UInt32.lt_iff_toNat_lt.mpr
        have hround := (hmem r).mp hr
        rw [hsame, UInt32.toNat_ofNat', Nat.mod_eq_of_lt (by omega)]
        omega

/-- The numbers increase exactly as long as one process makes all payouts, and fewer than
`2 ^ 32`. -/
theorem roundsIncrease_iff (h : Run Server.step Server.Loaded history s) :
    RoundsIncrease history ↔ PaidByOneProcess history := by
  rw [← increasing_iff h]
  exact ⟨RoundsIncrease.increasing, fun hrounds => ⟨hrounds, filter_prefix_of_pairwise hrounds⟩⟩

end Runs

section TwoLives

attribute [local instance] Platform.plain

def blockAccepted (root : UInt8) : List Event :=
  oneRequest ++ [
    .walletData (Packet.withData DaemonPacket.blockData
      (List.replicate 132 0 ++ List.replicate 64 root ++ List.replicate 20 0)).wire,
    .minerData 0 (Packet.withData Packet.submitShare
      (List.replicate 64 root ++ List.replicate 72 0)).wire, .blockTimer,
    .walletData (Packet.getPacket DaemonPacket.good).wire]

theorem Server.fresh_loaded : Server.Loaded ⟨.fresh, []⟩ := ⟨_, [], _, _, _, rfl, rfl, rfl⟩

def oneLife : Option (History Server Incident Output × Server) :=
  trace Server.step ⟨.fresh, []⟩
    (.restarted ⟨0, 0, false⟩ [] 0 :: (blockAccepted 0).map .event)

theorem oneLife_isSome : oneLife.isSome := by decide +kernel

theorem oneLife_run : Run Server.step Server.Loaded (oneLife.get oneLife_isSome).1
    (oneLife.get oneLife_isSome).2 :=
  Run.of_trace Server.fresh_loaded (Option.some_get _).symm

attribute [local irreducible] oneLife

theorem oneLife_roundsIncrease_iff :
    RoundsIncrease (oneLife.get oneLife_isSome).1 ↔
      PaidByOneProcess (oneLife.get oneLife_isSome).1 :=
  roundsIncrease_iff oneLife_run

def sharesRound (history : History Server Incident Output) : Bool :=
  storedRounds history = [1, 1] ∧ (history.filterMap fun o => o.before.paysFor o.event).Nodup

def twoLives : List Incident :=
  (blockAccepted 0).map .event ++ [.restarted ⟨0, 0, false⟩ [] 0] ++ (blockAccepted 1).map .event

theorem twoLives_sharesRound :
    (trace Server.step ⟨.fresh, []⟩ twoLives).any (fun r => sharesRound r.1) = true := by
  decide +kernel

theorem round_repeated : ¬ ∀ (platform : Platform) history s,
    @Run _ _ _ (@Server.step platform) (@Server.Loaded platform) history s →
      RoundsIncrease history := by
  intro h
  obtain ⟨history, s, hrun, hrepeated⟩ :=
    exists_run_of_trace Server.fresh_loaded twoLives sharesRound twoLives_sharesRound
  have hincrease := (h .plain history s hrun).increasing
  rw [(of_decide_eq_true hrepeated).1] at hincrease
  exact absurd hincrease (by decide)

end TwoLives

end NexusPool
