import NexusPool.Server.RequestCount

/-!
# Sessions

A miner is somebody only after a login. The address is stored before it is checked, but
nothing reads it until the connection is logged in, and from then on nothing changes it. A
record that an account once has is never taken away, whatever calls the handlers make.
-/

namespace NexusPool

open Concurrent Reactive World

/-! ### Account records -/

namespace DataRegistry

def KeepsRecords (s s' : DataRegistry) : Prop :=
  ∀ k, s.mAccountDb.hasKey k → s'.mAccountDb.hasKey k

namespace KeepsRecords

theorem composes : Program.Composes KeepsRecords where
  refl _ _ h := h
  trans h h' k hk := h' k (h k hk)

theorem handle (c : Call) (s : DataRegistry) : KeepsRecords s (c.handle s).2 := by
  intro k hk
  cases c with
  | accountGet cKey =>
    change (s.mAccountDb.getRecord cKey).2.hasKey k = true
    rw [Database.hasKey_getRecord, hk, Bool.or_true]
  | accountUpdate cRecord =>
    change (s.mAccountDb.updateRecord cRecord).hasKey k = true
    rw [Database.hasKey_updateRecord, hk, Bool.or_true]
  | _ => exact hk

/-- This holds of every handler, and of what any others do between its calls. -/
theorem exec {α : Type} (p : Handler α) (s : DataRegistry) : KeepsRecords s (exec p s).2 :=
  Program.Ensures.of_calls composes handle p s

theorem opened (s : DataRegistry) (nxsAddress : Bytes) : KeepsRecords s (s.opened nxsAddress) := by
  have h := exec (PoolConnection.openAccount nxsAddress) s
  rwa [exec_openAccount] at h

end KeepsRecords

theorem hasKey_opened (s : DataRegistry) (nxsAddress : Bytes) :
    (s.opened nxsAddress).mAccountDb.hasKey nxsAddress := by
  unfold opened
  split_ifs with h
  · exact h
  · rw [Database.hasKey_updateRecord]
    simp [Account.new]

end DataRegistry

open DataRegistry (KeepsRecords)

section Effects

variable [Platform] {w w' : World} {out : List Output}

theorem DataRegistry.KeepsRecords.credited {i : ℕ} {data : Bytes} (share : VerifiedShare w i data) :
    w.registry.KeepsRecords share.credited.registry := by
  have h := exec (DataRegistry.modifyAccount share.pool.mNxsaddress
    (·.addShares (Platform.shareWeight share.nDifficulty))) w.registry
  rwa [DataRegistry.exec_modifyAccount] at h

theorem MinerEffect.keepsRecords {i : ℕ} {packet : Packet} (h : MinerEffect w i packet w' out) :
    w.registry.KeepsRecords w'.registry := by
  cases h with
  | reply => exact KeepsRecords.composes.refl _
  | refused self loggedOut registry =>
    rcases registry with rfl | ⟨-, b, rfl⟩
    · exact KeepsRecords.composes.refl _
    · exact KeepsRecords.opened _ _
  | loggedIn => exact KeepsRecords.opened _ _
  | getBlock => exact KeepsRecords.composes.refl _
  | @getBalance _ pool => exact KeepsRecords.handle (.accountGet pool.mNxsaddress) _
  | credited share => exact KeepsRecords.credited share
  | accepted share => exact KeepsRecords.credited share

theorem WalletEffect.keepsRecords {packet : Packet} (h : WalletEffect w packet w' out) :
    w.registry.KeepsRecords w'.registry := by
  cases h with
  | orphan => exact KeepsRecords.exec _ _
  | rebuilt => exact KeepsRecords.exec _ _
  | round cause frame =>
    unfold World.reset modifyDaemon
    rw [frame.registry]
    cases cause with
    | good => exact KeepsRecords.exec _ _
    | _ => exact KeepsRecords.composes.refl _
  | _ => exact KeepsRecords.composes.refl _

theorem StepEffect.keepsRecords {e : Event} (h : StepEffect w e w' out) :
    w.registry.KeepsRecords w'.registry := by
  cases h with
  | miner parsed effect => exact effect.keepsRecords
  | wallet parsed effect => exact effect.keepsRecords
  | blockTimer take forward =>
    rw [forward.registry]
    cases take <;> exact KeepsRecords.composes.refl _
  | _ => exact KeepsRecords.composes.refl _

/-! ### Who is logged in -/

omit [Platform] in
theorem World.account_of_sessions
    (h : w'.pools.map PoolConnection.session = w.pools.map PoolConnection.session) :
    w'.account = w.account := by
  funext i
  have hi := congrArg (·[i]?) h
  simp only [List.getElem?_map] at hi
  unfold World.account
  cases hpool : w.pools[i]? with
  | none =>
    rw [hpool] at hi
    rw [Option.map_eq_none_iff.mp hi]
  | some pool =>
    rw [hpool] at hi
    obtain ⟨pool', hpool', hsession⟩ := Option.map_eq_some_iff.mp hi
    have hlogin : pool'.session.mLoggedIn = pool.session.mLoggedIn := by rw [hsession]
    have haddress : pool'.session.mNxsaddress = pool.session.mNxsaddress := by rw [hsession]
    change pool'.mLoggedIn = pool.mLoggedIn at hlogin
    change pool'.mNxsaddress = pool.mNxsaddress at haddress
    rw [hpool']
    simp [Option.filter, hlogin, apply_ite, haddress]

omit [Platform] in
theorem World.account_of_pools (h : w'.pools = w.pools) : w'.account = w.account :=
  account_of_sessions (by rw [h])

omit [Platform] in
theorem World.account_of_loggedOut {i : ℕ} {pool : PoolConnection} (hself : w.pools[i]? = some pool)
    (hlogged : ¬ pool.mLoggedIn) : w.account i = none := by
  simp [World.account, hself, Option.filter, hlogged]

omit [Platform] in
theorem World.account_modifyPool_of_self {i : ℕ} {pool : PoolConnection}
    (hself : w.pools[i]? = some pool) {f : PoolConnection → PoolConnection} :
    (w.modifyPool i f).account =
      Function.update w.account i
        (if (f pool).mLoggedIn then some (f pool).mNxsaddress else none) := by
  funext k
  by_cases hk : k = i
  · subst hk
    rw [Function.update_self]
    simp [World.account, getElem?_modifyPool, hself, Option.filter, apply_ite]
  · rw [Function.update_of_ne hk]
    simp only [World.account, getElem?_modifyPool, if_neg (Ne.symm hk)]

/-- What a step means for the logins: nothing, or one connection that was not logged in is
from now on. -/
inductive LoginEffect (w : World) : Event → World → Prop
  | kept {e : Event} {w' : World} (accounts : w'.account = w.account) : LoginEffect w e w'
  | loggedIn {i : ℕ} {receiveBuffer nxsAddress : Bytes} {w' : World}
      (loggedOut : w.account i = none)
      (valid : Platform.isValidAddress nxsAddress)
      (unbanned : ¬ w'.registry.mBannedUsers.isAccountBanned nxsAddress)
      (recorded : w'.registry.mAccountDb.hasKey nxsAddress)
      (accounts : w'.account = Function.update w.account i (some nxsAddress)) :
      LoginEffect w (.minerData i receiveBuffer) w'

theorem MinerEffect.loginEffect {i : ℕ} {receiveBuffer : Bytes} {packet : Packet}
    (h : MinerEffect w i packet w' out) : LoginEffect w (.minerData i receiveBuffer) w' := by
  have hpools : ∀ {f : PoolConnection → PoolConnection} {w' : World},
      (∀ pool, (f pool).mLoggedIn = pool.mLoggedIn) →
        (∀ pool, (f pool).mNxsaddress = pool.mNxsaddress) →
          w'.pools = (w.modifyPool i f).pools → w'.account = w.account := by
    intro f w' hlogin haddress hw'
    rw [account_of_pools hw']
    funext k
    exact account_modifyPool hlogin haddress i k w
  cases h with
  | reply => exact .kept rfl
  | @refused _ pool nxsAddress _ self loggedOut =>
    refine .kept ?_
    change (w.modifyPool i ({ · with mNxsaddress := nxsAddress })).account = w.account
    rw [account_modifyPool_of_self self, if_neg loggedOut, ← account_of_loggedOut self loggedOut,
      Function.update_eq_self]
  | @loggedIn _ pool nxsAddress self loggedOut valid unbanned =>
    refine .loggedIn (account_of_loggedOut self loggedOut) valid ?_
      (DataRegistry.hasKey_opened w.registry nxsAddress) ?_
    · change ¬ (w.registry.opened nxsAddress).mBannedUsers.isAccountBanned nxsAddress
      rw [DataRegistry.opened_eq]
      exact unbanned
    · exact account_modifyPool_of_self self
  | getBlock =>
    refine .kept (hpools ?_ ?_ rfl)
    · exact fun _ => rfl
    · exact fun _ => rfl
  | getBalance => exact .kept (account_of_pools rfl)
  | credited share =>
    refine .kept (hpools ?_ ?_ rfl)
    · exact fun _ => rfl
    · exact fun _ => rfl
  | accepted share =>
    refine .kept (hpools ?_ ?_ rfl)
    · exact fun _ => rfl
    · exact fun _ => rfl

theorem WalletEffect.account {packet : Packet} (h : WalletEffect w packet w' out) :
    w'.account = w.account := by
  cases h with
  | delivered => exact funext fun k => account_modifyPool (by intro _; rfl) (by intro _; rfl) _ k _
  | @round _ w₂ _ cause frame =>
    have hreset : w₂.reset.account = w₂.account := account_of_pools rfl
    rw [hreset, account_of_sessions frame.sessions]
    cases cause <;> exact account_of_pools rfl
  | _ => exact account_of_pools rfl

theorem StepEffect.loginEffect {e : Event} (h : StepEffect w e w' out) : LoginEffect w e w' := by
  cases h with
  | minerConnected =>
    refine .kept (funext fun i => ?_)
    simp only [World.account, modifyDaemon, List.getElem?_append]
    split_ifs with hi
    · rfl
    · rw [List.getElem?_eq_none (not_lt.mp hi)]
      cases i - w.pools.length <;> rfl
  | miner parsed effect => exact effect.loginEffect
  | minerClosed =>
    exact .kept (funext fun k => account_modifyPool (by intro _; rfl) (by intro _; rfl) _ k _)
  | serverMaintenance =>
    refine .kept (funext fun i => ?_)
    simp only [World.account, List.getElem?_map]
    cases w.pools[i]? <;> simp [Option.filter, apply_ite]
  | wallet parsed effect => exact .kept effect.account
  | blockTimer take forward =>
    refine .kept ((account_of_pools forward.pools).trans ?_)
    cases take <;> exact account_of_pools rfl
  | _ => exact .kept (account_of_pools rfl)

theorem StepEffect.account_of_account {e : Event} (h : StepEffect w e w' out) {i : ℕ}
    {nxsAddress : Bytes} (hi : w.account i = some nxsAddress) : w'.account i = some nxsAddress := by
  cases h.loginEffect with
  | kept accounts => rw [accounts, hi]
  | @loggedIn k _ _ _ loggedOut _ _ _ accounts =>
    have hne : i ≠ k := by
      rintro rfl
      rw [loggedOut] at hi
      cases hi
    rw [accounts, Function.update_of_ne hne, hi]

/-- A connection that is logged in has a record to log in to. -/
theorem StepEffect.hasKey_of_account {e : Event} (h : StepEffect w e w' out)
    (hw : ∀ i nxsAddress, w.account i = some nxsAddress → w.registry.mAccountDb.hasKey nxsAddress)
    {i : ℕ} {nxsAddress : Bytes} (hi : w'.account i = some nxsAddress) :
    w'.registry.mAccountDb.hasKey nxsAddress := by
  cases h.loginEffect with
  | kept accounts =>
    rw [accounts] at hi
    exact h.keepsRecords _ (hw i nxsAddress hi)
  | @loggedIn k _ _ _ _ _ _ recorded accounts =>
    rw [accounts] at hi
    by_cases hk : i = k
    · subst hk
      rw [Function.update_self] at hi
      cases hi
      exact recorded
    · rw [Function.update_of_ne hk] at hi
      exact h.keepsRecords _ (hw i nxsAddress hi)

end Effects

theorem World.account_init (registry : DataRegistry) (mRoundReward : UInt64) (i : ℕ) :
    (World.init registry mRoundReward).account i = none := by
  simp [World.account, World.init]

theorem hasKey_of_run [Platform] {history : History World Event Output} {w : World}
    (h : ServerRun history w) {i : ℕ} {nxsAddress : Bytes} (hi : w.account i = some nxsAddress) :
    w.registry.mAccountDb.hasKey nxsAddress := by
  induction h generalizing i nxsAddress with
  | start hinit =>
    obtain ⟨config, blockDb, accountDb, mRoundReward, rfl⟩ := hinit
    rw [account_init] at hi
    cases hi
  | next hrun hstep ih =>
    exact (stepEffect_of_run hrun hstep).hasKey_of_account (fun _ _ hi => ih hi) hi

/-! ### Sessions are safe -/

/-- The login in these bytes, if they hold one that `is_valid` lets through. -/
def loginOf (receiveBuffer : Bytes) : Option Packet :=
  (Packet.ofBuffer .miner receiveBuffer).filter fun packet =>
    packet.isValid .miner && packet.mHeader = Packet.login

section Safety

variable [Platform]

/-- Connection `i` is logged in by this step: its miner sent a login, and the account was not
banned. -/
structure LogsIn (i : ℕ) (nxsAddress : Bytes) (o : Occurrence World Event Output) : Prop where
  sent : ∃ receiveBuffer, o.event = .minerData i receiveBuffer ∧ (loginOf receiveBuffer).isSome
  before : o.before.account i = none
  after : o.after.account i = some nxsAddress
  unbanned : ¬ o.after.registry.mBannedUsers.isAccountBanned nxsAddress

/-- What is known of the address that connection `i` is logged in with. -/
structure Admitted (history : History World Event Output) (w : World) (i : ℕ) (nxsAddress : Bytes) :
    Prop where
  valid : Platform.isValidAddress nxsAddress
  recorded : w.registry.mAccountDb.hasKey nxsAddress
  login : ∃ o ∈ history, LogsIn i nxsAddress o

/-- The account database stays, or gets the zero record of a valid address that has none. -/
def OpensAtMost (w w' : World) : Prop :=
  w'.registry.mAccountDb = w.registry.mAccountDb ∨
    ∃ nxsAddress, Platform.isValidAddress nxsAddress ∧ ¬ w.registry.mAccountDb.hasKey nxsAddress ∧
      w'.registry.mAccountDb = w.registry.mAccountDb.updateRecord (.new nxsAddress)

/-- A miner that is not logged in can log in. Anything else it sends only counts against it. -/
def RefusesStrangers (o : Occurrence World Event Output) : Prop :=
  ∀ i receiveBuffer, o.event = .minerData i receiveBuffer → o.before.account i = none →
    match loginOf receiveBuffer with
    | none => Scoring i o.before o.after o.outputs
    | some _ => OpensAtMost o.before o.after ∧ o.after.daemon = o.before.daemon

structure SessionSafe (history : History World Event Output) (w : World) : Prop where
  admitted : ∀ i nxsAddress, w.account i = some nxsAddress → Admitted history w i nxsAddress
  constant : ∀ o ∈ history, ∀ i nxsAddress, o.after.account i = some nxsAddress →
    w.account i = some nxsAddress
  strangers : ∀ o ∈ history, RefusesStrangers o

variable {w w' : World} {e : Event} {out : List Output}

theorem OpensAtMost.opened (w : World) {nxsAddress : Bytes}
    (valid : Platform.isValidAddress nxsAddress)
    (hw' : w'.registry.mAccountDb = (w.registry.opened nxsAddress).mAccountDb) :
    OpensAtMost w w' := by
  by_cases hkey : w.registry.mAccountDb.hasKey nxsAddress
  · refine .inl ?_
    rw [hw', DataRegistry.opened, if_pos hkey]
  · refine .inr ⟨nxsAddress, valid, hkey, ?_⟩
    rw [hw', DataRegistry.opened, if_neg hkey]

omit [Platform] in
theorem World.not_loggedIn_of_account {i : ℕ} {pool : PoolConnection}
    (hself : w.pools[i]? = some pool)
    (hi : w.account i = none) : ¬ pool.mLoggedIn := by
  intro hlogged
  simp [World.account, hself, Option.filter, hlogged] at hi

theorem scoring_of_step {i : ℕ} {receiveBuffer : Bytes} (hnone : loginOf receiveBuffer = none)
    (hi : w.account i = none) (hstep : w.step (.minerData i receiveBuffer) = some (w', out)) :
    Scoring i w w' out := by
  apply processData_scoring (handler_of_step hstep)
  intro packet pool hparse hvalid hself
  refine ⟨fun hlogin => ?_, not_loggedIn_of_account hself hi⟩
  simp [loginOf, hparse, hvalid, hlogin, Option.filter] at hnone

theorem MinerEffect.opensAtMost {i : ℕ} {packet : Packet} (header : packet.mHeader = Packet.login)
    (hi : w.account i = none) (h : MinerEffect w i packet w' out) :
    OpensAtMost w w' ∧ w'.daemon = w.daemon := by
  cases h with
  | reply => exact ⟨.inl rfl, rfl⟩
  | refused self loggedOut registry =>
    rcases registry with rfl | ⟨valid, b, rfl⟩
    · exact ⟨.inl rfl, rfl⟩
    · exact ⟨.opened w valid rfl, rfl⟩
  | loggedIn self loggedOut valid => exact ⟨.opened w valid rfl, rfl⟩
  | getBlock self hgetBlock => exact absurd (header.symm.trans hgetBlock) (by decide)
  | getBalance self loggedIn => exact absurd loggedIn (not_loggedIn_of_account self hi)
  | credited share => exact absurd share.loggedIn (not_loggedIn_of_account share.self hi)
  | accepted share => exact absurd share.loggedIn (not_loggedIn_of_account share.self hi)

theorem refusesStrangers_of_step (hstep : w.step e = some (w', out)) :
    RefusesStrangers ⟨w, e, w', out⟩ := by
  intro i receiveBuffer he hi
  change e = _ at he
  subst he
  cases hlogin : loginOf receiveBuffer with
  | none => exact scoring_of_step hlogin hi hstep
  | some packet =>
    obtain ⟨hparse, hheader⟩ := Option.filter_eq_some_iff.mp hlogin
    obtain ⟨packet', hparse', heffect⟩ := minerEffect_of_processData (handler_of_step hstep)
    cases hparse.symm.trans hparse'
    rw [Bool.and_eq_true, decide_eq_true_eq] at hheader
    exact heffect.opensAtMost hheader.2 hi

theorem LoginEffect.logsIn {i : ℕ} {receiveBuffer nxsAddress : Bytes}
    (hstep : w.step (.minerData i receiveBuffer) = some (w', out)) (loggedOut : w.account i = none)
    (unbanned : ¬ w'.registry.mBannedUsers.isAccountBanned nxsAddress)
    (loggedIn : w'.account i = some nxsAddress) :
    LogsIn i nxsAddress ⟨w, .minerData i receiveBuffer, w', out⟩ := by
  refine ⟨⟨receiveBuffer, rfl, ?_⟩, loggedOut, loggedIn, unbanned⟩
  cases hlogin : loginOf receiveBuffer with
  | some packet => rfl
  | none =>
    obtain ⟨rfl, -⟩ := scoring_of_step hlogin loggedOut hstep
    rw [loggedOut] at loggedIn
    cases loggedIn

theorem Admitted.next {past : History World Event Output} {i : ℕ} {nxsAddress : Bytes}
    (h : Admitted past w i nxsAddress) (hkeeps : w.registry.KeepsRecords w'.registry)
    (o : Occurrence World Event Output) : Admitted (o :: past) w' i nxsAddress where
  valid := h.valid
  recorded := hkeeps nxsAddress h.recorded
  login := by
    obtain ⟨o', ho', hlogin⟩ := h.login
    exact ⟨o', List.mem_cons_of_mem o ho', hlogin⟩

/-- Whoever is logged in after a step was so before, or is by this step. -/
theorem admitted_of_step {past : History World Event Output} (h : SessionSafe past w)
    (heffect : StepEffect w e w' out) (hstep : w.step e = some (w', out)) {i : ℕ}
    {nxsAddress : Bytes}
    (hi : w'.account i = some nxsAddress) : Admitted (⟨w, e, w', out⟩ :: past) w' i nxsAddress := by
  cases heffect.loginEffect with
  | kept accounts =>
    rw [accounts] at hi
    exact (h.admitted i nxsAddress hi).next heffect.keepsRecords _
  | @loggedIn k receiveBuffer address _ loggedOut valid unbanned recorded accounts =>
    by_cases hk : i = k
    · subst hk
      have haddress : address = nxsAddress := by
        rw [accounts, Function.update_self] at hi
        exact Option.some.inj hi
      subst haddress
      exact ⟨valid, recorded, _, List.mem_cons_self,
        LoginEffect.logsIn hstep loggedOut unbanned hi⟩
    · rw [accounts, Function.update_of_ne hk] at hi
      exact (h.admitted i nxsAddress hi).next heffect.keepsRecords _

theorem SessionSafe.next {past : History World Event Output} (h : SessionSafe past w)
    (heffect : StepEffect w e w' out) (hstep : w.step e = some (w', out)) :
    SessionSafe (⟨w, e, w', out⟩ :: past) w' := by
  refine ⟨fun i nxsAddress hi => admitted_of_step h heffect hstep hi,
    fun o ho i nxsAddress hi => ?_, fun o ho => ?_⟩
  · rcases List.mem_cons.mp ho with rfl | ho
    · exact hi
    · exact heffect.account_of_account (h.constant o ho i nxsAddress hi)
  · rcases List.mem_cons.mp ho with rfl | ho
    · exact refusesStrangers_of_step hstep
    · exact h.strangers o ho

end Safety

/-- In every run, whoever is logged in has a valid address with a record, was not banned when
logging in and keeps the address; and whoever is not logged in can do no more than log in. -/
theorem sessionSafe_of_run [Platform] {history : History World Event Output} {w : World}
    (h : ServerRun history w) : SessionSafe history w := by
  induction h with
  | start hinit =>
    obtain ⟨config, blockDb, accountDb, mRoundReward, rfl⟩ := hinit
    refine ⟨fun i nxsAddress hi => ?_, by simp, by simp⟩
    rw [account_init] at hi
    cases hi
  | next hrun hstep ih => exact ih.next (stepEffect_of_run hrun hstep) hstep

section Witness

attribute [local instance] Platform.plain

/-- A miner logs in, asks for a block and gets one. -/
theorem oneBlock_sessionSafe :
    SessionSafe (oneBlock.get oneBlock_isSome).1 (oneBlock.get oneBlock_isSome).2 :=
  sessionSafe_of_run oneBlock_run

end Witness

end NexusPool
