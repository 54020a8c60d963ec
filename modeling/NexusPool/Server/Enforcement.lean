import NexusPool.Network.Ddos
import NexusPool.Server.MinerEffect

/-!
# Bans

Every connection has a DDOS filter, which its handlers score and ban and never ask. Here the
server runs together with the filters and the clock, and what a packet of a banned connection
may still do is compared with what it asks for.
-/

namespace NexusPool

open Reactive World

/-! ### The filters -/

/-- The server with the filter of each connection. -/
structure GuardedWorld where
  world : World
  filters : List LLP.DdosFilter

/-- An event, the time at which it arrives, and what the clock shows while it is handled: to
each call on a filter, in order, and in it to each reading. -/
structure TimedEvent where
  event : Event
  now : ℤ
  clock : ℕ → ℕ → ℤ

namespace GuardedWorld

/-- What a handler has done to the filter of a connection. -/
def filterCall (clock : ℕ → ℤ) (filters : List LLP.DdosFilter) :
    Output → Option (List LLP.DdosFilter)
  | .score i nScore => do
    let filter ← filters[i]?
    let rSCORE ← filter.rSCORE.add nScore (clock 0) (clock 1)
    return filters.set i { filter with rSCORE := rSCORE }
  | .ban i _ => do
    let filter ← filters[i]?
    let filter ← filter.ban clock
    return filters.set i filter
  | _ => some filters

/-- A new connection gets a filter over 30 seconds. -/
def step [Platform] (s : GuardedWorld) (e : TimedEvent) : Option (GuardedWorld × List Output) := do
  let (world, out) ← s.world.step e.event
  let connected := match e.event with
    | .minerConnected _ => s.filters ++ [.new 30 (e.clock 0 0) (e.clock 0 1)]
    | _ => s.filters
  let filters ← out.zipIdx.foldlM
    (fun filters call => filterCall (e.clock call.2) filters call.1) connected
  return (⟨world, filters⟩, out)

def Initial (s : GuardedWorld) : Prop := s.world.Initial ∧ s.filters = []

/-- The filter of the connection says that it is banned, or its address is on the list. -/
def shutsOut (s : GuardedWorld) (i : ℕ) (pool : PoolConnection) (now : ℤ) : Prop :=
  (s.filters[i]?.any (·.banned now)) = true ∨
    s.world.registry.mBannedUsers.isIpAddressBanned pool.mRemoteAddress = true

instance (s : GuardedWorld) (i : ℕ) (pool : PoolConnection) (now : ℤ) :
    Decidable (s.shutsOut i pool now) :=
  inferInstanceAs (Decidable (_ ∨ _))

end GuardedWorld

abbrev GuardedRun [Platform] := Run GuardedWorld.step GuardedWorld.Initial

/-! ### What a ban is to prevent -/

/-- The headers of success responses. -/
def successHeaders : List UInt8 :=
  [Packet.loginSkminerSuccess, Packet.accept, Packet.block, Packet.accountBalance,
    Packet.pendingPayout]

/-- Connection `i` has changed nothing of the accounts and of what the daemon connection is to
do, and it got no success response. -/
structure Refused (i : ℕ) (w w' : World) (out : List Output) : Prop where
  accounts : w'.registry.mAccountDb = w.registry.mAccountDb
  entries : w'.daemon.mPoolConnections = w.daemon.mPoolConnections
  noSuccess : ∀ packet, .toMiner i packet ∈ out → packet.mHeader ∉ successHeaders

/-- The packet is a violation, for which `ddos_invalid_header` bans. -/
def Packet.violates (packet : Packet) : Bool :=
  packet.isValid .miner && (PoolConnection.violations packet).any (·.1)

/-- A packet of a connection with DDOS protection is refused while the connection is banned,
and is not processed if it gets the connection banned. -/
def Enforced (o : Occurrence GuardedWorld TimedEvent Output) : Prop :=
  ∀ i receiveBuffer, o.event.event = .minerData i receiveBuffer →
    ∀ pool, o.before.world.pools[i]? = some pool → pool.mIsDDOS = true →
      (o.before.shutsOut i pool o.event.now → Refused i o.before.world o.after.world o.outputs) ∧
      (∀ packet, Packet.ofBuffer .miner receiveBuffer = some packet → packet.violates = true →
        (o.before.filters[i]?.any (·.banned (o.event.clock 0 0))) = false →
          PoolConnection.ddosInvalidHeader i packet o.before.world =
            some ((), o.after.world, o.outputs))

/-! ### Packets that ask for nothing -/

section Requests

variable [Platform]

def World.failsLogin (w : World) (packet : Packet) : Prop :=
  ∀ nxsAddress, packet.mData = some nxsAddress → Platform.isValidAddress nxsAddress = true →
    w.registry.mAccountDb.hasKey nxsAddress = true ∧
      w.registry.mBannedUsers.isAccountBanned nxsAddress = true

/-- The share has the difficulty of its block, which cannot be submitted, and no weight. -/
def VerifiedShare.gainsNothing {w : World} {i : ℕ} {data : Bytes} (share : VerifiedShare w i data) :
    Prop :=
  share.nDifficulty ≥ Prime.getDifficulty share.block.nBits ∧
    (∃ j, DaemonConnection.findPoolConnection share.pool.mRemoteAddress w = some j ∧
      DaemonConnection.submission w j ≠ none) ∧
    ∃ r, w.registry.account? share.pool.mNxsaddress = some r ∧
      w.registry.account? r.cKey = some (r.addShares (Platform.shareWeight share.nDifficulty))

/-- A request of a miner that is logged in which is not granted. `GET_BLOCK` is harmless where
the entry has the count that it would get. -/
def World.grantsNothing (w : World) (i : ℕ) (pool : PoolConnection) (packet : Packet) : Prop :=
  if packet.mHeader = Packet.getBlock then
    ∃ j poolData, DaemonConnection.findPoolConnection pool.mRemoteAddress w = some j ∧
      w.daemon.mPoolConnections[j]? = some poolData ∧
        poolData.mBlocksRequested = pool.mNumBlocksRequested + 1
  else if packet.mHeader = Packet.submitShare then
    ∀ data, packet.mData = some data → ∀ share : VerifiedShare w i data, share.gainsNothing
  else packet.mHeader ≠ Packet.getBalance ∧ packet.mHeader ≠ Packet.getPayout

/-- The packet does nothing that a ban is to prevent. -/
def World.harmless (w : World) (i : ℕ) (pool : PoolConnection) (packet : Packet) : Prop :=
  packet.isValid .miner = true →
    if packet.mHeader = Packet.login then pool.mLoggedIn = false → w.failsLogin packet
    else pool.mLoggedIn = true → w.grantsNothing i pool packet

/-- A connection with DDOS protection sends nothing harmful while it is banned, and a packet
that gets it banned has a header that no request of a miner that is logged in has. -/
def HarmlessWhenBanned (o : Occurrence GuardedWorld TimedEvent Output) : Prop :=
  ∀ i receiveBuffer, o.event.event = .minerData i receiveBuffer →
    ∀ pool, o.before.world.pools[i]? = some pool → pool.mIsDDOS = true →
      ∀ packet, Packet.ofBuffer .miner receiveBuffer = some packet →
        (o.before.shutsOut i pool o.event.now → o.before.world.harmless i pool packet) ∧
        (packet.violates = true →
          (o.before.filters[i]?.any (·.banned (o.event.clock 0 0))) = false →
          pool.mLoggedIn = true ∧
            packet.mHeader ∉ [Packet.login, Packet.submitPps, Packet.submitShare])

/-! ### The handlers -/

variable {w w' : World} {i : ℕ} {out : List Output} {u : Unit} {packet : Packet}
    {pool : PoolConnection}

omit [Platform] in
/-- What is sent to the filter is no response. -/
theorem Refused.append_iff {front : List Output} (hfront : ∀ packet, .toMiner i packet ∉ front) :
    Refused i w w' (front ++ out) ↔ Refused i w w' out := by
  constructor
  · rintro ⟨haccounts, hentries, hsuccess⟩
    exact ⟨haccounts, hentries, fun packet hmem => hsuccess packet (List.mem_append_right _ hmem)⟩
  · rintro ⟨haccounts, hentries, hsuccess⟩
    refine ⟨haccounts, hentries, fun packet hmem => ?_⟩
    rcases List.mem_append.mp hmem with hmem | hmem
    · exact absurd hmem (hfront packet)
    · exact hsuccess packet hmem

omit [Platform] in
theorem not_refused_of_success {packet : Packet} (hmem : .toMiner i packet ∈ out)
    (hheader : packet.mHeader ∈ successHeaders) : ¬ Refused i w w' out :=
  fun h => h.noSuccess packet hmem hheader

omit [Platform] in
theorem score_eq_some {nScore : ℕ} (h : PoolConnection.score i nScore w = some (u, w', out)) :
    w' = w ∧ ∃ pool, w.pools[i]? = some pool ∧
      out = if pool.mIsDDOS then [.score i nScore] else [] := by
  simp only [PoolConnection.score, Action.bind_eq_some_iff, PoolConnection.self_eq_some_iff] at h
  obtain ⟨pool, _, _, _, ⟨hself, rfl, rfl⟩, h, rfl⟩ := h
  split_ifs at h with hddos
  · obtain ⟨rfl, rfl⟩ := Action.send_eq_some_iff.mp h
    exact ⟨rfl, pool, hself, by simp [hddos]⟩
  · obtain ⟨-, rfl, rfl⟩ := Action.pure_eq_some_iff.mp h
    exact ⟨rfl, pool, hself, by simp [hddos]⟩

omit [Platform] in
theorem score_outputs {nScore : ℕ} (hself : w.pools[i]? = some pool) (hddos : pool.mIsDDOS = true)
    (h : PoolConnection.score i nScore w = some (u, w', out)) : out ≠ [] := by
  obtain ⟨-, pool', hself', rfl⟩ := score_eq_some h
  cases hself.symm.trans hself'
  simp [hddos]

omit [Platform] in
theorem Scoring.toMiner_notMem (h : Scoring i w w' out) (packet : Packet) :
    .toMiner i packet ∉ out := by
  intro hmem
  obtain ⟨nScore, hscore⟩ | ⟨message, hban⟩ := h.2 _ hmem
  · cases hscore
  · cases hban

/-- A reply that is no success, or a change of a DDOS filter. -/
def Denial (i : ℕ) (o : Output) : Prop :=
  ∀ packet, o = .toMiner i packet → packet.mHeader ∉ successHeaders

omit [Platform] in
theorem denial_toMiner (hdenied : packet.mHeader ∉ successHeaders) :
    Denial i (.toMiner i packet) := by
  rintro packet' h
  cases h
  exact hdenied

/-- Nothing was changed, and what was sent is no success. -/
def Denying (i : ℕ) : World → World → List Output → Prop := Action.Only (Denial i)

namespace Denying

omit [Platform] in
theorem refused (h : Denying i w w' out) : Refused i w w' out := by
  obtain ⟨rfl, hout⟩ := h
  exact ⟨rfl, rfl, fun packet hmem => hout _ hmem packet rfl⟩

omit [Platform] in
theorem composes (i : ℕ) : Action.Composes (Denying i) := Action.Only.composes (Denial i)

omit [Platform] in
theorem transmit (hdenied : packet.mHeader ∉ successHeaders) :
    Action.Ensures (Denying i) (PoolConnection.transmit i packet) :=
  PoolConnection.only_transmit (denial_toMiner hdenied)

omit [Platform] in
theorem score (i nScore : ℕ) : Action.Ensures (Denying i) (PoolConnection.score i nScore) :=
  PoolConnection.only_score fun _ h => by cases h

omit [Platform] in
theorem refuseShare {verdict : UInt8} (hdenied : verdict ∉ successHeaders) (nScore : ℕ) :
    Action.Ensures (Denying i) (PoolConnection.refuseShare i verdict nScore) := by
  apply PoolConnection.only_refuseShare (denial_toMiner hdenied)
  · intro height
    exact denial_toMiner (by decide : Packet.newBlock ∉ successHeaders)
  · intro packet h
    cases h

omit [Platform] in
theorem submitPps (packet : Packet) : Action.Ensures (Denying i)
    (Action.ofOption packet.mData >>= fun data => PoolConnection.handleSubmitPps i data) := by
  refine .bind (composes i) (.ofOption (composes i) _) fun data => ?_
  exact PoolConnection.only_handleSubmitPps (denial_toMiner (by decide)) data

end Denying

omit [Platform] in
theorem opened_eq_iff (r : DataRegistry) (nxsAddress : Bytes) :
    (r.opened nxsAddress).mAccountDb = r.mAccountDb ↔ r.mAccountDb.hasKey nxsAddress = true := by
  unfold DataRegistry.opened
  split_ifs with hkey
  · simp [hkey]
  · constructor
    · intro h
      have hopened : (r.mAccountDb.updateRecord (.new nxsAddress)).hasKey nxsAddress = true := by
        rw [Database.hasKey_updateRecord]
        simp [Record.cKey, Account.new]
      exact (congrArg (·.hasKey nxsAddress) h).symm.trans hopened
    · intro h
      exact absurd h hkey

omit [Platform] in
theorem refuseLogin_eq_some (h : PoolConnection.refuseLogin i w = some (u, w', out)) :
    w' = w ∧ out = [.toMiner i (.getPacket Packet.loginSkminerFail)] :=
  PoolConnection.transmit_eq_some h

omit [Platform] in
/-- A valid address: the account is opened, and the login succeeds unless it is banned. -/
theorem admitLogin_refused_iff {nxsAddress : Bytes}
    (h : PoolConnection.admitLogin i nxsAddress w = some (u, w', out)) :
    Refused i w w' out ↔ w.registry.mAccountDb.hasKey nxsAddress = true ∧
      w.registry.mBannedUsers.isAccountBanned nxsAddress = true := by
  have hbans : (w.registry.opened nxsAddress).mBannedUsers = w.registry.mBannedUsers := by
    rw [DataRegistry.opened_eq]
  simp only [PoolConnection.admitLogin, Action.bind_eq_some_iff, PoolConnection.self_eq_some_iff,
    registryCall_eq_some_iff, Action.get_eq_some_iff, exec_openAccount] at h
  obtain ⟨pool, _, _, _, ⟨-, rfl, rfl⟩, ⟨_, _, _, _, ⟨-, rfl, rfl⟩,
    ⟨_, _, _, _, ⟨rfl, rfl, rfl⟩, h, rfl⟩, rfl⟩, rfl⟩ := h
  rw [hbans] at h
  split_ifs at h with hbanned
  · simp only [Action.bind_eq_some_iff, Action.send_eq_some_iff] at h
    obtain ⟨_, w₁, out₁, _, hip, ⟨_, _, _, out₂, ⟨rfl, rfl⟩, hrefuse, rfl⟩, rfl⟩ := h
    obtain ⟨⟨b, rfl⟩, rfl⟩ := banIpAddress_registry hip
    obtain ⟨rfl, rfl⟩ := refuseLogin_eq_some hrefuse
    constructor
    · rintro ⟨haccounts, -, -⟩
      exact ⟨(opened_eq_iff _ _).mp haccounts, hbanned⟩
    · rintro ⟨hkey, -⟩
      refine ⟨(opened_eq_iff _ _).mpr hkey, rfl, ?_⟩
      simp [successHeaders, Packet.getPacket]
      decide
  · simp only [Action.bind_eq_some_iff, Action.modify_eq_some_iff] at h
    obtain ⟨_, _, _, _, ⟨rfl, rfl⟩, hsuccess, rfl⟩ := h
    obtain ⟨rfl, rfl⟩ := PoolConnection.transmit_eq_some hsuccess
    constructor
    · intro hrefused
      refine absurd hrefused (@not_refused_of_success _ _ _ _
        (.getPacket Packet.loginSkminerSuccess) ?_ ?_)
      · simp
      · decide
    · rintro ⟨-, h⟩
      exact absurd h hbanned

/-- A login is refused if it fails without opening an account. -/
theorem handleLogin_refused_iff (hself : w.pools[i]? = some pool)
    (h : PoolConnection.handleLogin i packet w = some (u, w', out)) :
    Refused i w w' out ↔ (pool.mLoggedIn = false → w.failsLogin packet) := by
  simp only [PoolConnection.handleLogin, Action.bind_eq_some_iff,
    PoolConnection.self_eq_some_iff] at h
  obtain ⟨pool', w, _, _, ⟨hself', rfl, rfl⟩, h, rfl⟩ := h
  cases hself.symm.trans hself'
  split_ifs at h with hlogged
  · have hscore := (Denying.score i 10 _ _ _ _ h).refused
    simp [hlogged, hscore]
  · simp only [Action.bind_eq_some_iff, Action.ofOption_eq_some_iff, Action.modify_eq_some_iff] at h
    obtain ⟨nxsAddress, w, _, _, ⟨hdata, rfl, rfl⟩, ⟨_, _, _, _, ⟨rfl, rfl⟩, h, rfl⟩, rfl⟩ := h
    have hfails : (pool.mLoggedIn = false → w.failsLogin packet) ↔
        (Platform.isValidAddress nxsAddress = true →
          w.registry.mAccountDb.hasKey nxsAddress = true ∧
            w.registry.mBannedUsers.isAccountBanned nxsAddress = true) := by
      simp [World.failsLogin, hlogged, hdata]
    rw [hfails]
    split_ifs at h with hvalid
    · have hpool : Refused i (w.modifyPool i ({ · with mNxsaddress := nxsAddress })) w' out ↔
          Refused i w w' out :=
        ⟨fun h => ⟨h.accounts, h.entries, h.noSuccess⟩,
          fun h => ⟨h.accounts, h.entries, h.noSuccess⟩⟩
      rw [← hpool, admitLogin_refused_iff h]
      exact (imp_iff_right hvalid).symm
    · simp only [Action.bind_eq_some_iff] at h
      obtain ⟨_, w₁, out₁, out₂, hban, hrefuse, rfl⟩ := h
      have hbans := Scoring.banAddress i _ _ _ _ hban
      obtain ⟨rfl, -⟩ := id hbans
      obtain ⟨rfl, rfl⟩ := refuseLogin_eq_some hrefuse
      have hrefused : Refused i w (w.modifyPool i ({ · with mNxsaddress := nxsAddress }))
          [.toMiner i (.getPacket Packet.loginSkminerFail)] := by
        refine ⟨rfl, rfl, ?_⟩
        simp [successHeaders, Packet.getPacket]
        decide
      simp only [Refused.append_iff hbans.toMiner_notMem, hrefused, hvalid, true_iff]
      exact fun h => absurd h Bool.false_ne_true

omit [Platform] in
theorem modify_eq_self_iff {α : Type} {f : α → α} {items : List α} {j : ℕ} {a : α}
    (ha : items[j]? = some a) : items.modify j f = items ↔ f a = a := by
  constructor
  · intro h
    have hj := congrArg (·[j]?) h
    simpa [ha] using hj
  · intro h
    apply List.ext_getElem?
    intro k
    rw [List.getElem?_modify]
    by_cases hk : j = k
    · simp [← hk, ha, h]
    · simp [hk]

omit [Platform] in
theorem handleGetBlock_refused_iff (hself : w.pools[i]? = some pool)
    (h : PoolConnection.handleGetBlock i w = some (u, w', out)) :
    Refused i w w' out ↔ ∃ j poolData,
      DaemonConnection.findPoolConnection pool.mRemoteAddress w = some j ∧
        w.daemon.mPoolConnections[j]? = some poolData ∧
          poolData.mBlocksRequested = pool.mNumBlocksRequested + 1 := by
  obtain ⟨pool', j, hself', hentry, rfl, rfl⟩ := handleGetBlock_eq_some h
  cases hself.symm.trans hself'
  obtain ⟨hj, -⟩ := List.findIdx?_eq_some_iff_getElem.mp hentry
  have hpoolData := List.getElem?_eq_getElem hj
  have hentries := @modify_eq_self_iff _ (fun poolData : PoolConnectionData =>
    { poolData with mBlocksRequested := pool.mNumBlocksRequested + 1 }) _ _ _ hpoolData
  constructor
  · rintro ⟨-, h, -⟩
    have hsame := hentries.mp h
    exact ⟨j, _, hentry, hpoolData, congrArg PoolConnectionData.mBlocksRequested hsame.symm⟩
  · rintro ⟨j', poolData, hentry', hpoolData', hcount⟩
    cases hentry.symm.trans hentry'
    cases hpoolData.symm.trans hpoolData'
    refine ⟨rfl, hentries.mpr ?_, by simp⟩
    rw [← hcount]

theorem creditShare_refused_iff {data : Bytes} (share : VerifiedShare w i data)
    (h : PoolConnection.creditShare i share.block share.nNonce
      (PoolConnection.hashPrime share.hashPrimeOrigin share.nNonce) share.nDifficulty w =
        some (u, w', out)) : Refused i w w' out ↔ share.gainsNothing := by
  have haccounts : share.credited.registry.mAccountDb = w.registry.mAccountDb ↔
      ∃ r, w.registry.account? share.pool.mNxsaddress = some r ∧
        w.registry.account? r.cKey =
          some (r.addShares (Platform.shareWeight share.nDifficulty)) := by
    change w.registry.mAccountDb.modifyRecord share.pool.mNxsaddress
      (·.addShares (Platform.shareWeight share.nDifficulty)) = w.registry.mAccountDb ↔ _
    exact Database.modifyRecord_eq_self_iff
  unfold VerifiedShare.gainsNothing
  rw [← haccounts]
  obtain ⟨hdifficulty, j, hentry, ⟨hfull, rfl, rfl⟩ | ⟨hfree, rfl, rfl⟩⟩ |
    ⟨hdifficulty, rfl, rfl⟩ :=
    creditShare_cases share h
  · constructor
    · rintro ⟨hsame, -, -⟩
      exact ⟨hdifficulty, ⟨j, hentry, hfull⟩, hsame⟩
    · rintro ⟨-, -, hsame⟩
      exact ⟨hsame, rfl, by simp⟩
  · constructor
    · intro hrefused
      refine absurd hrefused (@not_refused_of_success _ _ _ _ (.getPacket Packet.block) ?_ ?_)
      · simp
      · decide
    · rintro ⟨-, ⟨j', hentry', hfull⟩, -⟩
      cases hentry.symm.trans hentry'
      exact absurd hfree hfull
  · constructor
    · intro hrefused
      refine absurd hrefused (@not_refused_of_success _ _ _ _ (.getPacket Packet.accept) ?_ ?_)
      · simp
      · decide
    · rintro ⟨h, -⟩
      exact absurd h hdifficulty

theorem VerifiedShare.handleSubmitShare_eq {data : Bytes} (share : VerifiedShare w i data) :
    PoolConnection.handleSubmitShare i data w =
      PoolConnection.creditShare i share.block share.nNonce
      (PoolConnection.hashPrime share.hashPrimeOrigin share.nNonce) share.nDifficulty w := by
  unfold PoolConnection.handleSubmitShare
  have hself : PoolConnection.self i w = some (share.pool, w, []) := by
    simp [share.self]
  rw [Action.bind_of_eq_some hself, share.read, Action.bind_of_eq_some rfl]
  simp only [share.requested]
  rw [Action.get_bind, if_neg (not_not.mpr share.current), if_neg share.fresh, share.verified,
    Action.bind_of_eq_some rfl, if_pos share.sufficient]

theorem handleSubmitShare_refused_iff {data : Bytes} (hself : w.pools[i]? = some pool)
    (hlogged : pool.mLoggedIn) (h : PoolConnection.handleSubmitShare i data w = some (u, w', out)) :
    Refused i w w' out ↔ ∀ share : VerifiedShare w i data, share.gainsNothing := by
  by_cases hverified : Nonempty (VerifiedShare w i data)
  · obtain ⟨share⟩ := hverified
    constructor
    · intro hrefused share'
      rw [share'.handleSubmitShare_eq] at h
      exact (creditShare_refused_iff share' h).mp hrefused
    · intro hnothing
      rw [share.handleSubmitShare_eq] at h
      exact (creditShare_refused_iff share h).mpr (hnothing share)
  · have hnone : ∀ share : VerifiedShare w i data, share.gainsNothing := fun share =>
      absurd ⟨share⟩ hverified
    rw [iff_true_right hnone]
    obtain ⟨verdict, nScore, hverdict, h⟩ | h | h | ⟨share, -⟩ :=
      handleSubmitShare_cases hself hlogged h
    · have hdenied : verdict ∉ successHeaders := by
        fin_cases hverdict <;> decide
      exact (Denying.refuseShare hdenied nScore _ _ _ _ h).refused
    · have hreject : Action.Ensures (Denying i)
          (PoolConnection.transmit i (.getPacket Packet.reject)) :=
        Denying.transmit (by decide)
      exact (hreject.bind (Denying.composes i) fun _ => Denying.score i 5) _ _ _ _ h |>.refused
    · refine ((Denying.score i 5).bind (Denying.composes i) fun _ => ?_) _ _ _ _ h |>.refused
      exact Denying.transmit (by decide)
    · exact absurd ⟨share⟩ hverified

omit [Platform] in
theorem handleGetBalance_not_refused
    (h : PoolConnection.handleGetBalance i w = some (u, w', out)) : ¬ Refused i w w' out := by
  simp only [PoolConnection.handleGetBalance, Action.bind_eq_some_iff,
    PoolConnection.self_eq_some_iff, registryCall_eq_some_iff] at h
  obtain ⟨pool, _, _, _, ⟨-, rfl, rfl⟩, ⟨_, _, _, _, ⟨-, rfl, rfl⟩, htransmit, rfl⟩, rfl⟩ := h
  obtain ⟨rfl, rfl⟩ := PoolConnection.transmit_eq_some htransmit
  refine not_refused_of_success (List.mem_singleton_self _) ?_
  exact (by decide : Packet.accountBalance ∈ successHeaders)

omit [Platform] in
theorem handleGetPayout_not_refused
    (h : PoolConnection.handleGetPayout i w = some (u, w', out)) : ¬ Refused i w w' out := by
  simp only [PoolConnection.handleGetPayout, Action.bind_eq_some_iff,
    PoolConnection.self_eq_some_iff, registryCall_eq_some_iff] at h
  obtain ⟨pool, _, _, _, ⟨-, rfl, rfl⟩, ⟨_, _, _, _, ⟨-, rfl, rfl⟩, htransmit, rfl⟩, rfl⟩ := h
  obtain ⟨rfl, rfl⟩ := PoolConnection.transmit_eq_some htransmit
  refine not_refused_of_success (List.mem_singleton_self _) ?_
  exact (by decide : Packet.pendingPayout ∈ successHeaders)

theorem handleRequest_refused_iff (hself : w.pools[i]? = some pool) (hlogged : pool.mLoggedIn)
    (h : PoolConnection.handleRequest i packet w = some (u, w', out)) :
    Refused i w w' out ↔ w.grantsNothing i pool packet := by
  have hother : packet.mHeader ≠ Packet.getBlock → packet.mHeader ≠ Packet.submitShare →
      (w.grantsNothing i pool packet ↔
        packet.mHeader ≠ Packet.getBalance ∧ packet.mHeader ≠ Packet.getPayout) := by
    intro hgetBlock hsubmitShare
    rw [World.grantsNothing, if_neg hgetBlock, if_neg hsubmitShare]
  unfold PoolConnection.handleRequest at h
  split_ifs at h with hgetBlock hgetBalance hgetPayout hping hsubmitPps hsubmitShare
  · rw [handleGetBlock_refused_iff hself h, World.grantsNothing, if_pos hgetBlock]
  · rw [hother hgetBlock (by rw [hgetBalance]; decide)]
    have hnot : ¬ Refused i w w' out := handleGetBalance_not_refused h
    exact iff_of_false hnot fun h => h.1 hgetBalance
  · rw [hother hgetBlock (by rw [hgetPayout]; decide)]
    have hnot : ¬ Refused i w w' out := handleGetPayout_not_refused h
    exact iff_of_false hnot fun h => h.2 hgetPayout
  · rw [hother hgetBlock (by rw [hping]; decide)]
    have hdenied : Action.Ensures (Denying i)
        (PoolConnection.transmit i (.getPacket Packet.ping)) :=
      Denying.transmit (by decide)
    exact iff_of_true (hdenied _ _ _ _ h).refused ⟨hgetBalance, hgetPayout⟩
  · rw [hother hgetBlock (by rw [hsubmitPps]; decide)]
    exact iff_of_true (Denying.submitPps packet _ _ _ _ h).refused ⟨hgetBalance, hgetPayout⟩
  · simp only [Action.bind_eq_some_iff, Action.ofOption_eq_some_iff] at h
    obtain ⟨data, _, _, _, ⟨hdata, rfl, rfl⟩, h, rfl⟩ := h
    rw [handleSubmitShare_refused_iff hself hlogged h, World.grantsNothing,
      if_neg hgetBlock, if_pos hsubmitShare]
    simp [hdata]
  · rw [hother hgetBlock hsubmitShare]
    exact iff_of_true (Action.Ensures.pure (Denying.composes i) _ _ _ _ _ h).refused
      ⟨hgetBalance, hgetPayout⟩

/-- A packet is refused exactly if it is harmless, whether there is a ban or not. -/
theorem processData_refused_iff {receiveBuffer : Bytes} (hself : w.pools[i]? = some pool)
    (hparse : Packet.ofBuffer .miner receiveBuffer = some packet)
    (h : PoolConnection.processData i receiveBuffer w = some (u, w', out)) :
    Refused i w w' out ↔ w.harmless i pool packet := by
  unfold World.harmless
  obtain ⟨packet', hparse', ⟨hinvalid, hscore⟩ |
    ⟨hvalid, pool', bans, rest, hself', hbans, rfl, hrest⟩⟩ :=
    processData_eq_some h
  · cases hparse.symm.trans hparse'
    have hrefused := (Denying.score i 10 _ _ _ _ hscore).refused
    simp [hrefused, hinvalid]
  · cases hparse.symm.trans hparse'
    cases hself.symm.trans hself'
    have hfilter := Scoring.ddosInvalidHeader i packet _ _ _ _ hbans
    rw [Refused.append_iff hfilter.toMiner_notMem, imp_iff_right hvalid]
    split_ifs at hrest ⊢ with hlogin hlogged
    · exact handleLogin_refused_iff hself hrest
    · rw [imp_iff_right hlogged]
      exact handleRequest_refused_iff hself hlogged hrest
    · have hrefused := (Denying.score i 10 _ _ _ _ hrest).refused
      exact iff_of_true hrefused fun h => absurd h hlogged

/-! ### Packets that get the connection banned -/

omit [Platform] in
theorem Packet.mLength_of_isValid {peer : Peer} (hvalid : packet.isValid peer = true)
    (hheader : 128 ≤ packet.mHeader) : packet.mLength = 0 := by
  have hlow : ¬ packet.mHeader < 128 := UInt8.not_lt.mpr hheader
  have hzero : packet.mHeader ≠ 0 := by
    intro h
    exact absurd (h ▸ hheader) (by decide)
  simp only [Packet.isValid, hlow, hzero, decide_eq_true_eq] at hvalid
  obtain ⟨-, h, -⟩ | ⟨h, -⟩ | ⟨-, -, h⟩ := hvalid
  · exact h.elim
  · exact h.elim
  · exact h

omit [Platform] in
/-- A violation is none of the requests without data. -/
theorem Packet.violates_header (h : packet.violates = true) :
    packet.mHeader ∉ [Packet.getBlock, Packet.getBalance, Packet.getPayout, Packet.ping] := by
  obtain ⟨mHeader, mLength, mData⟩ := packet
  intro hmem
  change mHeader ∈ _ at hmem
  have hhigh :
      [Packet.getBlock, Packet.getBalance, Packet.getPayout, Packet.ping].Forall fun mHeader =>
        128 ≤ mHeader ∧ (PoolConnection.violations ⟨mHeader, 0, none⟩).any (·.1) = false := by
    refine ⟨?_, ?_, ?_, ?_⟩ <;> decide
  obtain ⟨hheader, hnone⟩ := List.forall_iff_forall_mem.mp hhigh mHeader hmem
  simp only [Packet.violates, Bool.and_eq_true] at h
  obtain ⟨hvalid, h⟩ := h
  cases Packet.mLength_of_isValid hvalid hheader
  exact absurd (hnone.symm.trans h) (by decide)

omit [Platform] in
theorem transmit_sends (i : ℕ) (packet : Packet) :
    Action.Sends (PoolConnection.transmit i packet) :=
  .bind_right fun _ => .bind_right fun _ => .send _

omit [Platform] in
theorem admitLogin_sends (i : ℕ) (nxsAddress : Bytes) :
    Action.Sends (PoolConnection.admitLogin i nxsAddress) := by
  refine .bind_right fun pool => .bind_right fun _ => .bind_right fun w => .ite ?_ ?_
  · exact .bind_right fun _ => .bind_left (.send _) _
  · exact .bind_right fun _ => transmit_sends i _

theorem handleLogin_outputs (hself : w.pools[i]? = some pool) (hddos : pool.mIsDDOS = true)
    (h : PoolConnection.handleLogin i packet w = some (u, w', out)) : out ≠ [] := by
  simp only [PoolConnection.handleLogin, Action.bind_eq_some_iff,
    PoolConnection.self_eq_some_iff] at h
  obtain ⟨pool', w, _, out, ⟨hself', rfl, rfl⟩, h, rfl⟩ := h
  cases hself.symm.trans hself'
  split_ifs at h with hlogged
  · exact score_outputs hself hddos h
  · have hsends : ∀ nxsAddress, Action.Sends (if Platform.isValidAddress nxsAddress then
        PoolConnection.admitLogin i nxsAddress
        else PoolConnection.banAddress i >>= fun _ => PoolConnection.refuseLogin i) :=
      fun nxsAddress => .ite (admitLogin_sends i nxsAddress)
        (.bind_right fun _ => transmit_sends i _)
    exact (Action.Sends.bind_right fun nxsAddress => .bind_right fun _ =>
      hsends nxsAddress) _ _ _ _ h

theorem handleSubmitShare_changes {data : Bytes} (hself : w.pools[i]? = some pool)
    (hlogged : pool.mLoggedIn) (h : PoolConnection.handleSubmitShare i data w = some (u, w', out)) :
    out ≠ [] ∨ w' ≠ w := by
  obtain ⟨verdict, nScore, -, h⟩ | h | h | ⟨share, h⟩ := handleSubmitShare_cases hself hlogged h
  · have hsends : Action.Sends (PoolConnection.refuseShare i verdict nScore) :=
      .bind_right fun _ => .bind_left (transmit_sends i _) _
    exact .inl (hsends _ _ _ _ h)
  · exact .inl ((transmit_sends i _).bind_left _ _ _ _ _ h)
  · exact .inl ((Action.Sends.bind_right fun _ => transmit_sends i _) _ _ _ _ h)
  · obtain ⟨-, j, -, ⟨-, rfl, rfl⟩ | ⟨-, -, rfl⟩⟩ | ⟨-, -, rfl⟩ := creditShare_cases share h
    · refine .inr fun hsame => ?_
      have hpools : (share.credited.pools[i]?).map (·.mPrimes.length) =
          (w.pools[i]?).map (·.mPrimes.length) := by rw [hsame]
      change (((w.modifyPool i _).pools[i]?).map _) = _ at hpools
      rw [getElem?_modifyPool, if_pos rfl, share.self] at hpools
      simp at hpools
    · exact .inl (List.cons_ne_nil _ _)
    · exact .inl (List.cons_ne_nil _ _)

/-- Only a header that no request has is ignored. -/
theorem handleRequest_nothing_iff (hself : w.pools[i]? = some pool) (hlogged : pool.mLoggedIn)
    (hlogin : packet.mHeader ≠ Packet.login)
    (hheader : packet.mHeader ∉ [Packet.getBlock, Packet.getBalance, Packet.getPayout, Packet.ping])
    (h : PoolConnection.handleRequest i packet w = some (u, w', out)) :
    w' = w ∧ out = [] ↔
      packet.mHeader ∉ [Packet.login, Packet.submitPps, Packet.submitShare] := by
  unfold PoolConnection.handleRequest at h
  split_ifs at h with hgetBlock hgetBalance hgetPayout hping hsubmitPps hsubmitShare
  · simp [hgetBlock] at hheader
  · simp [hgetBalance] at hheader
  · simp [hgetPayout] at hheader
  · simp [hping] at hheader
  · have hsends : Action.Sends (Action.ofOption packet.mData >>= fun data =>
        PoolConnection.handleSubmitPps i data) :=
      .bind_right fun _ => .bind_right fun _ => transmit_sends i _
    have hsent := hsends _ _ _ _ h
    simp [hsubmitPps, hsent]
  · simp only [Action.bind_eq_some_iff, Action.ofOption_eq_some_iff] at h
    obtain ⟨data, _, _, _, ⟨-, rfl, rfl⟩, h, rfl⟩ := h
    have hchanges := handleSubmitShare_changes hself hlogged h
    refine iff_of_false ?_ (by simp [hsubmitShare])
    rintro ⟨hsame, hnone⟩
    exact hchanges.elim (absurd hnone) (absurd hsame)
  · obtain ⟨-, rfl, rfl⟩ := Action.pure_eq_some_iff.mp h
    simp [hlogin, hsubmitPps, hsubmitShare]

/-- A packet that bans its connection is left at that only where a miner that is logged in
sends a header that no request has. -/
theorem processData_eq_ban_iff {receiveBuffer : Bytes} (hself : w.pools[i]? = some pool)
    (hddos : pool.mIsDDOS = true) (hparse : Packet.ofBuffer .miner receiveBuffer = some packet)
    (hviolates : packet.violates = true)
    (h : PoolConnection.processData i receiveBuffer w = some (u, w', out)) :
    PoolConnection.ddosInvalidHeader i packet w = some ((), w', out) ↔ pool.mLoggedIn = true ∧
      packet.mHeader ∉ [Packet.login, Packet.submitPps, Packet.submitShare] := by
  obtain ⟨packet', hparse', ⟨hinvalid, -⟩ | ⟨-, pool', bans, rest, hself', hbans, rfl, hrest⟩⟩ :=
    processData_eq_some h
  · cases hparse.symm.trans hparse'
    simp [Packet.violates, hinvalid] at hviolates
  · cases hparse.symm.trans hparse'
    cases hself.symm.trans hself'
    have hnothing : PoolConnection.ddosInvalidHeader i packet w = some ((), w', bans ++ rest) ↔
        w' = w ∧ rest = [] := by
      rw [hbans]
      simp [eq_comm]
    rw [hnothing]
    split_ifs at hrest with hlogin hlogged
    · have hsent : rest ≠ [] := handleLogin_outputs hself hddos hrest
      simp [hlogin, hsent]
    · rw [and_iff_right hlogged]
      exact handleRequest_nothing_iff hself hlogged hlogin (Packet.violates_header hviolates) hrest
    · have hsent : rest ≠ [] := score_outputs hself hddos hrest
      simp [hlogged, hsent]

/-! ### Runs -/

theorem world_step {s s' : GuardedWorld} {e : TimedEvent} {out : List Output}
    (h : s.step e = some (s', out)) : s.world.step e.event = some (s'.world, out) := by
  simp only [GuardedWorld.step, Option.bind_eq_bind, Option.bind_eq_some_iff] at h
  obtain ⟨⟨world, out'⟩, hworld, filters, -, hpure⟩ := h
  cases hpure
  exact hworld

/-- A step enforces the bans exactly if there was nothing to enforce. -/
theorem enforced_step_iff {s s' : GuardedWorld} {e : TimedEvent} {out : List Output}
    (hstep : s.step e = some (s', out)) :
    Enforced ⟨s, e, s', out⟩ ↔ HarmlessWhenBanned ⟨s, e, s', out⟩ := by
  have hhandler := handler_of_step (world_step hstep)
  unfold Enforced HarmlessWhenBanned
  dsimp only
  refine forall_congr' fun i => forall_congr' fun receiveBuffer => forall_congr' fun hevent => ?_
  refine forall_congr' fun pool => forall_congr' fun hself => forall_congr' fun hddos => ?_
  rw [hevent] at hhandler
  change PoolConnection.processData i receiveBuffer s.world = _ at hhandler
  obtain ⟨packet, hparse, -⟩ := processData_eq_some hhandler
  have hrefused := processData_refused_iff hself hparse hhandler
  constructor
  · rintro ⟨hbanned, hbans⟩ packet' hparse'
    cases hparse.symm.trans hparse'
    refine ⟨fun hout => hrefused.mp (hbanned hout), fun hviolates hfresh => ?_⟩
    exact (processData_eq_ban_iff hself hddos hparse hviolates hhandler).mp
      (hbans packet hparse hviolates hfresh)
  · intro h
    refine ⟨fun hout => hrefused.mpr ((h packet hparse).1 hout), fun packet' hparse' => ?_⟩
    cases hparse.symm.trans hparse'
    intro hviolates hfresh
    exact (processData_eq_ban_iff hself hddos hparse hviolates hhandler).mpr
      ((h packet hparse).2 hviolates hfresh)

/-- Bans are enforced in a run exactly if there is nothing to enforce in it. -/
theorem enforced_iff {history : History GuardedWorld TimedEvent Output} {s : GuardedWorld}
    (h : GuardedRun history s) : Throughout (fun _ o => Enforced o) history ↔
      Throughout (fun _ o => HarmlessWhenBanned o) history := by
  apply Throughout.congr
  induction h with
  | start => trivial
  | next hpast hstep ih => exact ⟨enforced_step_iff hstep, ih⟩

end Requests

section Violation

attribute [local instance] Platform.plain

def protectedWorld : GuardedWorld :=
  ⟨World.init (DataRegistry.init ⟨0, 0, true⟩ .empty .empty) 0, []⟩

theorem protectedWorld_initial : protectedWorld.Initial := ⟨⟨_, _, _, _, rfl⟩, rfl⟩

def sendsAt (seconds : ℤ) (packet : Packet) : TimedEvent :=
  ⟨.minerData 0 packet.wire, seconds * 1000000000, fun _ _ => seconds * 1000000000⟩

def connectsAt (seconds : ℤ) : TimedEvent :=
  ⟨.minerConnected [1], seconds * 1000000000, fun _ _ => seconds * 1000000000⟩

/-- `ACCEPT` is no request: it gets the connection banned. -/
def unasked : Packet := .getPacket Packet.accept

/-- The miner logs in, is banned, and then only pings. -/
def bannedRun : Option (History GuardedWorld TimedEvent Output × GuardedWorld) :=
  trace GuardedWorld.step protectedWorld
    [connectsAt 100, sendsAt 101 (.withData Packet.login [1]), sendsAt 102 unasked,
      sendsAt 103 (.getPacket Packet.ping)]

theorem bannedRun_isSome : bannedRun.isSome := by decide +kernel

theorem bannedRun_run : GuardedRun (bannedRun.get bannedRun_isSome).1
    (bannedRun.get bannedRun_isSome).2 :=
  Run.of_trace protectedWorld_initial (Option.some_get _).symm

/-- A ping, or nothing that is banned; a violation only from a miner that is logged in. -/
def pings (o : Occurrence GuardedWorld TimedEvent Output) : Bool :=
  match o.event.event with
  | .minerData i receiveBuffer =>
    (o.before.world.pools[i]?).all fun pool =>
      (Packet.ofBuffer .miner receiveBuffer).all fun packet =>
        (packet.mHeader = Packet.ping || !decide (o.before.shutsOut i pool o.event.now)) &&
          (!packet.violates || pool.mLoggedIn && packet.mHeader = Packet.accept)
  | _ => true

theorem harmlessWhenBanned_of_pings {o : Occurrence GuardedWorld TimedEvent Output}
    (h : pings o = true) : HarmlessWhenBanned o := by
  intro i receiveBuffer hevent pool hself hddos packet hparse
  simp only [pings, hevent, hself, hparse, Option.all_some, Bool.and_eq_true, Bool.or_eq_true,
    decide_eq_true_eq, Bool.not_eq_true', decide_eq_false_iff_not] at h
  obtain ⟨hping, hviolation⟩ := h
  constructor
  · intro hout hvalid
    have hheader := hping.resolve_right (not_not.mpr hout)
    rw [if_neg (by rw [hheader]; decide)]
    intro hlogged
    rw [World.grantsNothing, hheader, if_neg (by decide), if_neg (by decide)]
    decide
  · intro hviolates hfresh
    have hheader := hviolation.resolve_left (ne_true_of_eq_false · hviolates)
    refine ⟨hheader.1, ?_⟩
    rw [hheader.2]
    decide

theorem bannedRun_pings : ∀ o ∈ (bannedRun.get bannedRun_isSome).1, pings o = true := by
  rw [← List.all_eq_true]
  decide +kernel

attribute [local irreducible] bannedRun

/-- What the miner sends while it is banned is answered, and does no harm. -/
theorem bannedRun_enforced :
    Throughout (fun _ o => Enforced o) (bannedRun.get bannedRun_isSome).1 := by
  apply (enforced_iff bannedRun_run).mpr
  apply Throughout.iff_forall.mpr
  intro o ho
  exact harmlessWhenBanned_of_pings (bannedRun_pings o ho)

/-- The last packet is from a connection that is banned, and its login succeeds. -/
def admitsBanned : History GuardedWorld TimedEvent Output → Bool
  | [] => false
  | o :: _ =>
    match o.event.event with
    | .minerData i _ => o.outputs.contains (.toMiner i (.getPacket Packet.loginSkminerSuccess)) &&
        (o.before.world.pools[i]?).any fun pool =>
          pool.mIsDDOS && decide (o.before.shutsOut i pool o.event.now)
    | _ => false

/-- A miner that was banned a second ago logs in. -/
theorem bannedLogin_not_enforced : ¬ ∀ (platform : Platform) history s,
    @GuardedRun platform history s → Throughout (fun _ o => Enforced o) history := by
  intro h
  obtain ⟨history, s, hrun, hp⟩ : ∃ history s, GuardedRun history s ∧ admitsBanned history = true :=
    exists_run_of_trace protectedWorld_initial
      [connectsAt 100, sendsAt 101 unasked, sendsAt 102 (.withData Packet.login [1])] admitsBanned
      (by decide +kernel)
  cases hrun with
  | start => cases hp
  | @next past s s' e out hpast hstep =>
    have henforced := (h .plain _ _ (hpast.next hstep)).1
    unfold admitsBanned at hp
    dsimp only at hp
    split at hp
    · rename_i i receiveBuffer hevent
      rw [Bool.and_eq_true] at hp
      obtain ⟨hsuccess, hbanned⟩ := hp
      obtain ⟨pool, hself, hpool⟩ := (Option.any_eq_true _ _).mp hbanned
      rw [Bool.and_eq_true, decide_eq_true_eq] at hpool
      have hrefused := (henforced i receiveBuffer hevent pool hself hpool.1).1 hpool.2
      have hdenied := hrefused.noSuccess _ (List.contains_iff_mem.mp hsuccess)
      exact hdenied (by decide)
    · exact Bool.false_ne_true hp

end Violation

end NexusPool
