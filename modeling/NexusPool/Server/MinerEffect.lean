import NexusPool.Server.Step

/-!
# What a miner's packet does

The handlers of a pool connection leave one of a few effects on the world. The effects are
listed once here, with the checks that led to them; invariants of the server are shown for
each effect.
-/

namespace NexusPool

open Reactive World

/-! ### Logins and accounts -/

def DataRegistry.opened (s : DataRegistry) (nxsAddress : Bytes) : DataRegistry :=
  if s.mAccountDb.hasKey nxsAddress then s
  else { s with mAccountDb := s.mAccountDb.updateRecord (.new nxsAddress) }

theorem exec_openAccount (nxsAddress : Bytes) (s : DataRegistry) :
    DataRegistry.exec (PoolConnection.openAccount nxsAddress) s = ((), s.opened nxsAddress) := by
  rw [PoolConnection.openAccount, DataRegistry.exec_bind, DataRegistry.opened]
  change DataRegistry.exec (if s.mAccountDb.hasKey nxsAddress then pure ()
    else DataRegistry.call (.accountUpdate (.new nxsAddress))) s = _
  split_ifs <;> rfl

/-- An account without shares or balance is all that can be new. -/
theorem DataRegistry.opened_eq (s : DataRegistry) (nxsAddress : Bytes) :
    s.opened nxsAddress = { s with mAccountDb := (s.opened nxsAddress).mAccountDb } := by
  unfold DataRegistry.opened
  split_ifs <;> rfl

/-- Asking for the pending payout changes nothing: it is looked up only where there is one. -/
theorem exec_pendingPayout (nxsAddress : Bytes) (s : DataRegistry) :
    (DataRegistry.exec (PoolConnection.pendingPayout nxsAddress) s).2 = s := by
  rw [PoolConnection.pendingPayout, DataRegistry.exec_bind]
  change (DataRegistry.exec (if s.mCoinbase.findAddress nxsAddress then
    DataRegistry.call (.mapOutputs nxsAddress) else pure 0) s).2 = s
  split_ifs with hfind
  · change { s with mCoinbase := (s.mCoinbase.getMapOutputs nxsAddress).2 } = s
    rw [Coinbase.getMapOutputs_of_findAddress hfind]
  · rfl

/-! ### Shares -/

section Effects

variable [Platform]

/-- A share of connection `i` that passed all checks: its block is one the connection was
given and of the current height, and its prime is new and of sufficient difficulty. -/
structure VerifiedShare (w : World) (i : ℕ) (data : Bytes) where
  pool : PoolConnection
  hashPrimeOrigin : Uint1024
  nNonce : UInt64
  block : CBlock
  nDifficulty : ℚ
  self : w.pools[i]? = some pool
  loggedIn : pool.mLoggedIn
  read : PoolConnection.readShare data = some (hashPrimeOrigin, nNonce)
  requested : pool.mBlocksRequested[hashPrimeOrigin]? = some block
  current : block.nHeight = w.registry.mBestHeight
  fresh : PoolConnection.hashPrime hashPrimeOrigin nNonce ∉ pool.mPrimes
  verified : Platform.gmpVerification (PoolConnection.hashPrime hashPrimeOrigin nNonce) =
    some nDifficulty
  sufficient : Prime.setBits nDifficulty ≥ pool.mMinShare

namespace VerifiedShare

variable {w : World} {i : ℕ} {data : Bytes} (share : VerifiedShare w i data)

/-- The prime is noted and the account of the connection gets the weight. -/
def credited : World :=
  { w.modifyPool i fun pool =>
      { pool with
        mPrimes :=
          PoolConnection.hashPrime share.hashPrimeOrigin share.nNonce :: pool.mPrimes } with
    registry :=
      { w.registry with
        mAccountDb := w.registry.mAccountDb.modifyRecord share.pool.mNxsaddress
          (·.addShares (Platform.shareWeight share.nDifficulty)) } }

theorem lock_credited (k : ℕ) :
    (share.credited.lock k).map (·.mRemoteAddress) = (w.lock k).map (·.mRemoteAddress) := by
  change ((w.modifyPool i _).lock k).map _ = _
  rw [lock_modifyPool]
  · split_ifs
    · simp [Function.comp_def]
    · rfl
  · exact fun _ => rfl

theorem findPoolConnection_credited (ipAddress : Bytes) :
    DaemonConnection.findPoolConnection ipAddress share.credited =
      DaemonConnection.findPoolConnection ipAddress w :=
  DaemonConnection.findPoolConnection_congr ipAddress rfl share.lock_credited

/-- The block as it is handed to the daemon connection. -/
def solved : CBlock := { share.block with nNonce := share.nNonce }

end VerifiedShare

/-! ### Effects -/

/-- A reply to the miner that does not accept a block, or a change of its DDOS filter. -/
def Reply (i : ℕ) : Output → Prop
  | .toWallet _ => False
  | .toMiner k packet => k = i ∧ packet.mHeader ≠ Packet.block
  | .score k _ => k = i
  | .ban k _ => k = i

omit [Platform] in
theorem Reply.block_notMem {i : ℕ} {out : List Output} (replies : ∀ o ∈ out, Reply i o) :
    .toMiner i (.getPacket Packet.block) ∉ out := by
  intro hmem
  exact (replies _ hmem).2 rfl

/-- What a packet of connection `i` that is handled can do to the world. -/
inductive MinerEffect (w : World) (i : ℕ) (packet : Packet) : World → List Output → Prop
  | reply {out : List Output} (replies : ∀ o ∈ out, Reply i o) : MinerEffect w i packet w out
  | refused {out : List Output} {pool : PoolConnection} {nxsAddress : Bytes} {r : DataRegistry}
      (self : w.pools[i]? = some pool) (loggedOut : ¬ pool.mLoggedIn)
      (registry : r = w.registry ∨ Platform.isValidAddress nxsAddress ∧
        ∃ b, r = { w.registry.opened nxsAddress with mBannedUsers := b })
      (replies : ∀ o ∈ out, Reply i o) :
      MinerEffect w i packet
        { w.modifyPool i ({ · with mNxsaddress := nxsAddress }) with registry := r } out
  | loggedIn {out : List Output} {pool : PoolConnection} {nxsAddress : Bytes}
      (self : w.pools[i]? = some pool) (loggedOut : ¬ pool.mLoggedIn)
      (valid : Platform.isValidAddress nxsAddress)
      (unbanned : ¬ w.registry.mBannedUsers.isAccountBanned nxsAddress)
      (replies : ∀ o ∈ out, Reply i o) :
      MinerEffect w i packet
        { w.modifyPool i ({ · with mNxsaddress := nxsAddress, mLoggedIn := true }) with
          registry := w.registry.opened nxsAddress } out
  | getBlock {out : List Output} {pool : PoolConnection} {j : ℕ}
      (self : w.pools[i]? = some pool) (header : packet.mHeader = Packet.getBlock)
      (entry : DaemonConnection.findPoolConnection pool.mRemoteAddress w = some j)
      (replies : ∀ o ∈ out, Reply i o) :
      MinerEffect w i packet
        ((w.modifyPool i fun pool =>
          { pool with mNumBlocksRequested := pool.mNumBlocksRequested + 1 }).modifyEntry j
            ({ · with mBlocksRequested := pool.mNumBlocksRequested + 1 })) out
  | getBalance {out : List Output} {pool : PoolConnection} (self : w.pools[i]? = some pool)
      (loggedIn : pool.mLoggedIn) (replies : ∀ o ∈ out, Reply i o) :
      MinerEffect w i packet
        { w with
          registry :=
            { w.registry with mAccountDb := (w.registry.mAccountDb.getRecord pool.mNxsaddress).2 } }
        out
  | credited {out : List Output} {data : Bytes} (share : VerifiedShare w i data)
      (header : packet.mHeader = Packet.submitShare) (payload : packet.mData = some data)
      (replies : ∀ o ∈ out, Reply i o) : MinerEffect w i packet share.credited out
  | accepted {out : List Output} {data : Bytes} (share : VerifiedShare w i data) {j : ℕ}
      (header : packet.mHeader = Packet.submitShare) (payload : packet.mData = some data)
      (entry : DaemonConnection.findPoolConnection share.pool.mRemoteAddress w = some j)
      (free : DaemonConnection.submission w j = none) (replies : ∀ o ∈ out, Reply i o) :
      MinerEffect w i packet (share.credited.modifyEntry j
        ({ · with mSubmitBlock := some share.solved }))
        (out ++ [.toMiner i (.getPacket Packet.block)])

variable {w w' : World} {i : ℕ} {out : List Output}

/-- Replies that were sent before belong to the effect. -/
theorem MinerEffect.prepend {packet : Packet} {front : List Output}
    (hfront : ∀ o ∈ front, Reply i o)
    (h : MinerEffect w i packet w' out) : MinerEffect w i packet w' (front ++ out) := by
  have hall : ∀ {out : List Output}, (∀ o ∈ out, Reply i o) → ∀ o ∈ front ++ out, Reply i o :=
    fun hout => List.forall_mem_append.mpr ⟨hfront, hout⟩
  cases h with
  | reply replies => exact .reply (hall replies)
  | refused self loggedOut registry replies => exact .refused self loggedOut registry (hall replies)
  | loggedIn self loggedOut valid unbanned replies =>
    exact .loggedIn self loggedOut valid unbanned (hall replies)
  | getBlock self header entry replies => exact .getBlock self header entry (hall replies)
  | getBalance self loggedIn replies => exact .getBalance self loggedIn (hall replies)
  | credited share header payload replies => exact .credited share header payload (hall replies)
  | accepted share header payload entry free replies =>
    rw [← List.append_assoc]
    exact .accepted share header payload entry free (hall replies)

theorem MinerEffect.outputs {packet : Packet} (h : MinerEffect w i packet w' out) :
    ∀ o ∈ out, Reply i o ∨ o = .toMiner i (.getPacket Packet.block) := by
  intro o ho
  cases h with
  | reply replies => exact .inl (replies o ho)
  | refused _ _ _ replies => exact .inl (replies o ho)
  | loggedIn _ _ _ _ replies => exact .inl (replies o ho)
  | getBlock _ _ _ replies => exact .inl (replies o ho)
  | getBalance _ _ replies => exact .inl (replies o ho)
  | credited _ _ _ replies => exact .inl (replies o ho)
  | accepted _ _ _ _ _ replies =>
    rcases List.mem_append.mp ho with ho | ho
    · exact .inl (replies o ho)
    · exact .inr (List.mem_singleton.mp ho)

theorem MinerEffect.not_transmits {packet : Packet} (h : MinerEffect w i packet w' out)
    (header : UInt8) :
    ∀ o ∈ out, o.transmits header = false := by
  intro o ho
  obtain hreply | rfl := h.outputs o ho
  · cases o with
    | toWallet packet => exact hreply.elim
    | _ => rfl
  · rfl

end Effects

/-! ### The handlers -/

variable {α : Type} {w w' : World} {i : ℕ} {out : List Output}

def Replying (i : ℕ) (w w' : World) (out : List Output) : Prop := w' = w ∧ ∀ o ∈ out, Reply i o

namespace Replying

theorem composes (i : ℕ) : Action.Composes (Replying i) := Action.Only.composes (Reply i)

theorem transmit {packet : Packet} (h : packet.mHeader ≠ Packet.block) :
    Action.Ensures (Replying i) (PoolConnection.transmit i packet) :=
  PoolConnection.only_transmit ⟨rfl, h⟩

theorem score (i n : ℕ) : Action.Ensures (Replying i) (PoolConnection.score i n) :=
  PoolConnection.only_score rfl

theorem ddosInvalidHeader (i : ℕ) (packet : Packet) :
    Action.Ensures (Replying i) (PoolConnection.ddosInvalidHeader i packet) :=
  PoolConnection.only_ddosInvalidHeader (fun _ => rfl) packet

theorem refuseLogin (i : ℕ) : Action.Ensures (Replying i) (PoolConnection.refuseLogin i) :=
  transmit (by decide)

theorem banAddress (i : ℕ) : Action.Ensures (Replying i) (PoolConnection.banAddress i) :=
  PoolConnection.only_banAddress fun _ => rfl

theorem handleSubmitPps (i : ℕ) (data : Bytes) :
    Action.Ensures (Replying i) (PoolConnection.handleSubmitPps i data) :=
  PoolConnection.only_handleSubmitPps ⟨rfl, by decide⟩ data

theorem refuseShare {verdict : UInt8} (h : verdict ≠ Packet.block) (n : ℕ) :
    Action.Ensures (Replying i) (PoolConnection.refuseShare i verdict n) :=
  PoolConnection.only_refuseShare ⟨rfl, h⟩
    (fun _ => ⟨rfl, show Packet.newBlock ≠ Packet.block by decide⟩) rfl

theorem effect [Platform] {packet : Packet} {x : Act α} (hx : Action.Ensures (Replying i) x) {a : α}
    (h : x w = some (a, w', out)) : MinerEffect w i packet w' out := by
  obtain ⟨rfl, replies⟩ := hx w a w' out h
  exact .reply replies

theorem append {w₁ : World} {out₁ : List Output} (hout : ∀ o ∈ out, Reply i o)
    (h : Replying i w₁ w' out₁) : w' = w₁ ∧ ∀ o ∈ out ++ out₁, Reply i o :=
  ⟨h.1, List.forall_mem_append.mpr ⟨hout, h.2⟩⟩

end Replying

theorem banIpAddress_registry {mRemoteAddress : Bytes} {u : Unit}
    (h : PoolConnection.banIpAddress mRemoteAddress w = some (u, w', out)) :
    (∃ b, w' = { w with registry := { w.registry with mBannedUsers := b } }) ∧ out = [] := by
  unfold PoolConnection.banIpAddress at h
  rw [Action.get_bind] at h
  split_ifs at h
  · obtain ⟨rfl, rfl⟩ := Action.modify_eq_some_iff.mp h
    exact ⟨⟨_, rfl⟩, rfl⟩
  · obtain ⟨-, rfl, rfl⟩ := Action.pure_eq_some_iff.mp h
    exact ⟨⟨w'.registry.mBannedUsers, rfl⟩, rfl⟩

theorem submitBlock_eq_some {block : CBlock} {ipAddress : Bytes} {accepted : Bool}
    (h : DaemonConnection.submitBlock block ipAddress w = some (accepted, w', out)) :
    ∃ j, DaemonConnection.findPoolConnection ipAddress w = some j ∧ out = [] ∧
      (accepted = false ∧ DaemonConnection.submission w j ≠ none ∧ w' = w ∨
        accepted = true ∧ DaemonConnection.submission w j = none ∧
          w' = w.modifyEntry j ({ · with mSubmitBlock := some block })) := by
  simp only [DaemonConnection.submitBlock, Action.bind_eq_some_iff, Action.get_eq_some_iff,
    Action.ofOption_eq_some_iff] at h
  obtain ⟨_, _, _, _, ⟨rfl, rfl, rfl⟩, ⟨j, _, _, _, ⟨hentry, rfl, rfl⟩, h, rfl⟩, rfl⟩ := h
  split_ifs at h with hfree
  · simp only [Action.bind_eq_some_iff, Action.modify_eq_some_iff, Action.pure_eq_some_iff] at h
    obtain ⟨_, _, _, _, ⟨rfl, rfl⟩, ⟨rfl, rfl, rfl⟩, rfl⟩ := h
    exact ⟨j, hentry, rfl, .inr ⟨rfl, by simpa using hfree, rfl⟩⟩
  · obtain ⟨rfl, rfl, rfl⟩ := Action.pure_eq_some_iff.mp h
    exact ⟨j, hentry, rfl, .inl ⟨rfl, by simpa using hfree, rfl⟩⟩

variable [Platform]

theorem admitLogin_effect {packet : Packet} {pool : PoolConnection} {nxsAddress : Bytes} {u : Unit}
    (hself : w.pools[i]? = some pool) (loggedOut : ¬ pool.mLoggedIn)
    (valid : Platform.isValidAddress nxsAddress)
    (h : PoolConnection.admitLogin i nxsAddress
      (w.modifyPool i ({ · with mNxsaddress := nxsAddress })) = some (u, w', out)) :
    MinerEffect w i packet w' out := by
  simp only [PoolConnection.admitLogin, Action.bind_eq_some_iff, PoolConnection.self_eq_some_iff,
    registryCall_eq_some_iff, Action.get_eq_some_iff, exec_openAccount] at h
  obtain ⟨pool', _, _, _, ⟨-, rfl, rfl⟩, ⟨_, _, _, _, ⟨-, rfl, rfl⟩,
    ⟨_, _, _, _, ⟨rfl, rfl, rfl⟩, h, rfl⟩, rfl⟩, rfl⟩ := h
  split_ifs at h with hbanned
  · simp only [Action.bind_eq_some_iff, Action.send_eq_some_iff] at h
    obtain ⟨_, w₁, out₁, _, hip, ⟨_, _, _, out₂, ⟨rfl, rfl⟩, hrefuse, rfl⟩, rfl⟩ := h
    obtain ⟨⟨b, rfl⟩, rfl⟩ := banIpAddress_registry hip
    have hban : ∀ o ∈ [Output.ban i "Account is Banned"], Reply i o := by simp [Reply]
    obtain ⟨rfl, replies⟩ := Replying.append hban (Replying.refuseLogin i _ _ _ _ hrefuse)
    exact .refused hself loggedOut (.inr ⟨valid, b, rfl⟩) replies
  · simp only [Action.bind_eq_some_iff, Action.modify_eq_some_iff] at h
    obtain ⟨_, _, _, _, ⟨rfl, rfl⟩, hsuccess, rfl⟩ := h
    obtain ⟨rfl, rfl⟩ := PoolConnection.transmit_eq_some hsuccess
    have hunbanned : ¬ w.registry.mBannedUsers.isAccountBanned nxsAddress := by
      rw [DataRegistry.opened_eq] at hbanned
      exact hbanned
    have hreply : ∀ o ∈ [Output.toMiner i (.getPacket Packet.loginSkminerSuccess)], Reply i o := by
      simp [Reply, Packet.getPacket]
      decide
    have heffect : MinerEffect w i packet _ _ := .loggedIn hself loggedOut valid hunbanned hreply
    convert heffect using 1
    simp [modifyPool, List.modify_modify_eq, Function.comp_def]

theorem handleLogin_effect {packet : Packet} {u : Unit}
    (h : PoolConnection.handleLogin i packet w = some (u, w', out)) :
    MinerEffect w i packet w' out := by
  simp only [PoolConnection.handleLogin, Action.bind_eq_some_iff,
    PoolConnection.self_eq_some_iff] at h
  obtain ⟨pool, w₁, out₁, out₂, ⟨hself, rfl, rfl⟩, h, rfl⟩ := h
  split_ifs at h with hlogged
  · exact Replying.effect (Replying.score i 10) h
  · simp only [Action.bind_eq_some_iff, Action.ofOption_eq_some_iff, Action.modify_eq_some_iff] at h
    obtain ⟨nxsAddress, _, _, _, ⟨-, rfl, rfl⟩, ⟨_, _, _, _, ⟨rfl, rfl⟩, h, rfl⟩, rfl⟩ := h
    split_ifs at h with hvalid
    · exact admitLogin_effect hself hlogged hvalid h
    · simp only [Action.bind_eq_some_iff] at h
      obtain ⟨_, w₁, out₁, out₂, hban, hrefuse, rfl⟩ := h
      obtain ⟨rfl, hbans⟩ := Replying.banAddress i _ _ _ _ hban
      obtain ⟨rfl, replies⟩ := Replying.append hbans (Replying.refuseLogin i _ _ _ _ hrefuse)
      exact .refused hself hlogged (.inl rfl) replies

omit [Platform] in
/-- The count of the connection goes up, and the entry that is found gets the new count. -/
theorem handleGetBlock_eq_some {u : Unit}
    (h : PoolConnection.handleGetBlock i w = some (u, w', out)) :
    ∃ pool j, w.pools[i]? = some pool ∧
      DaemonConnection.findPoolConnection pool.mRemoteAddress w = some j ∧
      w' = ((w.modifyPool i fun pool =>
        { pool with mNumBlocksRequested := pool.mNumBlocksRequested + 1 }).modifyEntry j
          ({ · with mBlocksRequested := pool.mNumBlocksRequested + 1 })) ∧ out = [.score i 1] := by
  simp only [PoolConnection.handleGetBlock, DaemonConnection.requestBlock, Action.bind_eq_some_iff,
    Action.modify_eq_some_iff, PoolConnection.self_eq_some_iff, Action.get_eq_some_iff,
    Action.ofOption_eq_some_iff, Action.send_eq_some_iff] at h
  obtain ⟨_, _, _, _, ⟨rfl, rfl⟩, ⟨pool', _, _, _, ⟨hself, rfl, rfl⟩,
    ⟨_, _, _, _, ⟨_, _, _, _, ⟨rfl, rfl, rfl⟩,
      ⟨j, _, _, _, ⟨hentry, rfl, rfl⟩, ⟨rfl, rfl⟩, rfl⟩, rfl⟩, ⟨rfl, rfl⟩, rfl⟩, rfl⟩, rfl⟩ := h
  rw [getElem?_modifyPool, if_pos rfl, Option.map_eq_some_iff] at hself
  obtain ⟨pool, hself, rfl⟩ := hself
  rw [DaemonConnection.findPoolConnection_modifyPool] at hentry
  · exact ⟨pool, j, hself, hentry, rfl, rfl⟩
  · exact fun _ => rfl
  · exact fun _ => rfl

theorem handleGetBlock_effect {packet : Packet} {u : Unit}
    (header : packet.mHeader = Packet.getBlock)
    (h : PoolConnection.handleGetBlock i w = some (u, w', out)) :
    MinerEffect w i packet w' out := by
  obtain ⟨pool, j, hself, hentry, rfl, rfl⟩ := handleGetBlock_eq_some h
  exact .getBlock hself header hentry (by simp [Reply])

theorem handleGetBalance_effect {packet : Packet} {pool : PoolConnection} {u : Unit}
    (hself : w.pools[i]? = some pool) (loggedIn : pool.mLoggedIn)
    (h : PoolConnection.handleGetBalance i w = some (u, w', out)) :
    MinerEffect w i packet w' out := by
  simp only [PoolConnection.handleGetBalance, Action.bind_eq_some_iff,
    PoolConnection.self_eq_some_iff, registryCall_eq_some_iff] at h
  obtain ⟨pool', _, _, _, ⟨hself', rfl, rfl⟩, ⟨_, _, _, _, ⟨-, rfl, rfl⟩, htransmit, rfl⟩, rfl⟩ := h
  obtain ⟨rfl, rfl⟩ := PoolConnection.transmit_eq_some htransmit
  cases hself.symm.trans hself'
  exact .getBalance hself loggedIn (by simp [Reply, Packet.withData]; decide)

theorem handleGetPayout_effect {packet : Packet} {u : Unit}
    (h : PoolConnection.handleGetPayout i w = some (u, w', out)) :
    MinerEffect w i packet w' out := by
  simp only [PoolConnection.handleGetPayout, Action.bind_eq_some_iff,
    PoolConnection.self_eq_some_iff, registryCall_eq_some_iff, exec_pendingPayout] at h
  obtain ⟨pool', _, _, _, ⟨-, rfl, rfl⟩, ⟨_, _, _, _, ⟨-, rfl, rfl⟩, htransmit, rfl⟩, rfl⟩ := h
  obtain ⟨rfl, rfl⟩ := PoolConnection.transmit_eq_some htransmit
  exact .reply (by simp [Reply, Packet.withData]; decide)

/-- A verified share is credited. If its difficulty is that of the block, the block goes to the
entry that is found by address, if that is free; else the share is accepted. -/
theorem creditShare_cases {data : Bytes} (share : VerifiedShare w i data) {u : Unit}
    (h : PoolConnection.creditShare i share.block share.nNonce
      (PoolConnection.hashPrime share.hashPrimeOrigin share.nNonce) share.nDifficulty w =
        some (u, w', out)) :
    (share.nDifficulty ≥ Prime.getDifficulty share.block.nBits ∧ ∃ j,
      DaemonConnection.findPoolConnection share.pool.mRemoteAddress w = some j ∧
      (DaemonConnection.submission w j ≠ none ∧ w' = share.credited ∧ out = [] ∨
        DaemonConnection.submission w j = none ∧
          w' = share.credited.modifyEntry j ({ · with mSubmitBlock := some share.solved }) ∧
            out = [.toMiner i (.getPacket Packet.block)])) ∨
    (¬ share.nDifficulty ≥ Prime.getDifficulty share.block.nBits ∧ w' = share.credited ∧
      out = [.toMiner i (.getPacket Packet.accept)]) := by
  have hexec : ∀ cKey change s, DataRegistry.exec (DataRegistry.modifyAccount cKey change) s =
      ((), { s with mAccountDb := s.mAccountDb.modifyRecord cKey change }) := fun _ _ _ => rfl
  simp only [PoolConnection.creditShare, PoolConnection.acceptShare, Action.bind_eq_some_iff,
    PoolConnection.self_eq_some_iff, Action.modify_eq_some_iff,
      registryCall_eq_some_iff, hexec] at h
  obtain ⟨pool, w, _, _, ⟨hself, rfl, rfl⟩, ⟨_, _, _, _, ⟨rfl, rfl⟩,
    ⟨_, _, _, _, ⟨-, rfl, rfl⟩, h, rfl⟩, rfl⟩, rfl⟩ := h
  cases share.self.symm.trans hself
  split_ifs at h with hdifficulty
  · left
    refine ⟨hdifficulty, ?_⟩
    simp only [Action.bind_eq_some_iff] at h
    obtain ⟨accepted, w₁, out₁, out₂, hsubmit, h, rfl⟩ := h
    obtain ⟨j, hentry, rfl, ⟨rfl, hfull, rfl⟩ | ⟨rfl, hfree, rfl⟩⟩ := submitBlock_eq_some hsubmit
    · obtain ⟨-, rfl, rfl⟩ := Action.pure_eq_some_iff.mp h
      have hfind := (share.findPoolConnection_credited share.pool.mRemoteAddress).symm.trans hentry
      exact ⟨j, hfind, .inl ⟨hfull, rfl, rfl⟩⟩
    · obtain ⟨rfl, rfl⟩ := PoolConnection.transmit_eq_some h
      have hfind := (share.findPoolConnection_credited share.pool.mRemoteAddress).symm.trans hentry
      exact ⟨j, hfind, .inr ⟨hfree, rfl, rfl⟩⟩
  · obtain ⟨rfl, rfl⟩ := PoolConnection.transmit_eq_some h
    exact .inr ⟨hdifficulty, rfl, rfl⟩

theorem creditShare_effect {packet : Packet} {data : Bytes}
    (share : VerifiedShare w i data) {u : Unit}
    (header : packet.mHeader = Packet.submitShare) (payload : packet.mData = some data)
    (h : PoolConnection.creditShare i share.block share.nNonce
      (PoolConnection.hashPrime share.hashPrimeOrigin share.nNonce) share.nDifficulty w =
        some (u, w', out)) : MinerEffect w i packet w' out := by
  obtain ⟨-, j, hentry, ⟨-, rfl, rfl⟩ | ⟨hfree, rfl, rfl⟩⟩ | ⟨-, rfl, rfl⟩ :=
    creditShare_cases share h
  · exact .credited share header payload (by simp)
  · have hnone : ∀ o ∈ ([] : List Output), Reply i o := by simp
    exact .accepted share header payload hentry hfree hnone
  · exact .credited share header payload (by simp [Reply, Packet.getPacket]; decide)

/-- A share is refused in one of three ways, or it is verified and credited. -/
theorem handleSubmitShare_cases {pool : PoolConnection} {data : Bytes} {u : Unit}
    (hself : w.pools[i]? = some pool) (loggedIn : pool.mLoggedIn)
    (h : PoolConnection.handleSubmitShare i data w = some (u, w', out)) :
    (∃ verdict nScore, verdict ∈ [Packet.reject, Packet.stale] ∧
      PoolConnection.refuseShare i verdict nScore w = some (u, w', out)) ∨
    (PoolConnection.transmit i (.getPacket Packet.reject) >>= fun _ => PoolConnection.score i 5) w =
      some (u, w', out) ∨
    (PoolConnection.score i 5 >>= fun _ => PoolConnection.transmit i (.getPacket Packet.reject)) w =
      some (u, w', out) ∨
    ∃ share : VerifiedShare w i data, PoolConnection.creditShare i share.block share.nNonce
      (PoolConnection.hashPrime share.hashPrimeOrigin share.nNonce) share.nDifficulty w =
        some (u, w', out) := by
  simp only [PoolConnection.handleSubmitShare, Action.bind_eq_some_iff,
    PoolConnection.self_eq_some_iff, Action.ofOption_eq_some_iff] at h
  obtain ⟨pool', _, _, _, ⟨hself', rfl, rfl⟩,
    ⟨⟨hashPrimeOrigin, nNonce⟩, _, _, _, ⟨hread, rfl, rfl⟩, h, rfl⟩, rfl⟩ := h
  cases hself.symm.trans hself'
  cases hblock : pool.mBlocksRequested[hashPrimeOrigin]? with
  | none =>
    rw [hblock] at h
    exact .inl ⟨Packet.reject, 1, by simp, h⟩
  | some block =>
    simp only [hblock, Action.bind_eq_some_iff, Action.get_eq_some_iff] at h
    obtain ⟨_, _, _, _, ⟨rfl, rfl, rfl⟩, h, rfl⟩ := h
    split_ifs at h with hstale hfresh
    · exact .inl ⟨Packet.stale, 2, by simp, h⟩
    · exact .inr (.inl h)
    · simp only [Action.bind_eq_some_iff, Action.ofOption_eq_some_iff] at h
      obtain ⟨nDifficulty, w, _, _, ⟨hverified, rfl, rfl⟩, h, rfl⟩ := h
      split_ifs at h with hsufficient
      · let share : VerifiedShare w i data :=
          { pool := pool, hashPrimeOrigin := hashPrimeOrigin, nNonce := nNonce, block := block
            nDifficulty := nDifficulty, self := hself, loggedIn := loggedIn, read := hread
            requested := hblock, current := by simpa using hstale, fresh := hfresh
            verified := hverified, sufficient := hsufficient }
        exact .inr (.inr (.inr ⟨share, h⟩))
      · exact .inr (.inr (.inl h))

theorem handleSubmitShare_effect {packet : Packet} {pool : PoolConnection} {data : Bytes} {u : Unit}
    (hself : w.pools[i]? = some pool) (loggedIn : pool.mLoggedIn)
    (header : packet.mHeader = Packet.submitShare) (payload : packet.mData = some data)
    (h : PoolConnection.handleSubmitShare i data w = some (u, w', out)) :
    MinerEffect w i packet w' out := by
  obtain ⟨verdict, nScore, hverdict, h⟩ | h | h | ⟨share, h⟩ :=
    handleSubmitShare_cases hself loggedIn h
  · have hnot : verdict ≠ Packet.block := by
      rintro rfl
      exact absurd hverdict (by decide)
    exact Replying.effect (Replying.refuseShare hnot nScore) h
  · refine Replying.effect (.bind (Replying.composes i)
      (Replying.transmit (by decide)) fun _ => ?_) h
    exact Replying.score i 5
  · refine Replying.effect (.bind (Replying.composes i) (Replying.score i 5) fun _ => ?_) h
    exact Replying.transmit (by decide)
  · exact creditShare_effect share header payload h

theorem handleRequest_effect {packet : Packet} {pool : PoolConnection} {u : Unit}
    (hself : w.pools[i]? = some pool) (loggedIn : pool.mLoggedIn)
    (h : PoolConnection.handleRequest i packet w = some (u, w', out)) :
    MinerEffect w i packet w' out := by
  unfold PoolConnection.handleRequest at h
  split_ifs at h with hgetBlock hgetBalance hgetPayout hping hsubmitPps hsubmitShare
  · exact handleGetBlock_effect hgetBlock h
  · exact handleGetBalance_effect hself loggedIn h
  · exact handleGetPayout_effect h
  · exact Replying.effect (Replying.transmit (by decide)) h
  · refine Replying.effect (.bind (Replying.composes i) (.ofOption (Replying.composes i) _)
      fun _ => ?_) h
    exact Replying.handleSubmitPps i _
  · simp only [Action.bind_eq_some_iff, Action.ofOption_eq_some_iff] at h
    obtain ⟨data, _, _, _, ⟨hdata, rfl, rfl⟩, h, rfl⟩ := h
    exact handleSubmitShare_effect hself loggedIn hsubmitShare hdata h
  · exact Replying.effect (.pure (Replying.composes i) _) h

/-- An invalid packet is scored. A valid one is checked for bans and then handled. -/
theorem processData_eq_some {receiveBuffer : Bytes} {u : Unit}
    (h : PoolConnection.processData i receiveBuffer w = some (u, w', out)) :
    ∃ packet, Packet.ofBuffer .miner receiveBuffer = some packet ∧
      (packet.isValid .miner = false ∧ PoolConnection.score i 10 w = some ((), w', out) ∨
        packet.isValid .miner = true ∧ ∃ pool bans rest, w.pools[i]? = some pool ∧
          PoolConnection.ddosInvalidHeader i packet w = some ((), w, bans) ∧ out = bans ++ rest ∧
            (if packet.mHeader = Packet.login then PoolConnection.handleLogin i packet
              else if pool.mLoggedIn then PoolConnection.handleRequest i packet
              else PoolConnection.score i 10) w = some ((), w', rest)) := by
  simp only [PoolConnection.processData, Action.bind_eq_some_iff, Action.ofOption_eq_some_iff] at h
  obtain ⟨packet, _, _, _, ⟨hparse, rfl, rfl⟩, h, rfl⟩ := h
  refine ⟨packet, hparse, ?_⟩
  split at h
  · rename_i hvalid
    simp only [Action.bind_eq_some_iff, PoolConnection.self_eq_some_iff] at h
    obtain ⟨_, w₁, bans, _, hbans, ⟨pool, _, _, _, ⟨hself, rfl, rfl⟩, h, rfl⟩, rfl⟩ := h
    obtain ⟨rfl, -⟩ := Replying.ddosInvalidHeader i packet _ _ _ _ hbans
    exact .inr ⟨hvalid, pool, bans, _, hself, hbans, rfl, h⟩
  · rename_i hinvalid
    exact .inl ⟨by simpa using hinvalid, h⟩

/-- Whatever a miner sends has one of the effects. -/
theorem minerEffect_of_processData {receiveBuffer : Bytes} {u : Unit}
    (h : PoolConnection.processData i receiveBuffer w = some (u, w', out)) :
    ∃ packet, Packet.ofBuffer .miner receiveBuffer = some packet ∧
      MinerEffect w i packet w' out := by
  obtain ⟨packet, hparse, ⟨-, hscore⟩ | ⟨-, pool, bans, rest, hself, hbans, rfl, hrest⟩⟩ :=
    processData_eq_some h
  · exact ⟨packet, hparse, Replying.effect (Replying.score i 10) hscore⟩
  · obtain ⟨-, hreplies⟩ := Replying.ddosInvalidHeader i packet _ _ _ _ hbans
    refine ⟨packet, hparse, MinerEffect.prepend hreplies ?_⟩
    split_ifs at hrest with hlogin hlogged
    · exact handleLogin_effect hrest
    · exact handleRequest_effect hself hlogged hrest
    · exact Replying.effect (Replying.score i 10) hrest

/-! ### Packets that are not handled -/

def Scoring (i : ℕ) (w w' : World) (out : List Output) : Prop :=
  w' = w ∧ ∀ o ∈ out, (∃ nScore, o = .score i nScore) ∨ ∃ message, o = .ban i message

namespace Scoring

omit [Platform] in
theorem composes (i : ℕ) : Action.Composes (Scoring i) := Action.Only.composes _

omit [Platform] in
theorem score (i n : ℕ) : Action.Ensures (Scoring i) (PoolConnection.score i n) :=
  PoolConnection.only_score (.inl ⟨n, rfl⟩)

omit [Platform] in
theorem ddosInvalidHeader (i : ℕ) (packet : Packet) :
    Action.Ensures (Scoring i) (PoolConnection.ddosInvalidHeader i packet) :=
  PoolConnection.only_ddosInvalidHeader (fun strMessage => .inr ⟨strMessage, rfl⟩) packet

omit [Platform] in
theorem banAddress (i : ℕ) : Action.Ensures (Scoring i) (PoolConnection.banAddress i) :=
  PoolConnection.only_banAddress fun strMessage => .inr ⟨strMessage, rfl⟩

end Scoring

/-- A packet that is not valid, and one that is not a login before the miner is logged in. -/
theorem processData_scoring {receiveBuffer : Bytes} {u : Unit}
    (h : PoolConnection.processData i receiveBuffer w = some (u, w', out))
    (hrefused : ∀ packet pool, Packet.ofBuffer .miner receiveBuffer = some packet →
      packet.isValid .miner → w.pools[i]? = some pool →
        packet.mHeader ≠ Packet.login ∧ ¬ pool.mLoggedIn) : Scoring i w w' out := by
  obtain ⟨packet, hparse, ⟨-, hscore⟩ | ⟨hvalid, pool, bans, rest, hself, hbans, rfl, hrest⟩⟩ :=
    processData_eq_some h
  · exact Scoring.score i 10 _ _ _ _ hscore
  · have hfilter := Scoring.ddosInvalidHeader i packet _ _ _ _ hbans
    obtain ⟨hlogin, hlogged⟩ := hrefused packet pool hparse hvalid hself
    rw [if_neg hlogin, if_neg hlogged] at hrest
    exact (Scoring.composes i).trans hfilter (Scoring.score i 10 _ _ _ _ hrest)

/-- A valid `GET_BLOCK` of a miner that is logged in is handled. -/
theorem processData_getBlock {receiveBuffer : Bytes} {packet : Packet}
    {pool : PoolConnection} {u : Unit}
    (hparse : Packet.ofBuffer .miner receiveBuffer = some packet) (hvalid : packet.isValid .miner)
    (header : packet.mHeader = Packet.getBlock) (hself : w.pools[i]? = some pool)
    (hlogged : pool.mLoggedIn)
    (h : PoolConnection.processData i receiveBuffer w = some (u, w', out)) :
    ∃ front, PoolConnection.handleGetBlock i w = some ((), w', front) := by
  obtain ⟨packet', hparse', ⟨hinvalid, -⟩ | ⟨-, pool', bans, rest, hself', hbans, rfl, hrest⟩⟩ :=
    processData_eq_some h
  · cases hparse.symm.trans hparse'
    exact absurd (hvalid.symm.trans hinvalid) (by decide)
  · cases hparse.symm.trans hparse'
    cases hself.symm.trans hself'
    rw [if_neg (by rw [header]; decide), if_pos hlogged] at hrest
    unfold PoolConnection.handleRequest at hrest
    rw [if_pos header] at hrest
    exact ⟨_, hrest⟩

end NexusPool
