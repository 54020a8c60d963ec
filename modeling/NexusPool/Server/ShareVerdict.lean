import NexusPool.Server.InputReads
import NexusPool.Server.RequestCount
import NexusPool.Server.SubmittedBlock

/-!
# The verdict on a share

A share is answered with one of four verdicts, and a block that it solves goes to the daemon
connection. There the block is refused if the entry that is found holds another one, and then the
miner is not told anything.
-/

namespace NexusPool

open Reactive World

/-- One of the four verdicts, to the miner of connection `i`. -/
def Output.isVerdict (i : ℕ) : Output → Bool
  | .toMiner k packet =>
    k = i ∧ packet.mHeader ∈ [Packet.reject, Packet.stale, Packet.accept, Packet.block]
  | _ => false

/-- Connection `i` receives a share with this data. -/
def Event.share (i : ℕ) (data : Bytes) : Event :=
  .minerData i (Packet.withData Packet.submitShare data).wire

/-- An entry of connection `i` holds the block for submission. -/
def World.Holds (w : World) (i : ℕ) (block : CBlock) : Prop :=
  ∃ poolData ∈ w.daemon.mPoolConnections,
    poolData.mConnection = i ∧ poolData.mSubmitBlock = some block

/-- The solved block and the number to be verified, of a share whose block was requested and is of
the current height, and that is not a duplicate. -/
def PoolConnection.checkedShare [Target] (pool : PoolConnection) (w : World) (data : Bytes) :
    Option (CBlock × Uint1024) := do
  let (hashPrimeOrigin, nNonce) ← readShare data
  let block ← pool.mBlocksRequested[hashPrimeOrigin]?
  if block.nHeight ≠ w.registry.mBestHeight then none
  else if pool.mPrimes.contains (hashPrime hashPrimeOrigin nNonce) then none
  else some ({ block with nNonce := nNonce }, hashPrime hashPrimeOrigin nNonce)

section Verdicts

variable [Platform]

/-- The share is verified, and its difficulty reaches that of the block. -/
def PoolConnection.Solves (pool : PoolConnection) (w : World) (data : Bytes) (solved : CBlock)
    (nDifficulty : ℚ) : Prop :=
  ∃ prime, pool.checkedShare w data = some (solved, prime) ∧
    Platform.gmpVerification prime = some nDifficulty ∧
      nDifficulty ≥ Prime.getDifficulty solved.nBits

/-- One verdict is sent, and a block that the share solves is in the slot of its connection. -/
structure Judged (w : World) (i : ℕ) (pool : PoolConnection) (data : Bytes) (w' : World)
    (out : List Output) : Prop where
  verdict : out.countP (·.isVerdict i) = 1
  placed : ∀ solved nDifficulty, pool.Solves w data solved nDifficulty → w'.Holds i solved

/-- The share is handled, with that result. -/
def World.Judges (w : World) (i : ℕ) (pool : PoolConnection) (data : Bytes) : Prop :=
  ∃ w' out, w.step (.share i data) = some (w', out) ∧ Judged w i pool data w' out

/-- The entry that is found by the address of the connection is free, and is its own unless its
own one holds the block already. -/
def World.Admits (w : World) (i : ℕ) (pool : PoolConnection) (solved : CBlock) : Prop :=
  ∃ j, DaemonConnection.findPoolConnection pool.mRemoteAddress w = some j ∧
    DaemonConnection.submission w j = none ∧ (w.owner j = some i ∨ w.Holds i solved)

/-- The verification of the share yields a difficulty. If that is the one of the block, it is
sufficient for a share and the block is admitted. -/
structure World.Settles (w : World) (i : ℕ) (pool : PoolConnection) (data : Bytes) : Prop where
  verified : ∀ solved prime, pool.checkedShare w data = some (solved, prime) →
    (Platform.gmpVerification prime).isSome
  admitted : ∀ solved nDifficulty, pool.Solves w data solved nDifficulty →
    if Prime.setBits nDifficulty ≥ pool.mMinShare then w.Admits i pool solved else w.Holds i solved

variable {w w' : World} {i : ℕ} {pool : PoolConnection} {data : Bytes} {out : List Output}

/-! ### What is sent -/

section Sending

omit [Platform]

theorem PoolConnection.transmit_eq (hself : w.pools[i]? = some pool)
    (hopen : pool.mConnection = true)
    (packet : Packet) : transmit i packet w = some ((), w, [.toMiner i packet]) := by
  have hdefined : (transmit i packet).Defined w := by
    rw [transmit_defined, hself]
    exact hopen
  obtain ⟨_, w', out, h⟩ := hdefined
  obtain ⟨rfl, rfl⟩ := transmit_eq_some h
  exact h

theorem countP_eq_zero_of_scoring (h : Scoring i w w' out) (k : ℕ) :
    out.countP (·.isVerdict k) = 0 := by
  apply countP_eq_zero_of_forall
  intro o ho
  obtain ⟨nScore, rfl⟩ | ⟨message, rfl⟩ := h.2 o ho
  · rfl
  · rfl

theorem PoolConnection.score_eq (hself : w.pools[i]? = some pool) (nScore : ℕ) :
    ∃ scores, score i nScore w = some ((), w, scores) ∧ scores.countP (·.isVerdict i) = 0 := by
  have hdefined : (score i nScore).Defined w := by
    refine Action.defined_bind.mpr ⟨pool, w, [], self_eq_some_iff.mpr ⟨hself, rfl, rfl⟩, ?_⟩
    split_ifs
    · exact Action.defined_send _ _
    · exact Action.defined_pure _ _
  obtain ⟨_, w', scores, h⟩ := hdefined
  have hscoring := Scoring.score i nScore _ _ _ _ h
  cases hscoring.1
  exact ⟨scores, h, countP_eq_zero_of_scoring hscoring i⟩

theorem Output.isVerdict_getPacket {verdict : UInt8}
    (h : verdict ∈ [Packet.reject, Packet.stale, Packet.accept, Packet.block]) :
    (Output.toMiner i (.getPacket verdict)).isVerdict i = true := by
  simpa [Output.isVerdict, Packet.getPacket] using h

theorem Output.isVerdict_getHeight (height : UInt32) :
    (Output.toMiner i (.getHeight height)).isVerdict i = false := by
  have hheader : Packet.newBlock ∉ [Packet.reject, Packet.stale, Packet.accept, Packet.block] := by
    decide
  simpa [Output.isVerdict, Packet.getHeight, Packet.withData] using hheader

theorem PoolConnection.ddosInvalidHeader_eq (hself : w.pools[i]? = some pool) (packet : Packet) :
    ∃ bans, ddosInvalidHeader i packet w = some ((), w, bans) ∧
      bans.countP (·.isVerdict i) = 0 := by
  have hdefined : (ddosInvalidHeader i packet).Defined w := by
    refine Action.defined_bind.mpr ⟨pool, w, [], self_eq_some_iff.mpr ⟨hself, rfl, rfl⟩, ?_⟩
    split_ifs
    · refine (@Action.defined_forM _ _ _ _ (fun _ => True) (fun _ => True) _ _ ?_ ?_ trivial).mpr ?_
      · exact fun _ _ _ _ => iff_of_true (Action.defined_send _ _) trivial
      · exact fun _ _ _ _ _ _ _ _ => trivial
      · exact fun _ _ => trivial
    · exact Action.defined_pure _ _
  obtain ⟨_, w', bans, h⟩ := hdefined
  have hscoring := Scoring.ddosInvalidHeader i packet _ _ _ _ h
  cases hscoring.1
  exact ⟨bans, h, countP_eq_zero_of_scoring hscoring i⟩

theorem PoolConnection.refuseShare_eq (hself : w.pools[i]? = some pool)
    (hopen : pool.mConnection = true)
    {verdict : UInt8} (h : verdict ∈ [Packet.reject, Packet.stale, Packet.accept, Packet.block])
    (nScore : ℕ) : ∃ out, refuseShare i verdict nScore w = some ((), w, out) ∧
      out.countP (·.isVerdict i) = 1 := by
  obtain ⟨scores, hscore, hnone⟩ := score_eq hself nScore
  refine ⟨[.toMiner i (.getPacket verdict)] ++
    ([.toMiner i (.getHeight w.registry.mBestHeight)] ++ scores), ?_, ?_⟩
  · rw [refuseShare, Action.get_bind]
    refine Action.bind_eq_some_iff.mpr ⟨_, _, _, _, transmit_eq hself hopen _, ?_, rfl⟩
    exact Action.bind_eq_some_iff.mpr ⟨_, _, _, _, transmit_eq hself hopen _, hscore, rfl⟩
  · simp [Output.isVerdict_getPacket h, Output.isVerdict_getHeight, hnone]

theorem PoolConnection.rejectThenScore_eq (hself : w.pools[i]? = some pool)
    (hopen : pool.mConnection = true) : ∃ out,
      (transmit i (.getPacket Packet.reject) >>= fun _ => score i 5) w = some ((), w, out) ∧
        out.countP (·.isVerdict i) = 1 := by
  obtain ⟨scores, hscore, hnone⟩ := score_eq hself 5
  refine ⟨_, Action.bind_eq_some_iff.mpr ⟨_, _, _, _, transmit_eq hself hopen _, hscore, rfl⟩, ?_⟩
  simp [Output.isVerdict_getPacket, hnone]

theorem PoolConnection.scoreThenReject_eq (hself : w.pools[i]? = some pool)
    (hopen : pool.mConnection = true) : ∃ out,
      (score i 5 >>= fun _ => transmit i (.getPacket Packet.reject)) w = some ((), w, out) ∧
        out.countP (·.isVerdict i) = 1 := by
  obtain ⟨scores, hscore, hnone⟩ := score_eq hself 5
  refine ⟨_, Action.bind_eq_some_iff.mpr ⟨_, _, _, _, hscore, transmit_eq hself hopen _, rfl⟩, ?_⟩
  simp [Output.isVerdict_getPacket, hnone]

end Sending

/-! ### The exits of the handler -/

section Entries

omit [Platform]

variable {j : ℕ} {ipAddress : Bytes}

theorem DaemonConnection.submitBlock_of_free {block : CBlock}
    (hentry : findPoolConnection ipAddress w = some j) (hfree : submission w j = none) :
    submitBlock block ipAddress w =
      some (true, w.modifyEntry j ({ · with mSubmitBlock := some block }), []) := by
  rw [submitBlock, Action.get_bind,
    Action.bind_of_eq_some (Action.ofOption_eq_some_iff.mpr ⟨hentry, rfl, rfl⟩), hfree]
  rfl

theorem DaemonConnection.submitBlock_of_full {block : CBlock}
    (hentry : findPoolConnection ipAddress w = some j) (hfull : submission w j ≠ none) :
    submitBlock block ipAddress w = some (false, w, []) := by
  have hsome : ¬ (submission w j).isNone := by simpa using hfull
  rw [submitBlock, Action.get_bind,
    Action.bind_of_eq_some (Action.ofOption_eq_some_iff.mpr ⟨hentry, rfl, rfl⟩), if_neg hsome]
  rfl

/-- The entry that was free holds the block now, whichever connection it belongs to. -/
theorem World.holds_modifyEntry {j : ℕ} {block : CBlock}
    (hfree : DaemonConnection.submission w j = none) :
    (w.modifyEntry j ({ · with mSubmitBlock := some block })).Holds i block ↔
      w.owner j = some i ∨ w.Holds i block := by
  have hentries : (w.modifyEntry j
      ({ · with mSubmitBlock := some block })).daemon.mPoolConnections =
    w.daemon.mPoolConnections.modify j ({ · with mSubmitBlock := some block }) := rfl
  unfold World.Holds
  rw [hentries]
  constructor
  · rintro ⟨poolData, hmem, howner, hholds⟩
    obtain ⟨k, hentry⟩ := List.mem_iff_getElem?.mp hmem
    rw [List.getElem?_modify] at hentry
    obtain ⟨poolData', hbefore, rfl⟩ := Option.map_eq_some_iff.mp hentry
    split_ifs at howner hholds with hk
    · subst hk
      left
      rw [World.owner, hbefore]
      exact congrArg some howner
    · exact .inr ⟨poolData', List.mem_of_getElem? hbefore, howner, hholds⟩
  · rintro (howner | ⟨poolData, hmem, howner, hholds⟩)
    · obtain ⟨poolData, hentry, rfl⟩ := Option.map_eq_some_iff.mp howner
      refine ⟨{ poolData with mSubmitBlock := some block },
        List.mem_of_getElem? (i := j) ?_, rfl, rfl⟩
      rw [List.getElem?_modify, hentry]
      simp
    · obtain ⟨k, hentry⟩ := List.mem_iff_getElem?.mp hmem
      have hk : j ≠ k := by
        rintro rfl
        simp [DaemonConnection.submission, hentry, hholds] at hfree
      refine ⟨poolData, List.mem_of_getElem? (i := k) ?_, howner, hholds⟩
      rw [List.getElem?_modify, hentry]
      simp [hk]

end Entries

namespace PoolConnection

theorem handleSubmitShare_of_unchecked (hself : w.pools[i]? = some pool)
    (hopen : pool.mConnection = true) (hlength : data.length = 136)
    (hnone : pool.checkedShare w data = none) : ∃ out,
      handleSubmitShare i data w = some ((), w, out) ∧ out.countP (·.isVerdict i) = 1 := by
  obtain ⟨⟨hashPrimeOrigin, nNonce⟩, hread⟩ :=
    Option.isSome_iff_exists.mp (readShare_isSome_iff.mpr (by omega : 136 ≤ data.length))
  simp only [checkedShare, hread, Option.bind_eq_bind, Option.bind_some] at hnone
  unfold handleSubmitShare
  rw [Action.bind_of_eq_some (self_eq_some_iff.mpr ⟨hself, rfl, rfl⟩),
    Action.bind_of_eq_some (Action.ofOption_eq_some_iff.mpr ⟨hread, rfl, rfl⟩)]
  dsimp only
  cases hblock : pool.mBlocksRequested[hashPrimeOrigin]? with
  | none => exact refuseShare_eq hself hopen (by simp) 1
  | some block =>
    rw [hblock, Option.bind_some] at hnone
    simp only [List.contains_iff_mem] at hnone
    dsimp only
    rw [Action.get_bind]
    split_ifs at hnone ⊢ with hstale hused
    · exact refuseShare_eq hself hopen (by simp) 2
    · exact rejectThenScore_eq hself hopen

/-- A share that is verified is credited or rejected, as its difficulty is sufficient or not. -/
theorem handleSubmitShare_of_checked (hself : w.pools[i]? = some pool) {hashPrimeOrigin : Uint1024}
    {nNonce : UInt64} {block : CBlock} (hread : readShare data = some (hashPrimeOrigin, nNonce))
    (hblock : pool.mBlocksRequested[hashPrimeOrigin]? = some block)
    (hcurrent : block.nHeight = w.registry.mBestHeight)
    (hfresh : hashPrime hashPrimeOrigin nNonce ∉ pool.mPrimes) :
    handleSubmitShare i data w =
      (Action.ofOption (Platform.gmpVerification (hashPrime hashPrimeOrigin nNonce)) >>=
        fun nDifficulty =>
          if Prime.setBits nDifficulty ≥ pool.mMinShare then
            creditShare i block nNonce (hashPrime hashPrimeOrigin nNonce) nDifficulty
          else score i 5 >>= fun _ => transmit i (.getPacket Packet.reject)) w := by
  unfold handleSubmitShare
  rw [Action.bind_of_eq_some (self_eq_some_iff.mpr ⟨hself, rfl, rfl⟩),
    Action.bind_of_eq_some (Action.ofOption_eq_some_iff.mpr ⟨hread, rfl, rfl⟩)]
  dsimp only
  rw [hblock]
  dsimp only
  rw [Action.get_bind, if_neg (not_not.mpr hcurrent), if_neg hfresh]

theorem checkedShare_eq_some {solved : CBlock} {prime : Uint1024}
    (h : pool.checkedShare w data = some (solved, prime)) : ∃ hashPrimeOrigin nNonce block,
      readShare data = some (hashPrimeOrigin, nNonce) ∧
        pool.mBlocksRequested[hashPrimeOrigin]? = some block ∧
          block.nHeight = w.registry.mBestHeight ∧ hashPrime hashPrimeOrigin nNonce ∉ pool.mPrimes ∧
            solved = { block with nNonce := nNonce } ∧
              prime = hashPrime hashPrimeOrigin nNonce := by
  simp only [checkedShare, Option.bind_eq_bind, Option.bind_eq_some_iff] at h
  obtain ⟨⟨hashPrimeOrigin, nNonce⟩, hread, block, hblock, h⟩ := h
  split_ifs at h with hstale hused
  cases h
  exact ⟨hashPrimeOrigin, nNonce, block, hread, hblock, not_not.mp hstale,
    mt List.contains_iff_mem.mpr hused, rfl, rfl⟩

end PoolConnection

namespace VerifiedShare

variable (share : VerifiedShare w i data)

theorem creditShare_eq : PoolConnection.creditShare i share.block share.nNonce
    (PoolConnection.hashPrime share.hashPrimeOrigin share.nNonce) share.nDifficulty w =
      (if share.nDifficulty ≥ Prime.getDifficulty share.block.nBits then do
        if ← DaemonConnection.submitBlock share.solved share.pool.mRemoteAddress then
          PoolConnection.transmit i (.getPacket Packet.block)
      else PoolConnection.transmit i (.getPacket Packet.accept)) share.credited := by
  unfold PoolConnection.creditShare
  rw [Action.bind_of_eq_some (PoolConnection.self_eq_some_iff.mpr ⟨share.self, rfl, rfl⟩),
    Action.bind_of_eq_some (a := ()) (Action.modify_eq_some_iff.mpr ⟨rfl, rfl⟩),
    Action.bind_of_eq_some (registryCall_eq_some_iff.mpr ⟨rfl, rfl, rfl⟩)]
  rfl

theorem self_credited : ∃ pool, share.credited.pools[i]? = some pool ∧
    pool.mConnection = share.pool.mConnection := by
  have hself : share.credited.pools[i]? = (w.modifyPool i fun pool =>
    { pool with mPrimes := PoolConnection.hashPrime share.hashPrimeOrigin share.nNonce ::
      pool.mPrimes }).pools[i]? := rfl
  rw [hself, getElem?_modifyPool, if_pos rfl, share.self]
  exact ⟨_, rfl, rfl⟩

theorem creditShare_of_below (hopen : share.pool.mConnection = true)
    (hbelow : ¬ share.nDifficulty ≥ Prime.getDifficulty share.block.nBits) :
    PoolConnection.creditShare i share.block share.nNonce
      (PoolConnection.hashPrime share.hashPrimeOrigin share.nNonce) share.nDifficulty w =
        some ((), share.credited, [.toMiner i (.getPacket Packet.accept)]) := by
  obtain ⟨pool, hself, hconnection⟩ := share.self_credited
  rw [share.creditShare_eq, if_neg hbelow]
  exact PoolConnection.transmit_eq hself (hconnection.trans hopen) _

/-- A share that solves its block needs an entry, and the answer depends on whether that is free. -/
theorem creditShare_of_found (hopen : share.pool.mConnection = true)
    (hfound : share.nDifficulty ≥ Prime.getDifficulty share.block.nBits) :
    PoolConnection.creditShare i share.block share.nNonce
      (PoolConnection.hashPrime share.hashPrimeOrigin share.nNonce) share.nDifficulty w =
        (DaemonConnection.findPoolConnection share.pool.mRemoteAddress w).bind fun j =>
          if DaemonConnection.submission w j = none then
            some ((), share.credited.modifyEntry j ({ · with mSubmitBlock := some share.solved }),
              [.toMiner i (.getPacket Packet.block)])
          else some ((), share.credited, []) := by
  obtain ⟨pool, hself, hconnection⟩ := share.self_credited
  rw [share.creditShare_eq, if_pos hfound]
  have hsame := share.findPoolConnection_credited share.pool.mRemoteAddress
  cases hentry : DaemonConnection.findPoolConnection share.pool.mRemoteAddress w with
  | none =>
    rw [hentry] at hsame
    apply Action.not_defined_iff.mp
    rintro ⟨_, _, _, h⟩
    obtain ⟨_, _, _, _, hsubmit, -⟩ := Action.bind_eq_some_iff.mp h
    obtain ⟨j, hfind, -⟩ := submitBlock_eq_some hsubmit
    cases hsame.symm.trans hfind
  | some j =>
    rw [hentry] at hsame
    rw [Option.bind_some]
    split_ifs with hfree
    · rw [Action.bind_of_eq_some (DaemonConnection.submitBlock_of_free hsame hfree), if_pos rfl]
      exact PoolConnection.transmit_eq (w := share.credited.modifyEntry j _) hself
        (hconnection.trans hopen) _
    · rw [Action.bind_of_eq_some (DaemonConnection.submitBlock_of_full hsame hfree)]
      rfl

end VerifiedShare

/-! ### A share that is received -/

theorem PoolConnection.handleRequest_submitShare {packet : Packet}
    (header : packet.mHeader = Packet.submitShare) (payload : packet.mData = some data) :
    handleRequest i packet w = handleSubmitShare i data w := by
  unfold handleRequest
  rw [header, if_neg (by decide), if_neg (by decide), if_neg (by decide), if_neg (by decide),
    if_neg (by decide), if_pos rfl,
    Action.bind_of_eq_some (Action.ofOption_eq_some_iff.mpr ⟨payload, rfl, rfl⟩)]

/-- A share of the right size is handled, after what the DDOS filter does. -/
theorem PoolConnection.processData_share (hself : w.pools[i]? = some pool)
    (hlogged : pool.mLoggedIn = true) (hlength : data.length = 136) :
    ∃ bans, bans.countP (·.isVerdict i) = 0 ∧
      processData i (Packet.withData Packet.submitShare data).wire w =
        (handleSubmitShare i data w).map fun r => (r.1, r.2.1, bans ++ r.2.2) := by
  have hparse : Packet.ofBuffer .miner (Packet.withData Packet.submitShare data).wire =
      some (Packet.withData Packet.submitShare data) := by
    have hheader : (Packet.withData Packet.submitShare data).mHeader < 128 :=
      show Packet.submitShare < 128 by decide
    apply Packet.ofBuffer_wire
    rw [Packet.WellFormed, if_pos hheader]
    refine ⟨data, rfl, ?_⟩
    simp [Packet.withData, hlength]
  have hvalid : (Packet.withData Packet.submitShare data).isValid .miner = true := by
    simp [Packet.isValid, Packet.withData, hlength]
    decide
  have hlogin : (Packet.withData Packet.submitShare data).mHeader ≠ Packet.login :=
    show Packet.submitShare ≠ Packet.login by decide
  obtain ⟨bans, hbans, hnone⟩ :=
    ddosInvalidHeader_eq hself (Packet.withData Packet.submitShare data)
  refine ⟨bans, hnone, ?_⟩
  unfold processData
  rw [Action.bind_of_eq_some (Action.ofOption_eq_some_iff.mpr ⟨hparse, rfl, rfl⟩), if_pos hvalid,
    Action.bind_of_eq_some_append hbans,
    Action.bind_of_eq_some (self_eq_some_iff.mpr ⟨hself, rfl, rfl⟩),
    if_neg hlogin, if_pos hlogged, handleRequest_submitShare rfl rfl]

/-- Whether a share is judged depends on its handler alone. -/
theorem World.judges_iff (hself : w.pools[i]? = some pool) (hlogged : pool.mLoggedIn = true)
    (hopen : pool.mConnection = true) (hlength : data.length = 136) :
    w.Judges i pool data ↔ ∃ w' out,
      PoolConnection.handleSubmitShare i data w = some ((), w', out) ∧
        Judged w i pool data w' out := by
  obtain ⟨bans, hnone, hhandle⟩ := PoolConnection.processData_share hself hlogged hlength
  have hstep : w.step (.share i data) =
      (PoolConnection.handleSubmitShare i data w).map fun r => (r.2.1, bans ++ r.2.2) := by
    have henabled : w.enabled (.share i data) = true := by
      simpa [World.enabled, Event.share, hself] using hopen
    rw [World.step, if_pos henabled]
    change (PoolConnection.processData i (Packet.withData Packet.submitShare data).wire w).map _ = _
    rw [hhandle, Option.map_map]
    rfl
  have hjudged : ∀ w' out, Judged w i pool data w' (bans ++ out) ↔ Judged w i pool data w' out := by
    intro w' out
    have hcount : (bans ++ out).countP (·.isVerdict i) = out.countP (·.isVerdict i) := by
      rw [List.countP_append, hnone, Nat.zero_add]
    exact ⟨fun h => ⟨hcount ▸ h.verdict, h.placed⟩, fun h => ⟨hcount.symm ▸ h.verdict, h.placed⟩⟩
  unfold World.Judges
  simp only [hstep, Option.map_eq_some_iff]
  constructor
  · rintro ⟨_, _, ⟨⟨_, w', out⟩, hshare, ⟨⟩⟩, h⟩
    exact ⟨w', out, hshare, (hjudged w' out).mp h⟩
  · rintro ⟨w', out, hshare, h⟩
    exact ⟨w', bans ++ out, ⟨_, hshare, rfl⟩, (hjudged w' out).mpr h⟩

section Verified

variable {solved : CBlock} {prime : Uint1024} {nDifficulty : ℚ}
  (hchecked : pool.checkedShare w data = some (solved, prime))
  (hverified : Platform.gmpVerification prime = some nDifficulty)

include hchecked hverified

theorem PoolConnection.solves_iff {solved' : CBlock} {nDifficulty' : ℚ} :
    pool.Solves w data solved' nDifficulty' ↔ solved' = solved ∧ nDifficulty' = nDifficulty ∧
      nDifficulty ≥ Prime.getDifficulty solved.nBits := by
  constructor
  · rintro ⟨prime', hchecked', hverified', hfound⟩
    cases hchecked.symm.trans hchecked'
    cases hverified.symm.trans hverified'
    exact ⟨rfl, rfl, hfound⟩
  · rintro ⟨rfl, rfl, hfound⟩
    exact ⟨prime, hchecked, hverified, hfound⟩

theorem judged_iff_of_verified : Judged w i pool data w' out ↔
    out.countP (·.isVerdict i) = 1 ∧
      (nDifficulty ≥ Prime.getDifficulty solved.nBits → w'.Holds i solved) := by
  have hsolves := @PoolConnection.solves_iff _ _ _ _ _ _ _ hchecked hverified
  constructor
  · intro h
    exact ⟨h.verdict, fun hfound => h.placed solved nDifficulty (hsolves.mpr ⟨rfl, rfl, hfound⟩)⟩
  · rintro ⟨hverdict, hplaced⟩
    refine ⟨hverdict, fun solved' nDifficulty' h => ?_⟩
    obtain ⟨rfl, rfl, hfound⟩ := hsolves.mp h
    exact hplaced hfound

theorem settles_iff_of_verified : w.Settles i pool data ↔
    (nDifficulty ≥ Prime.getDifficulty solved.nBits →
      if Prime.setBits nDifficulty ≥ pool.mMinShare then w.Admits i pool solved
      else w.Holds i solved) := by
  have hsolves := @PoolConnection.solves_iff _ _ _ _ _ _ _ hchecked hverified
  constructor
  · intro h hfound
    exact h.admitted solved nDifficulty (hsolves.mpr ⟨rfl, rfl, hfound⟩)
  · intro h
    refine ⟨fun solved' prime' hchecked' => ?_, fun solved' nDifficulty' hsolved => ?_⟩
    · cases hchecked.symm.trans hchecked'
      exact Option.isSome_of_eq_some hverified
    · obtain ⟨rfl, rfl, hfound⟩ := hsolves.mp hsolved
      exact h hfound

end Verified

theorem VerifiedShare.judges_iff (share : VerifiedShare w i data)
    (hopen : share.pool.mConnection = true) : (∃ w' out,
      PoolConnection.creditShare i share.block share.nNonce
        (PoolConnection.hashPrime share.hashPrimeOrigin share.nNonce) share.nDifficulty w =
          some ((), w', out) ∧ out.countP (·.isVerdict i) = 1 ∧
            (share.nDifficulty ≥ Prime.getDifficulty share.solved.nBits →
              w'.Holds i share.solved)) ↔
      (share.nDifficulty ≥ Prime.getDifficulty share.solved.nBits →
        w.Admits i share.pool share.solved) := by
  by_cases hfound : share.nDifficulty ≥ Prime.getDifficulty share.block.nBits
  · have hsolved : share.nDifficulty ≥ Prime.getDifficulty share.solved.nBits := hfound
    rw [share.creditShare_of_found hopen hfound]
    simp only [hsolved, true_implies, World.Admits]
    cases hentry : DaemonConnection.findPoolConnection share.pool.mRemoteAddress w with
    | none => simp
    | some j =>
      simp only [Option.bind_some, Option.some.injEq, exists_eq_left']
      split_ifs with hfree
      · rw [← World.holds_modifyEntry hfree]
        constructor
        · rintro ⟨w', out, h, -, hplaced⟩
          cases h
          exact ⟨hfree, hplaced⟩
        · rintro ⟨-, hplaced⟩
          exact ⟨_, _, rfl, by simp [Output.isVerdict_getPacket], hplaced⟩
      · simp [hfree]
  · have hsolved : ¬ share.nDifficulty ≥ Prime.getDifficulty share.solved.nBits := hfound
    rw [share.creditShare_of_below hopen hfound]
    simp [hsolved, Output.isVerdict_getPacket]

/-- A share is answered with one verdict, and a block that it solves is kept, exactly if the
verification yields a difficulty and the block is admitted. -/
theorem World.judges_iff_settles (hself : w.pools[i]? = some pool) (hlogged : pool.mLoggedIn = true)
    (hopen : pool.mConnection = true) (hlength : data.length = 136) :
    w.Judges i pool data ↔ w.Settles i pool data := by
  rw [World.judges_iff hself hlogged hopen hlength]
  cases hchecked : pool.checkedShare w data with
  | none =>
    obtain ⟨out, hshare, hverdict⟩ :=
      PoolConnection.handleSubmitShare_of_unchecked hself hopen hlength hchecked
    have hunsolved : ∀ solved nDifficulty, ¬ pool.Solves w data solved nDifficulty := by
      rintro solved nDifficulty ⟨prime, hsolved, -⟩
      cases hchecked.symm.trans hsolved
    apply iff_of_true
    · exact ⟨w, out, hshare, hverdict, fun _ _ h => absurd h (hunsolved _ _)⟩
    · refine ⟨fun _ _ h => ?_, fun _ _ h => absurd h (hunsolved _ _)⟩
      cases hchecked.symm.trans h
  | some checked =>
    obtain ⟨solved, prime⟩ := checked
    obtain ⟨hashPrimeOrigin, nNonce, block, hread, hblock, hcurrent, hfresh, rfl, rfl⟩ :=
      PoolConnection.checkedShare_eq_some hchecked
    rw [PoolConnection.handleSubmitShare_of_checked hself hread hblock hcurrent hfresh]
    cases hverified : Platform.gmpVerification
      (PoolConnection.hashPrime hashPrimeOrigin nNonce) with
    | none =>
      apply iff_of_false
      · rintro ⟨w', out, h, -⟩
        cases h
      · intro h
        have hsome := h.verified _ _ hchecked
        rw [hverified] at hsome
        cases hsome
    | some nDifficulty =>
      simp only [judged_iff_of_verified hchecked hverified]
      rw [settles_iff_of_verified hchecked hverified,
        Action.bind_of_eq_some (Action.ofOption_eq_some_iff.mpr ⟨rfl, rfl, rfl⟩)]
      by_cases hsufficient : Prime.setBits nDifficulty ≥ pool.mMinShare
      · let share : VerifiedShare w i data :=
          { pool := pool, hashPrimeOrigin := hashPrimeOrigin, nNonce := nNonce, block := block
            nDifficulty := nDifficulty, self := hself, loggedIn := hlogged, read := hread
            requested := hblock, current := hcurrent, fresh := hfresh
            verified := hverified, sufficient := hsufficient }
        simp only [if_pos hsufficient]
        exact share.judges_iff hopen
      · obtain ⟨out, hreject, hverdict⟩ := PoolConnection.scoreThenReject_eq hself hopen
        simp only [if_neg hsufficient, hreject]
        constructor
        · rintro ⟨w', out, h, -, hplaced⟩
          cases h
          exact hplaced
        · intro hplaced
          exact ⟨w, out, rfl, hverdict, hplaced⟩

end Verdicts

/-! ### Two solutions of one block -/

section TwoSolutions

attribute [local instance] Platform.plain

def shareData (nonce : UInt8) : Bytes := List.replicate 128 0 ++ [nonce] ++ List.replicate 7 0

theorem length_shareData (nonce : UInt8) : (shareData nonce).length = 136 := by simp [shareData]

def blockReceived : Option (History World Event Output × World) :=
  trace World.step .fresh (oneRequest ++ [firstBlock])

theorem blockReceived_isSome : blockReceived.isSome := by decide +kernel

def blockReceivedWorld : World := (blockReceived.get blockReceived_isSome).2

theorem blockReceived_connected : blockReceivedWorld.pools[0]?.isSome := by decide +kernel

def blockReceivedPool : PoolConnection := blockReceivedWorld.pools[0]?.get blockReceived_connected

theorem blockReceived_self : blockReceivedWorld.pools[0]? = some blockReceivedPool :=
  (Option.some_get _).symm

theorem blockReceived_entry :
    DaemonConnection.findPoolConnection blockReceivedPool.mRemoteAddress blockReceivedWorld =
      some 0 ∧
      DaemonConnection.submission blockReceivedWorld 0 = none ∧
        blockReceivedWorld.owner 0 = some 0 := by
  decide +kernel

theorem blockReceived_open : blockReceivedPool.mLoggedIn = true ∧
    blockReceivedPool.mConnection = true ∧ blockReceivedPool.mMinShare = 0 := by
  decide +kernel

attribute [local irreducible] blockReceivedWorld blockReceivedPool

theorem firstSolution_judged : blockReceivedWorld.Judges 0 blockReceivedPool (shareData 1) := by
  obtain ⟨hlogged, hopen, hmin⟩ := blockReceived_open
  obtain ⟨hentry, hfree, howner⟩ := blockReceived_entry
  refine (World.judges_iff_settles blockReceived_self hlogged hopen (length_shareData 1)).mpr
    ⟨fun _ _ _ => rfl, ?_⟩
  intro solved nDifficulty _
  rw [hmin, if_pos (UInt32.zero_le)]
  exact ⟨0, hentry, hfree, .inl howner⟩

/-- The miner is logged in, and a share is handled without a verdict. -/
def passedOver (r : History World Event Output × World) (data : Bytes) : Bool :=
  r.2.pools[0]?.any (fun pool => pool.mLoggedIn && pool.mConnection) &&
    (r.2.step (.share 0 data)).any fun s => s.2.countP (·.isVerdict 0) = 0

/-- A second solution comes before the block timer has taken the first one. -/
theorem secondSolution_dropped : ¬ ∀ (platform : Platform) history (w : World) i pool data,
    @ServerRun platform history w → w.pools[i]? = some pool → pool.mLoggedIn = true →
      pool.mConnection = true → data.length = 136 → @World.Judges platform w i pool data := by
  intro h
  have hpassed : (trace World.step .fresh (oneRequest ++ [firstBlock, .share 0 (shareData 1)])).any
      (passedOver · (shareData 2)) = true := by decide +kernel
  obtain ⟨r, hr, hpassed⟩ := (Option.any_eq_true _ _).mp hpassed
  simp only [passedOver, Bool.and_eq_true, Option.any_eq_true] at hpassed
  obtain ⟨⟨pool, hself, hlogged, hopen⟩, s, hs, hnone⟩ := hpassed
  obtain ⟨w', out, hstep, hjudged⟩ := h .plain r.1 r.2 0 pool (shareData 2)
    (Run.of_trace World.fresh_initial hr) hself hlogged hopen (length_shareData 2)
  cases hs.symm.trans hstep
  exact absurd (hjudged.verdict.symm.trans (of_decide_eq_true hnone)) (by decide)

end TwoSolutions

end NexusPool
