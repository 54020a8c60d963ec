import NexusPool.Server.StepEffect

/-!
# Block submissions

A block goes from the wallet to a miner, comes back as a share, waits in an entry of the
daemon connection, is sent to the wallet and is answered. The docket follows submissions
through these stages, from what the history shows of them; the state of the server is then
compared with the docket.
-/

namespace NexusPool

open Reactive World

/-- A solved block: the `BLOCK_DATA` of the wallet, the share of the miner, and the address
the miner was logged in with. -/
structure Submission where
  blockData : Bytes
  share : Bytes
  finder : Bytes

/-- What a step means for the submissions: a block is delivered to connection `i`, a share of
connection `i` is accepted as a block and goes to entry `j`, the block of entry `j` is taken
from it and sent or dropped, a block that was sent is answered. -/
inductive Signal
  | quiet
  | delivered (i : ℕ) (blockData : Bytes)
  | found (i j : ℕ) (finder share : Bytes)
  | taken (j : ℕ) (sent : Bool)
  | answered

namespace Signal

def ofWallet (packet : Packet) (outputs : List Output) : Signal :=
  if packet.mHeader = DaemonPacket.blockData then
    match outputs, packet.mData with
    | .toMiner i _ :: _, some blockData => .delivered i blockData
    | _, _ => .quiet
  else if packet.mHeader ∈ [DaemonPacket.good, DaemonPacket.fail] then .answered
  else .quiet

def ofMiner (w : World) (i : ℕ) (receiveBuffer : Bytes) (outputs : List Output) : Signal :=
  if .toMiner i (.getPacket Packet.block) ∈ outputs then
    Option.getD
      (do
        let packet ← Packet.ofBuffer .miner receiveBuffer
        let share ← packet.mData
        let pool ← w.pools[i]?
        let j ← DaemonConnection.findPoolConnection pool.mRemoteAddress w
        return .found i j pool.mNxsaddress share)
      .quiet
  else .quiet

def ofTick (w : World) (outputs : List Output) : Signal :=
  if w.daemon.mCoinbasePending then .quiet
  else
    match DaemonConnection.nextSubmission w with
    | none => .quiet
    | some (j, _) => .taken j (outputs.any (Output.transmits DaemonPacket.submitBlockHeader))

def of (o : Occurrence World Event Output) : Signal :=
  match o.event with
  | .walletData _ => o.event.walletPacket.elim .quiet (ofWallet · o.outputs)
  | .minerData i receiveBuffer => ofMiner o.before i receiveBuffer o.outputs
  | .blockTimer => ofTick o.before o.outputs
  | _ => .quiet

end Signal

/-! ### The docket -/

/-- `delivered` has the last payload for each connection and block hash, `waiting` the
submission behind the block of each entry, and `inFlight` what is sent and not answered. -/
structure Docket where
  delivered : ℕ → Uint1024 → Option Bytes
  waiting : ℕ → Option Submission
  inFlight : List Submission
  lastTaken : Option Submission
  lastSent : Option Submission

namespace Docket

def empty : Docket := ⟨fun _ _ => none, fun _ => none, [], none, none⟩

variable [Platform]

def submitted (d : Docket) : Signal → Option Submission
  | .found i _ finder share => do
    let (hashPrimeOrigin, _) ← PoolConnection.readShare share
    let blockData ← d.delivered i hashPrimeOrigin
    return ⟨blockData, share, finder⟩
  | _ => none

def deliver (d : Docket) (i : ℕ) (blockData : Bytes) : Docket :=
  match CBlock.deserialize blockData with
  | none => d
  | some block =>
    { d with delivered :=
        Function.update d.delivered i (Function.update (d.delivered i) block.getHash blockData) }

def take (d : Docket) (j : ℕ) (sent : Bool) : Docket :=
  { d with
    waiting := Function.update d.waiting j none
    inFlight := if sent then d.inFlight ++ (d.waiting j).toList else d.inFlight
    lastTaken := d.waiting j
    lastSent := if sent then d.waiting j else d.lastSent }

/-- The wallet answers in the order in which blocks were sent. -/
def next (d : Docket) (signal : Signal) : Docket :=
  match signal with
  | .quiet => d
  | .delivered i blockData => d.deliver i blockData
  | .found _ j _ _ => { d with waiting := Function.update d.waiting j (d.submitted signal) }
  | .taken j sent => d.take j sent
  | .answered => { d with inFlight := d.inFlight.tail }

end Docket

def docket [Platform] : History World Event Output → Docket
  | [] => .empty
  | o :: past => (docket past).next (.of o)

/-! ### What the submissions depend on -/

namespace World

def requested (w : World) (i : ℕ) (hash : Uint1024) : Option CBlock :=
  w.pools[i]?.bind (·.mBlocksRequested[hash]?)

def account (w : World) (i : ℕ) : Option Bytes :=
  (w.pools[i]?.filter (·.mLoggedIn)).map (·.mNxsaddress)

theorem account_modifyPool {f : PoolConnection → PoolConnection}
    (hlogin : ∀ pool, (f pool).mLoggedIn = pool.mLoggedIn)
    (haddress : ∀ pool, (f pool).mNxsaddress = pool.mNxsaddress) (i k : ℕ) (w : World) :
    (w.modifyPool i f).account k = w.account k := by
  unfold World.account
  rw [getElem?_modifyPool]
  split_ifs
  · cases w.pools[k]? <;> simp [Option.filter, hlogin, apply_ite, haddress]
  · rfl

def owner (w : World) (j : ℕ) : Option ℕ := w.daemon.mPoolConnections[j]?.map (·.mConnection)

end World

/-- No block is given to a connection or put into an entry, and nobody is logged out. -/
structure Kept (w w' : World) : Prop where
  requested : ∀ i hash block, w'.requested i hash = some block → w.requested i hash = some block
  submission : ∀ j, DaemonConnection.submission w' j = DaemonConnection.submission w j
  account : ∀ i nxsAddress, w.account i = some nxsAddress → w'.account i = some nxsAddress
  owner : ∀ j i, w.owner j = some i → w'.owner j = some i
  hash : w'.daemon.mHashSubmitBlock = w.daemon.mHashSubmitBlock
  finder : w'.daemon.mLastBlockfinder = w.daemon.mLastBlockfinder

namespace Kept

variable {w w₁ w' : World}

theorem refl (w : World) : Kept w w :=
  ⟨fun _ _ _ h => h, fun _ => rfl, fun _ _ h => h, fun _ _ h => h, rfl, rfl⟩

theorem trans (h : Kept w w₁) (h' : Kept w₁ w') : Kept w w' where
  requested i hash block hb := h.requested i hash block (h'.requested i hash block hb)
  submission j := (h'.submission j).trans (h.submission j)
  account i nxsAddress ha := h'.account i nxsAddress (h.account i nxsAddress ha)
  owner j i ho := h'.owner j i (h.owner j i ho)
  hash := h'.hash.trans h.hash
  finder := h'.finder.trans h.finder

/-- The entries matter without their counters. -/
theorem of_slots
    (hblocks : ∀ (i : ℕ) (pool' : PoolConnection), w'.pools[i]? = some pool' →
      pool'.mBlocksRequested = ∅ ∨
        ∃ pool, w.pools[i]? = some pool ∧ pool'.mBlocksRequested = pool.mBlocksRequested)
    (haccount : ∀ i nxsAddress, w.account i = some nxsAddress → w'.account i = some nxsAddress)
    (hslots : w'.daemon.mPoolConnections.map PoolConnectionData.slot =
      w.daemon.mPoolConnections.map PoolConnectionData.slot)
    (hhash : w'.daemon.mHashSubmitBlock = w.daemon.mHashSubmitBlock)
    (hfinder : w'.daemon.mLastBlockfinder = w.daemon.mLastBlockfinder) : Kept w w' := by
  have hslot : ∀ j : ℕ, w'.daemon.mPoolConnections[j]?.map PoolConnectionData.slot =
      w.daemon.mPoolConnections[j]?.map PoolConnectionData.slot := by
    intro j
    simpa using congrArg (·[j]?) hslots
  refine ⟨fun i hash block hb => ?_, fun j => ?_, haccount, fun j i ho => ?_, hhash, hfinder⟩
  · obtain ⟨pool', hpool', hb⟩ := Option.bind_eq_some_iff.mp hb
    obtain hempty | ⟨pool, hpool, heq⟩ := hblocks i pool' hpool'
    · simp [hempty] at hb
    · simp [World.requested, hpool, ← heq, hb]
  · have h := congrArg (Option.bind · Prod.snd) (hslot j)
    simpa [DaemonConnection.submission, Option.bind_map, Function.comp_def,
      PoolConnectionData.slot] using h
  · have h := congrArg (Option.map Prod.fst) (hslot j)
    simp only [Option.map_map, Function.comp_def, PoolConnectionData.slot] at h
    exact h.trans ho

theorem of_pools (hpools : w'.pools = w.pools)
    (hentries : w'.daemon.mPoolConnections = w.daemon.mPoolConnections)
    (hhash : w'.daemon.mHashSubmitBlock = w.daemon.mHashSubmitBlock)
    (hfinder : w'.daemon.mLastBlockfinder = w.daemon.mLastBlockfinder) : Kept w w' := by
  refine of_slots (fun i pool' h => .inr ⟨pool', hpools ▸ h, rfl⟩) (fun i nxsAddress h => ?_)
    (congrArg _ hentries) hhash hfinder
  rw [World.account, hpools]
  exact h

theorem modifyPool {f : PoolConnection → PoolConnection} {i : ℕ}
    (hblocks : ∀ pool, (f pool).mBlocksRequested = pool.mBlocksRequested)
    (haccount : ∀ pool, w.pools[i]? = some pool → pool.mLoggedIn →
      (f pool).mLoggedIn ∧ (f pool).mNxsaddress = pool.mNxsaddress) :
        Kept w (w.modifyPool i f) := by
  refine of_slots (fun k pool' h => .inr ?_) (fun k nxsAddress h => ?_) rfl rfl rfl
  · rw [getElem?_modifyPool] at h
    split_ifs at h
    · obtain ⟨pool, hpool, rfl⟩ := Option.map_eq_some_iff.mp h
      exact ⟨pool, hpool, hblocks pool⟩
    · exact ⟨pool', h, rfl⟩
  · simp only [World.account, Option.map_eq_some_iff, Option.filter_eq_some_iff] at h ⊢
    obtain ⟨pool, ⟨hpool, hlogged⟩, rfl⟩ := h
    rw [getElem?_modifyPool]
    split_ifs with hk
    · subst hk
      obtain ⟨hf, haddress⟩ := haccount pool hpool hlogged
      exact ⟨f pool, ⟨by rw [hpool]; rfl, hf⟩, haddress⟩
    · exact ⟨pool, ⟨hpool, hlogged⟩, rfl⟩

/-- A connection that is not logged in has no account to keep. -/
theorem modifyPool_of_loggedOut {f : PoolConnection → PoolConnection} {i : ℕ}
    {pool : PoolConnection}
    (hblocks : ∀ pool, (f pool).mBlocksRequested = pool.mBlocksRequested)
    (hself : w.pools[i]? = some pool) (loggedOut : ¬ pool.mLoggedIn) :
    Kept w (w.modifyPool i f) := by
  apply modifyPool hblocks
  intro pool' hpool hlogged
  cases hself.symm.trans hpool
  exact absurd hlogged loggedOut

theorem modifyEntry {f : PoolConnectionData → PoolConnectionData}
    (hf : ∀ poolData, (f poolData).slot = poolData.slot) (j : ℕ) : Kept w (w.modifyEntry j f) :=
  of_slots (fun _ pool' h => .inr ⟨pool', h, rfl⟩) (fun _ _ h => h)
    (map_modify_eq hf j _) rfl rfl

theorem of_forwardFrame {out : List Output} (h : ForwardFrame w w' out) : Kept w w' := by
  refine of_slots (fun i pool' hpool' => .inr ⟨pool', h.pools ▸ hpool', rfl⟩)
    (fun i nxsAddress ha => ?_) h.slots ?_ ?_
  · rw [World.account, h.pools]
    exact ha
  · rw [h.daemon]
  · rw [h.daemon]

theorem of_roundFrame {out : List Output} (h : RoundFrame w w' out) : Kept w w' := by
  refine of_slots h.blocks (fun i nxsAddress ha => ?_) ?_ ?_ ?_
  · have hsession := congrArg (·[i]?) h.sessions
    simp only [List.getElem?_map] at hsession
    simp only [World.account, Option.map_eq_some_iff, Option.filter_eq_some_iff] at ha ⊢
    obtain ⟨pool, ⟨hpool, hlogged⟩, rfl⟩ := ha
    rw [hpool] at hsession
    obtain ⟨pool', hpool', heq⟩ := Option.map_eq_some_iff.mp hsession
    have hlogin : pool'.session.mLoggedIn = pool.session.mLoggedIn := by rw [heq]
    have haddress : pool'.session.mNxsaddress = pool.session.mNxsaddress := by rw [heq]
    exact ⟨pool', ⟨hpool', hlogin.trans hlogged⟩, haddress⟩
  · rw [h.daemon]
  · rw [h.daemon]
  · rw [h.daemon]

theorem minerConnected (ipAddress : Bytes) :
    Kept w (({ w with pools := w.pools ++ [PoolConnection.new ipAddress w.registry.mConfig] } :
      World).modifyDaemon fun d =>
        { d with mPoolConnections := d.mPoolConnections ++ [⟨w.pools.length, 0, 0, none⟩] }) where
  requested i hash block h := by
    obtain ⟨pool, hpool, hblock⟩ := Option.bind_eq_some_iff.mp h
    rw [modifyDaemon, List.getElem?_append] at hpool
    split_ifs at hpool with hi
    · exact Option.bind_eq_some_iff.mpr ⟨pool, hpool, hblock⟩
    · obtain rfl := List.mem_singleton.mp (List.mem_of_getElem? hpool)
      simp [PoolConnection.new] at hblock
  submission j := by
    simp only [DaemonConnection.submission, modifyDaemon, List.getElem?_append]
    split_ifs with hj
    · rfl
    · rw [List.getElem?_eq_none (not_lt.mp hj)]
      cases j - w.daemon.mPoolConnections.length <;> rfl
  account i nxsAddress h := by
    simp only [World.account, Option.map_eq_some_iff, Option.filter_eq_some_iff] at h ⊢
    obtain ⟨pool, ⟨hpool, hlogged⟩, rfl⟩ := h
    obtain ⟨hi, -⟩ := List.getElem?_eq_some_iff.mp hpool
    exact ⟨pool, ⟨(List.getElem?_append_left hi).trans hpool, hlogged⟩, rfl⟩
  owner j i h := by
    obtain ⟨poolData, hentry, rfl⟩ := Option.map_eq_some_iff.mp h
    obtain ⟨hj, -⟩ := List.getElem?_eq_some_iff.mp hentry
    exact Option.map_eq_some_iff.mpr ⟨poolData, (List.getElem?_append_left hj).trans hentry, rfl⟩
  hash := rfl
  finder := rfl

theorem serverMaintenance : Kept w { w with pools := w.pools.map fun pool =>
    { pool with alive := pool.alive && !pool.mConnectionClosed } } := by
  refine .of_slots (fun i pool' h => ?_) (fun i nxsAddress h => ?_) rfl rfl rfl
  · rw [List.getElem?_map] at h
    obtain ⟨pool, hpool, rfl⟩ := Option.map_eq_some_iff.mp h
    exact .inr ⟨pool, hpool, rfl⟩
  · simp only [World.account, Option.map_eq_some_iff, Option.filter_eq_some_iff,
      List.getElem?_map] at h ⊢
    obtain ⟨pool, ⟨hpool, hlogged⟩, rfl⟩ := h
    exact ⟨_, ⟨⟨pool, hpool, rfl⟩, hlogged⟩, rfl⟩

end Kept

/-! ### What a step does to the submissions -/

def Output.isSubmitBlock : Output → Bool := Output.transmits DaemonPacket.submitBlockHeader

section Effects

variable [Platform]

/-- Apart from what is kept, one block is given to a connection, put into an entry or taken out
of one, as the signal of the step says. -/
inductive SubmissionEffect (w : World) : World → List Output → Signal → Prop
  | kept {w' : World} {out : List Output} {signal : Signal}
      (unrelated : signal = .quiet ∨ signal = .answered) (kept : Kept w w')
      (silent : ∀ o ∈ out, o.isSubmitBlock = false) : SubmissionEffect w w' out signal
  | delivered {w₁ : World} {out : List Output} {i : ℕ} {blockData : Bytes} {block : CBlock}
      (kept : Kept w w₁) (parsed : CBlock.deserialize blockData = some block)
      (silent : ∀ o ∈ out, o.isSubmitBlock = false) :
      SubmissionEffect w
        (w₁.modifyPool i fun pool =>
          { pool with
            mNumBlocksRequested := pool.mNumBlocksRequested - 1
            mBlocksRequested := pool.mBlocksRequested.insert block.getHash block })
        out (.delivered i blockData)
  | found {out : List Output} {i j : ℕ} {data : Bytes} (share : VerifiedShare w i data)
      (silent : ∀ o ∈ out, o.isSubmitBlock = false) :
      SubmissionEffect w
        (share.credited.modifyEntry j ({ · with mSubmitBlock := some share.solved }))
        out (.found i j share.pool.mNxsaddress data)
  | taken {w₁ w' : World} {out out' : List Output} {j : ℕ}
      (take : TakeEffect w w₁ out) (next : (DaemonConnection.nextSubmission w).map (·.1) = some j)
      (kept : Kept w₁ w') (silent : ∀ o ∈ out', o.isSubmitBlock = false) :
      SubmissionEffect w w' (out ++ out') (.taken j (out.any Output.isSubmitBlock))

variable {w w' : World} {out : List Output}

theorem VerifiedShare.kept_credited {i : ℕ} {data : Bytes} (share : VerifiedShare w i data) :
    Kept w share.credited := by
  have h : Kept w (w.modifyPool i fun pool =>
      { pool with mPrimes :=
          PoolConnection.hashPrime share.hashPrimeOrigin share.nNonce :: pool.mPrimes }) :=
    .modifyPool (fun _ => rfl) fun _ _ hlogged => ⟨hlogged, rfl⟩
  exact h.trans (.of_pools rfl rfl rfl rfl)

/-- A share that is accepted as a block is found at the entry that its address leads to. -/
theorem VerifiedShare.ofMiner_accepted {i j : ℕ} {receiveBuffer data : Bytes} {packet : Packet}
    (share : VerifiedShare w i data) (parsed : Packet.ofBuffer .miner receiveBuffer = some packet)
    (payload : packet.mData = some data)
    (entry : DaemonConnection.findPoolConnection share.pool.mRemoteAddress w = some j) :
    Signal.ofMiner w i receiveBuffer (out ++ [.toMiner i (.getPacket Packet.block)]) =
      .found i j share.pool.mNxsaddress data := by
  rw [Signal.ofMiner, if_pos (by simp)]
  simp [parsed, payload, share.self, entry]

theorem MinerEffect.submissionEffect {i : ℕ} {receiveBuffer : Bytes} {packet : Packet}
    (parsed : Packet.ofBuffer .miner receiveBuffer = some packet)
    (h : MinerEffect w i packet w' out) :
    SubmissionEffect w w' out (Signal.ofMiner w i receiveBuffer out) := by
  have hsilent := h.not_transmits DaemonPacket.submitBlockHeader
  have hquiet : ∀ {out : List Output}, (∀ o ∈ out, Reply i o) →
      Signal.ofMiner w i receiveBuffer out = .quiet := by
    intro out replies
    exact if_neg (Reply.block_notMem replies)
  cases h with
  | reply replies => exact .kept (.inl (hquiet replies)) (.refl w) hsilent
  | refused self loggedOut registry replies =>
    refine .kept (.inl (hquiet replies)) ?_ hsilent
    refine (Kept.modifyPool_of_loggedOut ?_ self loggedOut).trans (.of_pools rfl rfl rfl rfl)
    exact fun _ => rfl
  | loggedIn self loggedOut valid unbanned replies =>
    refine .kept (.inl (hquiet replies)) ?_ hsilent
    refine (Kept.modifyPool_of_loggedOut ?_ self loggedOut).trans (.of_pools rfl rfl rfl rfl)
    exact fun _ => rfl
  | getBlock self header entry replies =>
    refine .kept (.inl (hquiet replies)) ?_ hsilent
    refine Kept.trans (.modifyPool ?_ ?_) (.modifyEntry ?_ _)
    · exact fun _ => rfl
    · exact fun _ _ hlogged => ⟨hlogged, rfl⟩
    · exact fun _ => rfl
  | getBalance self loggedIn replies =>
    exact .kept (.inl (hquiet replies)) (.of_pools rfl rfl rfl rfl) hsilent
  | credited share header payload replies =>
    exact .kept (.inl (hquiet replies)) share.kept_credited hsilent
  | @accepted out data share j header payload entry free replies =>
    rw [share.ofMiner_accepted parsed payload entry]
    exact .found share hsilent

theorem WalletEffect.not_transmits {packet : Packet} (h : WalletEffect w packet w' out)
    {header : UInt8} (hheader : DaemonPacket.setCoinbaseHeader ≠ header) :
    ∀ o ∈ out, o.transmits header = false := by
  intro o ho
  cases h with
  | rebuilt =>
    rw [List.mem_singleton.mp ho]
    exact decide_eq_false hheader
  | delivered =>
    rw [List.mem_singleton.mp ho]
    rfl
  | round cause frame =>
    rcases List.mem_append.mp ho with ho | ho
    · obtain ⟨i, height, rfl⟩ := frame.outputs o ho
      rfl
    · unfold World.resetOutputs at ho
      split_ifs at ho
      · rw [List.mem_singleton.mp ho]
        exact decide_eq_false hheader
      · simp at ho
  | _ => simp at ho

theorem RoundCause.kept {packet : Packet} {w₁ : World} (cause : RoundCause w packet w₁) :
    Kept w w₁ := by
  cases cause <;> exact .of_pools rfl rfl rfl rfl

theorem WalletEffect.submissionEffect {packet : Packet} (h : WalletEffect w packet w' out) :
    SubmissionEffect w w' out (Signal.ofWallet packet out) := by
  have hsilent := h.not_transmits (show _ ≠ DaemonPacket.submitBlockHeader by decide)
  have hother : ∀ {out : List Output}, packet.mHeader ≠ DaemonPacket.blockData ∨ out = [] →
      Signal.ofWallet packet out = .quiet ∨ Signal.ofWallet packet out = .answered := by
    unfold Signal.ofWallet
    rintro out (hheader | rfl)
    · rw [if_neg hheader]
      split_ifs <;> simp
    · split_ifs <;> simp
  cases h with
  | ignored => exact .kept (hother (.inr rfl)) (.refl w) hsilent
  | pending => exact .kept (hother (.inr rfl)) (.of_pools rfl rfl rfl rfl) hsilent
  | goodBlock => exact .kept (hother (.inr rfl)) (.of_pools rfl rfl rfl rfl) hsilent
  | orphan => exact .kept (hother (.inr rfl)) (.of_pools rfl rfl rfl rfl) hsilent
  | rebuilt header =>
    exact .kept (hother (.inl (by rw [header]; decide))) (.of_pools rfl rfl rfl rfl) hsilent
  | @delivered data block j i pool header payload parsed current entry self isOpen =>
    unfold Signal.ofWallet
    rw [if_pos header, payload]
    exact .delivered (.modifyEntry (by intro _; rfl) j) parsed hsilent
  | swallowed => exact .kept (hother (.inr rfl)) (.modifyEntry (by intro _; rfl) _) hsilent
  | @round w₁ w₂ _ cause frame =>
    have hstart : Kept w₁ (w₁.modifyDaemon ({ · with mNewBlock := true })) :=
      .of_pools rfl rfl rfl rfl
    have hreset : Kept w₂ w₂.reset := .of_pools rfl rfl rfl rfl
    have hkept := (cause.kept.trans hstart).trans ((Kept.of_roundFrame frame).trans hreset)
    exact .kept (hother (.inl cause.not_blockData)) hkept hsilent

theorem blockTimer_submissionEffect {w₁ : World} {out₁ out₂ : List Output}
    (take : TakeEffect w w₁ out₁) (forward : ForwardFrame w₁ w' out₂)
    (settled : w.daemon.mCoinbasePending = false) :
    SubmissionEffect w w' (out₁ ++ out₂) (Signal.ofTick w (out₁ ++ out₂)) := by
  have hsilent : ∀ o ∈ out₂, o.isSubmitBlock = false := by
    intro o ho
    rw [forward.outputs o ho]
    rfl
  have hany : (out₁ ++ out₂).any Output.isSubmitBlock = out₁.any Output.isSubmitBlock := by
    have hrest : out₂.any Output.isSubmitBlock = false := by simpa using hsilent
    rw [List.any_append, hrest, Bool.or_false]
  unfold Signal.ofTick
  rw [if_neg (by simp [settled])]
  cases hnext : DaemonConnection.nextSubmission w with
  | none =>
    cases take with
    | idle => exact .kept (.inl rfl) (.of_forwardFrame forward) hsilent
    | stale next => simp [hnext] at next
    | sent next => simp [hnext] at next
  | some next =>
    obtain ⟨j, pool, block⟩ := next
    change SubmissionEffect w w' _ (.taken j ((out₁ ++ out₂).any Output.isSubmitBlock))
    rw [hany]
    exact .taken take (by rw [hnext]; rfl) (.of_forwardFrame forward) hsilent

/-- Every step does to the submissions what its signal says. -/
theorem StepEffect.submissionEffect {e : Event} (h : StepEffect w e w' out) :
    SubmissionEffect w w' out (Signal.of ⟨w, e, w', out⟩) := by
  have hno : ∀ o ∈ ([] : List Output), o.isSubmitBlock = false := by simp
  cases h with
  | minerConnected => exact .kept (.inl rfl) (Kept.minerConnected _) hno
  | miner parsed effect => exact effect.submissionEffect parsed
  | minerClosed =>
    refine .kept (.inl rfl) (.modifyPool ?_ ?_) hno
    · exact fun _ => rfl
    · exact fun _ _ hlogged => ⟨hlogged, rfl⟩
  | serverMaintenance => exact .kept (.inl rfl) Kept.serverMaintenance hno
  | walletConnected =>
    refine .kept (.inl rfl) (.of_pools rfl rfl rfl rfl) fun o ho => ?_
    rw [List.mem_singleton.mp ho]
    rfl
  | walletDropped dropped =>
    have hsignal : ∀ {receiveBuffer : Bytes}, (Event.walletData receiveBuffer).walletPacket = none →
        Signal.of ⟨w, .walletData receiveBuffer, w, []⟩ = .quiet := by
      intro receiveBuffer hdropped
      simp only [Signal.of, hdropped, Option.elim_none]
    exact .kept (.inl (hsignal dropped)) (.refl w) hno
  | wallet parsed effect =>
    have heffect := effect.submissionEffect
    simpa only [Signal.of, parsed, Option.elim_some] using heffect
  | walletClosed => exact .kept (.inl rfl) (.of_pools rfl rfl rfl rfl) hno
  | blockTimerPending pending =>
    refine .kept (.inl ?_) (.refl w) hno
    simp [Signal.of, Signal.ofTick, pending]
  | blockTimer take forward settled => exact blockTimer_submissionEffect take forward settled
  | orphanCheckTimer outputs =>
    refine .kept (.inl rfl) (.refl w) fun o ho => ?_
    obtain ⟨hashBlock, rfl⟩ := outputs o ho
    rfl
  | getHeightTimer outputs =>
    refine .kept (.inl rfl) (.refl w) fun o ho => ?_
    have hmem := outputs o ho
    simp only [List.mem_cons, List.not_mem_nil, or_false] at hmem
    rcases hmem with rfl | rfl | rfl <;> rfl

end Effects

end NexusPool
