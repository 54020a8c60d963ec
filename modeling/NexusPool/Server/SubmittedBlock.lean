import NexusPool.Server.Submissions

/-!
# Found blocks on their way to the wallet

The block that an entry of the daemon connection holds is the one that the docket has for it,
so the payload of `SUBMIT_BLOCK` can be compared with what the wallet and the miner sent. The
nonce passes through `bytes2uint64`, which loses its high word.
-/

namespace NexusPool

open Reactive World

section Following

variable [Platform]

namespace Submission

def hash (sub : Submission) : Option Uint1024 :=
  (CBlock.deserialize sub.blockData).map CBlock.getHash

def verified (sub : Submission) : Option Uint1024 :=
  (PoolConnection.readShare sub.share).map fun share => PoolConnection.hashPrime share.1 share.2

omit [Platform] in
def nonce (sub : Submission) : Bytes := sub.share.drop 128

omit [Platform] in
/-- The payload that carries the block unchanged: its merkle root and its nonce. -/
def payload (sub : Submission) : Bytes := (sub.blockData.drop 132).take 64 ++ sub.nonce

/-- The verified number is the hash of the block plus the value of the nonce. -/
def PrimeUnchanged (sub : Submission) : Prop :=
  ∃ hash prime, sub.hash = some hash ∧ sub.verified = some prime ∧
    prime.toNat = (hash.toNat + wordValue sub.nonce) % 2 ^ 1024

omit [Platform] in
def WellSized (sub : Submission) : Prop := sub.blockData.length = 216 ∧ sub.share.length = 136

omit [Platform] in
instance (sub : Submission) : Decidable sub.WellSized :=
  inferInstanceAs (Decidable (_ ∧ _))

/-- `solved` is the block of the submission with the nonce of its share. -/
def Yields (sub : Submission) (solved : CBlock) : Prop :=
  ∃ block, CBlock.deserialize sub.blockData = some block ∧
    PoolConnection.readShare sub.share = some (block.getHash, solved.nNonce) ∧
      solved = { block with nNonce := solved.nNonce }

variable {sub : Submission} {solved : CBlock}

theorem Yields.hash_eq (h : sub.Yields solved) : sub.hash = some solved.getHash := by
  obtain ⟨block, hblock, -, heq⟩ := h
  rw [hash, hblock, heq]
  rfl

/-- The nonce of the block is what `bytes2uint64` makes of the last eight bytes. -/
theorem Yields.nNonce_eq (h : sub.Yields solved) (hsize : sub.WellSized) :
    solved.nNonce = bytes2uint64 sub.nonce 0 := by
  obtain ⟨block, -, hread, -⟩ := h
  have hlong : ¬ sub.share.length < 8 := by rw [hsize.2]; decide
  rw [PoolConnection.readShare, if_neg hlong, hsize.2] at hread
  obtain ⟨hashPrimeOrigin, -, heq⟩ := Option.map_eq_some_iff.mp hread
  exact (congrArg Prod.snd heq).symm

omit [Platform] in
theorem length_nonce (hsize : sub.WellSized) : sub.nonce.length = 8 := by
  simp [nonce, hsize.2]

/-- The payload is unchanged exactly when the nonce needs no more than 32 bits. -/
theorem Yields.payload_iff (h : sub.Yields solved) (hsize : sub.WellSized) :
    solved.hashMerkleRoot.getBytes ++ uint2bytes64 solved.nNonce = sub.payload ↔
      wordValue sub.nonce < 2 ^ 32 := by
  rw [h.nNonce_eq hsize]
  obtain ⟨block, hblock, -, heq⟩ := h
  have hmerkle : solved.hashMerkleRoot = block.hashMerkleRoot := by rw [heq]
  have hroot : solved.hashMerkleRoot.getBytes = (sub.blockData.drop 132).take 64 := by
    rw [hmerkle]
    exact CBlock.getBytes_hashMerkleRoot hblock hsize.1
  rw [hroot, payload, List.append_cancel_left_eq,
    uint2bytes64_bytes2uint64_iff (length_nonce hsize)]

omit [Platform] in
theorem eq_of_add_mod_eq {a b c n : ℕ} (hb : b < n) (hc : c < n) (h : (a + b) % n = (a + c) % n) :
    b = c :=
  (Nat.ModEq.add_left_cancel' a h).eq_of_lt_of_lt hb hc

omit [Platform] in
theorem wordValue_lt (bytes : Bytes) : wordValue bytes < 2 ^ 64 := by
  have hlow := (bytes2uint bytes 0).toNat_lt
  have hhigh := (bytes2uint bytes 4).toNat_lt
  unfold wordValue
  omega

theorem Yields.primeUnchanged_iff (h : sub.Yields solved) (hsize : sub.WellSized) :
    sub.PrimeUnchanged ↔ wordValue sub.nonce < 2 ^ 32 := by
  have hnonce := h.nNonce_eq hsize
  have hhash := h.hash_eq
  obtain ⟨block, -, hread, heq⟩ := h
  have hblock : block.getHash = solved.getHash := by rw [heq]; rfl
  have hverified : sub.verified = some (PoolConnection.hashPrime solved.getHash solved.nNonce) := by
    rw [verified, hread, ← hblock]
    rfl
  have hvalue : (PoolConnection.hashPrime solved.getHash solved.nNonce).toNat =
      (solved.getHash.toNat + (bytes2uint64 sub.nonce 0).toNat) % 2 ^ 1024 := by
    rw [PoolConnection.hashPrime, BaseUint.toNat_add, BaseUint.toNat_ofUInt64, hnonce]
  rw [← bytes2uint64_eq_wordValue_iff]
  constructor
  · rintro ⟨hash, prime, hsome, hprime, hsum⟩
    cases hhash.symm.trans hsome
    cases hverified.symm.trans hprime
    rw [hvalue] at hsum
    have hwide : 2 ^ 64 ≤ 2 ^ 1024 := pow_le_pow_right₀ one_le_two (by norm_num)
    exact eq_of_add_mod_eq ((bytes2uint64 sub.nonce 0).toNat_lt.trans_le hwide)
      ((wordValue_lt sub.nonce).trans_le hwide) hsum
  · intro heq
    exact ⟨_, _, hhash, hverified, by rw [hvalue, heq]⟩

end Submission

/-! ### The state follows the docket -/

/-- What the state of the server has in common with the docket. -/
structure Tracks (d : Docket) (w : World) : Prop where
  requested : ∀ i hash block, w.requested i hash = some block → hash = block.getHash ∧
    ∃ blockData, d.delivered i hash = some blockData ∧ CBlock.deserialize blockData = some block
  held : ∀ j solved, DaemonConnection.submission w j = some solved →
    ∃ sub, d.waiting j = some sub ∧ sub.Yields solved
  taken : ∀ sub, d.lastTaken = some sub → sub.hash = some w.daemon.mHashSubmitBlock
  inFlight : d.inFlight ≠ [] → d.lastTaken.isSome ∧ d.lastSent.isSome

namespace DaemonConnection

omit [Platform] in
theorem submission_modifyEntry {f : PoolConnectionData → PoolConnectionData} (j k : ℕ) (w : World) :
    submission (w.modifyEntry j f) k =
      if j = k then (w.daemon.mPoolConnections[k]?.map f).bind (·.mSubmitBlock)
        else submission w k := by
  simp only [submission, modifyEntry, modifyDaemon, List.getElem?_modify]
  split_ifs <;> simp

omit [Platform] in
theorem submission_of_nextSubmission {w : World} {j : ℕ} {pool : PoolConnection} {block : CBlock}
    (h : nextSubmission w = some (j, pool, block)) : submission w j = some block ∧
      ∃ i, w.owner j = some i ∧ w.lock i = some pool := by
  obtain ⟨⟨poolData, k⟩, hmem, hfound⟩ := List.exists_of_findSome?_eq_some h
  have hentry : w.daemon.mPoolConnections[k]? = some poolData :=
    List.mem_zipIdx_iff_getElem?.mp hmem
  simp only [Option.bind_eq_bind, Option.bind_eq_some_iff, Option.pure_def, Option.some.injEq,
    Prod.mk.injEq] at hfound
  obtain ⟨_, hlock, _, hblock, rfl, rfl, rfl⟩ := hfound
  exact ⟨by simp [submission, hentry, hblock], _, by simp [owner, hentry], hlock⟩

end DaemonConnection

namespace Tracks

variable {d : Docket} {w w' : World}

theorem kept (h : Tracks d w) (hk : Kept w w') : Tracks d w' where
  requested i hash block hb := h.requested i hash block (hk.requested i hash block hb)
  held j solved hs := h.held j solved (hk.submission j ▸ hs)
  taken sub hsub := hk.hash ▸ h.taken sub hsub
  inFlight := h.inFlight

theorem deliver (h : Tracks d w) {i : ℕ} {blockData : Bytes} {block : CBlock}
    (parsed : CBlock.deserialize blockData = some block) :
    Tracks (d.deliver i blockData) (w.modifyPool i fun pool =>
      { pool with
        mNumBlocksRequested := pool.mNumBlocksRequested - 1
        mBlocksRequested := pool.mBlocksRequested.insert block.getHash block }) := by
  rw [Docket.deliver, parsed]
  refine ⟨fun k hash block' hb => ?_, h.held, h.taken, h.inFlight⟩
  simp only [World.requested, getElem?_modifyPool] at hb
  by_cases hk : i = k
  · subst hk
    rw [if_pos rfl] at hb
    obtain ⟨pool', hpool', hb⟩ := Option.bind_eq_some_iff.mp hb
    obtain ⟨pool, hpool, rfl⟩ := Option.map_eq_some_iff.mp hpool'
    by_cases hhash : block.getHash = hash
    · subst hhash
      have heq : block = block' := by simpa using hb
      exact ⟨by rw [heq], blockData, by simp, heq ▸ parsed⟩
    · have hb' : w.requested i hash = some block' := by
        have hne : compare block.getHash hash ≠ .eq :=
          fun h => hhash (Std.LawfulEqOrd.eq_of_compare h)
        rw [Std.ExtTreeMap.getElem?_insert, if_neg hne] at hb
        simp [World.requested, hpool, hb]
      simpa [Ne.symm hhash] using h.requested i hash block' hb'
  · rw [if_neg hk] at hb
    simpa [Ne.symm hk] using h.requested k hash block' hb

theorem submitted (h : Tracks d w) {i j : ℕ} {data : Bytes} (share : VerifiedShare w i data) :
    ∃ sub, d.submitted (.found i j share.pool.mNxsaddress data) = some sub ∧
      sub.share = data ∧ sub.finder = share.pool.mNxsaddress ∧ sub.Yields share.solved := by
  have hrequested : w.requested i share.hashPrimeOrigin = some share.block := by
    simp [World.requested, share.self, share.requested]
  obtain ⟨hhash, blockData, hdelivered, hparsed⟩ := h.requested i _ _ hrequested
  refine ⟨⟨blockData, data, share.pool.mNxsaddress⟩, ?_, rfl, rfl, share.block, hparsed, ?_, rfl⟩
  · simp [Docket.submitted, share.read, hdelivered]
  · rw [share.read, hhash]
    rfl

theorem found (h : Tracks d w) {i j : ℕ} {data : Bytes} (share : VerifiedShare w i data) :
    Tracks (d.next (.found i j share.pool.mNxsaddress data))
      (share.credited.modifyEntry j ({ · with mSubmitBlock := some share.solved })) := by
  obtain ⟨sub, hsub, -, -, hyields⟩ := h.submitted (j := j) share
  have hcredited := h.kept share.kept_credited
  refine ⟨hcredited.requested, fun k solved hs => ?_, hcredited.taken, hcredited.inFlight⟩
  rw [DaemonConnection.submission_modifyEntry] at hs
  change ∃ sub', Function.update d.waiting j _ k = some sub' ∧ _
  rw [hsub]
  split_ifs at hs with hk
  · subst hk
    obtain ⟨poolData', hentry, hblock⟩ := Option.bind_eq_some_iff.mp hs
    obtain ⟨poolData, -, rfl⟩ := Option.map_eq_some_iff.mp hentry
    cases hblock
    exact ⟨sub, by simp, hyields⟩
  · simpa [Ne.symm hk] using hcredited.held k solved hs

theorem take (h : Tracks d w) {w₁ : World} {out : List Output} (htake : TakeEffect w w₁ out) {j : ℕ}
    (hentry : (DaemonConnection.nextSubmission w).map (·.1) = some j) :
    Tracks (d.take j (out.any Output.isSubmitBlock)) w₁ := by
  obtain ⟨⟨j, pool, block⟩, hnext, rfl⟩ := Option.map_eq_some_iff.mp hentry
  obtain ⟨sub, hwaiting, hyields⟩ :=
    h.held j block (DaemonConnection.submission_of_nextSubmission hnext).1
  have hheld : ∀ (w₂ : World), w₂.daemon.mPoolConnections = w.daemon.mPoolConnections →
      ∀ k solved, DaemonConnection.submission
        (w₂.modifyEntry j ({ · with mSubmitBlock := none })) k =
        some solved → ∃ sub, Function.update d.waiting j none k = some sub ∧ sub.Yields solved := by
    intro w₂ hentries k solved hs
    rw [DaemonConnection.submission_modifyEntry] at hs
    split_ifs at hs with hk
    · subst hk
      cases hentry : w₂.daemon.mPoolConnections[j]? <;> simp [hentry] at hs
    · have hs' : DaemonConnection.submission w k = some solved := by
        rw [← hs, DaemonConnection.submission, DaemonConnection.submission, hentries]
      simpa [Ne.symm hk] using h.held k solved hs'
  have htaken : ∀ sub', d.waiting j = some sub' → sub'.hash = some block.getHash := by
    intro sub' hsub'
    cases hwaiting.symm.trans hsub'
    exact hyields.hash_eq
  cases htake with
  | idle next => simp [hnext] at next
  | stale next old =>
    cases hnext.symm.trans next
    exact ⟨h.requested, hheld _ rfl, htaken, fun hflight => ⟨by simp [Docket.take, hwaiting],
      (h.inFlight hflight).2⟩⟩
  | sent next current =>
    cases hnext.symm.trans next
    exact ⟨h.requested, hheld _ rfl, htaken, fun _ => by simp [Docket.take, hwaiting,
      Output.isSubmitBlock, Output.transmits, DaemonPacket.submitBlock, Packet.withData]⟩

/-- Whatever a step does to the submissions, the docket follows. -/
theorem next (h : Tracks d w) {out : List Output} {signal : Signal}
    (heffect : SubmissionEffect w w' out signal) : Tracks (d.next signal) w' := by
  cases heffect with
  | kept unrelated hkept silent =>
    obtain rfl | rfl := unrelated
    · exact h.kept hkept
    · refine ⟨(h.kept hkept).requested, (h.kept hkept).held, (h.kept hkept).taken,
        fun hflight => ?_⟩
      exact h.inFlight fun hnil => hflight (by simp [Docket.next, hnil])
  | delivered hkept parsed silent => exact (h.kept hkept).deliver parsed
  | found share silent => exact h.found share
  | taken htake hnext hkept silent => exact (h.take htake hnext).kept hkept

end Tracks

theorem tracks_of_initial {w : World} (h : World.Initial w) : Tracks .empty w := by
  obtain ⟨config, blockDb, accountDb, mRoundReward, rfl⟩ := h
  refine ⟨fun i hash block hb => ?_, fun j solved hs => ?_, fun sub hsub => ?_, fun hflight => ?_⟩
  · simp [World.requested, World.init] at hb
  · simp [DaemonConnection.submission, World.init] at hs
  · simp [Docket.empty] at hsub
  · simp [Docket.empty] at hflight

/-- The docket describes the state after every run. -/
theorem tracks_of_run {history : History World Event Output} {w : World}
    (h : ServerRun history w) : Tracks (docket history) w := by
  induction h with
  | start h => exact tracks_of_initial h
  | next hrun hstep ih => exact ih.next (stepEffect_of_run hrun hstep).submissionEffect

/-! ### What is verified and what is sent -/

/-- A share that is accepted as a block is verified at the hash of its block plus its nonce, and
what is sent to the wallet is the merkle root of the block and the nonce of the share. -/
def ReachesUnchanged (past : History World Event Output) (o : Occurrence World Event Output) :
    Prop :=
  (∀ sub, (docket past).submitted (.of o) = some sub → sub.WellSized → sub.PrimeUnchanged) ∧
    ∀ sub payload, (docket (o :: past)).lastSent = some sub →
      .toWallet (.withData DaemonPacket.submitBlockHeader payload) ∈ o.outputs →
        sub.WellSized → payload = sub.payload

/-- The payload of a `SUBMIT_BLOCK` is made of the block of the submission sent last. -/
theorem exists_sent {d : Docket} {w w' : World} {out : List Output} {signal : Signal}
    {payload : Bytes}
    (h : Tracks d w) (heffect : SubmissionEffect w w' out signal)
    (hmem : .toWallet (.withData DaemonPacket.submitBlockHeader payload) ∈ out) :
    ∃ sub solved, (d.next signal).lastSent = some sub ∧ sub.Yields solved ∧
      payload = solved.hashMerkleRoot.getBytes ++ uint2bytes64 solved.nNonce := by
  have hloud : ∀ {front : List Output}, (∀ o ∈ front, o.isSubmitBlock = false) →
      .toWallet (.withData DaemonPacket.submitBlockHeader payload) ∉ front := by
    intro front silent hfront
    exact absurd (silent _ hfront)
      (by simp [Output.isSubmitBlock, Output.transmits, Packet.withData])
  cases heffect with
  | kept unrelated hkept silent => exact absurd hmem (hloud silent)
  | delivered hkept parsed silent => exact absurd hmem (hloud silent)
  | found share silent => exact absurd hmem (hloud silent)
  | taken htake hentry hkept silent =>
    replace hmem := (List.mem_append.mp hmem).resolve_right (hloud silent)
    obtain ⟨⟨j, pool, solved⟩, hnext, rfl⟩ := Option.map_eq_some_iff.mp hentry
    obtain ⟨sub, hwaiting, hyields⟩ :=
      h.held j solved (DaemonConnection.submission_of_nextSubmission hnext).1
    cases htake with
    | idle next => simp at hmem
    | stale next old => simp at hmem
    | sent next current =>
      cases hnext.symm.trans next
      refine ⟨sub, solved, ?_, hyields, ?_⟩
      · simp [Docket.next, Docket.take, hwaiting, Output.isSubmitBlock, Output.transmits,
          DaemonPacket.submitBlock, Packet.withData]
      · have hpacket := Output.toWallet.inj (List.mem_singleton.mp hmem)
        exact Option.some.inj (congrArg Packet.mData hpacket)

/-- The same, exactly if the nonce of the share fits 32 bits. -/
def UnchangedIffFits (history : History World Event Output) : Prop :=
  Throughout (fun past o =>
    (∀ i j finder share, Signal.of o = .found i j finder share →
      ∃ sub, (docket past).submitted (.of o) = some sub ∧ sub.share = share ∧
        (sub.WellSized → (sub.PrimeUnchanged ↔ wordValue sub.nonce < 2 ^ 32))) ∧
      ∀ payload, .toWallet (.withData DaemonPacket.submitBlockHeader payload) ∈ o.outputs →
        ∃ sub, (docket (o :: past)).lastSent = some sub ∧
          (sub.WellSized → (payload = sub.payload ↔ wordValue sub.nonce < 2 ^ 32))) history

end Following

/-! ### A nonce of more than 32 bits -/

section WideNonce

attribute [local instance] Platform.plain

/-- A miner gets a block and finds it with the nonce `2 ^ 32`. -/
def wideNonce : List Event :=
  [.walletConnected, .minerConnected [1], .minerData 0 (Packet.withData Packet.login [65]).wire,
    .minerData 0 (Packet.getPacket Packet.getBlock).wire, .blockTimer,
    .walletData (Packet.withData DaemonPacket.blockData (List.replicate 216 0)).wire,
    .minerData 0 (Packet.withData Packet.submitShare (List.replicate 135 0 ++ [1])).wire,
    .blockTimer]

def wideNonceRun : Option (History World Event Output × World) :=
  trace World.step .fresh wideNonce

theorem wideNonceRun_isSome : wideNonceRun.isSome := by decide +kernel

theorem wideNonceRun_run :
    ServerRun (wideNonceRun.get wideNonceRun_isSome).1 (wideNonceRun.get wideNonceRun_isSome).2 :=
  Run.of_trace World.fresh_initial (Option.some_get _).symm

attribute [local irreducible] wideNonceRun

def narrowPayload : Bytes := List.replicate 67 0 ++ [1, 0, 0, 0, 0]

/-- The last step sends this payload for a submission with another one. -/
def changesPayload : History World Event Output → Bool
  | [] => false
  | o :: past => (docket (o :: past)).lastSent.any fun sub => decide (sub.WellSized ∧
      .toWallet (.withData DaemonPacket.submitBlockHeader narrowPayload) ∈ o.outputs ∧
        narrowPayload ≠ sub.payload)

end WideNonce

end NexusPool
