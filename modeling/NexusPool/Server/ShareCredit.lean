import NexusPool.Server.Session

/-!
# Credit for shares

A connection remembers the blocks and the credited values of the current round; a new round
clears both. The round is followed from the history, and compared with what the connection
remembers. What a credited share does to the accounts depends on the record that is stored
under the address of the connection: the share goes to the key in the record.
-/

namespace NexusPool

open Reactive World
open Std (ExtTreeMap)

/-- What a connection remembers of the current round. -/
def PoolConnection.round (pool : PoolConnection) : List Uint1024 × ExtTreeMap Uint1024 CBlock :=
  (pool.mPrimes, pool.mBlocksRequested)

namespace World

def rounds (w : World) : List (List Uint1024 × ExtTreeMap Uint1024 CBlock) :=
  w.pools.map PoolConnection.round

def round (w : World) (i : ℕ) : List Uint1024 × ExtTreeMap Uint1024 CBlock :=
  (w.rounds[i]?).getD ([], ∅)

theorem round_of_self {w : World} {i : ℕ} {pool : PoolConnection}
    (hself : w.pools[i]? = some pool) :
    w.round i = pool.round := by
  simp [round, rounds, hself]

theorem round_congr {w w' : World} (h : w'.rounds = w.rounds) (i : ℕ) : w'.round i = w.round i := by
  rw [round, h, round]

theorem rounds_modifyPool {f : PoolConnection → PoolConnection}
    (hf : ∀ pool, (f pool).round = pool.round)
    (i : ℕ) (w : World) : (w.modifyPool i f).rounds = w.rounds := map_modify_eq hf i w.pools

theorem round_modifyPool_of_ne {f : PoolConnection → PoolConnection} {i k : ℕ}
    (hk : k ≠ i) (w : World) :
    (w.modifyPool i f).round k = w.round k := by
  simp only [round, rounds, List.getElem?_map, getElem?_modifyPool, if_neg (Ne.symm hk)]

theorem round_modifyPool_of_self {f : PoolConnection → PoolConnection} {w : World} {i : ℕ}
    {pool : PoolConnection} (hself : w.pools[i]? = some pool) :
    (w.modifyPool i f).round i = (f pool).round := by
  apply round_of_self
  rw [getElem?_modifyPool, if_pos rfl, hself, Option.map_some]

end World

/-! ### What a step means for the round of a connection -/

/-- A new round starts for the connection, it is given a block, or credited for a value. -/
inductive ShareSignal
  | quiet
  | restarted
  | delivered (blockData : Bytes)
  | credited (value : Uint1024)

namespace ShareSignal

/-- Every value that is credited is remembered. -/
def ofMiner (before after : List Uint1024) : ShareSignal :=
  if after = before then .quiet else after.head?.elim .quiet .credited

/-- A connection is told of every new round. -/
def ofWallet (i : ℕ) (outputs : List Output) : Signal → ShareSignal
  | .delivered k blockData => if k = i then .delivered blockData else .quiet
  | _ => if i ∈ outputs.filterMap Output.announced then .restarted else .quiet

theorem ofWallet_of_ne {i : ℕ} {out : List Output} {signal : Signal}
    (h : ∀ k blockData, signal ≠ .delivered k blockData) :
    ofWallet i out signal = if i ∈ out.filterMap Output.announced then .restarted else .quiet := by
  cases signal with
  | delivered k blockData => exact absurd rfl (h k blockData)
  | _ => rfl

def of (i : ℕ) (o : Occurrence World Event Output) : ShareSignal :=
  match o.event with
  | .minerData _ _ => ofMiner (o.before.round i).1 (o.after.round i).1
  | .walletData _ => ofWallet i o.outputs (.of o)
  | _ => .quiet

def value? : ShareSignal → Option Uint1024
  | .credited value => some value
  | _ => none

end ShareSignal

section Effects

variable [Platform] {w w' : World} {out : List Output}

/-- The blocks that a connection was given in its round, and the values it was credited for. -/
structure ShareRound where
  delivered : List CBlock
  credited : List Uint1024

def ShareRound.next (r : ShareRound) : ShareSignal → ShareRound
  | .quiet => r
  | .restarted => ⟨[], []⟩
  | .delivered blockData =>
    { r with delivered := (CBlock.deserialize blockData).toList ++ r.delivered }
  | .credited value => { r with credited := value :: r.credited }

/-- The current round of connection `i`, since its last `new_round`. -/
def shareRound (i : ℕ) : History World Event Output → ShareRound
  | [] => ⟨[], []⟩
  | o :: past => (shareRound i past).next (.of i o)

def VerifiedShare.value {i : ℕ} {data : Bytes} (share : VerifiedShare w i data) : Uint1024 :=
  PoolConnection.hashPrime share.hashPrimeOrigin share.nNonce

/-- What the signal of event `e` says, in the state of connection `i` and in the accounts. -/
inductive ShareEffect (w : World) (i : ℕ) (e : Event) (w' : World) : ShareSignal → Prop
  | quiet (round : w'.round i = w.round i) : ShareEffect w i e w' .quiet
  | restarted (round : w'.round i = ([], ∅))
      (accounts : e.receives DaemonPacket.good = false →
        w'.registry.mAccountDb = w.registry.mAccountDb) : ShareEffect w i e w' .restarted
  | delivered {blockData : Bytes} {block : CBlock}
      (parsed : CBlock.deserialize blockData = some block)
      (round : w'.round i = ((w.round i).1, (w.round i).2.insert block.getHash block))
      (accounts : w'.registry.mAccountDb = w.registry.mAccountDb) :
      ShareEffect w i e w' (.delivered blockData)
  | credited {receiveBuffer data : Bytes} {packet : Packet} (event : e = .minerData i receiveBuffer)
      (parsed : Packet.ofBuffer .miner receiveBuffer = some packet)
      (header : packet.mHeader = Packet.submitShare) (payload : packet.mData = some data)
      (share : VerifiedShare w i data)
      (round : w'.round i = (share.value :: (w.round i).1, (w.round i).2))
      (registry : w'.registry = share.credited.registry) :
      ShareEffect w i e w' (.credited share.value)

theorem MinerEffect.rounds {k : ℕ} {packet : Packet} (h : MinerEffect w k packet w' out) :
    w'.rounds = w.rounds ∨ ∃ (data : Bytes) (share : VerifiedShare w k data),
      packet.mHeader = Packet.submitShare ∧ packet.mData = some data ∧
        w'.round = share.credited.round ∧ w'.registry = share.credited.registry := by
  cases h with
  | reply => exact .inl rfl
  | refused => exact .inl (rounds_modifyPool (by intro _; rfl) _ w)
  | loggedIn => exact .inl (rounds_modifyPool (by intro _; rfl) _ w)
  | getBlock => exact .inl (rounds_modifyPool (by intro _; rfl) _ w)
  | getBalance => exact .inl rfl
  | credited share header payload => exact .inr ⟨_, share, header, payload, rfl, rfl⟩
  | accepted share header payload => exact .inr ⟨_, share, header, payload, rfl, rfl⟩

theorem VerifiedShare.round_credited {k : ℕ} {data : Bytes} (share : VerifiedShare w k data) :
    share.credited.round k = (share.value :: (w.round k).1, (w.round k).2) := by
  rw [round_of_self share.self]
  exact round_modifyPool_of_self share.self

theorem VerifiedShare.round_credited_of_ne {i k : ℕ} {data : Bytes} (share : VerifiedShare w k data)
    (hi : i ≠ k) : share.credited.round i = w.round i :=
  round_modifyPool_of_ne hi w

theorem MinerEffect.shareEffect {k : ℕ} {receiveBuffer : Bytes} {packet : Packet}
    (parsed : Packet.ofBuffer .miner receiveBuffer = some packet)
    (h : MinerEffect w k packet w' out)
    (i : ℕ) : ShareEffect w i (.minerData k receiveBuffer) w'
      (.ofMiner (w.round i).1 (w'.round i).1) := by
  obtain hsame | ⟨data, share, header, payload, hround, hregistry⟩ := h.rounds
  · have hi := round_congr hsame i
    rw [hi, ShareSignal.ofMiner, if_pos rfl]
    exact .quiet hi
  · by_cases hi : i = k
    · subst hi
      have hcredited : w'.round i = (share.value :: (w.round i).1, (w.round i).2) := by
        rw [hround, share.round_credited]
      rw [hcredited, ShareSignal.ofMiner, if_neg (List.cons_ne_self _ _)]
      exact .credited rfl parsed header payload share hcredited hregistry
    · have hsame : w'.round i = w.round i := by
        rw [hround, share.round_credited_of_ne hi]
      rw [hsame, ShareSignal.ofMiner, if_pos rfl]
      exact .quiet hsame

omit [Platform] in
theorem RoundFrame.round {w₁ w₂ : World} {announced : List Output} (h : RoundFrame w₁ w₂ announced)
    (i : ℕ) : w₂.round i =
      if i ∈ announced.filterMap Output.announced then ([], ∅) else w₁.round i := by
  simp only [World.round, World.rounds, List.getElem?_map, h.started]
  split_ifs
  · cases w₁.pools[i]? <;> rfl
  · rfl

theorem WalletEffect.shareEffect {receiveBuffer : Bytes} {packet : Packet}
    (parsed : (Event.walletData receiveBuffer).walletPacket = some packet)
    (h : WalletEffect w packet w' out) (i : ℕ) :
    ShareEffect w i (.walletData receiveBuffer) w'
      (.ofWallet i out (Signal.ofWallet packet out)) := by
  cases h with
  | rebuilt header =>
    rw [ShareSignal.ofWallet_of_ne (Signal.ofWallet_ne_delivered (.inl (by rw [header]; decide)))]
    exact .quiet rfl
  | @delivered data block j k pool header payload hblock current entry self =>
    have hsignal : Signal.ofWallet packet [.toMiner k
        (.withData Packet.blockData (block.serialize block.getHash pool.mMinShare))] =
          .delivered k data := by
      unfold Signal.ofWallet
      rw [if_pos header, payload]
    rw [hsignal, ShareSignal.ofWallet]
    by_cases hk : k = i
    · subst hk
      rw [if_pos rfl]
      refine .delivered hblock ?_ rfl
      rw [round_of_self self]
      exact round_modifyPool_of_self self
    · rw [if_neg hk]
      exact .quiet (round_modifyPool_of_ne (Ne.symm hk) _)
  | @round w₁ w₂ announced cause frame =>
    have hcause : (w₁.modifyDaemon ({ · with mNewBlock := true })).round i = w.round i := by
      cases cause <;> rfl
    have hround : w₂.reset.round i = w₂.round i := rfl
    rw [frame.round, hcause] at hround
    rw [ShareSignal.ofWallet_of_ne (Signal.ofWallet_ne_delivered (.inl cause.not_blockData)),
      List.filterMap_append, w₂.announced_resetOutputs, List.append_nil]
    split_ifs at hround ⊢
    · refine .restarted hround fun hgood => ?_
      change w₂.registry.mAccountDb = _
      rw [frame.registry]
      cases cause with
      | good header => simp [Event.receives, parsed, header] at hgood
      | _ => rfl
    · exact .quiet hround
  | _ =>
    rw [ShareSignal.ofWallet_of_ne (Signal.ofWallet_ne_delivered (.inr rfl))]
    exact .quiet rfl

theorem StepEffect.shareEffect {e : Event} (h : StepEffect w e w' out) (i : ℕ) :
    ShareEffect w i e w' (.of i ⟨w, e, w', out⟩) := by
  cases h with
  | minerConnected =>
    refine .quiet ?_
    simp only [World.round, World.rounds, modifyDaemon, List.getElem?_map, List.getElem?_append]
    split_ifs with hi
    · rfl
    · rw [List.getElem?_eq_none (not_lt.mp hi)]
      cases i - w.pools.length <;> rfl
  | miner parsed effect => exact effect.shareEffect parsed i
  | minerClosed => exact .quiet (round_congr (rounds_modifyPool (by intro _; rfl) _ w) i)
  | serverMaintenance =>
    refine .quiet (round_congr ?_ i)
    simp [World.rounds, PoolConnection.round, Function.comp_def]
  | walletDropped dropped =>
    have hquiet : ∀ {receiveBuffer : Bytes}, (Event.walletData receiveBuffer).walletPacket = none →
        ShareSignal.of i ⟨w, .walletData receiveBuffer, w, []⟩ = .quiet := by
      intro receiveBuffer hdropped
      simp only [ShareSignal.of, Signal.of, hdropped, Option.elim_none]
      rfl
    rw [hquiet dropped]
    exact .quiet rfl
  | wallet parsed effect =>
    have heffect := effect.shareEffect parsed i
    simpa only [ShareSignal.of, Signal.of, parsed, Option.elim_some] using heffect
  | blockTimer take forward =>
    refine .quiet (round_congr ?_ i)
    rw [World.rounds, forward.pools]
    cases take <;> rfl
  | _ => exact .quiet rfl

/-! ### The round that a connection knows -/

/-- The connection remembers its round, and a value only once. -/
structure RoundKnown (r : ShareRound) (round : List Uint1024 × ExtTreeMap Uint1024 CBlock) :
    Prop where
  credited : round.1 = r.credited
  nodup : r.credited.Nodup
  delivered : ∀ hash block, round.2[hash]? = some block → hash = block.getHash ∧ block ∈ r.delivered

theorem RoundKnown.next {r : ShareRound} {i : ℕ} {e : Event} {signal : ShareSignal}
    (h : RoundKnown r (w.round i)) (heffect : ShareEffect w i e w' signal) :
    RoundKnown (r.next signal) (w'.round i) := by
  cases heffect with
  | quiet round => exact round ▸ h
  | restarted round =>
    rw [round]
    exact ⟨rfl, List.nodup_nil, by simp⟩
  | @delivered blockData block parsed round =>
    rw [round]
    refine ⟨h.credited, h.nodup, fun hash block' hb => ?_⟩
    simp only [OrderedMap.getElem?_insert] at hb
    simp only [ShareRound.next, parsed, Option.toList_some, List.singleton_append, List.mem_cons]
    split_ifs at hb with hhash
    · cases hb
      exact ⟨hhash.symm, .inl rfl⟩
    · obtain ⟨heq, hmem⟩ := h.delivered hash block' hb
      exact ⟨heq, .inr hmem⟩
  | credited event parsed header payload share round =>
    rw [round]
    refine ⟨congrArg (share.value :: ·) h.credited, ?_, h.delivered⟩
    have hfresh := share.fresh
    have hprimes : (w.round i).1 = share.pool.mPrimes := by
      rw [round_of_self share.self]
      rfl
    rw [← hprimes, h.credited] at hfresh
    exact List.nodup_cons.mpr ⟨hfresh, h.nodup⟩

theorem roundKnown_of_run {history : History World Event Output} (h : ServerRun history w) (i : ℕ) :
    RoundKnown (shareRound i history) (w.round i) := by
  induction h with
  | start hinit =>
    obtain ⟨config, blockDb, accountDb, mRoundReward, rfl⟩ := hinit
    exact ⟨rfl, List.nodup_nil, by simp [World.round, World.rounds, World.init]⟩
  | next hrun hstep ih => exact ih.next ((stepEffect_of_run hrun hstep).shareEffect i)

/-! ### What shares add to an account -/

/-- The account gains these shares, and no other record changes. -/
def DataRegistry.GainsShares (nxsAddress : Bytes) (gain : UInt64) (s s' : DataRegistry) : Prop :=
  s'.account? nxsAddress = (s.account? nxsAddress).map (·.addShares gain) ∧
    ∀ k, k ≠ nxsAddress → s'.account? k = s.account? k

namespace DataRegistry.GainsShares

variable {s s₁ s' : DataRegistry} {nxsAddress : Bytes}

omit [Platform] in
theorem of_accounts (h : s'.mAccountDb = s.mAccountDb) : GainsShares nxsAddress 0 s s' := by
  unfold GainsShares account?
  rw [h]
  refine ⟨?_, fun _ _ => rfl⟩
  cases s.mAccountDb.mapRecords[nxsAddress]? with
  | none => rfl
  | some r => simp [Account.addShares]

omit [Platform] in
theorem trans {gain gain' : UInt64} (h : GainsShares nxsAddress gain s s₁)
    (h' : GainsShares nxsAddress gain' s₁ s') : GainsShares nxsAddress (gain' + gain) s s' := by
  refine ⟨?_, fun k hk => (h'.2 k hk).trans (h.2 k hk)⟩
  rw [h'.1, h.1, Option.map_map]
  congr 1
  funext r
  simp [Account.addShares, UInt64.add_assoc, UInt64.add_comm gain]

omit [Platform] in
theorem modifyRecord {r : Account} (hr : s.account? nxsAddress = some r)
    (hkey : r.cKey = nxsAddress)
    (gain : UInt64) : GainsShares nxsAddress gain s
      { s with mAccountDb := s.mAccountDb.modifyRecord nxsAddress (·.addShares gain) } := by
  have hfind : ∀ k, (s.mAccountDb.modifyRecord nxsAddress (·.addShares gain)).mapRecords[k]? =
      if r.cKey = k then some (r.addShares gain) else s.mAccountDb.mapRecords[k]? := fun k =>
    Database.find_modifyRecord_of_some hr k
  unfold GainsShares account?
  constructor
  · rw [hfind, if_pos hkey, show s.mAccountDb.mapRecords[nxsAddress]? = some r from hr,
      Option.map_some]
  · intro k hk
    rw [hfind, if_neg (hkey ▸ hk.symm)]

end DataRegistry.GainsShares

/-- The value that connection `i` is credited for in a step. -/
def creditedValue (i : ℕ) (o : Occurrence World Event Output) : Option Uint1024 :=
  (ShareSignal.of i o).value?

/-- The values that connection `i` is credited for, the last one first. -/
def creditedValues (i : ℕ) (history : History World Event Output) : List Uint1024 :=
  history.filterMap (creditedValue i)

def weightOf (value : Uint1024) : UInt64 :=
  ((Platform.gmpVerification value).map Platform.shareWeight).getD 0

omit [Platform] in
def Event.submitsShare (i : ℕ) : Event → Bool
  | .minerData k receiveBuffer =>
    k = i && (Packet.ofBuffer .miner receiveBuffer).any (·.mHeader = Packet.submitShare)
  | _ => false

/-- A `SUBMIT_SHARE` of connection `i`, a block given to it, or a new round, other than one that
begins with a payout. -/
def concernsShares (i : ℕ) (o : Occurrence World Event Output) : Bool :=
  match ShareSignal.of i o with
  | .delivered _ => true
  | .restarted => !o.event.receives DaemonPacket.good
  | _ => o.event.submitsShare i

/-- The credited value is new in the round. It belongs to a block that the connection was given
in the round, and is of the current height and of sufficient difficulty. -/
structure NamesDelivered (i : ℕ) (past : History World Event Output)
    (o : Occurrence World Event Output)
    (value : Uint1024) : Prop where
  fresh : value ∉ (shareRound i past).credited
  block : ∃ receiveBuffer packet data pool block nNonce nDifficulty,
    o.event = .minerData i receiveBuffer ∧ Packet.ofBuffer .miner receiveBuffer = some packet ∧
      packet.mHeader = Packet.submitShare ∧ packet.mData = some data ∧
        PoolConnection.readShare data = some (block.getHash, nNonce) ∧
          value = PoolConnection.hashPrime block.getHash nNonce ∧
            block ∈ (shareRound i past).delivered ∧
              block.nHeight = o.before.registry.mBestHeight ∧
                Platform.gmpVerification value = some nDifficulty ∧
                  o.before.pools[i]? = some pool ∧ Prime.setBits nDifficulty ≥ pool.mMinShare

/-- What the steps of `front` do for the shares of connection `i`, which is logged in with this
address; `past` is the history before them. -/
structure CreditsOnce (i : ℕ) (nxsAddress : Bytes) (past front : History World Event Output)
    (w₀ w : World) : Prop where
  named : Throughout (fun before o => ∀ value, creditedValue i o = some value →
    NamesDelivered i (before ++ past) o value) front
  distinct : (∀ o ∈ front, ShareSignal.of i o ≠ .restarted) → (creditedValues i front).Nodup
  gains : DataRegistry.GainsShares nxsAddress ((creditedValues i front).map weightOf).sum
    w₀.registry w.registry

/-- At a `SUBMIT_SHARE` of connection `i`, the record under its address carries that address. -/
def OwnRecord (i : ℕ) (o : Occurrence World Event Output) : Prop :=
  o.event.submitsShare i → ∀ nxsAddress ∈ o.before.account i,
    ∀ r ∈ o.before.registry.account? nxsAddress, r.cKey = nxsAddress

omit [Platform] in
instance (i : ℕ) (o : Occurrence World Event Output) : Decidable (OwnRecord i o) :=
  inferInstanceAs (Decidable (_ → ∀ nxsAddress ∈ o.before.account i,
    ∀ r ∈ o.before.registry.account? nxsAddress, r.cKey = nxsAddress))

variable {e : Event} {i : ℕ} {nxsAddress : Bytes}

omit [Platform] in
theorem creditedValues_cons (o : Occurrence World Event Output)
    (front : History World Event Output) :
    creditedValues i (o :: front) = (creditedValue i o).toList ++ creditedValues i front := by
  rw [creditedValues, List.filterMap_cons]
  cases creditedValue i o <;> rfl

theorem VerifiedShare.account {data : Bytes} (share : VerifiedShare w i data) :
    w.account i = some share.pool.mNxsaddress := by
  simp [World.account, share.self, Option.filter, share.loggedIn]

theorem VerifiedShare.weightOf_value {data : Bytes} (share : VerifiedShare w i data) :
    weightOf share.value = Platform.shareWeight share.nDifficulty := by
  have hverified : Platform.gmpVerification share.value = some share.nDifficulty := share.verified
  rw [weightOf, hverified]
  rfl

theorem ShareEffect.namesDelivered {past : History World Event Output} {signal : ShareSignal}
    (heffect : ShareEffect w i e w' signal) (hsignal : ShareSignal.of i ⟨w, e, w', out⟩ = signal)
    (hknown : RoundKnown (shareRound i past) (w.round i)) {value : Uint1024}
    (hvalue : creditedValue i ⟨w, e, w', out⟩ = some value) :
    NamesDelivered i past ⟨w, e, w', out⟩ value := by
  rw [creditedValue, hsignal] at hvalue
  cases heffect with
  | credited event parsed header payload share =>
    cases hvalue
    have hround := round_of_self share.self
    obtain ⟨hhash, hdelivered⟩ := hknown.delivered share.hashPrimeOrigin share.block
      (hround ▸ share.requested)
    refine ⟨?_, _, _, _, share.pool, share.block, share.nNonce, share.nDifficulty, event, parsed,
      header, payload, hhash ▸ share.read, ?_, hdelivered, share.current,
        share.verified, share.self,
      share.sufficient⟩
    · rw [← hknown.credited, hround]
      exact share.fresh
    · rw [VerifiedShare.value, hhash]
  | _ => cases hvalue

/-- A packet of the miner changes no account, unless a share is credited. -/
theorem StepEffect.accounts_of_quiet {receiveBuffer : Bytes}
    (h : StepEffect w (.minerData i receiveBuffer) w' out) (hi : w.account i = some nxsAddress)
    (hkey : w.registry.mAccountDb.hasKey nxsAddress) (hround : w'.round i = w.round i) :
    w'.registry.mAccountDb = w.registry.mAccountDb := by
  have hloggedIn : ∀ {pool : PoolConnection}, w.pools[i]? = some pool → ¬ ¬ pool.mLoggedIn := by
    intro pool hself hlogged
    rw [account_of_loggedOut hself hlogged] at hi
    cases hi
  have hgrows : ∀ {data : Bytes} (share : VerifiedShare w i data),
      w'.round i ≠ (share.value :: (w.round i).1, (w.round i).2) := by
    intro data share hcredited
    rw [hround] at hcredited
    exact List.cons_ne_self _ _ (congrArg Prod.fst hcredited).symm
  cases h with
  | miner parsed effect =>
    cases effect with
    | refused self loggedOut => exact absurd loggedOut (hloggedIn self)
    | loggedIn self loggedOut => exact absurd loggedOut (hloggedIn self)
    | @getBalance _ pool self loggedIn =>
      have haddress : pool.mNxsaddress = nxsAddress := by
        simpa [World.account, self, Option.filter, loggedIn] using hi
      exact Database.getRecord_of_hasKey (haddress ▸ hkey)
    | credited share => exact absurd share.round_credited (hgrows share)
    | accepted share => exact absurd share.round_credited (hgrows share)
    | _ => rfl

theorem StepEffect.gainsShares (h : StepEffect w e w' out) (hi : w.account i = some nxsAddress)
    (hkey : w.registry.mAccountDb.hasKey nxsAddress) (hconcerns : concernsShares i ⟨w, e, w', out⟩)
    (hown : OwnRecord i ⟨w, e, w', out⟩) :
    DataRegistry.GainsShares nxsAddress
      ((creditedValue i ⟨w, e, w', out⟩).toList.map weightOf).sum w.registry w'.registry := by
  have heffect := h.shareEffect i
  unfold concernsShares at hconcerns
  unfold creditedValue
  generalize ShareSignal.of i ⟨w, e, w', out⟩ = signal at heffect hconcerns
  cases heffect with
  | quiet round =>
    refine .of_accounts ?_
    cases e with
    | minerData k receiveBuffer =>
      simp only [Event.submitsShare, Bool.and_eq_true, decide_eq_true_eq] at hconcerns
      obtain ⟨rfl, -⟩ := hconcerns
      exact h.accounts_of_quiet hi hkey round
    | _ => cases hconcerns
  | restarted round accounts => exact .of_accounts (accounts (by simpa using hconcerns))
  | delivered parsed round accounts => exact .of_accounts accounts
  | credited event parsed header payload share round registry =>
    obtain rfl : share.pool.mNxsaddress = nxsAddress :=
      Option.some.inj (share.account.symm.trans hi)
    obtain ⟨r, hr⟩ := Database.hasKey_iff.mp hkey
    have hrecord := hown hconcerns _ hi r hr
    simp only [ShareSignal.value?, Option.toList_some, List.map_cons, List.map_nil, List.sum_cons,
      List.sum_nil, share.weightOf_value]
    rw [registry, UInt64.add_zero]
    exact DataRegistry.GainsShares.modifyRecord hr hrecord _

/-! ### Runs of shares -/

theorem credited_append {past front : History World Event Output}
    (h : ∀ o ∈ front, ShareSignal.of i o ≠ .restarted) :
    (shareRound i (front ++ past)).credited =
      creditedValues i front ++ (shareRound i past).credited := by
  induction front with
  | nil => rfl
  | cons o front ih =>
    have hfront := ih fun o' ho' => h o' (List.mem_cons_of_mem o ho')
    have hsignal := h o List.mem_cons_self
    rw [List.cons_append, shareRound, creditedValues, List.filterMap_cons, creditedValue]
    generalize ShareSignal.of i o = signal at hsignal
    cases signal with
    | restarted => exact absurd rfl hsignal
    | credited value => exact congrArg (value :: ·) hfront
    | _ => exact hfront

theorem distinct_of_run (past : History World Event Output) {front : History World Event Output}
    (h : ServerRun (front ++ past) w) (hround : ∀ o ∈ front, ShareSignal.of i o ≠ .restarted) :
    (creditedValues i front).Nodup := by
  have hnodup := (roundKnown_of_run h i).nodup
  rw [credited_append hround] at hnodup
  exact hnodup.of_append_left

theorem CreditsOnce.next {past front : History World Event Output} {w₀ : World}
    (h : CreditsOnce i nxsAddress past front w₀ w) (hrun : ServerRun (front ++ past) w)
    (hstep : w.step e = some (w', out)) (hi : w.account i = some nxsAddress)
    (hconcerns : concernsShares i ⟨w, e, w', out⟩) (hown : OwnRecord i ⟨w, e, w', out⟩) :
    CreditsOnce i nxsAddress past (⟨w, e, w', out⟩ :: front) w₀ w' := by
  have heffect := stepEffect_of_run hrun hstep
  refine ⟨⟨fun value hvalue => ?_, h.named⟩, fun hround => ?_, ?_⟩
  · exact (heffect.shareEffect i).namesDelivered rfl (roundKnown_of_run hrun i) hvalue
  · exact distinct_of_run past (hrun.next hstep) hround
  · have hgains := h.gains.trans (heffect.gainsShares hi (hasKey_of_run hrun hi) hconcerns hown)
    rwa [← List.sum_append, ← List.map_append, ← creditedValues_cons] at hgains

/-- As long as its record carries its address, a connection is credited once for each value of a
round, and its account gains the weights. -/
theorem creditsOnce_of_ownRecord {past front : History World Event Output} {w₀ : World}
    (hpast : ServerRun past w₀) (hfront : Run World.step (· = w₀) front w)
    (hi : w₀.account i = some nxsAddress) (hconcerns : ∀ o ∈ front, concernsShares i o)
    (hown : ∀ o ∈ front, OwnRecord i o) : CreditsOnce i nxsAddress past front w₀ w := by
  have hboth : CreditsOnce i nxsAddress past front w₀ w ∧ w.account i = some nxsAddress := by
    induction hfront with
    | start h =>
      subst h
      exact ⟨⟨trivial, fun _ => List.nodup_nil, .of_accounts rfl⟩, hi⟩
    | @next front w w' e out hrun hstep ih =>
      obtain ⟨hcredits, hlogin⟩ := ih (fun o ho => hconcerns o (List.mem_cons_of_mem _ ho))
        fun o ho => hown o (List.mem_cons_of_mem _ ho)
      have hserver := hpast.append hrun
      refine ⟨hcredits.next hserver hstep hlogin (hconcerns _ List.mem_cons_self)
        (hown _ List.mem_cons_self), ?_⟩
      exact (stepEffect_of_run hserver hstep).account_of_account hlogin
  exact hboth.1

end Effects

/-! ### Runs with one miner -/

section OneMiner

@[reducible] def Platform.counting : Platform := { Platform.plain with shareWeight := fun _ => 1 }

attribute [local instance] Platform.counting

def shareOf (nonce : UInt8) : Event :=
  .minerData 0 (Packet.withData Packet.submitShare (List.replicate 128 0 ++ [nonce] ++
    List.replicate 7 0)).wire

def shareRun (w : World) (events shares : List Event) :
    Option ((History World Event Output × World) × History World Event Output × World) := do
  let past ← trace World.step w events
  let front ← trace World.step past.2 shares
  return (past, front)

theorem runs_of_shareRun {w : World} (hw : World.Initial w) {events shares : List Event}
    {r : (History World Event Output × World) × History World Event Output × World}
    (h : shareRun w events shares = some r) :
    ServerRun r.1.1 r.1.2 ∧ Run World.step (· = r.1.2) r.2.1 r.2.2 := by
  simp only [shareRun, Option.bind_eq_bind, Option.bind_eq_some_iff, Option.pure_def,
    Option.some.injEq] at h
  obtain ⟨past, hpast, front, hfront, rfl⟩ := h
  have hshares : Run World.step (· = past.2) front.1 front.2 := by
    apply Run.of_trace ?_ hfront
    rfl
  exact ⟨Run.of_trace hw hpast, hshares⟩

def threeShares :
    Option ((History World Event Output × World) × History World Event Output × World) :=
  shareRun .fresh (oneRequest ++ [firstBlock]) [shareOf 1, shareOf 2, shareOf 1]

theorem threeShares_isSome : threeShares.isSome := by decide +kernel

theorem threeShares_concern :
    ∀ o ∈ (threeShares.get threeShares_isSome).2.1, concernsShares 0 o := by decide +kernel

theorem threeShares_own : ∀ o ∈ (threeShares.get threeShares_isSome).2.1, OwnRecord 0 o := by
  decide +kernel

theorem threeShares_account : (threeShares.get threeShares_isSome).1.2.account 0 = some [65] := by
  decide +kernel

theorem threeShares_runs :
    ServerRun (threeShares.get threeShares_isSome).1.1 (threeShares.get threeShares_isSome).1.2 ∧
      Run World.step (· = (threeShares.get threeShares_isSome).1.2)
        (threeShares.get threeShares_isSome).2.1 (threeShares.get threeShares_isSome).2.2 :=
  runs_of_shareRun World.fresh_initial (Option.some_get threeShares_isSome).symm

attribute [local irreducible] threeShares

theorem threeShares_creditsOnce :
    CreditsOnce 0 [65] (threeShares.get threeShares_isSome).1.1
      (threeShares.get threeShares_isSome).2.1 (threeShares.get threeShares_isSome).1.2
        (threeShares.get threeShares_isSome).2.2 :=
  creditsOnce_of_ownRecord threeShares_runs.1 threeShares_runs.2 threeShares_account
    threeShares_concern threeShares_own

/-- The server after a crash that came between the two files of a payout: a block credits an
account that is missing. -/
def World.torn : World :=
  World.init (DataRegistry.init ⟨0, 0, false⟩
    (Database.updateRecord .empty
      { Block.new 0 with nCoinbaseValue := 1, cCredits := Credits.empty.addCredit [65] 5 })
        .empty) 0

theorem World.torn_initial : World.Initial World.torn := ⟨_, _, _, _, rfl⟩

/-- The block is orphaned, and its refund leaves a blank record for the account. -/
def orphanedFirst : List Event :=
  .walletConnected ::
    .walletData (Packet.withData DaemonPacket.orphanBlock (List.replicate 128 0)).wire ::
      .walletData (Packet.withData DaemonPacket.blockReward (uint2bytes64 100)).wire ::
        (oneRequest.tail ++ [firstBlock])

/-- The share goes to the account with the empty key. -/
def creditsOther
    (r : (History World Event Output × World) × History World Event Output × World) : Bool :=
  r.1.2.account 0 = some [65] ∧ (∀ o ∈ r.2.1, concernsShares 0 o) ∧
    r.2.2.registry.account? [] ≠ r.1.2.registry.account? []

/-- A record that was made up for a missing account carries the empty key. -/
theorem share_misfiled : ¬ ∀ (platform : Platform) (i : ℕ) nxsAddress past front (w₀ w : World),
    @ServerRun platform past w₀ → Run (@World.step platform) (· = w₀) front w →
      w₀.account i = some nxsAddress → (∀ o ∈ front, concernsShares i o) →
        @CreditsOnce platform i nxsAddress past front w₀ w := by
  intro h
  have hother : (shareRun .torn orphanedFirst [shareOf 1]).any creditsOther = true := by
    decide +kernel
  obtain ⟨r, hr, hother⟩ := (Option.any_eq_true _ _).mp hother
  obtain ⟨haccount, hconcerns, hchanged⟩ := of_decide_eq_true hother
  obtain ⟨hpast, hfront⟩ := runs_of_shareRun World.torn_initial hr
  have hcredits := h .counting 0 [65] _ _ _ _ hpast hfront haccount hconcerns
  exact hchanged (hcredits.gains.2 [] (by decide))

end OneMiner

end NexusPool
