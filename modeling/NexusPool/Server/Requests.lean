import NexusPool.Server.Submissions

/-!
# Requests for blocks

A connection counts the blocks that its miner asked for and was not given. Its entry in the
daemon connection has two more counters: blocks to be requested from the wallet, and blocks
that the wallet owes. What a step does to the counters is listed once, for each signal.
-/

namespace NexusPool

open Reactive World

/-- The counter of each connection, and the counters of each entry. -/
@[ext] structure Counters where
  numBlocksRequested : ℕ → UInt16
  blocksRequested : ℕ → UInt16
  blocksWaiting : ℕ → UInt16

namespace World

def counters (w : World) : Counters where
  numBlocksRequested i := (w.pools[i]?.map (·.mNumBlocksRequested)).getD 0
  blocksRequested j := (w.daemon.mPoolConnections[j]?.map (·.mBlocksRequested)).getD 0
  blocksWaiting j := (w.daemon.mPoolConnections[j]?.map (·.mBlocksWaiting)).getD 0

/-- The packet that a connection has to handle: a valid one, of a miner that is logged in. -/
def request (w : World) : Event → Option (ℕ × Packet)
  | .minerData i receiveBuffer => do
    let packet ← (Packet.ofBuffer .miner receiveBuffer).filter (·.isValid .miner)
    let _ ← w.pools[i]?.filter (·.mLoggedIn)
    return (i, packet)
  | _ => none

def requests (header : UInt8) (w : World) (e : Event) : Option ℕ :=
  ((w.request e).filter (·.2.mHeader = header)).map (·.1)

theorem requests_eq_some {header : UInt8} {w : World} {e : Event} {i : ℕ}
    (h : w.requests header e = some i) :
    ∃ receiveBuffer packet pool, e = .minerData i receiveBuffer ∧
      Packet.ofBuffer .miner receiveBuffer = some packet ∧ packet.isValid .miner ∧
        packet.mHeader = header ∧ w.pools[i]? = some pool ∧ pool.mLoggedIn := by
  obtain ⟨⟨k, packet⟩, hrequest, rfl⟩ := Option.map_eq_some_iff.mp h
  obtain ⟨hrequest, hheader⟩ := Option.filter_eq_some_iff.mp hrequest
  cases e with
  | minerData i receiveBuffer =>
    simp only [request, Option.bind_eq_bind, Option.bind_eq_some_iff, Option.filter_eq_some_iff,
      Option.pure_def, Option.some.injEq, Prod.mk.injEq] at hrequest
    obtain ⟨packet', ⟨hparse, hvalid⟩, pool, ⟨hself, hlogged⟩, rfl, rfl⟩ := hrequest
    exact ⟨receiveBuffer, packet', pool, rfl, hparse,
      hvalid, by simpa using hheader, hself, hlogged⟩
  | _ => cases hrequest

theorem requests_minerData {header : UInt8} {w : World} {i : ℕ} {receiveBuffer : Bytes}
    {packet : Packet} {pool : PoolConnection}
    (hparse : Packet.ofBuffer .miner receiveBuffer = some packet)
    (hvalid : packet.isValid .miner) (hheader : packet.mHeader = header)
    (hself : w.pools[i]? = some pool) (hlogged : pool.mLoggedIn) :
    w.requests header (.minerData i receiveBuffer) = some i := by
  simp [requests, request, hparse, hvalid, hself, hlogged, hheader, Option.filter]

end World

/-- A packet that gives a block to a connection is a `BLOCK_DATA`, and is passed on. -/
theorem Signal.ofWallet_ne_delivered {packet : Packet} {out : List Output}
    (hquiet : packet.mHeader ≠ DaemonPacket.blockData ∨ out = []) (i : ℕ) (blockData : Bytes) :
    Signal.ofWallet packet out ≠ .delivered i blockData := by
  unfold Signal.ofWallet
  rcases hquiet with header | rfl
  · rw [if_neg header]
    split_ifs <;> simp
  · split_ifs <;> simp

/-- What a step means for the counters: connection `i` asks for a block or is given one, all
requests are forwarded, or these connections start a new round, if any. -/
inductive RequestSignal
  | asked (i : ℕ)
  | delivered (i : ℕ)
  | forwarded
  | restarted (started : List ℕ)
  deriving DecidableEq

namespace RequestSignal

def ofWallet (packet : Packet) (outputs : List Output) : RequestSignal :=
  match Signal.ofWallet packet outputs with
  | .delivered i _ => .delivered i
  | _ => .restarted (outputs.filterMap Output.announced)

theorem ofWallet_of_quiet {packet : Packet} {out : List Output}
    (hquiet : packet.mHeader ≠ DaemonPacket.blockData ∨ out = []) :
    ofWallet packet out = .restarted (out.filterMap Output.announced) := by
  unfold ofWallet
  split
  · rename_i i blockData hdelivered
    exact absurd hdelivered (Signal.ofWallet_ne_delivered hquiet i blockData)
  · rfl

def of (o : Occurrence World Event Output) : RequestSignal :=
  match o.event with
  | .minerData _ _ => (o.before.requests Packet.getBlock o.event).elim (.restarted []) .asked
  | .blockTimer => if o.before.daemon.mCoinbasePending then .restarted [] else .forwarded
  | .walletData _ => o.event.walletPacket.elim (.restarted []) (ofWallet · o.outputs)
  | _ => .restarted []

end RequestSignal

/-! ### Entries -/

/-- What the miners and the maintenance of the server decide about a connection. -/
def PoolConnection.link (pool : PoolConnection) : Bool × Bool × Bool :=
  (pool.mConnection, pool.mConnectionClosed, pool.alive)

/-- The connections and the entries, as far as they say who is connected. -/
def World.links (w : World) : List (Bool × Bool × Bool) × List ℕ :=
  (w.pools.map PoolConnection.link, w.daemon.mPoolConnections.map (·.mConnection))

/-- The daemon connection has one entry for each connection, in the same order. -/
def World.Paired (w : World) : Prop := w.links.2 = List.range w.links.1.length

/-- No connection before this one is alive and has the same address. -/
def World.Unshared (w : World) (i : ℕ) : Prop :=
  ∀ k < i, ∀ pool ∈ w.lock k, ∀ self ∈ w.pools[i]?, pool.mRemoteAddress ≠ self.mRemoteAddress

instance (w : World) (i : ℕ) : Decidable (w.Unshared i) :=
  inferInstanceAs (Decidable (∀ k < i, ∀ pool ∈ w.lock k, ∀ self ∈ w.pools[i]?, _ ≠ _))

namespace World.Paired

variable {w w' : World}

theorem map_mConnection (h : w.Paired) :
    w.daemon.mPoolConnections.map (·.mConnection) = List.range w.pools.length := by
  simpa [Paired, World.links] using h

theorem length (h : w.Paired) : w.daemon.mPoolConnections.length = w.pools.length := by
  have hlength := congrArg List.length h.map_mConnection
  simpa using hlength

theorem mConnection (h : w.Paired) {j : ℕ} {poolData : PoolConnectionData}
    (hentry : w.daemon.mPoolConnections[j]? = some poolData) : poolData.mConnection = j := by
  have hj := congrArg (·[j]?) h.map_mConnection
  simp only [List.getElem?_map, hentry, Option.map_some] at hj
  obtain ⟨_, hrange⟩ := List.getElem?_eq_some_iff.mp hj.symm
  simpa using hrange.symm

theorem owner (h : w.Paired) {i : ℕ} {pool : PoolConnection} (hself : w.pools[i]? = some pool) :
    w.owner i = some i := by
  have hi := (List.getElem?_eq_some_iff.mp hself).1
  have howner := congrArg (·[i]?) h.map_mConnection
  simpa [World.owner, List.getElem?_range, hi] using howner

theorem findPoolConnection_eq (h : w.Paired) {i : ℕ} {pool : PoolConnection}
    (hself : w.pools[i]? = some pool) (halive : pool.alive) (hunshared : w.Unshared i) :
    DaemonConnection.findPoolConnection pool.mRemoteAddress w = some i := by
  have hi := (List.getElem?_eq_some_iff.mp hself).1
  unfold DaemonConnection.findPoolConnection
  rw [List.findIdx?_eq_some_iff_getElem]
  refine ⟨h.length ▸ hi, ?_, fun k hk => ?_⟩
  · rw [h.mConnection (List.getElem?_eq_getElem _)]
    simp [World.lock, hself, Option.filter, halive]
  · rw [h.mConnection (List.getElem?_eq_getElem _)]
    cases hlock : w.lock k with
    | none => simp
    | some other => simpa using hunshared k hk other hlock pool hself

end World.Paired

/-! ### Which connections are alive -/

/-- The entries are paired with the connections, and an open connection is alive. -/
structure World.Linked (w : World) : Prop where
  paired : w.Paired
  alive : ∀ link ∈ w.links.1, link.1 → link.2.1 = false ∧ link.2.2

namespace World

theorem links_modifyPool {f : PoolConnection → PoolConnection}
    (hf : ∀ pool, (f pool).link = pool.link) (i : ℕ) (w : World) :
    (w.modifyPool i f).links = w.links :=
  congrArg (·, w.links.2) (map_modify_eq hf i w.pools)

theorem links_modifyEntry {f : PoolConnectionData → PoolConnectionData}
    (hf : ∀ poolData, (f poolData).mConnection = poolData.mConnection) (j : ℕ) (w : World) :
    (w.modifyEntry j f).links = w.links :=
  congrArg (w.links.1, ·) (map_modify_eq hf j w.daemon.mPoolConnections)

theorem links_connected (w : World) (ipAddress : Bytes) :
    (({ w with pools := w.pools ++ [PoolConnection.new ipAddress w.registry.mConfig] } :
        World).modifyDaemon fun d =>
      { d with mPoolConnections := d.mPoolConnections ++ [⟨w.pools.length, 0, 0, none⟩] }).links =
      (w.links.1 ++ [(true, false, true)], w.links.2 ++ [w.links.1.length]) := by
  simp [World.links, modifyDaemon, PoolConnection.link, PoolConnection.new]

theorem links_closed (w : World) (i : ℕ) :
    (w.modifyPool i ({ · with mConnection := false, mConnectionClosed := true })).links =
      (w.links.1.modify i fun link => (false, true, link.2.2), w.links.2) := by
  apply Prod.ext
  · apply List.ext_getElem?
    intro k
    simp only [World.links, modifyPool, List.getElem?_map, List.getElem?_modify]
    split_ifs <;> cases w.pools[k]? <;> rfl
  · rfl

theorem links_maintained (w : World) :
    ({ w with pools := w.pools.map fun pool =>
      { pool with alive := pool.alive && !pool.mConnectionClosed } } : World).links =
      (w.links.1.map fun link => (link.1, link.2.1, link.2.2 && !link.2.1), w.links.2) := by
  simp [World.links, PoolConnection.link, Function.comp_def]

namespace Linked

variable {w w' : World}

theorem of_links (h : w.Linked) (hlinks : w'.links = w.links) : w'.Linked := by
  constructor
  · unfold Paired
    rw [hlinks]
    exact h.paired
  · rw [hlinks]
    exact h.alive

theorem alive_of_open (h : w.Linked) {i : ℕ} {pool : PoolConnection}
    (hself : w.pools[i]? = some pool)
    (hopen : pool.mConnection) : pool.alive :=
  (h.alive pool.link (List.mem_map_of_mem (List.mem_of_getElem? hself)) hopen).2

end Linked

end World

section Effects

variable [Platform] {w w' : World} {i : ℕ} {packet : Packet} {out : List Output}

theorem MinerEffect.links (h : MinerEffect w i packet w' out) : w'.links = w.links := by
  cases h with
  | reply => rfl
  | refused => exact links_modifyPool (by intro _; rfl) _ w
  | loggedIn => exact links_modifyPool (by intro _; rfl) _ w
  | getBlock =>
    exact (links_modifyEntry (by intro _; rfl) _ _).trans
      (links_modifyPool (by intro _; rfl) _ w)
  | getBalance => rfl
  | credited share => exact links_modifyPool (by intro _; rfl) _ w
  | accepted share =>
    exact (links_modifyEntry (by intro _; rfl) _ _).trans (links_modifyPool (by intro _; rfl) _ w)

theorem WalletEffect.links (h : WalletEffect w packet w' out) : w'.links = w.links := by
  cases h with
  | delivered =>
    exact (links_modifyPool (by intro _; rfl) _ _).trans
      (links_modifyEntry (by intro _; rfl) _ w)
  | swallowed => exact links_modifyEntry (by intro _; rfl) _ w
  | @round w₁ w₂ _ cause frame =>
    have hlinks : w₂.links = w₁.links := by
      have hlink : ∀ pools : List PoolConnection, pools.map PoolConnection.link =
          (pools.map PoolConnection.session).map PoolConnection.link := by
        intro pools
        rw [List.map_map]
        rfl
      unfold World.links
      rw [frame.daemon, hlink, frame.sessions, ← hlink]
      rfl
    have hcause : w₁.links = w.links := by cases cause <;> rfl
    exact hlinks.trans hcause
  | _ => rfl

theorem TakeEffect.links (h : TakeEffect w w' out) : w'.links = w.links := by
  cases h with
  | idle => rfl
  | stale => exact links_modifyEntry (by intro _; rfl) _ _
  | sent => exact links_modifyEntry (by intro _; rfl) _ _

omit [Platform] in
theorem ForwardFrame.links (h : ForwardFrame w w' out) : w'.links = w.links := by
  have hslots := congrArg (List.map Prod.fst) h.slots
  simp only [List.map_map, Function.comp_def, PoolConnectionData.slot] at hslots
  unfold World.links
  rw [h.pools, hslots]

/-- Connections come, are closed, and are let go of; other steps leave them alone. -/
inductive LinkEffect (w w' : World) (e : Event) : Prop
  | kept (links : w'.links = w.links) (other : ∀ i, e ≠ .minerClosed i)
  | connected
      (links : w'.links = (w.links.1 ++ [(true, false, true)], w.links.2 ++ [w.links.1.length]))
      (other : ∀ i, e ≠ .minerClosed i)
  | closed {i : ℕ} (event : e = .minerClosed i)
      (links : w'.links = (w.links.1.modify i fun link => (false, true, link.2.2), w.links.2))
  | maintained
      (links : w'.links =
        (w.links.1.map fun link => (link.1, link.2.1, link.2.2 && !link.2.1), w.links.2))
      (other : ∀ i, e ≠ .minerClosed i)

theorem StepEffect.linkEffect {e : Event} (h : StepEffect w e w' out) : LinkEffect w w' e := by
  cases h with
  | minerConnected => exact .connected (links_connected w _) (by simp)
  | miner parsed effect => exact .kept effect.links (by simp)
  | minerClosed => exact .closed rfl (links_closed w _)
  | serverMaintenance => exact .maintained (links_maintained w) (by simp)
  | walletConnected => exact .kept rfl (by simp)
  | walletDropped => exact .kept rfl (by simp)
  | wallet parsed effect => exact .kept effect.links (by simp)
  | walletClosed => exact .kept rfl (by simp)
  | blockTimerPending => exact .kept rfl (by simp)
  | blockTimer take forward => exact .kept (forward.links.trans take.links) (by simp)
  | orphanCheckTimer => exact .kept rfl (by simp)
  | getHeightTimer => exact .kept rfl (by simp)

omit [Platform] in
theorem LinkEffect.alive {e : Event} (h : LinkEffect w w' e)
    (hw : ∀ link ∈ w.links.1, link.1 → link.2.1 = false ∧ link.2.2) :
    ∀ link ∈ w'.links.1, link.1 → link.2.1 = false ∧ link.2.2 := by
  cases h with
  | kept links => exact links ▸ hw
  | connected links =>
    rw [links]
    intro link hlink hopen
    rcases List.mem_append.mp hlink with hlink | hlink
    · exact hw link hlink hopen
    · rw [List.mem_singleton.mp hlink]
      exact ⟨rfl, rfl⟩
  | @closed i event links =>
    rw [links]
    intro link hlink hopen
    obtain ⟨k, hk⟩ := List.mem_iff_getElem?.mp hlink
    rw [List.getElem?_modify] at hk
    obtain ⟨before, hbefore, rfl⟩ := Option.map_eq_some_iff.mp hk
    split_ifs at hopen ⊢
    exact hw _ (List.mem_of_getElem? hbefore) hopen
  | maintained links =>
    rw [links]
    intro link hlink hopen
    obtain ⟨before, hbefore, rfl⟩ := List.mem_map.mp hlink
    obtain ⟨hclosed, halive⟩ := hw before hbefore hopen
    exact ⟨hclosed, by simp [hclosed, halive]⟩

omit [Platform] in
theorem LinkEffect.linked {e : Event} (h : LinkEffect w w' e) (hw : w.Linked) : w'.Linked := by
  refine ⟨?_, h.alive hw.alive⟩
  have hpaired : w.links.2 = List.range w.links.1.length := hw.paired
  unfold World.Paired
  cases h with
  | kept links =>
    rw [links]
    exact hpaired
  | connected links =>
    have hlast : List.range (w.links.1.length + 1) =
        List.range w.links.1.length ++ [w.links.1.length] := List.range_succ
    rw [links, hpaired]
    simp [hlast]
  | closed event links =>
    rw [links, List.length_modify]
    exact hpaired
  | maintained links =>
    rw [links, List.length_map]
    exact hpaired

def World.Closed (w : World) (i : ℕ) : Prop := ∃ link, w.links.1[i]? = some link ∧ link.1 = false

omit [Platform] in
theorem World.not_closed_of_open {pool : PoolConnection} (hself : w.pools[i]? = some pool)
    (hopen : pool.mConnection) : ¬ w.Closed i := by
  rintro ⟨link, hlink, hclosed⟩
  rw [World.links, List.getElem?_map, hself] at hlink
  cases hlink
  exact absurd hopen (by simpa [PoolConnection.link] using hclosed)

omit [Platform] in
theorem World.closed_of_not_open {pool : PoolConnection} (hself : w.pools[i]? = some pool)
    (hclosed : ¬ pool.mConnection) : w.Closed i := by
  refine ⟨pool.link, ?_, by simpa [PoolConnection.link] using hclosed⟩
  rw [World.links, List.getElem?_map, hself]
  rfl

omit [Platform] in
theorem LinkEffect.closed_of_closed {e : Event} (h : LinkEffect w w' e) {i : ℕ} (hi : w.Closed i) :
    w'.Closed i := by
  obtain ⟨link, hlink, hclosed⟩ := hi
  have hlt := (List.getElem?_eq_some_iff.mp hlink).1
  unfold World.Closed
  cases h with
  | kept links => exact ⟨link, by rw [links, hlink], hclosed⟩
  | connected links => exact ⟨link, by rw [links, List.getElem?_append_left hlt, hlink], hclosed⟩
  | @closed k event links =>
    rw [links, List.getElem?_modify, hlink]
    by_cases hk : k = i
    · simp [hk]
    · simp [hk, hclosed]
  | maintained links =>
    rw [links, List.getElem?_map, hlink]
    exact ⟨_, rfl, hclosed⟩

omit [Platform] in
theorem LinkEffect.open_of_open {e : Event} (h : LinkEffect w w' e)
    (hother : ∀ i, e ≠ .minerClosed i)
    (hw : ∀ link ∈ w.links.1, link.1) : ∀ link ∈ w'.links.1, link.1 := by
  cases h with
  | kept links =>
    rw [links]
    exact hw
  | connected links =>
    rw [links]
    intro link hlink
    rcases List.mem_append.mp hlink with hlink | hlink
    · exact hw link hlink
    · rw [List.mem_singleton.mp hlink]
  | closed event => exact absurd event (hother _)
  | maintained links =>
    rw [links]
    intro link hlink
    obtain ⟨before, hbefore, rfl⟩ := List.mem_map.mp hlink
    exact hw before hbefore

theorem linked_of_run {history : History World Event Output} (h : ServerRun history w) :
    w.Linked := by
  induction h with
  | start h =>
    obtain ⟨config, blockDb, accountDb, mRoundReward, rfl⟩ := h
    constructor
    · rfl
    · intro link hlink
      cases hlink
  | next hrun hstep ih => exact (stepEffect_of_run hrun hstep).linkEffect.linked ih

end Effects

/-! ### What a step does to the counters -/

theorem toNat_add_one {n : UInt16} (h : n + 1 ≠ 0) : (n + 1).toNat = n.toNat + 1 := by
  rw [UInt16.toNat_add]
  have hlt := n.toNat_lt
  have hne : (n + 1).toNat ≠ 0 := fun hzero => h (UInt16.toNat_inj.mp hzero)
  rw [UInt16.toNat_add] at hne
  simp only [UInt16.toNat_one] at hne ⊢
  omega

theorem toNat_sub_one {n : UInt16} (h : n ≠ 0) : (n - 1).toNat + 1 = n.toNat := by
  have hpos : n.toNat ≠ 0 := fun hzero => h (UInt16.toNat_inj.mp hzero)
  rw [UInt16.toNat_sub_of_le]
  · simp only [UInt16.toNat_one]
    omega
  · rw [UInt16.le_iff_toNat_le, UInt16.toNat_one]
    omega

/-- With entries paired, the entry of a connection has the index of the connection. -/
inductive RequestEffect (w : World) : Counters → RequestSignal → Prop
  | restarted (started : List ℕ) :
      RequestEffect w
        { w.counters with
          numBlocksRequested := fun i =>
            if i ∈ started then 0 else w.counters.numBlocksRequested i } (.restarted started)
  | asked {i j : ℕ} {pool : PoolConnection} (self : w.pools[i]? = some pool)
      (isOpen : pool.mConnection)
      (entry : DaemonConnection.findPoolConnection pool.mRemoteAddress w = some j) :
      RequestEffect w
        { w.counters with
          numBlocksRequested := Function.update w.counters.numBlocksRequested i
            (w.counters.numBlocksRequested i + 1)
          blocksRequested := Function.update w.counters.blocksRequested j
            (w.counters.numBlocksRequested i + 1) } (.asked i)
  | delivered {i : ℕ} {pool : PoolConnection} (self : w.pools[i]? = some pool)
      (isOpen : pool.mConnection) (waiting : w.counters.blocksWaiting i ≠ 0) :
      RequestEffect w
        { w.counters with
          numBlocksRequested := Function.update w.counters.numBlocksRequested i
            (w.counters.numBlocksRequested i - 1)
          blocksWaiting := Function.update w.counters.blocksWaiting i
            (w.counters.blocksWaiting i - 1) } (.delivered i)
  | swallowed {i : ℕ} {pool : PoolConnection} (self : w.pools[i]? = some pool)
      (isClosed : ¬ pool.mConnection) (waiting : w.counters.blocksWaiting i ≠ 0) :
      RequestEffect w
        { w.counters with
          blocksWaiting := Function.update w.counters.blocksWaiting i
            (w.counters.blocksWaiting i - 1) } (.restarted [])
  | forwarded :
      RequestEffect w
        { w.counters with
          blocksRequested := fun _ => 0
          blocksWaiting := fun j => w.counters.blocksWaiting j + w.counters.blocksRequested j }
        .forwarded

theorem RequestEffect.kept {w : World} {c : Counters} (h : c = w.counters) :
    RequestEffect w c (.restarted []) := by
  have hnone := RequestEffect.restarted (w := w) []
  simpa [h] using hnone

namespace World

variable {w : World}

theorem counters_congr {w' : World}
    (hpools : w'.pools.map (·.mNumBlocksRequested) = w.pools.map (·.mNumBlocksRequested))
    (hrequested : w'.daemon.mPoolConnections.map (·.mBlocksRequested) =
      w.daemon.mPoolConnections.map (·.mBlocksRequested))
    (hwaiting : w'.daemon.mPoolConnections.map (·.mBlocksWaiting) =
      w.daemon.mPoolConnections.map (·.mBlocksWaiting)) : w'.counters = w.counters := by
  unfold counters
  simp only [← List.getElem?_map, hpools, hrequested, hwaiting]

theorem counters_modifyPool {f : PoolConnection → PoolConnection}
    (hf : ∀ pool, (f pool).mNumBlocksRequested = pool.mNumBlocksRequested) (i : ℕ) (w : World) :
    (w.modifyPool i f).counters = w.counters :=
  counters_congr (map_modify_eq hf i _) rfl rfl

theorem counters_modifyEntry {f : PoolConnectionData → PoolConnectionData}
    (hrequested : ∀ poolData, (f poolData).mBlocksRequested = poolData.mBlocksRequested)
    (hwaiting : ∀ poolData, (f poolData).mBlocksWaiting = poolData.mBlocksWaiting)
    (j : ℕ) (w : World) :
    (w.modifyEntry j f).counters = w.counters :=
  counters_congr rfl (map_modify_eq hrequested j _) (map_modify_eq hwaiting j _)

theorem getD_map_modify {α : Type} {items : List α} {i : ℕ} {a : α} (ha : items[i]? = some a)
    (f : α → α) (count : α → UInt16) :
    (fun k => ((items.modify i f)[k]?.map count).getD 0) =
      Function.update (fun k : ℕ => (items[k]?.map count).getD 0) i (count (f a)) := by
  funext k
  rw [List.getElem?_modify]
  by_cases hk : k = i
  · subst hk
    simp [ha]
  · simp [hk, Ne.symm hk]

theorem counters_modifyPool_of_self {i : ℕ} {pool : PoolConnection}
    (hself : w.pools[i]? = some pool)
    (f : PoolConnection → PoolConnection) :
    (w.modifyPool i f).counters =
      { w.counters with
        numBlocksRequested :=
          Function.update w.counters.numBlocksRequested i (f pool).mNumBlocksRequested } :=
  Counters.ext (getD_map_modify hself f (·.mNumBlocksRequested)) rfl rfl

theorem counters_modifyEntry_of_entry {j : ℕ} {poolData : PoolConnectionData}
    (hentry : w.daemon.mPoolConnections[j]? = some poolData)
    (f : PoolConnectionData → PoolConnectionData) :
    (w.modifyEntry j f).counters =
      { w.counters with
        blocksRequested := Function.update w.counters.blocksRequested j
          (f poolData).mBlocksRequested
        blocksWaiting := Function.update w.counters.blocksWaiting j (f poolData).mBlocksWaiting } :=
  Counters.ext rfl (getD_map_modify hentry f (·.mBlocksRequested))
    (getD_map_modify hentry f (·.mBlocksWaiting))

end World

theorem DaemonConnection.entry_of_findPoolConnection {ipAddress : Bytes} {w : World} {j : ℕ}
    (h : findPoolConnection ipAddress w = some j) :
    ∃ poolData, w.daemon.mPoolConnections[j]? = some poolData := by
  obtain ⟨hj, -⟩ := List.findIdx?_eq_some_iff_getElem.mp h
  exact ⟨_, List.getElem?_eq_getElem hj⟩

theorem DaemonConnection.entry_of_nextWaiting {w : World} {j i : ℕ}
    (h : nextWaiting w = some (j, i)) :
    ∃ poolData, w.daemon.mPoolConnections[j]? = some poolData ∧ poolData.mConnection = i ∧
      poolData.mBlocksWaiting ≠ 0 := by
  obtain ⟨⟨poolData, k⟩, hmem, hfound⟩ := List.exists_of_findSome?_eq_some h
  simp only [Option.bind_eq_bind, Option.bind_eq_some_iff, Option.ite_none_right_eq_some,
    Option.some.injEq, Prod.mk.injEq] at hfound
  obtain ⟨pool, hlock, hwaiting, rfl, rfl⟩ := hfound
  exact ⟨poolData, List.mem_zipIdx_iff_getElem?.mp hmem, rfl, UInt16.pos_iff_ne_zero.mp hwaiting⟩

section Effects

variable [Platform] {w w' : World} {out : List Output}

omit [Platform] in
theorem handleGetBlock_requestEffect {i : ℕ} {pool : PoolConnection} {u : Unit}
    (hself : w.pools[i]? = some pool) (hopen : pool.mConnection)
    (h : PoolConnection.handleGetBlock i w = some (u, w', out)) :
    RequestEffect w w'.counters (.asked i) := by
  obtain ⟨pool', j, hself', hentry, rfl, rfl⟩ := handleGetBlock_eq_some h
  cases hself.symm.trans hself'
  obtain ⟨poolData, hpoolData⟩ := DaemonConnection.entry_of_findPoolConnection hentry
  have hcount : w.counters.numBlocksRequested i = pool.mNumBlocksRequested := by
    simp [counters, hself]
  have hwaiting : w.counters.blocksWaiting j = poolData.mBlocksWaiting := by
    simp [counters, hpoolData]
  rw [counters_modifyEntry_of_entry (w := w.modifyPool i _) hpoolData,
    counters_modifyPool_of_self hself, ← hwaiting, Function.update_eq_self, ← hcount]
  exact .asked hself hopen hentry

theorem MinerEffect.counters {i : ℕ} {packet : Packet} (h : MinerEffect w i packet w' out)
    (hheader : packet.mHeader ≠ Packet.getBlock) : w'.counters = w.counters := by
  cases h with
  | reply => rfl
  | refused => exact counters_modifyPool (by intro _; rfl) _ w
  | loggedIn => exact counters_modifyPool (by intro _; rfl) _ w
  | getBlock self header => exact absurd header hheader
  | getBalance => rfl
  | credited share => exact counters_modifyPool (by intro _; rfl) _ w
  | accepted share =>
    exact (counters_modifyEntry (by intro _; rfl) (by intro _; rfl) _ share.credited).trans
      (counters_modifyPool (by intro _; rfl) _ w)

/-- Only an open connection delivers data. -/
theorem open_of_minerData {i : ℕ} {receiveBuffer : Bytes}
    (h : w.step (.minerData i receiveBuffer) = some (w', out)) :
    ∃ pool, w.pools[i]? = some pool ∧ pool.mConnection := by
  unfold World.step at h
  split_ifs at h with henabled
  exact (Option.any_eq_true _ _).mp henabled

theorem minerData_requestEffect {i : ℕ} {receiveBuffer : Bytes}
    (h : w.step (.minerData i receiveBuffer) = some (w', out)) :
    RequestEffect w w'.counters (.of ⟨w, .minerData i receiveBuffer, w', out⟩) := by
  obtain ⟨pool, hself, hopen⟩ := open_of_minerData h
  have hhandler := handler_of_step h
  simp only [RequestSignal.of]
  cases hasks : w.requests Packet.getBlock (.minerData i receiveBuffer) with
  | some k =>
    obtain ⟨_, packet, pool', heq, hparse, hvalid, header, hself', hlogged⟩ :=
      requests_eq_some hasks
    cases heq
    obtain ⟨front, hget⟩ := processData_getBlock hparse hvalid header hself' hlogged hhandler
    exact handleGetBlock_requestEffect hself hopen hget
  | none =>
    apply RequestEffect.kept
    obtain ⟨packet, hparse, heffect⟩ := minerEffect_of_processData hhandler
    by_cases header : packet.mHeader = Packet.getBlock
    · have hscoring := processData_scoring hhandler fun packet' pool' hparse' hvalid hself' => by
        cases hparse.symm.trans hparse'
        refine ⟨by rw [header]; decide, fun hlogged => ?_⟩
        rw [requests_minerData hparse hvalid header hself' hlogged] at hasks
        cases hasks
      rw [hscoring.1]
    · exact heffect.counters header

omit [Platform] in
theorem RoundFrame.counters {w₁ w₂ : World} {announced : List Output}
    (h : RoundFrame w₁ w₂ announced) :
    w₂.counters =
      { w₁.counters with
        numBlocksRequested := fun i => if i ∈ announced.filterMap Output.announced then 0
          else w₁.counters.numBlocksRequested i } := by
  apply Counters.ext
  · funext i
    simp only [World.counters, h.started]
    split_ifs
    · cases w₁.pools[i]? <;> rfl
    · rfl
  · simp only [World.counters, h.daemon]
  · simp only [World.counters, h.daemon]

theorem WalletEffect.requestEffect {packet : Packet} (hw : w.Linked)
    (h : WalletEffect w packet w' out) :
    RequestEffect w w'.counters (.ofWallet packet out) := by
  have hdelivered : ∀ {j : ℕ} (poolData : PoolConnectionData),
      w.daemon.mPoolConnections[j]? = some poolData →
        (w.modifyEntry j fun poolData =>
          { poolData with mBlocksWaiting := poolData.mBlocksWaiting - 1 }).counters =
            { w.counters with
              blocksWaiting := Function.update w.counters.blocksWaiting j
                (w.counters.blocksWaiting j - 1) } := by
    intro j poolData hentry
    have hrequested : w.counters.blocksRequested j = poolData.mBlocksRequested := by
      simp [counters, hentry]
    have hwaiting : w.counters.blocksWaiting j = poolData.mBlocksWaiting := by
      simp [counters, hentry]
    rw [counters_modifyEntry_of_entry hentry, ← hrequested, Function.update_eq_self, hwaiting]
  cases h with
  | rebuilt header =>
    rw [RequestSignal.ofWallet_of_quiet (.inl (by rw [header]; decide))]
    exact .kept rfl
  | @delivered data block j i pool header payload parsed current entry self isOpen =>
    obtain ⟨poolData, hentry, rfl, hwaiting⟩ := DaemonConnection.entry_of_nextWaiting entry
    obtain rfl := hw.paired.mConnection hentry
    have hsignal : RequestSignal.ofWallet packet [.toMiner poolData.mConnection
        (.withData Packet.blockData (block.serialize block.getHash pool.mMinShare))] =
          .delivered poolData.mConnection := by
      unfold RequestSignal.ofWallet Signal.ofWallet
      simp [header, payload]
    have hself : (w.modifyEntry poolData.mConnection fun poolData =>
        { poolData with
          mBlocksWaiting := poolData.mBlocksWaiting - 1 }).pools[poolData.mConnection]? =
          some pool := self
    have hcount : w.counters.numBlocksRequested poolData.mConnection =
        pool.mNumBlocksRequested := by
      simp [counters, self]
    rw [hsignal, counters_modifyPool_of_self hself, hdelivered poolData hentry, ← hcount]
    exact .delivered self isOpen (by simpa [counters, hentry] using hwaiting)
  | @swallowed data block j i pool header payload parsed current entry self isClosed =>
    obtain ⟨poolData, hentry, rfl, hwaiting⟩ := DaemonConnection.entry_of_nextWaiting entry
    obtain rfl := hw.paired.mConnection hentry
    rw [RequestSignal.ofWallet_of_quiet (.inr rfl), hdelivered poolData hentry]
    exact .swallowed self isClosed (by simpa [counters, hentry] using hwaiting)
  | @round w₁ w₂ announced cause frame =>
    have hcause : (w₁.modifyDaemon ({ · with mNewBlock := true })).counters = w.counters := by
      cases cause <;> rfl
    have hcounters : w₂.reset.counters = w₂.counters := rfl
    rw [RequestSignal.ofWallet_of_quiet (.inl cause.not_blockData), List.filterMap_append,
      w₂.announced_resetOutputs, List.append_nil, hcounters, frame.counters, hcause]
    exact .restarted _
  | _ =>
    rw [RequestSignal.ofWallet_of_quiet (.inr rfl)]
    exact .kept rfl

theorem TakeEffect.counters (h : TakeEffect w w' out) : w'.counters = w.counters := by
  cases h with
  | idle => rfl
  | stale => exact counters_modifyEntry (by intro _; rfl) (by intro _; rfl) _ _
  | sent => exact counters_modifyEntry (by intro _; rfl) (by intro _; rfl) _ _

omit [Platform] in
theorem Forwarded.counters (h : Forwarded w w' out) (hpools : w'.pools = w.pools) :
    w'.counters =
      { w.counters with
        blocksRequested := fun _ => 0
        blocksWaiting := fun j => w.counters.blocksWaiting j + w.counters.blocksRequested j } := by
  have hentry : ∀ j : ℕ, w'.daemon.mPoolConnections[j]? =
      w.daemon.mPoolConnections[j]?.map PoolConnectionData.forwarded := by
    intro j
    rw [h.entries, List.getElem?_map]
  apply Counters.ext
  · simp only [World.counters, hpools]
  · funext j
    simp only [World.counters, hentry]
    cases w.daemon.mPoolConnections[j]? <;> rfl
  · funext j
    simp only [World.counters, hentry]
    cases w.daemon.mPoolConnections[j]? <;> rfl

omit [Platform] in
theorem minerConnected_counters (ipAddress : Bytes) :
    World.counters
        (({ w with pools := w.pools ++ [PoolConnection.new ipAddress w.registry.mConfig] } :
          World).modifyDaemon fun d =>
        { d with mPoolConnections := d.mPoolConnections ++ [⟨w.pools.length, 0, 0, none⟩] }) =
      w.counters := by
  have happend : ∀ {α : Type} (items : List α) (a : α) (count : α → UInt16), count a = 0 →
      (fun k : ℕ => ((items ++ [a])[k]?.map count).getD 0) =
        fun k : ℕ => (items[k]?.map count).getD 0 := by
    intro α items a count ha
    funext k
    rcases lt_trichotomy k items.length with hk | hk | hk
    · rw [List.getElem?_append_left hk]
    · subst hk
      simp [ha]
    · rw [List.getElem?_eq_none (by simp; omega), List.getElem?_eq_none hk.le]
  apply Counters.ext
  · exact happend _ _ _ rfl
  · exact happend _ _ _ rfl
  · exact happend _ _ _ rfl

/-- Every step does to the counters what its signal says. -/
theorem requestEffect_of_step {e : Event} (hw : w.Linked) (hnew : w.daemon.mNewBlock = false)
    (h : w.step e = some (w', out)) : RequestEffect w w'.counters (.of ⟨w, e, w', out⟩) := by
  cases step_effect hnew h with
  | minerConnected => exact .kept (minerConnected_counters _)
  | miner => exact minerData_requestEffect h
  | minerClosed => exact .kept (counters_modifyPool (by intro _; rfl) _ w)
  | serverMaintenance =>
    apply RequestEffect.kept
    apply counters_congr
    · rw [List.map_map]
      rfl
    · rfl
    · rfl
  | walletConnected => exact .kept rfl
  | walletDropped dropped =>
    simp only [RequestSignal.of, dropped, Option.elim_none]
    exact .kept rfl
  | wallet parsed effect =>
    simp only [RequestSignal.of, parsed, Option.elim_some]
    exact effect.requestEffect hw
  | walletClosed => exact .kept rfl
  | blockTimerPending pending =>
    simp only [RequestSignal.of, pending, if_true]
    exact .kept rfl
  | @blockTimer w₁ w₂ out₁ out₂ take forward settled forwarded =>
    have hforward := forwarded.counters forward.pools
    rw [take.counters] at hforward
    rw [hforward]
    simp only [RequestSignal.of, settled, Bool.false_eq_true, if_false]
    exact .forwarded
  | orphanCheckTimer => exact .kept rfl
  | getHeightTimer => exact .kept rfl

end Effects

/-- A run, step by step, with what each step does to the counters. -/
theorem requests_induction [Platform] {P : History World Event Output → World → Prop}
    (hstart : ∀ w, World.Initial w → P [] w)
    (hnext : ∀ past w e w' out, ServerRun past w → w.Linked → P past w →
      StepEffect w e w' out → RequestEffect w w'.counters (.of ⟨w, e, w', out⟩) →
        P (⟨w, e, w', out⟩ :: past) w')
    {history : History World Event Output} {w : World} (h : ServerRun history w) : P history w := by
  induction h with
  | start h => exact hstart _ h
  | next hrun hstep ih =>
    have hlinked := linked_of_run hrun
    exact hnext _ _ _ _ _ hrun hlinked ih (stepEffect_of_run hrun hstep)
      (requestEffect_of_step hlinked (mNewBlock_of_run hrun) hstep)

end NexusPool
