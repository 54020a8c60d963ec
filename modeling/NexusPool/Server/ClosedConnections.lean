import NexusPool.Server.Defined
import NexusPool.Server.Requests

/-!
# Connections that are closed but not gone

When a miner's connection is closed its pointer to the network connection is null, but the
object stays until the server's next maintenance, and the daemon connection can still lock it.
`add_block` asks if the pointer is null, `new_round` does not.
-/

namespace NexusPool

open Reactive World

def PoolConnection.opened (pool : PoolConnection) : PoolConnection :=
  { pool with mConnection := true }

/-- The same world with the pointers of all connections set. -/
def World.opened (w : World) : World := { w with pools := w.pools.map PoolConnection.opened }

/-- The handler of the event dereferences the pointer of a connection that is closed: it is
undefined, and would be defined if all pointers were set. -/
def World.dereferencesClosed [Platform] (w : World) (e : Event) : Prop :=
  w.enabled e = true ∧ ¬ (handler e).Defined w ∧ (handler e).Defined w.opened

def Event.startsRound (e : Event) (w : World) : Prop :=
  ∃ packet, e.walletPacket = some packet ∧ w.startsRound packet

/-! ### What the pointers have no part in -/

theorem getElem?_opened (w : World) (i : ℕ) :
    w.opened.pools[i]? = w.pools[i]?.map PoolConnection.opened := by
  simp [World.opened]

theorem lock_opened (w : World) (i : ℕ) :
    w.opened.lock i = (w.lock i).map PoolConnection.opened := by
  unfold World.lock
  rw [getElem?_opened]
  cases w.pools[i]? <;> simp [Option.filter, PoolConnection.opened]

theorem listsClosed_opened (w : World) : w.opened.listsClosed = false := by
  unfold World.listsClosed
  rw [List.any_eq_false]
  intro poolData _
  rw [lock_opened, Option.any_map]
  cases w.lock poolData.mConnection <;> simp [PoolConnection.opened]

theorem nextSubmission_opened (w : World) : DaemonConnection.nextSubmission w.opened =
    (DaemonConnection.nextSubmission w).map fun next =>
      (next.1, next.2.1.opened, next.2.2) := by
  unfold DaemonConnection.nextSubmission
  rw [List.map_findSome?]
  congr 1
  funext poolData
  simp only [lock_opened, Function.comp_apply]
  cases w.lock poolData.1.mConnection with
  | none => rfl
  | some pool => cases poolData.1.mSubmitBlock <;> rfl

theorem blockTimerSends_opened (w : World) : w.opened.blockTimerSends = w.blockTimerSends := by
  unfold World.blockTimerSends
  rw [nextSubmission_opened]
  cases DaemonConnection.nextSubmission w <;> rfl

/-! ### Handlers of one miner's connection -/

/-- The first world is the second with all pointers set, and connection `i` is open in both. -/
def OthersOpened (i : ℕ) (w₁ w : World) : Prop :=
  w₁ = w.opened ∧ w.pools[i]?.any (·.mConnection) = true

namespace OthersOpened

variable {i : ℕ}

theorem getElem? {w₁ w : World} (h : OthersOpened i w₁ w) : w.pools[i]? = w₁.pools[i]? := by
  obtain ⟨rfl, hopen⟩ := h
  rw [getElem?_opened]
  obtain ⟨pool, hpool, hconnection⟩ := (Option.any_eq_true _ _).mp hopen
  rw [hpool, Option.map_some, PoolConnection.opened, ← hconnection]

theorem self : Action.Follows (OthersOpened i) (PoolConnection.self i) := by
  unfold PoolConnection.self
  apply Action.Follows.get_bind
  · intro w₁ w h
    rw [h.getElem?]
  · intro w
    exact .ofOption _

theorem transmit (packet : Packet) :
    Action.Follows (OthersOpened i) (PoolConnection.transmit i packet) := by
  unfold PoolConnection.transmit
  exact .bind self fun pool => .bind (.require _) fun _ => .send _

theorem modifyPool {f : PoolConnection → PoolConnection}
    (hf : ∀ pool, f pool.opened = (f pool).opened)
    (hopen : ∀ pool, (f pool).mConnection = pool.mConnection) :
    Action.Follows (OthersOpened i) (Action.modify (World.modifyPool i f) : Act Unit) := by
  apply Action.Follows.modify
  rintro w₁ w ⟨rfl, h⟩
  constructor
  · have hpools : w.opened.pools.modify i f =
        (w.pools.modify i f).map PoolConnection.opened := by
      apply List.ext_getElem?
      intro k
      simp only [World.opened, List.getElem?_modify, List.getElem?_map]
      split_ifs <;> cases w.pools[k]? <;> simp [hf]
    simp only [World.modifyPool, hpools]
    rfl
  · rw [getElem?_modifyPool, if_pos rfl, Option.any_map]
    simpa [Function.comp_def, hopen] using h

theorem registryCall {α : Type} (p : DataRegistry.Handler α) :
    Action.Follows (OthersOpened i) (World.registryCall p) := by
  rintro w₁ w ⟨rfl, h⟩ a w' out hcall
  obtain ⟨rfl, rfl, rfl⟩ := registryCall_eq_some_iff.mp hcall
  exact ⟨_, rfl, rfl, h⟩

theorem score (nScore : ℕ) : Action.Follows (OthersOpened i) (PoolConnection.score i nScore) := by
  unfold PoolConnection.score
  exact .bind self fun pool => .ite (.send _) (.pure _)

theorem ddosInvalidHeader (packet : Packet) :
    Action.Follows (OthersOpened i) (PoolConnection.ddosInvalidHeader i packet) := by
  unfold PoolConnection.ddosInvalidHeader
  exact .bind self fun pool => .ite (.forM _ fun violation => .send _) (.pure _)

theorem banIpAddress (mRemoteAddress : Bytes) :
    Action.Follows (OthersOpened i) (PoolConnection.banIpAddress mRemoteAddress) := by
  unfold PoolConnection.banIpAddress
  apply Action.Follows.get_bind
  · rintro w₁ w ⟨rfl, -⟩
    rfl
  · intro w
    apply Action.Follows.ite
    · apply Action.Follows.modify
      rintro w₁ w ⟨rfl, h⟩
      exact ⟨rfl, h⟩
    · exact .pure _

theorem admitLogin (nxsAddress : Bytes) :
    Action.Follows (OthersOpened i) (PoolConnection.admitLogin i nxsAddress) := by
  unfold PoolConnection.admitLogin
  refine .bind self fun pool => .bind (registryCall _) fun _ => ?_
  apply Action.Follows.get_bind
  · rintro w₁ w ⟨rfl, -⟩
    rfl
  · intro w
    apply Action.Follows.ite
    · exact .bind (banIpAddress _) fun _ => .bind (.send _) fun _ => transmit _
    · exact .bind (modifyPool (fun _ => rfl) (fun _ => rfl)) fun _ => transmit _

section Handlers

variable [Platform]

theorem handleLogin (packet : Packet) :
    Action.Follows (OthersOpened i) (PoolConnection.handleLogin i packet) := by
  unfold PoolConnection.handleLogin
  refine .bind self fun pool => .ite (score _) (.bind (.ofOption _) fun nxsAddress => ?_)
  refine .bind (modifyPool (fun _ => rfl) (fun _ => rfl)) fun _ => .ite (admitLogin _) ?_
  unfold PoolConnection.banAddress
  exact .bind (.bind self fun pool => .ite (.send _) (.pure _)) fun _ => transmit _

omit [Platform] in
theorem findPoolConnection_opened (ipAddress : Bytes) (w : World) :
    DaemonConnection.findPoolConnection ipAddress w.opened =
      DaemonConnection.findPoolConnection ipAddress w := by
  apply DaemonConnection.findPoolConnection_congr
  · rfl
  · intro k
    rw [lock_opened, Option.map_map]
    rfl

omit [Platform] in
theorem modifyEntry (j : ℕ) (f : PoolConnectionData → PoolConnectionData) :
    Action.Follows (OthersOpened i) (Action.modify (World.modifyEntry j f) : Act Unit) := by
  apply Action.Follows.modify
  rintro w₁ w ⟨rfl, h⟩
  exact ⟨rfl, h⟩

omit [Platform] in
theorem requestBlock (blocksRequested : UInt16) (ipAddress : Bytes) :
    Action.Follows (OthersOpened i) (DaemonConnection.requestBlock blocksRequested ipAddress) := by
  unfold DaemonConnection.requestBlock
  apply Action.Follows.get_bind
  · rintro w₁ w ⟨rfl, -⟩
    rw [findPoolConnection_opened]
  · intro w
    exact .bind (.ofOption _) fun j => modifyEntry j _

omit [Platform] in
theorem submitBlock (block : CBlock) (ipAddress : Bytes) :
    Action.Follows (OthersOpened i) (DaemonConnection.submitBlock block ipAddress) := by
  unfold DaemonConnection.submitBlock
  apply Action.Follows.get_bind
  · rintro w₁ w ⟨rfl, -⟩
    rw [findPoolConnection_opened]
    rfl
  · intro w
    exact .bind (.ofOption _) fun j => .ite (.bind (modifyEntry j _) fun _ => .pure _) (.pure _)

omit [Platform] in
theorem refuseShare (verdict : UInt8) (nScore : ℕ) :
    Action.Follows (OthersOpened i) (PoolConnection.refuseShare i verdict nScore) := by
  unfold PoolConnection.refuseShare
  apply Action.Follows.get_bind
  · rintro w₁ w ⟨rfl, -⟩
    rfl
  · intro w
    exact .bind (transmit _) fun _ => .bind (transmit _) fun _ => score _

theorem creditShare (block : CBlock) (nNonce : UInt64) (prime : Uint1024) (nDifficulty : ℚ) :
    Action.Follows (OthersOpened i)
      (PoolConnection.creditShare i block nNonce prime nDifficulty) := by
  unfold PoolConnection.creditShare
  refine .bind self fun pool => .bind (modifyPool (fun _ => rfl) (fun _ => rfl)) fun _ => ?_
  refine .bind (registryCall _) fun _ => .ite (.bind (submitBlock _ _) fun taken => ?_) (transmit _)
  exact .ite (transmit _) (.pure _)

theorem handleSubmitShare (data : Bytes) :
    Action.Follows (OthersOpened i) (PoolConnection.handleSubmitShare i data) := by
  unfold PoolConnection.handleSubmitShare
  refine .bind self fun pool => .bind (.ofOption _) fun share => ?_
  obtain ⟨hashPrimeOrigin, nNonce⟩ := share
  dsimp only
  cases pool.mBlocksRequested[hashPrimeOrigin]? with
  | none => exact refuseShare _ _
  | some block =>
    apply Action.Follows.get_bind
    · rintro w₁ w ⟨rfl, -⟩
      rfl
    · intro w
      refine .ite (refuseShare _ _) (.ite (.bind (transmit _) fun _ => score _) ?_)
      refine .bind (.ofOption _) fun nDifficulty => .ite (creditShare _ _ _ _) ?_
      exact .bind (score _) fun _ => transmit _

theorem handleRequest (packet : Packet) :
    Action.Follows (OthersOpened i) (PoolConnection.handleRequest i packet) := by
  unfold PoolConnection.handleRequest
  refine .ite ?_ (.ite ?_ (.ite ?_ (.ite (transmit _) (.ite ?_ (.ite ?_ (.pure _))))))
  · unfold PoolConnection.handleGetBlock
    refine .bind (modifyPool (fun _ => rfl) (fun _ => rfl)) fun _ => .bind self fun pool => ?_
    exact .bind (requestBlock _ _) fun _ => .send _
  · unfold PoolConnection.handleGetBalance
    exact .bind self fun pool => .bind (registryCall _) fun cAccount => transmit _
  · unfold PoolConnection.handleGetPayout
    exact .bind self fun pool => .bind (registryCall _) fun nValue => transmit _
  · unfold PoolConnection.handleSubmitPps
    exact .bind (.ofOption _) fun data => .bind (.require _) fun _ => transmit _
  · exact .bind (.ofOption _) fun data => handleSubmitShare data

/-- What a miner's packet does depends on the pointer of its own connection only. -/
theorem processData (receiveBuffer : Bytes) :
    Action.Follows (OthersOpened i) (PoolConnection.processData i receiveBuffer) := by
  unfold PoolConnection.processData
  refine .bind (.ofOption _) fun packet => .ite (.bind (ddosInvalidHeader _) fun _ => ?_) (score _)
  refine .bind self fun pool => .ite (handleLogin _) (.ite (handleRequest _) (score _))

end Handlers

end OthersOpened

/-! ### When a closed connection is dereferenced -/

section Runs

variable [Platform] {history : History World Event Output} {w : World}

/-- A handler that is not defined, and would be with all pointers set, starts a round. -/
theorem startsRound_of_not_defined (hnew : w.daemon.mNewBlock = false) {e : Event}
    (henabled : w.enabled e = true) (hundefined : ¬ (handler e).Defined w)
    (hopened : (handler e).Defined w.opened) : e.startsRound w ∧ w.listsClosed = true := by
  cases e with
  | minerConnected ipAddress => exact absurd ⟨_, _, _, rfl⟩ hundefined
  | minerData i receiveBuffer =>
    have hfollows := OthersOpened.processData (i := i) receiveBuffer
    exact absurd (hfollows.defined ⟨rfl, henabled⟩ hopened) hundefined
  | minerClosed i => exact absurd ⟨_, _, _, rfl⟩ hundefined
  | serverMaintenance => exact absurd ⟨_, _, _, rfl⟩ hundefined
  | walletConnected =>
    simp only [handler, World.walletConnected, Action.defined_modify_bind,
      DaemonConnection.transmit_defined] at hundefined hopened
    exact absurd hopened hundefined
  | walletData receiveBuffer =>
    obtain ⟨packet, hparse, hwell⟩ := (processData_defined (w := w.opened) hnew).mp hopened
    have hfails := mt (processData_defined hnew).mpr hundefined
    have hvalid : packet.isValid .wallet = true := by
      by_contra hinvalid
      exact hfails ⟨packet, hparse, fun hvalid => absurd hvalid hinvalid⟩
    obtain ⟨hreadable, -, hconnected⟩ := hwell hvalid
    -- the packet is read and answered as with all pointers set, so the new round is what fails
    have hround : ¬ (w.startsRound packet → w.listsClosed = false) := fun hround =>
      hfails ⟨packet, hparse, fun _ => ⟨hreadable, hround, hconnected⟩⟩
    obtain ⟨hstarts, hclosed⟩ := Classical.not_imp.mp hround
    exact ⟨⟨packet, by simp [Event.walletPacket, hparse, hvalid], hstarts⟩, by simpa using hclosed⟩
  | walletClosed => exact absurd ⟨_, _, _, rfl⟩ hundefined
  | blockTimer =>
    simp only [handler, blockTimerHandler_defined, blockTimerSends_opened] at hundefined hopened
    exact absurd hopened hundefined
  | orphanCheckTimer =>
    simp only [handler, orphanCheckTimerHandler_defined] at hundefined hopened
    exact absurd hopened hundefined
  | getHeightTimer =>
    simp only [handler, getHeightTimerHandler_defined] at hundefined hopened
    exact absurd hopened hundefined

/-- In any state that a run reaches, a handler dereferences the pointer of a closed connection
exactly if it calls `new_round` while an entry leads to such a connection. -/
theorem dereferencesClosed_iff (h : ServerRun history w) (e : Event) :
    w.dereferencesClosed e ↔ w.enabled e = true ∧ e.startsRound w ∧ w.listsClosed = true := by
  have hnew := mNewBlock_of_run h
  constructor
  · rintro ⟨henabled, hundefined, hopened⟩
    exact ⟨henabled, startsRound_of_not_defined hnew henabled hundefined hopened⟩
  · rintro ⟨henabled, ⟨packet, hpacket, hstarts⟩, hclosed⟩
    cases e with
    | walletData receiveBuffer =>
      obtain ⟨hparse, hvalid⟩ := Option.filter_eq_some_iff.mp hpacket
      have hconnection : w.daemon.mConnection = true := (Bool.and_eq_true_iff.mp henabled).1
      refine ⟨henabled, fun hdefined => ?_, ?_⟩
      · obtain ⟨packet', hparse', hwell⟩ := (processData_defined hnew).mp hdefined
        cases hparse.symm.trans hparse'
        have hopen := (hwell hvalid).2.1 hstarts
        exact Bool.false_ne_true (hopen.symm.trans hclosed)
      · apply (processData_defined (w := w.opened) hnew).mpr
        have hreadable := Packet.readable_of_startsRound hstarts
        exact ⟨packet, hparse, fun _ => ⟨hreadable, fun _ => listsClosed_opened w,
          fun _ => hconnection⟩⟩
    | _ => cases hpacket

/-! ### Closed since the last maintenance -/

/-- A connection was closed, and there was no maintenance of the server since. -/
def closedSinceMaintenance : History World Event Output → Bool
  | [] => false
  | o :: past =>
    match o.event with
    | .minerClosed _ => true
    | .serverMaintenance => false
    | _ => closedSinceMaintenance past

/-- Some connection is alive and its pointer is null. -/
def World.keepsClosed (w : World) : Bool := w.links.1.any fun link => link.2.2 && !link.1

omit [Platform] in
theorem listsClosed_eq_keepsClosed (hw : w.Paired) : w.listsClosed = w.keepsClosed := by
  have hentries : w.listsClosed = (List.range w.pools.length).any fun i =>
      (w.lock i).any fun pool => !pool.mConnection := by
    rw [← hw.map_mConnection, List.any_map]
    rfl
  rw [hentries, Bool.eq_iff_iff, World.keepsClosed, World.links]
  simp only [List.any_eq_true, List.mem_range, Option.any_eq_true, List.any_map, World.lock,
    Option.filter_eq_some_iff]
  constructor
  · rintro ⟨i, -, pool, ⟨hpool, halive⟩, hclosed⟩
    exact ⟨pool, List.mem_of_getElem? hpool, by simpa [PoolConnection.link, halive] using hclosed⟩
  · rintro ⟨pool, hmem, hlink⟩
    obtain ⟨i, hpool⟩ := List.mem_iff_getElem?.mp hmem
    have hi := (List.getElem?_eq_some_iff.mp hpool).1
    have hflags : pool.alive = true ∧ pool.mConnection = false := by
      simpa [PoolConnection.link] using hlink
    exact ⟨i, hi, pool, ⟨hpool, hflags.1⟩, by simp [hflags.2]⟩

/-- A null pointer is marked, so the maintenance finds it. -/
def World.Marked (w : World) : Prop := ∀ link ∈ w.links.1, link.1 = false → link.2.1 = true

omit [Platform] in
theorem World.Marked.of_links {w' : World} (h : w.Marked) (hlinks : w'.links = w.links) :
    w'.Marked ∧ w'.keepsClosed = w.keepsClosed := by
  unfold World.Marked World.keepsClosed
  rw [hlinks]
  exact ⟨h, rfl⟩

omit [Platform] in
theorem World.Marked.closed {w' : World} {i : ℕ} (h : w.Marked)
    (hlinks : w'.links = (w.links.1.modify i fun link => (false, true, link.2.2), w.links.2))
    {link : Bool × Bool × Bool} (hlink : w.links.1[i]? = some link) (halive : link.2.2 = true) :
    w'.Marked ∧ w'.keepsClosed = true := by
  unfold World.Marked World.keepsClosed
  rw [hlinks]
  constructor
  · intro link' hlink' hclosed
    obtain ⟨k, hk⟩ := List.mem_iff_getElem?.mp hlink'
    rw [List.getElem?_modify] at hk
    obtain ⟨before, hbefore, rfl⟩ := Option.map_eq_some_iff.mp hk
    split_ifs at hclosed ⊢
    · rfl
    · exact h _ (List.mem_of_getElem? hbefore) hclosed
  · rw [List.any_eq_true]
    have hself : (w.links.1.modify i fun link => (false, true, link.2.2))[i]? =
        some (false, true, link.2.2) := by
      simp [hlink]
    exact ⟨_, List.mem_of_getElem? hself, by simp [halive]⟩

omit [Platform] in
theorem World.Marked.maintained {w' : World} (h : w.Marked)
    (hlinks : w'.links =
      (w.links.1.map fun link => (link.1, link.2.1, link.2.2 && !link.2.1), w.links.2)) :
    w'.Marked ∧ w'.keepsClosed = false := by
  unfold World.Marked World.keepsClosed
  rw [hlinks]
  constructor
  · intro link hlink hclosed
    obtain ⟨before, hbefore, rfl⟩ := List.mem_map.mp hlink
    exact h before hbefore hclosed
  · rw [List.any_eq_false]
    intro link hlink
    obtain ⟨before, hbefore, rfl⟩ := List.mem_map.mp hlink
    cases hopen : before.1 with
    | true => simp
    | false => simp [h before hbefore hopen]

/-- The state knows whether a connection was closed since the last maintenance. -/
theorem keepsClosed_of_run (h : ServerRun history w) :
    w.Marked ∧ w.keepsClosed = closedSinceMaintenance history := by
  induction h with
  | start h =>
    obtain ⟨config, blockDb, accountDb, mRoundReward, rfl⟩ := h
    constructor
    · intro link hlink
      cases hlink
    · rfl
  | @next past w w' e out hrun hstep ih =>
    obtain ⟨hmarked, hkeeps⟩ := ih
    have henabled := enabled_of_step hstep
    have heffect := stepEffect_of_run hrun hstep
    cases heffect with
    | @minerConnected ipAddress =>
      constructor
      · intro link hlink hclosed
        rw [links_connected] at hlink
        rcases List.mem_append.mp hlink with hlink | hlink
        · exact hmarked link hlink hclosed
        · rw [List.mem_singleton.mp hlink] at hclosed
          cases hclosed
      · have hsame : closedSinceMaintenance past = w.keepsClosed := hkeeps.symm
        simp only [closedSinceMaintenance, hsame]
        unfold World.keepsClosed
        rw [links_connected, List.any_append]
        simp
    | miner parsed effect =>
      obtain ⟨hmarked', hsame⟩ := hmarked.of_links effect.links
      exact ⟨hmarked', hsame.trans hkeeps⟩
    | @minerClosed i =>
      obtain ⟨pool, hpool, hopen⟩ := (Option.any_eq_true _ _).mp henabled
      have halive := (linked_of_run hrun).alive_of_open hpool hopen
      have hlink : w.links.1[i]? = some pool.link := by simp [World.links, hpool]
      exact hmarked.closed (links_closed w i) hlink halive
    | serverMaintenance => exact hmarked.maintained (links_maintained w)
    | wallet parsed effect =>
      obtain ⟨hmarked', hsame⟩ := hmarked.of_links effect.links
      exact ⟨hmarked', hsame.trans hkeeps⟩
    | blockTimer take forward =>
      obtain ⟨hmarked', hsame⟩ := hmarked.of_links (forward.links.trans take.links)
      exact ⟨hmarked', hsame.trans hkeeps⟩
    | _ => exact ⟨hmarked, hkeeps⟩

end Runs

section Hangup

attribute [local instance] Platform.plain

def hangup : List Event := [.minerConnected [1], .walletConnected, .minerClosed 0]

/-- `COINBASE_SET`, which starts a round. -/
def coinbaseIsSet : Event := .walletData (Packet.getPacket DaemonPacket.coinbaseSet).wire

theorem coinbaseIsSet_startsRound (w : World) : coinbaseIsSet.startsRound w :=
  ⟨.getPacket DaemonPacket.coinbaseSet, by decide, .inl rfl⟩

def maintainedRun : Option (History World Event Output × World) :=
  trace World.step .fresh (hangup ++ [.serverMaintenance])

theorem maintainedRun_isSome : maintainedRun.isSome := by decide +kernel

theorem maintainedRun_run : ServerRun (maintainedRun.get maintainedRun_isSome).1
    (maintainedRun.get maintainedRun_isSome).2 :=
  Run.of_trace World.fresh_initial (Option.some_get _).symm

theorem maintainedRun_maintained :
    closedSinceMaintenance (maintainedRun.get maintainedRun_isSome).1 = false := by decide +kernel

attribute [local irreducible] maintainedRun

/-- The wallet can answer, and the closed connection has not been let go of. -/
def hungUp : History World Event Output → Bool
  | [] => false
  | o :: _ => o.after.enabled coinbaseIsSet && o.after.listsClosed

end Hangup

end NexusPool
