import NexusPool.Server.RequestCount

/-!
# Blocks that the wallet owes

The entries of the daemon connection count the blocks that were requested from the wallet and
have not come. A block of the current height goes to an entry that waits for one; a block of
another height is dropped, and then no entry is told that it came.
-/

namespace NexusPool

open Reactive World

def World.outstanding (w : World) : ℕ :=
  (w.daemon.mPoolConnections.map (·.mBlocksWaiting.toNat)).sum

def Event.isBlockData : Event → Bool := Event.receives DaemonPacket.blockData

/-- At every point of the run the entries wait for as many blocks as were requested from the
wallet and have not been received. -/
def Accounted (history : History World Event Output) : Prop :=
  Throughout (fun past o =>
    o.after.outstanding + received Event.isBlockData (o :: past) =
      sent Output.isGetBlock (o :: past)) history

/-- A `BLOCK_DATA` of the wallet answers a `GET_BLOCK`, each one once. -/
def Answers (history : History World Event Output) : Prop :=
  Throughout (fun past o => o.event.isBlockData →
    received Event.isBlockData past < sent Output.isGetBlock past) history

def Event.isMinerClosed : Event → Bool
  | .minerClosed _ => true
  | _ => false

def NoneCloses (history : History World Event Output) : Prop :=
  Throughout (fun _ o => ¬ o.event.isMinerClosed) history

def World.obsolete [Platform] (w : World) (e : Event) : Bool :=
  (e.walletPacket.filter (·.mHeader = DaemonPacket.blockData)).any fun packet =>
    (packet.mData.bind CBlock.deserialize).any (·.nHeight ≠ w.registry.mBestHeight)

/-- A tick after which the counter of some entry would have to be 65536 or more. -/
def World.overflows (w : World) : Event → Bool
  | .blockTimer => !w.daemon.mCoinbasePending && w.daemon.mPoolConnections.any fun poolData =>
      65536 ≤ poolData.mBlocksWaiting.toNat + poolData.mBlocksRequested.toNat
  | _ => false

/-- No block is obsolete when it arrives, and no counter overflows. -/
def AllCurrent [Platform] (history : History World Event Output) : Prop :=
  Throughout (fun _ o => ¬ o.before.obsolete o.event ∧ ¬ o.before.overflows o.event) history

instance (history : History World Event Output) : Decidable (Answers history) :=
  inferInstanceAs (Decidable (Throughout _ history))

instance (history : History World Event Output) : Decidable (NoneCloses history) :=
  inferInstanceAs (Decidable (Throughout _ history))

instance [Platform] (history : History World Event Output) : Decidable (AllCurrent history) :=
  inferInstanceAs (Decidable (Throughout _ history))

/-! ### The sum of the counters -/

theorem sum_map_range {α : Type} (items : List α) (count : α → UInt16) {n : ℕ}
    (hn : items.length ≤ n) :
    (items.map fun a => (count a).toNat).sum =
      ∑ k ∈ Finset.range n, ((items[k]?.map count).getD 0).toNat := by
  induction items generalizing n with
  | nil => simp
  | cons a items ih =>
    obtain ⟨n, rfl⟩ : ∃ m, n = m + 1 := ⟨n - 1, by simp at hn; omega⟩
    rw [Finset.sum_range_succ', List.map_cons, List.sum_cons,
      ih (Nat.le_of_succ_le_succ hn), add_comm]
    rfl

theorem outstanding_eq {w : World} {n : ℕ} (hn : w.daemon.mPoolConnections.length ≤ n) :
    w.outstanding = ∑ k ∈ Finset.range n, (w.counters.blocksWaiting k).toNat :=
  sum_map_range _ _ hn

theorem outstanding_congr {w w' : World}
    (h : w'.counters.blocksWaiting = w.counters.blocksWaiting) :
    w'.outstanding = w.outstanding := by
  have hle := le_max_left w.daemon.mPoolConnections.length w'.daemon.mPoolConnections.length
  have hle' := le_max_right w.daemon.mPoolConnections.length w'.daemon.mPoolConnections.length
  rw [outstanding_eq hle, outstanding_eq hle', h]

theorem outstanding_update {w w' : World} {j : ℕ} {n : UInt16}
    (hj : j < w.daemon.mPoolConnections.length)
    (h : w'.counters.blocksWaiting = Function.update w.counters.blocksWaiting j n) :
    w'.outstanding + (w.counters.blocksWaiting j).toNat = w.outstanding + n.toNat := by
  have hle := le_max_left w.daemon.mPoolConnections.length w'.daemon.mPoolConnections.length
  have hle' := le_max_right w.daemon.mPoolConnections.length w'.daemon.mPoolConnections.length
  have hmem : j ∈ Finset.range (max w.daemon.mPoolConnections.length
      w'.daemon.mPoolConnections.length) :=
    Finset.mem_range.mpr (hj.trans_le hle)
  rw [outstanding_eq hle, outstanding_eq hle', h, ← Finset.add_sum_erase _ _ hmem,
    ← Finset.add_sum_erase _ (fun k => (w.counters.blocksWaiting k).toNat) hmem,
      Function.update_self]
  have hrest : ∀ k ∈ (Finset.range (max w.daemon.mPoolConnections.length
      w'.daemon.mPoolConnections.length)).erase j,
      (Function.update w.counters.blocksWaiting j n k).toNat =
        (w.counters.blocksWaiting k).toNat := by
    intro k hk
    rw [Function.update_of_ne (Finset.ne_of_mem_erase hk)]
  rw [Finset.sum_congr rfl hrest]
  omega

/-- A tick adds what was requested, if no counter overflows. -/
theorem outstanding_forwarded {w w' : World} {out : List Output} (h : Forwarded w w' out) :
    w'.outstanding = w.outstanding + out.length ↔
      ∀ poolData ∈ w.daemon.mPoolConnections,
        poolData.mBlocksWaiting.toNat + poolData.mBlocksRequested.toNat < 65536 := by
  unfold World.outstanding
  rw [h.entries, h.outputs, List.length_replicate, List.map_map]
  generalize w.daemon.mPoolConnections = entries
  have hle : ∀ entries : List PoolConnectionData,
      (entries.map fun poolData => poolData.forwarded.mBlocksWaiting.toNat).sum ≤
        (entries.map (·.mBlocksWaiting.toNat)).sum +
          (entries.map (·.mBlocksRequested.toNat)).sum := by
    intro entries
    induction entries with
    | nil => simp
    | cons poolData entries ih =>
      have hmod := Nat.mod_le (poolData.mBlocksWaiting.toNat + poolData.mBlocksRequested.toNat)
        (2 ^ 16)
      simp only [List.map_cons, List.sum_cons, PoolConnectionData.forwarded,
        UInt16.toNat_add] at ih ⊢
      omega
  induction entries with
  | nil => simp
  | cons poolData entries ih =>
    have hrest := hle entries
    have hmod : (poolData.forwarded.mBlocksWaiting).toNat =
        (poolData.mBlocksWaiting.toNat + poolData.mBlocksRequested.toNat) % 65536 :=
      UInt16.toNat_add _ _
    have hmodLe := Nat.mod_le (poolData.mBlocksWaiting.toNat +
      poolData.mBlocksRequested.toNat) 65536
    rw [List.forall_mem_cons]
    simp only [List.map_cons, List.sum_cons, Function.comp_apply, hmod]
    simp only [Function.comp_def] at ih hrest ⊢
    constructor
    · intro hsum
      refine ⟨?_, ih.mp ?_⟩
      · omega
      · omega
    · rintro ⟨hfits, hothers⟩
      have hsum := ih.mpr hothers
      rw [Nat.mod_eq_of_lt hfits, hsum]
      omega

/-! ### What a step sends and receives -/

section Effects

variable [Platform] {w w' : World} {e : Event} {out : List Output}

omit [Platform] in
/-- Which events a signal that is told apart comes from. -/
theorem requestSignal_cases (o : Occurrence World Event Output) :
    (∃ i, RequestSignal.of o = .asked i) ∨ (∃ started, RequestSignal.of o = .restarted started) ∨
      (o.event = .blockTimer ∧ RequestSignal.of o = .forwarded) ∨
        (o.event.isBlockData ∧ ∃ i, RequestSignal.of o = .delivered i) := by
  obtain ⟨w, e, w', out⟩ := o
  cases e with
  | minerData k receiveBuffer =>
    cases hasks : w.requests Packet.getBlock (.minerData k receiveBuffer) with
    | none => exact .inr (.inl ⟨[], by simp [RequestSignal.of, hasks]⟩)
    | some i => exact .inl ⟨i, by simp [RequestSignal.of, hasks]⟩
  | walletData receiveBuffer =>
    cases hpacket : (Event.walletData receiveBuffer).walletPacket with
    | none => exact .inr (.inl ⟨[], by simp [RequestSignal.of, hpacket]⟩)
    | some packet =>
      have hof : RequestSignal.of ⟨w, .walletData receiveBuffer, w', out⟩ =
          RequestSignal.ofWallet packet out := by
        simp [RequestSignal.of, hpacket]
      by_cases header : packet.mHeader = DaemonPacket.blockData
      · rw [hof]
        unfold RequestSignal.ofWallet
        split
        · have hblock : (Event.walletData receiveBuffer).isBlockData := by
            simp [Event.isBlockData, Event.receives, hpacket, header]
          exact .inr (.inr (.inr ⟨hblock, _, rfl⟩))
        · exact .inr (.inl ⟨_, rfl⟩)
      · rw [hof, RequestSignal.ofWallet_of_quiet (.inl header)]
        exact .inr (.inl ⟨_, rfl⟩)
  | blockTimer =>
    by_cases hpending : w.daemon.mCoinbasePending
    · exact .inr (.inl ⟨[], by simp [RequestSignal.of, hpending]⟩)
    · exact .inr (.inr (.inl ⟨rfl, by simp [RequestSignal.of, hpending]⟩))
  | _ => exact .inr (.inl ⟨[], rfl⟩)

omit [Platform] in
theorem isBlockData_of_delivered {o : Occurrence World Event Output} {i : ℕ}
    (h : RequestSignal.of o = .delivered i) : o.event.isBlockData := by
  obtain ⟨k, hof⟩ | ⟨started, hof⟩ | ⟨-, hof⟩ | ⟨hblock, -⟩ := requestSignal_cases o
  · cases hof.symm.trans h
  · cases hof.symm.trans h
  · cases hof.symm.trans h
  · exact hblock

omit [Platform] in
theorem event_of_forwarded {o : Occurrence World Event Output}
    (h : RequestSignal.of o = .forwarded) : o.event = .blockTimer := by
  obtain ⟨k, hof⟩ | ⟨started, hof⟩ | ⟨htimer, -⟩ | ⟨-, k, hof⟩ := requestSignal_cases o
  · cases hof.symm.trans h
  · cases hof.symm.trans h
  · exact htimer
  · cases hof.symm.trans h

/-- What a tick sends is added to the blocks that the entries wait for, if no counter overflows. -/
theorem StepEffect.countP_getBlock (h : StepEffect w e w' out) :
    (RequestSignal.of ⟨w, e, w', out⟩ ≠ .forwarded ∧ out.countP Output.isGetBlock = 0) ∨
      (RequestSignal.of ⟨w, e, w', out⟩ = .forwarded ∧
        (w'.outstanding = w.outstanding + out.countP Output.isGetBlock ↔ ¬ w.overflows e)) := by
  obtain ⟨hsignal, hout⟩ | ⟨hsignal, hout⟩ := h.getBlocks
  · exact .inl ⟨hsignal, by rw [List.countP_eq_length_filter, hout, List.length_nil]⟩
  · refine .inr ⟨hsignal, ?_⟩
    rw [List.countP_eq_length_filter, hout, List.length_replicate]
    obtain rfl : e = .blockTimer := event_of_forwarded hsignal
    cases h with
    | blockTimerPending pending => simp [RequestSignal.of, pending] at hsignal
    | @blockTimer w₁ w₂ out₁ out₂ take forward settled forwarded =>
      have hlength : w.turns.length = out₂.length := by
        rw [w.length_turns, forwarded.outputs, List.length_replicate,
          take.map_entries (g := (·.mBlocksRequested.toNat)) (by intro _; rfl)]
      have hentries : (∀ poolData ∈ w₁.daemon.mPoolConnections,
          poolData.mBlocksWaiting.toNat + poolData.mBlocksRequested.toNat < 65536) ↔
            ¬ w.overflows .blockTimer := by
        have hcounts := take.map_entries
          (g := fun poolData => poolData.mBlocksWaiting.toNat + poolData.mBlocksRequested.toNat)
          (by intro _; rfl)
        have hall := List.forall_mem_map (l := w₁.daemon.mPoolConnections) (P := (· < 65536))
          (f := fun poolData => poolData.mBlocksWaiting.toNat + poolData.mBlocksRequested.toNat)
        rw [hcounts, List.forall_mem_map] at hall
        rw [← hall]
        simp [World.overflows, settled]
      rw [hlength, ← hentries, ← outstanding_forwarded forwarded,
        outstanding_congr (congrArg Counters.blocksWaiting take.counters)]

/-- A block that arrives is given to a connection if it is current and an entry waits, unless
the connection is closed. -/
theorem StepEffect.isBlockData (h : StepEffect w e w' out) (he : e.isBlockData) :
    (∃ i, RequestSignal.of ⟨w, e, w', out⟩ = .delivered i ∧ w.obsolete e = false) ∨
      (∃ i, w.Closed i) ∨
        (w' = w ∧ (w.obsolete e = true ∨ DaemonConnection.nextWaiting w = none)) := by
  cases h with
  | walletDropped dropped => simp [Event.isBlockData, Event.receives, dropped] at he
  | @wallet receiveBuffer packet _ _ parsed effect =>
    have header : packet.mHeader = DaemonPacket.blockData :=
      Event.mHeader_of_receives parsed (by simpa [Event.isBlockData] using he)
    cases effect with
    | ignored _ unwanted =>
      refine .inr (.inr ⟨rfl, ?_⟩)
      obtain ⟨data, block, payload, blockParsed, hnone⟩ := unwanted header
      by_cases hcurrent : block.nHeight = w.registry.mBestHeight
      · exact .inr (hnone hcurrent)
      · refine .inl ?_
        simp [World.obsolete, parsed, Option.filter, header, payload, blockParsed, hcurrent]
    | pending hheader => exact absurd (header ▸ hheader) (by decide)
    | goodBlock hheader => exact absurd (header.symm.trans hheader) (by decide)
    | orphan hheader => exact absurd (header.symm.trans hheader) (by decide)
    | rebuilt hheader => exact absurd (header.symm.trans hheader) (by decide)
    | @delivered data block j i pool _ payload blockParsed current =>
      refine .inl ⟨i, ?_, ?_⟩
      · simp only [RequestSignal.of, parsed, Option.elim_some, RequestSignal.ofWallet,
          Signal.ofWallet]
        simp [header, payload]
      · simp [World.obsolete, parsed, Option.filter, header, payload, blockParsed, current]
    | swallowed _ _ _ _ _ self isClosed =>
      exact .inr (.inl ⟨_, World.closed_of_not_open self isClosed⟩)
    | round cause =>
      cases cause with
      | coinbaseSet hheader => exact absurd (header.symm.trans hheader) (by decide)
      | reward hheader => exact absurd (header.symm.trans hheader) (by decide)
      | good hheader => exact absurd (header.symm.trans hheader) (by decide)
  | _ => simp [Event.isBlockData, Event.receives, Event.walletPacket] at he

theorem isBlockData_of_obsolete (h : w.obsolete e = true) : e.isBlockData := by
  obtain ⟨packet, hpacket, -⟩ := (Option.any_eq_true _ _).mp h
  obtain ⟨hpacket, header⟩ := Option.filter_eq_some_iff.mp hpacket
  simpa [Event.isBlockData, Event.receives, hpacket] using header

omit [Platform] in
theorem event_of_overflows (h : w.overflows e = true) : e = .blockTimer := by
  cases e with
  | blockTimer => rfl
  | _ => cases h

omit [Platform] in
/-- If no connection is closed and no entry waits, nothing is outstanding. -/
theorem outstanding_eq_zero (hw : w.Linked) (hopen : ∀ link ∈ w.links.1, link.1)
    (hnone : DaemonConnection.nextWaiting w = none) : w.outstanding = 0 := by
  unfold World.outstanding
  rw [List.sum_eq_zero_iff]
  intro n hn
  obtain ⟨poolData, hmem, rfl⟩ := List.mem_map.mp hn
  obtain ⟨j, hentry⟩ := List.mem_iff_getElem?.mp hmem
  have hwaiting := List.findSome?_eq_none_iff.mp hnone (poolData, j)
    (List.mem_zipIdx_iff_getElem?.mpr hentry)
  have hlt : j < w.pools.length := by
    rw [← hw.paired.length]
    exact (List.getElem?_eq_some_iff.mp hentry).1
  have hself : w.pools[j]? = some w.pools[j] := List.getElem?_eq_getElem hlt
  have hlink : w.pools[j].link ∈ w.links.1 := List.mem_map_of_mem (List.getElem_mem hlt)
  have halive := hw.alive_of_open hself (hopen _ hlink)
  rw [hw.paired.mConnection hentry] at hwaiting
  simp only [World.lock, hself, Option.filter, halive, if_true, Option.bind_eq_bind,
    Option.bind_some, ite_eq_right_iff, reduceCtorEq, imp_false] at hwaiting
  by_contra hpos
  apply hwaiting
  apply UInt16.pos_iff_ne_zero.mpr
  intro hzero
  exact hpos (by simp [hzero])

omit [Platform] in
theorem not_closed_of_open (hopen : ∀ link ∈ w.links.1, link.1) (i : ℕ) : ¬ w.Closed i := by
  rintro ⟨link, hlink, hclosed⟩
  have hlinkOpen := hopen link (List.mem_of_getElem? hlink)
  rw [hclosed] at hlinkOpen
  cases hlinkOpen

/-- A block takes one off the outstanding requests unless it is obsolete. -/
theorem StepEffect.accounted_of_isBlockData (hstep : StepEffect w e w' out) (hw : w.Linked)
    (hopen : ∀ link ∈ w.links.1, link.1)
    (heffect : RequestEffect w w'.counters (.of ⟨w, e, w', out⟩)) (he : e.isBlockData)
    (hpos : 0 < w.outstanding) : w'.outstanding + 1 = w.outstanding ↔ ¬ w.obsolete e := by
  rcases hstep.isBlockData he with ⟨i, hsignal, hcurrent⟩ | ⟨i, hclosed⟩ | ⟨rfl, hlost⟩
  · rw [hsignal] at heffect
    generalize hcounters : w'.counters = c at heffect
    cases heffect with
    | delivered self isOpen waiting =>
      have hi : i < w.daemon.mPoolConnections.length := by
        rw [hw.paired.length]
        exact (List.getElem?_eq_some_iff.mp self).1
      have hupdate := outstanding_update hi (congrArg Counters.blocksWaiting hcounters)
      have hdown := toNat_sub_one waiting
      simp only [hcurrent, Bool.false_eq_true, not_false_eq_true, iff_true]
      omega
  · exact absurd hclosed (not_closed_of_open hopen i)
  · rcases hlost with hobsolete | hnone
    · simp only [hobsolete, not_true_eq_false, iff_false]
      omega
    · rw [outstanding_eq_zero hw hopen hnone] at hpos
      cases hpos

/-- Any other step adds what it asks for unless a counter overflows. -/
theorem StepEffect.accounted_of_not_isBlockData (hstep : StepEffect w e w' out)
    (hopen : ∀ link ∈ w.links.1, link.1)
    (heffect : RequestEffect w w'.counters (.of ⟨w, e, w', out⟩)) (he : ¬ e.isBlockData) :
    w'.outstanding = out.countP Output.isGetBlock + w.outstanding ↔ ¬ w.overflows e := by
  rcases hstep.countP_getBlock with ⟨hforwarded, hsent⟩ | ⟨hforwarded, hsent⟩
  · have hoverflows : ¬ w.overflows e := by
      intro hoverflows
      obtain rfl := event_of_overflows hoverflows
      apply hforwarded
      simp only [World.overflows, Bool.and_eq_true, Bool.not_eq_true'] at hoverflows
      simp [RequestSignal.of, hoverflows.1]
    have hsame : w'.counters.blocksWaiting = w.counters.blocksWaiting := by
      generalize hsignal : RequestSignal.of ⟨w, e, w', out⟩ = signal at heffect hforwarded
      generalize w'.counters = c at heffect
      cases heffect with
      | restarted => rfl
      | asked => rfl
      | delivered => exact absurd (isBlockData_of_delivered hsignal) he
      | swallowed self isClosed =>
        exact absurd (World.closed_of_not_open self isClosed) (not_closed_of_open hopen _)
      | forwarded => exact absurd rfl hforwarded
    simp only [hsent, outstanding_congr hsame, hoverflows]
    simp
  · rw [add_comm, hsent]

/-- A step keeps the account exactly if it neither drops a block nor overflows a counter. -/
theorem StepEffect.accounted (hstep : StepEffect w e w' out) (hw : w.Linked)
    (hopen : ∀ link ∈ w.links.1, link.1)
    (heffect : RequestEffect w w'.counters (.of ⟨w, e, w', out⟩))
    (hanswers : e.isBlockData → 0 < w.outstanding) :
    w'.outstanding + (if e.isBlockData then 1 else 0) =
      out.countP Output.isGetBlock + w.outstanding ↔
      ¬ w.obsolete e ∧ ¬ w.overflows e := by
  by_cases he : e.isBlockData
  · have hne : e ≠ .blockTimer := by
      rintro rfl
      cases he
    have hsent : out.countP Output.isGetBlock = 0 := by
      rcases hstep.countP_getBlock with ⟨-, hsent⟩ | ⟨hforwarded, -⟩
      · exact hsent
      · exact absurd (event_of_forwarded hforwarded) hne
    rw [if_pos he, hsent, zero_add,
      hstep.accounted_of_isBlockData hw hopen heffect he (hanswers he)]
    exact (and_iff_left (mt event_of_overflows hne)).symm
  · rw [if_neg he, add_zero, hstep.accounted_of_not_isBlockData hopen heffect he]
    exact (and_iff_right (mt isBlockData_of_obsolete he)).symm

/-- The blocks are accounted for in exactly those runs in which no block is obsolete when it
arrives and no counter overflows. -/
theorem accounted_iff {history : History World Event Output} (h : ServerRun history w)
    (hanswers : Answers history) (hopen : NoneCloses history) :
    Accounted history ↔ AllCurrent history := by
  have hall : Answers history → NoneCloses history →
      (∀ link ∈ w.links.1, link.1) ∧ (Accounted history ↔ AllCurrent history) ∧
        (Accounted history → w.outstanding + received Event.isBlockData history =
          sent Output.isGetBlock history) := by
    refine requests_induction (P := fun history w => Answers history → NoneCloses history →
      (∀ link ∈ w.links.1, link.1) ∧ (Accounted history ↔ AllCurrent history) ∧
        (Accounted history → w.outstanding + received Event.isBlockData history =
          sent Output.isGetBlock history)) ?_ ?_ h
    · rintro w ⟨config, blockDb, accountDb, mRoundReward, rfl⟩ _ _
      exact ⟨by simp [World.links, World.init], Iff.rfl, fun _ => rfl⟩
    · intro past w e w' out _ hw ih hstep heffect hanswers hopen
      obtain ⟨hlinks, hiff, hcount⟩ := ih hanswers.2 hopen.2
      have hlinks' := hstep.linkEffect.open_of_open (by
        rintro i rfl
        exact hopen.1 rfl) hlinks
      refine ⟨hlinks', Throughout.cons_congr hiff fun hpast => ?_, fun hnow => hnow.1⟩
      have hbefore := hcount hpast
      have hpos : e.isBlockData → 0 < w.outstanding := by
        intro he
        have hlt := hanswers.1 he
        omega
      have hiff := hstep.accounted hw hlinks heffect hpos
      rw [← hiff]
      simp only [received_cons, sent_cons]
      omega
  exact (hall hanswers hopen).2.1

end Effects

/-! ### One request -/

section OneRequest

attribute [local instance] Platform.plain

def answered : Option (History World Event Output × World) :=
  trace World.step .fresh (oneRequest ++ [firstBlock])

theorem answered_isSome : answered.isSome := by decide +kernel

theorem answered_run :
    ServerRun (answered.get answered_isSome).1 (answered.get answered_isSome).2 :=
  Run.of_trace World.fresh_initial (Option.some_get _).symm

theorem answered_answers : Answers (answered.get answered_isSome).1 := by decide +kernel

theorem answered_noneCloses : NoneCloses (answered.get answered_isSome).1 := by decide +kernel

theorem answered_allCurrent : AllCurrent (answered.get answered_isSome).1 := by decide +kernel

attribute [local irreducible] answered

theorem answered_accounted : Accounted (answered.get answered_isSome).1 :=
  (accounted_iff answered_run answered_answers answered_noneCloses).mpr answered_allCurrent

/-- The height goes up before the block comes, and the entry waits on. -/
theorem obsolete_dropped : ¬ ∀ (platform : Platform) history w, @ServerRun platform history w →
    Answers history → NoneCloses history → Accounted history := by
  intro h
  obtain ⟨history, w, hrun, hp⟩ : ∃ history w, ServerRun history w ∧
      (decide (Answers history) && decide (NoneCloses history) && history.head?.any fun o =>
        decide (o.after.outstanding + received Event.isBlockData history ≠
          sent Output.isGetBlock history)) = true :=
    exists_run_of_trace World.fresh_initial
      (oneRequest ++ [.walletData (Packet.withData DaemonPacket.blockHeight (uint2bytes 1)).wire,
        firstBlock])
      (fun history => decide (Answers history) && decide (NoneCloses history) &&
        history.head?.any fun o =>
        decide (o.after.outstanding + received Event.isBlockData history ≠
          sent Output.isGetBlock history)) (by decide +kernel)
  simp only [Bool.and_eq_true, decide_eq_true_eq] at hp
  have haccounted := h .plain history w hrun hp.1.1 hp.1.2
  cases history with
  | nil => cases hp.2
  | cons o past =>
    have hne := hp.2
    simp only [List.head?_cons, Option.any_some, decide_eq_true_eq] at hne
    exact hne haccounted.1

end OneRequest

end NexusPool
