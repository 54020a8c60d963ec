import NexusPool.Network.Packet

/-!
# Framing of the inbound stream

`Connection_impl::receive` takes the bytes that are available, whatever they are, and the
handler parses them as one packet. TCP promises the bytes and their order only. So the
packets handled are the packets written exactly when each read returns one whole packet.
-/

namespace NexusPool

namespace Framing

/-- The packets handled when the stream arrives in these chunks, one `process_data` call for
each. A packet that is not valid is dropped. `none` where a chunk is read past its end. -/
def receive (peer : Peer) (chunks : List Bytes) : Option (List Packet) :=
  (chunks.mapM (Packet.ofBuffer peer)).map (·.filter (Packet.isValid peer))

/-- A way to cut the stream of these packets into reads that each return something. -/
def Segmentation (packets : List Packet) (chunks : List Bytes) : Prop :=
  chunks.flatten = (packets.map Packet.wire).flatten ∧ ∀ chunk ∈ chunks, chunk ≠ []

variable {peer : Peer}

theorem receive_wire {packets : List Packet} (hform : ∀ p ∈ packets, p.WellFormed)
    (hvalid : ∀ p ∈ packets, p.isValid peer) :
    receive peer (packets.map Packet.wire) = some packets := by
  have hparse : (packets.map Packet.wire).mapM (Packet.ofBuffer peer) = some packets := by
    induction packets with
    | nil => rfl
    | cons p packets ih =>
      have hrest := ih (fun q hq => hform q (List.mem_cons_of_mem _ hq))
        (fun q hq => hvalid q (List.mem_cons_of_mem _ hq))
      simp [Packet.ofBuffer_wire peer (hform p List.mem_cons_self), hrest]
  rw [receive, hparse, Option.map_some, List.filter_eq_self.mpr hvalid]

/-- What is handled comes from chunks of its own, so its bytes are at most those received;
if they are all of them, no chunk was dropped. -/
theorem chunks_of_mapM : ∀ {chunks : List Bytes} {parsed : List Packet},
    chunks.mapM (Packet.ofBuffer peer) = some parsed → (∀ chunk ∈ chunks, chunk ≠ []) →
      (∀ p ∈ parsed.filter (Packet.isValid peer), p.WellFormed) →
      ((parsed.filter (Packet.isValid peer)).map Packet.wire).flatten.length ≤
        chunks.flatten.length ∧
      (((parsed.filter (Packet.isValid peer)).map Packet.wire).flatten.length =
        chunks.flatten.length →
        chunks = (parsed.filter (Packet.isValid peer)).map Packet.wire)
  | [], parsed, hparse, _, _ => by
    cases hparse
    simp
  | chunk :: chunks, parsed, hparse, hne, hform => by
    simp only [List.mapM_cons, Option.bind_eq_bind, Option.bind_eq_some_iff, Option.pure_def,
      Option.some.injEq] at hparse
    obtain ⟨p, hp, rest, hrest, rfl⟩ := hparse
    have hchunk : 0 < chunk.length := List.length_pos_of_ne_nil (hne chunk List.mem_cons_self)
    have hnerest : ∀ c ∈ chunks, c ≠ [] := fun c hc => hne c (List.mem_cons_of_mem _ hc)
    by_cases hvalid : p.isValid peer
    · rw [List.filter_cons_of_pos hvalid] at hform ⊢
      obtain ⟨hle, heq⟩ := chunks_of_mapM hrest hnerest
        fun q hq => hform q (List.mem_cons_of_mem _ hq)
      have hwire : p.wire = chunk := Packet.wire_of_ofBuffer (hne chunk List.mem_cons_self) hp
        (hform p List.mem_cons_self)
      simp only [List.map_cons, List.flatten_cons, List.length_append, hwire]
      exact ⟨by omega, fun h => by rw [← heq (by omega)]⟩
    · rw [List.filter_cons_of_neg hvalid] at hform ⊢
      obtain ⟨hle, -⟩ := chunks_of_mapM hrest hnerest hform
      simp only [List.flatten_cons, List.length_append]
      exact ⟨by omega, fun h => by omega⟩

/-- The packets handled are those written exactly when every read returns one packet and the
handler accepts them all. -/
theorem receive_eq_iff {packets : List Packet} {chunks : List Bytes}
    (hform : ∀ p ∈ packets, p.WellFormed) (hcut : Segmentation packets chunks) :
    receive peer chunks = some packets ↔
      chunks = packets.map Packet.wire ∧ ∀ p ∈ packets, p.isValid peer := by
  constructor
  · intro h
    obtain ⟨parsed, hparse, rfl⟩ := Option.map_eq_some_iff.mp h
    have hchunks := (chunks_of_mapM hparse hcut.2 hform).2 (by rw [hcut.1])
    exact ⟨hchunks, fun p hp => (List.mem_filter.mp hp).2⟩
  · rintro ⟨rfl, hvalid⟩
    exact receive_wire hform hvalid

def loginAndPing : List Packet := [.withData Packet.login [65], .getPacket Packet.ping]

theorem loginAndPing_wellFormed : ∀ p ∈ loginAndPing, p.WellFormed := by
  simp [loginAndPing, Packet.WellFormed, Packet.withData, Packet.getPacket, Packet.login,
    Packet.ping]

/-- One read for each packet. -/
theorem loginAndPing_received : receive .miner (loginAndPing.map Packet.wire) = some loginAndPing :=
  (receive_eq_iff loginAndPing_wellFormed ⟨rfl, by decide⟩).mpr ⟨rfl, by decide⟩

/-- The length and the data of the login arrive apart, so its data is lost. -/
theorem fragment_lost : ¬ ∀ (peer : Peer) (packets : List Packet) (chunks : List Bytes),
    (∀ p ∈ packets, p.WellFormed) → Segmentation packets chunks →
      receive peer chunks = some packets := by
  intro h
  have hreceived := h .miner loginAndPing [[8, 0, 0, 0, 1], [65], [253]] loginAndPing_wellFormed
    ⟨by decide, by decide⟩
  revert hreceived
  decide

end Framing

end NexusPool
