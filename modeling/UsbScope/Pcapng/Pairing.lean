import UsbScope.Lib.Trace
import UsbScope.Pcapng.Producers

/-! # Requests and their completions

A completion gets its requested length from the submission on record for its
interface and URB id. The record is right as long as no packet that could have
replaced it was passed over unread. -/
namespace UsbScope.Pcapng
open UsbScope.Lib UsbScope.Common UsbScope.Capture

/-! ## Packets of a section -/

/-- The blocks since the last section header. -/
def sectionOf (blocks : List Block) : List Block :=
  blocks.foldl (fun seen b => if b = .sectionHeader then [] else seen ++ [b]) []

def Block.packets : Block → List Packet
  | .packet p _ => [p]
  | _ => []

/-- The packet blocks of the current section, whatever became of them. -/
def packetsOf (blocks : List Block) : List Packet := (sectionOf blocks).flatMap Block.packets

/-- The URB id of a packet, if enough of its header was captured. -/
def Packet.urbId (p : Packet) : Option UInt64 :=
  if 8 ≤ p.captured.length then some (u64 p.endian 0 p.captured) else none

def Packet.isSubmit (p : Packet) : Bool := p.captured[8]? = some submitType

/-- The URB length field. -/
def Packet.urbLen (p : Packet) : Option UInt32 :=
  if 36 ≤ p.captured.length then some (u32 p.endian 32 p.captured) else none

/-- Interface and URB id. -/
def Packet.key (p : Packet) : Option (Nat × UInt64) := p.urbId.map fun id => (p.interface, id)

/-- The latest packet of an interface and URB id in the section. -/
def latestPacket (blocks : List Block) (key : Nat × UInt64) : Option Packet :=
  Trace.latest Packet.key (packetsOf blocks) key

/-- The latest one that was captured in full. -/
def latestWhole (blocks : List Block) (key : Nat × UInt64) : Option Packet :=
  Trace.latest Packet.key ((packetsOf blocks).filter fun p => ¬ p.truncated) key

/-- A completion with a known request follows its submission: the latest packet
of its interface and URB id is an S packet with that URB length. -/
def FollowsSubmit (before : List Block) (b : Block) : Prop :=
  ∀ p e, b = .packet p (some e) → e.metadata.eventType ≠ submitType → e.requestedKnown = true →
    ∃ q, latestPacket before (p.interface, e.metadata.urbId) = some q ∧ q.isSubmit = true ∧
      q.urbLen = some e.metadata.requestedLen

/-- No truncated packet is skipped whose interface and URB id have an S as their
latest full packet. -/
def NoneSkipped (before : List Block) (b : Block) : Prop :=
  ∀ p event key q, b = .packet p event → p.truncated → p.key = some key →
    latestWhole before key = some q → q.isSubmit = false

theorem sectionOf_concat (blocks : List Block) (b : Block) :
    sectionOf (blocks ++ [b]) = if b = .sectionHeader then [] else sectionOf blocks ++ [b] := by
  simp [sectionOf]

theorem packetsOf_header (blocks : List Block) :
    packetsOf (blocks ++ [.sectionHeader]) = [] := by
  rw [packetsOf, sectionOf_concat, if_pos rfl]
  rfl

theorem packetsOf_other {b : Block} (blocks : List Block) (hb : b ≠ .sectionHeader) :
    packetsOf (blocks ++ [b]) = packetsOf blocks ++ b.packets := by
  rw [packetsOf, sectionOf_concat, if_neg hb, List.flatMap_append, List.flatMap_singleton]
  rfl

theorem packetsOf_skip {b : Block} (blocks : List Block) (hb : b ≠ .sectionHeader)
    (hnone : b.packets = []) : packetsOf (blocks ++ [b]) = packetsOf blocks := by
  rw [packetsOf_other blocks hb, hnone, List.append_nil]

theorem packetsOf_packet (blocks : List Block) (p : Packet) (event : Option Event) :
    packetsOf (blocks ++ [.packet p event]) = packetsOf blocks ++ [p] :=
  packetsOf_other blocks (by simp)

theorem latestPacket_packet (blocks : List Block) (p : Packet) (event : Option Event)
    (key : Nat × UInt64) : latestPacket (blocks ++ [.packet p event]) key =
      if p.key = some key then some p else latestPacket blocks key := by
  rw [latestPacket, packetsOf_packet, Trace.latest_concat]
  rfl

theorem latestWhole_truncated {p : Packet} (hcut : p.truncated) (blocks : List Block)
    (event : Option Event) (key : Nat × UInt64) :
    latestWhole (blocks ++ [.packet p event]) key = latestWhole blocks key := by
  rw [latestWhole, packetsOf_packet, List.filter_append]
  simp [hcut, latestWhole]

theorem latestWhole_whole {p : Packet} (hwhole : ¬ p.truncated) (blocks : List Block)
    (event : Option Event) (key : Nat × UInt64) :
    latestWhole (blocks ++ [.packet p event]) key =
      if p.key = some key then some p else latestWhole blocks key := by
  have hfilter : [p].filter (fun p => ¬ p.truncated) = [p] := by simp [hwhole]
  rw [latestWhole, packetsOf_packet, List.filter_append, hfilter, Trace.latest_concat]
  rfl

/-! ## The table -/

/-- What is on record for a packet that was captured in full. -/
def Packet.request (p : Packet) : Option UInt32 := if p.isSubmit then p.urbLen else none

section
variable {r r' : Reader} {p : Packet} {e : Event}

theorem Parsed.length (h : Parsed r p e) : 64 ≤ p.captured.length := by
  have hwhole := h.whole
  unfold Packet.truncated at hwhole
  omega

theorem Parsed.key (h : Parsed r p e) : p.key = some (p.interface, e.metadata.urbId) := by
  have hlen := h.length
  rw [Packet.key, Packet.urbId, if_pos (by omega), Option.map_some, h.urbId, h.endian]

theorem Parsed.isSubmit (h : Parsed r p e) :
    p.isSubmit = true ↔ e.metadata.eventType = submitType := by
  have hlen := h.length
  have hget : p.captured[8]? = some (byte 8 p.captured) := by
    rw [byte, List.getD_eq_getElem?_getD, List.getElem?_eq_getElem (by omega), Option.getD_some]
  rw [Packet.isSubmit, decide_eq_true_iff, hget, Option.some.injEq, h.eventType]

/-- A full packet leaves its request on record. -/
theorem Parsed.request_eq (h : Parsed r p e) :
    p.request = if e.metadata.eventType = submitType then some e.metadata.requestedLen else none := by
  have hlen := h.length
  unfold Packet.request
  by_cases hs : e.metadata.eventType = submitType
  · have hwire := h.wireLen
    rw [Pcapng.wireLen, if_pos hs] at hwire
    rw [if_pos (h.isSubmit.mpr hs), if_pos hs, Packet.urbLen, if_pos (by omega), h.endian, hwire]
  · rw [if_neg fun hsub => hs (h.isSubmit.mp hsub), if_neg hs]

end

/-- The reader's table holds the requests of the current section. -/
structure OnRecord (blocks : List Block) (r : Reader) : Prop where
  sources : ∀ (i : Nat) (a : Interface), r.interfaces[i]? = some a →
    a.sourceId.toNat < r.nextSourceId.toNat
  distinct : ∀ (i j : Nat) (a b : Interface), r.interfaces[i]? = some a →
    r.interfaces[j]? = some b → a.sourceId = b.sourceId → i = j
  keys : ∀ key ∈ r.requested, key.1.toNat < r.nextSourceId.toNat
  declared : ∀ p ∈ packetsOf blocks, p.interface < r.interfaces.length
  table : ∀ (i : Nat) (a : Interface) (id : UInt64), r.interfaces[i]? = some a →
    r.requested.lookup (a.sourceId, id) = (latestWhole blocks (i, id)).bind Packet.request

theorem onRecord_new : OnRecord [] Reader.new := by
  refine ⟨?_, ?_, ?_, ?_, ?_⟩
  · intro i a ha
    simp [Reader.new] at ha
  · intro i j a b ha
    simp [Reader.new] at ha
  · intro key hkey
    exact absurd hkey (AList.notMem_empty key)
  · intro p hp
    simp [packetsOf, sectionOf] at hp
  · intro i a id ha
    simp [Reader.new] at ha

/-- A packet that was captured in full. -/
theorem OnRecord.parsed {blocks : List Block} {r r' : Reader} {p : Packet} {e : Event}
    {event : Option Event} (h : OnRecord blocks r) (hp : Parsed r p e)
    (hinterfaces : r'.interfaces = r.interfaces) (hnext : r'.nextSourceId = r.nextSourceId)
    (hrequested : r'.requested = tableAfter r.requested e.sourceId e) :
    OnRecord (blocks ++ [.packet p event]) r' := by
  obtain ⟨i₀, hi₀, hsource⟩ := hp.interface
  refine ⟨?_, ?_, ?_, ?_, ?_⟩
  · rw [hinterfaces, hnext]
    exact h.sources
  · rw [hinterfaces]
    exact h.distinct
  · rw [hrequested, hnext]
    intro key hkey
    unfold tableAfter at hkey
    split at hkey
    · rcases (AList.mem_insert _).mp hkey with rfl | hkey
      · rw [← hsource]
        exact h.sources _ _ hi₀
      · exact h.keys key hkey
    · exact h.keys key (AList.mem_erase.mp hkey).2
  · rw [packetsOf_packet, hinterfaces]
    intro q hq
    rcases List.mem_append.mp hq with hq | hq
    · exact h.declared q hq
    · rw [List.mem_singleton.mp hq]
      exact (List.getElem?_eq_some_iff.mp hi₀).1
  · rw [hinterfaces, hrequested]
    intro i a id ha
    rw [latestWhole_whole hp.whole, hp.key, tableAfter]
    by_cases hkey : (p.interface, e.metadata.urbId) = (i, id)
    · obtain ⟨rfl, rfl⟩ := Prod.mk.inj hkey
      rw [hi₀] at ha
      cases ha
      rw [if_pos rfl, Option.bind_some, hp.request_eq, hsource]
      by_cases hs : e.metadata.eventType = submitType
      · rw [if_pos hs, if_pos hs, AList.lookup_insert]
      · rw [if_neg hs, if_neg hs, AList.lookup_erase]
    · have hne : (a.sourceId, id) ≠ (e.sourceId, e.metadata.urbId) := by
        intro heq
        obtain ⟨h1, h2⟩ := Prod.mk.inj heq
        rw [← hsource] at h1
        rw [h.distinct i p.interface a i₀ ha hi₀ h1, h2] at hkey
        exact hkey rfl
      rw [if_neg fun heq => hkey (Option.some.inj heq), ← h.table i a id ha]
      by_cases hs : e.metadata.eventType = submitType
      · rw [if_pos hs, AList.lookup_insert_ne hne]
      · rw [if_neg hs, AList.lookup_erase_ne hne]

/-- A new interface has a source of its own, for which nothing is on record. -/
theorem OnRecord.interface {blocks : List Block} {r : Reader} {a₀ : Interface}
    (h : OnRecord blocks r) (hsource : a₀.sourceId = r.nextSourceId)
    (hnext : r.nextSourceId.toNat + 1 < 2 ^ 64) :
    OnRecord (blocks ++ [.interface])
      { r with nextSourceId := r.nextSourceId + 1, interfaces := r.interfaces ++ [a₀] } := by
  have hadd : (r.nextSourceId + 1).toNat = r.nextSourceId.toNat + 1 := by
    rw [UInt64.toNat_add]
    exact Nat.mod_eq_of_lt hnext
  have hpackets : packetsOf (blocks ++ [.interface]) = packetsOf blocks :=
    packetsOf_skip blocks (by simp) rfl
  -- an interface is an old one, or the new one at the end
  have hsplit : ∀ (i : Nat) (a : Interface), (r.interfaces ++ [a₀])[i]? = some a →
      r.interfaces[i]? = some a ∨ (i = r.interfaces.length ∧ a = a₀) := by
    intro i a ha
    rcases Nat.lt_trichotomy i r.interfaces.length with hlt | heq | hgt
    · rw [List.getElem?_append_left hlt] at ha
      exact .inl ha
    · subst heq
      rw [List.getElem?_concat_length] at ha
      exact .inr ⟨rfl, (Option.some.inj ha).symm⟩
    · rw [List.getElem?_eq_none (by simp; omega)] at ha
      cases ha
  refine ⟨?_, ?_, ?_, ?_, ?_⟩
  · intro i a ha
    dsimp only at ha ⊢
    rw [hadd]
    rcases hsplit i a ha with hold | ⟨_, rfl⟩
    · exact Nat.lt_succ_of_lt (h.sources i a hold)
    · rw [hsource]
      exact Nat.lt_succ_self _
  · intro i j a b ha hb heq
    rcases hsplit i a ha with hi | ⟨rfl, rfl⟩ <;> rcases hsplit j b hb with hj | ⟨rfl, rfl⟩
    · exact h.distinct i j a b hi hj heq
    · have := h.sources i a hi
      rw [heq, hsource] at this
      exact absurd this (lt_irrefl _)
    · have := h.sources j b hj
      rw [← heq, hsource] at this
      exact absurd this (lt_irrefl _)
    · rfl
  · intro key hkey
    dsimp only
    rw [hadd]
    exact Nat.lt_succ_of_lt (h.keys key hkey)
  · rw [hpackets]
    intro p hp
    have := h.declared p hp
    dsimp only
    rw [List.length_append]
    omega
  · intro i a id ha
    rw [latestWhole, hpackets, ← latestWhole]
    rcases hsplit i a ha with hold | ⟨rfl, rfl⟩
    · exact h.table i a id hold
    · -- nothing is on record for a new source
      have hlookup : r.requested.lookup (a.sourceId, id) = none := by
        rw [AList.lookup_eq_none]
        intro hkey
        have := h.keys _ hkey
        rw [hsource] at this
        exact lt_irrefl _ this
      dsimp only
      rw [hlookup]
      cases hlatest : latestWhole blocks (r.interfaces.length, id) with
      | none => rfl
      | some q =>
        obtain ⟨hmem, hkey⟩ := Trace.latest_eq_some hlatest
        have hlt := h.declared q (List.mem_filter.mp hmem).1
        rw [Packet.key, Option.map_eq_some_iff] at hkey
        obtain ⟨_, _, heq⟩ := hkey
        have hi := congrArg Prod.fst heq
        dsimp only at hi
        omega

/-- Every block keeps the table right. -/
theorem OnRecord.step {blocks : List Block} {r r' : Reader} {b : Block} (h : OnRecord blocks r)
    (hmove : Moves r b r') : OnRecord (blocks ++ [b]) r' := by
  cases hmove with
  | sectionHeader endian =>
    refine ⟨?_, ?_, ?_, ?_, ?_⟩
    · intro i a ha
      simp at ha
    · intro i j a b ha
      simp at ha
    · intro key hkey
      exact absurd hkey (AList.notMem_empty key)
    · rw [packetsOf_header]
      simp
    · intro i a id ha
      simp at ha
  | interface a₀ hsource hnext => exact h.interface hsource hnext
  | unknown =>
    have hpackets : packetsOf (blocks ++ [.unknown]) = packetsOf blocks :=
      packetsOf_skip blocks (by simp) rfl
    refine ⟨h.sources, h.distinct, h.keys, hpackets ▸ h.declared, ?_⟩
    intro i a id ha
    rw [latestWhole, hpackets, ← latestWhole]
    exact h.table i a id ha
  | truncated p hcut hi =>
    refine ⟨h.sources, h.distinct, h.keys, ?_, ?_⟩
    · rw [packetsOf_packet]
      intro q hq
      rcases List.mem_append.mp hq with hq | hq
      · exact h.declared q hq
      · rw [List.mem_singleton.mp hq]
        exact hi
    · intro i a id ha
      rw [latestWhole_truncated hcut]
      exact h.table i a id ha
  | lost p e hp => exact h.parsed hp rfl rfl rfl
  | delivered p e hp _ => exact h.parsed hp rfl rfl rfl

/-! ## Whole files -/

/-- As long as nothing was skipped, an S on record is the latest packet of its
key, and completions follow their submissions. -/
structure Followed (blocks : List Block) : Prop where
  latest : ∀ key q, latestWhole blocks key = some q → q.isSubmit = true →
    latestPacket blocks key = some q
  follows : Trace.Each FollowsSubmit blocks

theorem Followed.step {blocks : List Block} {r r' : Reader} {b : Block} (h : Followed blocks)
    (hrecord : OnRecord blocks r) (hskip : NoneSkipped blocks b) (hmove : Moves r b r') :
    Followed (blocks ++ [b]) := by
  have hparsed : ∀ {p e event}, Parsed r p e → ∀ key q,
      latestWhole (blocks ++ [.packet p event]) key = some q → q.isSubmit = true →
      latestPacket (blocks ++ [.packet p event]) key = some q := by
    intro p e event hp key q hq hs
    rw [latestWhole_whole hp.whole] at hq
    rw [latestPacket_packet]
    split
    · rename_i hk
      rwa [if_pos hk] at hq
    · rename_i hk
      rw [if_neg hk] at hq
      exact h.latest key q hq hs
  have hother : ∀ b : Block, b ≠ .sectionHeader → b.packets = [] →
      ∀ key q, latestWhole (blocks ++ [b]) key = some q → q.isSubmit = true →
      latestPacket (blocks ++ [b]) key = some q := by
    intro b hb hnone key q hq hs
    rw [latestWhole, packetsOf_skip blocks hb hnone] at hq
    rw [latestPacket, packetsOf_skip blocks hb hnone]
    exact h.latest key q hq hs
  cases hmove with
  | sectionHeader endian =>
    refine ⟨fun key q hq => ?_, h.follows.concat fun p e hb => by cases hb⟩
    rw [latestWhole, packetsOf_header] at hq
    cases hq
  | interface i _ _ =>
    exact ⟨hother _ (by simp) rfl, h.follows.concat fun p e hb => by cases hb⟩
  | unknown => exact ⟨hother _ (by simp) rfl, h.follows.concat fun p e hb => by cases hb⟩
  | truncated p hcut _ =>
    refine ⟨fun key q hq hs => ?_, h.follows.concat fun p e hb => by cases hb⟩
    rw [latestWhole_truncated hcut] at hq
    have hne : p.key ≠ some key := by
      intro hk
      rw [hskip p none key q rfl hcut hk hq] at hs
      cases hs
    rw [latestPacket_packet, if_neg hne]
    exact h.latest key q hq hs
  | lost p e hp => exact ⟨hparsed hp, h.follows.concat fun p e hb => by cases hb⟩
  | delivered p e hp _ =>
    refine ⟨hparsed hp, h.follows.concat fun p' e' hb hs hknown => ?_⟩
    cases hb
    obtain ⟨i, hi, hsource⟩ := hp.interface
    have hrequest := hp.request
    rw [requestOf, if_neg hs, hknown, if_pos rfl, ← hsource,
      hrecord.table p.interface i e.metadata.urbId hi, Option.bind_eq_some_iff] at hrequest
    obtain ⟨q, hq, hlen⟩ := hrequest
    unfold Packet.request at hlen
    split at hlen
    · rename_i hsub
      exact ⟨q, h.latest _ q hq hsub, hsub, hlen⟩
    · cases hlen

/-- **Requests are not stale where no packet is skipped.** In a run over any
input in which no truncated packet is passed over while its interface and URB id
have a submission on record, every completion with a known request follows that
submission. -/
theorem requests_follow_submits {count : Nat} {input rest : Bytes} {blocks : List Block}
    {r : Reader} (h : readBlocks count Reader.new input = .ok (blocks, r, rest))
    (hskip : Trace.Each NoneSkipped blocks) : Trace.Each FollowsSubmit blocks := by
  have hall : OnRecord ([] ++ blocks) r ∧
      (Trace.Each NoneSkipped ([] ++ blocks) → Followed ([] ++ blocks)) := by
    refine readBlocks_rule (P := fun blocks r => OnRecord blocks r ∧
      (Trace.Each NoneSkipped blocks → Followed blocks)) ?_ ⟨onRecord_new, fun _ => ?_⟩ h
    · rintro before r₀ b r₁ ⟨hrecord, hfollowed⟩ hmove
      refine ⟨hrecord.step hmove, fun hnone => ?_⟩
      obtain ⟨hbefore, hb⟩ := hnone.of_concat
      exact (hfollowed hbefore).step hrecord hb hmove
    · refine ⟨fun key q hq => ?_, Trace.Each.nil⟩
      cases hq
  exact (hall.2 hskip).follows

/-- The blocks of a file that is read to its end. -/
def blocksOf (count : Nat) (input : Bytes) : Option (List Block) :=
  match readBlocks count Reader.new input with
  | .ok (blocks, _, []) => some blocks
  | _ => none

theorem readBlocks_of_blocksOf {count : Nat} {input : Bytes} {blocks : List Block}
    (h : blocksOf count input = some blocks) :
    ∃ r, readBlocks count Reader.new input = .ok (blocks, r, []) := by
  unfold blocksOf at h
  split at h
  · rename_i r hread
    cases h
    exact ⟨r, hread⟩
  · cases h

/-- Submission and completion of an interrupt OUT URB. -/
def interruptSubmit (len : UInt32) : EventMeta :=
  { EventMeta.zero with
    urbId := 7
    eventType := submitType
    transferType := 1
    endpoint := 1
    requestedLen := len }

def interruptComplete : EventMeta :=
  { EventMeta.zero with urbId := 7, eventType := completeType, transferType := 1, endpoint := 1 }

/-- A packet block with a header only, `original` bytes long on the wire. -/
def headerBlock (original : UInt32) (header : Bytes) : Bytes :=
  block 6 (le32 0 ++ (le32 0 ++ (le32 0 ++ (le32 64 ++ (le32 original ++ header)))))

def interruptFile : Bytes :=
  sectionBlock ++ (interfaceBlock ++ (headerBlock 64 (usbHeader (interruptSubmit 0) 0) ++
    headerBlock 64 (usbHeader interruptComplete 0)))

def interruptBlock (m : EventMeta) : Block :=
  .packet ⟨.little, 0, usbHeader m 0, 64⟩
    (some ⟨0, m, [], [], false, true⟩)

theorem requests_follow_submits_interrupt : ∃ r, readBlocks 4 Reader.new interruptFile =
      .ok ([.sectionHeader, .interface, interruptBlock (interruptSubmit 0),
        interruptBlock interruptComplete], r, []) ∧
    Trace.Each FollowsSubmit [.sectionHeader, .interface, interruptBlock (interruptSubmit 0),
      interruptBlock interruptComplete] := by
  obtain ⟨r, hread⟩ := readBlocks_of_blocksOf (show blocksOf 4 interruptFile =
    some [.sectionHeader, .interface, interruptBlock (interruptSubmit 0),
      interruptBlock interruptComplete] by decide +kernel)
  refine ⟨r, hread, requests_follow_submits hread fun i b hb p event key q hp hcut => ?_⟩
  have hwhole : ∀ b ∈ [Block.sectionHeader, .interface, interruptBlock (interruptSubmit 0),
      interruptBlock interruptComplete], ∀ p ∈ b.packets, ¬ p.truncated := by decide +kernel
  subst hp
  exact absurd hcut (hwhole _ (List.mem_of_getElem? hb) p List.mem_cons_self)

/-! ## A stale request -/

/-- The second submission of the URB was cut. -/
def staleFile : Bytes :=
  sectionBlock ++ (interfaceBlock ++ (headerBlock 64 (usbHeader (interruptSubmit 0) 0) ++
    (headerBlock 80 (usbHeader (interruptSubmit 16) 16) ++
      headerBlock 64 (usbHeader interruptComplete 0))))

def staleBlocks : List Block :=
  [.sectionHeader, .interface, interruptBlock (interruptSubmit 0),
    .packet ⟨.little, 0, usbHeader (interruptSubmit 16) 16, 80⟩ none,
    interruptBlock interruptComplete]

/-- The completion is paired with the first submission, although the second one
is the latest. -/
theorem stale_request : blocksOf 5 staleFile = some staleBlocks ∧
    ¬ Trace.Each FollowsSubmit staleBlocks := by
  refine ⟨by decide +kernel, fun h => ?_⟩
  obtain ⟨q, hq, _, hlen⟩ := h 4 _ rfl _ _ rfl (by decide) rfl
  have hlatest : latestPacket (staleBlocks.take 4) (0, 7) =
      some ⟨.little, 0, usbHeader (interruptSubmit 16) 16, 80⟩ := by decide +kernel
  cases hlatest.symm.trans hq
  exact absurd hlen (by decide +kernel)

end UsbScope.Pcapng
