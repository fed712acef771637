import UsbScope.Pcapng.Framing
import UsbScope.Pcapng.RoundTrip

/-! # The layout of a written file

A written file splits into one section header, interface blocks and one packet
block for each event. Every packet refers to an interface that the file itself
declares before it, one for each source. -/
namespace UsbScope.Pcapng
open UsbScope.Lib UsbScope.Common UsbScope.Capture

/-- A block with the size that both of its length fields say. -/
structure Frame.Sound (f : Frame) : Prop where
  long : 12 ≤ f.bytes.length
  aligned : 4 ∣ f.bytes.length
  leading : (u32 f.endian 4 f.bytes).toNat = f.bytes.length
  trailing : (u32 f.endian (f.bytes.length - 4) f.bytes).toNat = f.bytes.length
  order : frameOrder f.endian f.bytes = f.endian

/-- The frames of a file with one section. -/
structure WellFormed (fs : List Frame) : Prop where
  sound : ∀ f ∈ fs, f.Sound
  header : ∃ first rest, fs = first :: rest ∧ first.kind = 0x0a0d0d0a ∧
    ∀ f ∈ rest, f.kind = 1 ∨ f.kind = 6
  /-- Packets come after the interface they refer to. -/
  declared : ∀ before f after, fs = before ++ f :: after → f.kind = 6 →
    f.packet.interface < (before.filter fun f => f.kind = 1).length

/-- A packet block with the whole event, on the interface of its source. -/
structure Carries (table : List UInt64) (f : Frame) (e : Event) : Prop where
  interface : f.packet.interface = table.idxOf e.sourceId
  captured : f.packet.captured =
    packetData e (UInt32.ofNat (e.iso.length * 16 + e.metadata.payloadLen.toNat))
  original : f.packet.original.toNat = f.packet.captured.length

/-- A file with these events and its own table of their sources. -/
structure Holds (fs : List Frame) (table : List UInt64) (events : List Event) : Prop where
  nodup : table.Nodup
  sources : ∀ source, source ∈ table ↔ ∃ e ∈ events, e.sourceId = source
  interfaces : (fs.filter fun f => f.kind = 1).length = max 1 table.length
  packets : List.Forall₂ (Carries table) (fs.filter fun f => f.kind = 6) events

/-! ## Cutting sound blocks -/

theorem frameOrder_append {o : ByteOrder} {b rest : Bytes} (h : 12 ≤ b.length) :
    frameOrder o (b ++ rest) = frameOrder o b := by
  unfold frameOrder
  rw [List.take_append_of_le_length (by omega), List.drop_append_of_le_length (by omega),
    List.take_append_of_le_length (by rw [List.length_drop]; omega)]

theorem frames_cons {f : Frame} (hf : f.Sound) (hlittle : f.endian = .little) (fuel : Nat)
    (rest : Bytes) :
    frames (fuel + 1) .little (f.bytes ++ rest) = f :: frames fuel .little rest := by
  obtain ⟨o, bytes⟩ := f
  subst hlittle
  have hlong := hf.long
  have hlen := hf.leading
  have horder := hf.order
  dsimp only at hlong hlen horder ⊢
  have hne : bytes ++ rest ≠ [] := List.append_ne_nil_of_left_ne_nil (by
    rintro rfl
    simp at hlong) _
  have hsize : (u32 .little 4 (bytes ++ rest)).toNat = bytes.length := by
    rw [← hlen, u32, u32, field_append_left (by omega)]
  rw [frames, if_neg hne]
  dsimp only
  rw [frameOrder_append hlong, horder, hsize, List.take_left, List.drop_left]

theorem frames_flatMap {fs : List Frame} (hfs : ∀ f ∈ fs, f.Sound ∧ f.endian = .little) {fuel : Nat}
    (hfuel : (fs.flatMap Frame.bytes).length ≤ fuel) :
    frames fuel .little (fs.flatMap Frame.bytes) = fs := by
  induction fs generalizing fuel with
  | nil => cases fuel <;> simp [frames]
  | cons f rest ih =>
    obtain ⟨hf, hlittle⟩ := hfs f List.mem_cons_self
    have hlong := hf.long
    rw [List.flatMap_cons, List.length_append] at hfuel
    obtain ⟨fuel, rfl⟩ : ∃ n, fuel = n + 1 := ⟨fuel - 1, by omega⟩
    rw [List.flatMap_cons, frames_cons hf hlittle,
      ih (fun g hg => hfs g (List.mem_cons_of_mem _ hg)) (by omega)]

/-! ## The blocks of the writer -/

theorem sound_sectionBlock : (Frame.mk .little sectionBlock).Sound :=
  ⟨by decide, by decide, by decide, by decide, by decide⟩

theorem sound_interfaceBlock : (Frame.mk .little interfaceBlock).Sound :=
  ⟨by decide, by decide, by decide, by decide, by decide⟩

theorem length_packetData {e : Event} {l : Lengths}
    (hl : lengths e.iso.length e.metadata.payloadLen = .ok l)
    (hlen : e.metadata.payloadLen.toNat ≤ e.payload.length) :
    (packetData e l.data).length = l.captured.toNat := by
  obtain ⟨hdata, hcaptured, _, _⟩ := lengths_eq_ok hl
  have hmap : (e.iso.map fun d => (descriptorBytes d).length).sum = e.iso.length * 16 := by simp
  simp only [packetData, List.length_append, length_usbHeader, List.length_flatMap, hmap,
    List.length_take, min_eq_left hlen]
  omega

theorem length_packetHeader (index : UInt32) (ts : Nat) (l : Lengths) :
    (packetHeader index ts l).length = 28 := by simp [packetHeader]

theorem kind_packetBlock (index : UInt32) (e : Event) (l : Lengths) :
    (Frame.mk .little (packetBlock index e l)).kind = 6 := by
  simp [Frame.kind, packetBlock, packetHeader]

section

variable {e : Event} {l : Lengths} (hl : lengths e.iso.length e.metadata.payloadLen = .ok l)
  (hlen : e.metadata.payloadLen.toNat ≤ e.payload.length) (index : UInt32)
include hl hlen

theorem length_packetBlock : (packetBlock index e l).length = l.total.toNat := by
  obtain ⟨_, _, _, htotal⟩ := lengths_eq_ok hl
  simp only [packetBlock, List.length_append, length_packetHeader, length_packetData hl hlen,
    List.length_replicate, length_le32]
  omega

theorem sound_packetBlock : (Frame.mk .little (packetBlock index e l)).Sound := by
  obtain ⟨_, _, _, htotal⟩ := lengths_eq_ok hl
  have hlength := length_packetBlock hl hlen index
  have hbefore : packetBlock index e l =
      (packetHeader index (e.metadata.timestampNs.toNat / 1000) l ++ (packetData e l.data ++
        List.replicate l.padding.toNat 0)) ++ le32 l.total := by
    simp only [packetBlock, List.append_assoc]
  have hfront : (packetHeader index (e.metadata.timestampNs.toNat / 1000) l ++ (packetData e l.data ++
      List.replicate l.padding.toNat 0)).length = l.total.toNat - 4 := by
    simp only [List.length_append, length_packetHeader, length_packetData hl hlen,
      List.length_replicate]
    omega
  refine ⟨?_, ?_, ?_, ?_, ?_⟩
  · rw [hlength]
    omega
  · rw [hlength]
    omega
  · rw [hlength]
    simp [packetBlock, packetHeader, u32_skip]
  · dsimp only
    rw [hlength, hbefore, u32_skip hfront.le, hfront, Nat.sub_self, u32_le32_end]
  · dsimp only
    rw [frameOrder, if_neg]
    rw [packetBlock, packetHeader, List.append_assoc, List.take_left' (by simp)]
    decide

theorem carries_packetBlock {table : List UInt64} (hindex : index.toNat = table.idxOf e.sourceId) :
    Carries table (Frame.mk .little (packetBlock index e l)) e := by
  obtain ⟨hdata, _, _, _⟩ := lengths_eq_ok hl
  have h8 : u32 .little 8 (packetBlock index e l) = index := by
    simp [packetBlock, packetHeader, u32_skip]
  have h20 : u32 .little 20 (packetBlock index e l) = l.captured := by
    simp [packetBlock, packetHeader, u32_skip]
  have h24 : u32 .little 24 (packetBlock index e l) = l.captured := by
    simp [packetBlock, packetHeader, u32_skip]
  have hcaptured : ((packetBlock index e l).drop 28).take l.captured.toNat = packetData e l.data := by
    rw [packetBlock, List.drop_left' (length_packetHeader _ _ _),
      List.take_left' (length_packetData hl hlen)]
  refine ⟨?_, ?_, ?_⟩
  · simp only [Frame.packet, h8, hindex]
  · simp only [Frame.packet, h20, hcaptured]
    rw [← hdata, UInt32.ofNat_toNat]
  · simp only [Frame.packet, h20, h24, hcaptured, length_packetData hl hlen]

end

/-! ## One event after another -/

theorem WellFormed.concat {fs : List Frame} {f : Frame} (h : WellFormed fs) (hf : f.Sound)
    (hkind : f.kind = 1 ∨ f.kind = 6)
    (hdeclared : f.kind = 6 → f.packet.interface < (fs.filter fun f => f.kind = 1).length) :
    WellFormed (fs ++ [f]) := by
  obtain ⟨first, rest, rfl, hfirst, hrest⟩ := h.header
  refine ⟨?_, ⟨first, rest ++ [f], rfl, hfirst, ?_⟩, ?_⟩
  · intro g hg
    rcases List.mem_append.mp hg with hg | hg
    · exact h.sound g hg
    · exact List.mem_singleton.mp hg ▸ hf
  · intro g hg
    rcases List.mem_append.mp hg with hg | hg
    · exact hrest g hg
    · exact List.mem_singleton.mp hg ▸ hkind
  · intro before g after hsplit hg
    -- the packet is the new block or one of the old ones
    rcases List.eq_nil_or_concat after with rfl | ⟨after, z, rfl⟩
    · obtain ⟨rfl, hfg⟩ := List.append_inj' hsplit rfl
      cases hfg
      exact hdeclared hg
    · have hsplit' : first :: rest ++ [f] = (before ++ g :: after) ++ [z] := by
        rw [hsplit]
        simp
      obtain ⟨hold, -⟩ := List.append_inj' hsplit' rfl
      exact h.declared before g after hold hg

/-- The frames of what the writer has sent. -/
structure Laid (w : Writer) (events : List Event) (fs : List Frame) : Prop where
  output : w.output = fs.flatMap Frame.bytes
  size : w.bytes = w.output.length
  few : w.interfaces.length ≤ 2 ^ 32
  little : ∀ f ∈ fs, f.endian = .little
  wellFormed : WellFormed fs
  holds : Holds fs w.interfaces events

theorem laid_new : Laid Writer.new [] [⟨.little, sectionBlock⟩, ⟨.little, interfaceBlock⟩] := by
  have hsection : WellFormed [⟨.little, sectionBlock⟩] := by
    refine ⟨?_, ⟨_, [], rfl, by decide, by simp⟩, ?_⟩
    · intro f hf
      exact List.mem_singleton.mp hf ▸ sound_sectionBlock
    · intro before f after hsplit hkind
      obtain rfl : f = ⟨.little, sectionBlock⟩ := by
        have hmem : f ∈ [Frame.mk .little sectionBlock] := hsplit ▸ by simp
        exact List.mem_singleton.mp hmem
      exact absurd hkind (by decide)
  refine ⟨rfl, by decide, by decide, by simp, ?_, ⟨List.nodup_nil, by simp [Writer.new], by decide, ?_⟩⟩
  · exact hsection.concat sound_interfaceBlock (.inl (by decide)) fun hkind => absurd hkind (by decide)
  · rw [show ([Frame.mk .little sectionBlock, ⟨.little, interfaceBlock⟩].filter fun f =>
      f.kind = 6) = [] by decide]
    exact .nil

/-- The constant that the writer adds for a declaration is its size. -/
theorem length_declaration {interfaces interfaces' : List UInt64} {source : UInt64} {index : UInt32}
    {declaration : Bytes} (hfew : interfaces.length ≤ 2 ^ 32)
    (h : interfaceFor interfaces source = .ok (index, declaration, interfaces')) :
    declaration.length = if declaration = [] then 0 else 20 := by
  obtain ⟨_, _, _, hcases⟩ := interfaceFor_eq_ok hfew h
  rcases hcases with ⟨-, rfl⟩ | ⟨-, -, rfl⟩
  · rfl
  · split
    · rfl
    · rfl

/-- One more source, declared unless it is the first. -/
theorem Laid.declare {w : Writer} {events : List Event} {fs : List Frame} (h : Laid w events fs)
    {source : UInt64} {index : UInt32} {declaration : Bytes} {interfaces : List UInt64}
    (hi : interfaceFor w.interfaces source = .ok (index, declaration, interfaces)) :
    ∃ fs', declaration = fs'.flatMap Frame.bytes ∧ (∀ f ∈ fs', f.endian = .little) ∧
      WellFormed (fs ++ fs') ∧
      ((fs ++ fs').filter fun f => f.kind = 1).length = max 1 interfaces.length ∧
      (fs'.filter fun f => f.kind = 6) = [] := by
  obtain ⟨_, _, _, hcases⟩ := interfaceFor_eq_ok h.few hi
  have hcount := h.holds.interfaces
  rcases hcases with ⟨rfl, rfl⟩ | ⟨hno, rfl, rfl⟩
  · exact ⟨[], rfl, by simp, by rw [List.append_nil]; exact h.wellFormed,
      by rw [List.append_nil, hcount], rfl⟩
  by_cases hnil : w.interfaces = []
  · rw [if_pos hnil]
    refine ⟨[], rfl, by simp, by rw [List.append_nil]; exact h.wellFormed, ?_, rfl⟩
    rw [List.append_nil, hcount, hnil]
    rfl
  · rw [if_neg hnil]
    have hpos : 1 ≤ w.interfaces.length := List.length_pos_iff.mpr hnil
    refine ⟨[⟨.little, interfaceBlock⟩], by simp, by simp, ?_, ?_, by decide⟩
    · exact h.wellFormed.concat sound_interfaceBlock (.inl (by decide))
        fun hkind => absurd hkind (by decide)
    · rw [List.filter_append, List.length_append, hcount,
        show ([Frame.mk .little interfaceBlock].filter fun f => f.kind = 1).length = 1 by decide,
        List.length_append, List.length_singleton]
      omega

theorem Carries.of_isPrefix {table table' : List UInt64} {f : Frame} {e : Event}
    (h : Carries table f e) (hmem : e.sourceId ∈ table) (hpre : table <+: table') :
    Carries table' f e := by
  obtain ⟨rest, rfl⟩ := hpre
  exact ⟨by rw [h.interface, List.idxOf_append_of_mem hmem], h.captured, h.original⟩

theorem Laid.write {w w' : Writer} {events : List Event} {fs : List Frame} (h : Laid w events fs)
    {e : Event} (hw : w.writeEvent e = .ok w') : ∃ fs', Laid w' (events ++ [e]) fs' := by
  obtain ⟨hpre, hmem⟩ := writeEvent_interfaces hw
  obtain ⟨index, declaration, interfaces, l, hi, hl, hlen, rfl⟩ := writeEvent_eq_ok.mp hw
  obtain ⟨declared, hbytes, hlittle, hwell, hcount, hnone⟩ := h.declare hi
  obtain ⟨_, hlt, hindex, hcases⟩ := interfaceFor_eq_ok h.few hi
  dsimp only at hpre hmem
  have hnumber : index.toNat = interfaces.idxOf e.sourceId := by
    rw [hindex, UInt32.toNat_ofNat_of_lt' hlt]
  have hcarries := carries_packetBlock hl hlen index hnumber
  refine ⟨fs ++ declared ++ [⟨.little, packetBlock index e l⟩], ?_, ?_, ?_, ?_, ?_, ?_⟩
  · simp only [h.output, hbytes, List.flatMap_append, List.flatMap_singleton, List.append_assoc]
  · simp only [h.size, List.length_append, length_packetBlock hl hlen, length_declaration h.few hi]
    omega
  · rcases hcases with ⟨rfl, _⟩ | ⟨hno, rfl, _⟩
    · exact h.few
    · rw [List.idxOf_append_of_notMem hno] at hlt
      simp at hlt ⊢
      omega
  · intro f hf
    rcases List.mem_append.mp hf with hf | hf
    · rcases List.mem_append.mp hf with hf | hf
      · exact h.little f hf
      · exact hlittle f hf
    · exact List.mem_singleton.mp hf ▸ rfl
  · refine hwell.concat (sound_packetBlock hl hlen index) (.inr (kind_packetBlock ..)) fun _ => ?_
    have hidx := List.idxOf_lt_length_of_mem hmem
    rw [hcarries.interface, hcount]
    omega
  · have hkind := kind_packetBlock index e l
    refine ⟨?_, ?_, ?_, ?_⟩
    · rcases hcases with ⟨rfl, _⟩ | ⟨hno, rfl, _⟩
      · exact h.holds.nodup
      · exact List.nodup_append.mpr ⟨h.holds.nodup, List.nodup_singleton _, fun a ha b hb hab =>
          hno (List.mem_singleton.mp hb ▸ hab ▸ ha)⟩
    · intro source
      have hold := h.holds.sources source
      rcases hcases with ⟨rfl, _⟩ | ⟨hno, rfl, _⟩
      · simp only [List.mem_append, List.mem_singleton, or_and_right, exists_or, ← hold,
          exists_eq_left]
        constructor
        · exact .inl
        · rintro (hs | rfl)
          · exact hs
          · exact hmem
      · simp only [List.mem_append, List.mem_singleton, or_and_right, exists_or, ← hold,
          exists_eq_left]
        exact or_congr_right eq_comm
    · rw [List.filter_append, List.filter_cons_of_neg (by rw [hkind]; decide), List.filter_nil,
        List.append_nil, hcount]
    · rw [List.filter_append, List.filter_append, hnone, List.append_nil,
        List.filter_cons_of_pos (by rw [hkind]; decide), List.filter_nil]
      refine List.rel_append ?_ (.cons hcarries .nil)
      have hold := h.holds.packets
      rw [List.forall₂_iff_zip] at hold ⊢
      refine ⟨hold.1, fun {f x} hfx => ?_⟩
      refine (hold.2 hfx).of_isPrefix ?_ hpre
      exact (h.holds.sources _).mpr ⟨x, (List.of_mem_zip hfx).2, rfl⟩

theorem Laid.writeAll {w w' : Writer} {events more : List Event} {fs : List Frame}
    (h : Laid w events fs) (hw : w.writeAll more = .ok w') : ∃ fs', Laid w' (events ++ more) fs' := by
  induction more generalizing w events fs with
  | nil =>
    obtain rfl := writeAll_nil.mp hw
    exact ⟨fs, by rw [List.append_nil]; exact h⟩
  | cons e rest ih =>
    obtain ⟨w₁, hw₁, hw₂⟩ := writeAll_cons.mp hw
    obtain ⟨fs₁, h₁⟩ := h.write hw₁
    obtain ⟨fs₂, h₂⟩ := ih h₁ hw₂
    exact ⟨fs₂, by simpa using h₂⟩

/-- A written file is cut into a section header, interfaces and its packets,
and the byte count of the writer is its length. -/
theorem writeAll_laid {w : Writer} {events : List Event} (hw : Writer.new.writeAll events = .ok w) :
    Laid w events (framesOf w.output) := by
  obtain ⟨fs, h⟩ := laid_new.writeAll hw
  have hcut : framesOf w.output = fs := by
    rw [framesOf, h.output]
    exact frames_flatMap (fun f hf => ⟨h.wellFormed.sound f hf, h.little f hf⟩) le_rfl
  rw [hcut]
  exact h

/-- Packets share an interface exactly when their events share a source. -/
theorem Holds.interface_iff {fs : List Frame} {table : List UInt64} {events : List Event}
    (h : Holds fs table events) {f g : Frame} {e x : Event}
    (hf : (f, e) ∈ (fs.filter fun f => f.kind = 6).zip events)
    (hg : (g, x) ∈ (fs.filter fun f => f.kind = 6).zip events) :
    f.packet.interface = g.packet.interface ↔ e.sourceId = x.sourceId := by
  obtain ⟨-, hcarries⟩ := List.forall₂_iff_zip.mp h.packets
  have hmem : e.sourceId ∈ table := (h.sources _).mpr ⟨e, (List.of_mem_zip hf).2, rfl⟩
  rw [(hcarries hf).interface, (hcarries hg).interface]
  exact List.idxOf_inj hmem

theorem dvd_length_flatMap {fs : List Frame} (h : ∀ f ∈ fs, f.Sound) :
    4 ∣ (fs.flatMap Frame.bytes).length := by
  rw [List.length_flatMap]
  refine List.dvd_sum fun n hn => ?_
  obtain ⟨f, hf, rfl⟩ := List.mem_map.mp hn
  exact (h f hf).aligned

/-- The output of a writer: its byte count is exact and whole words, and it
splits into one section header, interfaces, and a packet for each event that
refers to an interface before it, the same one for events of one source. -/
theorem written_well_formed {w : Writer} {events : List Event}
    (hw : Writer.new.writeAll events = .ok w) :
    w.bytes = w.output.length ∧ 4 ∣ w.bytes ∧
    ∃ fs, w.output = fs.flatMap Frame.bytes ∧ (∀ f ∈ fs, f.endian = .little) ∧ WellFormed fs ∧
      List.Forall₂ (Carries w.interfaces) (fs.filter fun f => f.kind = 6) events ∧
      ∀ f e g x, (f, e) ∈ (fs.filter fun f => f.kind = 6).zip events →
        (g, x) ∈ (fs.filter fun f => f.kind = 6).zip events →
        (f.packet.interface = g.packet.interface ↔ e.sourceId = x.sourceId) := by
  have hlaid := writeAll_laid hw
  refine ⟨hlaid.size, ?_, framesOf w.output, hlaid.output, hlaid.little, hlaid.wellFormed,
    hlaid.holds.packets, ?_⟩
  · rw [hlaid.size, hlaid.output]
    exact dvd_length_flatMap hlaid.wellFormed.sound
  · exact fun f e g x hf hg => hlaid.holds.interface_iff hf hg

/-- A submission without data. -/
def plainSubmission (source : UInt64) : Event :=
  ⟨source, { EventMeta.zero with eventType := submitType }, [], [], true, true⟩

/-- Three events of two sources: the second source has a declaration of its own. -/
theorem written_well_formed_two_sources : ∃ w,
    Writer.new.writeAll [plainSubmission 7, plainSubmission 3, plainSubmission 7] = .ok w ∧
    w.bytes = 48 + 96 + 20 + 96 + 96 ∧ w.bytes = w.output.length ∧ 4 ∣ w.bytes := by
  refine ⟨_, rfl, rfl, ?_⟩
  obtain ⟨hsize, haligned, -⟩ :=
    @written_well_formed _ [plainSubmission 7, plainSubmission 3, plainSubmission 7] rfl
  exact ⟨hsize, haligned⟩

end UsbScope.Pcapng
