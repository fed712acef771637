import UsbScope.Capture.Completeness

/-! # Reading back published records

The fields of a header, a metadata record, a descriptor and an `END` body as
`push` reads them are the ones that were encoded. The other way round, the
table of offsets leaves no byte out: encoding what was read gives the same
bytes (`wire_bijection`), on hosts of either byte order. -/
namespace UsbScope.Capture
open UsbScope.Lib UsbScope.Common

/-- Every field of the metadata is read back from its wire bytes. -/
theorem metaFields_wire (m : EventMeta) : metaFields m.wire = m := by
  have hsetup : (Vector.ofFn fun i : Fin 8 => byte (64 + i) m.wire) = m.setup := by
    ext i hi
    have hlen : m.wire.drop 64 = m.setup.toList := by
      simp [EventMeta.wire, EventMeta.layout, List.drop_append, List.drop_eq_nil_of_le]
    have hat : m.wire[64 + i]? = some m.setup[i] := by
      rw [← List.getElem?_drop, hlen, List.getElem?_eq_getElem (by simpa using hi)]
      simp
    simp only [Vector.getElem_ofFn, byte, List.getD_eq_getElem?_getD, hat, Option.getD_some]
  unfold metaFields
  rw [hsetup]
  cases m
  simp [EventMeta.wire, EventMeta.layout, u16At, u32At, u64At, u16_skip, u32_skip, u64_skip,
    byte_skip, u16_cons, u32_cons, byte_cons]

/-- The checks of `decode_meta`. -/
structure ValidMeta (m : EventMeta) : Prop where
  eventType : m.eventType = submitType ∨ m.eventType = completeType ∨ m.eventType = errorType
  ranges : m.transferType.toNat ≤ 3 ∧ m.device.toNat ≤ 127
  flags : m.hasData.toNat ≤ 1 ∧ m.setupPresent.toNat ≤ 1
  data : m.hasData ≠ 0 ∨ m.payloadLen = 0
  iso : m.transferType = 0 ∨ m.isoCount = 0
  span : m.payloadLen.toNat ≤ m.requestedLen.toNat

theorem decodeMeta_wire {m : EventMeta} (h : ValidMeta m) : decodeMeta m.wire = .ok m := by
  unfold decodeMeta
  simp only [ensure_bind_eq_ok, Result.pure_eq_ok, metaFields_wire]
  exact ⟨by simp, h.eventType, h.ranges, h.flags, h.data, h.iso, h.span, trivial⟩

/-- A descriptor is read back; its padding word is not. -/
theorem isoDescriptor_wire {d : IsoDescriptor} (h : d.padding = 0) : isoDescriptor d.wire = d := by
  cases d
  simp_all [isoDescriptor, IsoDescriptor.wire, IsoDescriptor.layout, u32At, u32_skip]

theorem end_fields (e : EventEnd) :
    u64At e.wire 0 = e.copiedBytes ∧ u32At e.wire 8 = e.descriptors ∧
      u32At e.wire 12 = e.reason := by
  simp [EventEnd.wire, EventEnd.layout, u32At, u64At, u32_skip]

/-! ## Encoding what was read -/

/-- The header fields, at the offsets where `push` reads them. -/
def headerFields (b : Bytes) : RecordHeader :=
  { version := u16At b 0, kind := u16At b 2, size := u32At b 4, eventId := u64At b 8,
    offset := u64At b 16 }

/-- The fields of an `END` body, at the offsets where `push` reads them. -/
def endFields (b : Bytes) : EventEnd :=
  { copiedBytes := u64At b 0, descriptors := u32At b 8, reason := u32At b 12 }

theorem headerFields_wire (h : RecordHeader) (rest : Bytes) :
    headerFields (h.wire ++ rest) = h := by
  obtain ⟨h0, h2, h4, h8, h16⟩ := header_fields h rest
  unfold headerFields
  rw [h0, h2, h4, h8, h16]

theorem endFields_wire (e : EventEnd) : endFields e.wire = e := by
  obtain ⟨h0, h8, h12⟩ := end_fields e
  unfold endFields
  rw [h0, h8, h12]

section
variable {b : Bytes}

theorem wire_headerFields (h : 24 ≤ b.length) : (headerFields b).wire ++ b.drop 24 = b := by
  have h16 := @bytes_u64_drop .little 16 b (by omega)
  have h8 := @bytes_u64_drop .little 8 b (by omega)
  have h4 := @bytes_u32_drop .little 4 b (by omega)
  have h2 := @bytes_u16_drop .little 2 b (by omega)
  have h0 := @bytes_u16_drop .little 0 b (by omega)
  simp only [RecordHeader.wire, RecordHeader.layout, headerFields, u16At, u32At, u64At,
    List.append_assoc]
  rw [h16, h8, h4, h2, h0, List.drop_zero]

theorem wire_endFields (h : b.length = 16) : (endFields b).wire = b := by
  have h12 := @bytes_u32_drop .little 12 b (by omega)
  have h8 := @bytes_u32_drop .little 8 b (by omega)
  have h0 := @bytes_u64_drop .little 0 b (by omega)
  rw [List.drop_eq_nil_of_le h.le, List.append_nil] at h12
  simp only [EventEnd.wire, EventEnd.layout, endFields, u32At, u64At]
  rw [h12, h8, h0, List.drop_zero]

/-- The padding word is the one that `push` does not read. -/
theorem wire_isoDescriptor (h : b.length = 16) (hpad : u32At b 12 = 0) :
    (isoDescriptor b).wire = b := by
  have h12 := @bytes_u32_drop .little 12 b (by omega)
  have h8 := @bytes_u32_drop .little 8 b (by omega)
  have h4 := @bytes_u32_drop .little 4 b (by omega)
  have h0 := @bytes_u32_drop .little 0 b (by omega)
  rw [List.drop_eq_nil_of_le h.le, List.append_nil, show u32 .little 12 b = 0 from hpad] at h12
  simp only [IsoDescriptor.wire, IsoDescriptor.layout, isoDescriptor, u32At,
    UInt32.toUInt32_toInt32]
  rw [h12, h8, h4, h0, List.drop_zero]

theorem setup_drop (h : b.length = 72) : (metaFields b).setup.toList = b.drop 64 := by
  refine List.ext_getElem (by simp [h]) fun i hi _ => ?_
  have hi' : i < 8 := by simpa using hi
  simp [metaFields, byte, List.getD_eq_getElem?_getD, show 64 + i < b.length by omega]

/-- The six bytes between the bus number and the status. -/
theorem flags_drop (h : b.length = 72) :
    [byte 18 b, byte 19 b, byte 20 b, byte 21 b, byte 22 b, byte 23 b] ++ b.drop 24 =
      b.drop 18 := by
  have h23 := @byte_drop 23 b (by omega)
  have h22 := @byte_drop 22 b (by omega)
  have h21 := @byte_drop 21 b (by omega)
  have h20 := @byte_drop 20 b (by omega)
  have h19 := @byte_drop 19 b (by omega)
  have h18 := @byte_drop 18 b (by omega)
  simp only [List.cons_append, List.nil_append]
  rw [h23, h22, h21, h20, h19, h18]

/-- Every byte of the metadata belongs to one of the fields. -/
theorem wire_metaFields (h : b.length = 72) : (metaFields b).wire = b := by
  have h62 := @bytes_u16_drop .little 62 b (by omega)
  have h60 := @bytes_u16_drop .little 60 b (by omega)
  have hword : ∀ pos, pos + 4 ≤ 72 →
      ByteOrder.little.bytes 4 (u32 .little pos b).toNat ++ b.drop (pos + 4) = b.drop pos :=
    fun pos hpos => bytes_u32_drop (by omega)
  have h16 := @bytes_u16_drop .little 16 b (by omega)
  have h8 := @bytes_u64_drop .little 8 b (by omega)
  have h0 := @bytes_u64_drop .little 0 b (by omega)
  unfold EventMeta.wire EventMeta.layout
  rw [setup_drop h]
  simp only [metaFields, u16At, u32At, u64At, UInt32.toUInt32_toInt32]
  rw [h62, h60, hword 56 (by omega), hword 52 (by omega), hword 48 (by omega),
    hword 44 (by omega), hword 40 (by omega), hword 36 (by omega), hword 32 (by omega),
    hword 28 (by omega), hword 24 (by omega), flags_drop h, h16, h8, h0, List.drop_zero]

end

theorem ValidMeta.of_decodeMeta {b : Bytes} {m : EventMeta} (h : decodeMeta b = .ok m) :
    ValidMeta m := by
  obtain ⟨_, _, htype, hranges, hflags, hdata, hiso, hspan⟩ := decodeMeta_eq_ok h
  exact ⟨htype, hranges, hflags, hdata, hiso, hspan⟩

/-- What `push` takes a record apart into is what it was published from, up to
the unused reservation bytes. -/
theorem record_of_parse {b : Bytes} {r : Record} (h : Record.parse b = .ok r) :
    b = record r.kind r.id r.offset r.body ++ b.drop (24 + r.body.length) := by
  unfold Record.parse at h
  simp only [ensure_bind_eq_ok, Result.pure_eq_ok] at h
  obtain ⟨hlen, hversion, ⟨⟨hmin, _⟩, hmax⟩, rfl⟩ := h
  have hbody : ((b.take (u32At b 4).toNat).drop 24).length = (u32At b 4).toNat - 24 := by
    rw [List.length_drop, List.length_take]
    omega
  have hsize : UInt32.ofNat (24 + ((b.take (u32At b 4).toNat).drop 24).length) = u32At b 4 := by
    rw [hbody, Nat.add_sub_cancel' hmin, UInt32.ofNat_toNat]
  have hrest : (b.take (u32At b 4).toNat).drop 24 ++ b.drop (u32At b 4).toNat = b.drop 24 := by
    rw [List.drop_take]
    conv_lhs => rw [show (u32At b 4).toNat = 24 + ((u32At b 4).toNat - 24) by omega]
    rw [← List.drop_drop]
    simp
  have hheader := wire_headerFields hlen
  unfold headerFields at hheader
  rw [hversion] at hheader
  unfold record
  simp only [hsize]
  rw [List.append_assoc, hbody, Nat.add_sub_cancel' hmin, hrest, hheader]

theorem length_of_parse {b : Bytes} {r : Record} (h : Record.parse b = .ok r) :
    r.body.length ≤ chunkSize := by
  unfold Record.parse at h
  simp only [ensure_bind_eq_ok, Result.pure_eq_ok] at h
  obtain ⟨_, _, ⟨⟨_, hmax⟩, _⟩, rfl⟩ := h
  unfold maxRecordSize at hmax
  rw [List.length_drop, List.length_take]
  omega

/-- On either host, laying out and reading are inverse to each other: for the
metadata that pass the checks, for descriptors without padding, for `END` bodies,
for headers and for whole records. -/
theorem wire_bijection (host : ByteOrder) :
    ((∀ m, ValidMeta m → ((m.encodeLe host).layout host).length = 72 ∧
        decodeMeta ((m.encodeLe host).layout host) = .ok m) ∧
      ∀ b m, decodeMeta b = .ok m → ValidMeta m ∧ (m.encodeLe host).layout host = b) ∧
    ((∀ d : IsoDescriptor, d.padding = 0 → isoDescriptor ((d.toLe host).layout host) = d) ∧
      ∀ b, b.length = 16 → u32At b 12 = 0 → ((isoDescriptor b).toLe host).layout host = b) ∧
    ((∀ e : EventEnd, endFields ((e.toLe host).layout host) = e) ∧
      ∀ b, b.length = 16 → ((endFields b).toLe host).layout host = b) ∧
    ((∀ (h : RecordHeader) rest, headerFields ((h.toLe host).layout host ++ rest) = h) ∧
      ∀ b, 24 ≤ b.length → ((headerFields b).toLe host).layout host ++ b.drop 24 = b) ∧
    (∀ r : Record, r.body.length ≤ chunkSize →
        ∀ rest, Record.parse (record r.kind r.id r.offset r.body ++ rest) = .ok r) ∧
      ∀ b r, Record.parse b = .ok r → r.body.length ≤ chunkSize ∧
        record r.kind r.id r.offset r.body ++ b.drop (24 + r.body.length) = b := by
  simp only [EventMeta.encodeLe_layout, IsoDescriptor.toLe_layout, EventEnd.toLe_layout,
    RecordHeader.toLe_layout]
  refine ⟨⟨fun m hm => ⟨m.length_wire, decodeMeta_wire hm⟩, fun b m h => ?_⟩,
    ⟨fun d hd => isoDescriptor_wire hd, fun b h hpad => wire_isoDescriptor h hpad⟩,
    ⟨endFields_wire, fun b h => wire_endFields h⟩,
    ⟨headerFields_wire, fun b h => wire_headerFields h⟩,
    fun r h rest => parse_record h rest,
    fun b r h => ⟨length_of_parse h, (record_of_parse h).symm⟩⟩
  obtain ⟨hlen, rfl, _⟩ := decodeMeta_eq_ok h
  exact ⟨.of_decodeMeta h, wire_metaFields hlen⟩

/-- Both directions for the metadata of a three-byte transfer, on a big-endian host. -/
theorem wire_bijection_bulkOut :
    decodeMeta ((Reassembler.bulkOut.encodeLe .big).layout .big) = .ok Reassembler.bulkOut ∧
      isoDescriptor ((IsoDescriptor.toLe .big ⟨-121, 4, 192, 0⟩).layout .big) =
        ⟨-121, 4, 192, 0⟩ := by
  obtain ⟨⟨hmeta, _⟩, ⟨hiso, _⟩, _⟩ := wire_bijection .big
  exact ⟨(hmeta _ ⟨by decide, by decide, by decide, by decide, by decide, by decide⟩).2,
    hiso _ rfl⟩

end UsbScope.Capture
