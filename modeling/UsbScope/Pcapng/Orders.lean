import UsbScope.Pcapng.Steps

/-! # Either byte order

A section as an abstract thing, and its two encodings. What the reader makes of
a section does not depend on the byte order it was written in. -/
namespace UsbScope.Pcapng
open UsbScope.Lib UsbScope.Common UsbScope.Capture

/-! ## Sections -/

/-- A part that the reader passes over. -/
inductive Field where
  | bytes (b : Bytes)
  | word (width value : Nat)

def Field.encode (o : ByteOrder) : Field → Bytes
  | .bytes b => b
  | .word width value => o.bytes width value

def Field.length : Field → Nat
  | .bytes b => b.length
  | .word width _ => width

def encodeFields (o : ByteOrder) (fields : List Field) : Bytes := fields.flatMap (Field.encode o)

def fieldsLength (fields : List Field) : Nat := (fields.map Field.length).sum

@[simp] theorem length_encodeFields (o : ByteOrder) (fields : List Field) :
    (encodeFields o fields).length = fieldsLength fields := by
  have hfield : ∀ f : Field, (f.encode o).length = f.length := by
    intro f
    cases f <;> simp [Field.encode, Field.length]
  rw [encodeFields, List.length_flatMap, fieldsLength]
  exact congrArg List.sum (List.map_congr_left fun f _ => hfield f)

/-- An option of an interface. The reader looks into the first two. -/
inductive InterfaceOption where
  | resolution (value : UInt8)
  | offset (seconds : UInt64)
  | other (code : UInt16) (value : List Field) (hlen : fieldsLength value < 2 ^ 16)
      (hother : ¬ (code = 9 ∧ fieldsLength value = 1) ∧ ¬ (code = 14 ∧ fieldsLength value = 8))

namespace InterfaceOption

def code : InterfaceOption → UInt16
  | resolution _ => 9
  | offset _ => 14
  | other code _ _ _ => code

def value (o : ByteOrder) : InterfaceOption → Bytes
  | resolution value => [value]
  | offset seconds => o.bytes 8 seconds.toNat
  | other _ value _ _ => encodeFields o value

def length : InterfaceOption → Nat
  | resolution _ => 1
  | offset _ => 8
  | other _ value _ _ => fieldsLength value

def encode (o : ByteOrder) (x : InterfaceOption) : Bytes :=
  o.bytes 2 x.code.toNat ++ (o.bytes 2 x.length ++
    (x.value o ++ List.replicate (padded x.length - x.length) 0))

end InterfaceOption

/-- The fields of a USB pseudoheader that every transfer has. -/
structure UsbRecord where
  urbId : UInt64
  eventType : UInt8
  endpoint : UInt8
  device : UInt8
  bus : UInt16
  setupFlag : UInt8
  dataFlag : UInt8
  seconds : UInt64
  microseconds : UInt32
  status : UInt32
  urbLength : UInt32
  dataLength : UInt32
  interval : UInt32
  startFrame : UInt32
  transferFlags : UInt32

structure WireDescriptor where
  status : UInt32
  offset : UInt32
  length : UInt32
  padding : UInt32

def WireDescriptor.encode (o : ByteOrder) (d : WireDescriptor) : Bytes :=
  o.bytes 4 d.status.toNat ++ (o.bytes 4 d.offset.toNat ++
    (o.bytes 4 d.length.toNat ++ o.bytes 4 d.padding.toNat))

/-- The two kinds of setup area: the counts and descriptors of an ISO transfer,
or eight bytes. -/
inductive Transfer where
  | iso (errorCount count : UInt32) (descriptors : List WireDescriptor)
      (hcount : descriptors.length < 2 ^ 32)
  | other (transferType : UInt8) (hother : transferType ≠ 0) (setup : Vector UInt8 8)
      (isoCount : UInt32)

namespace Transfer

def transferType : Transfer → UInt8
  | iso _ _ _ _ => 0
  | other transferType _ _ _ => transferType

def area (o : ByteOrder) : Transfer → Bytes
  | iso errorCount count _ _ => o.bytes 4 errorCount.toNat ++ o.bytes 4 count.toNat
  | other _ _ setup _ => setup.toList

def isoCount : Transfer → UInt32
  | iso _ _ descriptors _ => UInt32.ofNat descriptors.length
  | other _ _ _ isoCount => isoCount

def descriptors : Transfer → List WireDescriptor
  | iso _ _ descriptors _ => descriptors
  | other _ _ _ _ => []

end Transfer

def UsbRecord.encode (o : ByteOrder) (u : UsbRecord) (t : Transfer) : Bytes :=
  o.bytes 8 u.urbId.toNat ++ ([u.eventType, t.transferType, u.endpoint, u.device] ++
    (o.bytes 2 u.bus.toNat ++ ([u.setupFlag, u.dataFlag] ++ (o.bytes 8 u.seconds.toNat ++
    (o.bytes 4 u.microseconds.toNat ++ (o.bytes 4 u.status.toNat ++
    (o.bytes 4 u.urbLength.toNat ++ (o.bytes 4 u.dataLength.toNat ++ (t.area o ++
    (o.bytes 4 u.interval.toNat ++ (o.bytes 4 u.startFrame.toNat ++
    (o.bytes 4 u.transferFlags.toNat ++ o.bytes 4 t.isoCount.toNat))))))))))))

/-- An Enhanced Packet Block. Only the first `stored` bytes of the packet may be
in it. -/
structure PacketRecord where
  interface : UInt32
  ticksHigh : UInt32
  ticksLow : UInt32
  stored : Nat
  original : UInt32
  usb : UsbRecord
  transfer : Transfer
  payload : Bytes
  options : List Field

namespace PacketRecord

def data (o : ByteOrder) (p : PacketRecord) : Bytes :=
  (p.usb.encode o p.transfer ++ (p.transfer.descriptors.flatMap (WireDescriptor.encode o) ++
    p.payload)).take p.stored

def captured (p : PacketRecord) : Nat :=
  min p.stored (64 + (16 * p.transfer.descriptors.length + p.payload.length))

def encode (o : ByteOrder) (p : PacketRecord) : Bytes :=
  o.bytes 4 p.interface.toNat ++ (o.bytes 4 p.ticksHigh.toNat ++ (o.bytes 4 p.ticksLow.toNat ++
    (o.bytes 4 p.captured ++ (o.bytes 4 p.original.toNat ++ (p.data o ++
    (List.replicate (padded p.captured - p.captured) 0 ++ encodeFields o p.options))))))

end PacketRecord

/-- A block of a section. -/
inductive Record where
  | sectionHeader (major minor : UInt16) (length : UInt64) (options : List Field)
  | interface (linktype reserved : UInt16) (snaplen : UInt32) (options : List InterfaceOption)
  | packet (p : PacketRecord)
  | unknown (kind : UInt32) (hkind : kind ≠ 0x0a0d0d0a ∧ kind ≠ 1 ∧ kind ≠ 6) (body : List Field)

namespace Record

def kind : Record → UInt32
  | sectionHeader _ _ _ _ => 0x0a0d0d0a
  | interface _ _ _ _ => 1
  | packet _ => 6
  | unknown kind _ _ => kind

def body (o : ByteOrder) : Record → Bytes
  | sectionHeader major minor length options =>
    o.bytes 4 0x1a2b3c4d ++ (o.bytes 2 major.toNat ++ (o.bytes 2 minor.toNat ++
      (o.bytes 8 length.toNat ++ encodeFields o options)))
  | interface linktype reserved snaplen options =>
    o.bytes 2 linktype.toNat ++ (o.bytes 2 reserved.toNat ++ (o.bytes 4 snaplen.toNat ++
      options.flatMap (InterfaceOption.encode o)))
  | packet p => p.encode o
  | unknown _ _ body => encodeFields o body

/-- The total length of the block. -/
def size (b : Record) : Nat := 12 + (b.body .little).length

def encode (o : ByteOrder) (b : Record) : Bytes :=
  o.bytes 4 b.kind.toNat ++ (o.bytes 4 b.size ++ (b.body o ++ o.bytes 4 b.size))

end Record

/-- A section: blocks whose lengths the format can tell. -/
structure SectionRecord where
  records : List Record
  fits : ∀ b ∈ records, b.size < 2 ^ 32

/-- All numbers of a section in one byte order. -/
def SectionRecord.encode (o : ByteOrder) (s : SectionRecord) : Bytes :=
  s.records.flatMap (Record.encode o)

/-! ## Lengths -/

@[simp] theorem length_area (o : ByteOrder) (t : Transfer) : (t.area o).length = 8 := by
  cases t <;> simp [Transfer.area]

@[simp] theorem length_usbRecord (o : ByteOrder) (u : UsbRecord) (t : Transfer) :
    (u.encode o t).length = 64 := by
  simp [UsbRecord.encode]

@[simp] theorem length_wireDescriptor (o : ByteOrder) (d : WireDescriptor) :
    (d.encode o).length = 16 := by
  simp [WireDescriptor.encode]

@[simp] theorem length_wireDescriptors (o : ByteOrder) (ds : List WireDescriptor) :
    (ds.flatMap (WireDescriptor.encode o)).length = 16 * ds.length := by
  induction ds with
  | nil => rfl
  | cons d ds ih =>
    rw [List.flatMap_cons, List.length_append, ih, length_wireDescriptor, List.length_cons]
    omega

@[simp] theorem length_data (o : ByteOrder) (p : PacketRecord) : (p.data o).length = p.captured := by
  simp only [PacketRecord.data, PacketRecord.captured, List.length_take, List.length_append,
    length_usbRecord, length_wireDescriptors]

@[simp] theorem length_optionValue (o : ByteOrder) (x : InterfaceOption) :
    (x.value o).length = x.length := by
  cases x <;> simp [InterfaceOption.value, InterfaceOption.length]

theorem le_padded (n : Nat) : n ≤ padded n := by
  unfold padded
  omega

@[simp] theorem length_option (o : ByteOrder) (x : InterfaceOption) :
    (x.encode o).length = 4 + padded x.length := by
  have hle := le_padded x.length
  simp only [InterfaceOption.encode, List.length_append, ByteOrder.length_bytes, length_optionValue,
    List.length_replicate]
  omega

def optionsLength (options : List InterfaceOption) : Nat :=
  (options.map fun x => 4 + padded x.length).sum

@[simp] theorem length_options (o : ByteOrder) (options : List InterfaceOption) :
    (options.flatMap (InterfaceOption.encode o)).length = optionsLength options := by
  rw [List.length_flatMap, optionsLength]
  exact congrArg List.sum (List.map_congr_left fun x _ => length_option o x)

/-- The size of a block is the same in both orders. -/
theorem size_eq (o : ByteOrder) (b : Record) : b.size = 12 + (b.body o).length := by
  cases b <;> simp [Record.size, Record.body, PacketRecord.encode]

/-! ## Fields -/

/-- The metadata of a pseudoheader. -/
def UsbRecord.metadata (u : UsbRecord) (t : Transfer) (timestamp : UInt64) : EventMeta :=
  { EventMeta.zero with
    urbId := u.urbId
    timestampNs := timestamp
    bus := u.bus
    device := u.device
    endpoint := u.endpoint
    transferType := t.transferType
    eventType := u.eventType
    setupPresent := if u.setupFlag = 0 then 1 else 0
    hasData := if u.dataFlag = 0 then 1 else 0
    status := u.status.toInt32
    interval := u.interval.toInt32
    startFrame := u.startFrame.toInt32
    transferFlags := u.transferFlags
    isoCount := t.isoCount }

theorem usbMeta_encode (o : ByteOrder) (u : UsbRecord) (t : Transfer) (timestamp : UInt64) :
    usbMeta o timestamp (u.encode o t) = u.metadata t timestamp := by
  unfold usbMeta UsbRecord.metadata UsbRecord.encode
  simp [u16_skip, u32_skip, byte_skip, u16_cons, u32_cons, byte_cons]

theorem urbLength_encode (o : ByteOrder) (u : UsbRecord) (t : Transfer) :
    u32 o 32 (u.encode o t) = u.urbLength := by
  simp [UsbRecord.encode, u32_skip, u32_cons]

theorem dataLength_encode (o : ByteOrder) (u : UsbRecord) (t : Transfer) :
    u32 o 36 (u.encode o t) = u.dataLength := by
  simp [UsbRecord.encode, u32_skip, u32_cons]

/-- The setup area of a pseudoheader. -/
theorem drop_usbRecord (o : ByteOrder) (u : UsbRecord) (t : Transfer) :
    ∃ rest, (u.encode o t).drop 40 = t.area o ++ rest := by
  refine ⟨o.bytes 4 u.interval.toNat ++ (o.bytes 4 u.startFrame.toNat ++
    (o.bytes 4 u.transferFlags.toNat ++ o.bytes 4 t.isoCount.toNat)), ?_⟩
  simp [UsbRecord.encode, List.drop_append, List.drop_eq_nil_of_le]

def WireDescriptor.descriptor (d : WireDescriptor) : IsoDescriptor :=
  { status := d.status.toInt32, offset := d.offset, length := d.length, padding := 0 }

theorem descriptorOf_encode (o : ByteOrder) (d : WireDescriptor) :
    descriptorOf o (d.encode o) = d.descriptor := by
  simp [descriptorOf, WireDescriptor.encode, WireDescriptor.descriptor, u32_skip]

/-! ## Two readers side by side -/

/-- The readers of the two encodings differ in the byte order only. -/
structure Alike (o o' : ByteOrder) (r r' : Reader) : Prop where
  endian : r.inSection = true → r.endian = o ∧ r'.endian = o'
  inSection : r'.inSection = r.inSection
  interfaces : r'.interfaces = r.interfaces
  nextSourceId : r'.nextSourceId = r.nextSourceId
  requested : r'.requested = r.requested
  incomplete : r'.incomplete = r.incomplete

/-- One block on both sides: the same event, and what follows is left. -/
def SameBlock (o o' : ByteOrder) (rest rest' : Bytes) (x y : Block × Reader × Bytes) : Prop :=
  x.1.event = y.1.event ∧ Alike o o' x.2.1 y.2.1 ∧ x.2.2 = rest ∧ y.2.2 = rest'

section
variable {o o' : ByteOrder} {r r' : Reader} {rest rest' : Bytes}

theorem readDescriptors_orders {m : EventMeta} {known : Bool} (ds : List WireDescriptor) :
    Both (fun x y => x.1 = y.1 ∧ x.2 = rest ∧ y.2 = rest')
      (readDescriptors o m known ds.length (ds.flatMap (WireDescriptor.encode o) ++ rest))
      (readDescriptors o' m known ds.length (ds.flatMap (WireDescriptor.encode o') ++ rest')) := by
  induction ds with
  | nil => exact .ok ⟨rfl, rfl, rfl⟩
  | cons d ds ih =>
    simp only [List.length_cons, readDescriptors, List.flatMap_cons, List.append_assoc,
      readExact_append (length_wireDescriptor o d), readExact_append (length_wireDescriptor o' d),
      Result.ok_bind, descriptorOf_encode]
    refine Both.ensure _ fun _ => Both.ensure _ fun _ => ih.bind fun x y _ hxy => ?_
    obtain ⟨heq, hx, hy⟩ := hxy
    rw [heq]
    exact .ok ⟨rfl, hx, hy⟩

theorem readSetup_orders {m : EventMeta} {known : Bool} (u : UsbRecord) (t : Transfer)
    (ht : m.transferType = t.transferType) (hcount : m.isoCount = t.isoCount) :
    Both (fun x y => x.1 = y.1 ∧ x.2.1 = y.2.1 ∧ x.2.2 = rest ∧ y.2.2 = rest')
      (readSetup o m known (u.encode o t)
        (t.descriptors.flatMap (WireDescriptor.encode o) ++ rest))
      (readSetup o' m known (u.encode o' t)
        (t.descriptors.flatMap (WireDescriptor.encode o') ++ rest')) := by
  cases t with
  | iso errorCount count ds hds =>
    have harea : ∀ o : ByteOrder, u32 o 40 (u.encode o (.iso errorCount count ds hds)) = errorCount ∧
        u32 o 44 (u.encode o (.iso errorCount count ds hds)) = count := by
      intro o
      obtain ⟨tail, hdrop⟩ := drop_usbRecord o u (.iso errorCount count ds hds)
      constructor
      · rw [← Nat.add_zero 40, ← u32_drop, hdrop]
        simp [Transfer.area]
      · rw [show 44 = 40 + 4 from rfl, ← u32_drop, hdrop, Transfer.area, List.append_assoc,
          u32_skip (by simp)]
        simp
    have hlen : m.isoCount.toNat = ds.length := by
      rw [hcount]
      exact UInt32.toNat_ofNat_of_lt' hds
    have hzero : m.transferType = 0 := ht
    unfold readSetup
    simp only [if_pos hzero, (harea o).1, (harea o).2, (harea o').1, (harea o').2, hlen]
    refine Both.ensure _ fun _ => (readDescriptors_orders ds).bind fun x y _ hxy => ?_
    exact .ok ⟨rfl, hxy⟩
  | other transferType hother setup isoCount =>
    have hne : m.transferType ≠ 0 := by
      rw [ht]
      exact hother
    have harea : ∀ o : ByteOrder, (Vector.ofFn fun i : Fin 8 =>
        byte (40 + i) (u.encode o (.other transferType hother setup isoCount))) = setup := by
      intro o
      obtain ⟨tail, hdrop⟩ := drop_usbRecord o u (.other transferType hother setup isoCount)
      ext i hi
      have hat : (u.encode o (.other transferType hother setup isoCount))[40 + i]? =
          some setup[i] := by
        rw [← List.getElem?_drop, hdrop, Transfer.area, List.getElem?_append_left (by simpa using hi),
          List.getElem?_eq_getElem (by simpa using hi)]
        simp
      simp only [Vector.getElem_ofFn, byte, List.getD_eq_getElem?_getD, hat, Option.getD_some]
    unfold readSetup
    simp only [if_neg hne, harea, Transfer.descriptors, List.flatMap_nil, List.nil_append]
    split
    · exact .ok ⟨rfl, rfl, rfl, rfl⟩
    · exact .ok ⟨rfl, rfl, rfl, rfl⟩

/-- What an option says does not depend on the order. -/
theorem applyOption_value (o o' : ByteOrder) (i : Interface) (x : InterfaceOption) :
    applyOption o i x.code (x.value o) = applyOption o' i x.code (x.value o') := by
  cases x with
  | resolution value => simp [applyOption, InterfaceOption.code, InterfaceOption.value]
  | offset seconds => simp [applyOption, InterfaceOption.code, InterfaceOption.value]
  | other code value hlen hother =>
    simp only [applyOption, InterfaceOption.code, InterfaceOption.value, length_encodeFields]
    by_cases hnine : code = 9
    · have hne : fieldsLength value ≠ 1 := fun h => hother.1 ⟨hnine, h⟩
      simp [hnine, ensure, hne]
    · by_cases hfourteen : code = 14
      · have hne : fieldsLength value ≠ 8 := fun h => hother.2 ⟨hfourteen, h⟩
        simp [hfourteen, ensure, hne]
      · simp only [if_neg hnine, if_neg hfourteen]

theorem length_lt (x : InterfaceOption) : x.length < 2 ^ 16 := by
  cases x with
  | resolution => simp [InterfaceOption.length]
  | offset => simp [InterfaceOption.length]
  | other _ _ hlen _ => exact hlen

/-- One option header on either side. -/
theorem optionHeader (o : ByteOrder) (x : InterfaceOption) :
    u16 o 0 (o.bytes 2 x.code.toNat ++ o.bytes 2 x.length) = x.code ∧
      (u16 o 2 (o.bytes 2 x.code.toNat ++ o.bytes 2 x.length)).toNat = x.length := by
  have hlen := length_lt x
  refine ⟨u16_bytes .., ?_⟩
  rw [u16_skip (by simp), ByteOrder.length_bytes, u16, field_bytes (by omega)]
  exact UInt16.toNat_ofNat_of_lt' hlen

theorem readOptions_orders (options : List InterfaceOption) {fuel : Nat}
    (hfuel : optionsLength options / 4 ≤ fuel) (i : Interface) :
    Both (fun x y => x.1 = y.1 ∧ x.2.1 = y.2.1 ∧ (∃ t, t.length = x.2.1 ∧ x.2.2 = t ++ rest) ∧
        ∃ t, t.length = y.2.1 ∧ y.2.2 = t ++ rest')
      (readOptions o fuel (optionsLength options) i
        (options.flatMap (InterfaceOption.encode o) ++ rest))
      (readOptions o' fuel (optionsLength options) i
        (options.flatMap (InterfaceOption.encode o') ++ rest')) := by
  induction options generalizing fuel i with
  | nil =>
    have hnil : ∀ (o : ByteOrder) (rest : Bytes), readOptions o fuel (optionsLength []) i
        ([].flatMap (InterfaceOption.encode o) ++ rest) = .ok (i, 0, rest) := by
      intro o rest
      cases fuel <;> rfl
    rw [hnil, hnil]
    exact .ok ⟨rfl, rfl, ⟨[], rfl, rfl⟩, [], rfl, rfl⟩
  | cons x options ih =>
    have hpad := le_padded x.length
    have htotal : optionsLength (x :: options) = 4 + padded x.length + optionsLength options := by
      simp [optionsLength]
    obtain ⟨fuel, rfl⟩ : ∃ n, fuel = n + 1 := ⟨fuel - 1, by omega⟩
    -- one turn of the loop, in either order
    have hturn : ∀ (o : ByteOrder) (rest : Bytes),
        readOptions o (fuel + 1) (optionsLength (x :: options)) i
          ((x :: options).flatMap (InterfaceOption.encode o) ++ rest) =
        applyOption o i x.code (x.value o) >>= fun res =>
          if res.2 then .ok (res.1, optionsLength options,
            options.flatMap (InterfaceOption.encode o) ++ rest)
          else readOptions o fuel (optionsLength options) res.1
            (options.flatMap (InterfaceOption.encode o) ++ rest) := by
      intro o rest
      have hbytes : (x :: options).flatMap (InterfaceOption.encode o) ++ rest =
          (o.bytes 2 x.code.toNat ++ o.bytes 2 x.length) ++ (x.value o ++
            (List.replicate (padded x.length - x.length) 0 ++
              (options.flatMap (InterfaceOption.encode o) ++ rest))) := by
        simp [InterfaceOption.encode]
      have hleft : 4 + padded x.length + optionsLength options - 4 - padded x.length =
          optionsLength options := by omega
      rw [readOptions, if_neg (by omega), hbytes, readExact_append (by simp), Result.ok_bind]
      simp only [(optionHeader o x).1, (optionHeader o x).2, htotal]
      rw [ensure_of _ (by omega), Result.ok_bind, readExact_append (length_optionValue o x),
        Result.ok_bind]
      dsimp only
      rw [skip_append (by simp), Result.ok_bind, hleft]
    rw [hturn, hturn, applyOption_value o o']
    refine Both.same _ fun res _ => ?_
    split
    · exact .ok ⟨rfl, rfl, ⟨_, length_options o options, rfl⟩, _, length_options o' options, rfl⟩
    · exact ih (by omega) res.1

/-! ## Packets -/

/-- What follows the packet in its block, and the block. -/
def PacketRecord.tail (o : ByteOrder) (p : PacketRecord) (size : UInt32) (rest : Bytes) : Bytes :=
  List.replicate (padded p.captured - p.captured) 0 ++ (encodeFields o p.options ++
    (o.bytes 4 size.toNat ++ rest))

theorem skip_tail (o : ByteOrder) (p : PacketRecord) {size captured : UInt32}
    (hcaptured : captured.toNat = p.captured)
    (hsize : size.toNat = 32 + padded p.captured + fieldsLength p.options) (rest : Bytes) :
    skip (size.toNat - 32 - captured.toNat) (p.tail o size rest) = .ok (o.bytes 4 size.toNat ++ rest) := by
  have hpad := le_padded p.captured
  rw [PacketRecord.tail, ← List.append_assoc]
  refine skip_append ?_
  simp only [List.length_append, List.length_replicate, length_encodeFields]
  omega

/-- A packet of which at least the pseudoheader is there. -/
theorem data_eq (o : ByteOrder) (p : PacketRecord) (h : 64 ≤ p.captured) :
    p.data o = p.usb.encode o p.transfer ++ (p.transfer.descriptors.flatMap (WireDescriptor.encode o) ++
      p.payload).take (p.stored - 64) := by
  unfold PacketRecord.captured at h
  rw [PacketRecord.data, List.take_append, List.take_of_length_le (by simp; omega), length_usbRecord]

/-- All its descriptors are there, and then the payload. -/
theorem take_descriptors (o : ByteOrder) (p : PacketRecord) {n : Nat}
    (h : 16 * p.transfer.descriptors.length ≤ n) :
    (p.transfer.descriptors.flatMap (WireDescriptor.encode o) ++ p.payload).take n =
      p.transfer.descriptors.flatMap (WireDescriptor.encode o) ++
        p.payload.take (n - 16 * p.transfer.descriptors.length) := by
  rw [List.take_append, List.take_of_length_le (by simpa [Nat.mul_comm] using h), length_wireDescriptors]

/-- The descriptors of a checked header are those of the packet. -/
theorem length_descriptors {t : Transfer} {m : EventMeta} (ht : m.transferType = t.transferType)
    (hcount : m.isoCount = t.isoCount) (hiso : m.transferType = 0 ∨ m.isoCount = 0) :
    m.isoCount.toNat = t.descriptors.length := by
  cases t with
  | iso errorCount count ds hds =>
    rw [hcount]
    exact UInt32.toNat_ofNat_of_lt' hds
  | other transferType hother setup isoCount =>
    rw [hiso.resolve_left (by rw [ht]; exact hother)]
    rfl

theorem readUsb_orders (hr : Alike o o' r r') (hin : r.inSection = true) (p : PacketRecord)
    {size captured : UInt32} (hcaptured : captured.toNat = p.captured) (hlen : 64 ≤ p.captured)
    (hsize : size.toNat = 32 + padded p.captured + fieldsLength p.options) (interface : Interface)
    (timestamp : UInt64) (seen seen' : Packet) :
    Both (SameBlock o o' rest rest')
      (readUsb r size captured interface timestamp seen (p.data o ++ p.tail o size rest))
      (readUsb r' size captured interface timestamp seen' (p.data o' ++ p.tail o' size rest')) := by
  obtain ⟨hendian, hendian'⟩ := hr.endian hin
  unfold readUsb
  simp only [hendian, hendian', data_eq _ p hlen, List.append_assoc,
    readExact_append (length_usbRecord _ _ _), Result.ok_bind, usbMeta_encode, urbLength_encode,
    dataLength_encode, hr.requested]
  refine Both.same _ fun m hm => Both.same _ fun paired hpair => ?_
  obtain ⟨m₁, known, table⟩ := paired
  obtain ⟨hsame, hchecked⟩ := checkMeta_eq_ok hm
  obtain ⟨hsame₁, hlen₁, _⟩ := pairRequest_eq_ok hpair
  have hheader := hsame.trans hsame₁
  have hchecked₁ := hchecked.of_same hsame₁ hlen₁
  have hcount := length_descriptors (t := p.transfer) hheader.transferType hheader.isoCount
    hchecked₁.iso
  have hbody := hchecked₁.length
  have hstored := hcaptured
  unfold PacketRecord.captured at hstored
  rw [take_descriptors o p (by omega), take_descriptors o' p (by omega), List.append_assoc,
    List.append_assoc]
  refine (readSetup_orders p.usb p.transfer hheader.transferType hheader.isoCount).bind
    fun x y hsetup hxy => ?_
  obtain ⟨m₂, iso, input⟩ := x
  obtain ⟨m₂', iso', input'⟩ := y
  obtain ⟨rfl, rfl, rfl, rfl⟩ := hxy
  have hlen₂ := (readSetup_eq_ok hchecked₁.iso hsetup).2.1
  have hpayload : (p.payload.take (p.stored - 64 - 16 * p.transfer.descriptors.length)).length =
      m₂.payloadLen.toNat := by
    rw [hlen₂, List.length_take]
    omega
  simp only [readExact_append hpayload, Result.ok_bind, skip_tail _ p hcaptured hsize,
    footer_encode _ rfl]
  split
  · refine .ok ⟨rfl, ⟨fun _ => ⟨rfl, rfl⟩, hr.inSection, hr.interfaces, hr.nextSourceId,
      rfl, ?_⟩, rfl, rfl⟩
    dsimp only
    rw [hr.incomplete]
  · exact .ok ⟨rfl, ⟨fun _ => ⟨rfl, rfl⟩, hr.inSection, hr.interfaces, hr.nextSourceId,
      rfl, hr.incomplete⟩, rfl, rfl⟩

/-- The fixed part of a packet block. -/
def PacketRecord.header (o : ByteOrder) (p : PacketRecord) : Bytes :=
  o.bytes 4 p.interface.toNat ++ (o.bytes 4 p.ticksHigh.toNat ++ (o.bytes 4 p.ticksLow.toNat ++
    (o.bytes 4 p.captured ++ o.bytes 4 p.original.toNat)))

theorem length_header (o : ByteOrder) (p : PacketRecord) : (p.header o).length = 20 := by
  simp [PacketRecord.header]

theorem packet_encode (o : ByteOrder) (p : PacketRecord) (size : UInt32) (rest : Bytes) :
    p.encode o ++ (o.bytes 4 size.toNat ++ rest) = p.header o ++ (p.data o ++ p.tail o size rest) := by
  simp [PacketRecord.encode, PacketRecord.header, PacketRecord.tail]

theorem header_fields (o : ByteOrder) (p : PacketRecord) (hcaptured : p.captured < 2 ^ 32) :
    u32 o 0 (p.header o) = p.interface ∧ u32 o 4 (p.header o) = p.ticksHigh ∧
      u32 o 8 (p.header o) = p.ticksLow ∧ u32 o 12 (p.header o) = UInt32.ofNat p.captured ∧
      u32 o 16 (p.header o) = p.original := by
  obtain ⟨captured, hword⟩ : ∃ captured : UInt32, captured.toNat = p.captured :=
    ⟨UInt32.ofNat p.captured, UInt32.toNat_ofNat_of_lt' hcaptured⟩
  rw [PacketRecord.header, ← hword, UInt32.ofNat_toNat]
  simp [u32_skip]

theorem readPacket_orders (hr : Alike o o' r r') (hin : r.inSection = true) (p : PacketRecord)
    {size : UInt32} (hsize : size.toNat = 32 + padded p.captured + fieldsLength p.options) :
    Both (SameBlock o o' rest rest')
      (readPacket r size (p.encode o ++ (o.bytes 4 size.toNat ++ rest)))
      (readPacket r' size (p.encode o' ++ (o'.bytes 4 size.toNat ++ rest'))) := by
  obtain ⟨hendian, hendian'⟩ := hr.endian hin
  have hpad := le_padded p.captured
  have hcaptured : p.captured < 2 ^ 32 := by
    have hlt := size.toNat_lt
    omega
  have hword : (UInt32.ofNat p.captured).toNat = p.captured := UInt32.toNat_ofNat_of_lt' hcaptured
  obtain ⟨h0, h4, h8, h12, h16⟩ := header_fields o p hcaptured
  obtain ⟨h0', h4', h8', h12', h16'⟩ := header_fields o' p hcaptured
  -- the rest of the block of a packet that was cut
  have hskip : ∀ (o : ByteOrder) (rest : Bytes),
      skip (size.toNat - 32) (p.data o ++ p.tail o size rest) = .ok (o.bytes 4 size.toNat ++ rest) := by
    intro o rest
    rw [PacketRecord.tail, ← List.append_assoc, ← List.append_assoc]
    refine skip_append ?_
    simp only [List.length_append, List.length_replicate, length_encodeFields, length_data]
    omega
  unfold readPacket
  simp only [hendian, hendian', packet_encode, readExact_append (length_header _ p), Result.ok_bind,
    h0, h4, h8, h12, h16, h0', h4', h8', h12', h16', hr.interfaces]
  refine Both.ensure _ fun _ => Both.same _ fun interface _ => Both.ensure _ fun _ =>
    Both.same _ fun timestamp _ => Both.ensure _ fun _ => ?_
  split
  · simp only [hskip, Result.ok_bind, footer_encode _ rfl]
    refine .ok ⟨rfl, ⟨fun _ => ⟨rfl, rfl⟩, hr.inSection, rfl, hr.nextSourceId,
      hr.requested, ?_⟩, rfl, rfl⟩
    dsimp only
    rw [hr.incomplete]
  · rename_i hcut
    rw [hword] at hcut
    exact Both.ensure _ fun _ => readUsb_orders hr hin p hword (by omega) hsize _ _ _ _

/-! ## Blocks -/

theorem readInterface_orders (hr : Alike o o' r r') (hin : r.inSection = true)
    (linktype reserved : UInt16) (snaplen : UInt32) (options : List InterfaceOption) {size : UInt32}
    (hsize : size.toNat = 20 + optionsLength options) :
    Both (SameBlock o o' rest rest')
      (readInterface r size ((Record.interface linktype reserved snaplen options).body o ++
        (o.bytes 4 size.toNat ++ rest)))
      (readInterface r' size ((Record.interface linktype reserved snaplen options).body o' ++
        (o'.bytes 4 size.toNat ++ rest'))) := by
  obtain ⟨hendian, hendian'⟩ := hr.endian hin
  have hbody : ∀ (o : ByteOrder) (rest : Bytes), readExact 8 ioError
      ((Record.interface linktype reserved snaplen options).body o ++ rest) =
      .ok (o.bytes 2 linktype.toNat ++ (o.bytes 2 reserved.toNat ++ o.bytes 4 snaplen.toNat),
        options.flatMap (InterfaceOption.encode o) ++ rest) := by
    intro o rest
    rw [show (Record.interface linktype reserved snaplen options).body o ++ rest =
      (o.bytes 2 linktype.toNat ++ (o.bytes 2 reserved.toNat ++ o.bytes 4 snaplen.toNat)) ++
        (options.flatMap (InterfaceOption.encode o) ++ rest) by simp [Record.body]]
    exact readExact_append (by simp)
  have hremaining : size.toNat - 20 = optionsLength options := by omega
  unfold readInterface
  simp only [hbody, Result.ok_bind, hendian, hendian', u16_bytes, hremaining, hr.nextSourceId]
  refine Both.ensure _ fun _ => (readOptions_orders options le_rfl _).bind fun x y _ hxy => ?_
  obtain ⟨i, remaining, input⟩ := x
  obtain ⟨i', remaining', input'⟩ := y
  obtain ⟨rfl, rfl, ⟨t, ht, rfl⟩, t', ht', rfl⟩ := hxy
  simp only [skip_append ht, skip_append ht', Result.ok_bind, footer_encode _ rfl]
  refine Both.ensure _ fun _ => .ok ⟨rfl, ⟨fun _ => ⟨rfl, rfl⟩, hr.inSection, ?_, rfl,
    hr.requested, hr.incomplete⟩, rfl, rfl⟩
  dsimp only
  rw [hr.interfaces]

theorem byteOrderOf_magic (o : ByteOrder) : byteOrderOf (o.bytes 4 0x1a2b3c4d) = some o := by
  cases o <;> decide

theorem readSection_orders (hr : Alike o o' r r') (major minor : UInt16) (length : UInt64)
    (options : List Field) {size : UInt32} (hsize : size.toNat = 28 + fieldsLength options)
    {header header' : Bytes} (hheader : u32 o 4 header = size) (hheader' : u32 o' 4 header' = size) :
    Both (SameBlock o o' rest rest')
      (readSection r header ((Record.sectionHeader major minor length options).body o ++
        (o.bytes 4 size.toNat ++ rest)))
      (readSection r' header' ((Record.sectionHeader major minor length options).body o' ++
        (o'.bytes 4 size.toNat ++ rest'))) := by
  have hskip : ∀ (o : ByteOrder) (rest : Bytes), skip (size.toNat - 20)
      (o.bytes 8 length.toNat ++ (encodeFields o options ++ rest)) = .ok rest := by
    intro o rest
    rw [← List.append_assoc]
    refine skip_append ?_
    simp only [List.length_append, ByteOrder.length_bytes, length_encodeFields]
    omega
  have hversion : ∀ (o : ByteOrder) (rest : Bytes), readExact 4 ioError
      (o.bytes 2 major.toNat ++ (o.bytes 2 minor.toNat ++ rest)) =
      .ok (o.bytes 2 major.toNat ++ o.bytes 2 minor.toNat, rest) := by
    intro o rest
    rw [← List.append_assoc]
    exact readExact_append (by simp)
  unfold readSection
  simp only [Record.body, List.append_assoc, readExact_append (ByteOrder.length_bytes _ 4 _),
    Result.ok_bind, byteOrderOf_magic, context_some, hheader, hheader', hversion, u16_bytes, hskip,
    footer_encode _ rfl]
  refine Both.ensure _ fun _ => Both.ensure _ fun _ => .ok ⟨rfl, ⟨fun _ => ⟨rfl, rfl⟩, rfl, rfl,
    hr.nextSourceId, rfl, hr.incomplete⟩, rfl, rfl⟩

/-- Only the type of a section header reads as one. -/
theorem bytes_eq_sectionType {o : ByteOrder} {kind : UInt32} :
    o.bytes 4 kind.toNat = [10, 13, 13, 10] ↔ kind = 0x0a0d0d0a := by
  constructor
  · intro h
    have hkind := u32_bytes_end o kind
    rw [h] at hkind
    rw [← hkind]
    cases o <;> rfl
  · intro h
    subst h
    cases o <;> decide

theorem nextBlock_orders (hr : Alike o o' r r') (b : Record) (hfits : b.size < 2 ^ 32) :
    Both (SameBlock o o' rest rest') (nextBlock r (b.encode o ++ rest))
      (nextBlock r' (b.encode o' ++ rest')) := by
  obtain ⟨size, hsize⟩ : ∃ size : UInt32, size.toNat = b.size :=
    ⟨UInt32.ofNat b.size, UInt32.toNat_ofNat_of_lt' hfits⟩
  have hheader : ∀ (o : ByteOrder) (rest : Bytes),
      readExact 8 "truncated pcapng block header" (b.encode o ++ rest) =
      .ok (o.bytes 4 b.kind.toNat ++ o.bytes 4 size.toNat,
        b.body o ++ (o.bytes 4 size.toNat ++ rest)) := by
    intro o rest
    rw [show b.encode o ++ rest = (o.bytes 4 b.kind.toNat ++ o.bytes 4 size.toNat) ++
      (b.body o ++ (o.bytes 4 size.toNat ++ rest)) by simp [Record.encode, hsize]]
    exact readExact_append (by simp)
  have hfour : ∀ o : ByteOrder, (o.bytes 4 b.kind.toNat ++ o.bytes 4 size.toNat).take 4 =
      o.bytes 4 b.kind.toNat := fun o => List.take_left' (by simp)
  have hword : ∀ o : ByteOrder, u32 o 4 (o.bytes 4 b.kind.toNat ++ o.bytes 4 size.toNat) = size := by
    intro o
    simp [u32_skip]
  have hlen := size_eq o b
  unfold nextBlock
  simp only [hheader, Result.ok_bind, hfour, bytes_eq_sectionType]
  by_cases hsec : b.kind = 0x0a0d0d0a
  · simp only [if_pos hsec]
    cases b with
    | sectionHeader major minor length options =>
      refine readSection_orders hr major minor length options ?_ (hword o) (hword o')
      rw [hsize, hlen]
      simp [Record.body]
      omega
    | interface => cases hsec
    | packet => cases hsec
    | unknown kind hkind body => exact absurd hsec hkind.1
  · simp only [if_neg hsec, hr.inSection]
    refine Both.ensure _ fun hin => ?_
    obtain ⟨hendian, hendian'⟩ := hr.endian hin
    simp only [hendian, hendian', u32_bytes, hword]
    refine Both.ensure _ fun _ => ?_
    cases b with
    | sectionHeader => exact absurd rfl hsec
    | interface linktype reserved snaplen options =>
      refine readInterface_orders hr hin linktype reserved snaplen options ?_
      rw [hsize, hlen]
      simp only [Record.body, List.length_append, ByteOrder.length_bytes, length_options]
      omega
    | packet p =>
      refine readPacket_orders hr hin p ?_
      have hpad := le_padded p.captured
      rw [hsize, hlen]
      simp [Record.body, PacketRecord.encode]
      omega
    | unknown kind hkind body =>
      have hskip : ∀ (o : ByteOrder) (rest : Bytes), skip (size.toNat - 12)
          (encodeFields o body ++ rest) = .ok rest := by
        intro o rest
        refine skip_append ?_
        rw [hsize, hlen, length_encodeFields]
        simp [Record.body]
      have hone : (Record.unknown kind hkind body).kind ≠ 1 := hkind.2.1
      have hsix : (Record.unknown kind hkind body).kind ≠ 6 := hkind.2.2
      simp only [if_neg hone, if_neg hsix]
      split
      · exact .error _
      · simp only [Record.body, hskip, Result.ok_bind, footer_encode _ rfl]
        exact .ok ⟨rfl, hr, rfl, rfl⟩

/-- Two runs over the same blocks: the same events, block by block, and the same
count of lost packets. -/
def SameRun (x y : List Block × Reader × Bytes) : Prop :=
  x.1.map Block.event = y.1.map Block.event ∧ x.2.1.incomplete = y.2.1.incomplete

theorem readBlocks_orders (hr : Alike o o' r r') {records : List Record}
    (hfits : ∀ b ∈ records, b.size < 2 ^ 32) (count : Nat) :
    Both SameRun (readBlocks count r (records.flatMap (Record.encode o)))
      (readBlocks count r' (records.flatMap (Record.encode o'))) := by
  induction count generalizing r r' records with
  | zero => exact .ok ⟨rfl, hr.incomplete.symm⟩
  | succ count ih =>
    cases records with
    | nil => exact .ok ⟨rfl, hr.incomplete.symm⟩
    | cons b records =>
      have hne : ∀ o : ByteOrder, (b :: records).flatMap (Record.encode o) ≠ [] := by
        intro o hnil
        have hlen := congrArg List.length hnil
        simp [Record.encode] at hlen
      rw [readBlocks, readBlocks, if_neg (hne o), if_neg (hne o'), List.flatMap_cons, List.flatMap_cons]
      refine (nextBlock_orders hr b (hfits b List.mem_cons_self)).bind fun x y _ hxy => ?_
      obtain ⟨block, s, input⟩ := x
      obtain ⟨block', s', input'⟩ := y
      obtain ⟨hevent, hs, rfl, rfl⟩ := hxy
      refine (ih hs fun b hb => hfits b (List.mem_cons_of_mem _ hb)).bind fun x y _ hxy => ?_
      obtain ⟨hevents, hincomplete⟩ := hxy
      refine .ok ⟨?_, hincomplete⟩
      rw [List.map_cons, List.map_cons, hevents]
      exact congrArg (· :: _) hevent

end

/-- **Byte order.** A section in either byte order: after any number of blocks
the reader has delivered the same events and counted the same losses, or has
failed at the same block with the same message. -/
theorem reads_either_order (s : SectionRecord) (count : Nat) :
    Both SameRun (readBlocks count Reader.new (s.encode .big))
      (readBlocks count Reader.new (s.encode .little)) :=
  readBlocks_orders ⟨fun h => absurd h (by decide), rfl, rfl, rfl, rfl, rfl⟩ s.fits count

/-- A bulk OUT submission of three bytes, ten seconds late. -/
def bulkSection : SectionRecord where
  records :=
    [.sectionHeader 1 0 0 [.word 2 4, .word 2 3, .bytes [117, 115, 98, 0]],
      .interface 220 0 0 [.resolution 9, .offset 10, .other 0 [] (by decide) (by decide)],
      .packet
        { interface := 0
          ticksHigh := 0
          ticksLow := 5
          stored := 67
          original := 67
          usb :=
            { urbId := 7, eventType := submitType, endpoint := 1, device := 1, bus := 1,
              setupFlag := 45, dataFlag := 0, seconds := 0, microseconds := 0, status := 0,
              urbLength := 3, dataLength := 3, interval := 0, startFrame := 0, transferFlags := 0 }
          transfer := .other 3 (by decide) (Vector.replicate 8 0) 0
          payload := [1, 2, 3]
          options := [] },
      .unknown 5 (by decide) [.word 8 1]]
  fits := by decide +kernel

example : (match readBlocks 4 Reader.new (bulkSection.encode .big) with
    | .ok (blocks, _, []) =>
      (delivered blocks).map fun e => (e.metadata.timestampNs, e.metadata.urbId, e.payload)
    | _ => []) = [(10000000005, 7, [1, 2, 3])] := by decide +kernel

end UsbScope.Pcapng
