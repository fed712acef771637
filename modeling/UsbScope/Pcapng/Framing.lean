import UsbScope.Pcapng.Pairing

/-! # The blocks of a file

A file is cut into blocks by their headers alone: a type, a total length, and
the byte order of the last section header. The reader takes exactly these
blocks, one at a time, and each block's outcome depends on nothing behind it. -/
namespace UsbScope.Pcapng
open UsbScope.Lib UsbScope.Common UsbScope.Capture

/-! ## What the reader takes -/

theorem readOptions_took {o : ByteOrder} {fuel remaining remaining' : Nat} {i i' : Interface}
    {input rest : Bytes} (h : readOptions o fuel remaining i input = .ok (i', remaining', rest)) :
    remaining' ≤ remaining ∧ Took (readOptions o fuel remaining i) (fun g => (i', remaining', g))
      (remaining - remaining') input rest := by
  induction fuel generalizing remaining i input with
  | zero =>
    cases h
    exact ⟨le_rfl, (Took.done _ _).cast (Nat.sub_self _).symm⟩
  | succ fuel ih =>
    rw [readOptions] at h
    by_cases hlow : remaining < 4
    · rw [if_pos hlow] at h
      cases h
      refine ⟨le_rfl, ?_⟩
      simp only [readOptions, if_pos hlow]
      exact (Took.done _ _).cast (Nat.sub_self _).symm
    · rw [if_neg hlow] at h
      obtain ⟨⟨option, input₁⟩, hoption, h⟩ := Result.bind_eq_ok.mp h
      dsimp only at h
      rw [ensure_bind_eq_ok] at h
      obtain ⟨hfits, h⟩ := h
      obtain ⟨⟨value, input₂⟩, hvalue, h⟩ := Result.bind_eq_ok.mp h
      obtain ⟨input₃, hskip, h⟩ := Result.bind_eq_ok.mp h
      obtain ⟨⟨i₁, last⟩, happly, h⟩ := Result.bind_eq_ok.mp h
      dsimp only at h
      have hpad : (u16 o 2 option).toNat ≤ padded (u16 o 2 option).toNat := by
        unfold padded
        omega
      -- the rest of the list is one more parse, of nothing after the last option
      obtain ⟨hle, htail⟩ : remaining' ≤ remaining - 4 - padded (u16 o 2 option).toNat ∧
          Took (fun g => if last then .ok (i₁, remaining - 4 - padded (u16 o 2 option).toNat, g)
              else readOptions o fuel (remaining - 4 - padded (u16 o 2 option).toNat) i₁ g)
            (fun g => (i', remaining', g))
            (remaining - 4 - padded (u16 o 2 option).toNat - remaining') input₃ rest := by
        cases last with
        | true =>
          cases h
          exact ⟨le_rfl, (Took.done _ _).cast (Nat.sub_self _).symm⟩
        | false => exact ih h
      refine ⟨by omega, ?_⟩
      simp only [readOptions, if_neg hlow]
      refine ((readExact_took hoption).bind (m := remaining - 4 - remaining') ?_).cast (by omega)
      simp only [ensure_of _ hfits, Result.ok_bind]
      refine ((readExact_took hvalue).bind
        (m := remaining - 4 - (u16 o 2 option).toNat - remaining') ?_).cast (by omega)
      dsimp only at hskip happly ⊢
      refine ((skip_took hskip).bind
        (m := remaining - 4 - padded (u16 o 2 option).toNat - remaining') ?_).cast (by omega)
      simp only [happly, Result.ok_bind]
      exact htail

/-- A packet that was captured in full takes its block to the end. -/
theorem readUsb_took {r r' : Reader} {size captured : UInt32} {interface : Interface}
    {timestamp : UInt64} {seen : Packet} {input rest : Bytes} {b : Block}
    (hlen : 64 ≤ captured.toNat) (hfits : captured.toNat ≤ size.toNat - 32)
    (h : readUsb r size captured interface timestamp seen input = .ok (b, r', rest)) :
    Took (readUsb r size captured interface timestamp seen) (fun g => (b, r', g))
      (size.toNat - 28) input rest := by
  unfold readUsb at h
  obtain ⟨⟨usb, input₁⟩, husb, h⟩ := Result.bind_eq_ok.mp h
  dsimp only at h
  obtain ⟨m, hm, h⟩ := Result.bind_eq_ok.mp h
  obtain ⟨⟨m₁, known, table⟩, hpair, h⟩ := Result.bind_eq_ok.mp h
  obtain ⟨⟨m₂, iso, input₂⟩, hsetup, h⟩ := Result.bind_eq_ok.mp h
  obtain ⟨⟨payload, input₃⟩, hpayload, h⟩ := Result.bind_eq_ok.mp h
  obtain ⟨input₄, hskip, h⟩ := Result.bind_eq_ok.mp h
  obtain ⟨input₅, hfooter, h⟩ := Result.bind_eq_ok.mp h
  dsimp only at hsetup hpayload hskip hfooter h
  obtain ⟨_, hchecked⟩ := checkMeta_eq_ok hm
  obtain ⟨hsame₁, hlen₁, _⟩ := pairRequest_eq_ok hpair
  have hchecked₁ := hchecked.of_same hsame₁ hlen₁
  obtain ⟨hsame₂, hlen₂, _⟩ := readSetup_eq_ok hchecked₁.iso hsetup
  have hbody := (hchecked₁.of_same hsame₂ hlen₂).length
  rw [hsame₂.isoCount] at hbody
  unfold readUsb
  refine ((readExact_took husb).bind (m := size.toNat - 28 - 64) ?_).cast (by omega)
  simp only [hm, hpair, Result.ok_bind]
  refine ((readSetup_took hchecked₁.iso hsetup).bind
    (m := m₂.payloadLen.toNat + (size.toNat - 32 - captured.toNat + 4)) ?_).cast (by omega)
  dsimp +instances only
  refine (readExact_took hpayload).bind (m := size.toNat - 32 - captured.toNat + 4) ?_
  dsimp +instances only
  refine (skip_took hskip).bind (m := 4) ?_
  refine (footer_took hfooter).bind (m := 0) ?_
  dsimp only [id]
  split at h
  · rename_i hlost
    cases h
    simp only [if_pos hlost]
    exact .done _ _
  · rename_i hkept
    cases h
    simp only [if_neg hkept]
    exact .done _ _

theorem readPacket_took {r r' : Reader} {size : UInt32} {input rest : Bytes} {b : Block}
    (h : readPacket r size input = .ok (b, r', rest)) :
    Took (readPacket r size) (fun g => (b, r', g)) (size.toNat - 8) input rest := by
  unfold readPacket at h
  dsimp only at h
  obtain ⟨hsize, h⟩ := ensure_bind_eq_ok.mp h
  obtain ⟨⟨packet, input₁⟩, hpacket, h⟩ := Result.bind_eq_ok.mp h
  dsimp only at h
  obtain ⟨interface, hi, h⟩ := Result.bind_eq_ok.mp h
  obtain ⟨hlink, h⟩ := ensure_bind_eq_ok.mp h
  obtain ⟨timestamp, htime, h⟩ := Result.bind_eq_ok.mp h
  obtain ⟨hpadded, h⟩ := ensure_bind_eq_ok.mp h
  have hfits : (u32 r.endian 12 packet).toNat ≤ size.toNat - 32 := by
    unfold padded at hpadded
    omega
  unfold readPacket
  simp only [ensure_of _ hsize, Result.ok_bind]
  refine ((readExact_took hpacket).bind (m := size.toNat - 28) ?_).cast (by omega)
  simp only [hi, ensure_of _ hlink, htime, ensure_of _ hpadded, Result.ok_bind]
  -- the captured bytes are within what the block takes
  have hseen : ∀ i : Bytes, i.take (size.toNat - 28) = input₁.take (size.toNat - 28) →
      i.take (u32 r.endian 12 packet).toNat = input₁.take (u32 r.endian 12 packet).toNat := by
    intro i hi
    have hle : min (u32 r.endian 12 packet).toNat (size.toNat - 28) =
        (u32 r.endian 12 packet).toNat := min_eq_left (by omega)
    rw [← hle, ← List.take_take, ← List.take_take, hi]
  by_cases hcut : (u32 r.endian 12 packet).toNat < 64 ∨ u32 r.endian 12 packet < u32 r.endian 16 packet
  · rw [if_pos hcut] at h
    obtain ⟨input₂, hskip, h⟩ := Result.bind_eq_ok.mp h
    obtain ⟨input₃, hfooter, h⟩ := Result.bind_eq_ok.mp h
    cases h
    simp only [if_pos hcut]
    refine ((skip_footer_took _ hskip hfooter).cast (by omega)).congr fun i hi => ?_
    rw [hseen i hi]
  · rw [if_neg hcut] at h
    obtain ⟨heq, h⟩ := ensure_bind_eq_ok.mp h
    simp only [if_neg hcut, ensure_of _ heq, Result.ok_bind]
    refine (readUsb_took (by omega) hfits h).congr fun i hi => ?_
    rw [hseen i hi]

theorem readInterface_took {r r' : Reader} {size : UInt32} {input rest : Bytes} {b : Block}
    (h : readInterface r size input = .ok (b, r', rest)) :
    Took (readInterface r size) (fun g => (b, r', g)) (size.toNat - 8) input rest := by
  unfold readInterface at h
  obtain ⟨hsize, h⟩ := ensure_bind_eq_ok.mp h
  obtain ⟨⟨body, input₁⟩, hbody, h⟩ := Result.bind_eq_ok.mp h
  dsimp only at h
  obtain ⟨⟨i, remaining, input₂⟩, hoptions, h⟩ := Result.bind_eq_ok.mp h
  dsimp only at h
  obtain ⟨input₃, hskip, h⟩ := Result.bind_eq_ok.mp h
  obtain ⟨hnext, h⟩ := ensure_bind_eq_ok.mp h
  obtain ⟨input₄, hfooter, h⟩ := Result.bind_eq_ok.mp h
  cases h
  obtain ⟨hle, htook⟩ := readOptions_took hoptions
  unfold readInterface
  simp only [ensure_of _ hsize, Result.ok_bind]
  refine ((readExact_took hbody).bind (m := size.toNat - 16) ?_).cast (by omega)
  dsimp only
  refine (htook.bind (m := remaining + 4) ?_).cast (by omega)
  dsimp only
  refine (skip_took hskip).bind (m := 4) ?_
  simp only [ensure_of _ hnext, Result.ok_bind]
  refine (footer_took hfooter).bind (m := 0) ?_
  exact .done _ _

theorem readSection_took {r r' : Reader} {header input rest : Bytes} {b : Block}
    (h : readSection r header input = .ok (b, r', rest)) :
    byteOrderOf (input.take 4) = some r'.endian ∧ 28 ≤ (u32 r'.endian 4 header).toNat ∧
      Took (readSection r header) (fun g => (b, r', g)) ((u32 r'.endian 4 header).toNat - 8)
        input rest := by
  unfold readSection at h
  obtain ⟨⟨magic, input₁⟩, hmagic, h⟩ := Result.bind_eq_ok.mp h
  dsimp only at h
  obtain ⟨endian, hendian, h⟩ := Result.bind_eq_ok.mp h
  obtain ⟨hsize, h⟩ := ensure_bind_eq_ok.mp h
  obtain ⟨⟨version, input₂⟩, hversion, h⟩ := Result.bind_eq_ok.mp h
  dsimp only at h
  obtain ⟨hone, h⟩ := ensure_bind_eq_ok.mp h
  obtain ⟨input₃, hskip, h⟩ := Result.bind_eq_ok.mp h
  obtain ⟨input₄, hfooter, h⟩ := Result.bind_eq_ok.mp h
  cases h
  have hheader := (Prod.mk.inj (readExact_eq_ok.mp hmagic).2).1
  refine ⟨hheader ▸ context_eq_ok.mp hendian, hsize.1, ?_⟩
  dsimp only
  unfold readSection
  refine ((readExact_took hmagic).bind (m := (u32 endian 4 header).toNat - 12) ?_).cast (by omega)
  simp only [hendian, ensure_of _ hsize, Result.ok_bind]
  refine ((readExact_took hversion).bind (m := (u32 endian 4 header).toNat - 16) ?_).cast (by omega)
  simp only [ensure_of _ hone, Result.ok_bind]
  exact (skip_footer_took _ hskip hfooter).cast (by omega)

/-! ## Frames -/

/-- The bytes of a block's type in a section header, the same in both orders. -/
def sectionType : Bytes := [10, 13, 13, 10]

/-- The byte order of the block at the front, in a section of order `o`. -/
def frameOrder (o : ByteOrder) (input : Bytes) : ByteOrder :=
  if input.take 4 = sectionType then (byteOrderOf ((input.drop 8).take 4)).getD o else o

/-- A block of a file, with the byte order of its section. -/
structure Frame where
  endian : ByteOrder
  bytes : Bytes

/-- The next frames, at most `fuel`: a block ends where its header says. -/
def frames : Nat → ByteOrder → Bytes → List Frame
  | 0, _, _ => []
  | fuel + 1, o, input =>
    if input = [] then []
    else
      let o := frameOrder o input
      let size := (u32 o 4 input).toNat
      ⟨o, input.take size⟩ :: frames fuel o (input.drop size)

/-- The blocks of a file, each of at least one byte. -/
def framesOf (input : Bytes) : List Frame := frames input.length .little input

def Frame.kind (f : Frame) : UInt32 := u32 f.endian 0 f.bytes

/-- The packet in an Enhanced Packet Block. -/
def Frame.packet (f : Frame) : Packet :=
  { endian := f.endian
    interface := (u32 f.endian 8 f.bytes).toNat
    captured := (f.bytes.drop 28).take (u32 f.endian 20 f.bytes).toNat
    original := u32 f.endian 24 f.bytes }

/-- What the reader makes of a block is made of that block. -/
def Describes (f : Frame) : Block → Prop
  | .sectionHeader => f.kind = 0x0a0d0d0a
  | .interface => f.kind = 1
  | .packet p _ => f.kind = 6 ∧ p = f.packet
  | .unknown => f.kind ≠ 1 ∧ f.kind ≠ 6

theorem readUsb_block {r r' : Reader} {size captured : UInt32} {interface : Interface}
    {timestamp : UInt64} {seen : Packet} {input rest : Bytes} {b : Block}
    (h : readUsb r size captured interface timestamp seen input = .ok (b, r', rest)) :
    (∃ event, b = .packet seen event) ∧ r'.endian = r.endian := by
  unfold readUsb at h
  obtain ⟨_, _, h⟩ := Result.bind_eq_ok.mp h
  obtain ⟨_, _, h⟩ := Result.bind_eq_ok.mp h
  obtain ⟨_, _, h⟩ := Result.bind_eq_ok.mp h
  obtain ⟨_, _, h⟩ := Result.bind_eq_ok.mp h
  obtain ⟨_, _, h⟩ := Result.bind_eq_ok.mp h
  obtain ⟨_, _, h⟩ := Result.bind_eq_ok.mp h
  obtain ⟨_, _, h⟩ := Result.bind_eq_ok.mp h
  split at h
  · cases h
    exact ⟨⟨_, rfl⟩, rfl⟩
  · cases h
    exact ⟨⟨_, rfl⟩, rfl⟩

theorem readPacket_block {r r' : Reader} {size : UInt32} {input rest : Bytes} {b : Block}
    (h : readPacket r size input = .ok (b, r', rest)) :
    (∃ event, b = .packet ⟨r.endian, (u32 r.endian 0 input).toNat,
      (input.drop 20).take (u32 r.endian 12 input).toNat, u32 r.endian 16 input⟩ event) ∧
      r'.endian = r.endian ∧ 32 ≤ size.toNat ∧ (u32 r.endian 12 input).toNat ≤ size.toNat - 32 := by
  unfold readPacket at h
  dsimp only at h
  rw [ensure_bind_eq_ok] at h
  obtain ⟨hsize, h⟩ := h
  obtain ⟨res, hres, h⟩ := Result.bind_eq_ok.mp h
  obtain ⟨_, rfl⟩ := readExact_eq_ok.mp hres
  dsimp only at h
  rw [u32_take _ (by decide), u32_take _ (by decide), u32_take _ (by decide),
    u32_take _ (by decide), u32_take _ (by decide)] at h
  obtain ⟨_, _, h⟩ := Result.bind_eq_ok.mp h
  obtain ⟨_, h⟩ := ensure_bind_eq_ok.mp h
  obtain ⟨_, _, h⟩ := Result.bind_eq_ok.mp h
  obtain ⟨hpadded, h⟩ := ensure_bind_eq_ok.mp h
  have hfits : (u32 r.endian 12 input).toNat ≤ size.toNat - 32 := by
    unfold padded at hpadded
    omega
  split at h
  · obtain ⟨_, _, h⟩ := Result.bind_eq_ok.mp h
    obtain ⟨_, _, h⟩ := Result.bind_eq_ok.mp h
    cases h
    exact ⟨⟨_, rfl⟩, rfl, hsize, hfits⟩
  · obtain ⟨_, h⟩ := ensure_bind_eq_ok.mp h
    obtain ⟨hblock, hendian⟩ := readUsb_block h
    exact ⟨hblock, hendian, hsize, hfits⟩

theorem readInterface_block {r r' : Reader} {size : UInt32} {input rest : Bytes} {b : Block}
    (h : readInterface r size input = .ok (b, r', rest)) : b = .interface ∧ r'.endian = r.endian := by
  unfold readInterface at h
  obtain ⟨_, h⟩ := ensure_bind_eq_ok.mp h
  obtain ⟨_, _, h⟩ := Result.bind_eq_ok.mp h
  obtain ⟨_, _, h⟩ := Result.bind_eq_ok.mp h
  obtain ⟨_, _, h⟩ := Result.bind_eq_ok.mp h
  obtain ⟨_, h⟩ := ensure_bind_eq_ok.mp h
  obtain ⟨_, _, h⟩ := Result.bind_eq_ok.mp h
  cases h
  exact ⟨rfl, rfl⟩

theorem readSection_block {r r' : Reader} {header input rest : Bytes} {b : Block}
    (h : readSection r header input = .ok (b, r', rest)) : b = .sectionHeader := by
  unfold readSection at h
  obtain ⟨_, _, h⟩ := Result.bind_eq_ok.mp h
  obtain ⟨_, _, h⟩ := Result.bind_eq_ok.mp h
  obtain ⟨_, h⟩ := ensure_bind_eq_ok.mp h
  obtain ⟨_, _, h⟩ := Result.bind_eq_ok.mp h
  obtain ⟨_, h⟩ := ensure_bind_eq_ok.mp h
  obtain ⟨_, _, h⟩ := Result.bind_eq_ok.mp h
  obtain ⟨_, _, h⟩ := Result.bind_eq_ok.mp h
  cases h
  rfl

/-- The block type of a section header reads the same in both orders. -/
theorem u32_sectionType (o : ByteOrder) (input : Bytes) (h : input.take 4 = sectionType) :
    u32 o 0 input = 0x0a0d0d0a := by
  rw [← u32_take input (n := 4) (by decide), h]
  cases o <;> rfl

/-- What it means that the reader takes the block at the front of the input. -/
structure Framed (r : Reader) (input : Bytes) (o : ByteOrder) (b : Block) (r' : Reader)
    (rest : Bytes) : Prop where
  endian : r'.endian = o
  size : 12 ≤ (u32 o 4 input).toNat
  took : Took (nextBlock r) (fun g => (b, r', g)) (u32 o 4 input).toNat input rest
  describes : Describes ⟨o, input.take (u32 o 4 input).toNat⟩ b

theorem nextBlock_framed {r r' : Reader} {input rest : Bytes} {b : Block}
    (h : nextBlock r input = .ok (b, r', rest)) :
    Framed r input (frameOrder r.endian input) b r' rest := by
  unfold nextBlock at h
  obtain ⟨⟨header, input₁⟩, hheader, h⟩ := Result.bind_eq_ok.mp h
  obtain ⟨hlen, heq⟩ := readExact_eq_ok.mp hheader
  obtain ⟨hhead, hrest⟩ := Prod.mk.inj heq
  dsimp only at h
  have hfour : header.take 4 = input.take 4 := by
    rw [hhead, List.take_take]
    rfl
  have hfield : ∀ o pos, pos + 4 ≤ 8 → u32 o pos header = u32 o pos input := by
    intro o pos hpos
    rw [hhead, u32_take _ hpos]
  by_cases hsec : header.take 4 = [10, 13, 13, 10]
  · have htype : input.take 4 = sectionType := hfour.symm.trans hsec
    rw [if_pos hsec] at h
    obtain rfl := readSection_block h
    obtain ⟨horder, hsize, htook⟩ := readSection_took h
    rw [hfield _ 4 (by decide)] at hsize htook
    rw [hrest] at horder
    have hframe : frameOrder r.endian input = r'.endian := by
      rw [frameOrder, if_pos htype, horder]
      rfl
    rw [hframe]
    refine ⟨rfl, by omega, ?_, ?_⟩
    · unfold nextBlock
      refine ((readExact_took hheader).bind (m := (u32 r'.endian 4 input).toNat - 8) ?_).cast
        (by omega)
      simp only [if_pos hsec]
      exact htook
    · show u32 _ 0 _ = _
      rw [u32_take _ (by omega)]
      exact u32_sectionType _ _ htype
  · have hframe : frameOrder r.endian input = r.endian := by
      rw [frameOrder, if_neg]
      rw [← hfour]
      exact hsec
    rw [if_neg hsec] at h
    obtain ⟨hin, h⟩ := ensure_bind_eq_ok.mp h
    rw [ensure_bind_eq_ok, hfield _ 4 (by decide), hfield _ 0 (by decide)] at h
    obtain ⟨hsize, h⟩ := h
    rw [hframe]
    have hopen : ∀ i, readExact 8 "truncated pcapng block header" (input.take 8 ++ i) = .ok (header, i) :=
      fun i => by rw [hhead, readExact_append (by rw [List.length_take, min_eq_left hlen])]
    have hkind : ∀ n, (Frame.mk r.endian (input.take (u32 r.endian 4 input).toNat)).kind = n ↔
        u32 r.endian 0 input = n := by
      intro n
      rw [Frame.kind, u32_take _ (by omega)]
    by_cases hone : u32 r.endian 0 input = 1
    · rw [if_pos hone] at h
      obtain ⟨rfl, hendian⟩ := readInterface_block h
      refine ⟨hendian, hsize.1, ?_, (hkind 1).mpr hone⟩
      refine ((readInterface_took h).after (n := 8) hlen hrest fun i => ?_).cast (by omega)
      simp only [nextBlock, hopen, Result.ok_bind, if_neg hsec, ensure_of _ hin, hfield _ 4 (by decide),
        hfield _ 0 (by decide), ensure_of _ hsize, if_pos hone]
    · rw [if_neg hone] at h
      by_cases hsix : u32 r.endian 0 input = 6
      · rw [if_pos hsix] at h
        obtain ⟨⟨event, rfl⟩, hendian, hlow, hfits⟩ := readPacket_block h
        refine ⟨hendian, hsize.1, ?_, (hkind 6).mpr hsix, ?_⟩
        · refine ((readPacket_took h).after (n := 8) hlen hrest fun i => ?_).cast (by omega)
          simp only [nextBlock, hopen, Result.ok_bind, if_neg hsec, ensure_of _ hin,
            hfield _ 4 (by decide), hfield _ 0 (by decide), ensure_of _ hsize, if_neg hone, if_pos hsix]
        · rw [hrest] at hfits ⊢
          simp only [u32_drop, List.drop_drop, Nat.reduceAdd] at hfits ⊢
          rw [Frame.packet]
          dsimp only
          rw [u32_take _ (by omega), u32_take _ (by omega), u32_take _ (by omega), List.drop_take,
            List.take_take, min_eq_left (by omega)]
      · rw [if_neg hsix] at h
        by_cases hlegacy : u32 r.endian 0 input = 2 ∨ u32 r.endian 0 input = 3
        · rw [if_pos hlegacy] at h
          cases h
        · rw [if_neg hlegacy] at h
          obtain ⟨input₂, hskip, h⟩ := Result.bind_eq_ok.mp h
          obtain ⟨input₃, hfooter, h⟩ := Result.bind_eq_ok.mp h
          cases h
          refine ⟨rfl, hsize.1, ?_, fun hk => hone ((hkind 1).mp hk), fun hk => hsix ((hkind 6).mp hk)⟩
          refine ((skip_footer_took _ hskip hfooter).after (n := 8) hlen hrest fun i => ?_).cast
            (by omega)
          simp only [nextBlock, hopen, Result.ok_bind, if_neg hsec, ensure_of _ hin,
            hfield _ 4 (by decide), hfield _ 0 (by decide), ensure_of _ hsize, if_neg hone,
            if_neg hsix, if_neg hlegacy]

/-- A file that is read to the end is read frame by frame. -/
theorem readBlocks_framed {count fuel : Nat} {r r' : Reader} {input : Bytes} {blocks : List Block}
    (h : readBlocks count r input = .ok (blocks, r', [])) (hfuel : input.length ≤ fuel) :
    List.Forall₂ Describes (frames fuel r.endian input) blocks := by
  induction count generalizing fuel r input blocks with
  | zero =>
    cases h
    cases fuel <;> exact .nil
  | succ count ih =>
    rw [readBlocks] at h
    split at h
    · cases h
      cases fuel <;> exact .nil
    · rename_i hne
      obtain ⟨⟨b, r₁, input₁⟩, hb, h⟩ := Result.bind_eq_ok.mp h
      obtain ⟨⟨bs, r₂, input₂⟩, hbs, h⟩ := Result.bind_eq_ok.mp h
      cases h
      obtain ⟨hendian, hsize, htook, hdescribes⟩ := nextBlock_framed hb
      have hpos := List.length_pos_iff.mpr hne
      obtain ⟨fuel, rfl⟩ : ∃ k, fuel = k + 1 := ⟨fuel - 1, by omega⟩
      rw [frames, if_neg hne]
      refine .cons hdescribes ?_
      rw [← htook.left, ← hendian]
      refine ih hbs ?_
      rw [htook.left, List.length_drop]
      omega

theorem Reads.framed {input : Bytes} {blocks : List Block} {r : Reader} (h : Reads input blocks r) :
    List.Forall₂ Describes (framesOf input) blocks := by
  obtain ⟨count, h⟩ := h
  exact readBlocks_framed h le_rfl

/-! ## Losses -/

/-- The Enhanced Packet Blocks of a file. -/
def packetFrames (input : Bytes) : List Frame := (framesOf input).filter fun f => f.kind = 6

/-- The URB length field of a packet. -/
def Frame.urbLength (f : Frame) : UInt32 := u32 f.endian 32 f.packet.captured

/-- An event that has all the data of its packet. -/
structure Intact (f : Frame) (e : Event) : Prop where
  captured : f.packet.captured.length = f.packet.original.toNat
  flag : e.metadata.hasData = 0 → e.metadata.payloadLen = 0
  length : e.metadata.transferType ≠ 0 → e.metadata.hasData ≠ 0 →
    e.metadata.payloadLen = f.urbLength
  present : e.metadata.dataPhase = true →
    (if e.metadata.transferType = 0 then ∃ d ∈ e.iso, d.length ≠ 0 else f.urbLength ≠ 0) →
    e.metadata.hasData ≠ 0
  inside : e.metadata.hasData ≠ 0 → ∀ d ∈ e.iso, d.length ≠ 0 →
    d.offset.toNat + d.length.toNat ≤ e.metadata.payloadLen.toNat
  /-- The bytes behind the block header, the pseudoheader and the descriptors. -/
  payload : e.payload.length = e.metadata.payloadLen.toNat ∧
    e.payload = (f.bytes.drop (28 + 64 + 16 * e.iso.length)).take e.metadata.payloadLen.toNat

theorem Parsed.intact {r : Reader} {f : Frame} {e : Event} (h : Parsed r f.packet e)
    (hkept : lostData e.metadata e.iso (Pcapng.wireLen e.metadata) = false) : Intact f e := by
  have hwell := h.wellformed hkept
  have hwire : Pcapng.wireLen e.metadata = f.urbLength := by
    rw [h.wireLen, Frame.urbLength, ← h.endian]
    rfl
  unfold lostData expectedData at hkept
  rw [Bool.or_eq_false_iff, hwire] at hkept
  refine ⟨h.captured, fun hzero => hwell.data.resolve_left fun hne => hne hzero, ?_, ?_, hwell.inside,
    hwell.length, ?_⟩
  · intro ht hdata
    simpa [ht, hdata] using hkept.2
  · intro hphase hnonempty hzero
    split at hnonempty
    · rename_i ht
      obtain ⟨d, hd, hlen⟩ := hnonempty
      have hall := hkept.1
      simp only [hphase, ht, hzero, if_true, beq_self_eq_true, Bool.and_true, Bool.true_and,
        List.any_eq_false, decide_eq_true_eq, not_not] at hall
      exact hlen (hall d hd)
    · rename_i ht
      have hall := hkept.1
      simp only [hphase, ht, hzero, if_false, beq_self_eq_true, Bool.and_true, Bool.true_and,
        decide_eq_false_iff_not, not_not] at hall
      exact hnonempty hall
  · have hpayload := h.payload
    have hlen := hwell.length
    rw [Frame.packet, List.drop_take, List.drop_drop] at hpayload
    rw [hpayload, List.length_take] at hlen
    rw [hpayload, Nat.add_assoc 28, ← hlen]
    simp

theorem delivered_append (blocks : List Block) (b : Block) :
    delivered (blocks ++ [b]) = delivered blocks ++ b.event.toList := by
  rw [delivered, delivered, List.filterMap_append]
  cases hb : b.event <;> simp [hb]

def Block.isPacket : Block → Bool
  | .packet _ _ => true
  | _ => false

/-- Every packet is delivered or counted. -/
def Counted (blocks : List Block) (r : Reader) : Prop :=
  blocks.countP Block.isPacket = (delivered blocks).length + r.incomplete

theorem Counted.step {blocks : List Block} {r r' : Reader} {b : Block} (h : Counted blocks r)
    (hmove : Moves r b r') : Counted (blocks ++ [b]) r' := by
  unfold Counted at h ⊢
  rw [List.countP_append, h, delivered_append, List.length_append, List.countP_singleton]
  cases hmove with
  | sectionHeader => simp [Block.isPacket, Block.event]
  | interface => simp [Block.isPacket, Block.event]
  | unknown => simp [Block.isPacket, Block.event]
  | truncated =>
    simp only [Block.isPacket, Block.event, Option.toList_none, List.length_nil, if_true]
    omega
  | lost =>
    simp only [Block.isPacket, Block.event, Option.toList_none, List.length_nil, if_true]
    omega
  | delivered =>
    simp only [Block.isPacket, Block.event, Option.toList_some, List.length_singleton, if_true]
    omega

/-- The frames of the delivered packets, in order. -/
theorem intact_of_describes {fs : List Frame} {blocks : List Block}
    (h : List.Forall₂ Describes fs blocks)
    (hwhole : ∀ p e, Block.packet p (some e) ∈ blocks → ∃ r, Parsed r p e ∧
      lostData e.metadata e.iso (wireLen e.metadata) = false) :
    (fs.filter fun f => f.kind = 6).length = blocks.countP Block.isPacket ∧
      ∃ whole, whole.Sublist (fs.filter fun f => f.kind = 6) ∧
        List.Forall₂ Intact whole (delivered blocks) := by
  induction h with
  | nil => exact ⟨rfl, [], List.Sublist.refl _, .nil⟩
  | @cons f b fs blocks hfb _ ih =>
    obtain ⟨hcount, whole, hsub, hall⟩ := ih fun p e hmem => hwhole p e (List.mem_cons_of_mem _ hmem)
    have hother : f.kind ≠ 6 → b.isPacket = false → b.event = none →
        ((f :: fs).filter fun f => f.kind = 6).length = (b :: blocks).countP Block.isPacket ∧
          ∃ whole, whole.Sublist ((f :: fs).filter fun f => f.kind = 6) ∧
            List.Forall₂ Intact whole (delivered (b :: blocks)) := by
      intro hk hp he
      rw [List.filter_cons_of_neg (by simpa using hk), List.countP_cons_of_neg (by simp [hp]),
        delivered, List.filterMap_cons_none he]
      exact ⟨hcount, whole, hsub, hall⟩
    cases b with
    | sectionHeader =>
      refine hother ?_ rfl rfl
      rw [show f.kind = 0x0a0d0d0a from hfb]
      decide
    | interface =>
      refine hother ?_ rfl rfl
      rw [show f.kind = 1 from hfb]
      decide
    | unknown => exact hother hfb.2 rfl rfl
    | packet p event =>
      obtain ⟨hkind, rfl⟩ := hfb
      rw [List.filter_cons_of_pos (by simpa using hkind), List.countP_cons_of_pos rfl,
        List.length_cons, hcount]
      refine ⟨rfl, ?_⟩
      cases event with
      | none =>
        rw [delivered, List.filterMap_cons_none rfl]
        exact ⟨whole, hsub.cons _, hall⟩
      | some e =>
        obtain ⟨r, hp, hkept⟩ := hwhole f.packet e (List.mem_cons_self ..)
        refine ⟨f :: whole, hsub.cons_cons _, ?_⟩
        show List.Forall₂ Intact (f :: whole) (e :: delivered blocks)
        exact .cons (hp.intact hkept) hall

/-- Of a file that is read to the end, every packet block is delivered or
counted as incomplete, and what is delivered has all its data. -/
theorem packets_delivered_or_counted {input : Bytes} {blocks : List Block} {r : Reader}
    (h : Reads input blocks r) :
    (packetFrames input).length = (delivered blocks).length + r.incomplete ∧
      ∃ whole, whole.Sublist (packetFrames input) ∧
        List.Forall₂ Intact whole (delivered blocks) := by
  obtain ⟨count, hread⟩ := h
  have hcounted : Counted ([] ++ blocks) r :=
    readBlocks_rule (fun _ _ _ _ hc hmove => hc.step hmove) (show Counted [] Reader.new from rfl) hread
  rw [List.nil_append] at hcounted
  obtain ⟨hlen, hwhole⟩ := intact_of_describes (Reads.framed ⟨count, hread⟩) (delivered_parsed hread)
  exact ⟨hlen.trans hcounted, hwhole⟩

theorem packets_delivered_or_counted_stale : ∃ r, Reads staleFile staleBlocks r ∧
    (packetFrames staleFile).length = (delivered staleBlocks).length + r.incomplete ∧
    ∃ whole, whole.Sublist (packetFrames staleFile) ∧
      List.Forall₂ Intact whole (delivered staleBlocks) := by
  obtain ⟨r, hread⟩ := readBlocks_of_blocksOf (show blocksOf 5 staleFile = some staleBlocks by
    decide +kernel)
  exact ⟨r, ⟨5, hread⟩, packets_delivered_or_counted ⟨5, hread⟩⟩

end UsbScope.Pcapng
