import UsbScope.Ebpf.Arm64
import UsbScope.Ebpf.Scatter
import UsbScope.Filter.Parse

/-! # The running kernel's configuration

`arm64_memory` reads the memory layout of the running kernel from its
configuration, its page size and its release. Whatever it returns is a layout
that `core_sg_segment` translates exactly. -/
namespace UsbScope.App.KernelConfig
open UsbScope.Lib UsbScope.Ebpf

/-! ## Text -/

/-- `str::lines`, from the reversed start of a line: a line ends with `\n` or
`\r\n`, the last one also without. -/
def linesFrom : List Char → List Char → List (List Char)
  | line, [] => if line = [] then [] else [line.reverse]
  | line, c :: rest =>
    if c = '\n' then
      (match line with
        | '\r' :: line => line.reverse
        | line => line.reverse) :: linesFrom [] rest
    else linesFrom (c :: line) rest

def lines (text : List Char) : List (List Char) := linesFrom [] text

def splitOnce (sep : Char) (text : List Char) : Option (List Char × List Char) :=
  if sep ∈ text then
    some (text.takeWhile fun c => c ≠ sep, (text.dropWhile fun c => c ≠ sep).tail)
  else none

def trim (text : List Char) : List Char :=
  ((text.dropWhile Filter.isWhitespace).reverse.dropWhile Filter.isWhitespace).reverse

/-- `str::parse::<u32>`. -/
def parseU32 (text : List Char) : Option UInt32 :=
  (Filter.inRange 0 (2 ^ 32 - 1) (Filter.fromStrRadix 10 false text)).map fun v =>
    UInt32.ofNat v.toNat

/-! ## `arm64_memory` -/

def releaseVersion (release : String) : Option (UInt32 × UInt32) :=
  match (trim release.toList).splitOn '.' with
  | major :: minor :: _ => do
    let major ← parseU32 major
    let minor ← parseU32 minor
    some (major, minor)
  | _ => none

def before (version bound : UInt32 × UInt32) : Bool :=
  version.1 < bound.1 || (version.1 == bound.1 && version.2 < bound.2)

def optionValue (config : String) (key : String) : Option String :=
  (lines config.toList).findSome? fun line => do
    let (name, value) ← splitOnce '=' line
    if String.ofList name = key then some (String.ofList value) else none

/-- The page shift, the option and the address sizes of a page size. -/
def pageOption (pageSize : UInt32) : Option (UInt32 × String × List UInt32) :=
  if pageSize = 4096 then some (12, "CONFIG_ARM64_4K_PAGES", [39, 48])
  else if pageSize = 16384 then some (14, "CONFIG_ARM64_16K_PAGES", [36, 47, 48])
  else if pageSize = 65536 then some (16, "CONFIG_ARM64_64K_PAGES", [42, 48, 52])
  else none

def arm64Memory (config : String) (pageSize : UInt32) (release : String) : Option SgMemory := do
  let version ← releaseVersion release
  if before version (5, 17) then none
  else
    let layout := if before version (6, 9) then sgArm64Legacy else sgArm64Compact
    if optionValue config "CONFIG_ARM64" ≠ some "y" ∨
        optionValue config "CONFIG_SPARSEMEM_VMEMMAP" ≠ some "y" ∨
        optionValue config "CONFIG_KASAN_SW_TAGS" = some "y" ∨
        optionValue config "CONFIG_KASAN_HW_TAGS" = some "y" then none
    else
      let (pageShift, option, validBits) ← pageOption pageSize
      let bits ← optionValue config "CONFIG_ARM64_VA_BITS"
      let vaBits ← parseU32 bits.toList
      if optionValue config option ≠ some "y" ∨ vaBits ∉ validBits then none
      else
        some
          { vmemmapSymbol := 0
            pageOffsetSymbol := 0
            pageShift := pageShift
            vaBits := vaBits
            layout := layout }

/-- A page size selects sizes that `core_sg_segment` takes. -/
theorem pageOption_sizes {pageSize shift bits : UInt32} {option : String} {valid : List UInt32}
    (h : pageOption pageSize = some (shift, option, valid)) (hbits : bits ∈ valid) :
    ∃ z : Arm64.Sizes, z.Describes shift bits := by
  have hsome : ∀ n : Nat, (n = 12 ∨ n = 14 ∨ n = 16) → shift.toNat = n →
      36 ≤ bits.toNat ∧ bits.toNat ≤ 52 → ∃ z : Arm64.Sizes, z.Describes shift bits :=
    fun n hn hshift hb => ⟨⟨n, bits.toNat, hn, hb.1, hb.2⟩, hshift, rfl⟩
  unfold pageOption at h
  split at h
  · cases h
    refine hsome 12 (by decide) rfl ?_
    fin_cases hbits <;> decide
  split at h
  · cases h
    refine hsome 14 (by decide) rfl ?_
    fin_cases hbits <;> decide
  split at h
  · cases h
    refine hsome 16 (by decide) rfl ?_
    fin_cases hbits <;> decide
  · cases h

theorem arm64Memory_some {config release : String} {pageSize : UInt32} {m : SgMemory}
    (h : arm64Memory config pageSize release = some m) :
    ∃ version, releaseVersion release = some version ∧
      m.layout = (if before version (6, 9) then sgArm64Legacy else sgArm64Compact) ∧
      ∃ z : Arm64.Sizes, z.Describes m.pageShift m.vaBits := by
  unfold arm64Memory at h
  simp only [Option.bind_eq_bind, Option.bind_eq_some_iff] at h
  obtain ⟨version, hversion, h⟩ := h
  refine ⟨version, hversion, ?_⟩
  split at h
  · cases h
  split at h
  · cases h
  obtain ⟨⟨shift, option, valid⟩, hoption, h⟩ := Option.bind_eq_some_iff.mp h
  obtain ⟨text, -, h⟩ := Option.bind_eq_some_iff.mp h
  obtain ⟨bits, -, h⟩ := Option.bind_eq_some_iff.mp h
  split at h
  · cases h
  · rename_i hvalid
    cases h
    exact ⟨rfl, pageOption_sizes hoption (not_not.mp (not_or.mp hvalid).2)⟩

/-! ## The translation -/

/-- `core_sg_segment` under the configuration `m` inverts `page_to_virt`, with
`vmemmap` the start of the records of `struct page`. -/
structure Translates (view : SgView) (m : SgMemory) (vmemmap : Nat) : Prop where
  /-- No shift is too wide and no word wraps but the negated bases; after an
  entry that is not the last there is room for another. -/
  translation : ∀ link,
    view.pageAddressChecked m link = .ok (view.pageAddress .arm64 m link)
  checked : ∀ address : UInt64,
    ((∃ link, view.pageLink address = some link ∧ link &&& 2 ≠ 0) ∨
      address.toNat + view.stride.toNat < 2 ^ 64) →
    view.segmentChecked m address = .ok (view.segment .arm64 m address)
  /-- An accepted link is a page of the direct mapping. -/
  accepted : ∀ link page, view.pageAddress .arm64 m link = some page →
    ∃ pfn < Arm64.pages m.pageShift.toNat m.vaBits.toNat,
      (pagePointer link).toNat = vmemmap + pfn * view.pageSize.toNat ∧
      page.toNat = Arm64.pageOffset m.vaBits.toNat + pfn * 2 ^ m.pageShift.toNat ∧
      2 ^ m.pageShift.toNat ∣ page.toNat ∧ Arm64.pageOffset m.vaBits.toNat ≤ page.toNat ∧
      page.toNat < Arm64.pageEnd m.pageShift.toNat m.vaBits.toNat
  distinct : ∀ link link' page, view.pageAddress .arm64 m link = some page →
    view.pageAddress .arm64 m link' = some page → pagePointer link = pagePointer link'
  /-- The segment starts at its offset in that page. -/
  source : ∀ address segment, view.segment .arm64 m address = some segment →
    ∃ link page offset, view.pageLink address = some link ∧
      view.pageAddress .arm64 m link = some page ∧ view.offset address = some offset ∧
      segment.source.toNat = page.toNat + offset.toNat
  /-- The last entry of a list may name every page. -/
  last : ∀ (address : UInt64) (pfn : Nat) (offset length : UInt32),
    pfn < Arm64.pages m.pageShift.toNat m.vaBits.toNat →
    4 ∣ vmemmap + pfn * view.pageSize.toNat →
    view.pageLink address = some (UInt64.ofNat (vmemmap + pfn * view.pageSize.toNat + 2)) →
    view.offset address = some offset → view.length address = some length →
    view.segment .arm64 m address =
      some ⟨UInt64.ofNat (Arm64.pageOffset m.vaBits.toNat + pfn * 2 ^ m.pageShift.toNat) +
        offset.toUInt64, 0, length⟩

theorem translates_of_describes {l : Arm64.Layout} {view : SgView} {m : SgMemory}
    (h : l.Describes m view.pageSize) : Translates view m l.vmemmap.base := by
  have hslot : ∀ pfn, l.vmemmap.base + pfn * view.pageSize.toNat = l.vmemmap.slot pfn := fun pfn => by
    rw [h.size_eq]
    rfl
  have hpage : ∀ pfn, Arm64.pageOffset m.vaBits.toNat + pfn * 2 ^ m.pageShift.toNat =
      l.direct.slot pfn := fun pfn => by
    rw [h.sizes.shift_eq, h.sizes.bits_eq]
    rfl
  constructor
  · exact fun link => Arm64.pageAddressChecked_eq h link
  · exact fun address hnext => Arm64.segmentChecked_eq h address hnext
  · intro link page hlink
    obtain ⟨pfn, hpfn, hptr, htoNat⟩ := Table.of_translate (Arm64.pageAddress_some h hlink)
    have hlimit := l.direct.slot_lt_limit hpfn
    rw [l.limit_direct] at hlimit
    rw [h.sizes.shift_eq, h.sizes.bits_eq] at hpage ⊢
    refine ⟨pfn, hpfn, hptr.trans (hslot pfn).symm, htoNat.trans (hpage pfn).symm, ?_, ?_, ?_⟩
    · rw [htoNat]
      exact l.direct.dvd_slot l.dvd_pageOffset pfn
    · rw [htoNat]
      exact Nat.le_add_right _ _
    · rw [htoNat]
      exact hlimit
  · intro link link' page hlink hlink'
    exact UInt64.toNat_inj.mp (Table.translate_inj (Arm64.pageAddress_some h hlink)
      (Arm64.pageAddress_some h hlink'))
  · intro address segment hseg
    obtain ⟨link, page, offset, hlink, haddr, hoffset, hsource⟩ := SgView.segment_some hseg
    refine ⟨link, page, offset, hlink, haddr, hoffset, ?_⟩
    rw [hsource, UInt64.toNat_add, Nat.mod_eq_of_lt (Arm64.page_add_offset h offset haddr),
      UInt32.toNat_toUInt64]
  · intro address pfn offset length hpfn h4 hlink hoffset hlength
    rw [h.sizes.shift_eq, h.sizes.bits_eq] at hpfn
    rw [hslot] at h4 hlink
    have hlimit := (l.vmemmap.slot_lt_limit hpfn).trans_le l.vmemmap_bounds.2
    have htoNat : (UInt64.ofNat (l.vmemmap.slot pfn + 2)).toNat = l.vmemmap.slot pfn + 2 :=
      UInt64.toNat_ofNat_of_lt' (by simp only [UInt64.size]; omega)
    have haddr := Arm64.pageAddress_last h hpfn h4 htoNat
    obtain ⟨-, hlast, -, -⟩ := Arm64.flags_of_last htoNat h4
    unfold SgView.segment
    rw [hlink, hoffset, hlength, hpage]
    simp only [Option.bind_eq_bind, Option.bind_some, haddr]
    rw [if_pos hlast]

/-- Every segment that `copy_sg` walks starts in a page of the direct mapping. -/
theorem Translates.entries {view : SgView} {m : SgMemory} {vmemmap : Nat}
    (h : Translates view m vmemmap) {k : Kernel} {n : Nat} {address : UInt64}
    {segs : List SgSegment} (hentries : Entries (k.withView view .arm64) m n address segs) :
    ∀ s ∈ segs, ∃ pfn < Arm64.pages m.pageShift.toNat m.vaBits.toNat, ∃ offset : UInt32,
      s.source.toNat =
        Arm64.pageOffset m.vaBits.toNat + pfn * 2 ^ m.pageShift.toNat + offset.toNat := by
  induction segs generalizing n address with
  | nil => nofun
  | cons first rest ih =>
    rcases hentries.next with ⟨hnil, -⟩ | ⟨s, rest', n', hsegs, -, -, hsegment, hrest⟩
    · cases hnil
    cases hsegs
    intro s hs
    rcases List.mem_cons.mp hs with rfl | hs
    · obtain ⟨link, page, offset, -, hpage, -, hsource⟩ := h.source address s hsegment
      obtain ⟨pfn, hpfn, -, hdirect, -⟩ := h.accepted link page hpage
      exact ⟨pfn, hpfn, offset, by rw [hsource, hdirect]⟩
    · exact ih hrest s hs

/-- Every mapping that `arm64_memory` returns is translated exactly, with Linux's
`VMEMMAP_START` of the release. -/
theorem arm64Memory_translates (config : String) (pageSize : UInt32) (release : String)
    (m : SgMemory) (view : SgView) (h : arm64Memory config pageSize release = some m)
    (hsize : 1 ≤ view.pageSize.toNat ∧ view.pageSize.toNat ≤ 4096)
    (horder : m.layout = sgArm64Legacy → Nat.clog 2 view.pageSize.toNat < m.pageShift.toNat) :
    ∃ version, releaseVersion release = some version ∧
      Translates view m (Arm64.vmemmapStart (!before version (6, 9)) m.pageShift.toNat
        m.vaBits.toNat view.pageSize.toNat) := by
  obtain ⟨version, hversion, hlayout, z, hz⟩ := arm64Memory_some h
  have hcompact : m.layout =
      if (!before version (6, 9)) = true then sgArm64Compact else sgArm64Legacy := by
    rw [hlayout]
    cases before version (6, 9) <;> rfl
  let l : Arm64.Layout :=
    { toSizes := z
      size := view.pageSize.toNat
      compact := !before version (6, 9)
      size_pos := hsize.1
      size_le := hsize.2
      order := fun hc => by
        rw [← hz.shift_eq]
        exact horder (by rw [hcompact, hc]; rfl) }
  refine ⟨version, hversion, ?_⟩
  have htrans : Translates view m l.vmemmap.base := translates_of_describes ⟨hz, rfl, hcompact⟩
  rw [hz.shift_eq, hz.bits_eq]
  exact htrans

def config64k : String :=
  "CONFIG_ARM64=y\nCONFIG_SPARSEMEM_VMEMMAP=y\nCONFIG_ARM64_64K_PAGES=y\nCONFIG_ARM64_VA_BITS=48\n"

/-- One last entry, for the second page of the direct mapping. -/
def secondPage : SgView :=
  { pageLink := fun address =>
      if address = 0x1000 then some (UInt64.ofNat (2 ^ 64 - 2 ^ 38 + 64 + 2)) else none
    offset := fun address => if address = 0x1000 then some 8 else none
    length := fun address => if address = 0x1000 then some 512 else none
    word := fun _ => none
    pageSize := 64
    stride := 32 }

theorem arm64Memory_translates_64k :
    arm64Memory config64k 65536 "6.6.142" = some ⟨0, 0, 16, 48, 1⟩ ∧
      secondPage.segment .arm64 ⟨0, 0, 16, 48, 1⟩ 0x1000 =
        some ⟨UInt64.ofNat (2 ^ 64 - 2 ^ 48 + 2 ^ 16) + 8, 0, 512⟩ := by
  have hconfig : arm64Memory config64k 65536 "6.6.142" = some ⟨0, 0, 16, 48, 1⟩ := rfl
  obtain ⟨version, hversion, htrans⟩ := arm64Memory_translates config64k 65536 "6.6.142"
    ⟨0, 0, 16, 48, 1⟩ secondPage hconfig (by decide) (fun _ => by decide)
  obtain rfl : (6, 6) = version := by
    have hrelease : releaseVersion "6.6.142" = some (6, 6) := rfl
    exact Option.some.inj (hrelease.symm.trans hversion)
  refine ⟨hconfig, ?_⟩
  exact htrans.last 0x1000 1 8 512 (by decide) (by decide) rfl rfl rfl

end UsbScope.App.KernelConfig
