import UsbScope.Ebpf.Probe
import UsbScope.Lib.Table

/-! # Scatter-gather segments

`core_sg_segment` reads one entry of a scatterlist and translates its page to
the kernel's direct mapping. Both sides of the translation are tables with one
record for every page: `struct page` in `vmemmap`, the page itself in the direct
mapping (`Arm64.Layout`). -/
namespace UsbScope.Ebpf
open UsbScope.Lib UsbScope.Common

def sgArm64Legacy : UInt32 := 1

def sgArm64Compact : UInt32 := 2

inductive Arch where
  | arm64
  | x86

/-- What `core_sg_segment` reads: the fields of a `struct scatterlist`, words of
memory, and the sizes of `struct page` and `struct scatterlist`. -/
structure SgView where
  pageLink : UInt64 → Option UInt64
  offset : UInt64 → Option UInt32
  length : UInt64 → Option UInt32
  word : UInt64 → Option UInt64
  pageSize : UInt32
  stride : UInt32

/-! ## `core_sg_segment` -/

/-- `vmemmap`, `direct` and `max_pages`. -/
structure Mapping where
  vmemmap : UInt64
  direct : UInt64
  maxPages : UInt64

/-- The loop for `STRUCT_PAGE_MAX_SHIFT`. -/
def structPageOrder (pageSize : UInt32) : UInt32 :=
  Loop.run (fun _ order => if pageSize ≤ 1 <<< order then (true, order) else (false, order + 1))
    12 0 0

def arm64Mapping (memory : SgMemory) (pageSize : UInt32) : Option Mapping :=
  let shift := memory.pageShift
  let bits := memory.vaBits
  if (shift ≠ 12 ∧ shift ≠ 14 ∧ shift ≠ 16) ∨ bits < 36 ∨ 52 < bits then none
  else if pageSize = 0 ∨ 4096 < pageSize then none
  else
    let direct : UInt64 := 0 - ((1 : UInt64) <<< bits.toUInt64)
    let minBits := if 48 < bits then (if shift = 14 then 47 else 48) else bits
    let stop : UInt64 := 0 - ((1 : UInt64) <<< (minBits - 1).toUInt64)
    let maxPages := (stop - direct) >>> shift.toUInt64
    if memory.layout = sgArm64Legacy then
      let order := structPageOrder pageSize
      if shift ≤ order then none
      else some ⟨0 - ((1 : UInt64) <<< (bits - shift + order).toUInt64), direct, maxPages⟩
    else if memory.layout = sgArm64Compact then
      some ⟨((0 : UInt64) - ((1 : UInt64) <<< 30)) - maxPages * pageSize.toUInt64, direct, maxPages⟩
    else none

def x86Mapping (view : SgView) (memory : SgMemory) : Option Mapping :=
  if memory.pageShift ≠ 12 ∨ memory.vmemmapSymbol = 0 ∨ memory.pageOffsetSymbol = 0 then none
  else do
    let vmemmap ← view.word memory.vmemmapSymbol
    let direct ← view.word memory.pageOffsetSymbol
    some ⟨vmemmap, direct, (1 : UInt64) <<< 40⟩

def Arch.mapping (view : SgView) (memory : SgMemory) : Arch → Option Mapping
  | .arm64 => arm64Mapping memory view.pageSize
  | .x86 => x86Mapping view memory

/-- The address of a page, from the pointer to its `struct page`. -/
def Mapping.address (m : Mapping) (pageSize shift : UInt32) (page : UInt64) : Option UInt64 :=
  if m.vmemmap = 0 ∨ m.direct = 0 ∨ pageSize = 0 ∨ page < m.vmemmap ∨
      (page - m.vmemmap) % pageSize.toUInt64 ≠ 0 then none
  else
    let pfn := (page - m.vmemmap) / pageSize.toUInt64
    if m.maxPages ≤ pfn then none else some (m.direct + (pfn <<< shift.toUInt64))

/-- The pointer to `struct page` in a `page_link`. -/
def pagePointer (link : UInt64) : UInt64 := link &&& ~~~3

namespace SgView

/-- The address that an accepted `page_link` stands for. -/
def pageAddress (view : SgView) (arch : Arch) (memory : SgMemory) (link : UInt64) :
    Option UInt64 :=
  if link &&& 1 ≠ 0 ∨ link = 0 then none
  else do
    let mapping ← arch.mapping view memory
    mapping.address view.pageSize memory.pageShift (pagePointer link)

/-- `core_sg_segment`. -/
def segment (view : SgView) (arch : Arch) (memory : SgMemory) (address : UInt64) :
    Option SgSegment := do
  let link ← view.pageLink address
  let offset ← view.offset address
  let length ← view.length address
  let page ← view.pageAddress arch memory link
  let source := page + offset.toUInt64
  if link &&& 2 ≠ 0 then some ⟨source, 0, length⟩
  else
    let next := address + view.stride.toUInt64
    let link ← view.pageLink next
    some ⟨source, if link &&& 1 ≠ 0 then pagePointer link else next, length⟩

end SgView

namespace SgView

/-- A segment starts at its offset in the page of its link. -/
theorem segment_some {view : SgView} {arch : Arch} {memory : SgMemory} {address : UInt64}
    {s : SgSegment} (h : view.segment arch memory address = some s) :
    ∃ link page offset, view.pageLink address = some link ∧
      view.pageAddress arch memory link = some page ∧ view.offset address = some offset ∧
      s.source = page + offset.toUInt64 := by
  obtain ⟨link, hlink, h⟩ := Option.bind_eq_some_iff.mp h
  obtain ⟨offset, hoffset, h⟩ := Option.bind_eq_some_iff.mp h
  obtain ⟨length, -, h⟩ := Option.bind_eq_some_iff.mp h
  obtain ⟨page, hpage, h⟩ := Option.bind_eq_some_iff.mp h
  refine ⟨link, page, offset, hlink, hpage, hoffset, ?_⟩
  dsimp only at h
  split at h
  · cases h
    rfl
  · obtain ⟨link', -, h⟩ := Option.bind_eq_some_iff.mp h
    cases h
    rfl

end SgView

/-- The kernel that a probe sees through such a view. -/
def Kernel.withView (k : Kernel) (view : SgView) (arch : Arch) : Kernel :=
  { k with segment := view.segment arch }

/-! ## The same arithmetic, checked -/

def structPageOrderChecked (pageSize : UInt32) : Checked UInt32 :=
  Loop.runChecked (fun _ order => do
    let size ← Checked.shl32 1 order
    if pageSize ≤ size then .ok (true, order)
    else do
      let order ← Checked.add32 order 1
      .ok (false, order)) 12 0 0

/-- `arm64Mapping`, where only the negations of the bases may wrap. -/
def arm64MappingChecked (memory : SgMemory) (pageSize : UInt32) : Checked (Option Mapping) :=
  let shift := memory.pageShift
  let bits := memory.vaBits
  if (shift ≠ 12 ∧ shift ≠ 14 ∧ shift ≠ 16) ∨ bits < 36 ∨ 52 < bits then .ok none
  else if pageSize = 0 ∨ 4096 < pageSize then .ok none
  else do
    let top ← Checked.shl64 1 bits.toUInt64
    let direct := 0 - top
    let minBits := if 48 < bits then (if shift = 14 then 47 else 48) else bits
    let low ← Checked.sub32 minBits 1
    let half ← Checked.shl64 1 low.toUInt64
    let stop := 0 - half
    let span ← Checked.sub64 stop direct
    let maxPages ← Checked.shr64 span shift.toUInt64
    if memory.layout = sgArm64Legacy then do
      let order ← structPageOrderChecked pageSize
      if shift ≤ order then .ok none
      else do
        let records ← Checked.sub32 bits shift
        let width ← Checked.add32 records order
        let size ← Checked.shl64 1 width.toUInt64
        .ok (some ⟨0 - size, direct, maxPages⟩)
    else if memory.layout = sgArm64Compact then do
      let gib ← Checked.shl64 1 30
      let size ← Checked.mul64 maxPages pageSize.toUInt64
      let vmemmap ← Checked.sub64 (0 - gib) size
      .ok (some ⟨vmemmap, direct, maxPages⟩)
    else .ok none

def Mapping.addressChecked (m : Mapping) (pageSize shift : UInt32) (page : UInt64) :
    Checked (Option UInt64) :=
  if m.vmemmap = 0 ∨ m.direct = 0 ∨ pageSize = 0 ∨ page < m.vmemmap then .ok none
  else do
    let distance ← Checked.sub64 page m.vmemmap
    if distance % pageSize.toUInt64 ≠ 0 then .ok none
    else
      let pfn := distance / pageSize.toUInt64
      if m.maxPages ≤ pfn then .ok none
      else do
        let start ← Checked.shl64 pfn shift.toUInt64
        let address ← Checked.add64 m.direct start
        .ok (some address)

namespace SgView

def pageAddressChecked (view : SgView) (memory : SgMemory) (link : UInt64) :
    Checked (Option UInt64) :=
  if link &&& 1 ≠ 0 ∨ link = 0 then .ok none
  else do
    match ← arm64MappingChecked memory view.pageSize with
    | none => .ok none
    | some mapping => mapping.addressChecked view.pageSize memory.pageShift (pagePointer link)

/-- `core_sg_segment` on arm64, checked. -/
def segmentChecked (view : SgView) (memory : SgMemory) (address : UInt64) :
    Checked (Option SgSegment) :=
  match view.pageLink address, view.offset address, view.length address with
  | some link, some offset, some length => do
    match ← view.pageAddressChecked memory link with
    | none => .ok none
    | some page => do
      let source ← Checked.add64 page offset.toUInt64
      if link &&& 2 ≠ 0 then .ok (some ⟨source, 0, length⟩)
      else do
        let next ← Checked.add64 address view.stride.toUInt64
        match view.pageLink next with
        | none => .ok none
        | some link =>
          .ok (some ⟨source, if link &&& 1 ≠ 0 then pagePointer link else next, length⟩)
  | _, _, _ => .ok none

end SgView
end UsbScope.Ebpf
