import UsbScope.Ebpf.Pages

/-! # The arm64 memory layout

The regions of `arch/arm64/include/asm/memory.h` as tables with one record for
every page, and `core_sg_segment` as the translation between them. -/
namespace UsbScope.Ebpf.Arm64
open UsbScope.Lib UsbScope.Common

/-! ## Linux's definitions -/

def vaBitsMin (shift bits : Nat) : Nat := if 48 < bits then (if shift = 14 then 47 else 48) else bits

def pageOffset (bits : Nat) : Nat := 2 ^ 64 - 2 ^ bits

def pageEnd (shift bits : Nat) : Nat := 2 ^ 64 - 2 ^ (vaBitsMin shift bits - 1)

/-- The pages of the direct mapping. -/
def pages (shift bits : Nat) : Nat := (pageEnd shift bits - pageOffset bits) >>> shift

/-- `VMEMMAP_START`, where the records of `struct page` are rounded up to a power
of two before 6.9 and end 1 GiB below the top since. -/
def vmemmapStart (compact : Bool) (shift bits size : Nat) : Nat :=
  if compact then 2 ^ 64 - 2 ^ 30 - pages shift bits * size
  else 2 ^ 64 - 2 ^ (bits - shift + Nat.clog 2 size)

/-- The page and address sizes that `core_sg_segment` takes. -/
structure Sizes where
  shift : Nat
  bits : Nat
  shift_mem : shift = 12 ∨ shift = 14 ∨ shift = 16
  low : 36 ≤ bits
  high : bits ≤ 52

namespace Sizes
variable (z : Sizes)

/-- The bits below `PAGE_END`. -/
def half : Nat := vaBitsMin z.shift z.bits - 1

theorem half_bounds : 35 ≤ z.half ∧ z.half < z.bits ∧ z.shift ≤ z.half := by
  have h1 := z.low
  have h2 := z.high
  have h3 := z.shift_mem
  unfold half vaBitsMin
  split
  · split <;> omega
  · omega

theorem pow_half_lt : 2 ^ z.half < 2 ^ z.bits :=
  Nat.pow_lt_pow_right (by decide) z.half_bounds.2.1

theorem pow_bits_le : 2 ^ z.bits ≤ 2 ^ 52 := Nat.pow_le_pow_right (by decide) z.high

theorem le_pow_half : 2 ^ 35 ≤ 2 ^ z.half := Nat.pow_le_pow_right (by decide) z.half_bounds.1

theorem span : pageEnd z.shift z.bits - pageOffset z.bits = 2 ^ z.bits - 2 ^ z.half := by
  have h1 := z.pow_half_lt
  have h2 := z.pow_bits_le
  unfold pageEnd pageOffset
  change 2 ^ 64 - 2 ^ z.half - _ = _
  omega

/-- The pages fill the direct mapping. -/
theorem pages_mul : pages z.shift z.bits * 2 ^ z.shift = 2 ^ z.bits - 2 ^ z.half := by
  obtain ⟨-, h1, h2⟩ := z.half_bounds
  rw [pages, span, Nat.shiftRight_eq_div_pow]
  exact Nat.div_mul_cancel (Nat.dvd_sub (Nat.pow_dvd_pow 2 (h2.trans h1.le)) (Nat.pow_dvd_pow 2 h2))

theorem pages_le : pages z.shift z.bits ≤ 2 ^ (z.bits - z.shift) := by
  have h1 := z.half_bounds
  have hpow : 2 ^ (z.bits - z.shift) * 2 ^ z.shift = 2 ^ z.bits := by
    rw [← Nat.pow_add, Nat.sub_add_cancel (h1.2.2.trans h1.2.1.le)]
  refine Nat.le_of_mul_le_mul_right ?_ (Nat.two_pow_pos z.shift)
  rw [z.pages_mul, hpow]
  exact Nat.sub_le _ _

theorem pages_le_pow : pages z.shift z.bits ≤ 2 ^ 40 := by
  refine z.pages_le.trans (Nat.pow_le_pow_right (by decide) ?_)
  have h1 := z.high
  have h2 := z.shift_mem
  omega

end Sizes

/-- Page and address sizes with the size of `struct page` and its placement. -/
structure Layout extends Sizes where
  size : Nat
  compact : Bool
  size_pos : 0 < size
  size_le : size ≤ 4096
  order : compact = false → Nat.clog 2 size < shift

namespace Layout
variable (l : Layout)

/-- One `struct page` for every page. -/
def vmemmap : Table :=
  ⟨vmemmapStart l.compact l.shift l.bits l.size, l.size, pages l.shift l.bits, l.size_pos⟩

/-- The pages themselves. -/
def direct : Table :=
  ⟨pageOffset l.bits, 2 ^ l.shift, pages l.shift l.bits, Nat.two_pow_pos l.shift⟩

theorem limit_direct : l.direct.limit = pageEnd l.shift l.bits := by
  have h1 := l.pow_half_lt
  have h2 := l.pow_bits_le
  change pageOffset l.bits + pages l.shift l.bits * 2 ^ l.shift = 2 ^ 64 - 2 ^ l.half
  rw [l.pages_mul]
  unfold pageOffset
  omega

theorem dvd_pageOffset : 2 ^ l.shift ∣ pageOffset l.bits := by
  obtain ⟨-, h1, h2⟩ := l.half_bounds
  have h3 := l.high
  exact Nat.dvd_sub (Nat.pow_dvd_pow 2 (by omega)) (Nat.pow_dvd_pow 2 (h2.trans h1.le))

theorem clog_le : Nat.clog 2 l.size ≤ 12 := Nat.clog_le_of_le_pow l.size_le

/-- The records before 6.9 fit the region that is rounded up for them. -/
theorem pages_mul_size_le :
    pages l.shift l.bits * l.size ≤ 2 ^ (l.bits - l.shift + Nat.clog 2 l.size) := by
  rw [Nat.pow_add]
  exact Nat.mul_le_mul l.pages_le (Nat.le_pow_clog (by decide) l.size)

theorem vmemmap_bounds : 0 < l.vmemmap.base ∧ l.vmemmap.limit ≤ 2 ^ 64 := by
  have h1 := l.high
  have h2 := l.shift_mem
  have h3 := l.clog_le
  have hpow : 2 ^ (l.bits - l.shift + Nat.clog 2 l.size) ≤ 2 ^ 52 :=
    Nat.pow_le_pow_right (by decide) (by omega)
  have hsize := l.pages_mul_size_le
  simp only [vmemmap, Table.limit, vmemmapStart]
  split <;> omega

end Layout

/-! ## The words of `core_sg_segment` -/

theorem toNat_one_shl {w : UInt64} (h : w.toNat < 64) : ((1 : UInt64) <<< w).toNat = 2 ^ w.toNat := by
  rw [UInt64.toNat_shiftLeft, Nat.mod_eq_of_lt h, UInt64.toNat_one, Nat.shiftLeft_eq, Nat.one_mul]
  exact Nat.mod_eq_of_lt (Nat.pow_lt_pow_right (by decide) h)

theorem toNat_neg {w : UInt64} (h : w.toNat < 64) :
    ((0 : UInt64) - ((1 : UInt64) <<< w)).toNat = 2 ^ 64 - 2 ^ w.toNat := by
  have hpos := Nat.two_pow_pos w.toNat
  rw [UInt64.toNat_sub, toNat_one_shl h, UInt64.toNat_zero, Nat.add_zero]
  exact Nat.mod_eq_of_lt (Nat.sub_lt (by decide) hpos)

theorem one_shl_le {size order : UInt32} (h : order.toNat < 12) :
    size ≤ 1 <<< order ↔ Nat.clog 2 size.toNat ≤ order.toNat := by
  have hlt : 2 ^ order.toNat < 2 ^ 32 := Nat.pow_lt_pow_right (by decide) (by omega)
  rw [UInt32.le_iff_toNat_le, UInt32.toNat_shiftLeft, Nat.mod_eq_of_lt (h.trans (by decide)),
    UInt32.toNat_one, Nat.shiftLeft_eq, Nat.one_mul, Nat.mod_eq_of_lt hlt]
  exact (Nat.clog_le_iff_le_pow (by decide)).symm

/-- The loop finds `STRUCT_PAGE_MAX_SHIFT`, the logarithm rounded up. -/
theorem toNat_structPageOrder {size : UInt32} (h : size.toNat ≤ 4096) :
    (structPageOrder size).toNat = Nat.clog 2 size.toNat := by
  have hmax : Nat.clog 2 size.toNat ≤ 12 := Nat.clog_le_of_le_pow h
  have hrun := Loop.run_rule
    (fun _ (order : UInt32) =>
      if size ≤ 1 <<< order then (true, order) else (false, order + 1))
    (I := fun j order => order.toNat = j ∧ j ≤ Nat.clog 2 size.toNat)
    (Q := fun order => order.toNat = Nat.clog 2 size.toNat) (n := 12) (i := 0) (s := 0)
    ⟨rfl, Nat.zero_le _⟩ ?_
  · rcases hrun with hQ | ⟨h1, h2⟩
    · exact hQ
    · exact h1.trans (le_antisymm h2 hmax)
  · intro j order b order' _ hj hI hb
    obtain ⟨rfl, hle⟩ := hI
    by_cases hstop : size ≤ 1 <<< order
    · rw [if_pos hstop] at hb
      cases hb
      exact .inr ⟨rfl, le_antisymm hle ((one_shl_le (by omega)).mp hstop)⟩
    · rw [if_neg hstop] at hb
      cases hb
      have hlt := fun hc => hstop ((one_shl_le (by omega)).mpr hc)
      refine .inl ⟨rfl, ?_, Nat.lt_of_not_le hlt⟩
      rw [UInt32.toNat_add]
      exact Nat.mod_eq_of_lt (by simp only [UInt32.toNat_one]; omega)

/-- `min_bits` of `core_sg_segment`. -/
def minBits (shift bits : UInt32) : UInt32 :=
  if 48 < bits then (if shift = 14 then 47 else 48) else bits

/-- The words of a configuration stand for the sizes. -/
structure Sizes.Describes (z : Sizes) (shift bits : UInt32) : Prop where
  shift_eq : shift.toNat = z.shift
  bits_eq : bits.toNat = z.bits

namespace Sizes.Describes
variable {z : Sizes} {shift bits : UInt32} (h : z.Describes shift bits)
include h

theorem toNat_minBits : (minBits shift bits).toNat = vaBitsMin z.shift z.bits := by
  have hbits : 48 < bits ↔ 48 < z.bits := by
    rw [UInt32.lt_iff_toNat_lt, h.bits_eq]
    rfl
  have hshift : shift = 14 ↔ z.shift = 14 := by
    rw [← UInt32.toNat_inj, h.shift_eq]
    rfl
  simp only [minBits, vaBitsMin, hbits, hshift]
  split
  · split <;> rfl
  · exact h.bits_eq

theorem one_le_minBits : 1 ≤ minBits shift bits := by
  have hhalf := z.half_bounds.1
  unfold half at hhalf
  rw [UInt32.le_iff_toNat_le, h.toNat_minBits, UInt32.toNat_one]
  omega

theorem toNat_half : (minBits shift bits - 1).toNat = z.half := by
  rw [UInt32.toNat_sub_of_le _ _ h.one_le_minBits, h.toNat_minBits]
  rfl

theorem toNat_direct :
    ((0 : UInt64) - ((1 : UInt64) <<< bits.toUInt64)).toNat = pageOffset z.bits := by
  have hhigh := z.high
  have hbits : bits.toUInt64.toNat = z.bits := (UInt32.toNat_toUInt64 _).trans h.bits_eq
  rw [toNat_neg (by omega), hbits]
  rfl

theorem toNat_stop : ((0 : UInt64) - ((1 : UInt64) <<< (minBits shift bits - 1).toUInt64)).toNat =
    pageEnd z.shift z.bits := by
  have hhigh := z.high
  have hhalf := z.half_bounds.2.1
  have hword : (minBits shift bits - 1).toUInt64.toNat = z.half :=
    (UInt32.toNat_toUInt64 _).trans h.toNat_half
  rw [toNat_neg (by omega), hword]
  rfl

theorem direct_le_stop : ((0 : UInt64) - ((1 : UInt64) <<< bits.toUInt64)) ≤
    (0 : UInt64) - ((1 : UInt64) <<< (minBits shift bits - 1).toUInt64) := by
  have hlt := z.pow_half_lt
  rw [UInt64.le_iff_toNat_le, h.toNat_direct, h.toNat_stop]
  exact Nat.sub_le_sub_left hlt.le _

theorem toNat_pages : ((((0 : UInt64) - ((1 : UInt64) <<< (minBits shift bits - 1).toUInt64)) -
    ((0 : UInt64) - ((1 : UInt64) <<< bits.toUInt64))) >>> shift.toUInt64).toNat =
    pages z.shift z.bits := by
  have hshift := z.shift_mem
  rw [UInt64.toNat_shiftRight, UInt64.toNat_sub_of_le _ _ h.direct_le_stop, h.toNat_stop,
    h.toNat_direct, UInt32.toNat_toUInt64, h.shift_eq, Nat.mod_eq_of_lt (by omega)]
  rfl

end Sizes.Describes

/-- The configuration and the size of `struct page` stand for the layout. -/
structure Layout.Describes (l : Layout) (memory : SgMemory) (pageSize : UInt32) : Prop where
  sizes : l.toSizes.Describes memory.pageShift memory.vaBits
  size_eq : pageSize.toNat = l.size
  layout_eq : memory.layout = if l.compact then sgArm64Compact else sgArm64Legacy

/-- The records of `struct page` below the last GiB. -/
theorem toNat_compact {maxPages : UInt64} {pageSize : UInt32} {n size : Nat}
    (h1 : maxPages.toNat = n) (h2 : pageSize.toNat = size) (hn : n ≤ 2 ^ 40)
    (hsize : size ≤ 4096) :
    maxPages.toNat * pageSize.toUInt64.toNat < 2 ^ 64 ∧
      maxPages * pageSize.toUInt64 ≤ (0 : UInt64) - ((1 : UInt64) <<< 30) ∧
      (((0 : UInt64) - ((1 : UInt64) <<< 30)) - maxPages * pageSize.toUInt64).toNat =
        2 ^ 64 - 2 ^ 30 - n * size := by
  have hle : n * size ≤ 2 ^ 40 * 4096 := Nat.mul_le_mul hn hsize
  have hmul : maxPages.toNat * pageSize.toUInt64.toNat = n * size := by
    rw [UInt32.toNat_toUInt64, h1, h2]
  have hgib : ((0 : UInt64) - ((1 : UInt64) <<< 30)).toNat = 2 ^ 64 - 2 ^ 30 := by decide
  have hword : (maxPages * pageSize.toUInt64).toNat = n * size := by
    rw [UInt64.toNat_mul, hmul]
    exact Nat.mod_eq_of_lt (by omega)
  have hbelow : maxPages * pageSize.toUInt64 ≤ (0 : UInt64) - ((1 : UInt64) <<< 30) := by
    rw [UInt64.le_iff_toNat_le, hgib, hword]
    omega
  refine ⟨by omega, hbelow, ?_⟩
  rw [UInt64.toNat_sub_of_le _ _ hbelow, hgib, hword]

namespace Layout.Describes
variable {l : Layout} {memory : SgMemory} {pageSize : UInt32} (h : l.Describes memory pageSize)
include h

theorem toNat_order : (structPageOrder pageSize).toNat = Nat.clog 2 l.size := by
  rw [toNat_structPageOrder (by rw [h.size_eq]; exact l.size_le), h.size_eq]

/-- The width of the region for `struct page` before 6.9. -/
theorem toNat_width :
    (memory.vaBits - memory.pageShift + structPageOrder pageSize).toUInt64.toNat =
      l.bits - l.shift + Nat.clog 2 l.size ∧ l.bits - l.shift + Nat.clog 2 l.size < 64 := by
  have h1 := l.half_bounds
  have h2 := l.high
  have h3 := l.clog_le
  have h4 := l.shift_mem
  have hle : memory.pageShift ≤ memory.vaBits := by
    rw [UInt32.le_iff_toNat_le, h.sizes.shift_eq, h.sizes.bits_eq]
    omega
  refine ⟨?_, by omega⟩
  rw [UInt32.toNat_toUInt64, UInt32.toNat_add, UInt32.toNat_sub_of_le _ _ hle, h.toNat_order,
    h.sizes.shift_eq, h.sizes.bits_eq]
  exact Nat.mod_eq_of_lt (by omega)

end Layout.Describes

/-- The words of a mapping are the bases of the two tables and their count. -/
structure Layout.Maps (l : Layout) (m : Mapping) : Prop where
  vmemmap_eq : m.vmemmap.toNat = l.vmemmap.base
  direct_eq : m.direct.toNat = l.direct.base
  pages_eq : m.maxPages.toNat = pages l.shift l.bits

namespace Layout.Describes
variable {l : Layout} {memory : SgMemory} {pageSize : UInt32} (h : l.Describes memory pageSize)
include h

theorem sizes_taken :
    ¬ ((memory.pageShift ≠ 12 ∧ memory.pageShift ≠ 14 ∧ memory.pageShift ≠ 16) ∨
      memory.vaBits < 36 ∨ 52 < memory.vaBits) := by
  have h1 := l.low
  have h2 := l.high
  have h3 := l.shift_mem
  simp only [← h.sizes.shift_eq, ← h.sizes.bits_eq] at h1 h2 h3
  simp only [ne_eq, ← UInt32.toNat_inj, UInt32.lt_iff_toNat_lt, UInt32.reduceToNat]
  omega

theorem size_taken : ¬ (pageSize = 0 ∨ 4096 < pageSize) := by
  have h1 := l.size_pos
  have h2 := l.size_le
  simp only [← h.size_eq] at h1 h2
  simp only [← UInt32.toNat_inj, UInt32.lt_iff_toNat_lt, UInt32.reduceToNat]
  omega

theorem legacy (hc : l.compact = false) : memory.layout = sgArm64Legacy ∧
    ¬ memory.pageShift ≤ structPageOrder pageSize := by
  refine ⟨by simp [h.layout_eq, hc], ?_⟩
  rw [UInt32.le_iff_toNat_le, h.toNat_order, h.sizes.shift_eq]
  exact Nat.not_le.mpr (l.order hc)

theorem compact (hc : l.compact = true) :
    memory.layout ≠ sgArm64Legacy ∧ memory.layout = sgArm64Compact := by
  rw [h.layout_eq, hc]
  decide

/-- The bases that `core_sg_segment` computes are Linux's. -/
theorem mapping : ∃ m, arm64Mapping memory pageSize = some m ∧ l.Maps m := by
  have hpages := h.sizes.toNat_pages
  have hdirect := h.sizes.toNat_direct
  unfold arm64Mapping
  rw [if_neg h.sizes_taken, if_neg h.size_taken]
  dsimp only
  cases hc : l.compact with
  | false =>
    obtain ⟨hwidth, hlt⟩ := h.toNat_width
    rw [if_pos (h.legacy hc).1, if_neg (h.legacy hc).2]
    refine ⟨_, rfl, ?_, hdirect, hpages⟩
    rw [toNat_neg (by omega), hwidth]
    simp [Layout.vmemmap, vmemmapStart, hc]
  | true =>
    rw [if_neg (h.compact hc).1, if_pos (h.compact hc).2]
    refine ⟨_, rfl, ?_, hdirect, hpages⟩
    refine (toNat_compact hpages h.size_eq l.pages_le_pow l.size_le).2.2.trans ?_
    simp [Layout.vmemmap, vmemmapStart, hc]

end Layout.Describes

/-! ## The translation -/

namespace Layout.Maps
variable {l : Layout} {m : Mapping} {memory : SgMemory} {pageSize : UInt32}

/-- A page frame number shifted to its page stays in the direct mapping. -/
theorem start (hm : l.Maps m) (h : l.Describes memory pageSize) {pfn : UInt64}
    (hpfn : pfn < m.maxPages) :
    memory.pageShift.toUInt64.toNat < 64 ∧
      pfn.toNat * 2 ^ memory.pageShift.toUInt64.toNat < 2 ^ 64 ∧
      m.direct.toNat + (pfn <<< memory.pageShift.toUInt64).toNat < 2 ^ 64 ∧
      (m.direct + (pfn <<< memory.pageShift.toUInt64)).toNat = l.direct.slot pfn.toNat := by
  have hshift : memory.pageShift.toUInt64.toNat = l.shift :=
    (UInt32.toNat_toUInt64 _).trans h.sizes.shift_eq
  have hsmall : l.shift < 64 := by
    have := l.shift_mem
    omega
  have hlt : pfn.toNat < l.direct.count := by
    have := UInt64.lt_iff_toNat_lt.mp hpfn
    rwa [hm.pages_eq] at this
  have hslot : l.direct.slot pfn.toNat < 2 ^ 64 := by
    have hlimit := l.direct.slot_lt_limit hlt
    rw [l.limit_direct] at hlimit
    exact hlimit.trans_le (Nat.sub_le _ _)
  have hdef : l.direct.slot pfn.toNat = m.direct.toNat + pfn.toNat * 2 ^ l.shift := by
    rw [hm.direct_eq]
    rfl
  have hword : (pfn <<< memory.pageShift.toUInt64).toNat = pfn.toNat * 2 ^ l.shift := by
    rw [UInt64.toNat_shiftLeft, hshift, Nat.mod_eq_of_lt hsmall, Nat.shiftLeft_eq]
    exact Nat.mod_eq_of_lt (by omega)
  rw [hshift, UInt64.toNat_add, hword, ← hdef]
  exact ⟨hsmall, by omega, hslot, Nat.mod_eq_of_lt hslot⟩

/-- The checks on the bases never reject. -/
theorem bases (hm : l.Maps m) (h : l.Describes memory pageSize) :
    m.vmemmap ≠ 0 ∧ m.direct ≠ 0 ∧ pageSize ≠ 0 := by
  have h1 := l.vmemmap_bounds.1
  have h2 := l.pow_bits_le
  have h3 := h.size_taken
  refine ⟨?_, ?_, fun h0 => h3 (.inl h0)⟩
  · intro h0
    rw [← hm.vmemmap_eq, h0] at h1
    cases h1
  · intro h0
    have hzero := hm.direct_eq
    rw [h0] at hzero
    change 0 = 2 ^ 64 - 2 ^ l.bits at hzero
    omega

/-- `core_sg_segment` translates between the tables. -/
theorem address (hm : l.Maps m) (h : l.Describes memory pageSize) (page : UInt64) :
    (m.address pageSize memory.pageShift page).map UInt64.toNat =
      l.vmemmap.translate l.direct page.toNat := by
  obtain ⟨hv, hd, hs⟩ := hm.bases h
  unfold Mapping.address Table.translate Table.index
  have hsize : pageSize.toUInt64.toNat = l.vmemmap.stride :=
    (UInt32.toNat_toUInt64 _).trans h.size_eq
  by_cases hlow : page < m.vmemmap
  · have : page.toNat < l.vmemmap.base := by
      rw [← hm.vmemmap_eq]
      exact UInt64.lt_iff_toNat_lt.mp hlow
    rw [if_pos (by simp [hlow]), if_pos (.inl this)]
    rfl
  · have hle : m.vmemmap ≤ page := UInt64.not_lt.mp hlow
    have hsub : (page - m.vmemmap).toNat = page.toNat - l.vmemmap.base := by
      rw [UInt64.toNat_sub_of_le _ _ hle, hm.vmemmap_eq]
    have hbase : ¬ page.toNat < l.vmemmap.base := by
      rw [← hm.vmemmap_eq]
      exact Nat.not_lt.mpr (UInt64.le_iff_toNat_le.mp hle)
    have hmod : (page - m.vmemmap) % pageSize.toUInt64 = 0 ↔
        (page.toNat - l.vmemmap.base) % l.vmemmap.stride = 0 := by
      rw [← UInt64.toNat_inj, UInt64.toNat_mod, hsub, hsize]
      rfl
    have hdiv : ((page - m.vmemmap) / pageSize.toUInt64).toNat =
        (page.toNat - l.vmemmap.base) / l.vmemmap.stride := by
      rw [UInt64.toNat_div, hsub, hsize]
    by_cases hrec : (page - m.vmemmap) % pageSize.toUInt64 = 0
    · rw [if_neg (by simp [hv, hd, hs, hlow, hrec]),
        if_neg (not_or.mpr ⟨hbase, not_not.mpr (hmod.mp hrec)⟩), ← hdiv]
      dsimp only
      have hcount : m.maxPages ≤ (page - m.vmemmap) / pageSize.toUInt64 ↔
          l.vmemmap.count ≤ ((page - m.vmemmap) / pageSize.toUInt64).toNat := by
        rw [UInt64.le_iff_toNat_le, hm.pages_eq]
        rfl
      by_cases hin : m.maxPages ≤ (page - m.vmemmap) / pageSize.toUInt64
      · rw [if_pos hin, if_pos (hcount.mp hin)]
        rfl
      · rw [if_neg hin, if_neg (mt hcount.mpr hin), Option.map_some, Option.map_some,
          (hm.start h (UInt64.not_le.mp hin)).2.2.2]
    · rw [if_pos (by simp [hrec]), if_pos (.inr (mt hmod.mpr hrec))]
      rfl

end Layout.Maps

/-! ## Links -/

/-- The two flag bits of a link are cleared. -/
theorem toNat_pagePointer (link : UInt64) : (pagePointer link).toNat = link.toNat / 4 * 4 := by
  have hmask : (~~~3 : UInt64).toNat = 2 ^ 64 - (3 + 1) := by decide
  rw [pagePointer, UInt64.toNat_and, hmask, show (4 : Nat) = 2 ^ 2 from rfl,
    ← Nat.shiftRight_eq_div_pow, ← Nat.shiftLeft_eq]
  refine Nat.eq_of_testBit_eq fun i => ?_
  have hlow : Nat.testBit 3 i = decide (i < 2) := Nat.testBit_two_pow_sub_one 2 i
  rw [Nat.testBit_and, Nat.testBit_two_pow_sub_succ (by decide), hlow, Nat.testBit_shiftLeft,
    Nat.testBit_shiftRight]
  by_cases hi : 2 ≤ i
  · rw [show 2 + (i - 2) = i by omega]
    by_cases hbig : i < 64
    · simp [hi, hbig]
      omega
    · have hzero : Nat.testBit link.toNat i = false :=
        Nat.testBit_lt_two_pow (link.toNat_lt.trans_le (Nat.pow_le_pow_right (by decide) (by omega)))
      simp [hzero]
  · simp [hi]
    omega

/-- The last entry of a list has only the second flag. -/
theorem flags_of_last {link : UInt64} {a : Nat} (h : link.toNat = a + 2) (h4 : 4 ∣ a) :
    link &&& 1 = 0 ∧ link &&& 2 ≠ 0 ∧ link ≠ 0 ∧ (pagePointer link).toNat = a := by
  obtain ⟨k, rfl⟩ := h4
  refine ⟨?_, ?_, ?_, ?_⟩
  · rw [← UInt64.toNat_inj, UInt64.toNat_and, h, UInt64.toNat_one, Nat.and_one_is_mod,
      UInt64.toNat_zero]
    omega
  · have hbit : (link &&& 2).toNat.testBit 1 = true := by
      rw [UInt64.toNat_and, h, Nat.testBit_and, Nat.testBit_eq_decide_div_mod_eq]
      simp [Nat.testBit_eq_decide_div_mod_eq]
      omega
    intro h0
    rw [h0] at hbit
    cases hbit
  · rintro rfl
    cases h
  · rw [toNat_pagePointer, h]
    omega

section
variable {l : Layout} {view : SgView} {memory : SgMemory}

/-- What an accepted link stands for. -/
theorem pageAddress_some (h : l.Describes memory view.pageSize) {link page : UInt64}
    (hpage : view.pageAddress .arm64 memory link = some page) :
    l.vmemmap.translate l.direct (pagePointer link).toNat = some page.toNat := by
  obtain ⟨m, hm, hmaps⟩ := h.mapping
  unfold SgView.pageAddress at hpage
  split at hpage
  · cases hpage
  · simp only [Arch.mapping, hm, Option.bind_some, bind] at hpage
    rw [← hmaps.address h, hpage, Option.map_some]

/-- The link of a last entry is accepted for every `struct page` whose address
leaves the flag bits free. -/
theorem pageAddress_last (h : l.Describes memory view.pageSize) {pfn : Nat} {link : UInt64}
    (hpfn : pfn < l.vmemmap.count) (h4 : 4 ∣ l.vmemmap.slot pfn)
    (hlink : link.toNat = l.vmemmap.slot pfn + 2) :
    view.pageAddress .arm64 memory link = some (UInt64.ofNat (l.direct.slot pfn)) := by
  obtain ⟨hchain, -, hne, hptr⟩ := flags_of_last hlink h4
  obtain ⟨m, hm, hmaps⟩ := h.mapping
  have haddr := hmaps.address h (pagePointer link)
  rw [hptr, Table.translate_slot hpfn] at haddr
  obtain ⟨page, hpage, htoNat⟩ := Option.map_eq_some_iff.mp haddr
  unfold SgView.pageAddress
  rw [if_neg (by simp [hchain, hne])]
  simp only [Arch.mapping, hm, Option.bind_some, bind]
  rw [hpage, ← htoNat, UInt64.ofNat_toNat]

/-- A page stays below `PAGE_END`, so that an offset never leaves 64 bits. -/
theorem page_add_offset (h : l.Describes memory view.pageSize) {link page : UInt64}
    (offset : UInt32) (hpage : view.pageAddress .arm64 memory link = some page) :
    page.toNat + offset.toUInt64.toNat < 2 ^ 64 := by
  obtain ⟨pfn, hpfn, -, hslot⟩ := Table.of_translate (pageAddress_some h hpage)
  have hlimit := l.direct.slot_lt_limit hpfn
  have hoff := offset.toNat_lt
  have hhalf := l.le_pow_half
  rw [l.limit_direct] at hlimit
  change _ < 2 ^ 64 - 2 ^ l.half at hlimit
  rw [hslot, UInt32.toNat_toUInt64]
  omega

end

/-! ## No word overflows -/

theorem structPageOrderChecked_eq (size : UInt32) :
    structPageOrderChecked size = .ok (structPageOrder size) := by
  refine Loop.runChecked_eq (I := fun j order => order.toNat = j) rfl ?_ ?_
  · intro j order hj hI
    have hpow : 2 ^ order.toNat < 2 ^ 32 := Nat.pow_lt_pow_right (by decide) (by omega)
    have hshl : Checked.shl32 1 order = .ok (1 <<< order) :=
      Checked.guard_of ⟨by omega, by simpa using hpow⟩ _
    have hadd : Checked.add32 order 1 = .ok (order + 1) :=
      Checked.guard_of (by simp only [UInt32.toNat_one]; omega) _
    rw [hshl, Checked.ok_bind, hadd]
    split <;> rfl
  · intro j order order' hj hI hb
    split at hb
    · cases hb
    · cases hb
      rw [UInt32.toNat_add, hI, UInt32.toNat_one]
      exact Nat.mod_eq_of_lt (by omega)

/-- No shift or sum of the layout's words loses a bit. -/
theorem arm64MappingChecked_eq {l : Layout} {memory : SgMemory} {pageSize : UInt32}
    (h : l.Describes memory pageSize) :
    arm64MappingChecked memory pageSize = .ok (arm64Mapping memory pageSize) := by
  have hone : ∀ w : UInt64, w.toNat < 64 → Checked.shl64 1 w = .ok (1 <<< w) := fun w hw =>
    Checked.guard_of ⟨hw, by simpa using Nat.pow_lt_pow_right (by decide) hw⟩ _
  have hhigh := l.high
  have hhalf := l.half_bounds
  have hshift := l.shift_mem
  have hbits : memory.vaBits.toUInt64.toNat < 64 := by
    rw [UInt32.toNat_toUInt64, h.sizes.bits_eq]
    omega
  have hlow : (minBits memory.pageShift memory.vaBits - 1).toUInt64.toNat < 64 := by
    rw [UInt32.toNat_toUInt64, h.sizes.toNat_half]
    omega
  have hsub : Checked.sub32 (minBits memory.pageShift memory.vaBits) 1 = .ok _ :=
    Checked.sub32_ok h.sizes.one_le_minBits
  have hspan : Checked.sub64 _ _ = .ok _ := Checked.guard_of h.sizes.direct_le_stop _
  have hshr : ∀ w, Checked.shr64 w memory.pageShift.toUInt64 =
      .ok (w >>> memory.pageShift.toUInt64) := fun w =>
    Checked.guard_of (by rw [UInt32.toNat_toUInt64, h.sizes.shift_eq]; omega) _
  have hpages := h.sizes.toNat_pages
  unfold minBits at hlow hsub hspan hpages
  unfold arm64MappingChecked arm64Mapping
  rw [if_neg h.sizes_taken, if_neg h.size_taken, if_neg h.sizes_taken, if_neg h.size_taken]
  dsimp only
  rw [hone _ hbits, Checked.ok_bind, hsub, Checked.ok_bind, hone _ hlow, Checked.ok_bind, hspan,
    Checked.ok_bind, hshr, Checked.ok_bind]
  cases hc : l.compact with
  | false =>
    obtain ⟨hwidth, hlt⟩ := h.toNat_width
    rw [if_pos (h.legacy hc).1, if_pos (h.legacy hc).1, structPageOrderChecked_eq, Checked.ok_bind,
      if_neg (h.legacy hc).2, if_neg (h.legacy hc).2]
    have hle : memory.pageShift ≤ memory.vaBits := by
      rw [UInt32.le_iff_toNat_le, h.sizes.shift_eq, h.sizes.bits_eq]
      omega
    have hadd : Checked.add32 (memory.vaBits - memory.pageShift) (structPageOrder pageSize) =
        .ok _ := Checked.guard_of (by
      rw [UInt32.toNat_sub_of_le _ _ hle, h.toNat_order, h.sizes.shift_eq, h.sizes.bits_eq]
      omega) _
    rw [Checked.sub32_ok hle, Checked.ok_bind, hadd, Checked.ok_bind, hone _ (by omega)]
    rfl
  | true =>
    obtain ⟨hmul, hbelow, -⟩ := toNat_compact hpages h.size_eq l.pages_le_pow l.size_le
    rw [if_neg (h.compact hc).1, if_pos (h.compact hc).2, if_neg (h.compact hc).1,
      if_pos (h.compact hc).2, hone 30 (by decide), Checked.ok_bind]
    have hrecords : Checked.mul64 _ pageSize.toUInt64 = .ok _ := Checked.guard_of hmul _
    have hstart : Checked.sub64 _ _ = .ok _ := Checked.guard_of hbelow _
    rw [hrecords, Checked.ok_bind, hstart]
    rfl

theorem addressChecked_eq {l : Layout} {m : Mapping} {memory : SgMemory} {pageSize : UInt32}
    (hm : l.Maps m) (h : l.Describes memory pageSize) (page : UInt64) :
    m.addressChecked pageSize memory.pageShift page =
      .ok (m.address pageSize memory.pageShift page) := by
  unfold Mapping.addressChecked Mapping.address
  by_cases hlow : m.vmemmap = 0 ∨ m.direct = 0 ∨ pageSize = 0 ∨ page < m.vmemmap
  · rw [if_pos hlow, if_pos (by tauto)]
  have hle : m.vmemmap ≤ page := UInt64.not_lt.mp fun hlt => hlow (.inr (.inr (.inr hlt)))
  have hsub : Checked.sub64 page m.vmemmap = .ok _ := Checked.guard_of hle _
  rw [if_neg hlow, hsub, Checked.ok_bind]
  by_cases hmod : (page - m.vmemmap) % pageSize.toUInt64 = 0
  · have hkeep : ¬ (m.vmemmap = 0 ∨ m.direct = 0 ∨ pageSize = 0 ∨ page < m.vmemmap ∨
        (page - m.vmemmap) % pageSize.toUInt64 ≠ 0) := by tauto
    rw [if_neg (not_not.mpr hmod), if_neg hkeep]
    dsimp only
    by_cases hin : m.maxPages ≤ (page - m.vmemmap) / pageSize.toUInt64
    · rw [if_pos hin, if_pos hin]
    · obtain ⟨h1, h2, h3, -⟩ := hm.start h (UInt64.not_le.mp hin)
      have hshl : Checked.shl64 _ memory.pageShift.toUInt64 = .ok _ := Checked.guard_of ⟨h1, h2⟩ _
      have hadd : Checked.add64 m.direct _ = .ok _ := Checked.guard_of h3 _
      rw [if_neg hin, if_neg hin, hshl, Checked.ok_bind, hadd]
      rfl
  · rw [if_pos hmod, if_pos (by tauto)]

theorem pageAddressChecked_eq {l : Layout} {view : SgView} {memory : SgMemory}
    (h : l.Describes memory view.pageSize) (link : UInt64) :
    view.pageAddressChecked memory link = .ok (view.pageAddress .arm64 memory link) := by
  obtain ⟨m, hm, hmaps⟩ := h.mapping
  unfold SgView.pageAddressChecked SgView.pageAddress
  split
  · rfl
  · rw [arm64MappingChecked_eq h, Checked.ok_bind]
    simp only [Arch.mapping, hm, Option.bind_some, bind]
    exact addressChecked_eq hmaps h _

/-- Nothing wraps in `core_sg_segment`, as long as the entry that it goes on with
has an address. -/
theorem segmentChecked_eq {l : Layout} {view : SgView} {memory : SgMemory}
    (h : l.Describes memory view.pageSize) (address : UInt64)
    (hnext : (∃ link, view.pageLink address = some link ∧ link &&& 2 ≠ 0) ∨
      address.toNat + view.stride.toNat < 2 ^ 64) :
    view.segmentChecked memory address = .ok (view.segment .arm64 memory address) := by
  unfold SgView.segmentChecked SgView.segment
  cases hlink : view.pageLink address with
  | none => rfl
  | some link =>
  cases hoffset : view.offset address with
  | none => rfl
  | some offset =>
  cases hlength : view.length address with
  | none => rfl
  | some length =>
    simp only [pageAddressChecked_eq h, Checked.ok_bind, Option.bind_eq_bind, Option.bind_some]
    cases hpage : view.pageAddress .arm64 memory link with
    | none => rfl
    | some page =>
      have hsource : Checked.add64 page offset.toUInt64 = .ok _ :=
        Checked.guard_of (page_add_offset h offset hpage) _
      simp only [hsource, Checked.ok_bind, Option.bind_some]
      split
      · rfl
      · rename_i hlast
        have hadd : Checked.add64 address view.stride.toUInt64 =
            .ok (address + view.stride.toUInt64) := by
          refine Checked.guard_of ?_ _
          rcases hnext with ⟨link', hlink', hne⟩ | hlt
          · rw [hlink] at hlink'
            cases hlink'
            exact absurd hne hlast
          · rwa [UInt32.toNat_toUInt64]
        rw [hadd, Checked.ok_bind]
        cases view.pageLink (address + view.stride.toUInt64) with
        | none => rfl
        | some link' => rfl

end UsbScope.Ebpf.Arm64
