import UsbScope.Ebpf.Copy

/-! # Scatter-gather copies are exact

`Entries` reads the list that `copy_sg` walks. While no helper call fails, every
callback takes one unit of `SgContext.work`, so that the loop bound of
`copy_sg` is never what ends the copy. -/
namespace UsbScope.Ebpf
open UsbScope.Lib UsbScope.Common UsbScope.Capture

/-- The first `n` entries of the list at `address`; fewer when it ends before. -/
def Entries (k : Kernel) (memory : SgMemory) : Nat → UInt64 → List SgSegment → Prop
  | 0, _, segs => segs = []
  | _ + 1, address, [] => address = 0
  | n + 1, address, s :: rest =>
    address ≠ 0 ∧ k.segment memory address = some s ∧ Entries k memory n s.next rest

def SgSegment.bytes (k : Kernel) (s : SgSegment) : Bytes := k.read s.source s.length.toNat

/-- The bytes of the segments, in order. -/
def gathered (k : Kernel) (segs : List SgSegment) : Bytes := segs.flatMap (SgSegment.bytes k)

def available (segs : List SgSegment) : Nat := (segs.map fun s => s.length.toNat).sum

@[simp] theorem length_gathered (k : Kernel) (segs : List SgSegment) :
    (gathered k segs).length = available segs := by
  simp [gathered, available, SgSegment.bytes, List.length_flatMap]

/-- The list has an entry for the next callback, unless it is at its end. -/
theorem Entries.next {k : Kernel} {memory : SgMemory} {n : Nat} {address : UInt64}
    {segs : List SgSegment} (h : Entries k memory n address segs) :
    (segs = [] ∧ (address = 0 ∨ n = 0)) ∨
      ∃ s rest m, segs = s :: rest ∧ n = m + 1 ∧ address ≠ 0 ∧
        k.segment memory address = some s ∧ Entries k memory m s.next rest := by
  cases n with
  | zero => exact .inl ⟨h, .inr rfl⟩
  | succ m =>
    cases segs with
    | nil => exact .inl ⟨rfl, .inl h⟩
    | cons s rest =>
      obtain ⟨h1, h2, h3⟩ := h
      exact .inr ⟨s, rest, m, rfl, rfl, h1, h2, h3⟩

/-! ## Calls that succeed -/

/-- No helper call fails from here on. -/
def Quiet (st : Probe) : Prop := ∀ f ∈ st.faults, f = false

theorem Quiet.fails {st : Probe} (h : Quiet st) : ∃ st', st.fails = (false, st') ∧ Quiet st' := by
  unfold Probe.fails
  split
  · exact ⟨st, rfl, h⟩
  · rename_i f rest hf
    obtain rfl := h f (by simp [hf])
    exact ⟨_, rfl, fun g hg => h g (by simp [hf, show g ∈ rest from hg])⟩

theorem Quiet.copyChunk {k : Kernel} {n length : Nat} {c : CopyContext} {st : Probe}
    (h : Quiet st) (offset : Nat) (h0 : 0 < length) (hn : length ≤ n) (hl : length ≤ chunkSize) :
    ∃ st', Ebpf.copyChunk k n c offset length st = (0, st') ∧ Quiet st' ∧
      Emits st st' [dataRecord c.eventId (chunk k c offset length)] 0 := by
  obtain ⟨st₁, h1, hq₁⟩ := h.fails
  obtain ⟨st₂, h2, hq₂⟩ := hq₁.fails
  generalize hres : Ebpf.copyChunk k n c offset length st = r
  obtain ⟨reason, st'⟩ := r
  have hem := copyChunk_emits h0 hn hl hres
  unfold Ebpf.copyChunk at hres
  rw [if_neg (by omega), h1] at hres
  simp only [h2] at hres
  cases hres
  rcases hem with ⟨_, hone⟩ | ⟨hne, _⟩
  · exact ⟨_, rfl, hq₂, hone⟩
  · exact absurd rfl hne

/-! ## One callback -/

namespace SgContext

/-- The size of the chunk that is copied next. -/
def part (c : SgContext) : Nat := min c.segmentLeft.toNat chunkSize

/-- The fragment that is copied next. -/
def fragment (k : Kernel) (c : SgContext) : Fragment :=
  (c.copy.copied, k.read c.copy.source c.part)

/-- `c'` is the context `c` after one chunk. -/
structure Took (c c' : SgContext) : Prop where
  next : c'.next = c.next
  segments : c'.segmentsLeft = c.segmentsLeft
  id : c'.copy.eventId = c.copy.eventId
  reason : c'.copy.reason = 0
  copied : c'.copy.copied = c.copy.copied + c.part
  source : c'.copy.source = c.copy.source + UInt64.ofNat c.part
  left : c'.segmentLeft.toNat = c.segmentLeft.toNat - c.part
  remaining : c'.remaining.toNat = c.remaining.toNat - c.part

end SgContext

/-- What a callback does once it has its segment. -/
def sgChunk (k : Kernel) (c : SgContext) (st : Probe) : Bool × (SgContext × Probe) :=
  let length := min c.segmentLeft (UInt32.ofNat chunkSize)
  if length = 0 then (false, (c, st))
  else
    let copy := { c.copy with destination := c.copy.copied }
    match copyChunk k chunkSize copy 0 length.toNat st with
    | (reason, st) =>
      if reason ≠ 0 then (true, ({ c with copy := { copy with reason := reason } }, st))
      else
        (false, ({ c with
          copy := { copy with
            reason := reason
            copied := copy.copied + length.toNat
            source := copy.source + length.toUInt64 }
          segmentLeft := c.segmentLeft - length
          remaining := saturatingSub c.remaining length }, st))

theorem sgChunk_empty {k : Kernel} {c : SgContext} {st : Probe} (h : c.segmentLeft = 0) :
    sgChunk k c st = (false, (c, st)) := by
  unfold sgChunk
  rw [h]
  rfl

theorem toNat_part (c : SgContext) :
    (min c.segmentLeft (UInt32.ofNat chunkSize)).toNat = c.part := by
  rw [toNat_min]
  rfl

theorem sgChunk_took {k : Kernel} {c : SgContext} {st : Probe} (hq : Quiet st)
    (h0 : 0 < c.segmentLeft.toNat) (hle : c.segmentLeft.toNat ≤ c.remaining.toNat) :
    ∃ c' st', sgChunk k c st = (false, (c', st')) ∧ c.Took c' ∧ Quiet st' ∧
      Emits st st' [dataRecord c.copy.eventId (c.fragment k)] 0 := by
  have hlen := toNat_part c
  have hpart : c.part ≤ c.segmentLeft.toNat := Nat.min_le_left _ _
  have hpos : 0 < c.part := lt_min h0 (by decide)
  unfold sgChunk
  dsimp only
  generalize min c.segmentLeft (UInt32.ofNat chunkSize) = length at hlen
  have hne : length ≠ 0 := by
    rintro rfl
    simp at hlen
    omega
  have hseg : length ≤ c.segmentLeft := UInt32.le_iff_toNat_le.mpr (by omega)
  have hrem : length ≤ c.remaining := UInt32.le_iff_toNat_le.mpr (by omega)
  rw [if_neg hne, hlen]
  obtain ⟨st', hchunk, hq', hone⟩ := hq.copyChunk (k := k) (n := chunkSize)
    (c := { c.copy with destination := c.copy.copied }) 0 hpos (Nat.min_le_right _ _)
    (Nat.min_le_right _ _)
  rw [hchunk]
  refine ⟨_, st', rfl, ⟨rfl, rfl, rfl, rfl, rfl, ?_, ?_, ?_⟩, hq', ?_⟩
  · dsimp only
    rw [← hlen]
    simp
  · rw [UInt32.toNat_sub_of_le _ _ hseg, hlen]
  · rw [saturatingSub, if_pos hrem, UInt32.toNat_sub_of_le _ _ hrem, hlen]
  · have hfrag : chunk k { c.copy with destination := c.copy.copied } 0 c.part = c.fragment k := by
      simp [chunk, SgContext.fragment]
    rwa [hfrag] at hone

/-- A callback in the middle of a segment. -/
theorem sgCopySegment_inside {k : Kernel} {memory : SgMemory} {i : Nat} {c : SgContext} {st : Probe}
    (hrem : c.remaining ≠ 0) (hleft : c.segmentLeft ≠ 0) :
    sgCopySegment k memory i (c, st) = sgChunk k c st := by
  unfold sgCopySegment
  dsimp only
  rw [if_neg hrem, sgAdvance, if_pos hleft]
  rfl

/-- A callback between two segments. -/
theorem sgCopySegment_between {k : Kernel} {memory : SgMemory} {i : Nat} {c : SgContext}
    {st : Probe} {s : SgSegment} (hrem : c.remaining ≠ 0) (hleft : c.segmentLeft = 0)
    (hnext : c.next ≠ 0) (hsegs : c.segmentsLeft ≠ 0) (hs : k.segment memory c.next = some s)
    (hq : Quiet st) :
    ∃ st', sgCopySegment k memory i (c, st) = sgChunk k (c.enter s) st' ∧ Quiet st' ∧
      Emits st st' [] 0 := by
  obtain ⟨st', hf, hq'⟩ := hq.fails
  refine ⟨st', ?_, hq', Emits.fails hf⟩
  unfold sgCopySegment
  dsimp only
  rw [if_neg hrem, sgAdvance, if_neg (not_not.mpr hleft), if_neg (by simp [hnext, hsegs]),
    coreSgSegment, hf]
  simp only [hs]
  rfl

/-- A callback at the end of the list. -/
theorem sgCopySegment_ended {k : Kernel} {memory : SgMemory} {i : Nat} {c : SgContext} {st : Probe}
    (hrem : c.remaining ≠ 0) (hleft : c.segmentLeft = 0) (h : c.next = 0 ∨ c.segmentsLeft = 0) :
    sgCopySegment k memory i (c, st) =
      (true, ({ c with copy := { c.copy with reason := lossRead } }, st.count 4)) := by
  unfold sgCopySegment
  dsimp only
  rw [if_neg hrem, sgAdvance, if_neg (not_not.mpr hleft), if_pos h]

/-! ## The loop -/

/-- The callbacks that may still be needed: the chunks of the segment, one
callback for every entry to come, and the full chunks of what is left. -/
def SgContext.work (c : SgContext) : Nat :=
  (c.segmentLeft.toNat + chunkSize - 1) / chunkSize + c.segmentsLeft.toNat +
    (c.remaining.toNat - c.segmentLeft.toNat) / chunkSize

/-- The copy of `segs` when the fragments `frags` are out and the entries `rest`
are still to come. -/
structure Gathering (k : Kernel) (memory : SgMemory) (c₀ : CopyContext) (segs : List SgSegment)
    (st : Probe) (rest : List SgSegment) (frags : List Fragment) (c : SgContext) (t : Probe) :
    Prop where
  quiet : Quiet t
  id : c.copy.eventId = c₀.eventId
  reason : c.copy.reason = 0
  total : c.copy.copied + c.remaining.toNat = c₀.total.toNat
  left : c.segmentLeft.toNat ≤ c.remaining.toNat
  entries : Entries k memory c.segmentsLeft.toNat c.next rest
  emits : Emits st t (frags.map (dataRecord c₀.eventId)) 0
  chain : Chain 0 frags c.copy.copied
  data : frags.flatMap Prod.snd ++
      (k.read c.copy.source c.segmentLeft.toNat ++ gathered k rest).take c.remaining.toNat =
    (gathered k segs).take c₀.total.toNat

namespace Gathering
variable {k : Kernel} {memory : SgMemory} {c₀ : CopyContext} {segs rest : List SgSegment}
  {st t : Probe} {frags : List Fragment} {c : SgContext}

theorem length_frags (h : Gathering k memory c₀ segs st rest frags c t) :
    (frags.flatMap Prod.snd).length = c.copy.copied := by
  have hsum := h.chain.sum
  rw [Nat.zero_add] at hsum
  rw [List.length_flatMap]
  exact hsum

/-- The lengths behind `data`. -/
theorem lengths (h : Gathering k memory c₀ segs st rest frags c t) :
    c.copy.copied + min c.remaining.toNat (c.segmentLeft.toNat + available rest) =
      min c₀.total.toNat (available segs) := by
  have hlen := congrArg List.length h.data
  simpa [h.length_frags] using hlen

/-- Entering a segment moves its bytes from the rest of the list to the context. -/
theorem enter {s : SgSegment} {n : Nat} {t' : Probe}
    (h : Gathering k memory c₀ segs st (s :: rest) frags c t) (h0 : c.segmentLeft = 0)
    (hn : c.segmentsLeft.toNat = n + 1) (hrest : Entries k memory n s.next rest) (hq : Quiet t')
    (hem : Emits t t' [] 0) :
    Gathering k memory c₀ segs st rest frags (c.enter s) t' := by
  have hmin : (c.enter s).segmentLeft.toNat = min s.length.toNat c.remaining.toNat :=
    toNat_min _ _
  have hone : (c.segmentsLeft - 1).toNat = n := by
    rw [UInt32.toNat_sub_of_le _ _ (UInt32.le_iff_toNat_le.mpr (by simp [hn])), hn]
    rfl
  refine ⟨hq, h.id, h.reason, h.total, ?_, ?_, by simpa using h.emits.trans hem, h.chain, ?_⟩
  · rw [hmin]
    exact Nat.min_le_right _ _
  · rw [SgContext.enter, hone]
    exact hrest
  · rw [← h.data, h0, hmin]
    congr 1
    -- a segment longer than what remains is cut in both
    rcases le_total s.length.toNat c.remaining.toNat with hle | hle
    · rw [Nat.min_eq_left hle]
      rfl
    · obtain ⟨d, hd⟩ := Nat.exists_eq_add_of_le hle
      have hcut := k.read_append s.source c.remaining.toNat d
      rw [← hd] at hcut
      have hzero : k.read c.copy.source 0 = [] := rfl
      rw [Nat.min_eq_right hle]
      simp [SgContext.enter, gathered, SgSegment.bytes, hcut, hzero]

/-- A chunk moves its bytes from the segment to the fragments. -/
theorem took {c' : SgContext} {t' : Probe} (h : Gathering k memory c₀ segs st rest frags c t)
    (h0 : 0 < c.segmentLeft.toNat) (ht : c.Took c') (hq : Quiet t')
    (hem : Emits t t' [dataRecord c.copy.eventId (c.fragment k)] 0) :
    Gathering k memory c₀ segs st rest (frags ++ [c.fragment k]) c' t' := by
  have hpart : c.part ≤ c.segmentLeft.toNat := Nat.min_le_left _ _
  have hsize : c.part ≤ chunkSize := Nat.min_le_right _ _
  have hpos : 0 < c.part := lt_min h0 (by decide)
  have hle := h.left
  have htotal := h.total
  obtain ⟨d, hd⟩ := Nat.exists_eq_add_of_le hpart
  refine ⟨hq, ht.id.trans h.id, ht.reason, ?_, ?_, ?_, ?_, ?_, ?_⟩
  · rw [ht.copied, ht.remaining]
    omega
  · rw [ht.left, ht.remaining]
    omega
  · rw [ht.segments, ht.next]
    exact h.entries
  · rw [List.map_append]
    have hboth := h.emits.trans hem
    rwa [h.id] at hboth
  · have hsnoc := h.chain.snoc (f := c.fragment k) rfl
      (List.length_pos_iff.mp (by simpa [SgContext.fragment] using hpos))
      (by simpa [SgContext.fragment] using hsize)
    rw [ht.copied]
    simpa [Fragment.stop, SgContext.fragment] using hsnoc
  · have hcut : k.read c.copy.source c.segmentLeft.toNat =
        k.read c.copy.source c.part ++ k.read c'.copy.source c'.segmentLeft.toNat := by
      rw [ht.source, ht.left, hd, Nat.add_sub_cancel_left, k.read_append]
    have hmove : (k.read c.copy.source c.segmentLeft.toNat ++ gathered k rest).take
          c.remaining.toNat = k.read c.copy.source c.part ++
        (k.read c'.copy.source c'.segmentLeft.toNat ++ gathered k rest).take
          c'.remaining.toNat := by
      rw [hcut, List.append_assoc, List.take_append, Kernel.length_read, ht.remaining,
        List.take_of_length_le (by rw [Kernel.length_read]; exact hpart.trans hle)]
    rw [← h.data, hmove]
    simp [SgContext.fragment]

end Gathering

theorem SgContext.Took.work {c c' : SgContext} (h : c.Took c') (h0 : 0 < c.segmentLeft.toNat)
    (hle : c.segmentLeft.toNat ≤ c.remaining.toNat) : c'.work + 1 ≤ c.work := by
  have hpart : c.part = min c.segmentLeft.toNat chunkSize := rfl
  unfold SgContext.work
  rw [h.segments, h.left, h.remaining]
  unfold chunkSize at hpart ⊢
  omega

/-- Entering a segment costs at most the callback of its entry, and no callback
when the segment is empty. -/
theorem SgContext.work_enter {c : SgContext} {s : SgSegment} (h0 : c.segmentLeft = 0)
    (hn : c.segmentsLeft ≠ 0) :
    (c.enter s).work ≤ c.work ∧
      ((c.enter s).segmentLeft = 0 → (c.enter s).work + 1 ≤ c.work) := by
  have hmin : (c.enter s).segmentLeft.toNat = min s.length.toNat c.remaining.toNat :=
    toNat_min _ _
  have hpos : 0 < c.segmentsLeft.toNat :=
    Nat.pos_of_ne_zero fun h => hn (UInt32.toNat_inj.mp h)
  have hone : (c.enter s).segmentsLeft.toNat = c.segmentsLeft.toNat - 1 :=
    UInt32.toNat_sub_of_le _ _ (UInt32.le_iff_toNat_le.mpr hpos)
  have hrem : (c.enter s).remaining = c.remaining := rfl
  have hzero : c.segmentLeft.toNat = 0 := by rw [h0]; rfl
  unfold SgContext.work
  rw [hone, hrem, hzero]
  unfold chunkSize
  refine ⟨by omega, fun hempty => ?_⟩
  have : (c.enter s).segmentLeft.toNat = 0 := by rw [hempty]; rfl
  omega

/-- A callback goes on with less work, or it is at the end of the list. -/
theorem Gathering.step {k : Kernel} {memory : SgMemory} {c₀ : CopyContext}
    {segs rest : List SgSegment} {st t : Probe} {frags : List Fragment} {c : SgContext}
    (h : Gathering k memory c₀ segs st rest frags c t) (hrem : c.remaining ≠ 0) (i : Nat) :
    (∃ rest' frags' c' t', sgCopySegment k memory i (c, t) = (false, (c', t')) ∧
      Gathering k memory c₀ segs st rest' frags' c' t' ∧ c'.work + 1 ≤ c.work) ∨
    (c.segmentLeft = 0 ∧ rest = [] ∧ sgCopySegment k memory i (c, t) =
      (true, ({ c with copy := { c.copy with reason := lossRead } }, t.count 4))) := by
  by_cases hleft : c.segmentLeft = 0
  · rcases h.entries.next with ⟨rfl, hend⟩ | ⟨s, rest', n, rfl, hn, hnext, hs, hrest⟩
    · refine .inr ⟨hleft, rfl, sgCopySegment_ended hrem hleft (hend.imp_right fun h0 => ?_)⟩
      exact UInt32.toNat_inj.mp h0
    · have hsegs : c.segmentsLeft ≠ 0 := by
        intro h0
        rw [h0] at hn
        cases hn
      obtain ⟨t₁, hcall, hq, hem⟩ :=
        sgCopySegment_between (i := i) hrem hleft hnext hsegs hs h.quiet
      have henter := h.enter hleft hn hrest hq hem
      obtain ⟨hwork, hempty⟩ := SgContext.work_enter (s := s) hleft hsegs
      by_cases hzero : (c.enter s).segmentLeft = 0
      · exact .inl ⟨rest', frags, _, t₁, hcall.trans (sgChunk_empty hzero), henter, hempty hzero⟩
      · have hpos := Nat.pos_of_ne_zero fun h0 => hzero (UInt32.toNat_inj.mp h0)
        obtain ⟨c', t', hchunk, htook, hq', hem'⟩ := sgChunk_took (k := k) hq hpos henter.left
        exact .inl ⟨rest', _, c', t', hcall.trans hchunk, henter.took hpos htook hq' hem',
          (htook.work hpos henter.left).trans hwork⟩
  · have hpos := Nat.pos_of_ne_zero fun h0 => hleft (UInt32.toNat_inj.mp h0)
    obtain ⟨c', t', hchunk, htook, hq', hem'⟩ := sgChunk_took (k := k) h.quiet hpos h.left
    exact .inl ⟨rest, _, c', t', (sgCopySegment_inside hrem hleft).trans hchunk,
      h.took hpos htook hq' hem', htook.work hpos h.left⟩

/-- At the end of the list only a list that is too short leaves bytes over. -/
theorem Gathering.short {k : Kernel} {memory : SgMemory} {c₀ : CopyContext}
    {segs : List SgSegment} {st t : Probe} {frags : List Fragment} {c : SgContext}
    (h : Gathering k memory c₀ segs st [] frags c t) (hleft : c.segmentLeft = 0)
    (hrem : c.remaining ≠ 0) : available segs < c₀.total.toNat := by
  have hlen := h.lengths
  have htotal := h.total
  have hpos := Nat.pos_of_ne_zero fun h0 => hrem (UInt32.toNat_inj.mp h0)
  have hzero : c.segmentLeft.toNat = 0 := by rw [hleft]; rfl
  have hnone : available [] = 0 := rfl
  omega

/-- How the loop ends when no helper call fails: all bytes are out, or the list
is too short, and the callback that found out says so or remaining bytes do. -/
def Finished (k : Kernel) (memory : SgMemory) (c₀ : CopyContext) (segs : List SgSegment)
    (st : Probe) (s : SgContext × Probe) : Prop :=
  (s.1.remaining = 0 ∧ ∃ rest frags, Gathering k memory c₀ segs st rest frags s.1 s.2) ∨
    (available segs < c₀.total.toNat ∧ (s.1.copy.reason ≠ 0 ∨ s.1.remaining ≠ 0))

/-- As many callbacks as there was work are enough. -/
theorem Gathering.run {k : Kernel} {memory : SgMemory} {c₀ : CopyContext}
    {segs rest : List SgSegment} {st t : Probe} {frags : List Fragment} {c : SgContext} {n : Nat}
    (h : Gathering k memory c₀ segs st rest frags c t) (hn : c.work ≤ n) :
    Finished k memory c₀ segs st (Loop.run (sgCopySegment k memory) n 0 (c, t)) := by
  have hfinal := Loop.run_rule (sgCopySegment k memory) (n := n) (i := 0) (s := (c, t))
    (I := fun j s => s.1.work + j ≤ n ∧
      ∃ rest frags, Gathering k memory c₀ segs st rest frags s.1 s.2)
    (Q := Finished k memory c₀ segs st) ⟨hn, rest, frags, h⟩ ?_
  · rcases hfinal with hQ | ⟨hwork, rest, frags, hg⟩
    · exact hQ
    · generalize Loop.run (sgCopySegment k memory) n 0 (c, t) = s at hwork hg ⊢
      by_cases hrem : s.1.remaining = 0
      · exact .inl ⟨hrem, rest, frags, hg⟩
      · -- no work is left, hence no segment and no entry
        have hnone : s.1.work = 0 := by omega
        unfold SgContext.work chunkSize at hnone
        have hleft : s.1.segmentLeft.toNat = 0 := by omega
        have hsegs : s.1.segmentsLeft.toNat = 0 := by omega
        have hrest : rest = [] := by
          have hentries := hg.entries
          rwa [hsegs] at hentries
        subst hrest
        exact .inr ⟨hg.short (UInt32.toNat_inj.mp hleft) hrem, .inr hrem⟩
  · rintro j ⟨c, t⟩ b s' - - ⟨hwork, rest, frags, hg⟩ hb
    by_cases hrem : c.remaining = 0
    · unfold sgCopySegment at hb
      dsimp only at hb
      rw [if_pos hrem] at hb
      cases hb
      exact .inr ⟨rfl, .inl ⟨hrem, rest, frags, hg⟩⟩
    · rcases hg.step hrem j with ⟨rest', frags', c', t', hcall, hg', hless⟩ | ⟨hleft, rfl, hcall⟩
      · rw [hcall] at hb
        cases hb
        refine .inl ⟨rfl, ?_, rest', frags', hg'⟩
        dsimp only at hwork hless ⊢
        omega
      · rw [hcall] at hb
        cases hb
        exact .inr ⟨rfl, .inr ⟨hg.short hleft hrem, .inl (by simp [lossRead])⟩⟩

/-! ## The loop of `copy_sg` -/

def sgStart (urb : Urb) (segments : UInt32) (copy : CopyContext) : SgContext :=
  { next := urb.sg
    copy := copy
    remaining := copy.total
    segmentLeft := 0
    segmentsLeft := segments }

/-- The context that the loop of `copy_sg` leaves behind. -/
def sgFinal (k : Kernel) (config : CaptureConfig) (urb : Urb) (segments : UInt32)
    (copy : CopyContext) (st : Probe) : SgContext × Probe :=
  (bpfLoop (segments.toNat + chunkCount copy.total) (sgCopySegment k config.memory)
    (sgStart urb segments copy) ((st.count 7).fails).2).2

theorem copySg_eq {k : Kernel} {config : CaptureConfig} {urb : Urb} {segments : UInt32}
    {c : CopyContext} {st : Probe} (hshift : config.memory.pageShift ≠ 0) (hq : Quiet st)
    (hlimit : segments.toNat + chunkCount c.total ≤ 2 ^ 23) :
    copySg k config urb segments c st =
      if (sgFinal k config urb segments c st).1.remaining ≠ 0 ∧
          (sgFinal k config urb segments c st).1.copy.reason = 0 then
        ({ (sgFinal k config urb segments c st).1.copy with reason := lossRead },
          (sgFinal k config urb segments c st).2.count 4)
      else ((sgFinal k config urb segments c st).1.copy,
        (sgFinal k config urb segments c st).2) := by
  have hq' : Quiet (st.count 7) := hq
  obtain ⟨st₁, h1, hq₁⟩ := hq'.fails
  obtain ⟨st₂, h2, -⟩ := hq₁.fails
  unfold copySg sgFinal sgStart
  dsimp only
  rw [if_neg hshift, h1]
  dsimp only
  rw [if_neg (by omega)]
  unfold bpfLoop
  rw [h2]
  simp

theorem gathered_sgFinal {k : Kernel} {config : CaptureConfig} {urb : Urb} {segments : UInt32}
    {c : CopyContext} {st : Probe} {segs : List SgSegment} (hq : Quiet st)
    (hentries : Entries k config.memory segments.toNat urb.sg segs) (hreason : c.reason = 0)
    (hcopied : c.copied = 0) :
    Finished k config.memory c segs st (sgFinal k config urb segments c st) := by
  have hq' : Quiet (st.count 7) := hq
  obtain ⟨st₁, h1, hq₁⟩ := hq'.fails
  obtain ⟨st₂, h2, hq₂⟩ := hq₁.fails
  have hem : Emits st st₂ [] 0 := (Emits.countSg.trans (Emits.fails h1)).trans (Emits.fails h2)
  have hstart : Gathering k config.memory c segs st segs [] (sgStart urb segments c) st₂ := by
    refine ⟨hq₂, rfl, hreason, ?_, Nat.zero_le _, hentries, hem, hcopied.symm, ?_⟩
    · simp [sgStart, hcopied]
    · simp [sgStart, Kernel.read]
  have hwork : (sgStart urb segments c).work ≤ segments.toNat + chunkCount c.total := by
    simp only [SgContext.work, sgStart, chunkCount, UInt32.toNat_zero]
    unfold chunkSize
    omega
  have hrun := hstart.run hwork
  unfold sgFinal bpfLoop
  rw [h1]
  dsimp only
  rw [h2]
  exact hrun

/-! ## The counters -/

/-- `sgAdvance` with its subtraction checked. -/
def sgAdvanceChecked (k : Kernel) (memory : SgMemory) (c : SgContext) (st : Probe) :
    Checked (Option SgContext × Probe) :=
  if c.segmentLeft ≠ 0 then .ok (some c, st)
  else if c.next = 0 ∨ c.segmentsLeft = 0 then .ok (none, st)
  else
    match coreSgSegment k memory c.next st with
    | (none, st) => .ok (none, st)
    | (some segment, st) => do
      let segmentsLeft ← Checked.sub32 c.segmentsLeft 1
      .ok (some { c with
        next := segment.next
        segmentsLeft := segmentsLeft
        segmentLeft := min segment.length c.remaining
        copy := { c.copy with source := segment.source } }, st)

/-- `sg_copy_segment` with its subtractions checked, the saturating one too. -/
def sgCopySegmentChecked (k : Kernel) (memory : SgMemory) (_index : Nat) :
    SgContext × Probe → Checked (Bool × (SgContext × Probe))
  | (c, st) =>
    if c.remaining = 0 then .ok (true, (c, st))
    else do
      match ← sgAdvanceChecked k memory c st with
      | (none, st) =>
        .ok (true, ({ c with copy := { c.copy with reason := lossRead } }, st.count 4))
      | (some c, st) =>
        let length := min c.segmentLeft (UInt32.ofNat chunkSize)
        if length = 0 then .ok (false, (c, st))
        else
          let copy := { c.copy with destination := c.copy.copied }
          match copyChunk k chunkSize copy 0 length.toNat st with
          | (reason, st) =>
            if reason ≠ 0 then .ok (true, ({ c with copy := { copy with reason := reason } }, st))
            else do
              let segmentLeft ← Checked.sub32 c.segmentLeft length
              let remaining ← Checked.sub32 c.remaining length
              .ok (false, ({ c with
                copy := { copy with
                  reason := reason
                  copied := copy.copied + length.toNat
                  source := copy.source + length.toUInt64 }
                segmentLeft := segmentLeft
                remaining := remaining }, st))

/-- The loop of `copy_sg` over the checked callback. -/
def sgFinalChecked (k : Kernel) (config : CaptureConfig) (urb : Urb) (segments : UInt32)
    (copy : CopyContext) (st : Probe) : Checked (SgContext × Probe) :=
  match ((st.count 7).fails).2.fails with
  | (true, st) => .ok (sgStart urb segments copy, st)
  | (false, st) =>
    Loop.runChecked (sgCopySegmentChecked k config.memory)
      (segments.toNat + chunkCount copy.total) 0 (sgStart urb segments copy, st)

theorem sgAdvanceChecked_eq (k : Kernel) (memory : SgMemory) (c : SgContext) (st : Probe) :
    sgAdvanceChecked k memory c st = .ok (sgAdvance k memory c st) := by
  unfold sgAdvanceChecked sgAdvance
  split
  · rfl
  split
  · rfl
  · rename_i hend
    have hone : (1 : UInt32) ≤ c.segmentsLeft := by
      refine UInt32.le_iff_toNat_le.mpr (Nat.pos_of_ne_zero fun h0 => hend (.inr ?_))
      exact UInt32.toNat_inj.mp h0
    generalize coreSgSegment k memory c.next st = r
    obtain ⟨segment, st'⟩ := r
    cases segment with
    | none => rfl
    | some segment =>
      dsimp only
      rw [Checked.sub32_ok hone]
      rfl

/-- No subtraction of the callback goes below zero while a segment never exceeds
what remains. -/
theorem sgCopySegmentChecked_eq {k : Kernel} {memory : SgMemory} {i : Nat} {c : SgContext}
    {st : Probe} (h : c.segmentLeft.toNat ≤ c.remaining.toNat) :
    sgCopySegmentChecked k memory i (c, st) = .ok (sgCopySegment k memory i (c, st)) := by
  unfold sgCopySegmentChecked sgCopySegment
  dsimp only
  split
  · rfl
  rw [sgAdvanceChecked_eq, Checked.ok_bind]
  generalize hadv : sgAdvance k memory c st = r
  obtain ⟨next, st'⟩ := r
  obtain ⟨-, hnext⟩ := sgAdvance_emits hadv
  cases next with
  | none => rfl
  | some d =>
    obtain ⟨-, hrem, hleft⟩ := hnext d rfl
    replace hleft := hleft h
    have hseg : min d.segmentLeft (UInt32.ofNat chunkSize) ≤ d.segmentLeft := by
      rw [UInt32.le_iff_toNat_le, toNat_min]
      exact Nat.min_le_left _ _
    have hle : min d.segmentLeft (UInt32.ofNat chunkSize) ≤ d.remaining := by
      refine UInt32.le_trans hseg (UInt32.le_iff_toNat_le.mpr ?_)
      rw [hrem]
      exact hleft
    dsimp only
    split
    · rfl
    split
    · rfl
    · rw [Checked.sub32_ok hseg, Checked.ok_bind, Checked.sub32_ok hle, saturatingSub, if_pos hle]
      rfl

theorem sgFinalChecked_eq {k : Kernel} {config : CaptureConfig} {urb : Urb} {segments : UInt32}
    {c : CopyContext} {st : Probe} (hreason : c.reason = 0) (hcopied : c.copied = 0) :
    sgFinalChecked k config urb segments c st = .ok (sgFinal k config urb segments c st) := by
  unfold sgFinalChecked sgFinal bpfLoop
  generalize ((st.count 7).fails).2.fails = r
  obtain ⟨failed, st'⟩ := r
  cases failed with
  | true => rfl
  | false =>
    have hstart : SgCopying k config.memory (k.listBytes config.memory segments.toNat urb.sg) c st'
        (sgStart urb segments c, st') :=
      ⟨rfl, hreason, by simp [sgStart, hcopied], Nat.zero_le _, [], Emits.refl _, hcopied.symm, rfl⟩
    refine Loop.runChecked_eq (I := fun _ => SgCopying k config.memory _ c st') hstart (fun i s _ hI => ?_)
      (fun i s s' _ hI hb => ?_)
    · exact sgCopySegmentChecked_eq hI.2.2.2.1
    · rcases hI.step hb with ⟨_, hnext⟩ | ⟨hstop, _⟩
      · exact hnext
      · cases hstop

/-- The scatter-gather copy, when no lookup, read or reservation fails: all bytes
in order and in chunks when the list has them, a reason when it does not. -/
theorem copySg_exact (k : Kernel) (config : CaptureConfig) (urb : Urb) (segments : UInt32)
    (c : CopyContext) (st : Probe) (segs : List SgSegment) (hshift : config.memory.pageShift ≠ 0)
    (hq : Quiet st) (hentries : Entries k config.memory segments.toNat urb.sg segs)
    (hlimit : segments.toNat + chunkCount c.total ≤ 2 ^ 23)
    (hreason : c.reason = 0) (hcopied : c.copied = 0) :
    (c.total.toNat ≤ available segs →
      (copySg k config urb segments c st).1.reason = 0 ∧
      (sgFinal k config urb segments c st).1.remaining = 0 ∧
      (copySg k config urb segments c st).1.copied = c.total.toNat ∧
      ∃ frags, Emits st (copySg k config urb segments c st).2
          (frags.map (dataRecord c.eventId)) 0 ∧
        Chain 0 frags c.total.toNat ∧
        frags.flatMap Prod.snd = (gathered k segs).take c.total.toNat) ∧
    (available segs < c.total.toNat → (copySg k config urb segments c st).1.reason ≠ 0) ∧
    sgFinalChecked k config urb segments c st = .ok (sgFinal k config urb segments c st) := by
  have hfinal := gathered_sgFinal hq hentries hreason hcopied
  rw [copySg_eq hshift hq hlimit]
  refine ⟨fun hlong => ?_, fun hshort => ?_, sgFinalChecked_eq hreason hcopied⟩
  · rcases hfinal with ⟨hrem, rest, frags, hg⟩ | ⟨hshort, _⟩
    · have hdone := hg.total
      rw [hrem, UInt32.toNat_zero, Nat.add_zero] at hdone
      rw [if_neg (by simp [hrem])]
      refine ⟨hg.reason, hrem, hdone, frags, hg.emits, ?_, ?_⟩
      · rw [← hdone]
        exact hg.chain
      · have hdata := hg.data
        rwa [hrem, UInt32.toNat_zero, List.take_zero, List.append_nil] at hdata
    · omega
  · rcases hfinal with ⟨hrem, rest, frags, hg⟩ | ⟨_, hend⟩
    · have hlen := hg.lengths
      have hdone := hg.total
      rw [hrem, UInt32.toNat_zero] at hlen hdone
      omega
    · split
      · simp [lossRead]
      · rename_i hnot
        rcases hend with hbad | hrem
        · exact hbad
        · exact fun h0 => hnot ⟨hrem, h0⟩

/-- A list of three entries, the first of them empty. -/
def sparseKernel : Kernel :=
  { host := .little
    memory := fun address => address.toUInt8
    segment := fun _ address =>
      if address = 16 then some ⟨0x1000, 32, 0⟩
      else if address = 32 then some ⟨0x2010, 48, 3⟩
      else if address = 48 then some ⟨0x3020, 0, 4⟩
      else none
    stale := fun _ => 0 }

def sparseConfig : CaptureConfig :=
  { epochOffsetNs := 0
    givebackStart := 0
    givebackEnd := 0
    memory := ⟨0, 0, 12, 48, 2⟩
    bus := 0
    device := 0xffffffff
    enabled := 1
    filterCount := 0 }

def sparseUrb : Urb :=
  { busnum := 1
    devnum := 5
    idVendor := 0x1d6b
    idProduct := 0x0102
    bmAttributes := 2
    bEndpointAddress := 0x02
    status := -115
    unlinked := 0
    transferFlags := 0
    transferBuffer := 0
    transferBufferLength := 5
    actualLength := 0
    setupPacket := Vector.replicate 8 0
    startFrame := 0
    numberOfPackets := 0
    interval := 0
    errorCount := 0
    numSgs := 3
    sg := 16
    isoFrameDesc := fun _ => ⟨0, 0, 0, 0⟩ }

def sparseProbe : Probe := ⟨[], 0, ⟨0, 0, 0, 0, 0, 0, 0, 0⟩, []⟩

theorem copySg_exact_sparse :
    (copySg sparseKernel sparseConfig sparseUrb 3 ⟨0, 0, 7, 5, 0, 0⟩ sparseProbe).1.reason = 0 ∧
      (sgFinal sparseKernel sparseConfig sparseUrb 3 ⟨0, 0, 7, 5, 0, 0⟩ sparseProbe).1.remaining =
        0 ∧
      ∃ frags : List Fragment,
        Emits sparseProbe
          (copySg sparseKernel sparseConfig sparseUrb 3 ⟨0, 0, 7, 5, 0, 0⟩ sparseProbe).2
          (frags.map (dataRecord 7)) 0 ∧
        Chain 0 frags 5 ∧ frags.flatMap Prod.snd = [0x10, 0x11, 0x12, 0x20, 0x21] := by
  obtain ⟨hlong, -, -⟩ := copySg_exact sparseKernel sparseConfig sparseUrb 3 ⟨0, 0, 7, 5, 0, 0⟩
    sparseProbe [⟨0x1000, 32, 0⟩, ⟨0x2010, 48, 3⟩, ⟨0x3020, 0, 4⟩] (by decide)
    (by simp [Quiet, sparseProbe]) (by simp [Entries, sparseKernel, sparseUrb]) (by decide) rfl rfl
  obtain ⟨hreason, hrem, -, frags, hem, hchain, hdata⟩ := hlong (by decide)
  exact ⟨hreason, hrem, frags, hem, hchain, hdata⟩

end UsbScope.Ebpf
