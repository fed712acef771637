import UsbScope.Ebpf.Emit
import UsbScope.Capture.Decode

/-! # What the copy loops publish

`Emits` says which records a piece of a probe adds to the ring and how many
losses it counts. The copy loops publish fragments one after another (`Chain`)
and report a reason exactly when they counted a loss (`Copied`). -/
namespace UsbScope.Ebpf
open UsbScope.Lib UsbScope.Common UsbScope.Capture

/-- What the live loop passes on of a ring item: the bytes its header counts. -/
def trim (item : Bytes) : Bytes := item.take (u32At item 4).toNat

/-- The losses that make an event incomplete. -/
def Probe.losses (st : Probe) : Nat :=
  st.stats.ringLosses + st.stats.readErrors + st.stats.unsupportedBuffers

/-- From `st` to `st'` the probe published `records` and counted `lost` losses. -/
structure Emits (st st' : Probe) (records : List Bytes) (lost : Nat) : Prop where
  published : ∃ items, st'.events = st.events ++ items ∧ items.map trim = records
  ring : st.stats.ringLosses ≤ st'.stats.ringLosses
  read : st.stats.readErrors ≤ st'.stats.readErrors
  unsupported : st.stats.unsupportedBuffers ≤ st'.stats.unsupportedBuffers
  total : st'.losses = st.losses + lost
  sequence : st'.sequence = st.sequence
  hooks : st'.stats.submitted = st.stats.submitted ∧ st'.stats.completed = st.stats.completed ∧
    st'.stats.submitErrors = st.stats.submitErrors ∧ st'.stats.stateErrors = st.stats.stateErrors

namespace Emits
variable {st st' st'' : Probe} {records records' : List Bytes} {lost lost' : Nat}

theorem refl (st : Probe) : Emits st st [] 0 :=
  ⟨⟨[], by simp, rfl⟩, le_rfl, le_rfl, le_rfl, rfl, rfl, rfl, rfl, rfl, rfl⟩

theorem trans (h : Emits st st' records lost) (h' : Emits st' st'' records' lost') :
    Emits st st'' (records ++ records') (lost + lost') := by
  obtain ⟨items, hev, hitems⟩ := h.published
  obtain ⟨items', hev', hitems'⟩ := h'.published
  obtain ⟨h1, h2, h3, h4⟩ := h.hooks
  obtain ⟨h1', h2', h3', h4'⟩ := h'.hooks
  refine ⟨⟨items ++ items', ?_, ?_⟩, h.ring.trans h'.ring, h.read.trans h'.read,
    h.unsupported.trans h'.unsupported, ?_, h'.sequence.trans h.sequence, h1'.trans h1,
    h2'.trans h2, h3'.trans h3, h4'.trans h4⟩
  · rw [hev', hev, List.append_assoc]
  · rw [List.map_append, hitems, hitems']
  · rw [h'.total, h.total, Nat.add_assoc]

/-- A fallible call by itself publishes nothing and counts nothing. -/
theorem fails {f : Bool} (h : st.fails = (f, st')) : Emits st st' [] 0 := by
  unfold Probe.fails at h
  split at h
  · cases h
    exact refl _
  · cases h
    exact ⟨⟨[], by simp, rfl⟩, le_rfl, le_rfl, le_rfl, rfl, rfl, rfl, rfl, rfl, rfl⟩

theorem submit (st : Probe) {item record : Bytes} (h : trim item = record) :
    Emits st (st.submit item) [record] 0 :=
  ⟨⟨[item], rfl, by simp [h]⟩, le_rfl, le_rfl, le_rfl, rfl, rfl, rfl, rfl, rfl, rfl⟩

/-- The counters 3, 4 and 5 count a loss. -/
theorem count {field : Nat} (h : field = 3 ∨ field = 4 ∨ field = 5) :
    Emits st (st.count field) [] 1 := by
  rcases h with rfl | rfl | rfl
  · refine ⟨⟨[], by simp [Probe.count], rfl⟩, ?_, ?_, ?_, ?_, rfl, rfl, rfl, rfl, rfl⟩ <;>
      simp [Probe.count, bump, Probe.losses]
    omega
  · refine ⟨⟨[], by simp [Probe.count], rfl⟩, ?_, ?_, ?_, ?_, rfl, rfl, rfl, rfl, rfl⟩ <;>
      simp [Probe.count, bump, Probe.losses]
    omega
  · refine ⟨⟨[], by simp [Probe.count], rfl⟩, ?_, ?_, ?_, ?_, rfl, rfl, rfl, rfl, rfl⟩ <;>
      simp [Probe.count, bump, Probe.losses]
    omega

theorem countSg : Emits st (st.count 7) [] 0 :=
  ⟨⟨[], by simp [Probe.count], rfl⟩, le_rfl, le_rfl, le_rfl, rfl, rfl, rfl, rfl, rfl, rfl⟩

end Emits

/-! ## Records and fragments -/

theorem header_eq (k : Kernel) (kind : UInt16) (id : UInt64) (size offset : Nat) :
    header k kind id size offset =
      RecordHeader.wire ⟨abiVersion, kind, UInt32.ofNat size, id, UInt64.ofNat offset⟩ :=
  RecordHeader.toLe_layout _ _

/-- The live loop drops exactly the unused bytes of a reservation. -/
theorem trim_item (k : Kernel) (kind : UInt16) (id : UInt64) (offset : Nat) (body rest : Bytes)
    (h : body.length ≤ chunkSize) :
    trim (header k kind id (24 + body.length) offset ++ (body ++ rest)) =
      record kind id (UInt64.ofNat offset) body := by
  unfold chunkSize at h
  have hsize : (UInt32.ofNat (24 + body.length)).toNat = 24 + body.length :=
    UInt32.toNat_ofNat_of_lt' (by simp only [UInt32.size]; omega)
  rw [header_eq, trim, (header_fields _ _).2.2.1, hsize, ← List.append_assoc, record]
  exact List.take_left' (by simp)

def dataRecord (id : UInt64) (f : Fragment) : Bytes := record recordData id (UInt64.ofNat f.1) f.2

/-- Fragments one after another, from `start` to `stop`. -/
def Chain : Nat → List Fragment → Nat → Prop
  | start, [], stop => start = stop
  | start, f :: rest, stop =>
    f.1 = start ∧ f.2 ≠ [] ∧ f.2.length ≤ chunkSize ∧ Chain f.stop rest stop

namespace Chain

theorem snoc {start stop : Nat} {frags : List Fragment} {f : Fragment} (h : Chain start frags stop)
    (h1 : f.1 = stop) (h2 : f.2 ≠ []) (h3 : f.2.length ≤ chunkSize) :
    Chain start (frags ++ [f]) f.stop := by
  induction frags generalizing start with
  | nil =>
    cases h
    exact ⟨h1, h2, h3, rfl⟩
  | cons g rest ih =>
    obtain ⟨hg1, hg2, hg3, hrest⟩ := h
    exact ⟨hg1, hg2, hg3, ih hrest⟩

theorem le {start stop : Nat} {frags : List Fragment} (h : Chain start frags stop) :
    start ≤ stop := by
  induction frags generalizing start with
  | nil => exact le_of_eq h
  | cons f rest ih =>
    obtain ⟨rfl, _, _, hrest⟩ := h
    have := ih hrest
    unfold Fragment.stop at this
    omega

/-- The fragments lie inside the chain and are well formed. -/
theorem mem {start stop : Nat} {frags : List Fragment} (h : Chain start frags stop) {f : Fragment}
    (hf : f ∈ frags) : start ≤ f.1 ∧ f.stop ≤ stop ∧ f.2 ≠ [] ∧ f.2.length ≤ chunkSize := by
  induction frags generalizing start with
  | nil => cases hf
  | cons g rest ih =>
    obtain ⟨rfl, hg2, hg3, hrest⟩ := h
    rcases List.mem_cons.mp hf with rfl | hf
    · exact ⟨le_rfl, hrest.le, hg2, hg3⟩
    · obtain ⟨h1, h2⟩ := ih hrest hf
      refine ⟨?_, h2⟩
      unfold Fragment.stop at h1
      omega

theorem sum {start stop : Nat} {frags : List Fragment} (h : Chain start frags stop) :
    start + (frags.map fun f => f.2.length).sum = stop := by
  induction frags generalizing start with
  | nil => exact h
  | cons f rest ih =>
    obtain ⟨rfl, _, _, hrest⟩ := h
    have := ih hrest
    unfold Fragment.stop at this
    rw [List.map_cons, List.sum_cons]
    omega

theorem has {start stop : Nat} {frags : List Fragment} (h : Chain start frags stop) {q : Nat}
    (h1 : start ≤ q) (h2 : q < stop) : ∃ f ∈ frags, f.Has q := by
  induction frags generalizing start with
  | nil =>
    have : start = stop := h
    omega
  | cons f rest ih =>
    obtain ⟨rfl, _, _, hrest⟩ := h
    by_cases hq : q < f.stop
    · exact ⟨f, by simp, h1, hq⟩
    · obtain ⟨g, hg, hhas⟩ := ih hrest (by omega)
      exact ⟨g, List.mem_cons_of_mem _ hg, hhas⟩

theorem disjoint {start stop : Nat} {frags : List Fragment} (h : Chain start frags stop) :
    frags.Pairwise fun f g => ∀ q, f.Has q → ¬ g.Has q := by
  induction frags generalizing start with
  | nil => exact List.Pairwise.nil
  | cons f rest ih =>
    obtain ⟨rfl, _, _, hrest⟩ := h
    refine List.pairwise_cons.mpr ⟨?_, ih hrest⟩
    intro g hg q hf hgq
    have := (hrest.mem hg).1
    have h1 := hf.2
    have h2 := hgq.1
    omega

end Chain

/-- The result of copying `total` bytes to the positions from `start` on: a
chain of fragments, each as `P` says, and a reason exactly when it stopped
short and a loss was counted. -/
def Copied (P : Fragment → Prop) (id : UInt64) (start total : Nat) (st st' : Probe)
    (reason : UInt32) (copied : Nat) : Prop :=
  ∃ frags lost, Emits st st' (frags.map (dataRecord id)) lost ∧
    Chain start frags (start + copied) ∧ copied ≤ total ∧ (∀ f ∈ frags, P f) ∧
    ((reason = 0 ∧ lost = 0 ∧ copied = total) ∨ (reason ≠ 0 ∧ lost ≠ 0))

/-- The fragment carries what memory holds from `source` on, `start` being the
position of the first byte. -/
def Mirrors (k : Kernel) (source : UInt64) (start : Nat) (f : Fragment) : Prop :=
  ∀ q b, f.Carries q b → b = k.memory (source + UInt64.ofNat (q - start))

/-! ## Contiguous buffers -/

def chunk (k : Kernel) (c : CopyContext) (offset length : Nat) : Fragment :=
  (c.destination + offset, k.read (c.source + UInt64.ofNat offset) length)

theorem mirrors_chunk (k : Kernel) (c : CopyContext) (offset length : Nat) :
    Mirrors k c.source c.destination (chunk k c offset length) := by
  rintro q b ⟨hle, hb⟩
  simp only [chunk] at hle hb
  have hq : q - c.destination = offset + (q - (c.destination + offset)) := by omega
  simp only [Kernel.read, List.getElem?_map, Option.map_eq_some_iff] at hb
  obtain ⟨i, hi, rfl⟩ := hb
  obtain ⟨_, hi⟩ := List.getElem?_eq_some_iff.mp hi
  rw [List.getElem_range] at hi
  rw [hq, UInt64.ofNat_add, hi, UInt64.add_assoc]

/-- One chunk: published, or counted as a loss. -/
theorem copyChunk_emits {k : Kernel} {n : Nat} {c : CopyContext} {offset length : Nat}
    {st st' : Probe} {reason : UInt32} (h0 : 0 < length) (hn : length ≤ n)
    (hl : length ≤ chunkSize) (h : copyChunk k n c offset length st = (reason, st')) :
    (reason = 0 ∧ Emits st st' [dataRecord c.eventId (chunk k c offset length)] 0) ∨
      (reason ≠ 0 ∧ Emits st st' [] 1) := by
  unfold copyChunk at h
  rw [if_neg (by omega)] at h
  split at h
  · rename_i st₁ h1
    cases h
    exact .inr ⟨by decide, (Emits.fails h1).trans (Emits.count (.inl rfl))⟩
  · rename_i st₁ h1
    split at h
    · rename_i st₂ h2
      cases h
      exact .inr ⟨by decide, ((Emits.fails h1).trans (Emits.fails h2)).trans
        (Emits.count (.inr (.inl rfl)))⟩
    · rename_i st₂ h2
      cases h
      have hitem := trim_item k recordData c.eventId (c.destination + offset)
        (k.read (c.source + UInt64.ofNat offset) length) (k.leftover (n - length))
        (by simpa using hl)
      rw [Kernel.length_read] at hitem
      exact .inl ⟨rfl, ((Emits.fails h1).trans (Emits.fails h2)).trans (Emits.submit _ hitem)⟩

theorem le_reservation {length : Nat} (h : length ≤ chunkSize) : length ≤ reservation length := by
  unfold reservation
  split
  · assumption
  · split
    · assumption
    · split
      · assumption
      · exact h

theorem mul_lt_of_lt_chunkCount {total : UInt32} {i : Nat} (h : i < chunkCount total) :
    i * chunkSize < total.toNat := by
  unfold chunkCount at h
  unfold chunkSize at h ⊢
  omega

theorem le_chunkCount_mul (total : UInt32) : total.toNat ≤ chunkCount total * chunkSize := by
  unfold chunkCount chunkSize
  omega

theorem copyCallback_emits {k : Kernel} {i : Nat} {c c' : CopyContext} {st st' : Probe} {b : Bool}
    (hlt : i * chunkSize < c.total.toNat) (h : copyCallback k i (c, st) = (b, (c', st'))) :
    (b = false ∧
      c' = { c with copied := c.copied + min (c.total.toNat - i * chunkSize) chunkSize } ∧
      Emits st st' [dataRecord c.eventId
        (chunk k c (i * chunkSize) (min (c.total.toNat - i * chunkSize) chunkSize))] 0) ∨
    (b = true ∧ c'.reason ≠ 0 ∧ c'.copied = c.copied ∧ Emits st st' [] 1) := by
  have hpos : 0 < min (c.total.toNat - i * chunkSize) chunkSize := by
    unfold chunkSize at hlt ⊢
    omega
  have hle : min (c.total.toNat - i * chunkSize) chunkSize ≤ chunkSize := Nat.min_le_right _ _
  unfold copyCallback at h
  dsimp only at h
  rw [if_neg (by omega)] at h
  generalize hchunk : copyChunk k (reservation (min (c.total.toNat - i * chunkSize) chunkSize)) c
    (i * chunkSize) (min (c.total.toNat - i * chunkSize) chunkSize) st = r at h
  obtain ⟨reason, t⟩ := r
  rcases copyChunk_emits hpos (le_reservation hle) hle hchunk with ⟨rfl, hone⟩ | ⟨hne, hone⟩
  · cases h
    exact .inl ⟨rfl, rfl, hone⟩
  · simp only [if_pos hne] at h
    cases h
    exact .inr ⟨rfl, hne, rfl, hone⟩

/-- After `i` chunks nothing was lost and `i` chunks, or all bytes, are there. -/
def CopiedChunks (k : Kernel) (c : CopyContext) (st : Probe) (i : Nat) (s : CopyContext × Probe) :
    Prop :=
  ∃ frags, s.1 = { c with copied := min (i * chunkSize) c.total.toNat } ∧
    Emits st s.2 (frags.map (dataRecord c.eventId)) 0 ∧
    Chain c.destination frags (c.destination + s.1.copied) ∧
    ∀ f ∈ frags, Mirrors k c.source c.destination f

/-- The loop was stopped by a loss. -/
def StoppedShort (k : Kernel) (c : CopyContext) (st : Probe) (s : CopyContext × Probe) : Prop :=
  s.1.reason ≠ 0 ∧ ∃ frags, Emits st s.2 (frags.map (dataRecord c.eventId)) 1 ∧
    Chain c.destination frags (c.destination + s.1.copied) ∧ s.1.copied ≤ c.total.toNat ∧
    ∀ f ∈ frags, Mirrors k c.source c.destination f

theorem CopiedChunks.step {k : Kernel} {c : CopyContext} {st : Probe} {i : Nat}
    {s s' : CopyContext × Probe} {b : Bool} (h : CopiedChunks k c st i s)
    (hi : i < chunkCount c.total) (hb : copyCallback k i s = (b, s')) :
    (b = false ∧ CopiedChunks k c st (i + 1) s') ∨ (b = true ∧ StoppedShort k c st s') := by
  obtain ⟨d, t⟩ := s
  obtain ⟨d', t'⟩ := s'
  obtain ⟨frags, rfl, hem, hch, hmir⟩ := h
  have hlt := mul_lt_of_lt_chunkCount hi
  have hmin : min (i * chunkSize) c.total.toNat = i * chunkSize := Nat.min_eq_left hlt.le
  dsimp only at hem hch
  rw [hmin] at hb hch
  rcases copyCallback_emits (c := { c with copied := i * chunkSize }) hlt hb with
    ⟨rfl, rfl, hone⟩ | ⟨rfl, hne, hcop, hone⟩
  · refine .inl ⟨rfl, frags ++ [chunk k c (i * chunkSize)
      (min (c.total.toNat - i * chunkSize) chunkSize)], ?_, ?_, ?_, ?_⟩
    · dsimp only
      congr 1
      unfold chunkSize at hlt ⊢
      omega
    · rw [List.map_append]
      exact hem.trans hone
    · have hne : (chunk k c (i * chunkSize)
          (min (c.total.toNat - i * chunkSize) chunkSize)).2 ≠ [] := by
        rw [← List.length_pos_iff]
        simp only [chunk, Kernel.length_read]
        unfold chunkSize at hlt ⊢
        omega
      have hsnoc := hch.snoc rfl hne (by simp [chunk])
      simpa [chunk, Fragment.stop, Nat.add_assoc] using hsnoc
    · intro f hf
      rcases List.mem_append.mp hf with hf | hf
      · exact hmir f hf
      · obtain rfl := List.mem_singleton.mp hf
        exact mirrors_chunk k c _ _
  · refine .inr ⟨rfl, hne, frags, ?_, ?_, ?_, hmir⟩
    · simpa using hem.trans hone
    · rw [hcop]
      exact hch
    · rw [hcop]
      exact hlt.le

/-- The loop over the chunks of a contiguous buffer, with what its callers make
of a failing `bpf_loop`. -/
theorem copyLoop_copied {k : Kernel} {c c' : CopyContext} {st st' : Probe} {failed : Bool}
    (hr : c.reason = 0) (hc : c.copied = 0)
    (h : bpfLoop (chunkCount c.total) (copyCallback k) c st = (failed, (c', st'))) :
    Copied (Mirrors k c.source c.destination) c.eventId c.destination c.total.toNat st
      (if failed then st'.count 4 else st') (if failed then lossRead else c'.reason) c'.copied := by
  unfold bpfLoop at h
  split at h
  · rename_i st₁ h1
    cases h
    refine ⟨[], 1, (Emits.fails h1).trans (Emits.count (.inr (.inl rfl))), ?_, ?_, by simp,
      .inr ⟨by simp [lossRead], by decide⟩⟩
    · rw [hc]
      rfl
    · rw [hc]
      exact Nat.zero_le _
  · rename_i st₁ h1
    injection h with hfail hrun
    subst hfail
    have hstart : CopiedChunks k c st 0 (c, st₁) := by
      refine ⟨[], ?_, Emits.fails h1, by simp [Chain, hc], by simp⟩
      rw [Nat.zero_mul, Nat.zero_min, ← hc]
    have hfinal := Loop.run_rule (copyCallback k) (n := chunkCount c.total)
      (Q := StoppedShort k c st) hstart fun j s b s' _ hj hI hb => hI.step (by omega) hb
    rw [hrun] at hfinal
    simp only [Bool.false_eq_true, if_false]
    rcases hfinal with ⟨hne, frags, hem, hch, hle, hmir⟩ | ⟨frags, hcc, hem, hch, hmir⟩
    · exact ⟨frags, 1, hem, hch, hle, hmir, .inr ⟨hne, by decide⟩⟩
    · dsimp only at hcc hem hch
      have htotal : c'.copied = c.total.toNat := by
        rw [hcc, Nat.zero_add]
        exact Nat.min_eq_right (le_chunkCount_mul c.total)
      refine ⟨frags, 0, hem, hch, htotal.le, hmir, .inl ⟨?_, rfl, htotal⟩⟩
      rw [hcc]
      exact hr

/-! ## Scatter-gather lists -/

theorem Kernel.read_append (k : Kernel) (address : UInt64) (m n : Nat) :
    k.read address (m + n) = k.read address m ++ k.read (address + UInt64.ofNat m) n := by
  simp only [Kernel.read, List.range_add, List.map_append, List.map_map]
  congr 1
  refine List.map_congr_left fun i _ => ?_
  simp [UInt64.add_assoc]

/-- The bytes behind the first `n` entries of the list at `address`, as far as
the list goes. -/
def Kernel.listBytes (k : Kernel) (memory : SgMemory) : Nat → UInt64 → Bytes
  | 0, _ => []
  | n + 1, address =>
    if address = 0 then []
    else
      match k.segment memory address with
      | none => []
      | some s => k.read s.source s.length.toNat ++ k.listBytes memory n s.next

/-- The fragment carries what the stream holds there. -/
def Follows (stream : Bytes) (f : Fragment) : Prop := ∀ q b, f.Carries q b → stream[q]? = some b

theorem Chain.follows {stream rest : Bytes} {start stop : Nat} {frags : List Fragment}
    (h : Chain start frags stop) (hdata : frags.flatMap Prod.snd ++ rest = stream.drop start) :
    ∀ f ∈ frags, Follows stream f := by
  induction frags generalizing start with
  | nil => simp
  | cons f more ih =>
    obtain ⟨rfl, -, -, hmore⟩ := h
    rw [List.flatMap_cons, List.append_assoc] at hdata
    intro g hg
    rcases List.mem_cons.mp hg with rfl | hg
    · rintro q b ⟨hle, hb⟩
      have hat := congrArg (fun l => l[q - g.1]?) hdata
      rw [List.getElem?_append_left (List.getElem?_eq_some_iff.mp hb).1, hb, List.getElem?_drop,
        Nat.add_sub_cancel' hle] at hat
      exact hat.symm
    · refine ih hmore ?_ g hg
      have hdrop := congrArg (List.drop f.2.length) hdata
      rwa [List.drop_left, List.drop_drop] at hdrop

namespace SgContext

def enter (c : SgContext) (s : SgSegment) : SgContext :=
  { c with
    next := s.next
    segmentsLeft := c.segmentsLeft - 1
    segmentLeft := min s.length c.remaining
    copy := { c.copy with source := s.source } }

/-- The bytes still to be copied. -/
def ahead (k : Kernel) (memory : SgMemory) (c : SgContext) : Bytes :=
  (k.read c.copy.source c.segmentLeft.toNat ++
    k.listBytes memory c.segmentsLeft.toNat c.next).take c.remaining.toNat

/-- Entering a segment leaves the bytes as they are. -/
theorem ahead_enter {k : Kernel} {memory : SgMemory} {c : SgContext} {s : SgSegment}
    (h0 : c.segmentLeft = 0) (hnext : c.next ≠ 0) (hsegs : c.segmentsLeft ≠ 0)
    (hs : k.segment memory c.next = some s) : (c.enter s).ahead k memory = c.ahead k memory := by
  have hpos : 1 ≤ c.segmentsLeft.toNat :=
    Nat.pos_of_ne_zero fun hz => hsegs (UInt32.toNat_inj.mp hz)
  obtain ⟨n, hn⟩ := Nat.exists_eq_add_of_le' hpos
  have hone : (c.segmentsLeft - 1).toNat = n := by
    rw [UInt32.toNat_sub_of_le _ _ (UInt32.le_iff_toNat_le.mpr (by simp [hn])), hn]
    rfl
  have hmin : (min s.length c.remaining).toNat = min s.length.toNat c.remaining.toNat :=
    toNat_min _ _
  have hlist : k.listBytes memory c.segmentsLeft.toNat c.next =
      k.read s.source s.length.toNat ++ k.listBytes memory n s.next := by
    rw [hn, Kernel.listBytes, if_neg hnext, hs]
  have hzero : k.read c.copy.source 0 = [] := rfl
  unfold ahead enter
  rw [hlist, h0]
  dsimp only
  rw [hone, hmin, UInt32.toNat_zero, hzero, List.nil_append]
  -- a segment longer than what remains is cut in both
  rcases le_total s.length.toNat c.remaining.toNat with hle | hle
  · rw [Nat.min_eq_left hle]
  · obtain ⟨d, hd⟩ := Nat.exists_eq_add_of_le hle
    have hcut := k.read_append s.source c.remaining.toNat d
    rw [← hd] at hcut
    rw [Nat.min_eq_right hle, hcut, List.append_assoc, List.take_left' (Kernel.length_read ..),
      List.take_left' (Kernel.length_read ..)]

theorem ahead_chunk {k : Kernel} {memory : SgMemory} {c c' : SgContext} {n : Nat}
    (hn : n ≤ c.segmentLeft.toNat) (hle : c.segmentLeft.toNat ≤ c.remaining.toNat)
    (hsource : c'.copy.source = c.copy.source + UInt64.ofNat n)
    (hleft : c'.segmentLeft.toNat = c.segmentLeft.toNat - n)
    (hremaining : c'.remaining.toNat = c.remaining.toNat - n)
    (hlist : c'.segmentsLeft = c.segmentsLeft ∧ c'.next = c.next) :
    k.read c.copy.source n ++ c'.ahead k memory = c.ahead k memory := by
  obtain ⟨d, hd⟩ := Nat.exists_eq_add_of_le hn
  have hcut : c.ahead k memory = k.read c.copy.source n ++
      (k.read (c.copy.source + UInt64.ofNat n) d ++
        k.listBytes memory c.segmentsLeft.toNat c.next).take (c.remaining.toNat - n) := by
    rw [ahead, hd, k.read_append, List.append_assoc, List.take_append, Kernel.length_read,
      List.take_of_length_le (by rw [Kernel.length_read]; omega)]
  rw [hcut, ahead, hsource, hleft, hremaining, hlist.1, hlist.2, hd, Nat.add_sub_cancel_left]

end SgContext

/-- The context with its segment has the same bytes ahead. -/
theorem sgAdvance_ahead {k : Kernel} {memory : SgMemory} {c c' : SgContext} {st st' : Probe}
    (h : sgAdvance k memory c st = (some c', st')) : c'.ahead k memory = c.ahead k memory := by
  unfold sgAdvance at h
  split at h
  · cases h
    rfl
  rename_i hleft
  rw [not_not] at hleft
  split at h
  · cases h
  rename_i hend
  rw [not_or] at hend
  generalize hseg : coreSgSegment k memory c.next st = res at h
  obtain ⟨segment, t⟩ := res
  cases segment with
  | none => cases h
  | some segment =>
    have hs : k.segment memory c.next = some segment := by
      unfold coreSgSegment at hseg
      split at hseg
      · cases hseg
      · exact (Prod.mk.inj hseg).1
    cases h
    exact SgContext.ahead_enter hleft hend.1 hend.2 hs

/-- Taking the next segment publishes nothing and keeps it within what remains. -/
theorem sgAdvance_emits {k : Kernel} {memory : SgMemory} {c : SgContext} {st st' : Probe}
    {r : Option SgContext} (h : sgAdvance k memory c st = (r, st')) :
    Emits st st' [] 0 ∧ ∀ c', r = some c' →
      c'.copy = { c.copy with source := c'.copy.source } ∧ c'.remaining = c.remaining ∧
      (c.segmentLeft.toNat ≤ c.remaining.toNat → c'.segmentLeft.toNat ≤ c.remaining.toNat) := by
  unfold sgAdvance at h
  split at h
  · cases h
    refine ⟨Emits.refl _, fun c' hc => ?_⟩
    cases hc
    exact ⟨rfl, rfl, id⟩
  split at h
  · cases h
    exact ⟨Emits.refl _, fun c' hc => by cases hc⟩
  · generalize hseg : coreSgSegment k memory c.next st = res at h
    have hem : Emits st res.2 [] 0 := by
      unfold coreSgSegment at hseg
      split at hseg
      · rename_i hf
        cases hseg
        exact Emits.fails hf
      · rename_i hf
        cases hseg
        exact Emits.fails hf
    obtain ⟨segment, t⟩ := res
    cases segment with
    | none =>
      cases h
      exact ⟨hem, fun c' hc => by cases hc⟩
    | some segment =>
      cases h
      refine ⟨hem, fun c' hc => ?_⟩
      cases hc
      refine ⟨rfl, rfl, fun _ => ?_⟩
      dsimp only
      rw [toNat_min]
      exact Nat.min_le_right _ _

/-- Nothing was lost so far: what was copied and what remains make up the total,
and the fragments and the bytes ahead the stream. -/
def SgCopying (k : Kernel) (memory : SgMemory) (stream : Bytes) (c₀ : CopyContext) (st : Probe)
    (s : SgContext × Probe) : Prop :=
  s.1.copy.eventId = c₀.eventId ∧ s.1.copy.reason = 0 ∧
    s.1.copy.copied + s.1.remaining.toNat = c₀.total.toNat ∧
    s.1.segmentLeft.toNat ≤ s.1.remaining.toNat ∧
    ∃ frags, Emits st s.2 (frags.map (dataRecord c₀.eventId)) 0 ∧ Chain 0 frags s.1.copy.copied ∧
      frags.flatMap Prod.snd ++ s.1.ahead k memory = stream.take c₀.total.toNat

/-- A callback stopped the loop: nothing remains, or a loss was counted. -/
def SgStopped (k : Kernel) (memory : SgMemory) (stream : Bytes) (c₀ : CopyContext) (st : Probe)
    (s : SgContext × Probe) : Prop :=
  (SgCopying k memory stream c₀ st s ∧ s.1.remaining = 0) ∨
    (s.1.copy.reason ≠ 0 ∧ s.1.copy.copied ≤ c₀.total.toNat ∧
      ∃ frags, Emits st s.2 (frags.map (dataRecord c₀.eventId)) 1 ∧
        Chain 0 frags s.1.copy.copied ∧ ∀ f ∈ frags, Follows (stream.take c₀.total.toNat) f)

theorem SgCopying.step {k : Kernel} {memory : SgMemory} {stream : Bytes} {c₀ : CopyContext}
    {st : Probe} {i : Nat} {s s' : SgContext × Probe} {b : Bool}
    (h : SgCopying k memory stream c₀ st s) (hb : sgCopySegment k memory i s = (b, s')) :
    (b = false ∧ SgCopying k memory stream c₀ st s') ∨
      (b = true ∧ SgStopped k memory stream c₀ st s') := by
  obtain ⟨c, t⟩ := s
  obtain ⟨hid, hreason, htotal, hleft, frags, hem, hch, hdata⟩ := h
  dsimp only at hid hreason htotal hleft hem hch hdata
  have hfollows : ∀ f ∈ frags, Follows (stream.take c₀.total.toNat) f :=
    hch.follows hdata
  unfold sgCopySegment at hb
  dsimp only at hb
  split at hb
  · rename_i h0
    cases hb
    exact .inr ⟨rfl, .inl ⟨⟨hid, hreason, htotal, hleft, frags, hem, hch, hdata⟩, h0⟩⟩
  generalize hadv : sgAdvance k memory c t = r at hb
  obtain ⟨next, t₁⟩ := r
  obtain ⟨hem₁, hnext⟩ := sgAdvance_emits hadv
  cases next with
  | none =>
    cases hb
    refine .inr ⟨rfl, .inr ⟨by simp [lossRead], ?_, frags, ?_, hch, hfollows⟩⟩
    · dsimp only
      omega
    · simpa using (hem.trans hem₁).trans (Emits.count (.inr (.inl rfl)))
  | some d =>
    obtain ⟨hcopy, hrem, hleft'⟩ := hnext d rfl
    replace hleft' := hleft' hleft
    have hahead : d.ahead k memory = c.ahead k memory := sgAdvance_ahead hadv
    have hcid : d.copy.eventId = c₀.eventId := by rw [hcopy]; exact hid
    have hcreason : d.copy.reason = 0 := by rw [hcopy]; exact hreason
    have hcopied : d.copy.copied = c.copy.copied := by rw [hcopy]
    have hem₂ : Emits st t₁ (frags.map (dataRecord c₀.eventId)) 0 := by
      simpa using hem.trans hem₁
    dsimp only at hb
    have hlen : (min d.segmentLeft (UInt32.ofNat chunkSize)).toNat =
        min d.segmentLeft.toNat chunkSize := by
      rw [toNat_min]
      rfl
    generalize min d.segmentLeft (UInt32.ofNat chunkSize) = length at hb hlen
    split at hb
    · cases hb
      refine .inl ⟨rfl, hcid, hcreason, ?_, ?_, frags, hem₂, ?_, hahead ▸ hdata⟩
      · rw [hcopied, hrem]
        exact htotal
      · rw [hrem]
        exact hleft'
      · rw [hcopied]
        exact hch
    · rename_i hne
      have hpos : 0 < length.toNat := Nat.pos_of_ne_zero fun h0 => hne (UInt32.toNat_inj.mp h0)
      have hle : length.toNat ≤ chunkSize := by omega
      have hseg : length.toNat ≤ d.segmentLeft.toNat := by omega
      generalize hchunk : copyChunk k chunkSize { d.copy with destination := d.copy.copied } 0
        length.toNat t₁ = r at hb
      obtain ⟨reason, t₂⟩ := r
      rcases copyChunk_emits hpos hle hle hchunk with ⟨rfl, hone⟩ | ⟨hbad, hone⟩
      · cases hb
        have hrest : (saturatingSub d.remaining length).toNat = c.remaining.toNat - length.toNat := by
          rw [saturatingSub, hrem, if_pos (UInt32.le_iff_toNat_le.mpr (by omega)),
            UInt32.toNat_sub_of_le _ _ (UInt32.le_iff_toNat_le.mpr (by omega))]
        refine .inl ⟨rfl, hcid, rfl, ?_, ?_, frags ++ [chunk k { d.copy with
          destination := d.copy.copied } 0 length.toNat], ?_, ?_, ?_⟩
        · dsimp only
          rw [hrest, hcopied]
          omega
        · dsimp only
          rw [hrest, UInt32.toNat_sub_of_le _ _ (UInt32.le_iff_toNat_le.mpr hseg)]
          omega
        · rw [List.map_append]
          have hone' := hem₂.trans hone
          rw [hcid] at hone'
          exact hone'
        · have hsnoc := hch.snoc (f := chunk k { d.copy with destination := d.copy.copied } 0
            length.toNat) (by simp [chunk, hcopied])
            (by rw [← List.length_pos_iff]; simpa [chunk] using hpos)
            (by simpa [chunk] using hle)
          simpa [chunk, Fragment.stop] using hsnoc
        · have hsource : length.toUInt64 = UInt64.ofNat length.toNat := by
            rw [← UInt64.toNat_inj, UInt32.toNat_toUInt64, UInt64.toNat_ofNat_of_lt'
              (by have := length.toNat_lt; simp only [UInt64.size]; omega)]
          rw [← hdata, ← hahead, List.flatMap_append, List.append_assoc]
          refine congrArg (frags.flatMap Prod.snd ++ ·) ?_
          have hread : [chunk k { d.copy with destination := d.copy.copied } 0 length.toNat].flatMap
              Prod.snd = k.read d.copy.source length.toNat := by simp [chunk]
          rw [hread]
          exact SgContext.ahead_chunk hseg (hrem ▸ hleft') (congrArg (d.copy.source + ·) hsource)
            (UInt32.toNat_sub_of_le _ _ (UInt32.le_iff_toNat_le.mpr hseg))
            (hrest.trans (by rw [hrem])) ⟨rfl, rfl⟩
      · simp only [if_pos hbad] at hb
        cases hb
        refine .inr ⟨rfl, .inr ⟨hbad, ?_, frags, ?_, ?_, hfollows⟩⟩
        · dsimp only
          rw [hcopied]
          omega
        · simpa using hem₂.trans hone
        · dsimp only
          rw [hcopied]
          exact hch

/-- `copy_sg` copies the whole payload from the list, or counts a loss. -/
theorem copySg_copied {k : Kernel} {config : CaptureConfig} {urb : Urb} {segments : UInt32}
    {c c' : CopyContext} {st st' : Probe} (hr : c.reason = 0) (hc : c.copied = 0)
    (h : copySg k config urb segments c st = (c', st')) :
    Copied (Follows ((k.listBytes config.memory segments.toNat urb.sg).take c.total.toNat))
      c.eventId 0 c.total.toNat st st' c'.reason c'.copied := by
  generalize hstream : k.listBytes config.memory segments.toNat urb.sg = stream
  -- the exits before the loop publish nothing
  have hexit : ∀ reason lost st', reason ≠ 0 → lost ≠ 0 → Emits st st' [] lost →
      Copied (Follows (stream.take c.total.toNat)) c.eventId 0 c.total.toNat st st' reason
        c.copied := by
    intro reason lost st' hreason hlost hem
    exact ⟨[], lost, hem, by simp [Chain, hc], by simp [hc], by simp, .inr ⟨hreason, hlost⟩⟩
  unfold copySg at h
  dsimp only at h
  split at h
  · cases h
    exact hexit _ 1 _ (by simp [lossUnsupportedBuffer]) (by decide)
      (Emits.countSg.trans (Emits.count (.inr (.inr rfl))))
  generalize hf : (st.count 7).fails = f at h
  obtain ⟨failed, t⟩ := f
  have hem := Emits.countSg.trans (Emits.fails hf)
  cases failed with
  | true =>
    cases h
    exact hexit _ 1 _ (by simp [lossRead]) (by decide) (hem.trans (Emits.count (.inr (.inl rfl))))
  | false =>
    dsimp only at h
    split at h
    · cases h
      exact hexit _ 1 _ (by simp [lossRead]) (by decide) (hem.trans (Emits.count (.inr (.inl rfl))))
    · generalize hloop : bpfLoop _ _ _ _ = r at h
      obtain ⟨stopped, d, t₁⟩ := r
      unfold bpfLoop at hloop
      generalize hf' : t.fails = f at hloop
      obtain ⟨failed, t₂⟩ := f
      have hem₂ := hem.trans (Emits.fails hf')
      cases failed with
      | true =>
        cases hloop
        simp only [true_or, if_true] at h
        cases h
        exact hexit _ 1 _ (by simp [lossRead]) (by decide)
          (hem₂.trans (Emits.count (.inr (.inl rfl))))
      | false =>
        injection hloop with hs hrun
        subst hs
        dsimp only at h
        have hstart : SgCopying k config.memory stream c st (⟨urb.sg, c, c.total, 0, segments⟩, t₂) :=
          ⟨rfl, hr, by simp [hc], by simp, [], by simpa using hem₂, by simp [Chain, hc], hstream ▸ rfl⟩
        have hfinal := Loop.run_rule (sgCopySegment k config.memory)
          (n := segments.toNat + chunkCount c.total) (i := 0)
          (I := fun _ s => SgCopying k config.memory stream c st s)
          (Q := SgStopped k config.memory stream c st) hstart fun j s b s' _ _ hI hb => hI.step hb
        rw [hrun] at hfinal
        -- the loop ended without a loss: all is copied, or the rest is counted
        have hdone : SgCopying k config.memory stream c st (d, t₁) →
            Copied (Follows (stream.take c.total.toNat)) c.eventId 0 c.total.toNat st st' c'.reason
              c'.copied := by
          rintro ⟨_, hreason, htotal, _, frags, hfr, hch, hdata⟩
          dsimp only at hreason htotal hfr hch hdata
          have hfollows := hch.follows hdata
          by_cases hrem : d.remaining = 0
          · rw [if_neg (by simp [hrem])] at h
            cases h
            refine ⟨frags, 0, hfr, by simpa using hch, ?_, hfollows, .inl ⟨hreason, rfl, ?_⟩⟩
            · omega
            · simpa [hrem] using htotal
          · rw [if_pos (by simp [hrem, hreason])] at h
            cases h
            refine ⟨frags, 1, ?_, by simpa using hch, ?_, hfollows, .inr ⟨by simp [lossRead],
              by decide⟩⟩
            · simpa using hfr.trans (Emits.count (.inr (.inl rfl)))
            · dsimp only
              omega
        rcases hfinal with (⟨hcop, _⟩ | ⟨hbad, hle, frags, hfr, hch, hfollows⟩) | hcop
        · exact hdone hcop
        · rw [if_neg (by simp [hbad])] at h
          cases h
          exact ⟨frags, 1, hfr, by simpa using hch, hle, hfollows, .inr ⟨hbad, by decide⟩⟩
        · exact hdone hcop

end UsbScope.Ebpf
