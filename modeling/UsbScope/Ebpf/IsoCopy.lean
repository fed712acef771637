import UsbScope.Ebpf.Parts

/-! # The two passes over ISO descriptors

`iso_measure` finds the span of the frames and checks that they lie in the
buffer; `iso_emit` publishes each descriptor with the payload of its frame. The
descriptors read the same in both passes, so what is published fits the span
that was declared. -/
namespace UsbScope.Ebpf
open UsbScope.Lib UsbScope.Common UsbScope.Capture

/-- The descriptors of the first `n` frames. -/
def frames (urb : Urb) (submission : Bool) (n : Nat) : List IsoDescriptor :=
  (List.range n).map (urb.isoDescriptor submission)

theorem frames_succ (urb : Urb) (submission : Bool) (n : Nat) :
    frames urb submission (n + 1) = frames urb submission n ++ [urb.isoDescriptor submission n] := by
  simp [frames, List.range_succ]

theorem mem_frames {urb : Urb} {submission : Bool} {n : Nat} {d : IsoDescriptor} :
    d ∈ frames urb submission n ↔ ∃ j < n, urb.isoDescriptor submission j = d := by
  simp [frames]

/-- The bytes of all frames fit in 64 bits. -/
theorem frames_sum_lt (urb : Urb) (submission : Bool) {n : Nat} (h : n < 2 ^ 32) :
    ((frames urb submission n).map fun d => d.length.toNat).sum < 2 ^ 64 := by
  have hle := List.sum_le_card_nsmul ((frames urb submission n).map fun d => d.length.toNat)
    (2 ^ 32 - 1) fun x hx => by
      obtain ⟨d, _, rfl⟩ := List.mem_map.mp hx
      have := d.length.toNat_lt
      omega
  rw [List.length_map, frames, List.length_map, List.length_range, smul_eq_mul] at hle
  have hmul : n * (2 ^ 32 - 1) ≤ (2 ^ 32 - 1) * (2 ^ 32 - 1) := Nat.mul_le_mul_right _ (by omega)
  exact Nat.lt_of_le_of_lt (hle.trans hmul) (by decide)

theorem isoEnd_append (ds : List IsoDescriptor) (d : IsoDescriptor) :
    isoEnd (ds ++ [d]) = if d.length ≠ 0 then max (isoEnd ds) d.stop else isoEnd ds := by
  have hfold : ∀ (l : List Nat) (a : Nat), l.foldr max a = max (l.foldr max 0) a := by
    intro l a
    induction l with
    | nil => simp
    | cons x rest ih => simp [ih, max_assoc]
  unfold isoEnd
  split
  · rename_i h
    simp only [List.filter_append, List.map_append, List.foldr_append]
    rw [hfold]
    simp [h]
  · rename_i h
    simp [List.filter_append, h]

theorem coreReadIso_emits {urb : Option Urb} {submission : Bool} {index : Nat} {st st' : Probe}
    {r : Option IsoDescriptor} (h : coreReadIso urb submission index st = (r, st')) :
    Emits st st' [] 0 ∧ ∀ d, r = some d → ∃ u, urb = some u ∧ d = u.isoDescriptor submission index := by
  unfold coreReadIso at h
  split at h
  · rename_i hf
    cases h
    exact ⟨Emits.fails hf, fun d hd => by cases hd⟩
  · rename_i hf
    cases h
    refine ⟨Emits.fails hf, fun d hd => ?_⟩
    obtain ⟨u, hu, rfl⟩ := Option.map_eq_some_iff.mp hd
    exact ⟨u, hu, rfl⟩

/-! ## Measuring -/

/-- After `i` frames all of them lie in the buffer and `span` is where the last
nonempty one ends. -/
def Measured (c₀ : IsoContext) (urb : Urb) (st : Probe) (i : Nat) (s : IsoContext × Probe) : Prop :=
  s.1 = { c₀ with span := s.1.span } ∧ Emits st s.2 [] 0 ∧
    (0 < i → c₀.urb = some urb) ∧
    s.1.span.toNat = isoEnd (frames urb c₀.submission i) ∧
    ∀ d ∈ frames urb c₀.submission i, d.stop ≤ c₀.requested.toNat

theorem Measured.step {c₀ : IsoContext} {urb : Urb} {st : Probe} {i : Nat}
    {s s' : IsoContext × Probe} {b : Bool} (hurb : c₀.urb = none ∨ c₀.urb = some urb)
    (h : Measured c₀ urb st i s) (hb : isoMeasure i s = (b, s')) :
    (b = false ∧ Measured c₀ urb st (i + 1) s') ∨
      (b = true ∧ s'.1.copy.reason ≠ 0 ∧ Emits st s'.2 [] 0) := by
  obtain ⟨c, t⟩ := s
  obtain ⟨hc, hem, hsome, hspan, hin⟩ := h
  dsimp only at hc hem hspan
  unfold isoMeasure at hb
  dsimp only at hb
  generalize hread : coreReadIso c.urb c.submission i t = r at hb
  obtain ⟨d, t₁⟩ := r
  obtain ⟨hem₁, hd⟩ := coreReadIso_emits hread
  have hem₂ : Emits st t₁ [] 0 := hem.trans hem₁
  cases d with
  | none =>
    cases hb
    exact .inr ⟨rfl, by simp [lossRead], hem₂⟩
  | some d =>
    obtain ⟨u, hu, hdu⟩ := hd d rfl
    have hu' : c₀.urb = some u := by rw [hc] at hu; exact hu
    have huu : u = urb := by
      rcases hurb with hn | hs
      · rw [hn] at hu'
        cases hu'
      · rw [hs] at hu'
        cases hu'
        rfl
    subst huu
    have hsub : c.submission = c₀.submission := by rw [hc]
    have hreq : c.requested = c₀.requested := by rw [hc]
    rw [hsub] at hdu
    dsimp only at hb
    split at hb
    · cases hb
      exact .inr ⟨rfl, by simp [lossRead], hem₂⟩
    · rename_i hle
      cases hb
      have hle' : d.stop ≤ c₀.requested.toNat := by rw [← hreq]; omega
      refine .inl ⟨rfl, ?_, hem₂, fun _ => hu', ?_, ?_⟩
      · dsimp only
        rw [hc]
      · rw [frames_succ, ← hdu, isoEnd_append]
        have hlt := c₀.requested.toNat_lt
        have hstop : (UInt32.ofNat d.stop).toNat = d.stop :=
          UInt32.toNat_ofNat_of_lt' (by simp only [UInt32.size]; omega)
        split
        · rw [toNat_max, hstop, hspan]
        · exact hspan
      · intro x hx
        rw [frames_succ, ← hdu] at hx
        rcases List.mem_append.mp hx with hx | hx
        · exact hin x hx
        · rw [List.mem_singleton.mp hx]
          exact hle'

/-- The measuring pass of `emit`. -/
theorem measure_emits {m : EventMeta} {iso : IsoContext} {urb : Urb} {st st' : Probe}
    {r : Option IsoContext} (hurb : iso.urb = none ∨ iso.urb = some urb) (hspan : iso.span = 0)
    (h : Call.measure m iso st = (r, st')) :
    Emits st st' [] 0 ∧ ∀ iso', r = some iso' →
      iso' = { iso with span := iso'.span } ∧
      (m.transferType = 0 →
        (0 < m.isoCount.toNat → iso.urb = some urb) ∧
        iso'.span.toNat = isoEnd (frames urb iso.submission m.isoCount.toNat) ∧
        ∀ d ∈ frames urb iso.submission m.isoCount.toNat, d.stop ≤ iso.requested.toNat) := by
  unfold Call.measure at h
  split at h
  · generalize hloop : bpfLoop _ _ _ _ = l at h
    obtain ⟨failed, c, t⟩ := l
    unfold bpfLoop at hloop
    generalize hf : st.fails = f at hloop
    obtain ⟨fault, t₁⟩ := f
    cases fault with
    | true =>
      cases hloop
      simp only [true_or, if_true] at h
      cases h
      exact ⟨Emits.fails hf, fun iso' hi => by cases hi⟩
    | false =>
      injection hloop with hs hrun
      subst hs
      dsimp only at h
      have hstart : Measured iso urb st 0 (iso, t₁) :=
        ⟨rfl, Emits.fails hf, fun h0 => absurd h0 (lt_irrefl 0), by simp [hspan, frames, isoEnd],
          by simp [frames]⟩
      have hfinal := Loop.run_rule isoMeasure (n := m.isoCount.toNat)
        (Q := fun s => s.1.copy.reason ≠ 0 ∧ Emits st s.2 [] 0) hstart
        fun j s b s' _ _ hI hb => hI.step hurb hb
      rw [hrun, Nat.zero_add] at hfinal
      rcases hfinal with ⟨hne, hem⟩ | ⟨hc, hem, hsome, hsp, hin⟩
      · rw [if_pos (.inr hne)] at h
        cases h
        exact ⟨hem, fun iso' hi => by cases hi⟩
      · split at h
        · cases h
          exact ⟨hem, fun iso' hi => by cases hi⟩
        · cases h
          refine ⟨hem, fun iso' hi => ?_⟩
          cases hi
          exact ⟨hc, fun _ => ⟨hsome, hsp, hin⟩⟩
  · rename_i ht
    cases h
    refine ⟨Emits.refl _, fun iso' hi => ?_⟩
    cases hi
    exact ⟨rfl, fun h0 => absurd h0 ht⟩

/-! ## Publishing -/

/-- What the parts published for the first `n` frames hold: their descriptors
in order, and fragments inside nonempty frames that mirror the buffer. -/
structure IsoParts (k : Kernel) (c₀ : IsoContext) (urb : Urb) (n copied : Nat)
    (parts : List Part) : Prop where
  descriptors : descriptors parts =
    (List.range n).map fun j => (j, urb.isoDescriptor c₀.submission j)
  bound : copied ≤ ((frames urb c₀.submission n).map fun d => d.length.toNat).sum
  copied : copied = ((fragments parts).map fun f => f.2.length).sum
  inside : ∀ f ∈ fragments parts, f.2 ≠ [] ∧ f.2.length ≤ chunkSize ∧ c₀.dataPhase = true ∧
    Mirrors k c₀.copy.source 0 f ∧
    ∃ d ∈ frames urb c₀.submission n, d.length ≠ 0 ∧ d.offset.toNat ≤ f.1 ∧ f.stop ≤ d.stop

/-- All bytes of the first `n` frames are there. -/
structure IsoFull (c₀ : IsoContext) (urb : Urb) (n copied : Nat) (parts : List Part) : Prop where
  lengths : c₀.dataPhase = true →
    copied = ((frames urb c₀.submission n).map fun d => d.length.toNat).sum
  covered : c₀.dataPhase = true → ∀ d ∈ frames urb c₀.submission n,
    ∀ q, d.offset.toNat ≤ q → q < d.stop → ∃ f ∈ fragments parts, f.Has q

theorem IsoParts.mono {k : Kernel} {c₀ : IsoContext} {urb : Urb} {n copied : Nat}
    {parts : List Part} (h : IsoParts k c₀ urb n copied parts) :
    IsoParts k c₀ urb (n + 1) copied (parts ++ [.iso n (urb.isoDescriptor c₀.submission n)]) := by
  refine ⟨?_, ?_, ?_, ?_⟩
  · rw [descriptors_append, h.descriptors, List.range_succ, List.map_append]
    rfl
  · rw [frames_succ, List.map_append, List.sum_append]
    exact h.bound.trans (Nat.le_add_right _ _)
  · rw [fragments_append, fragments_iso, List.append_nil]
    exact h.copied
  · intro f hf
    rw [fragments_append, fragments_iso, List.append_nil] at hf
    obtain ⟨h1, h2, h3, h4, d, hd, h5⟩ := h.inside f hf
    exact ⟨h1, h2, h3, h4, d, by rw [frames_succ]; exact List.mem_append_left _ hd, h5⟩

/-- The fragments of one more frame. -/
theorem IsoParts.frame {k : Kernel} {c₀ : IsoContext} {urb : Urb} {n copied more : Nat}
    {parts : List Part} {frags : List Fragment} {d : IsoDescriptor}
    (h : IsoParts k c₀ urb n copied parts) (hd : d ∈ frames urb c₀.submission n)
    (hl : d.length ≠ 0) (hdp : c₀.dataPhase = true)
    (hch : Chain d.offset.toNat frags (d.offset.toNat + more)) (hmore : more ≤ d.length.toNat)
    (hbound : copied + more ≤ ((frames urb c₀.submission n).map fun d => d.length.toNat).sum)
    (hmir : ∀ f ∈ frags, Mirrors k (c₀.copy.source + d.offset.toUInt64) d.offset.toNat f) :
    IsoParts k c₀ urb n (copied + more) (parts ++ frags.map .data) := by
  refine ⟨?_, hbound, ?_, ?_⟩
  · rw [descriptors_append, descriptors_data, List.append_nil, h.descriptors]
  · have := hch.sum
    rw [fragments_append, fragments_data, List.map_append, List.sum_append, ← h.copied]
    omega
  · intro f hf
    rw [fragments_append, fragments_data] at hf
    rcases List.mem_append.mp hf with hf | hf
    · exact h.inside f hf
    · obtain ⟨hlo, hhi, hne, hlen⟩ := hch.mem hf
      refine ⟨hne, hlen, hdp, ?_, d, hd, hl, hlo, hhi.trans ?_⟩
      · intro q b hc
        have hq := hc.1
        rw [hmir f hf q b hc, Nat.sub_zero, UInt64.add_assoc]
        congr 2
        have hoff : d.offset.toUInt64 = UInt64.ofNat d.offset.toNat := by
          rw [← UInt64.toNat_inj, UInt32.toNat_toUInt64,
            UInt64.toNat_ofNat_of_lt' (by have := d.offset.toNat_lt; simp only [UInt64.size]; omega)]
        rw [hoff, ← UInt64.ofNat_add]
        congr 1
        omega
      · unfold IsoDescriptor.stop
        omega

/-- The whole of one more frame. -/
theorem IsoFull.frame {c₀ : IsoContext} {urb : Urb} {n copied more : Nat} {parts added : List Part}
    {d : IsoDescriptor} (h : IsoFull c₀ urb n copied parts)
    (hd : d = urb.isoDescriptor c₀.submission n)
    (hmore : c₀.dataPhase = true → more = d.length.toNat)
    (hcovered : ∀ q, d.offset.toNat ≤ q → q < d.offset.toNat + more →
      ∃ f ∈ fragments added, f.Has q) :
    IsoFull c₀ urb (n + 1) (copied + more) (parts ++ added) := by
  refine ⟨fun hdp => ?_, fun hdp x hx q h1 h2 => ?_⟩
  · rw [frames_succ, ← hd, List.map_append, List.sum_append, ← h.lengths hdp, hmore hdp]
    simp
  · rw [frames_succ, ← hd] at hx
    rw [fragments_append]
    rcases List.mem_append.mp hx with hx | hx
    · obtain ⟨f, hf, hq⟩ := h.covered hdp x hx q h1 h2
      exact ⟨f, List.mem_append_left _ hf, hq⟩
    · rw [List.mem_singleton.mp hx] at h1 h2
      unfold IsoDescriptor.stop at h2
      obtain ⟨f, hf, hq⟩ := hcovered q h1 (by rw [hmore hdp]; exact h2)
      exact ⟨f, List.mem_append_right _ hf, hq⟩

/-- After `i` frames nothing was lost. -/
def IsoEmitting (k : Kernel) (c₀ : IsoContext) (urb : Urb) (st : Probe) (i : Nat)
    (s : IsoContext × Probe) : Prop :=
  s.1 = { c₀ with descriptors := i, copy := { c₀.copy with copied := s.1.copy.copied } } ∧
    ∃ parts, Emits st s.2 (parts.map (Part.record c₀.copy.eventId)) 0 ∧
      IsoParts k c₀ urb i s.1.copy.copied parts ∧ IsoFull c₀ urb i s.1.copy.copied parts

/-- The loop was stopped by a loss. -/
def IsoStopped (k : Kernel) (c₀ : IsoContext) (urb : Urb) (n : Nat) (st : Probe)
    (s : IsoContext × Probe) : Prop :=
  s.1.copy.reason ≠ 0 ∧ s.1.descriptors ≤ n ∧
    ∃ parts lost, lost ≠ 0 ∧ Emits st s.2 (parts.map (Part.record c₀.copy.eventId)) lost ∧
      IsoParts k c₀ urb s.1.descriptors s.1.copy.copied parts

/-- The payload of one frame, after its descriptor was published. -/
theorem isoCopy_emits {k : Kernel} {c c' : IsoContext} {d : IsoDescriptor} {st st' : Probe}
    {b : Bool} (h : isoCopy k c d st = (b, (c', st'))) :
    ∃ frags lost more, Emits st st' (frags.map (dataRecord c.copy.eventId)) lost ∧
      Chain d.offset.toNat frags (d.offset.toNat + more) ∧ more ≤ d.length.toNat ∧
      (∀ f ∈ frags, Mirrors k (c.copy.source + d.offset.toUInt64) d.offset.toNat f) ∧
      c' = { c with copy := { c.copy with
        copied := c.copy.copied + more, reason := c'.copy.reason } } ∧
      ((b = false ∧ c'.copy.reason = 0 ∧ lost = 0 ∧ more = d.length.toNat) ∨
        (b = true ∧ c'.copy.reason ≠ 0 ∧ lost ≠ 0)) := by
  unfold isoCopy at h
  dsimp only at h
  generalize hloop : bpfLoop _ _ _ _ = l at h
  obtain ⟨failed, copy, t⟩ := l
  obtain ⟨frags, lost, hem, hch, hle, hmir, hverdict⟩ := copyLoop_copied rfl rfl hloop
  dsimp only at h hem hch hle hmir
  cases h
  refine ⟨frags, lost, copy.copied, hem, hch, hle, hmir, rfl, ?_⟩
  rcases hverdict with ⟨hr, hl, hc⟩ | ⟨hr, hl⟩
  · exact .inl ⟨by simp [hr], hr, hl, hc⟩
  · exact .inr ⟨by simp [hr], hr, hl⟩

theorem IsoEmitting.step {k : Kernel} {c₀ : IsoContext} {urb : Urb} {st : Probe} {i n : Nat}
    {s s' : IsoContext × Probe} {b : Bool} (hr : c₀.copy.reason = 0) (hurb : c₀.urb = some urb)
    (hi : i < n) (h : IsoEmitting k c₀ urb st i s) (hb : isoEmit k i s = (b, s')) :
    (b = false ∧ IsoEmitting k c₀ urb st (i + 1) s') ∨
      (b = true ∧ IsoStopped k c₀ urb n st s') := by
  obtain ⟨c, t⟩ := s
  obtain ⟨hc, parts, hem, hparts, hfull⟩ := h
  dsimp only at hc hem hparts hfull
  have hcurb : c.urb = some urb := by rw [hc]; exact hurb
  have hcsub : c.submission = c₀.submission := by rw [hc]
  have hcid : c.copy.eventId = c₀.copy.eventId := by rw [hc]
  have hcdesc : c.descriptors = i := by rw [hc]
  have hcdp : c.dataPhase = c₀.dataPhase := by rw [hc]
  have hcsrc : c.copy.source = c₀.copy.source := by rw [hc]
  unfold isoEmit at hb
  dsimp only at hb
  generalize hread : coreReadIso c.urb c.submission i t = r at hb
  obtain ⟨d, t₁⟩ := r
  obtain ⟨hem₁, hd⟩ := coreReadIso_emits hread
  have hem₂ : Emits st t₁ (parts.map (Part.record c₀.copy.eventId)) 0 := by
    simpa using hem.trans hem₁
  cases d with
  | none =>
    cases hb
    refine .inr ⟨rfl, by simp [lossRead], by dsimp only; omega, parts, 1, by decide, ?_, ?_⟩
    · simpa using hem₂.trans (Emits.count (.inr (.inl rfl)))
    · dsimp only
      rw [hcdesc]
      exact hparts
  | some d =>
    obtain ⟨u, hu, hdu⟩ := hd d rfl
    rw [hcurb] at hu
    cases hu
    rw [hcsub] at hdu
    dsimp only at hb
    generalize hf : t₁.fails = f at hb
    obtain ⟨fault, t₂⟩ := f
    have hem₃ : Emits st t₂ (parts.map (Part.record c₀.copy.eventId)) 0 := by
      simpa using hem₂.trans (Emits.fails hf)
    cases fault with
    | true =>
      cases hb
      refine .inr ⟨rfl, by simp [lossRing], by dsimp only; omega, parts, 1, by decide, ?_, ?_⟩
      · simpa using hem₃.trans (Emits.count (.inl rfl))
      · dsimp only
        rw [hcdesc]
        exact hparts
    | false =>
      have hitem : trim (header k recordIso c.copy.eventId 40 i ++ (d.toLe k.host).layout k.host) =
          Part.record c₀.copy.eventId (.iso i d) := by
        have := trim_item k recordIso c.copy.eventId i d.wire [] (by simp [chunkSize])
        rw [IsoDescriptor.toLe_layout]
        simpa [hcid, Part.record] using this
      have hem₄ := hem₃.trans (Emits.submit _ hitem)
      have hmono := hparts.mono
      rw [← hdu] at hmono
      have hmem : d ∈ frames urb c₀.submission (i + 1) := by
        rw [frames_succ, ← hdu]
        simp
      dsimp only at hb
      split at hb
      · rename_i hcopy
        obtain ⟨hdp, hl⟩ := hcopy
        obtain ⟨c', t₃⟩ := s'
        obtain ⟨frags, lost, more, hem₅, hch, hle, hmir, hc', hverdict⟩ := isoCopy_emits hb
        dsimp only at hem₅ hmir hc'
        have hem₆ : Emits st t₃ ((parts ++ [Part.iso i d] ++ frags.map Part.data).map
            (Part.record c₀.copy.eventId)) lost := by
          have := hem₄.trans hem₅
          simpa [hcid, Part.record, Function.comp_def] using this
        rw [hcsrc] at hmir
        have hbound : c.copy.copied + more ≤
            ((frames urb c₀.submission (i + 1)).map fun d => d.length.toNat).sum := by
          have := hparts.bound
          rw [frames_succ, ← hdu, List.map_append, List.sum_append]
          simp only [List.map_cons, List.map_nil, List.sum_cons, List.sum_nil]
          omega
        have hframe := hmono.frame hmem hl (hcdp ▸ hdp) hch hle hbound hmir
        have hcopied : c'.copy.copied = c.copy.copied + more := by rw [hc']
        have hdesc : c'.descriptors = i + 1 := by rw [hc', hcdesc]
        rcases hverdict with ⟨rfl, hr', rfl, hmore⟩ | ⟨rfl, hr', hlost⟩
        · refine .inl ⟨rfl, ?_, _, hem₆, hcopied ▸ hframe, ?_⟩
          · dsimp only
            rw [hc', hr', hc]
            simp [hr]
          · rw [hcopied, List.append_assoc]
            refine hfull.frame hdu (fun _ => hmore) fun q h1 h2 => ?_
            rw [fragments_append, fragments_iso, fragments_data]
            exact hch.has h1 h2
        · refine .inr ⟨rfl, hr', by dsimp only; omega, _, lost, hlost, hem₆, ?_⟩
          dsimp only
          rw [hdesc, hcopied]
          exact hframe
      · rename_i hcopy
        cases hb
        -- outside the data phase, or an empty frame: the descriptor is all
        have hempty : c₀.dataPhase = true → d.length = 0 := by
          intro hdp
          by_contra hl
          exact hcopy ⟨hcdp ▸ hdp, hl⟩
        refine .inl ⟨rfl, ?_, parts ++ [.iso i d], by simpa using hem₄, hmono, ?_⟩
        · dsimp only
          rw [hc]
        · show IsoFull c₀ urb (i + 1) (c.copy.copied + 0) (parts ++ [.iso i d])
          refine hfull.frame hdu (fun hdp => ?_) fun q h1 h2 => absurd h2 (by omega)
          rw [hempty hdp]
          rfl

end UsbScope.Ebpf
