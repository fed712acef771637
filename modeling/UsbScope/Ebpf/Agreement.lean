import UsbScope.Ebpf.IsoCopy
import UsbScope.Ebpf.Hooks
import UsbScope.Capture.Order

/-! # Producer and consumer agree

`emit` publishes either a stream that the reassembler completes, or it counts a
loss and no event is delivered. -/
namespace UsbScope.Ebpf
open UsbScope.Lib UsbScope.Common UsbScope.Capture

/-- What `emit` has established when it publishes. -/
structure Ready (urb : Urb) (m : EventMeta) (buffer : UInt64) (iso : IsoContext) : Prop where
  reason : iso.copy.reason = 0
  copied : iso.copy.copied = 0
  descriptors : iso.descriptors = 0
  source : iso.copy.source = buffer
  dataPhase : iso.dataPhase = m.dataPhase
  flag : m.hasData ≠ 0 ↔ m.payloadLen.toNat ≠ 0
  iso : m.transferType = 0 → (0 < m.isoCount.toNat → iso.urb = some urb) ∧
    m.payloadLen.toNat =
      (if m.dataPhase then isoEnd (frames urb iso.submission m.isoCount.toNat) else 0) ∧
    ∀ d ∈ frames urb iso.submission m.isoCount.toNat, d.stop ≤ m.requestedLen.toNat
  other : m.transferType ≠ 0 → m.isoCount = 0 ∧ m.payloadLen.toNat = declaredPayload m []

/-- Where the fragments come from: the buffer at `source`, of ISO events only
what is in frames, or the scatter-gather list. -/
structure Sourced (k : Kernel) (memory : SgMemory) (urb : Urb) (m : EventMeta) (sg : UInt32)
    (source : UInt64) (submission : Bool) (parts : List Part) : Prop where
  mirrors : sg = 0 ∨ m.transferType = 0 → ∀ f ∈ fragments parts, Mirrors k source 0 f
  follows : sg ≠ 0 → m.transferType ≠ 0 → ∀ f ∈ fragments parts, Follows
    ((k.listBytes memory sg.toNat urb.sg).take m.payloadLen.toNat) f
  framed : m.transferType = 0 → ∀ f ∈ fragments parts,
    ∃ d ∈ frames urb submission m.isoCount.toNat, d.offset.toNat ≤ f.1 ∧ f.stop ≤ d.stop

/-- The outcome of publishing the body of an event: acceptable parts, and a
reason exactly when they are not the full event and a loss was counted. -/
def Published (k : Kernel) (memory : SgMemory) (urb : Urb) (m : EventMeta) (sg : UInt32)
    (iso : IsoContext) (st st' : Probe) (reason : UInt32) (copied count : Nat) : Prop :=
  ∃ parts lost, Emits st st' (parts.map (Part.record iso.copy.eventId)) lost ∧ Body m parts ∧
    copied = ((fragments parts).map fun f => f.2.length).sum ∧ copied < 2 ^ 64 ∧
    count = (Ebpf.descriptors parts).length ∧
    (Ebpf.descriptors parts).map Prod.snd = frames urb iso.submission count ∧
    Sourced k memory urb m sg iso.copy.source iso.submission parts ∧
    ((reason = 0 ∧ lost = 0 ∧ Full m parts) ∨ (reason ≠ 0 ∧ lost ≠ 0))

theorem sourced_nil {k : Kernel} {memory : SgMemory} {urb : Urb} {m : EventMeta} {sg : UInt32}
    {source : UInt64} {submission : Bool} : Sourced k memory urb m sg source submission [] :=
  ⟨by simp [fragments], by simp [fragments], by simp [fragments]⟩

theorem body_nil (m : EventMeta) : Body m [] :=
  ⟨by simp [fragments], by simp [fragments], by simp [descriptors], by simp [descriptors],
    by simp [descriptors], by simp [descriptors]⟩

/-- A loss before anything of the body is published. -/
theorem published_nothing {k : Kernel} {memory : SgMemory} {urb : Urb} {m : EventMeta} {sg : UInt32}
    {iso : IsoContext} {st st' : Probe} {reason : UInt32} {lost : Nat} (hem : Emits st st' [] lost)
    (hr : reason ≠ 0) (hl : lost ≠ 0) : Published k memory urb m sg iso st st' reason 0 0 :=
  ⟨[], lost, hem, body_nil m, rfl, by decide, rfl, rfl, sourced_nil, .inr ⟨hr, hl⟩⟩

/-! ## Contiguous and scatter-gather payloads -/

/-- A chain of fragments is an acceptable body, and the full event when nothing
was lost. -/
theorem Copied.published {P : Fragment → Prop} {k : Kernel} {memory : SgMemory} {urb : Urb}
    {m : EventMeta} {buffer : UInt64} {sg : UInt32} {iso : IsoContext} {st st' : Probe}
    {reason : UInt32} {copied : Nat} (hready : Ready urb m buffer iso) (ht : m.transferType ≠ 0)
    (hP : sg = 0 → ∀ f, P f → Mirrors k buffer 0 f)
    (hP' : sg ≠ 0 → ∀ f, P f → Follows
      ((k.listBytes memory sg.toNat urb.sg).take m.payloadLen.toNat) f)
    (h : Copied P iso.copy.eventId 0 m.payloadLen.toNat st st' reason copied) :
    Published k memory urb m sg iso st st' reason copied 0 := by
  obtain ⟨frags, lost, hem, hch, hle, heach, hverdict⟩ := h
  rw [Nat.zero_add] at hch
  obtain ⟨hcount, hdecl⟩ := hready.other ht
  have hsum := hch.sum
  rw [Nat.zero_add] at hsum
  refine ⟨frags.map .data, lost, ?_, ⟨?_, ?_, ?_, ?_, ?_, ?_⟩, ?_, ?_, by simp, by simp [frames],
    ?_, ?_⟩
  · simpa [Function.comp_def, Part.record] using hem
  · intro f hf
    rw [fragments_data] at hf
    obtain ⟨_, hstop, hne, hlen⟩ := hch.mem hf
    exact ⟨hne, hlen, hstop.trans hle⟩
  · rw [fragments_data]
    refine hch.disjoint.imp fun hd => ?_
    unfold Fragment.Compatible
    rw [if_neg ht]
    exact hd
  · simp
  · simp
  · simp
  · simp
  · rw [fragments_data, hsum]
  · have := m.payloadLen.toNat_lt
    omega
  · refine ⟨fun hsg f hf => ?_, fun hsg _ f hf => ?_, fun h0 => absurd h0 ht⟩
    · rw [fragments_data] at hf
      rw [hready.source]
      exact hP (hsg.resolve_right ht) f (heach f hf)
    · rw [fragments_data] at hf
      exact hP' hsg f (heach f hf)
  · rcases hverdict with ⟨hr, hl, hc⟩ | hbad
    · refine .inl ⟨hr, hl, ⟨?_, ?_, ?_, ?_, ?_⟩⟩
      · simp [hcount]
      · simpa using hdecl
      · intro h0
        rw [fragments_data]
        have hzero : m.payloadLen.toNat = 0 := by
          by_contra hne
          exact hready.flag.mpr hne h0
        rw [hc, hzero] at hch
        refine List.eq_nil_iff_forall_not_mem.mpr fun f hf => ?_
        obtain ⟨_, hstop, hne, _⟩ := hch.mem hf
        have := List.length_pos_iff.mpr hne
        unfold Fragment.stop at hstop
        omega
      · intro _ h0
        exact absurd h0 ht
      · intro _ _ q hq
        rw [fragments_data]
        exact hch.has (Nat.zero_le _) (hc ▸ hq)
    · exact .inr hbad

/-! ## ISO payloads -/

theorem IsoParts.length {k : Kernel} {iso : IsoContext} {urb : Urb} {n copied : Nat}
    {parts : List Part} (h : IsoParts k iso urb n copied parts) :
    n = (Ebpf.descriptors parts).length := by
  rw [h.descriptors]
  simp

theorem IsoParts.snd {k : Kernel} {iso : IsoContext} {urb : Urb} {n copied : Nat}
    {parts : List Part} (h : IsoParts k iso urb n copied parts) :
    (Ebpf.descriptors parts).map Prod.snd = frames urb iso.submission n := by
  rw [h.descriptors, List.map_map]
  rfl

theorem IsoParts.body {k : Kernel} {urb : Urb} {m : EventMeta} {buffer : UInt64} {iso : IsoContext}
    {n copied : Nat} {parts : List Part} (hready : Ready urb m buffer iso) (ht : m.transferType = 0)
    (hn : n ≤ m.isoCount.toNat) (h : IsoParts k iso urb n copied parts) : Body m parts := by
  obtain ⟨_, hlen, hin⟩ := hready.iso ht
  have hsub : ∀ d ∈ frames urb iso.submission n, d ∈ frames urb iso.submission m.isoCount.toNat := by
    intro d hd
    obtain ⟨j, hj, rfl⟩ := mem_frames.mp hd
    exact mem_frames.mpr ⟨j, by omega, rfl⟩
  have hmem : ∀ d ∈ Ebpf.descriptors parts, d.2 ∈ frames urb iso.submission n := by
    intro d hd
    rw [h.descriptors] at hd
    obtain ⟨j, hj, rfl⟩ := List.mem_map.mp hd
    exact mem_frames.mpr ⟨j, List.mem_range.mp hj, rfl⟩
  refine ⟨?_, ?_, ?_, ?_, ?_, ?_⟩
  · intro f hf
    obtain ⟨hne, hchunk, hdp, _, d, hd, hl, _, hstop⟩ := h.inside f hf
    rw [hready.dataPhase] at hdp
    rw [if_pos hdp] at hlen
    exact ⟨hne, hchunk, hlen ▸ hstop.trans (le_isoEnd (hsub d hd) hl)⟩
  · refine List.Pairwise.imp_of_mem (fun {f g} hf hg _ => ?_) (List.pairwise_of_forall fun _ _ => trivial)
    unfold Fragment.Compatible
    rw [if_pos ht]
    intro q a b ha hb
    rw [(h.inside f hf).2.2.2.1 q a ha, (h.inside g hg).2.2.2.1 q b hb]
  · rw [h.descriptors]
    simp [Function.comp_def]
  · rw [h.descriptors]
    simpa using hn
  · intro d hd
    obtain ⟨j, _, hj⟩ := mem_frames.mp (hmem d hd)
    rw [← hj]
    rfl
  · intro d hd
    exact hin _ (hsub _ (hmem d hd))

theorem IsoParts.sourced {k : Kernel} {memory : SgMemory} {urb : Urb} {m : EventMeta} {sg : UInt32}
    {iso : IsoContext} {n copied : Nat} {parts : List Part} (ht : m.transferType = 0)
    (hn : n ≤ m.isoCount.toNat) (h : IsoParts k iso urb n copied parts) :
    Sourced k memory urb m sg iso.copy.source iso.submission parts := by
  refine ⟨fun _ f hf => (h.inside f hf).2.2.2.1, fun _ hne => absurd ht hne, fun _ f hf => ?_⟩
  obtain ⟨_, _, _, _, d, hd, _, hlo, hstop⟩ := h.inside f hf
  obtain ⟨j, hj, rfl⟩ := mem_frames.mp hd
  exact ⟨_, mem_frames.mpr ⟨j, by omega, rfl⟩, hlo, hstop⟩

theorem IsoFull.full {k : Kernel} {urb : Urb} {m : EventMeta} {buffer : UInt64} {iso : IsoContext}
    {copied : Nat} {parts : List Part} (hready : Ready urb m buffer iso) (ht : m.transferType = 0)
    (h : IsoParts k iso urb m.isoCount.toNat copied parts)
    (hf : IsoFull iso urb m.isoCount.toNat copied parts) : Full m parts := by
  obtain ⟨_, hlen, _⟩ := hready.iso ht
  have hdesc := h.snd
  have hphase : m.hasData ≠ 0 → iso.dataPhase = true := by
    intro hne
    rw [hready.dataPhase]
    by_contra hdp
    rw [if_neg hdp] at hlen
    exact hready.flag.mp hne hlen
  refine ⟨?_, ?_, ?_, ?_, fun _ h0 => absurd ht h0⟩
  · rw [h.descriptors]
    simp
  · rw [hdesc, declaredPayload_eq, hlen]
    cases m.dataPhase <;> simp [ht]
  · intro h0
    refine List.eq_nil_iff_forall_not_mem.mpr fun f hff => ?_
    obtain ⟨hne, _, hstop⟩ := (h.body hready ht le_rfl).fits f hff
    have hzero : m.payloadLen.toNat = 0 := by
      by_contra hne'
      exact hready.flag.mpr hne' h0
    have := List.length_pos_iff.mpr hne
    unfold Fragment.stop at hstop
    omega
  · intro hne _
    refine ⟨?_, fun d hd => ?_⟩
    · have hmap : ((Ebpf.descriptors parts).map fun d => d.2.length.toNat) =
          ((Ebpf.descriptors parts).map Prod.snd).map fun d => d.length.toNat := by
        rw [List.map_map]
        rfl
      rw [← h.copied, hf.lengths (hphase hne), hmap, hdesc]
    · refine hf.covered (hphase hne) d.2 ?_
      rw [← hdesc]
      exact List.mem_map.mpr ⟨d, hd, rfl⟩

/-- The ISO branch: both passes over the descriptors agree. -/
theorem isoLoop_published {k : Kernel} {memory : SgMemory} {urb : Urb} {m : EventMeta}
    {buffer : UInt64} {sg : UInt32} {iso iso' : IsoContext} {st st' : Probe} {failed : Bool}
    (hready : Ready urb m buffer iso) (ht : m.transferType = 0)
    (h : bpfLoop m.isoCount.toNat (isoEmit k) iso st = (failed, (iso', st'))) :
    Published k memory urb m sg iso st (if failed then st'.count 4 else st')
      (if failed then lossRead else iso'.copy.reason) iso'.copy.copied iso'.descriptors := by
  unfold bpfLoop at h
  generalize hf : st.fails = f at h
  obtain ⟨fault, t⟩ := f
  cases fault with
  | true =>
    cases h
    rw [hready.copied, hready.descriptors]
    exact published_nothing ((Emits.fails hf).trans (Emits.count (.inr (.inl rfl))))
      (by simp [lossRead]) (by decide)
  | false =>
    injection h with hs hrun
    subst hs
    simp only [Bool.false_eq_true, if_false]
    have hstart : IsoEmitting k iso urb st 0 (iso, t) := by
      refine ⟨?_, [], Emits.fails hf, ⟨rfl, ?_, ?_, by simp [fragments]⟩, ⟨?_, ?_⟩⟩
      · rw [← hready.descriptors]
      · simp [hready.copied]
      · simp [hready.copied, fragments]
      · intro _
        simp [hready.copied, frames]
      · intro _ d hd
        simp [frames] at hd
    have hfinal := Loop.run_rule (isoEmit k) (n := m.isoCount.toNat)
      (Q := IsoStopped k iso urb m.isoCount.toNat st) hstart fun j s b s' _ hj hI hb =>
        hI.step hready.reason ((hready.iso ht).1 (by omega)) (by omega) hb
    rw [hrun, Nat.zero_add] at hfinal
    have hcount := m.isoCount.toNat_lt
    rcases hfinal with ⟨hne, hle, parts, lost, hl, hem, hparts⟩ | ⟨hc, parts, hem, hparts, hfull⟩
    · exact ⟨parts, lost, hem, hparts.body hready ht hle, hparts.copied,
        hparts.bound.trans_lt (frames_sum_lt _ _ (by omega)), hparts.length, hparts.snd,
        hparts.sourced ht hle, .inr ⟨hne, hl⟩⟩
    · dsimp only at hc hem hparts hfull
      have hdesc : iso'.descriptors = m.isoCount.toNat := by rw [hc]
      have hreason : iso'.copy.reason = 0 := by rw [hc]; exact hready.reason
      rw [hdesc]
      exact ⟨parts, 0, hem, hparts.body hready ht le_rfl, hparts.copied,
        hparts.bound.trans_lt (frames_sum_lt _ _ (by omega)), hparts.length, hparts.snd,
        hparts.sourced ht le_rfl,
        .inl ⟨hreason, rfl, hfull.full hready ht hparts⟩⟩

theorem copyPayload_published {call : Call} {m : EventMeta} {buffer : UInt64} {sg : UInt32}
    {iso : IsoContext} {st st' : Probe} {copy : CopyContext} {count : Nat}
    (hready : Ready call.urb m buffer iso)
    (h : call.copyPayload m buffer sg iso st = ((copy, count), st')) :
    Published call.kernel call.config.memory call.urb m sg iso st st' copy.reason copy.copied
      count := by
  have hlost : Emits st (st.count 5) [] 1 := Emits.count (.inr (.inr rfl))
  unfold Call.copyPayload at h
  dsimp only at h
  split at h
  · rename_i ht
    split at h
    · cases h
      dsimp only
      rw [hready.copied, hready.descriptors]
      exact published_nothing hlost (by simp [lossUnsupportedBuffer]) (by decide)
    · generalize hloop : bpfLoop _ _ _ _ = l at h
      obtain ⟨failed, iso', t⟩ := l
      cases h
      exact isoLoop_published hready ht hloop
  · rename_i ht
    split at h
    · split at h
      · rename_i hsg
        generalize hcopy : copySg _ _ _ _ _ _ = r at h
        obtain ⟨c', t⟩ := r
        cases h
        exact Copied.published hready ht (fun h0 => absurd h0 hsg) (fun _ f hf => hf)
          (copySg_copied rfl rfl hcopy)
      · split at h
        · cases h
          exact published_nothing hlost (by simp [lossUnsupportedBuffer]) (by decide)
        · generalize hloop : bpfLoop _ _ _ _ = l at h
          obtain ⟨failed, c', t⟩ := l
          cases h
          rename_i hsg _
          rw [not_not] at hsg
          refine Copied.published hready ht ?_ (fun hne => absurd hsg hne)
            (copyLoop_copied rfl rfl hloop)
          intro _ f hf
          exact hf
    · rename_i h0
      cases h
      rw [not_not] at h0
      have hzero : m.payloadLen.toNat = 0 := by simp [h0]
      have hnone : Copied (fun _ => False) iso.copy.eventId 0 m.payloadLen.toNat st st 0 0 :=
        ⟨[], 0, Emits.refl _, rfl, Nat.zero_le _, by simp, .inl ⟨rfl, rfl, hzero.symm⟩⟩
      exact hnone.published hready ht (fun _ f hf => hf.elim) fun _ f hf => hf.elim

/-! ## One call of `emit` -/

theorem Emits.setSequence {st st' : Probe} {records : List Bytes} {lost : Nat}
    (h : Emits st st' records lost) (n : Nat) :
    Emits { st with sequence := n } { st' with sequence := n } records lost :=
  ⟨h.published, h.ring, h.read, h.unsupported, h.total, rfl, h.hooks⟩

theorem transferTypeOf_le (attributes : UInt8) : (transferTypeOf attributes).toNat ≤ 3 := by
  unfold transferTypeOf
  split <;> decide

/-- What `core_read_urb` leaves alone and what it guarantees. -/
theorem coreReadUrb_eq_some {urb : Urb} {base m : EventMeta} {buffer : UInt64} {sg : UInt32}
    (h : coreReadUrb urb base = some (m, buffer, sg)) :
    m.eventType = base.eventType ∧ m.urbId = base.urbId ∧ m.payloadLen = base.payloadLen ∧
      m.transferType.toNat ≤ 3 ∧ m.device = urb.devnum.toUInt32.toUInt8 ∧
      (m.setupPresent = 1 ∨ m.setupPresent = base.setupPresent) ∧
      (m.transferType = 0 ∨ m.isoCount = 0) ∧ buffer = urb.transferBuffer ∧
      sg = urb.numSgs.toUInt32 := by
  unfold coreReadUrb at h
  dsimp only at h
  split at h
  · cases h
  cases h
  refine ⟨rfl, rfl, rfl, transferTypeOf_le _, rfl, ?_, ?_, rfl, rfl⟩
  · dsimp only
    split
    · exact .inl rfl
    · exact .inr rfl
  · dsimp only
    split
    · rename_i h0
      exact .inl h0
    · exact .inr rfl

/-- Declaring the payload sets its length and the data flag, nothing else. -/
theorem declare_eq (m : EventMeta) (span : UInt32) :
    Call.declare m span = { m with
        payloadLen := (Call.declare m span).payloadLen
        hasData := if (Call.declare m span).payloadLen ≠ 0 then 1 else 0 } := rfl

/-- The published metadata passes the reader's checks. -/
theorem validMeta_declare {call : Call} {m : EventMeta} {buffer : UInt64} {sg span : UInt32}
    (hread : coreReadUrb call.urb call.base = some (m, buffer, sg))
    (htype : call.eventType = submitType ∨ call.eventType = completeType ∨
      call.eventType = errorType)
    (hdev : call.urb.devnum.toUInt32.toUInt8.toNat ≤ 127)
    (hspan : (Call.declare { m with status := call.status } span).payloadLen.toNat ≤
      m.requestedLen.toNat) :
    ValidMeta (Call.declare { m with status := call.status } span) := by
  obtain ⟨h1, _, _, h4, h5, h6, h7, _, _⟩ := coreReadUrb_eq_some hread
  rw [declare_eq]
  refine ⟨by rw [h1]; exact htype, ⟨h4, by rw [h5]; exact hdev⟩, ⟨?_, ?_⟩, ?_, h7, hspan⟩
  · dsimp only
    split <;> decide
  · dsimp only
    rcases h6 with h6 | h6 <;> rw [h6]
    · decide
    · exact Nat.zero_le _
  · dsimp only
    split
    · exact .inl (by decide)
    · rename_i h0
      exact .inr (not_not.mp h0)

/-- After the measuring pass, `emit` is ready to publish. -/
theorem ready_declare {call : Call} {m : EventMeta} {buffer : UInt64} {sg : UInt32} {eventId : Nat}
    {unreadable : Bool} {iso iso' : IsoContext}
    (hread : coreReadUrb call.urb call.base = some (m, buffer, sg))
    (hiso : iso = call.isoContext { m with status := call.status } buffer eventId unreadable)
    (hiso' : iso' = { iso with span := iso'.span })
    (hmeas : m.transferType = 0 →
        (0 < m.isoCount.toNat → iso.urb = some call.urb) ∧
        iso'.span.toNat = isoEnd (frames call.urb iso.submission m.isoCount.toNat) ∧
        ∀ d ∈ frames call.urb iso.submission m.isoCount.toNat, d.stop ≤ iso.requested.toNat) :
    Ready call.urb (Call.declare { m with status := call.status } iso'.span) buffer iso' := by
  obtain ⟨_, _, h3, _, _, _, h7, _, _⟩ := coreReadUrb_eq_some hread
  have hzero : m.payloadLen = 0 := h3
  have hdp : (Call.declare { m with status := call.status } iso'.span).dataPhase = m.dataPhase := rfl
  have hlen : (Call.declare { m with status := call.status } iso'.span).payloadLen =
      if !m.dataPhase then m.payloadLen
      else if m.transferType = 0 then iso'.span
      else if m.eventType = submitType then m.requestedLen
      else m.actualLen := rfl
  refine ⟨?_, ?_, ?_, ?_, ?_, ?_, ?_, ?_⟩
  · rw [hiso', hiso]; rfl
  · rw [hiso', hiso]; rfl
  · rw [hiso', hiso]; rfl
  · rw [hiso', hiso]; rfl
  · rw [hiso', hdp, hiso]; rfl
  · rw [declare_eq]
    dsimp only
    split
    · rename_i h0
      have : (Call.declare { m with status := call.status } iso'.span).payloadLen.toNat ≠ 0 :=
        fun hz => h0 (UInt32.toNat_inj.mp hz)
      simp [this]
    · rename_i h0
      simp [not_not.mp h0]
  · intro ht
    obtain ⟨hurb, hspan, hin⟩ := hmeas ht
    have hsub : iso'.submission = iso.submission := by rw [hiso']
    have hurb' : iso'.urb = iso.urb := by rw [hiso']
    refine ⟨fun h0 => hurb'.trans (hurb h0), ?_, ?_⟩
    · rw [hlen, hdp, hsub]
      have ht' : m.transferType = 0 := ht
      change _ = if m.dataPhase = true then
        isoEnd (frames call.urb iso.submission m.isoCount.toNat) else 0
      cases m.dataPhase with
      | true => simpa [ht'] using hspan
      | false => simp [hzero]
    · rw [hsub]
      intro d hd
      have := hin d hd
      rw [hiso] at this
      exact this
  · intro ht
    have ht' : m.transferType ≠ 0 := ht
    refine ⟨h7.resolve_left ht', ?_⟩
    rw [declaredPayload_eq, hlen, hdp]
    have htt : (Call.declare { m with status := call.status } iso'.span).transferType = m.transferType := rfl
    rw [htt, if_neg ht']
    cases m.dataPhase with
    | true =>
      simp only [Bool.not_true, Bool.false_eq_true, if_false, if_neg ht']
      change _ = if m.eventType = submitType then m.requestedLen.toNat else m.actualLen.toNat
      split <;> rfl
    | false => simp [hzero]

/-- The delivered event of a call: its metadata and descriptors, and the bytes
of its buffer, unless that is a scatter-gather list. -/
structure Delivered (call : Call) (e : Event) : Prop where
  urbId : e.metadata.urbId = UInt64.ofNat call.urbId
  eventType : e.metadata.eventType = call.eventType
  status : e.metadata.status = call.status
  iso : e.iso = frames call.urb (call.eventType = submitType) e.metadata.isoCount.toNat
  length : e.payload.length = e.metadata.payloadLen.toNat
  contiguous : call.urb.numSgs = 0 → e.metadata.dataPhase = true → e.metadata.transferType ≠ 0 →
    ∀ q < e.metadata.payloadLen.toNat,
      e.payload[q]? = some (call.kernel.memory (call.urb.transferBuffer + UInt64.ofNat q))
  frames : call.urb.numSgs = 0 → e.metadata.dataPhase = true → e.metadata.transferType = 0 →
    ∀ d ∈ e.iso, ∀ q, d.offset.toNat ≤ q → q < d.stop →
      e.payload[q]? = some (call.kernel.memory (call.urb.transferBuffer + UInt64.ofNat q))

/-- What the reassembler makes of the records of one call: with `lost` losses
counted, one event or none. -/
def SlotAgrees (call : Call) (records : List Bytes) (lost : Nat) : Prop :=
  ∃ t os, Machine.run slotBytes none records = .ok (t, os) ∧
    ((lost = 0 ∧ ∃ e, os.filterMap Outcome.event = [e] ∧ Delivered call e) ∨
      (lost ≠ 0 ∧ os.filterMap Outcome.event = []))

theorem filterMap_stored (l : List Bytes) :
    (l.map fun _ => Outcome.stored).filterMap Outcome.event = [] := by
  simp [Outcome.event]

theorem filterMap_opened (os : List Outcome) :
    (Outcome.opened :: os).filterMap Outcome.event = os.filterMap Outcome.event := rfl

/-- A call that finds no loss delivers what it read. -/
theorem delivered_of_checked {call : Call} {m : EventMeta} {parts : List Part} {id : UInt64}
    {p : Pending} {body : Bytes} (hm : ValidMeta m) (hb : Body m parts)
    (hg : Gathered m (parts.map (Part.record id)) p) (hc : Checked p body)
    (hurb : m.urbId = UInt64.ofNat call.urbId) (htype : m.eventType = call.eventType)
    (hstatus : m.status = call.status)
    (hframes : (descriptors parts).map Prod.snd =
      frames call.urb (call.eventType = submitType) m.isoCount.toNat)
    (hmir : call.urb.numSgs = 0 →
      ∀ f ∈ fragments parts, Mirrors call.kernel call.urb.transferBuffer 0 f) :
    Delivered call p.event := by
  have hw := hc.whole hg hm.flags.1
  have hmeta := hg.metadata
  have hbyte : call.urb.numSgs = 0 → ∀ q, (∃ f ∈ fragmentsOf (parts.map (Part.record id)), f.Has q) →
      p.event.payload[q]? = some (call.kernel.memory (call.urb.transferBuffer + UInt64.ofNat q)) := by
    rintro hsg q ⟨f, hf, hq⟩
    obtain ⟨b, hcar⟩ := hq.carries
    rw [hw.bytes f hf q b hcar, hmir hsg f (hb.fragmentsOf_records id ▸ hf) q b hcar, Nat.sub_zero]
  refine ⟨?_, ?_, ?_, ?_, hw.length, ?_, ?_⟩
  · rw [hmeta]; exact hurb
  · rw [hmeta]; exact htype
  · rw [hmeta]; exact hstatus
  · rw [hmeta, ← hframes, ← hg.descriptors, hb.descriptorsOf_records]
  · intro hsg hdp ht q hq
    exact hbyte hsg q (hw.carried hdp ht q hq)
  · intro hsg hdp ht d hd q h1 h2
    exact hbyte hsg q (hw.carriedIso hdp ht d hd q h1 h2)

/-- What `publish` puts between `BEGIN` and `END`, and what `END` then says:
acceptable parts, and a reason exactly when they are not the full event and a
loss was counted. -/
structure Sealed (k : Kernel) (memory : SgMemory) (urb : Urb) (m : EventMeta) (sg : UInt32)
    (iso : IsoContext) (parts : List Part) (e : EventEnd) (lost : Nat) : Prop where
  body : Body m parts
  copied : e.copiedBytes.toNat = ((fragments parts).map fun f => f.2.length).sum
  count : e.descriptors.toNat = (descriptors parts).length
  frames : (descriptors parts).map Prod.snd =
    frames urb iso.submission (descriptors parts).length
  sourced : Sourced k memory urb m sg iso.copy.source iso.submission parts
  verdict : (e.reason = 0 ∧ lost = 0 ∧ Full m parts) ∨ (e.reason ≠ 0 ∧ lost ≠ 0)

/-- The records of `publish`: none, those up to a lost `END`, or all. -/
theorem publish_cases {call : Call} {m : EventMeta} {buffer : UInt64} {sg : UInt32}
    {iso : IsoContext} {st : Probe} (hready : Ready call.urb m buffer iso) :
    Emits st (call.publish m buffer sg iso st) [] 1 ∨
    ∃ parts e lost, Sealed call.kernel call.config.memory call.urb m sg iso parts e lost ∧
      ((Emits st (call.publish m buffer sg iso st)
          (beginRecord iso.copy.eventId m :: parts.map (Part.record iso.copy.eventId)) (lost + 1) ∧
        st.stats.ringLosses < (call.publish m buffer sg iso st).stats.ringLosses) ∨
      Emits st (call.publish m buffer sg iso st)
        (beginRecord iso.copy.eventId m ::
          (parts.map (Part.record iso.copy.eventId) ++ [endRecord iso.copy.eventId e])) lost) := by
  unfold Call.publish
  dsimp only
  generalize hf : st.fails = f
  obtain ⟨fault, t⟩ := f
  cases fault with
  | true => exact .inl ((Emits.fails hf).trans (Emits.count (.inl rfl)))
  | false =>
    dsimp only
    have hbegin : trim (header call.kernel recordBegin iso.copy.eventId 96 0 ++
        (m.encodeLe call.kernel.host).layout call.kernel.host) = beginRecord iso.copy.eventId m := by
      have := trim_item call.kernel recordBegin iso.copy.eventId 0 m.wire [] (by simp [chunkSize])
      rw [EventMeta.encodeLe_layout]
      simpa [beginRecord] using this
    have hem₁ := (Emits.fails hf).trans (Emits.submit t hbegin)
    generalize hcopy : call.copyPayload m buffer sg iso _ = r
    obtain ⟨⟨copy, count⟩, t₂⟩ := r
    obtain ⟨parts, lost, hem₂, hb, hcopied, hlt, hcount, hsnd, hsourced, hverdict⟩ :=
      copyPayload_published hready hcopy
    have hem₃ := hem₁.trans hem₂
    dsimp only
    let e : EventEnd := ⟨UInt64.ofNat copy.copied, UInt32.ofNat count, copy.reason⟩
    have hroom := hb.room
    have hisoLt := m.isoCount.toNat_lt
    have hsealed : Sealed call.kernel call.config.memory call.urb m sg iso parts e lost :=
      { body := hb
        copied := by
          rw [← hcopied]
          exact UInt64.toNat_ofNat_of_lt' hlt
        count := by
          rw [← hcount]
          exact UInt32.toNat_ofNat_of_lt' (by simp only [UInt32.size]; omega)
        frames := hcount ▸ hsnd
        sourced := hsourced
        verdict := hverdict }
    refine .inr ⟨parts, e, lost, hsealed, ?_⟩
    generalize hf₃ : t₂.fails = f
    obtain ⟨fault, t₃⟩ := f
    have hem₄ := hem₃.trans (Emits.fails hf₃)
    cases fault with
    | true =>
      refine .inl ⟨?_, Nat.lt_succ_of_le hem₄.ring⟩
      simpa using hem₄.trans (Emits.count (.inl rfl))
    | false =>
      have hend : trim (header call.kernel recordEnd iso.copy.eventId 40 0 ++
          (e.toLe call.kernel.host).layout call.kernel.host) = endRecord iso.copy.eventId e := by
        have := trim_item call.kernel recordEnd iso.copy.eventId 0 e.wire [] (by simp [chunkSize])
        rw [EventEnd.toLe_layout]
        simpa [endRecord] using this
      have hem₅ := hem₄.trans (Emits.submit t₃ hend)
      simp only [List.append_nil, List.nil_append, List.singleton_append,
        Nat.zero_add, Nat.add_zero] at hem₅
      exact .inr hem₅

/-- The records of a stream carry its id. -/
theorem recordId_stream (id : UInt64) (m : EventMeta) (parts : List Part) {tail : List Bytes}
    (htail : ∀ b ∈ tail, recordId b = id) :
    ∀ b ∈ beginRecord id m :: (parts.map (Part.record id) ++ tail), recordId b = id := by
  intro b hb
  rcases List.mem_cons.mp hb with rfl | hb
  · exact recordId_record _ _ _ _
  rcases List.mem_append.mp hb with hb | hb
  · obtain ⟨part, _, rfl⟩ := List.mem_map.mp hb
    exact part.recordId _
  · exact htail b hb

/-- The records of `publish`, from `BEGIN` on. -/
theorem publish_agrees {call : Call} {m : EventMeta} {buffer : UInt64} {sg : UInt32}
    {iso : IsoContext} {st : Probe} (hready : Ready call.urb m buffer iso)
    (hurb : m.urbId = UInt64.ofNat call.urbId) (htype : m.eventType = call.eventType)
    (hstatus : m.status = call.status) (hsub : iso.submission = decide (call.eventType = submitType))
    (hbuffer : buffer = call.urb.transferBuffer) (hsg : sg = call.urb.numSgs.toUInt32) :
    ∃ records lost, Emits st (call.publish m buffer sg iso st) records lost ∧
      (∀ b ∈ records, recordId b = iso.copy.eventId) ∧
      (ValidMeta m → SlotAgrees call records lost) := by
  rcases @publish_cases call m buffer sg iso st hready with hem | ⟨parts, e, lost, hsealed, ⟨hem, -⟩ | hem⟩
  · exact ⟨_, _, hem, by simp, fun _ => ⟨_, _, rfl, .inr ⟨by decide, rfl⟩⟩⟩
  · have hids := recordId_stream iso.copy.eventId m parts (List.forall_mem_nil _)
    rw [List.append_nil] at hids
    refine ⟨_, _, hem, hids, fun hm => ?_⟩
    obtain ⟨p, hrun, _⟩ := run_open iso.copy.eventId hm hsealed.body
    refine ⟨_, _, hrun, .inr ⟨by omega, ?_⟩⟩
    rw [filterMap_opened, filterMap_stored]
  · refine ⟨_, _, hem, recordId_stream _ _ _ fun b hb => ?_, fun hm => ?_⟩
    · rw [List.mem_singleton.mp hb]
      exact recordId_record _ _ _ _
    have hfull : e.reason = 0 → Full m parts := by
      intro h0
      rcases hsealed.verdict with ⟨_, _, hfull⟩ | ⟨hne, _⟩
      · exact hfull
      · exact absurd h0 hne
    obtain ⟨p, hg, hrun, hchecked⟩ := run_closed iso.copy.eventId hm hsealed.body hready.flag
      hsealed.copied hsealed.count hfull
    refine ⟨_, _, hrun, ?_⟩
    rcases hsealed.verdict with ⟨hr, hl, hfullm⟩ | ⟨hr, hl⟩
    · refine .inl ⟨hl, p.event, ?_, ?_⟩
      · rw [if_pos hr, filterMap_opened, List.filterMap_append, filterMap_stored]
        rfl
      · refine delivered_of_checked hm hsealed.body hg (hchecked hr) hurb htype hstatus ?_ ?_
        · rw [hsealed.frames, hsub, hfullm.count]
        · intro hz f hff
          have := hsealed.sourced.mirrors (.inl (by rw [hsg, hz]; rfl)) f hff
          rw [hready.source, hbuffer] at this
          exact this
    · refine .inr ⟨hl, ?_⟩
      rw [if_neg hr, filterMap_opened, List.filterMap_append, filterMap_stored]
      rfl

/-- An event of one of the three types, on a device with a USB address. -/
def Call.Valid (call : Call) : Prop :=
  (call.eventType = submitType ∨ call.eventType = completeType ∨ call.eventType = errorType) ∧
    call.urb.devnum.toUInt32.toUInt8.toNat ≤ 127

/-- The id that a call gives to its event. -/
def eventIdFrom (st : Probe) : UInt64 := UInt64.ofNat (st.sequence + 1)

/-- One call of `emit`: it publishes nothing and counts a loss, or it is ready
to publish the metadata it read. -/
theorem emit_cases (call : Call) (st : Probe) :
    (∃ n, st.sequence ≤ n ∧ n ≤ st.sequence + 1 ∧
      Emits { st with sequence := n } (call.emit st) [] 1) ∨
    ∃ m buffer sg iso t, coreReadUrb call.urb call.base = some (m, buffer, sg) ∧
      Ready call.urb (Call.declare { m with status := call.status } iso.span) buffer iso ∧
      iso.copy.eventId = eventIdFrom st ∧
      iso.submission = decide (call.eventType = submitType) ∧
      (Call.declare { m with status := call.status } iso.span).payloadLen.toNat ≤
        m.requestedLen.toNat ∧
      Emits { st with sequence := st.sequence + 1 } t [] 0 ∧
      call.emit st =
        call.publish (Call.declare { m with status := call.status } iso.span) buffer sg iso t := by
  -- the exits before `BEGIN`
  have hexit : ∀ n st', Emits { st with sequence := n } st' [] 0 → st.sequence ≤ n →
      n ≤ st.sequence + 1 → ∃ n, st.sequence ≤ n ∧ n ≤ st.sequence + 1 ∧
        Emits { st with sequence := n } (st'.count 4) [] 1 := by
    intro n st' hem h1 h2
    have hcount : Emits st' (st'.count 4) [] 1 := Emits.count (.inr (.inl rfl))
    exact ⟨n, h1, h2, hem.trans hcount⟩
  unfold Call.emit
  generalize hf : st.fails = f
  obtain ⟨fault, t⟩ := f
  have hem := Emits.fails hf
  cases fault with
  | true => exact .inl (hexit st.sequence t hem le_rfl (Nat.le_succ _))
  | false =>
    dsimp only
    cases hread : coreReadUrb call.urb call.base with
    | none => exact .inl (hexit st.sequence t hem le_rfl (Nat.le_succ _))
    | some r =>
      obtain ⟨m, buffer, sg⟩ := r
      dsimp only [Probe.nextId]
      have hseq : t.sequence = st.sequence := hem.sequence
      have hem₁ := hem.setSequence (t.sequence + 1)
      generalize hf₁ : Probe.fails { t with sequence := t.sequence + 1 } = f
      obtain ⟨unreadable, t₁⟩ := f
      have hem₂ := hem₁.trans (Emits.fails hf₁)
      dsimp only
      generalize hiso : call.isoContext _ buffer _ unreadable = iso
      unfold Call.emitMeta
      generalize hmeasure : Call.measure _ iso t₁ = r
      obtain ⟨measured, t₂⟩ := r
      have hurb : iso.urb = none ∨ iso.urb = some call.urb := by
        rw [← hiso]
        cases unreadable with
        | true => exact .inl rfl
        | false => exact .inr rfl
      obtain ⟨hem₃, hspec⟩ := measure_emits hurb (by rw [← hiso]; rfl) hmeasure
      have hem₄ := hem₂.trans hem₃
      cases measured with
      | none => exact .inl (hexit (t.sequence + 1) t₂ hem₄ (by omega) (by omega))
      | some iso' =>
        dsimp only
        split
        · exact .inl (hexit (t.sequence + 1) t₂ hem₄ (by omega) (by omega))
        · rename_i hfits
          obtain ⟨hiso', hmeas⟩ := hspec iso' rfl
          rw [not_or, UInt32.lt_iff_toNat_lt] at hfits
          have hsub : iso'.submission = decide (call.eventType = submitType) := by
            rw [hiso', ← hiso]
            rfl
          have hid : iso'.copy.eventId = eventIdFrom st := by
            rw [hiso', ← hiso, eventIdFrom, ← hseq]
            rfl
          rw [← hseq]
          exact .inr ⟨m, buffer, sg, iso', t₂, rfl, ready_declare hread hiso.symm hiso' hmeas, hid,
            hsub, Nat.le_of_not_lt hfits.1, hem₄, rfl⟩

/-- One call of `emit`: the records it publishes, the losses it counts and what
the reassembler makes of the records. -/
theorem emit_agrees (call : Call) (st : Probe) :
    ∃ records lost,
      Emits { st with sequence := (call.emit st).sequence } (call.emit st) records lost ∧
      (st.sequence ≤ (call.emit st).sequence ∧ (call.emit st).sequence ≤ st.sequence + 1) ∧
      (∀ b ∈ records, recordId b = eventIdFrom st) ∧
      (call.Valid → SlotAgrees call records lost) := by
  rcases emit_cases call st with ⟨n, h1, h2, hem⟩ |
    ⟨m, buffer, sg, iso, t, hread, hready, hid, hsub, hfits, hem, hemit⟩
  · have hseq : (call.emit st).sequence = n := hem.sequence
    rw [hseq]
    exact ⟨_, _, hem, ⟨h1, h2⟩, by simp, fun _ => ⟨_, _, rfl, .inr ⟨by decide, rfl⟩⟩⟩
  · obtain ⟨hevent, hurbId, _, _, _, _, _, hbuffer, hsg⟩ := coreReadUrb_eq_some hread
    obtain ⟨records, lost, hpub, hids, hslot⟩ := publish_agrees hready
      (show _ = UInt64.ofNat call.urbId from hurbId) hevent rfl hsub hbuffer hsg
    rw [hemit]
    have hall := hem.trans hpub
    simp only [List.nil_append, Nat.zero_add] at hall
    have hseq := hall.sequence
    refine ⟨records, lost, ?_, ?_, fun b hb => hid ▸ hids b hb,
      fun hv => hslot (validMeta_declare hread hv.1 hv.2 hfits)⟩
    · rw [hseq]
      exact hall
    · rw [hseq]
      exact ⟨Nat.le_succ _, le_rfl⟩

/-! ## Any number of calls -/

namespace Emission

def eventId (x : Emission) : UInt64 := eventIdFrom x.start

/-- The records the call publishes, as the live loop passes them on. -/
def records (x : Emission) : List Bytes :=
  (x.final.events.drop x.start.events.length).map trim

/-- The call counted no loss. -/
def Lossless (x : Emission) : Prop :=
  x.final.stats.ringLosses = x.start.stats.ringLosses ∧
    x.final.stats.readErrors = x.start.stats.readErrors ∧
    x.final.stats.unsupportedBuffers = x.start.stats.unsupportedBuffers

/-- The call incremented a loss counter. -/
def Lossy (x : Emission) : Prop :=
  x.start.stats.ringLosses < x.final.stats.ringLosses ∨
    x.start.stats.readErrors < x.final.stats.readErrors ∨
    x.start.stats.unsupportedBuffers < x.final.stats.unsupportedBuffers

def Valid (x : Emission) : Prop := x.call.Valid

end Emission

/-- `emit_agrees`, in terms of what the call published and counted. -/
theorem Emission.agrees {x : Emission} (h : x.Valid) :
    (∀ b ∈ x.records, recordId b = x.eventId) ∧
      ∃ t os, Machine.run slotBytes none x.records = .ok (t, os) ∧
        ((x.Lossless ∧ ∃ e, os.filterMap Outcome.event = [e] ∧ Delivered x.call e) ∨
          (x.Lossy ∧ os.filterMap Outcome.event = [])) := by
  obtain ⟨records, lost, hem, _, hids, hslot⟩ := emit_agrees x.call x.start
  obtain ⟨items, hev, hitems⟩ := hem.published
  have hrecords : x.records = records := by
    rw [Emission.records, Emission.final, hev, List.drop_left, hitems]
  have hring : x.start.stats.ringLosses ≤ x.final.stats.ringLosses := hem.ring
  have hread : x.start.stats.readErrors ≤ x.final.stats.readErrors := hem.read
  have hunsupported : x.start.stats.unsupportedBuffers ≤ x.final.stats.unsupportedBuffers :=
    hem.unsupported
  have htotal : x.final.losses = x.start.losses + lost := hem.total
  unfold Probe.losses at htotal
  rw [hrecords]
  obtain ⟨t, os, hrun, hcase⟩ := hslot h
  refine ⟨hids, t, os, hrun, ?_⟩
  rcases hcase with ⟨hl, he⟩ | ⟨hl, he⟩
  · refine .inl ⟨?_, he⟩
    unfold Emission.Lossless
    omega
  · refine .inr ⟨?_, he⟩
    unfold Emission.Lossy
    omega

/-- The events that the pushes of one id delivered. -/
def deliveredOf (id : UInt64) (records : List Bytes) (evs : List (Option Event)) : List Event :=
  (Machine.outputsOf recordId id records evs).reduceOption

/-- With distinct event ids, each id has one emission. -/
theorem filter_eventId {emissions : List Emission} {x : Emission}
    (h : (emissions.map Emission.eventId).Nodup) (hx : x ∈ emissions) :
    (emissions.filter fun y => y.eventId = x.eventId) = [x] := by
  induction emissions with
  | nil => cases hx
  | cons y rest ih =>
    rw [List.map_cons, List.nodup_cons] at h
    rcases List.mem_cons.mp hx with rfl | hx
    · have hnone : (rest.filter fun y => y.eventId = x.eventId) = [] := by
        refine List.filter_eq_nil_iff.mpr fun z hz hid => ?_
        exact h.1 (List.mem_map.mpr ⟨z, hz, by simpa using hid⟩)
      simp [hnone]
    · have hne : y.eventId ≠ x.eventId := fun hid => h.1 (List.mem_map.mpr ⟨x, hx, hid.symm⟩)
      simpa [hne] using ih h.2 hx

/-- **Producer and consumer agree.** Feed the records of any calls of `emit`
with distinct event ids to the reassembler, in order within each call and
otherwise interleaved in any way, with fewer than 4096 events unfinished at any
time. No push fails, and of each call exactly one of two things is true: it
counted no loss and its event is delivered, once; or it incremented a loss
counter and nothing is delivered. -/
theorem emit_reassembles {emissions : List Emission} {records : List Bytes}
    (hvalid : ∀ x ∈ emissions, x.Valid) (hids : (emissions.map Emission.eventId).Nodup)
    (hown : ∀ id, own id records =
      (emissions.filter fun x => x.eventId = id).flatMap Emission.records)
    (hroom : ∀ pre, pre <+: records → (openIds pre).card < maxPendingEvents) :
    ∃ next evs, Reassembler.fresh.run records = .ok (next, evs) ∧ ∀ x ∈ emissions,
      (x.Lossless ∧ ∃ e, deliveredOf x.eventId records evs = [e] ∧ Delivered x.call e) ∨
        (x.Lossy ∧ deliveredOf x.eventId records evs = []) := by
  have hnone : ∀ id, Reassembler.fresh.slots id = none := by
    intro id
    simp [Reassembler.slots, Reassembler.fresh]
  have hmem : ∀ x ∈ emissions, own x.eventId records = x.records := by
    intro x hx
    rw [hown, filter_eventId hids hx]
    simp
  have hslots : ∀ id, ∃ res, Machine.run slotBytes (Reassembler.fresh.slots id)
      (records.filter fun b => recordId b = id) = .ok res := by
    intro id
    rw [hnone id]
    change ∃ res, Machine.run slotBytes none (own id records) = .ok res
    cases hfilter : emissions.filter fun x => x.eventId = id with
    | nil =>
      rw [hown, hfilter]
      exact ⟨_, rfl⟩
    | cons x rest =>
      have hx := List.mem_filter.mp (hfilter ▸ List.mem_cons_self : x ∈ emissions.filter _)
      obtain ⟨_, t, os, hrun, _⟩ := Emission.agrees (hvalid x hx.1)
      have hid : x.eventId = id := by simpa using hx.2
      rw [← hid, hmem x hx.1]
      exact ⟨_, hrun⟩
  obtain ⟨⟨next, evs⟩, hrun⟩ :=
    Reassembler.run_of_slots (Machine.run_keyed_of_slots hslots) hroom
  refine ⟨next, evs, hrun, fun x hx => ?_⟩
  obtain ⟨os, hslot, hout⟩ := Reassembler.run_slot hrun x.eventId
  obtain ⟨_, t, os', hrun', hcase⟩ := Emission.agrees (hvalid x hx)
  have hos : os = os' := by
    rw [hnone] at hslot
    have hsame := hslot.symm.trans ((congrArg _ (hmem x hx)).trans hrun')
    exact (Prod.mk.inj (Except.ok.inj hsame)).2
  have hdelivered : deliveredOf x.eventId records evs = os'.filterMap Outcome.event := by
    rw [deliveredOf, hout, hos, List.reduceOption, List.filterMap_map]
    rfl
  rw [hdelivered]
  exact hcase

/-- A bulk OUT submission of four bytes. -/
def bulkOutCall : Call :=
  { kernel :=
      { host := .little
        memory := fun address => address.toUInt8
        segment := fun _ _ => none
        stale := fun _ => 0xaa }
    config :=
      { epochOffsetNs := 0
        givebackStart := 0
        givebackEnd := 0
        memory := ⟨0, 0, 0, 0, 0⟩
        bus := 0
        device := 0xffffffff
        enabled := 1
        filterCount := 0 }
    now := 5
    urb :=
      { busnum := 1
        devnum := 2
        idVendor := 0x1d6b
        idProduct := 2
        bmAttributes := 2
        bEndpointAddress := 1
        status := -115
        unlinked := 0
        transferFlags := 0
        transferBuffer := 0x1000
        transferBufferLength := 4
        actualLength := 0
        setupPacket := Vector.replicate 8 0
        startFrame := 0
        numberOfPackets := 0
        interval := 0
        errorCount := 0
        numSgs := 0
        sg := 0
        isoFrameDesc := fun _ => ⟨0, 0, 0, 0⟩ }
    urbId := 1
    eventType := submitType
    status := -115 }

def wholeEmission : Emission :=
  ⟨bulkOutCall, ⟨[], 1, ⟨0, 0, 0, 0, 0, 0, 0, 0⟩, []⟩⟩

/-- The reservation of its `DATA` record fails. -/
def lossyEmission : Emission :=
  ⟨bulkOutCall, ⟨[false, false, false, false, true], 2, ⟨0, 0, 0, 0, 0, 0, 0, 0⟩, []⟩⟩

/-- The first record of the one, all of the other, and the rest. -/
def interleavedRecords : List Bytes :=
  wholeEmission.records.take 1 ++ (lossyEmission.records ++ wholeEmission.records.drop 1)

theorem emit_reassembles_interleaved :
    ∃ next evs, Reassembler.fresh.run interleavedRecords = .ok (next, evs) ∧
      ∀ x ∈ [wholeEmission, lossyEmission],
        (x.Lossless ∧ ∃ e, deliveredOf x.eventId interleavedRecords evs = [e] ∧
          Delivered x.call e) ∨ (x.Lossy ∧ deliveredOf x.eventId interleavedRecords evs = []) := by
  have hvalid : ∀ x ∈ [wholeEmission, lossyEmission], x.Valid := by
    intro x hx
    simp only [List.mem_cons, List.not_mem_nil, or_false] at hx
    rcases hx with rfl | rfl <;> exact ⟨.inl rfl, by decide⟩
  have hwhole := (Emission.agrees (hvalid wholeEmission (by simp))).1
  have hlossy := (Emission.agrees (hvalid lossyEmission (by simp))).1
  have hlength : interleavedRecords.length = 5 := by decide +kernel
  refine emit_reassembles hvalid (by decide) (fun id => ?_) fun pre hpre => ?_
  · have hown : ∀ (l : List Bytes) (e : UInt64), (∀ b ∈ l, recordId b = e) →
        own id l = if e = id then l else [] := by
      intro l e hl
      split
      · rename_i he
        exact List.filter_eq_self.mpr fun b hb => by simp [hl b hb, he]
      · rename_i he
        exact List.filter_eq_nil_iff.mpr fun b hb => by simp [hl b hb, he]
    have htake := hown (wholeEmission.records.take 1) _ fun b hb => hwhole b (List.mem_of_mem_take hb)
    have hdrop := hown (wholeEmission.records.drop 1) _ fun b hb => hwhole b (List.mem_of_mem_drop hb)
    have hother := hown lossyEmission.records _ hlossy
    have hsplit : own id interleavedRecords = own id (wholeEmission.records.take 1) ++
        (own id lossyEmission.records ++ own id (wholeEmission.records.drop 1)) := by
      simp only [own, interleavedRecords, List.filter_append]
    have hne : wholeEmission.eventId ≠ lossyEmission.eventId := by decide
    rw [hsplit, htake, hdrop, hother]
    by_cases h1 : wholeEmission.eventId = id
    · have h2 : lossyEmission.eventId ≠ id := fun h => hne (h1.trans h.symm)
      rw [if_pos h1, if_pos h1, if_neg h2, List.nil_append, List.take_append_drop]
      simp [h1, h2]
    · rw [if_neg h1, if_neg h1, List.nil_append, List.append_nil]
      by_cases h2 : lossyEmission.eventId = id <;> simp [h1, h2]
  · have hle := hpre.length_le
    exact Nat.lt_of_le_of_lt ((card_openIds_le pre).trans (hlength ▸ hle)) (by decide)

end UsbScope.Ebpf
