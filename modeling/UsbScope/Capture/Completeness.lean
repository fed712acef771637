import UsbScope.Capture.Fragments
import UsbScope.Capture.Slots

/-! # Delivered events are complete

The records of one id since its `BEGIN` determine the pending event
(`Gathered`). At the `END` the checks then say that everything the data phase
calls for was carried by one of these records (`Whole`): a delivered event has
its descriptors, its declared length and its bytes. -/
namespace UsbScope.Capture
open UsbScope.Lib UsbScope.Common

/-- The payload fragment of a `DATA` record. -/
def fragmentOf (b : Bytes) : Option Fragment :=
  match Record.parse b with
  | .error _ => none
  | .ok r => if r.kind = recordData then some (r.offset.toNat, r.body) else none

/-- The index and the descriptor of an `ISO` record. -/
def descriptorOf (b : Bytes) : Option (Nat × IsoDescriptor) :=
  match Record.parse b with
  | .error _ => none
  | .ok r => if r.kind = recordIso then some (r.offset.toNat, isoDescriptor r.body) else none

def fragmentsOf (records : List Bytes) : List Fragment := records.filterMap fragmentOf

def descriptorsOf (records : List Bytes) : List (Nat × IsoDescriptor) :=
  records.filterMap descriptorOf

/-- The metadata a `BEGIN` record declares. -/
def metaOf (b : Bytes) : Result EventMeta := do
  let r ← Record.parse b
  beginMeta r

/-- A pending event after its `BEGIN` declared `m` and the records `own` of its
id followed. -/
structure Gathered (m : EventMeta) (own : List Bytes) (p : Pending) : Prop where
  event : p.event = { (Pending.opened m).event with iso := p.event.iso, payload := p.event.payload }
  assembled : Assembled (fragmentsOf own) p
  fits : ∀ f ∈ fragmentsOf own, Fragment.Fits m f
  compatible : (fragmentsOf own).Pairwise (Fragment.Compatible m)
  indices : (descriptorsOf own).map Prod.fst = List.range p.event.iso.length
  descriptors : (descriptorsOf own).map Prod.snd = p.event.iso
  room : p.event.iso.length ≤ m.isoCount.toNat

theorem gathered_opened (m : EventMeta) : Gathered m [] (Pending.opened m) where
  event := rfl
  assembled := assembled_opened m
  fits := by simp [fragmentsOf]
  compatible := List.Pairwise.nil
  indices := rfl
  descriptors := rfl
  room := Nat.zero_le _

namespace Gathered

variable {m : EventMeta} {own : List Bytes} {p p' : Pending} {b : Bytes} {r : Record}

theorem metadata (h : Gathered m own p) : p.event.metadata = m := by rw [h.event]; rfl

theorem data (h : Gathered m own p) (hr : Record.parse b = .ok r) (hk : r.kind = recordData)
    (hp : p.pushData r.offset.toNat r.body = (p', .ok ())) : Gathered m (own ++ [b]) p' := by
  obtain ⟨hfits, hcompat⟩ := (pushData_ok_iff h.assembled).mp ⟨p', hp⟩
  rw [h.metadata] at hfits hcompat
  obtain ⟨ha, hev⟩ := pushData_assembled h.assembled hp
  have hf : fragmentsOf (own ++ [b]) = fragmentsOf own ++ [(r.offset.toNat, r.body)] := by
    simp [fragmentsOf, fragmentOf, hr, hk]
  have hd : descriptorsOf (own ++ [b]) = descriptorsOf own := by
    have hi : ¬ recordData = recordIso := by decide
    simp [descriptorsOf, descriptorOf, hr, hk, hi]
  have hiso : p'.event.iso = p.event.iso := by rw [hev]
  refine ⟨?_, hf ▸ ha, ?_, ?_, ?_, ?_, ?_⟩
  · rw [hev, h.event]
  · rw [hf]
    intro f hmem
    rcases List.mem_append.mp hmem with hmem | hmem
    · exact h.fits f hmem
    · obtain rfl := List.mem_singleton.mp hmem
      exact hfits
  · rw [hf]
    refine List.pairwise_append.mpr ⟨h.compatible, List.pairwise_singleton _ _, ?_⟩
    intro f hmem g hg
    obtain rfl := List.mem_singleton.mp hg
    exact hcompat f hmem
  · rw [hd, hiso]; exact h.indices
  · rw [hd, hiso]; exact h.descriptors
  · rw [hiso]; exact h.room

theorem pushIso_ok_iff {offset : Nat} {body : Bytes} :
    p.pushIso offset body = .ok p' ↔
      body.length = 16 ∧ (offset = p.event.iso.length ∧ offset < p.event.metadata.isoCount.toNat) ∧
        p' = { p with event := { p.event with iso := p.event.iso ++ [isoDescriptor body] } } := by
  unfold Pending.pushIso
  simp only [ensure_bind_eq_ok, Result.pure_eq_ok]
  exact and_congr_right fun _ => and_congr_right fun _ => eq_comm

theorem iso (h : Gathered m own p) (hr : Record.parse b = .ok r) (hk : r.kind = recordIso)
    (hp : p.pushIso r.offset.toNat r.body = .ok p') : Gathered m (own ++ [b]) p' := by
  obtain ⟨_, ⟨hoff, hlt⟩, rfl⟩ := pushIso_ok_iff.mp hp
  rw [h.metadata] at hlt
  have hi : ¬ recordIso = recordData := by decide
  have hf : fragmentsOf (own ++ [b]) = fragmentsOf own := by
    simp [fragmentsOf, fragmentOf, hr, hk, hi]
  have hd : descriptorsOf (own ++ [b]) =
      descriptorsOf own ++ [(r.offset.toNat, isoDescriptor r.body)] := by
    simp [descriptorsOf, descriptorOf, hr, hk]
  refine ⟨?_, ?_, ?_, ?_, ?_, ?_, ?_⟩
  · dsimp only
    rw [h.event]
  · rw [hf]; exact h.assembled.congr rfl rfl rfl
  · rw [hf]; exact h.fits
  · rw [hf]; exact h.compatible
  · rw [hd, List.map_append, h.indices, List.length_append, List.length_singleton,
      List.range_succ, hoff]
    rfl
  · rw [hd, List.map_append, h.descriptors]
    rfl
  · rw [List.length_append, List.length_singleton]
    omega

/-- Records of other kinds say nothing about the event. -/
theorem other (h : Gathered m own p) (hr : Record.parse b = .ok r) (hd : r.kind ≠ recordData)
    (hi : r.kind ≠ recordIso) : Gathered m (own ++ [b]) p := by
  have hf : fragmentsOf (own ++ [b]) = fragmentsOf own := by
    simp [fragmentsOf, fragmentOf, hr, hd]
  have hds : descriptorsOf (own ++ [b]) = descriptorsOf own := by
    simp [descriptorsOf, descriptorOf, hr, hi]
  refine ⟨h.event, ?_, ?_, ?_, ?_, ?_, h.room⟩
  · rw [hf]; exact h.assembled
  · rw [hf]; exact h.fits
  · rw [hf]; exact h.compatible
  · rw [hds]; exact h.indices
  · rw [hds]; exact h.descriptors

end Gathered

/-! ## The history of an open slot -/

/-- The records of an id split at the `BEGIN` that opened its event. -/
def OpenedBy (records : List Bytes) (p : Pending) : Prop :=
  ∃ before start m own, records = before ++ start :: own ∧
    recordKind start = recordBegin ∧ metaOf start = .ok m ∧
    (∀ x ∈ own, recordKind x ≠ recordBegin ∧ recordKind x ≠ recordEnd) ∧ Gathered m own p

/-- A step of an open slot keeps its history. -/
theorem slotBytes_openedBy {records : List Bytes} {s : Option Pending} {b : Bytes} {p' : Pending}
    {o : Outcome} (h : ∀ p, s = some p → OpenedBy records p)
    (hs : slotBytes s b = .ok (some p', o)) : OpenedBy (records ++ [b]) p' := by
  -- the records of an open event, followed by one that neither begins nor ends it
  have extend : ∀ p, s = some p → recordKind b ≠ recordBegin → recordKind b ≠ recordEnd →
      (∀ m own, Gathered m own p → Gathered m (own ++ [b]) p') → OpenedBy (records ++ [b]) p' := by
    intro p hp hb he hg
    obtain ⟨before, start, m, own, rfl, hst, hm, hno, hgath⟩ := h p hp
    refine ⟨before, start, m, own ++ [b], by simp, hst, hm, ?_, hg m own hgath⟩
    intro x hx
    rcases List.mem_append.mp hx with hx | hx
    · exact hno x hx
    · obtain rfl := List.mem_singleton.mp hx
      exact ⟨hb, he⟩
  cases slotBytes_ok_iff.mp hs with
  | @summary _ r hr hk _ =>
    have h1 : recordKind b = recordStats := (parse_ok hr).2 ▸ hk
    refine extend p' rfl (by rw [h1]; decide) (by rw [h1]; decide) fun m own hg => ?_
    exact hg.other hr (by rw [hk]; decide) (by rw [hk]; decide)
  | @opened r m hr hk hm =>
    refine ⟨records, b, m, [], rfl, (parse_ok hr).2 ▸ hk, ?_, by simp, gathered_opened m⟩
    unfold metaOf
    rw [hr]
    exact hm
  | @data r p _ hr hk hp =>
    have h1 : recordKind b = recordData := (parse_ok hr).2 ▸ hk
    exact extend p rfl (by rw [h1]; decide) (by rw [h1]; decide) fun m own hg => hg.data hr hk hp
  | @iso r p _ hr hk hp =>
    have h1 : recordKind b = recordIso := (parse_ok hr).2 ▸ hk
    exact extend p rfl (by rw [h1]; decide) (by rw [h1]; decide) fun m own hg => hg.iso hr hk hp

theorem run_openedBy {records : List Bytes} {s : Option Pending} {os : List Outcome}
    (h : Machine.run slotBytes none records = .ok (s, os)) : ∀ p, s = some p → OpenedBy records p := by
  refine Machine.run_history (I := fun l _ s => ∀ p, s = some p → OpenedBy l p) ?_ ?_ h
  · intro p hp
    cases hp
  · intro l _ s b t o ih hs p hp
    subst hp
    exact slotBytes_openedBy ih hs

/-! ## The completeness check -/

/-- The largest end of a nonempty descriptor. -/
def isoEnd (ds : List IsoDescriptor) : Nat :=
  ((ds.filter fun d => decide (d.length ≠ 0)).map IsoDescriptor.stop).foldr max 0

theorem isoSpan_eq_ok {requestedLen span : Nat} {ds : List IsoDescriptor} {n : Nat} :
    isoSpan requestedLen ds span = .ok n ↔
      (∀ d ∈ ds, d.stop ≤ requestedLen) ∧ n = max span (isoEnd ds) := by
  induction ds generalizing span with
  | nil => simp [isoSpan, isoEnd, eq_comm]
  | cons d rest ih =>
    rw [isoSpan, ensure_bind_eq_ok, ih, List.forall_mem_cons, and_assoc]
    refine and_congr_right fun _ => and_congr_right fun _ => ?_
    by_cases hd : d.length ≠ 0
    · simp [isoEnd, hd, max_assoc]
    · simp [isoEnd, hd]

theorem le_isoEnd {ds : List IsoDescriptor} {d : IsoDescriptor} (hd : d ∈ ds)
    (hl : d.length ≠ 0) : d.stop ≤ isoEnd ds := by
  induction ds with
  | nil => simp at hd
  | cons x rest ih =>
    have hstep : isoEnd (x :: rest) =
        if x.length ≠ 0 then max x.stop (isoEnd rest) else isoEnd rest := by
      by_cases hx : x.length ≠ 0 <;> simp [isoEnd, hx]
    rw [hstep]
    rcases List.mem_cons.mp hd with rfl | hd
    · rw [if_pos hl]; exact le_max_left _ _
    · have := ih hd
      split
      · exact this.trans (le_max_right _ _)
      · exact this

theorem isoEnd_mem {ds : List IsoDescriptor} (h : isoEnd ds ≠ 0) :
    ∃ d ∈ ds, d.length ≠ 0 ∧ isoEnd ds = d.stop := by
  induction ds with
  | nil => simp [isoEnd] at h
  | cons x rest ih =>
    have hstep : isoEnd (x :: rest) =
        if x.length ≠ 0 then max x.stop (isoEnd rest) else isoEnd rest := by
      by_cases hx : x.length ≠ 0 <;> simp [isoEnd, hx]
    rw [hstep] at h ⊢
    by_cases hx : x.length ≠ 0
    · rw [if_pos hx] at h ⊢
      rcases max_choice x.stop (isoEnd rest) with hm | hm
      · exact ⟨x, by simp, hx, hm⟩
      · rw [hm] at h ⊢
        obtain ⟨d, hd, hl, he⟩ := ih h
        exact ⟨d, List.mem_cons_of_mem _ hd, hl, he⟩
    · rw [if_neg hx] at h ⊢
      obtain ⟨d, hd, hl, he⟩ := ih h
      exact ⟨d, List.mem_cons_of_mem _ hd, hl, he⟩

/-- The payload length that an event's data phase, lengths and descriptors call
for. -/
def declaredPayload (m : EventMeta) (iso : List IsoDescriptor) : Nat :=
  expectedPayload m (if m.transferType = 0 then isoEnd iso else 0)

/-- What the `END` check of a complete event establishes. -/
structure Checked (p : Pending) (body : Bytes) : Prop where
  reason : u32At body 12 = complete
  copied : (u64At body 0).toNat = p.copied
  descriptors : u32At body 8 = p.event.metadata.isoCount
  count : p.event.iso.length = p.event.metadata.isoCount.toNat
  length : p.event.metadata.payloadLen.toNat = declaredPayload p.event.metadata p.event.iso
  presence : p.event.metadata.hasData ≠ 0 ↔ p.event.metadata.payloadLen.toNat ≠ 0
  data : p.dataComplete = true

/-- ISO descriptors must lie inside the transfer buffer. -/
def Pending.DescriptorsInside (p : Pending) : Prop :=
  p.event.metadata.transferType = 0 →
    ∀ d ∈ p.event.iso, d.stop ≤ p.event.metadata.requestedLen.toNat

theorem span_eq_ok {p : Pending} {n : Nat} :
    p.span = .ok n ↔ p.DescriptorsInside ∧
      n = if p.event.metadata.transferType = 0 then isoEnd p.event.iso else 0 := by
  unfold Pending.span Pending.DescriptorsInside
  dsimp only
  split
  · rename_i h
    rw [isoSpan_eq_ok]
    simp [h]
  · rename_i h
    simp [h, eq_comm]

/-- The verdict of the `END` check, for descriptors inside the buffer. -/
theorem isComplete_of_inside {p : Pending} (body : Bytes) (h : p.DescriptorsInside) :
    ∃ c, p.isComplete body = .ok c ∧ (c = true ↔ Checked p body) := by
  have hspan := span_eq_ok.mpr ⟨h, rfl⟩
  unfold Pending.isComplete
  rw [hspan]
  refine ⟨_, rfl, ?_⟩
  simp only [Bool.not_eq_true', Bool.or_eq_false_iff, decide_eq_false_iff_not, not_not,
    bne_eq_false_iff_eq, Bool.not_eq_false', decide_eq_decide]
  constructor
  · rintro ⟨⟨⟨⟨⟨⟨h1, h2⟩, h3⟩, h4⟩, h5⟩, h6⟩, h7⟩
    exact ⟨h1, h2, h3, h4, h5, by rw [h5]; exact h6, h7⟩
  · rintro ⟨h1, h2, h3, h4, h5, h6, h7⟩
    rw [h5] at h6
    exact ⟨⟨⟨⟨⟨⟨h1, h2⟩, h3⟩, h4⟩, h5⟩, h6⟩, h7⟩

theorem isComplete_eq_ok {p : Pending} {body : Bytes} {c : Bool} :
    p.isComplete body = .ok c ↔ p.DescriptorsInside ∧ (c = true ↔ Checked p body) := by
  constructor
  · intro h
    have hin : p.DescriptorsInside := by
      unfold Pending.isComplete at h
      obtain ⟨n, hn, _⟩ := Result.bind_eq_ok.mp h
      exact (span_eq_ok.mp hn).1
    obtain ⟨c', hc', hiff⟩ := isComplete_of_inside body hin
    rw [h] at hc'
    cases hc'
    exact ⟨hin, hiff⟩
  · rintro ⟨hin, hiff⟩
    obtain ⟨c', hc', hiff'⟩ := isComplete_of_inside body hin
    rw [hc', Bool.eq_iff_iff.mpr (hiff'.trans hiff.symm)]

/-- `covers` is exact: the whole range has been carried. -/
theorem covers_iff {frags : List Fragment} {p : Pending} (h : Assembled frags p)
    {start len : Nat} (hmax : start + len ≤ u64Max) :
    p.covers start len = true ↔
      ∀ q, start ≤ q → q < start + len → ∃ f ∈ frags, f.Has q := by
  unfold Pending.covers
  by_cases hl : len = 0
  · subst hl
    simp only [decide_true, Bool.true_or, true_iff]
    intro q h1 h2
    omega
  · have hex : (∃ e, p.ranges.lastLE start = some e ∧ start + len ≤ e.2) ↔
        ∀ q, start ≤ q → q < start + len → ∃ f ∈ frags, f.Has q := by
      rw [RangeMap.covered_range_iff h.canonical (Nat.pos_of_ne_zero hl)]
      simp only [h.covered]
    rw [← hex]
    cases p.ranges.lastLE start with
    | none => simp [hl]
    | some e => simp [hl, hmax]

/-! ## Complete events -/

/-- A delivered event holds everything its data phase calls for, taken from the
records `own` between its `BEGIN` and its `END`. -/
structure Whole (own : List Bytes) (e : Event) : Prop where
  count : e.iso.length = e.metadata.isoCount.toNat
  indices : (descriptorsOf own).map Prod.fst = List.range e.metadata.isoCount.toNat
  descriptors : (descriptorsOf own).map Prod.snd = e.iso
  declared : e.metadata.payloadLen.toNat =
    if e.metadata.dataPhase = false then 0
    else if e.metadata.transferType = 0 then isoEnd e.iso
    else if e.metadata.eventType = submitType then e.metadata.requestedLen.toNat
    else e.metadata.actualLen.toNat
  presence : e.metadata.hasData = (if e.metadata.payloadLen ≠ 0 then 1 else 0)
  carried : e.metadata.dataPhase = true → e.metadata.transferType ≠ 0 →
    ∀ q < e.metadata.payloadLen.toNat, ∃ f ∈ fragmentsOf own, f.Has q
  carriedIso : e.metadata.dataPhase = true → e.metadata.transferType = 0 →
    ∀ d ∈ e.iso, ∀ q, d.offset.toNat ≤ q → q < d.stop → ∃ f ∈ fragmentsOf own, f.Has q
  length : e.payload.length = e.metadata.payloadLen.toNat
  bytes : ∀ f ∈ fragmentsOf own, ∀ q b, f.Carries q b → e.payload[q]? = some b

theorem decodeMeta_eq_ok {b : Bytes} {m : EventMeta} (h : decodeMeta b = .ok m) :
    b.length = 72 ∧ m = metaFields b ∧
      (m.eventType = submitType ∨ m.eventType = completeType ∨ m.eventType = errorType) ∧
      (m.transferType.toNat ≤ 3 ∧ m.device.toNat ≤ 127) ∧
      (m.hasData.toNat ≤ 1 ∧ m.setupPresent.toNat ≤ 1) ∧
      (m.hasData ≠ 0 ∨ m.payloadLen = 0) ∧ (m.transferType = 0 ∨ m.isoCount = 0) ∧
      m.payloadLen.toNat ≤ m.requestedLen.toNat := by
  unfold decodeMeta at h
  simp only [ensure_bind_eq_ok, Result.pure_eq_ok] at h
  obtain ⟨h1, h2, h3, h4, h5, h6, h7, rfl⟩ := h
  exact ⟨h1, rfl, h2, h3, h4, h5, h6, h7⟩

theorem metaOf_eq_ok {b : Bytes} {m : EventMeta} (h : metaOf b = .ok m) :
    ∃ r, Record.parse b = .ok r ∧ r.offset = 0 ∧ decodeMeta r.body = .ok m := by
  unfold metaOf at h
  obtain ⟨r, hr, hm⟩ := Result.bind_eq_ok.mp h
  unfold beginMeta at hm
  rw [ensure_bind_eq_ok] at hm
  exact ⟨r, hr, hm.1, hm.2⟩

section
variable {m : EventMeta} {own : List Bytes} {p : Pending} {body : Bytes}

/-- The declared length, written out by phase and transfer type. -/
theorem declaredPayload_eq (m : EventMeta) (iso : List IsoDescriptor) :
    declaredPayload m iso = if m.dataPhase = false then 0
      else if m.transferType = 0 then isoEnd iso
      else if m.eventType = submitType then m.requestedLen.toNat else m.actualLen.toNat := by
  unfold declaredPayload expectedPayload
  cases m.dataPhase with
  | false => rfl
  | true =>
    by_cases h : m.transferType = 0
    · simp [h]
    · simp [h]

/-- With the data flag set, the coverage checks hold for every required range. -/
theorem Checked.covered (hc : Checked p body) (hg : Gathered m own p)
    (hd : p.event.metadata.hasData ≠ 0) :
    (p.event.metadata.transferType ≠ 0 →
      ∀ q < p.event.metadata.payloadLen.toNat, ∃ f ∈ fragmentsOf own, f.Has q) ∧
    (p.event.metadata.transferType = 0 →
      ∀ d ∈ p.event.iso, ∀ q, d.offset.toNat ≤ q → q < d.stop → ∃ f ∈ fragmentsOf own, f.Has q) := by
  have hdata := hc.data
  unfold Pending.dataComplete at hdata
  simp only [if_neg hd] at hdata
  refine ⟨fun ht => ?_, fun ht => ?_⟩
  · rw [if_neg ht] at hdata
    have hlt := p.event.metadata.payloadLen.toNat_lt
    have hmax : 0 + p.event.metadata.payloadLen.toNat ≤ u64Max := by unfold u64Max; omega
    intro q hq
    exact (covers_iff hg.assembled hmax).mp hdata q (Nat.zero_le _) (by omega)
  · rw [if_pos ht, Bool.and_eq_true, List.all_eq_true] at hdata
    intro d hdm q h1 h2
    have ho := d.offset.toNat_lt
    have hl := d.length.toNat_lt
    have hmax : d.offset.toNat + d.length.toNat ≤ u64Max := by unfold u64Max; omega
    exact (covers_iff hg.assembled hmax).mp (hdata.2 d hdm) q h1 h2

/-- The `END` check of the gathered records makes the event whole. -/
theorem Checked.whole (hc : Checked p body) (hg : Gathered m own p)
    (hflag : m.hasData.toNat ≤ 1) : Whole own p.event := by
  have hm := hg.metadata
  have hdecl := hc.length.trans (declaredPayload_eq _ _)
  -- outside the data phase nothing is declared; inside, the flag follows the length
  have hphase : p.event.metadata.payloadLen.toNat ≠ 0 → p.event.metadata.dataPhase = true := by
    intro hne
    cases hph : p.event.metadata.dataPhase with
    | true => rfl
    | false => simp [hdecl, hph] at hne
  have hisoCarried : p.event.metadata.dataPhase = true → p.event.metadata.transferType = 0 →
      ∀ d ∈ p.event.iso, ∀ q, d.offset.toNat ≤ q → q < d.stop → ∃ f ∈ fragmentsOf own, f.Has q := by
    intro hph ht d hd q h1 h2
    have hl : d.length ≠ 0 := by
      intro h0
      have : d.stop = d.offset.toNat := by simp [IsoDescriptor.stop, h0]
      omega
    have hle := le_isoEnd hd hl
    have hpl : p.event.metadata.payloadLen.toNat = isoEnd p.event.iso := by
      simpa [hph, ht] using hdecl
    exact (hc.covered hg (hc.presence.mpr (by omega))).2 ht d hd q h1 h2
  have hcarried : p.event.metadata.transferType ≠ 0 →
      ∀ q < p.event.metadata.payloadLen.toNat, ∃ f ∈ fragmentsOf own, f.Has q := by
    intro ht q hq
    exact (hc.covered hg (hc.presence.mpr (by omega))).1 ht q hq
  refine ⟨hc.count, ?_, hg.descriptors, hdecl, ?_, fun _ => hcarried, hisoCarried, ?_,
    hg.assembled.bytes⟩
  · rw [hg.indices, hc.count]
  · have hz : p.event.metadata.payloadLen ≠ 0 ↔ p.event.metadata.payloadLen.toNat ≠ 0 := by
      rw [Ne, Ne, ← UInt32.toNat_inj]
      rfl
    split
    · rename_i hne
      have hd := hc.presence.mpr (hz.mp hne)
      have hn : p.event.metadata.hasData.toNat ≠ 0 := fun h0 => hd (UInt8.toNat_inj.mp h0)
      rw [← hm] at hflag
      exact UInt8.toNat_inj.mp (show _ = 1 by omega)
    · rename_i hne
      by_contra hd
      exact hne (hz.mpr (hc.presence.mp hd))
  · apply le_antisymm
    · cases hl : p.event.payload.length with
      | zero => exact Nat.zero_le _
      | succ q =>
        obtain ⟨f, hf, hhas⟩ := (hg.assembled.covered q).mp (hg.assembled.ends q hl)
        have hfits := (hg.fits f hf).2.2
        rw [hm]
        exact Nat.lt_of_lt_of_le hhas.2 hfits
    · by_contra hlt
      have hpos : p.event.metadata.payloadLen.toNat ≠ 0 := by omega
      -- the last declared position is required, hence stored
      have hlast : ∃ f ∈ fragmentsOf own, f.Has (p.event.metadata.payloadLen.toNat - 1) := by
        by_cases ht : p.event.metadata.transferType = 0
        · have hpl : p.event.metadata.payloadLen.toNat = isoEnd p.event.iso := by
            simpa [hphase hpos, ht] using hdecl
          obtain ⟨d, hd, hdl, hde⟩ := isoEnd_mem (hpl ▸ hpos)
          have hdn : d.length.toNat ≠ 0 := fun h0 => hdl (UInt32.toNat_inj.mp h0)
          have hstop : d.stop = d.offset.toNat + d.length.toNat := rfl
          exact hisoCarried (hphase hpos) ht d hd _ (by omega) (by omega)
        · exact hcarried ht _ (by omega)
      have := hg.assembled.lt_length ((hg.assembled.covered _).mpr hlast)
      omega

end

/-- The slot step that delivers an event. -/
theorem slotBytes_delivered {s t : Option Pending} {b : Bytes} {e : Event}
    (h : slotBytes s b = .ok (t, .delivered e)) :
    ∃ p r, s = some p ∧ Record.parse b = .ok r ∧ recordKind b = recordEnd ∧ t = none ∧
      e = p.event ∧ p.DescriptorsInside ∧ Checked p r.body := by
  generalize ho : Outcome.delivered e = o at h
  cases slotBytes_ok_iff.mp h with
  | @ended r p c hr hk _ hc =>
    cases c with
    | false => cases ho
    | true =>
      cases ho
      obtain ⟨hin, hiff⟩ := isComplete_eq_ok.mp hc
      exact ⟨p, r, rfl, hr, (parse_ok hr).2 ▸ hk, rfl, rfl, hin, hiff.mp rfl⟩
  | _ => cases ho

/-- A split of the records of one id is a split of all records. -/
theorem split_of_filter {q : Bytes → Bool} {records before own : List Bytes} {start : Bytes}
    (h : records.filter q = before ++ start :: own) :
    ∃ front between, records = front ++ start :: between ∧ q start = true ∧
      between.filter q = own := by
  obtain ⟨l, rest, rfl, _, hrest⟩ := List.filter_eq_append_iff.mp h
  obtain ⟨skip, between, rfl, _, hstart, hown⟩ := List.filter_eq_cons_iff.mp hrest
  exact ⟨l ++ skip, between, by simp, hstart, hown⟩

namespace Reassembler

/-- A delivered event was gathered from the records of its id, and passed the
check of the `END` that delivers it. -/
theorem step_delivered {records : List Bytes} {b : Bytes} {mid next : Reassembler}
    {evs : List (Option Event)} {e : Event} (hrun : fresh.run records = .ok (mid, evs))
    (hstep : mid.step b = .ok (next, some e)) :
    ∃ front start between m p body, records = front ++ start :: between ∧
      recordId start = recordId b ∧ recordKind start = recordBegin ∧ metaOf start = .ok m ∧
      (∀ x ∈ between, recordId x = recordId b →
        recordKind x ≠ recordBegin ∧ recordKind x ≠ recordEnd) ∧
      Gathered m (between.filter fun x => recordId x = recordId b) p ∧
      recordKind b = recordEnd ∧ e = p.event ∧ p.DescriptorsInside ∧ Checked p body := by
  obtain ⟨s, o, hs, _, rfl, hev⟩ := step_ok_iff.mp hstep
  cases o with
  | delivered e' =>
    cases hev
    obtain ⟨p, r, hslot, _, hk, rfl, rfl, hin, hc⟩ := slotBytes_delivered hs
    obtain ⟨os, hslots, _⟩ := run_slot hrun (recordId b)
    rw [hslot] at hslots
    obtain ⟨before, start, m, own, hsplit, hst, hm, hno, hg⟩ := run_openedBy hslots p rfl
    obtain ⟨front, between, rfl, hid, rfl⟩ := split_of_filter hsplit
    refine ⟨front, start, between, m, p, r.body, rfl, by simpa using hid, hst, hm, ?_, hg, hk, rfl,
      hin, hc⟩
    intro x hx hxid
    exact hno x (List.mem_filter.mpr ⟨hx, by simpa using hxid⟩)
  | _ => cases hev

/-- **Nothing incomplete is delivered as complete.** Whatever records were
pushed without an error, an event that the next push delivers was opened by a
`BEGIN` of its id, is closed by that push, and is whole by the records of its
id in between. -/
theorem delivered_whole {records : List Bytes} {b : Bytes} {mid next : Reassembler}
    {evs : List (Option Event)} {e : Event} (hrun : fresh.run records = .ok (mid, evs))
    (hstep : mid.step b = .ok (next, some e)) :
    ∃ before start between, records = before ++ start :: between ∧
      recordId start = recordId b ∧ recordKind start = recordBegin ∧
      metaOf start = .ok e.metadata ∧ recordKind b = recordEnd ∧
      (∀ x ∈ between, recordId x = recordId b →
        recordKind x ≠ recordBegin ∧ recordKind x ≠ recordEnd) ∧
      Whole (between.filter fun x => recordId x = recordId b) e := by
  obtain ⟨front, start, between, m, p, body, hsplit, hid, hst, hm, hno, hg, hk, rfl, _, hc⟩ :=
    step_delivered hrun hstep
  obtain ⟨_, _, _, hdec⟩ := metaOf_eq_ok hm
  have hflag := (decodeMeta_eq_ok hdec).2.2.2.2.1.1
  refine ⟨front, start, between, hsplit, hid, hst, ?_, hk, hno, hc.whole hg hflag⟩
  rw [hg.metadata]
  exact hm

/-- A bulk OUT submission of three bytes. -/
def bulkOut : EventMeta :=
  { EventMeta.zero with
    eventType := submitType
    transferType := 3
    endpoint := 2
    requestedLen := 3
    payloadLen := 3
    hasData := 1 }

def bulkOutRecords : List Bytes :=
  [record recordBegin 9 0 bulkOut.wire, record recordData 9 0 [1, 2, 3]]

def bulkOutEnd : Bytes := record recordEnd 9 0 (EventEnd.wire ⟨3, 0, complete⟩)

theorem delivered_whole_bulkOut :
    ∃ mid evs next e, fresh.run bulkOutRecords = .ok (mid, evs) ∧
      mid.step bulkOutEnd = .ok (next, some e) ∧ e.payload = [1, 2, 3] ∧
      ∃ before start between, bulkOutRecords = before ++ start :: between ∧
        Whole (between.filter fun x => recordId x = recordId bulkOutEnd) e := by
  refine ⟨_, _, _, _, rfl, rfl, by decide, ?_⟩
  obtain ⟨before, start, between, hsplit, _, _, _, _, _, hw⟩ :=
    @delivered_whole bulkOutRecords bulkOutEnd _ _ _ _ rfl rfl
  exact ⟨before, start, between, hsplit, hw⟩

end Reassembler
end UsbScope.Capture
