import UsbScope.Capture.Completeness

/-! # The stream of one event

A stream is a `BEGIN`, some `DATA` and `ISO` records and an `END`, all of one
id. Whether the records in the middle are accepted, and what they leave behind,
does not depend on how `DATA` records are ordered among themselves and between
the `ISO` records (`Acceptable.perm`, `Gathered.unique`), so neither does what
the stream leads to (`Reordered.outcome`). -/
namespace UsbScope.Capture
open UsbScope.Lib UsbScope.Common

/-- What the records between `BEGIN` and `END` must satisfy to be accepted. -/
structure Acceptable (m : EventMeta) (own : List Bytes) : Prop where
  parsed : ∀ b ∈ own, ∃ r, Record.parse b = .ok r ∧ (r.kind = recordIso → r.body.length = 16)
  fits : ∀ f ∈ fragmentsOf own, Fragment.Fits m f
  compatible : (fragmentsOf own).Pairwise (Fragment.Compatible m)
  indices : (descriptorsOf own).map Prod.fst = List.range (descriptorsOf own).length
  room : (descriptorsOf own).length ≤ m.isoCount.toNat

/-- A record between `BEGIN` and `END`. -/
def IsPart (b : Bytes) : Prop := recordKind b = recordData ∨ recordKind b = recordIso

instance (b : Bytes) : Decidable (IsPart b) := inferInstanceAs (Decidable (_ ∨ _))

section
variable {m : EventMeta} {own own' : List Bytes} {b : Bytes}

theorem fragmentsOf_append (own own' : List Bytes) :
    fragmentsOf (own ++ own') = fragmentsOf own ++ fragmentsOf own' := List.filterMap_append

theorem descriptorsOf_append (own own' : List Bytes) :
    descriptorsOf (own ++ own') = descriptorsOf own ++ descriptorsOf own' := List.filterMap_append

theorem descriptorOf_of_kind (h : recordKind b ≠ recordIso) : descriptorOf b = none := by
  unfold descriptorOf
  split
  · rfl
  · rename_i r hr
    rw [if_neg ((parse_ok hr).2 ▸ h)]

/-- The descriptors depend on the `ISO` records only. -/
theorem descriptorsOf_filter (own : List Bytes) :
    descriptorsOf (own.filter fun b => recordKind b = recordIso) = descriptorsOf own := by
  unfold descriptorsOf
  rw [List.filterMap_filter]
  refine List.filterMap_congr fun b _ => ?_
  by_cases h : recordKind b = recordIso
  · simp [h]
  · simp [h, descriptorOf_of_kind h]

theorem Acceptable.init (h : Acceptable m (own ++ [b])) : Acceptable m own := by
  have hd := descriptorsOf_append own [b]
  have hf := fragmentsOf_append own [b]
  refine ⟨fun x hx => h.parsed x (List.mem_append_left _ hx), ?_, ?_, ?_, ?_⟩
  · intro f hf'
    exact h.fits f (hf ▸ List.mem_append_left _ hf')
  · exact (List.pairwise_append.mp (hf ▸ h.compatible)).1
  · have hi := h.indices
    rw [hd, List.map_append, List.length_append, List.range_add] at hi
    exact (List.append_inj hi (by simp)).1
  · have := h.room
    rw [hd, List.length_append] at this
    omega

/-- The order of the records matters only among the `ISO` records. -/
theorem Acceptable.perm (h : Acceptable m own) (hp : own.Perm own')
    (hi : own.filter (fun b => recordKind b = recordIso) =
      own'.filter fun b => recordKind b = recordIso) : Acceptable m own' := by
  have hd : descriptorsOf own' = descriptorsOf own := by
    rw [← descriptorsOf_filter own', ← hi, descriptorsOf_filter]
  have hf : (fragmentsOf own).Perm (fragmentsOf own') := hp.filterMap _
  refine ⟨fun b hb => h.parsed b (hp.mem_iff.mpr hb), fun f hf' => h.fits f (hf.mem_iff.mpr hf'),
    ?_, by rw [hd]; exact h.indices, by rw [hd]; exact h.room⟩
  exact (hf.pairwise_iff fun hc => hc.symm).mp h.compatible

/-- The gathered records determine the pending event. -/
theorem Gathered.unique {p p' : Pending} (h : Gathered m own p) (h' : Gathered m own' p')
    (hp : own.Perm own') (hd : descriptorsOf own = descriptorsOf own') : p = p' := by
  obtain ⟨hr, hc, hb⟩ := h.assembled.unique h'.assembled (hp.filterMap _)
  have hiso : p.event.iso = p'.event.iso := by rw [← h.descriptors, ← h'.descriptors, hd]
  have hev : p.event = p'.event := by rw [h.event, h'.event, hiso, hb]
  cases p
  cases p'
  simp_all

/-! ## Running the middle of a stream -/

/-- What a run over the middle records establishes. -/
theorem run_parts {t : Option Pending} {os : List Outcome} (hk : ∀ b ∈ own, IsPart b)
    (h : Machine.run slotBytes (some (Pending.opened m)) own = .ok (t, os)) :
    Acceptable m own ∧ (∃ p, t = some p ∧ Gathered m own p) ∧ os = own.map fun _ => .stored := by
  suffices hi : (∀ b ∈ own, ∃ r, Record.parse b = .ok r ∧
      (r.kind = recordIso → r.body.length = 16)) ∧ (∃ p, t = some p ∧ Gathered m own p) ∧
      os = own.map fun _ => .stored by
    obtain ⟨hparsed, ⟨p, rfl, hg⟩, hos⟩ := hi
    have hlen : (descriptorsOf own).length = p.event.iso.length := by
      rw [← hg.descriptors, List.length_map]
    exact ⟨⟨hparsed, hg.fits, hg.compatible, hlen ▸ hg.indices, hlen ▸ hg.room⟩, ⟨p, rfl, hg⟩, hos⟩
  refine Machine.run_history (I := fun l os t => (∀ b ∈ l, IsPart b) →
    (∀ b ∈ l, ∃ r, Record.parse b = .ok r ∧ (r.kind = recordIso → r.body.length = 16)) ∧
      (∃ p, t = some p ∧ Gathered m l p) ∧ os = l.map fun _ => Outcome.stored) ?_ ?_ h hk
  · intro _
    exact ⟨by simp, ⟨_, rfl, gathered_opened m⟩, rfl⟩
  · intro l os s b t o ih hs hkinds
    obtain ⟨hparsed, ⟨p, rfl, hg⟩, rfl⟩ := ih fun x hx => hkinds x (List.mem_append_left _ hx)
    have hkb : IsPart b := hkinds b (by simp)
    unfold IsPart at hkb
    -- the records before, with the one just pushed
    have extend : ∀ r, Record.parse b = .ok r → (r.kind = recordIso → r.body.length = 16) →
        ∀ x ∈ l ++ [b], ∃ r, Record.parse x = .ok r ∧ (r.kind = recordIso → r.body.length = 16) := by
      intro r hr hlen x hx
      rcases List.mem_append.mp hx with hx | hx
      · exact hparsed x hx
      · obtain rfl := List.mem_singleton.mp hx
        exact ⟨r, hr, hlen⟩
    cases slotBytes_ok_iff.mp hs with
    | summary hr hk _ =>
      rw [← (parse_ok hr).2, hk] at hkb
      exact absurd hkb (by decide)
    | @data r _ p' hr hk hp =>
      refine ⟨extend r hr fun h => ?_, ⟨p', rfl, hg.data hr hk hp⟩, by simp⟩
      rw [hk] at h
      exact absurd h (by decide)
    | @iso r _ p' hr hk hp =>
      refine ⟨extend r hr fun _ => ?_, ⟨p', rfl, hg.iso hr hk hp⟩, by simp⟩
      exact (Gathered.pushIso_ok_iff.mp hp).1
    | ended hr hk _ _ =>
      rw [← (parse_ok hr).2, hk] at hkb
      exact absurd hkb (by decide)

/-- Acceptable records are accepted. -/
theorem run_of_acceptable (hk : ∀ b ∈ own, IsPart b) (h : Acceptable m own) :
    ∃ p, Machine.run slotBytes (some (Pending.opened m)) own =
      .ok (some p, own.map fun _ => .stored) ∧ Gathered m own p := by
  suffices hrun : ∃ res, Machine.run slotBytes (some (Pending.opened m)) own = .ok res by
    obtain ⟨⟨t, os⟩, hrun⟩ := hrun
    obtain ⟨_, ⟨p, rfl, hg⟩, rfl⟩ := run_parts hk hrun
    exact ⟨p, hrun, hg⟩
  induction own using List.reverseRecOn with
  | nil => exact ⟨_, rfl⟩
  | append_singleton l b ih =>
    have hkl : ∀ x ∈ l, IsPart x := fun x hx => hk x (List.mem_append_left _ hx)
    obtain ⟨⟨t, os⟩, hrun⟩ := ih hkl h.init
    obtain ⟨_, ⟨p, rfl, hg⟩, rfl⟩ := run_parts hkl hrun
    obtain ⟨r, hr, hlen⟩ := h.parsed b (by simp)
    suffices hstep : ∃ t o, slotBytes (some p) b = .ok (t, o) by
      obtain ⟨t, o, hs⟩ := hstep
      exact ⟨_, Machine.run_append.mpr ⟨_, _, _, hrun, Machine.run_singleton.mpr ⟨o, hs, rfl⟩, rfl⟩⟩
    have hkb : IsPart b := hk b (by simp)
    unfold IsPart at hkb
    rw [← (parse_ok hr).2] at hkb
    rcases hkb with hkb | hkb
    · have hf : fragmentsOf (l ++ [b]) = fragmentsOf l ++ [(r.offset.toNat, r.body)] := by
        simp [fragmentsOf, fragmentOf, hr, hkb]
      have hpush : ∃ p', p.pushData r.offset.toNat r.body = (p', .ok ()) := by
        rw [pushData_ok_iff hg.assembled, hg.metadata]
        refine ⟨h.fits _ (by rw [hf]; simp), fun f hf' => ?_⟩
        have hc := h.compatible
        rw [hf, List.pairwise_append] at hc
        exact hc.2.2 f hf' _ (by simp)
      obtain ⟨p', hp⟩ := hpush
      exact ⟨_, _, slotBytes_ok_iff.mpr (.data hr hkb hp)⟩
    · have hd : descriptorsOf (l ++ [b]) = descriptorsOf l ++ [(r.offset.toNat, isoDescriptor r.body)] := by
        simp [descriptorsOf, descriptorOf, hr, hkb]
      have hlen' : (descriptorsOf l).length = p.event.iso.length := by
        rw [← hg.descriptors, List.length_map]
      have hidx := h.indices
      have hroom := h.room
      rw [hd, List.map_append, List.length_append, List.range_add] at hidx
      rw [hd, List.length_append, List.length_singleton] at hroom
      have hlast := (List.append_inj hidx (by simp)).2
      simp only [List.map_cons, List.map_nil, List.length_singleton, List.range_one,
        List.cons.injEq, and_true] at hlast
      exact ⟨_, _, slotBytes_ok_iff.mpr (.iso hr hkb (Gathered.pushIso_ok_iff.mpr
        ⟨hlen hkb, ⟨by omega, by rw [hg.metadata]; omega⟩, rfl⟩))⟩

end

/-! ## Whole streams -/

/-- The records of one event: its `BEGIN`, its `DATA` and `ISO` records and its
`END`. -/
structure IsStream (start : Bytes) (mid : List Bytes) (stop : Bytes) : Prop where
  begins : recordKind start = recordBegin
  parts : ∀ b ∈ mid, IsPart b
  ends : recordKind stop = recordEnd

/-- How an event ends: delivered or dropped as incomplete. -/
def closing : Option Event → Outcome
  | some e => .delivered e
  | none => .dropped

/-- The outcome at each record of a stream that ends in `x`. -/
def outcomeAt (x : Option Event) (b : Bytes) : Outcome :=
  if recordKind b = recordEnd then closing x
  else if recordKind b = recordBegin then .opened
  else .stored

section
variable {start stop : Bytes} {mid mid' : List Bytes}

theorem IsStream.outcomes (h : IsStream start mid stop) (x : Option Event) :
    (start :: (mid ++ [stop])).map (outcomeAt x) =
      .opened :: ((mid.map fun _ => .stored) ++ [closing x]) := by
  have hmid : mid.map (outcomeAt x) = mid.map fun _ => .stored := by
    refine List.map_congr_left fun b hb => ?_
    rcases h.parts b hb with hk | hk <;> simp [outcomeAt, hk, recordData, recordIso, recordEnd, recordBegin]
  rw [List.map_cons, List.map_append, hmid]
  simp [outcomeAt, h.begins, h.ends, recordBegin, recordEnd]

/-- A stream runs through exactly if its metadata and middle records are
acceptable and its `END` is well formed; the outcomes are then fixed by how the
event ends. -/
theorem IsStream.run_iff (h : IsStream start mid stop) {t : Option Pending} {os : List Outcome} :
    Machine.run slotBytes none (start :: (mid ++ [stop])) = .ok (t, os) ↔
      ∃ m p x, metaOf start = .ok m ∧ Acceptable m mid ∧ Gathered m mid p ∧
        slotBytes (some p) stop = .ok (none, closing x) ∧ t = none ∧
        os = (start :: (mid ++ [stop])).map (outcomeAt x) := by
  simp only [h.outcomes]
  constructor
  · intro hrun
    obtain ⟨s, o, os', h1, h2, rfl⟩ := Machine.run_cons.mp hrun
    obtain ⟨u, os₁, os₂, h3, h4, rfl⟩ := Machine.run_append.mp h2
    obtain ⟨o', h5, rfl⟩ := Machine.run_singleton.mp h4
    have hb := h.begins
    have he := h.ends
    cases slotBytes_ok_iff.mp h1 with
    | summary hr hk _ =>
      rw [← (parse_ok hr).2, hk] at hb
      exact absurd hb (by decide)
    | orphan hr hk =>
      rw [← (parse_ok hr).2] at hb
      rw [hb] at hk
      exact absurd hk (by decide)
    | @opened r m hr hk hm =>
      obtain ⟨hacc, ⟨p, rfl, hg⟩, rfl⟩ := run_parts h.parts h3
      have hmeta : metaOf start = .ok m := by unfold metaOf; rw [hr]; exact hm
      have hclose : ∃ x, t = none ∧ o' = closing x := by
        cases slotBytes_ok_iff.mp h5 with
        | summary hr hk _ =>
          rw [← (parse_ok hr).2, hk] at he
          exact absurd he (by decide)
        | data hr hk _ =>
          rw [← (parse_ok hr).2, hk] at he
          exact absurd he (by decide)
        | iso hr hk _ =>
          rw [← (parse_ok hr).2, hk] at he
          exact absurd he (by decide)
        | @ended _ _ c _ _ _ _ =>
          cases c with
          | false => exact ⟨none, rfl, rfl⟩
          | true => exact ⟨some p.event, rfl, rfl⟩
      obtain ⟨x, rfl, rfl⟩ := hclose
      exact ⟨m, p, x, hmeta, hacc, hg, h5, rfl, rfl⟩
  · rintro ⟨m, p, x, hm, hacc, hg, hstop, rfl, rfl⟩
    obtain ⟨p', hrun, hg'⟩ := run_of_acceptable h.parts hacc
    obtain rfl := hg.unique hg' (List.Perm.refl _) rfl
    have hstart : slotBytes none start = .ok (some (Pending.opened m), .opened) := by
      unfold metaOf at hm
      obtain ⟨r, hr, hbm⟩ := Result.bind_eq_ok.mp hm
      exact slotBytes_ok_iff.mpr (.opened hr ((parse_ok hr).2.trans h.begins) hbm)
    exact Machine.run_cons.mpr ⟨_, _, _, hstart, Machine.run_append.mpr ⟨_, _, _, hrun,
      Machine.run_singleton.mpr ⟨_, hstop, rfl⟩, rfl⟩, rfl⟩

end

/-- Two orders of one event's records that keep its `ISO` records in order; an
id may also have no records at all. -/
inductive Reordered : List Bytes → List Bytes → Prop
  | nil : Reordered [] []
  | stream {start stop : Bytes} {mid mid' : List Bytes} (stream : IsStream start mid stop)
      (perm : mid.Perm mid')
      (iso : mid.filter (fun b => recordKind b = recordIso) =
        mid'.filter fun b => recordKind b = recordIso) :
      Reordered (start :: (mid ++ [stop])) (start :: (mid' ++ [stop]))

namespace Reordered
variable {s s' : List Bytes}

theorem symm (h : Reordered s s') : Reordered s' s := by
  cases h with
  | nil => exact .nil
  | stream hs hp hi =>
    exact .stream ⟨hs.begins, fun b hb => hs.parts b (hp.mem_iff.mpr hb), hs.ends⟩ hp.symm hi.symm

theorem perm (h : Reordered s s') : s.Perm s' := by
  cases h with
  | nil => exact List.Perm.refl _
  | stream _ hp _ => exact (hp.append_right _).cons _

theorem refl_left (h : Reordered s s') : Reordered s s := by
  cases h with
  | nil => exact .nil
  | stream hs _ _ => exact .stream hs (List.Perm.refl _) rfl

/-- Both orders run through, to the same end of the event, or neither does. -/
theorem outcome (h : Reordered s s') {t : Option Pending} {os : List Outcome}
    (hrun : Machine.run slotBytes none s = .ok (t, os)) :
    ∃ x, t = none ∧ os = s.map (outcomeAt x) ∧
      Machine.run slotBytes none s' = .ok (none, s'.map (outcomeAt x)) := by
  cases h with
  | nil =>
    cases hrun
    exact ⟨none, rfl, rfl, rfl⟩
  | @stream start stop mid mid' hs hp hi =>
    obtain ⟨m, p, x, hm, hacc, hg, hstop, rfl, rfl⟩ := hs.run_iff.mp hrun
    have hs' : IsStream start mid' stop :=
      ⟨hs.begins, fun b hb => hs.parts b (hp.mem_iff.mpr hb), hs.ends⟩
    have hacc' := hacc.perm hp hi
    obtain ⟨p', _, hg'⟩ := run_of_acceptable hs'.parts hacc'
    have hd : descriptorsOf mid = descriptorsOf mid' := by
      rw [← descriptorsOf_filter mid, hi, descriptorsOf_filter]
    obtain rfl := hg.unique hg' hp hd
    exact ⟨x, rfl, rfl, hs'.run_iff.mpr ⟨m, p, x, hm, hacc', hg', hstop, rfl, rfl⟩⟩

end Reordered
end UsbScope.Capture
