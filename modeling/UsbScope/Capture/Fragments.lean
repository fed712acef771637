import UsbScope.Capture.Reassembler

/-! # What the accepted payload fragments determine

`Assembled frags p` is the invariant of a pending event that has accepted the
payload fragments `frags`: the range map is canonical and covers exactly their
positions, the spool holds their bytes and zeros elsewhere, and ends at a
covered position. The invariant pins the range map, the byte count and the
spool down completely (`Assembled.unique`), up to the order of the fragments.
`pushData_ok` says when the next fragment is accepted: a condition on the
fragment alone and a symmetric one on each pair. -/
namespace UsbScope.Capture
open UsbScope.Lib UsbScope.Common

/-- A payload fragment: its offset and its bytes. -/
abbrev Fragment := Nat × Bytes

namespace Fragment

def stop (f : Fragment) : Nat := f.1 + f.2.length

def Has (f : Fragment) (p : Nat) : Prop := f.1 ≤ p ∧ p < f.stop

/-- The fragment carries byte `b` to position `p`. -/
def Carries (f : Fragment) (p : Nat) (b : UInt8) : Prop := f.1 ≤ p ∧ f.2[p - f.1]? = some b

theorem Carries.has {f : Fragment} {p : Nat} {b : UInt8} (h : f.Carries p b) : f.Has p := by
  obtain ⟨hle, hb⟩ := h
  obtain ⟨hlt, _⟩ := List.getElem?_eq_some_iff.mp hb
  exact ⟨hle, by unfold stop; omega⟩

theorem Has.carries {f : Fragment} {p : Nat} (h : f.Has p) : ∃ b, f.Carries p b := by
  obtain ⟨hle, hlt⟩ := h
  unfold stop at hlt
  exact ⟨_, hle, List.getElem?_eq_getElem (by omega)⟩

/-- What two fragments of one event may share: nothing, except that ISO frames
may carry the same bytes to the same positions. -/
def Compatible (m : EventMeta) (f g : Fragment) : Prop :=
  if m.transferType = 0 then ∀ p a b, f.Carries p a → g.Carries p b → a = b
  else ∀ p, f.Has p → ¬ g.Has p

theorem Compatible.symm {m : EventMeta} {f g : Fragment} (h : Compatible m f g) :
    Compatible m g f := by
  unfold Compatible at h ⊢
  split
  · rename_i hiso
    rw [if_pos hiso] at h
    exact fun p a b hg hf => (h p b a hf hg).symm
  · rename_i hiso
    rw [if_neg hiso] at h
    exact fun p hg hf => h p hf hg

/-- What a fragment must satisfy by itself. -/
def Fits (m : EventMeta) (f : Fragment) : Prop :=
  f.2 ≠ [] ∧ f.stop ≤ u64Max ∧ f.stop ≤ m.payloadLen.toNat

end Fragment

structure Assembled (frags : List Fragment) (p : Pending) : Prop where
  canonical : p.ranges.Canonical
  covered : ∀ q, p.ranges.Covered q ↔ ∃ f ∈ frags, f.Has q
  copied : p.copied = (frags.map fun f => f.2.length).sum
  bytes : ∀ f ∈ frags, ∀ q b, f.Carries q b → p.event.payload[q]? = some b
  gaps : ∀ q b, p.event.payload[q]? = some b → ¬ p.ranges.Covered q → b = 0
  ends : ∀ q, p.event.payload.length = q + 1 → p.ranges.Covered q

theorem assembled_opened (m : EventMeta) : Assembled [] (Pending.opened m) where
  canonical := RangeMap.canonical_nil
  covered := by simp [Pending.opened]
  copied := rfl
  bytes := by simp
  gaps := by simp [Pending.opened]
  ends := by simp [Pending.opened]

namespace Assembled

variable {frags : List Fragment} {p : Pending}

/-- Adding a descriptor does not touch the payload. -/
theorem congr (h : Assembled frags p) {p' : Pending} (hr : p'.ranges = p.ranges)
    (hc : p'.copied = p.copied) (hp : p'.event.payload = p.event.payload) :
    Assembled frags p' where
  canonical := hr ▸ h.canonical
  covered := by rw [hr]; exact h.covered
  copied := hc ▸ h.copied
  bytes := by rw [hp]; exact h.bytes
  gaps := by rw [hp, hr]; exact h.gaps
  ends := by rw [hp, hr]; exact h.ends

/-- Every covered position has been stored. -/
theorem lt_length (h : Assembled frags p) {q : Nat} (hq : p.ranges.Covered q) :
    q < p.event.payload.length := by
  obtain ⟨f, hf, hhas⟩ := (h.covered q).mp hq
  obtain ⟨b, hb⟩ := hhas.carries
  exact (List.getElem?_eq_some_iff.mp (h.bytes f hf q b hb)).1

/-- The stored byte at a covered position, from any fragment that carries it. -/
theorem stored (h : Assembled frags p) {q : Nat} (hq : p.ranges.Covered q) :
    ∃ f ∈ frags, ∃ b, f.Carries q b ∧ p.event.payload[q]? = some b := by
  obtain ⟨f, hf, hhas⟩ := (h.covered q).mp hq
  obtain ⟨b, hb⟩ := hhas.carries
  exact ⟨f, hf, b, hb, h.bytes f hf q b hb⟩

theorem length_le {p' : Pending} {frags' : List Fragment} (h : Assembled frags p)
    (h' : Assembled frags' p') (hs : ∀ f ∈ frags', f ∈ frags) :
    p'.event.payload.length ≤ p.event.payload.length := by
  cases hl : p'.event.payload.length with
  | zero => exact Nat.zero_le _
  | succ q =>
    obtain ⟨f, hf, hhas⟩ := (h'.covered q).mp (h'.ends q hl)
    exact h.lt_length ((h.covered q).mpr ⟨f, hs f hf, hhas⟩)

/-- The fragments determine the range map, the count and the spool, whatever
their order. -/
theorem unique {p' : Pending} {frags' : List Fragment} (h : Assembled frags p)
    (h' : Assembled frags' p') (hp : frags.Perm frags') :
    p.ranges = p'.ranges ∧ p.copied = p'.copied ∧ p.event.payload = p'.event.payload := by
  have hcov : ∀ q, p.ranges.Covered q ↔ p'.ranges.Covered q := by
    intro q
    rw [h.covered, h'.covered]
    exact exists_congr fun f => and_congr_left fun _ => hp.mem_iff
  have hlen : p.event.payload.length = p'.event.payload.length := le_antisymm
    (h'.length_le h fun f hf => hp.mem_iff.mp hf) (h.length_le h' fun f hf => hp.mem_iff.mpr hf)
  refine ⟨h.canonical.ext h'.canonical hcov, ?_, ?_⟩
  · rw [h.copied, h'.copied]
    exact (hp.map _).sum_eq
  · refine List.ext_getElem? fun q => ?_
    by_cases hq : p.ranges.Covered q
    · obtain ⟨f, hf, b, hb, hst⟩ := h.stored hq
      rw [hst, h'.bytes f (hp.mem_iff.mp hf) q b hb]
    · by_cases hlt : q < p.event.payload.length
      · have h1 := List.getElem?_eq_getElem hlt
        have h2 := List.getElem?_eq_getElem (hlen ▸ hlt)
        rw [h1, h2, h.gaps q _ h1 hq, h'.gaps q _ h2 (fun hc => hq ((hcov q).mpr hc))]
      · rw [List.getElem?_eq_none (by omega), List.getElem?_eq_none (by omega)]

/-- Compatibility with every accepted fragment, read off the pending event. -/
theorem compatible_iff (h : Assembled frags p) (m : EventMeta) (g : Fragment) :
    (∀ f ∈ frags, Fragment.Compatible m f g) ↔
      if m.transferType = 0 then
        ∀ q b, p.ranges.Covered q → g.Carries q b → p.event.payload[q]? = some b
      else ∀ q, g.Has q → ¬ p.ranges.Covered q := by
  unfold Fragment.Compatible
  split
  · constructor
    · intro hall q b hq hg
      obtain ⟨f, hf, c, hc, hst⟩ := h.stored hq
      rw [hst, hall f hf q c b hc hg]
    · intro hall f hf q a b ha hb
      have hq : p.ranges.Covered q := (h.covered q).mpr ⟨f, hf, ha.has⟩
      have h1 := h.bytes f hf q a ha
      rw [hall q b hq hb] at h1
      exact (Option.some.inj h1).symm
  · constructor
    · intro hall q hg hq
      obtain ⟨f, hf, hhas⟩ := (h.covered q).mp hq
      exact hall f hf q hhas hg
    · intro hall f hf q hfq hg
      exact hall q hg ((h.covered q).mpr ⟨f, hf, hfq⟩)

/-- The overlap check of one range compares exactly the shared positions. -/
theorem checkOverlap_ok_iff (h : Assembled frags p) {e : Nat × Nat} (he : e ∈ p.ranges)
    (start : Nat) (body : Bytes) :
    p.checkOverlap start body e = .ok () ↔
      ∀ q b, e.1 ≤ q → q < e.2 → Fragment.Carries (start, body) q b →
        p.event.payload[q]? = some b := by
  unfold Pending.checkOverlap
  dsimp only
  split
  · rename_i hlt
    have hlen : min e.2 (start + body.length) ≤ p.event.payload.length := by
      have := h.lt_length (q := min e.2 (start + body.length) - 1) ⟨e, he, by omega, by omega⟩
      omega
    rw [Spool.readAt_eq_some (by omega)]
    simp only [ensure_eq_ok]
    constructor
    · intro heq q b h1 h2 hc
      obtain ⟨hle, hb⟩ := hc
      obtain ⟨hqb, _⟩ := List.getElem?_eq_some_iff.mp hb
      dsimp only at hle hb hqb
      have hi := congrArg (·[q - max e.1 start]?) heq
      simp only [List.getElem?_take, List.getElem?_drop] at hi
      rw [if_pos (by omega), if_pos (by omega),
        show max e.1 start + (q - max e.1 start) = q by omega,
        show max e.1 start - start + (q - max e.1 start) = q - start by omega, hb] at hi
      exact hi
    · intro hall
      refine List.ext_getElem? fun i => ?_
      simp only [List.getElem?_take, List.getElem?_drop]
      split
      · rename_i hi
        have hq : max e.1 start - start + i < body.length := by omega
        rw [List.getElem?_eq_getElem hq]
        refine hall _ _ (by omega) (by omega) ⟨?_, ?_⟩
        · show start ≤ _
          omega
        · show body[max e.1 start + i - start]? = _
          rw [show max e.1 start + i - start = max e.1 start - start + i by omega]
          exact List.getElem?_eq_getElem hq
      · rfl
  · rename_i hlt
    refine ⟨fun _ q b h1 h2 hc => ?_, fun _ => rfl⟩
    have hhas := hc.has
    unfold Fragment.Has Fragment.stop at hhas
    dsimp only at hhas
    omega

end Assembled

/-! ## Accepting a fragment -/

section
variable {frags : List Fragment} {p p' : Pending} {start : Nat} {body : Bytes}

theorem checkData_ok_iff (h : Assembled frags p) :
    p.checkData start body = .ok () ↔
      Fragment.Fits p.event.metadata (start, body) ∧
        (p.event.metadata.transferType ≠ 0 →
          ∀ q, Fragment.Has (start, body) q → ¬ p.ranges.Covered q) := by
  unfold Pending.checkData
  simp only [ensure_bind_eq_ok, ensure_eq_ok]
  constructor
  · rintro ⟨hne, hmax, hspan, hprev, hnext⟩
    refine ⟨⟨hne, hmax, hspan⟩, fun hiso q hq => ?_⟩
    have hlt : start < start + body.length := by
      have := List.length_pos_iff.mpr hne
      omega
    refine (RangeMap.disjoint_iff h.canonical hlt).mp ⟨fun e he => ?_, fun e he => ?_⟩ q hq.1 hq.2
    · simpa [he] using hprev.resolve_left hiso
    · simpa [he] using hnext.resolve_left hiso
  · rintro ⟨⟨hne, hmax, hspan⟩, hdis⟩
    have hlt : start < start + body.length := by
      have := List.length_pos_iff.mpr hne
      simp only at this
      omega
    refine ⟨hne, hmax, hspan, ?_⟩
    by_cases hiso : p.event.metadata.transferType = 0
    · exact ⟨Or.inl hiso, Or.inl hiso⟩
    · obtain ⟨hprev, hnext⟩ := (RangeMap.disjoint_iff h.canonical hlt).mpr
        fun q h1 h2 => hdis hiso q ⟨h1, h2⟩
      constructor
      · right
        cases hl : p.ranges.lastLE start with
        | none => rfl
        | some e => simpa using hprev e hl
      · right
        cases hg : p.ranges.firstGE start with
        | none => rfl
        | some e => simpa using hnext e hg

/-- A fragment is accepted exactly when it fits the event and is compatible
with every fragment accepted before. -/
theorem pushData_ok_iff (h : Assembled frags p) :
    (∃ p', p.pushData start body = (p', .ok ())) ↔
      Fragment.Fits p.event.metadata (start, body) ∧
        ∀ f ∈ frags, Fragment.Compatible p.event.metadata f (start, body) := by
  rw [h.compatible_iff]
  have hcheck : p.checkData start body = .ok () ↔ _ := checkData_ok_iff h
  constructor
  · rintro ⟨p', hp⟩
    unfold Pending.pushData at hp
    split at hp
    · cases hp
    · rename_i hc
      obtain ⟨hfits, hdis⟩ := hcheck.mp hc
      refine ⟨hfits, ?_⟩
      split at hp
      · cases hp
      · rename_i ranges first last ha
        split
        · intro q b ⟨e, he, hq⟩ hb
          have hlen := List.length_filter_le (fun e : Nat × Nat => decide
            (p.ranges.windowStart start ≤ e.1 ∧ e.1 ≤ start + body.length)) p.ranges
          obtain ⟨_, hall, _⟩ := RangeMap.absorb_ok h.canonical hlen ha
          have hhas := hb.has
          unfold Fragment.Has Fragment.stop at hhas
          dsimp only at hhas
          have hw : e ∈ p.ranges.window (p.ranges.windowStart start) (start + body.length) :=
            RangeMap.mem_window.mpr ⟨he,
              (RangeMap.mem_window_iff_touches h.canonical he).mpr ⟨by omega, by omega⟩⟩
          exact (h.checkOverlap_ok_iff he start body).mp (hall e hw).1 q b hq.1 hq.2 hb
        · rename_i hiso
          exact hdis hiso
  · rintro ⟨hfits, hcompat⟩
    have hc : p.checkData start body = .ok () := by
      refine hcheck.mpr ⟨hfits, fun hiso => ?_⟩
      rwa [if_neg hiso] at hcompat
    have hover : ∀ e ∈ p.ranges.window (p.ranges.windowStart start) (start + body.length),
        p.checkOverlap start body e = .ok () := by
      intro e he
      have hmem := (RangeMap.mem_window.mp he).1
      refine (h.checkOverlap_ok_iff hmem start body).mpr fun q b h1 h2 hb => ?_
      split at hcompat
      · exact hcompat q b ⟨e, hmem, h1, h2⟩ hb
      · exact absurd ⟨e, hmem, h1, h2⟩ (hcompat q hb.has)
    obtain ⟨m', s, t, ha⟩ := RangeMap.absorb_of_checks p.ranges.length start
      (start + body.length) h.canonical hover
    unfold Pending.pushData
    rw [hc]
    dsimp only
    rw [ha]
    exact ⟨_, rfl⟩

/-- An accepted fragment joins the assembled ones; nothing else changes. -/
theorem pushData_assembled (h : Assembled frags p) (hp : p.pushData start body = (p', .ok ())) :
    Assembled (frags ++ [(start, body)]) p' ∧
      p'.event = { p.event with payload := p'.event.payload } := by
  obtain ⟨⟨hne, _, _⟩, hcompat⟩ := (pushData_ok_iff h).mp ⟨p', hp⟩
  rw [h.compatible_iff] at hcompat
  have hlt : start < start + body.length := by
    have := List.length_pos_iff.mpr hne
    dsimp only at this
    omega
  unfold Pending.pushData at hp
  split at hp
  · cases hp
  split at hp
  · cases hp
  rename_i ranges first last ha
  simp only [Prod.mk.injEq, and_true] at hp
  subst hp
  obtain ⟨hcan, hcov⟩ := RangeMap.insert_absorbed h.canonical hlt (le_refl _) ha
  refine ⟨⟨hcan, fun q => ?_, ?_, ?_, ?_, ?_⟩, rfl⟩
  · rw [hcov, h.covered]
    simp only [List.mem_append, List.mem_singleton, or_and_right, exists_or, exists_eq_left]
    rfl
  · simp [h.copied]
  · intro f hf q b hb
    show (Spool.writeAt p.event.payload start body)[q]? = some b
    rw [Spool.getElem?_writeAt]
    rcases List.mem_append.mp hf with hf | hf
    · have hst := h.bytes f hf q b hb
      have hq : p.ranges.Covered q := (h.covered q).mpr ⟨f, hf, hb.has⟩
      split
      · rename_i hin
        obtain ⟨c, hc⟩ := Fragment.Has.carries (f := (start, body)) ⟨hin.1, hin.2⟩
        have hbc : c = b := by
          split at hcompat
          · rw [hcompat q c hq hc] at hst
            exact Option.some.inj hst
          · exact absurd hq (hcompat q hc.has)
        rw [← hbc]
        exact hc.2
      · rw [if_pos (h.lt_length hq), hst]
    · obtain rfl := List.mem_singleton.mp hf
      have hhas := hb.has
      rw [if_pos ⟨hhas.1, hhas.2⟩]
      exact hb.2
  · intro q b hb hnc
    have hnc' : ¬ p.ranges.Covered q ∧ ¬ (start ≤ q ∧ q < start + body.length) := by
      rw [hcov] at hnc
      exact not_or.mp hnc
    replace hb : (Spool.writeAt p.event.payload start body)[q]? = some b := hb
    rw [Spool.getElem?_writeAt, if_neg hnc'.2] at hb
    split at hb
    · exact h.gaps q b hb hnc'.1
    · split at hb
      · exact (Option.some.inj hb).symm
      · cases hb
  · intro q hq
    replace hq : (Spool.writeAt p.event.payload start body).length = q + 1 := hq
    rw [Spool.length_writeAt] at hq
    rw [hcov]
    rcases Nat.lt_or_ge p.event.payload.length (start + body.length) with hl | hl
    · exact Or.inr ⟨by omega, by omega⟩
    · exact Or.inl (h.ends q (by omega))

end
end UsbScope.Capture
