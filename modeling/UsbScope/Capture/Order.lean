import UsbScope.Capture.Streams

/-! # Order independence

Records of different ids meet only in the size of the pending table, and the
records of one id may be reordered as in `Capture.Streams`. Whatever the
interleaving, a run of complete streams is therefore described by how each
event ends. -/
namespace UsbScope.Capture
open UsbScope.Lib UsbScope.Common

/-- The records of one id. -/
def own (id : UInt64) (records : List Bytes) : List Bytes :=
  records.filter fun b => recordId b = id

/-- The `END` records. -/
def endings (records : List Bytes) : List Bytes :=
  records.filter fun b => recordKind b = recordEnd

/-- What each push returns when the event of `id` ends in `ends id`. -/
def reported (ends : UInt64 → Option Event) (b : Bytes) : Option Event :=
  if recordKind b = recordEnd then ends (recordId b) else none

/-- The statistics when the event of `id` ends in `ends id`: every `END` counts
as complete or as incomplete. -/
def tally (ends : UInt64 → Option Event) (records : List Bytes) : ReassemblyStats :=
  { complete := (endings records).countP fun b => (ends (recordId b)).isSome
    incomplete := (endings records).countP fun b => (ends (recordId b)).isNone
    orphanRecords := 0
    kernelLosses := 0 }

/-- The streams pushed one after another, in the order of their `END` records. -/
def separately (records : List Bytes) : List Bytes :=
  (endings records).flatMap fun b => own (recordId b) records

theorem mem_own {id : UInt64} {records : List Bytes} {b : Bytes} :
    b ∈ own id records ↔ b ∈ records ∧ recordId b = id := by simp [own]

theorem event_outcomeAt (x : Option Event) (b : Bytes) :
    (outcomeAt x b).event = if recordKind b = recordEnd then x else none := by
  unfold outcomeAt
  split
  · cases x <;> rfl
  · split <;> rfl

/-- The statistics count the ends of the events. -/
theorem foldl_count (ends : UInt64 → Option Event) (records : List Bytes) :
    (records.map fun b => outcomeAt (ends (recordId b)) b).foldl ReassemblyStats.count
      ⟨0, 0, 0, 0⟩ = tally ends records := by
  induction records using List.reverseRecOn with
  | nil => rfl
  | append_singleton l b ih =>
    rw [List.map_append, List.foldl_append, ih]
    unfold tally endings outcomeAt
    by_cases hk : recordKind b = recordEnd
    · cases hx : ends (recordId b) <;>
        simp [hk, hx, closing, ReassemblyStats.count, List.countP_append]
    · simp only [List.map_cons, List.map_nil, List.foldl_cons, List.foldl_nil, if_neg hk]
      split <;> simp [hk, ReassemblyStats.count]

namespace Reassembler

/-- The slots say whether the run goes through, and what it returns. -/
theorem run_ends {records : List Bytes} {ends : UInt64 → Option Event}
    (hslots : ∀ id, Machine.run slotBytes none (own id records) =
      .ok (none, (own id records).map (outcomeAt (ends id))))
    (hroom : ∀ pre, pre <+: records → (openIds pre).card < maxPendingEvents) :
    ∃ next, fresh.run records = .ok (next, records.map (reported ends)) ∧
      next.stats = tally ends records := by
  have hnone : ∀ id, fresh.slots id = none := by intro id; simp [slots, fresh]
  have hkeyed : ∃ res, Machine.run keyedStep fresh.slots records = .ok res :=
    Machine.run_keyed_of_slots fun id => by
      rw [hnone id]
      exact ⟨_, hslots id⟩
  obtain ⟨⟨next, evs⟩, hrun⟩ := run_of_slots hkeyed hroom
  clear hkeyed
  obtain ⟨os, hkeyed, rfl, hstats⟩ := run_slots hrun
  have hos : os = records.map fun b => outcomeAt (ends (recordId b)) b := by
    refine Machine.outputs_eq_map (F := fun id b => outcomeAt (ends id) b)
      (Machine.length_run hkeyed) fun id => ?_
    have h := Machine.run_keyed hkeyed id
    rw [hnone id] at h
    exact (Prod.mk.inj (Except.ok.inj (h.symm.trans (hslots id)))).2
  refine ⟨next, ?_, ?_⟩
  · rw [hrun, hos, List.map_map]
    congr 3
    funext b
    exact event_outcomeAt _ _
  · rw [hstats, hos]
    exact foldl_count ends records

/-- A run goes through only if every slot does. -/
theorem run_own {records : List Bytes} {res : Reassembler × List (Option Event)}
    (h : fresh.run records = .ok res) (id : UInt64) :
    ∃ t os, Machine.run slotBytes none (own id records) = .ok (t, os) := by
  obtain ⟨next, evs⟩ := res
  obtain ⟨os, hs, _⟩ := run_slot h id
  rw [show fresh.slots id = none by simp [slots, fresh]] at hs
  exact ⟨_, _, hs⟩

end Reassembler

/-! ## Pushing the streams one after another -/

section
variable {records : List Bytes}

theorem openIds_subset {id : UInt64} (h : ∀ b ∈ records, recordId b = id) :
    openIds records ⊆ {id} := by
  induction records using List.reverseRecOn with
  | nil => simp [openIds]
  | append_singleton l b ih =>
    have hl := ih fun x hx => h x (List.mem_append_left _ hx)
    have hb := h b (by simp)
    rw [openIds_append_singleton]
    unfold openStep
    split
    · exact Finset.insert_subset (by simp [hb]) hl
    · split
      · exact (Finset.erase_subset _ _).trans hl
      · exact hl

theorem card_openIds_le (records : List Bytes) : (openIds records).card ≤ records.length := by
  induction records using List.reverseRecOn with
  | nil => simp [openIds]
  | append_singleton l b ih =>
    rw [openIds_append_singleton, List.length_append, List.length_singleton]
    unfold openStep
    split
    · exact (Finset.card_insert_le _ _).trans (by omega)
    · split
      · exact (Finset.card_le_card (Finset.erase_subset _ _)).trans (by omega)
      · omega

theorem openIds_append (l l' : List Bytes) : openIds (l ++ l') = l'.foldl openStep (openIds l) := by
  simp [openIds]

/-- A complete stream leaves no event open. -/
theorem openIds_stream {s s' : List Bytes} {id : UInt64} (h : Reordered s s')
    (hid : ∀ b ∈ s, recordId b = id) : openIds s = ∅ := by
  cases h with
  | nil => rfl
  | @stream start stop mid _ hs _ _ =>
    have hsub : openIds (start :: mid) ⊆ {id} := openIds_subset fun b hb =>
      hid b (by rw [← List.cons_append]; exact List.mem_append_left _ hb)
    have hstop : recordId stop = id := hid stop (by simp)
    rw [← List.cons_append, openIds_append_singleton, openStep, if_neg (by rw [hs.ends]; decide),
      if_pos hs.ends, hstop]
    exact Finset.subset_empty.mp fun k hk => by
      obtain ⟨hne, hmem⟩ := Finset.mem_erase.mp hk
      exact absurd (Finset.mem_singleton.mp (hsub hmem)) hne

/-- One stream after another, at most one event is open. -/
theorem card_openIds_streams {streams : List (List Bytes)}
    (h : ∀ s ∈ streams, Reordered s s ∧ ∃ id, ∀ b ∈ s, recordId b = id) {pre : List Bytes}
    (hpre : pre <+: streams.flatten) : (openIds pre).card ≤ 1 := by
  induction streams generalizing pre with
  | nil =>
    obtain rfl := List.prefix_nil.mp hpre
    simp [openIds]
  | cons s rest ih =>
    obtain ⟨hs, id, hid⟩ := h s (by simp)
    rw [List.flatten_cons] at hpre
    rcases List.prefix_or_prefix_of_prefix hpre (List.prefix_append s _) with hin | ⟨pre', rfl⟩
    · have := openIds_subset fun b hb => hid b (hin.subset hb)
      exact (Finset.card_le_card this).trans (by simp)
    · rw [openIds_append, openIds_stream hs hid]
      exact ih (fun x hx => h x (List.mem_cons_of_mem _ hx)) ((List.prefix_append_right_inj s).mp hpre)

/-- Every id of a run of complete streams has exactly one `END`. -/
theorem endings_own {s' : List Bytes} {id : UInt64} (h : Reordered (own id records) s') :
    own id (endings records) = [] ∧ own id records = [] ∨
      ∃ stop, own id (endings records) = [stop] := by
  have hswap : own id (endings records) = endings (own id records) := List.filter_comm _ _ _
  rw [hswap]
  generalize own id records = s at h
  cases h with
  | nil => exact .inl ⟨rfl, rfl⟩
  | @stream start stop mid _ hs _ _ =>
    refine .inr ⟨stop, ?_⟩
    have hmid : endings mid = [] := by
      refine List.filter_eq_nil_iff.mpr fun b hb => ?_
      rcases hs.parts b hb with hk | hk <;> simp [hk, recordData, recordIso, recordEnd]
    have hcons : start :: (mid ++ [stop]) = [start] ++ (mid ++ [stop]) := rfl
    unfold endings at hmid ⊢
    rw [hcons, List.filter_append, List.filter_append, hmid]
    simp [hs.begins, hs.ends, recordBegin, recordEnd]

/-- Taking the streams apart keeps each of them. -/
theorem own_separately (h : ∀ id, Reordered (own id records) (own id records)) (id : UInt64) :
    own id (separately records) = own id records := by
  have hflat : ∀ bs : List Bytes, own id (bs.flatMap fun b => own (recordId b) records) =
      (own id bs).flatMap fun _ => own id records := by
    intro bs
    induction bs with
    | nil => rfl
    | cons b rest ih =>
      rw [List.flatMap_cons, own, List.filter_append]
      change own id (own (recordId b) records) ++ own id _ = _
      rw [ih]
      by_cases hb : recordId b = id
      · have hself : own id (own (recordId b) records) = own id records := by
          rw [hb]
          exact List.filter_eq_self.mpr fun x hx => by simpa using (mem_own.mp hx).2
        have hcons : own id (b :: rest) = b :: own id rest := by simp [own, hb]
        rw [hself, hcons, List.flatMap_cons]
      · have hnil : own id (own (recordId b) records) = [] :=
          List.filter_eq_nil_iff.mpr fun x hx => by
            rw [(mem_own.mp hx).2]
            simpa using hb
        have hcons : own id (b :: rest) = own id rest := by simp [own, hb]
        rw [hnil, hcons, List.nil_append]
  unfold separately
  rw [hflat]
  rcases endings_own (h id) with ⟨hnil, hown⟩ | ⟨stop, hstop⟩
  · rw [hnil, hown]
    rfl
  · rw [hstop]
    simp

/-- The order of the `END` records is kept. -/
theorem endings_separately (h : ∀ id, Reordered (own id records) (own id records)) :
    endings (separately records) = endings records := by
  have hone : ∀ b ∈ endings records, endings (own (recordId b) records) = [b] := by
    intro b hb
    have hswap : own (recordId b) (endings records) = endings (own (recordId b) records) :=
      List.filter_comm _ _ _
    have hin : b ∈ own (recordId b) (endings records) := mem_own.mpr ⟨hb, rfl⟩
    rcases endings_own (h (recordId b)) with ⟨hnil, _⟩ | ⟨stop, hstop⟩
    · rw [hnil] at hin
      cases hin
    · rw [hstop] at hin
      rw [← hswap, hstop, List.mem_singleton.mp hin]
  unfold separately
  rw [endings, List.filter_flatMap]
  change ((endings records).flatMap fun b => endings (own (recordId b) records)) = _
  rw [List.flatMap_congr hone]
  simp

theorem filterMap_reported (ends : UInt64 → Option Event) (records : List Bytes) :
    (records.map (reported ends)).filterMap id =
      (endings records).filterMap fun b => ends (recordId b) := by
  rw [List.filterMap_map, endings, List.filterMap_filter]
  refine List.filterMap_congr fun b _ => ?_
  simp [reported]

end

theorem own_own (id k : UInt64) (records : List Bytes) :
    own k (own id records) = if k = id then own id records else [] := by
  split
  · rename_i hk
    subst hk
    exact List.filter_eq_self.mpr fun b hb => by simpa using (mem_own.mp hb).2
  · rename_i hk
    refine List.filter_eq_nil_iff.mpr fun b hb => ?_
    rw [(mem_own.mp hb).2]
    simpa using Ne.symm hk

/-- The statistics depend only on which records there are. -/
theorem tally_congr {records records' : List Bytes} (ends : UInt64 → Option Event)
    (h : ∀ id, Reordered (own id records) (own id records')) :
    tally ends records = tally ends records' := by
  have hperm : records.Perm records' := by
    rw [List.perm_iff_count]
    intro b
    have hcount : ∀ l, (own (recordId b) l).count b = l.count b := by
      intro l
      exact List.count_filter (by simp)
    rw [← hcount records, ← hcount records']
    exact (h (recordId b)).perm.count_eq b
  have hends : (endings records).Perm (endings records') := hperm.filter _
  unfold tally
  rw [hends.countP_eq, hends.countP_eq]

namespace Reassembler

/-- If one interleaving runs through, the slots of the other do, to the same
ends. -/
theorem exists_ends {records records' : List Bytes}
    {res : Reassembler × List (Option Event)}
    (h : ∀ id, Reordered (own id records) (own id records')) (hrun : fresh.run records = .ok res) :
    ∃ ends : UInt64 → Option Event, ∀ id,
      Machine.run slotBytes none (own id records) =
        .ok (none, (own id records).map (outcomeAt (ends id))) ∧
      Machine.run slotBytes none (own id records') =
        .ok (none, (own id records').map (outcomeAt (ends id))) := by
  have hex : ∀ id, ∃ x : Option Event,
      Machine.run slotBytes none (own id records) =
        .ok (none, (own id records).map (outcomeAt x)) ∧
      Machine.run slotBytes none (own id records') =
        .ok (none, (own id records').map (outcomeAt x)) := by
    intro id
    obtain ⟨t, os, hown⟩ := run_own hrun id
    obtain ⟨x, rfl, rfl, hother⟩ := (h id).outcome hown
    exact ⟨x, hown, hother⟩
  choose ends hends using hex
  exact ⟨ends, hends⟩

/-- **Reassembly does not depend on the order of fragments or on the
interleaving.** Take two interleavings of complete streams in which the records
of each id differ only in order, with the `ISO` records of an event in order,
and with fewer than 4096 events unfinished at any time. Either both runs fail,
or both go through and each event ends the same way in both: its push of `END`
returns the same event, or none. The statistics agree, and both the returned
events and the statistics are those of pushing the streams one by one, into one
reassembler or each into its own. -/
theorem run_order_independent {records records' : List Bytes}
    (h : ∀ id, Reordered (own id records) (own id records'))
    (hroom : ∀ pre, pre <+: records → (openIds pre).card < maxPendingEvents)
    (hroom' : ∀ pre, pre <+: records' → (openIds pre).card < maxPendingEvents) :
    ((∃ e, fresh.run records = .error e) ∧ ∃ e, fresh.run records' = .error e) ∨
    ∃ (ends : UInt64 → Option Event) (next next' all : Reassembler)
      (alone : UInt64 → Reassembler),
      fresh.run records = .ok (next, records.map (reported ends)) ∧
      fresh.run records' = .ok (next', records'.map (reported ends)) ∧
      next.stats = tally ends records ∧ next'.stats = next.stats ∧
      (∀ id, fresh.run (own id records) =
        .ok (alone id, (own id records).map (reported ends)) ∧
        (alone id).stats = tally ends (own id records)) ∧
      fresh.run (separately records) = .ok (all, (separately records).map (reported ends)) ∧
      ((separately records).map (reported ends)).filterMap id =
        (records.map (reported ends)).filterMap id ∧
      all.stats = next.stats := by
  cases hrun : fresh.run records with
  | error e =>
    refine .inl ⟨⟨e, rfl⟩, ?_⟩
    cases hrun' : fresh.run records' with
    | error e' => exact ⟨e', rfl⟩
    | ok res =>
      obtain ⟨ends, hends⟩ := exists_ends (fun id => (h id).symm) hrun'
      obtain ⟨next, hnext, _⟩ := run_ends (fun id => (hends id).2) hroom
      rw [hrun] at hnext
      cases hnext
  | ok res =>
    right
    obtain ⟨ends, hends⟩ := exists_ends h hrun
    have hself : ∀ id, Reordered (own id records) (own id records) := fun id => (h id).refl_left
    have hsep : ∀ id, own id (separately records) = own id records := own_separately hself
    obtain ⟨next, hnext, hstats⟩ := run_ends (fun id => (hends id).1) hroom
    obtain ⟨next', hnext', hstats'⟩ := run_ends (fun id => (hends id).2) hroom'
    obtain ⟨all, hall, hallStats⟩ : ∃ all, fresh.run (separately records) =
        .ok (all, (separately records).map (reported ends)) ∧
          all.stats = tally ends (separately records) := by
      refine run_ends (fun id => by rw [hsep id]; exact (hends id).1) fun pre hpre => ?_
      refine Nat.lt_of_le_of_lt (card_openIds_streams ?_ hpre) (by decide)
      intro s hs
      obtain ⟨b, _, rfl⟩ := List.mem_map.mp hs
      exact ⟨hself _, recordId b, fun x hx => (mem_own.mp hx).2⟩
    have halone : ∀ id, ∃ alone, fresh.run (own id records) =
        .ok (alone, (own id records).map (reported ends)) ∧
          alone.stats = tally ends (own id records) := by
      intro id
      refine run_ends (fun k => ?_) fun pre hpre => ?_
      · rw [own_own]
        split
        · rename_i hk
          rw [hk]
          exact (hends id).1
        · rfl
      · have hsub := openIds_subset fun b hb => (mem_own.mp (hpre.subset hb)).2
        exact Nat.lt_of_le_of_lt (Finset.card_le_card hsub) (by rw [Finset.card_singleton]; decide)
    choose alone halone using halone
    refine ⟨ends, next, next', all, alone, hrun ▸ hnext, hnext', hstats, ?_, halone, hall, ?_, ?_⟩
    · rw [hstats, hstats', tally_congr ends h]
    · rw [filterMap_reported, filterMap_reported, endings_separately hself]
    · rw [hstats, hallStats, tally, tally, endings_separately hself]

/-- The bulk event of three bytes, and one without data. -/
def event9 : Bytes × List Bytes × Bytes :=
  (record recordBegin 9 0 bulkOut.wire, [record recordData 9 0 [1, 2], record recordData 9 2 [3]],
    record recordEnd 9 0 (EventEnd.wire ⟨3, 0, complete⟩))

def event7 : Bytes × Bytes :=
  (record recordBegin 7 0 { bulkOut with requestedLen := 0, payloadLen := 0, hasData := 0 }.wire,
    record recordEnd 7 0 (EventEnd.wire ⟨0, 0, complete⟩))

def inOrder : List Bytes :=
  event9.1 :: event7.1 :: (event9.2.1 ++ [event7.2, event9.2.2])

def swapped : List Bytes :=
  event9.1 :: (event9.2.1.reverse ++ [event9.2.2, event7.1, event7.2])

theorem run_order_independent_swapped :
    ∃ (ends : UInt64 → Option Event) (next next' : Reassembler),
      fresh.run inOrder = .ok (next, inOrder.map (reported ends)) ∧
      fresh.run swapped = .ok (next', swapped.map (reported ends)) ∧
      next'.stats = next.stats := by
  have hroom : ∀ l : List Bytes, l.length = 6 → ∀ pre, pre <+: l →
      (openIds pre).card < maxPendingEvents := by
    intro l hl pre hpre
    have hle := hpre.length_le
    exact Nat.lt_of_le_of_lt ((card_openIds_le pre).trans (hl ▸ hle)) (by decide)
  have hreordered : ∀ id, Reordered (own id inOrder) (own id swapped) := by
    intro id
    by_cases h9 : id = 9
    · subst h9
      exact @Reordered.stream event9.1 event9.2.2 event9.2.1 event9.2.1.reverse
        ⟨by decide, by decide, by decide⟩ (List.reverse_perm _).symm rfl
    · by_cases h7 : id = 7
      · subst h7
        exact @Reordered.stream event7.1 event7.2 [] [] ⟨by decide, by decide, by decide⟩
          (List.Perm.refl _) rfl
      · have hids : ∀ b ∈ inOrder ++ swapped, recordId b = 9 ∨ recordId b = 7 := by
          decide
        have hnil : ∀ l, (∀ b ∈ l, recordId b = 9 ∨ recordId b = 7) → own id l = [] := by
          intro l hl
          refine List.filter_eq_nil_iff.mpr fun b hb => ?_
          rcases hl b hb with hb | hb <;> rw [hb] <;> simp [Ne.symm h9, Ne.symm h7]
        rw [hnil _ fun b hb => hids b (List.mem_append_left _ hb),
          hnil _ fun b hb => hids b (List.mem_append_right _ hb)]
        exact .nil
  rcases run_order_independent hreordered (hroom _ rfl) (hroom _ rfl) with
    ⟨⟨e, he⟩, _⟩ | ⟨ends, next, next', _, _, h1, h2, _, h3, _⟩
  · have hok : ∃ res, fresh.run inOrder = .ok res := ⟨_, rfl⟩
    rw [he] at hok
    obtain ⟨_, hok⟩ := hok
    cases hok
  · exact ⟨ends, next, next', h1, h2, h3⟩

end Reassembler
end UsbScope.Capture
