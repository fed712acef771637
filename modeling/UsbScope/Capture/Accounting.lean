import UsbScope.Capture.Completeness

/-! # Loss accounting

Every record of a run is accounted for: a `BEGIN` ends up delivered, incomplete
or still pending, a record without an open event is an orphan, and summaries
add their losses. `finish` turns what is pending into incomplete events, so the
loss total of an offline run is zero exactly when nothing was lost. -/
namespace UsbScope.Capture
open UsbScope.Lib UsbScope.Common

def reportedLosses (b : Bytes) : List Nat :=
  match Record.parse b with
  | .error _ => []
  | .ok r => if r.kind = recordStats then summaryLosses r.body else []

def begins (records : List Bytes) : Finset Nat :=
  Machine.positions (fun _ b => recordKind b = recordBegin) records

/-- The positions of the `DATA`, `ISO` and `END` records that arrive while no
event of their id is open. -/
def orphans (records : List Bytes) : Finset Nat :=
  Machine.positions (fun before b =>
    (recordKind b = recordData ∨ recordKind b = recordIso ∨ recordKind b = recordEnd) ∧
      recordId b ∉ openIds before) records

/-- The `BEGIN` at position `i` is the one whose event is delivered at position
`j`: same id, and the event stays open in between. -/
structure Delivers (records : List Bytes) (evs : List (Option Event)) (i j : Nat) : Prop where
  opened : ∃ start, records[i]? = some start ∧ recordKind start = recordBegin ∧
    ∃ b e, records[j]? = some b ∧ evs[j]? = some (some e) ∧ recordKind b = recordEnd ∧
      recordId start = recordId b ∧ metaOf start = .ok e.metadata ∧
      ∀ k x, i < k → k < j → records[k]? = some x → recordId x = recordId b →
        recordKind x ≠ recordBegin ∧ recordKind x ≠ recordEnd
  before : i < j

/-! ## The verdict of an offline run -/

/-- The statistics at the end of a run, which either read its whole input or
stopped at a requested limit. -/
def Reassembler.closed (self : Reassembler) (offlineStop : Bool) (pcapIncomplete : Nat) :
    ReassemblyStats :=
  let stats := (if offlineStop then self.stopAtLimit else self.finish).stats
  { stats with incomplete := stats.incomplete + pcapIncomplete }

/-- The total that `--fail-on-loss` tests; `kernel` is present on live runs. -/
def lossTotal (stats : ReassemblyStats) (kernel : Option CaptureStats) : Nat :=
  let losses := saturatingAdd (saturatingAdd stats.incomplete stats.orphanRecords) stats.kernelLosses
  match kernel with
  | none => losses
  | some k => losses + (k.ringLosses + k.readErrors + k.unsupportedBuffers + k.stateErrors)

/-! ## Counting -/

theorem saturatingAdd_eq_zero {a b : Nat} : saturatingAdd a b = 0 ↔ a = 0 ∧ b = 0 := by
  unfold saturatingAdd u64Max
  omega

theorem foldl_saturatingAdd (ns : List Nat) (a : Nat) :
    ns.foldl saturatingAdd (min a u64Max) = min (a + ns.sum) u64Max := by
  induction ns generalizing a with
  | nil => simp
  | cons n rest ih =>
    have hstep : saturatingAdd (min a u64Max) n = min (a + n) u64Max := by
      unfold saturatingAdd
      omega
    rw [List.foldl_cons, hstep, ih, List.sum_cons, Nat.add_assoc]

theorem reportedLosses_of_kind {b : Bytes} {r : Record} (hr : Record.parse b = .ok r)
    (hk : r.kind ≠ recordStats) : reportedLosses b = [] := by
  simp [reportedLosses, hr, hk]

/-- What the statistics say about the records pushed so far. -/
structure Accounted (records : List Bytes) (evs : List (Option Event)) (st : Reassembler) :
    Prop where
  isOpen : ∀ id, id ∈ st.pending ↔ id ∈ openIds records
  size : st.pending.size = (openIds records).card
  complete : st.stats.complete = evs.countP Option.isSome
  begun : st.stats.complete + st.stats.incomplete + (openIds records).card =
    (begins records).card
  orphaned : st.stats.orphanRecords = (orphans records).card
  losses : st.stats.kernelLosses = min (records.flatMap reportedLosses).sum u64Max

theorem accounted_fresh : Accounted [] [] Reassembler.fresh where
  isOpen := by simp [Reassembler.fresh, openIds]
  size := by simp [Reassembler.fresh, openIds]
  complete := rfl
  begun := rfl
  orphaned := rfl
  losses := rfl

/-- How a record changes the counts: the open events, the `BEGIN` records, the
orphans and the reported losses. -/
structure Shift (ids : Finset UInt64) (b : Bytes) (opened closed orphan : Nat)
    (losses : List Nat) : Prop where
  open_card : (openStep ids b).card + closed = ids.card + opened
  begun : (if recordKind b = recordBegin then 1 else 0) = opened
  orphaned : (if (recordKind b = recordData ∨ recordKind b = recordIso ∨
    recordKind b = recordEnd) ∧ recordId b ∉ ids then 1 else 0) = orphan
  reported : reportedLosses b = losses

/-- The outcome of a move fixes the change of every count. -/
theorem Moves.shift {b : Bytes} {s t : Option Pending} {o : Outcome} {ids : Finset UInt64}
    (h : Moves b s t o) (hs : recordId b ∈ ids ↔ s.isSome = true) :
    match o with
    | .summary losses => Shift ids b 0 0 0 losses
    | .opened => Shift ids b 1 0 0 []
    | .stored => Shift ids b 0 0 0 []
    | .orphan => Shift ids b 0 0 1 []
    | .delivered _ => Shift ids b 0 1 0 []
    | .dropped => Shift ids b 0 1 0 [] := by
  -- the records of an open event that neither begin nor end it
  have inside : ∀ r, Record.parse b = .ok r → r.kind = recordData ∨ r.kind = recordIso →
      recordId b ∈ ids → Shift ids b 0 0 0 [] := by
    intro r hr hk hin
    have hkb := (parse_ok hr).2 ▸ hk
    refine ⟨?_, ?_, by simp [hin], ?_⟩
    · rcases hkb with hkb | hkb <;>
        simp [openStep, hkb, recordData, recordIso, recordBegin, recordEnd]
    · rcases hkb with hkb | hkb <;> simp [hkb, recordData, recordIso, recordBegin]
    · refine reportedLosses_of_kind hr ?_
      rcases hk with hk | hk <;> rw [hk] <;> decide
  cases h with
  | summary hr hk _ =>
    have hkb := (parse_ok hr).2 ▸ hk
    refine ⟨?_, ?_, ?_, by simp [reportedLosses, hr, hk]⟩ <;>
      simp [openStep, hkb, recordStats, recordBegin, recordData, recordIso, recordEnd]
  | opened hr hk _ =>
    have hkb := (parse_ok hr).2 ▸ hk
    have hnot : recordId b ∉ ids := by simpa using hs
    refine ⟨by simp [openStep, hkb, Finset.card_insert_of_notMem hnot], by simp [hkb], ?_,
      reportedLosses_of_kind hr (by rw [hk]; decide)⟩
    simp [hkb, recordBegin, recordData, recordIso, recordEnd]
  | orphan hr hk =>
    have hkb := (parse_ok hr).2 ▸ hk
    have hnot : recordId b ∉ ids := by simpa using hs
    have hb : recordKind b ≠ recordBegin := by
      rcases hkb with hkb | hkb | hkb <;> rw [hkb] <;> decide
    refine ⟨by simp [openStep, hb, Finset.erase_eq_of_notMem hnot], by simp [hb],
      by simp [hkb, hnot], reportedLosses_of_kind hr ?_⟩
    rcases hk with hk | hk | hk <;> rw [hk] <;> decide
  | data hr hk _ => exact inside _ hr (.inl hk) (by simpa using hs)
  | iso hr hk _ => exact inside _ hr (.inr hk) (by simpa using hs)
  | @ended r p c hr hk _ _ =>
    have hkb := (parse_ok hr).2 ▸ hk
    have hin : recordId b ∈ ids := by simpa using hs
    have hshift : Shift ids b 0 1 0 [] := by
      refine ⟨?_, by simp [hkb, recordEnd, recordBegin], by simp [hin],
        reportedLosses_of_kind hr (by rw [hk]; decide)⟩
      have herase : openStep ids b = ids.erase (recordId b) := by
        simp [openStep, hkb, recordEnd, recordBegin]
      rw [herase, Finset.card_erase_add_one hin, Nat.add_zero]
    cases c with
    | true => exact hshift
    | false => exact hshift

theorem Accounted.step {records : List Bytes} {evs : List (Option Event)} {st next : Reassembler}
    {b : Bytes} {ev : Option Event} (h : Accounted records evs st)
    (hstep : st.step b = .ok (next, ev)) : Accounted (records ++ [b]) (evs ++ [ev]) next := by
  obtain ⟨hopen, hsize⟩ := Reassembler.step_openIds h.isOpen h.size hstep
  rw [← openIds_append_singleton] at hopen hsize
  obtain ⟨s, o, hs, _, rfl, rfl⟩ := Reassembler.step_ok_iff.mp hstep
  have hslot : recordId b ∈ openIds records ↔ (st.slots (recordId b)).isSome = true := by
    rw [← h.isOpen, Std.ExtTreeMap.mem_iff_isSome_getElem?]
    rfl
  have hshift := (slotBytes_ok_iff.mp hs).shift hslot
  -- whatever the change is, the counts of the longer run follow from it
  have hcounts : ∀ {opened closed orphan : Nat} {losses : List Nat},
      Shift (openIds records) b opened closed orphan losses →
      (openIds (records ++ [b])).card + closed = (openIds records).card + opened ∧
      (begins (records ++ [b])).card = (begins records).card + opened ∧
      (orphans (records ++ [b])).card = (orphans records).card + orphan ∧
      ((records ++ [b]).flatMap reportedLosses).sum =
        (records.flatMap reportedLosses).sum + losses.sum := by
    intro opened closed orphan losses hsh
    refine ⟨?_, ?_, ?_, ?_⟩
    · rw [openIds_append_singleton]
      exact hsh.open_card
    · rw [begins, begins, Machine.card_positions_append, hsh.begun]
    · rw [orphans, orphans, Machine.card_positions_append, hsh.orphaned]
    · simp [hsh.reported]
  have hc := h.complete
  have hb := h.begun
  have ho := h.orphaned
  have hl := h.losses
  refine ⟨hopen, hsize, ?_, ?_, ?_, ?_⟩
  · cases o <;> simp [ReassemblyStats.count, Outcome.event, List.countP_append, hc]
  · cases o <;> obtain ⟨h1, h2, h3, h4⟩ := hcounts hshift <;> simp only [ReassemblyStats.count] <;>
      omega
  · cases o <;> obtain ⟨h1, h2, h3, h4⟩ := hcounts hshift <;> simp only [ReassemblyStats.count] <;>
      omega
  · cases o <;> obtain ⟨h1, h2, h3, h4⟩ := hcounts hshift <;> simp only [ReassemblyStats.count, h4]
    case summary losses => rw [hl, foldl_saturatingAdd]
    all_goals simpa using hl

/-! ## Which `BEGIN` an event comes from -/

section
variable {records : List Bytes} {evs : List (Option Event)} {i j k : Nat}

/-- A `BEGIN` yields at most one delivered event: the `END` that delivers it
closes it. -/
theorem Delivers.unique (h : Delivers records evs i j) (h' : Delivers records evs i k) : j = k := by
  obtain ⟨start, hi, _, b, _, hj, _, hend, hid, _, hno⟩ := h.opened
  obtain ⟨start', hi', _, b', _, hk, _, hend', hid', _, hno'⟩ := h'.opened
  cases hi.symm.trans hi'
  rcases Nat.lt_trichotomy j k with hlt | heq | hgt
  · exact absurd hend (hno' j b h.before hlt hj (hid.symm.trans hid')).2
  · exact heq
  · exact absurd hend' (hno k b' h'.before hgt hk (hid'.symm.trans hid)).2

/-- A delivered event comes from at most one `BEGIN`: the last of its id. -/
theorem Delivers.unique_begin (h : Delivers records evs i k) (h' : Delivers records evs j k) :
    i = j := by
  obtain ⟨start, hi, hst, b, _, hk, _, _, hid, _, hno⟩ := h.opened
  obtain ⟨start', hj, hst', b', _, hk', _, _, hid', _, hno'⟩ := h'.opened
  cases hk.symm.trans hk'
  rcases Nat.lt_trichotomy i j with hlt | heq | hgt
  · exact absurd hst' (hno j start' hlt h'.before hj hid').1
  · exact heq
  · exact absurd hst (hno' i start hgt h.before hi hid).1

theorem exists_delivers {next : Reassembler} {e : Event}
    (h : Reassembler.fresh.run records = .ok (next, evs)) (hj : evs[j]? = some (some e)) :
    ∃ i, Delivers records evs i j := by
  have hlt : j < records.length := by
    rw [← Machine.length_run h]
    exact (List.getElem?_eq_some_iff.mp hj).1
  have hb := List.getElem?_eq_getElem hlt
  obtain ⟨mid, mid', ev, hrun, hstep, hev⟩ := Machine.run_at h hb
  cases hev.symm.trans hj
  obtain ⟨front, start, between, m, p, body, hsplit, hid, hst, hm, hno, hg, hk, rfl, _⟩ :=
    Reassembler.step_delivered hrun hstep
  have hlen : front.length + (between.length + 1) = j := by
    have := congrArg List.length hsplit
    simp only [List.length_take, List.length_append, List.length_cons] at this
    omega
  have hat : ∀ n, n < j → records[n]? = (front ++ start :: between)[n]? := by
    intro n hn
    rw [← hsplit, List.getElem?_take_of_lt hn]
  refine ⟨front.length, ⟨start, ?_, hst, _, _, hb, hj, hk, hid, ?_, ?_⟩, by omega⟩
  · rw [hat _ (by omega)]
    simp
  · rw [hg.metadata]
    exact hm
  · intro n x hn hnj hx hxid
    rw [hat n hnj, List.getElem?_append_right hn.le] at hx
    obtain ⟨d, hd⟩ := Nat.exists_eq_add_of_lt hn
    have hd' : n - front.length = d + 1 := by omega
    rw [hd', List.getElem?_cons_succ] at hx
    exact hno x (List.mem_of_getElem? hx) hxid

theorem all_delivered_iff {next : Reassembler} (h : Reassembler.fresh.run records = .ok (next, evs)) :
    (begins records).card ≤ evs.countP Option.isSome ↔
      ∀ i ∈ begins records, ∃ j, Delivers records evs i j := by
  classical
  rw [← Machine.card_positions]
  have hmem : ∀ i j, Delivers records evs i j →
      i ∈ begins records ∧ j ∈ Machine.positions (fun _ ev => Option.isSome ev = true) evs := by
    intro i j hd
    obtain ⟨start, hi, hst, b, e, _, hj, _⟩ := hd.opened
    exact ⟨Machine.mem_positions.mpr ⟨start, hi, hst⟩, Machine.mem_positions.mpr ⟨_, hj, rfl⟩⟩
  constructor
  · intro hle i hi
    -- the `BEGIN`s with a delivery are as many as the deliveries, hence all
    let origins := (begins records).filter fun i => ∃ j, Delivers records evs i j
    have hcard : (Machine.positions (fun _ ev => Option.isSome ev = true) evs).card ≤ origins.card := by
      refine Finset.card_le_card_of_forall_subsingleton (fun j i => Delivers records evs i j) ?_ ?_
      · intro j hj
        obtain ⟨ev, hev, hsome⟩ := Machine.mem_positions.mp hj
        obtain ⟨e, rfl⟩ := Option.isSome_iff_exists.mp hsome
        obtain ⟨i, hd⟩ := exists_delivers h hev
        exact ⟨i, Finset.mem_filter.mpr ⟨(hmem i j hd).1, j, hd⟩, hd⟩
      · intro i _ j hj k hk
        exact hj.2.unique hk.2
    have hall : origins = begins records :=
      Finset.eq_of_subset_of_card_le (Finset.filter_subset _ _) (hle.trans hcard)
    rw [← hall] at hi
    exact (Finset.mem_filter.mp hi).2
  · intro hall
    refine Finset.card_le_card_of_forall_subsingleton (fun i j => Delivers records evs i j) ?_ ?_
    · intro i hi
      obtain ⟨j, hd⟩ := hall i hi
      exact ⟨j, (hmem i j hd).2, hd⟩
    · intro j _ i hi k hk
      exact hi.2.unique_begin hk.2

end

/-- **Loss accounting is exact.** After any run without an error and `finish`:
`complete` counts the delivered events, each `BEGIN` is either complete or
incomplete and delivers at most one event, the orphans and the reported losses
are counted, and the loss total of the offline run is zero exactly when every
`BEGIN` was delivered, nothing was orphaned and no summary reports a loss. -/
theorem finish_accounting {records : List Bytes} {evs : List (Option Event)} {next : Reassembler}
    (h : Reassembler.fresh.run records = .ok (next, evs)) :
    next.finish.stats.complete = evs.countP Option.isSome ∧
    next.finish.stats.complete + next.finish.stats.incomplete =
      records.countP (fun b => recordKind b = recordBegin) ∧
    (∀ j e, evs[j]? = some (some e) → ∃ i, Delivers records evs i j) ∧
    (∀ i j k, Delivers records evs i j → Delivers records evs i k → j = k) ∧
    next.finish.stats.orphanRecords = (orphans records).card ∧
    next.finish.stats.kernelLosses = min (records.flatMap reportedLosses).sum u64Max ∧
    (lossTotal (next.closed false 0) none = 0 ↔
      (∀ i ∈ begins records, ∃ j, Delivers records evs i j) ∧ orphans records = ∅ ∧
        ∀ b ∈ records, ∀ n ∈ reportedLosses b, n = 0) := by
  have hacc : Accounted records evs next :=
    Machine.run_history (I := Accounted) accounted_fresh (fun _ _ _ _ _ _ => Accounted.step) h
  have hbegins : (begins records).card = records.countP fun b => recordKind b = recordBegin := by
    rw [← Machine.card_positions]
    simp [begins]
  have hsum : next.finish.stats.complete + next.finish.stats.incomplete = (begins records).card := by
    rw [← hacc.begun, ← hacc.size, Nat.add_assoc]
    rfl
  refine ⟨hacc.complete, hbegins ▸ hsum, fun _ _ => exists_delivers h,
    fun _ _ _ hj hk => hj.unique hk, hacc.orphaned, hacc.losses, ?_⟩
  have hinc : next.finish.stats.incomplete = 0 ↔
      ∀ i ∈ begins records, ∃ j, Delivers records evs i j := by
    rw [← all_delivered_iff h, ← hacc.complete]
    change _ ↔ _ ≤ next.finish.stats.complete
    omega
  have horph : next.finish.stats.orphanRecords = 0 ↔ orphans records = ∅ := by
    rw [← Finset.card_eq_zero, ← hacc.orphaned]
    rfl
  have hker : next.finish.stats.kernelLosses = 0 ↔
      ∀ b ∈ records, ∀ n ∈ reportedLosses b, n = 0 := by
    change next.stats.kernelLosses = 0 ↔ _
    rw [hacc.losses]
    have : min (records.flatMap reportedLosses).sum u64Max = 0 ↔
        (records.flatMap reportedLosses).sum = 0 := by unfold u64Max; omega
    rw [this, List.sum_eq_zero_iff]
    simp only [List.mem_flatMap]
    constructor
    · exact fun h b hb n hn => h n ⟨b, hb, hn⟩
    · intro h n hn
      obtain ⟨b, hb, hn⟩ := hn
      exact h b hb n hn
  rw [← hinc, ← horph, ← hker, ← and_assoc]
  unfold lossTotal Reassembler.closed
  simp only [Bool.false_eq_true, if_false, saturatingAdd_eq_zero, Nat.add_zero]

/-- An event, `DATA` without its `BEGIN`, `BEGIN` without its `END`, and a summary
with two losses. -/
def brokenRecords : List Bytes :=
  Reassembler.bulkOutRecords ++ [Reassembler.bulkOutEnd, record recordData 5 0 [1],
    record recordBegin 12 0 Reassembler.bulkOut.wire,
    record recordStats 0 0 (List.replicate 24 0 ++ 2 :: List.replicate 39 0)]

theorem finish_accounting_broken : ∃ next evs, Reassembler.fresh.run brokenRecords = .ok (next, evs) ∧
    next.finish.stats.complete = 1 ∧
    brokenRecords.countP (fun b => recordKind b = recordBegin) = 2 ∧
    (∃ i, Delivers brokenRecords evs i 2) ∧ (orphans brokenRecords).card = 1 ∧
    min (brokenRecords.flatMap reportedLosses).sum u64Max = 2 ∧
    ¬ ((∀ i ∈ begins brokenRecords, ∃ j, Delivers brokenRecords evs i j) ∧
      orphans brokenRecords = ∅ ∧ ∀ b ∈ brokenRecords, ∀ n ∈ reportedLosses b, n = 0) := by
  refine ⟨_, _, rfl, rfl, ?_⟩
  obtain ⟨-, hbegins, hdelivers, -, horphans, hlosses, hzero⟩ := @finish_accounting brokenRecords _ _ rfl
  refine ⟨hbegins.symm, hdelivers 2 _ rfl, horphans.symm, hlosses.symm, fun h => ?_⟩
  exact absurd (hzero.mpr h) (by decide)

end UsbScope.Capture
