import UsbScope.App.Losses
import UsbScope.App.Offline
import UsbScope.Pcapng.Cut

/-! # Files that break off

A capture that is interrupted, or a disk that is full, leaves the front of a
file. Reading it hands on what the whole file would have, up to the record or
block at which it breaks off. -/
namespace UsbScope.App
open UsbScope.Lib UsbScope.Lib.Stream UsbScope.Common UsbScope.Capture UsbScope.Pcapng

variable {σ S T O : Type}

/-! ## Archives -/

/-- Behind the magic there are records. -/
theorem offline_archive (consumeEvent : σ → Event → Result (σ × Bool)) (consumer : σ) (rawOutput : Bool)
    (input : Bytes) : offline consumeEvent consumer rawOutput (rawMagic ++ input) =
      replay consumeEvent consumer rawOutput (rawMagic ++ input) := by
  have hmagic : (rawMagic ++ input).take 4 ≠ [10, 13, 13, 10] := by
    rw [List.take_append_of_le_length (show 4 ≤ rawMagic.length from Nat.le_of_ble_eq_true rfl)]
    decide
  rw [offline, openInput, if_neg hmagic, readRawHeader_magic, Result.ok_bind, Result.ok_bind]
  dsimp only
  rw [ensure_of _ (.inr rfl), Result.ok_bind, if_neg Bool.false_ne_true]

/-- The session hands on what the reassembler makes of the records. -/
theorem plays_records {consumeEvent : σ → Event → Result (σ × Bool)} {records : List Bytes}
    {next : Reassembler} {evs : List (Option Event)} {s : Session σ}
    (hrun : s.assembler.run records = .ok (next, evs)) :
    Plays (Session.consume consumeEvent) consumeEvent Session.consumer s records evs.reduceOption := by
  induction records generalizing s evs with
  | nil =>
    cases hrun
    exact .nil s
  | cons r rest ih =>
    obtain ⟨mid, event, evs', hstep, hrest, rfl⟩ := Machine.run_cons.mp hrun
    cases event with
    | none =>
      rw [List.reduceOption_cons_of_none]
      exact .quiet (consume_none hstep) rfl
        (ih (s := ⟨s.raw.map (· ++ archived r), mid, s.consumer⟩) hrest)
    | some e =>
      rw [List.reduceOption_cons_of_some]
      exact .event (fun t => ⟨s.raw.map (· ++ archived r), mid, t⟩) (consume_some hstep) (fun _ => rfl)
        fun t => ih (s := ⟨s.raw.map (· ++ archived r), mid, t⟩) hrest

/-- A record that breaks off is reported as such. -/
theorem nextRecord_short {record : Bytes} (h : Sized record) {n : Nat} (hpos : 0 < n)
    (hn : n < (archived record).length) {message : String}
    (herror : nextRecord () ((archived record).take n) = .error message) :
    message = "truncated archive record length" ∨ message = "truncated archive record" := by
  have hlen : (archived record).length = 4 + record.length := by simp [archived]
  have hne : (archived record).take n ≠ [] := by
    intro hnil
    have hzero := congrArg List.length hnil
    rw [List.length_take, List.length_nil] at hzero
    omega
  unfold nextRecord readRecord at herror
  rw [if_neg hne] at herror
  rcases Nat.lt_or_ge n 4 with hlt | hge
  · have hshort : readExact 4 "truncated archive record length" ((archived record).take n) =
        .error "truncated archive record length" := by
      rw [readExact, if_neg (by rw [List.length_take]; omega)]
    rw [hshort] at herror
    cases herror
    exact .inl rfl
  · have hword : (u32 .little 0 (ByteOrder.little.bytes 4 record.length)).toNat = record.length := by
      have hlt : record.length < 2 ^ 32 := by
        have hhigh := h.high
        unfold maxRecordSize chunkSize at hhigh
        omega
      have hbytes := u32_bytes_end .little (UInt32.ofNat record.length)
      rw [UInt32.toNat_ofNat_of_lt' hlt] at hbytes
      rw [hbytes, UInt32.toNat_ofNat_of_lt' hlt]
    have hfront : (archived record).take n =
        ByteOrder.little.bytes 4 record.length ++ record.take (n - 4) := by
      rw [archived, List.take_append, List.take_of_length_le (by simpa using hge)]
      simp
    have hshort : readExact record.length "truncated archive record" (record.take (n - 4)) =
        .error "truncated archive record" := by
      rw [readExact, if_neg (by rw [List.length_take]; omega)]
    rw [hfront, readExact_append (by simp), Result.ok_bind] at herror
    dsimp only at herror
    rw [hword, ensure_of _ ⟨h.low, h.high⟩, Result.ok_bind, hshort] at herror
    cases herror
    exact .inr rfl

/-- The first `n` bytes of an archive hold its first `k` records, and then end or
break off inside the next one. -/
structure BreaksOff (records : List Bytes) (n k : Nat) (ending : Ending) : Prop where
  le : k ≤ records.length
  whole : 8 + ((records.take k).flatMap archived).length ≤ n
  next : k < records.length → n < 8 + ((records.take (k + 1)).flatMap archived).length
  ended : ending = .ended ↔ n = 8 + ((records.take k).flatMap archived).length
  messages : ending = .ended ∨ ending = .unread "truncated archive record length" ∨
    ending = .unread "truncated archive record"

theorem breaksOff_of_cut {records : List Bytes} (h : ∀ r ∈ records, Sized r) {n k : Nat}
    {ending : Ending} (hlow : 8 ≤ n)
    (hcut : Cut nextRecord () (records.map recordItem) (n - 8) k ending) :
    BreaksOff records n k ending := by
  have hwhole := hcut.whole
  rw [← List.map_take, bytesOf_records] at hwhole
  have hle := hcut.le
  rw [List.length_map] at hle
  have hnext : ∀ hk : k < records.length, ((records.take (k + 1)).flatMap archived).length =
      ((records.take k).flatMap archived).length + (archived records[k]).length := by
    intro hk
    rw [List.take_succ_eq_append_getElem hk, List.flatMap_append, List.length_append,
      List.flatMap_singleton]
  have hpos : ∀ record : Bytes, 0 < (archived record).length := by
    intro record
    simp [archived]
  rcases hcut.ending with ⟨hn, rfl⟩ | ⟨item, message, hget, hlt, hhigh, herror, rfl⟩
  · rw [← List.map_take, bytesOf_records] at hn
    refine ⟨hle, by omega, fun hk => ?_, iff_of_true rfl (by omega), .inl rfl⟩
    have hitem := hpos records[k]
    rw [hnext hk]
    omega
  · rw [← List.map_take, bytesOf_records] at hlt hhigh herror
    rw [List.getElem?_map, Option.map_eq_some_iff] at hget
    obtain ⟨record, hrecord, rfl⟩ := hget
    obtain ⟨hk, rfl⟩ := List.getElem?_eq_some_iff.mp hrecord
    have hsized := h _ (List.getElem_mem hk)
    refine ⟨hle, by omega, fun _ => ?_, iff_of_false (by simp) (by omega), .inr ?_⟩
    · rw [hnext hk]
      change n - 8 < _ + (archived records[k]).length at hhigh
      omega
    · change n - 8 < _ + (archived records[k]).length at hhigh
      rcases nextRecord_short hsized (by omega) (by omega) herror with rfl | rfl
      · exact .inl rfl
      · exact .inr rfl

/-- The archive of a live run is the stream of its records and the summary. -/
theorem archiveOf_items (rounds : List Round) (last : List Bytes) (cpus : List CaptureStats) :
    archiveOf rounds last cpus = rawMagic ++
      bytesOf ((recordsOf rounds last ++ [kernelSummary (totalStats cpus)]).map recordItem) := by
  rw [bytesOf_records, List.flatMap_append, List.flatMap_singleton, ← writeKernelSummary_eq]
  rfl

theorem sized_summary {records : List Bytes} {stats : CaptureStats} (h : ∀ r ∈ records, Sized r) :
    ∀ r ∈ records ++ [kernelSummary stats], Sized r := by
  intro r hr
  rw [List.mem_append, List.mem_singleton] at hr
  rcases hr with hr | rfl
  · exact h r hr
  · exact sized_kernelSummary _

/-- The reassembler passes the summary over. -/
theorem run_summary {records : List Bytes} {stats : CaptureStats} {final : Reassembler}
    {evs : List (Option Event)} (hrun : Reassembler.fresh.run records = .ok (final, evs))
    (hcounters : ∀ m ∈ lossCounters stats, m < 2 ^ 64) :
    ∃ final', Reassembler.fresh.run (records ++ [kernelSummary stats]) = .ok (final', evs ++ [none]) :=
  ⟨_, Machine.run_append.mpr ⟨_, _, _, hrun, Machine.run_singleton.mpr
    ⟨_, step_kernelSummary _ hcounters, rfl⟩, rfl⟩⟩

theorem reduceOption_take_none (evs : List (Option Event)) (k : Nat) :
    ((evs ++ [none]).take k).reduceOption = (evs.take k).reduceOption := by
  rw [List.take_append, List.reduceOption_append]
  cases k - evs.length with
  | zero => rw [List.take_zero, List.reduceOption_nil, List.append_nil]
  | succ m =>
    rw [List.take_succ_cons, List.take_nil, List.reduceOption_cons_of_none, List.reduceOption_nil,
      List.append_nil]

/-- **An archive that breaks off.** The front of the archive of a live run hands on
the events that are complete in it, in order and to any consumer; then it ends
or, inside a record, is reported as truncated. -/
theorem cut_archive_replays {consumeLive : T → Event → Result (T × Bool)} {s₀ : T} {rawOutput : Bool}
    {rounds : List Round} {last : List Bytes} {cpus : List CaptureStats} {live : Report T}
    (hlive : runLive consumeLive s₀ rawOutput rounds last cpus = .ok (some live))
    (hcounters : ∀ m ∈ lossCounters (totalStats cpus), m < 2 ^ 64) {n : Nat} (hlow : 8 ≤ n)
    (hhigh : n ≤ (archiveOf rounds last cpus).length) :
    ∃ final evs k ending, Reassembler.fresh.run (recordsOf rounds last) = .ok (final, evs) ∧
      BreaksOff (recordsOf rounds last ++ [kernelSummary (totalStats cpus)]) n k ending ∧
      ∀ (consumeEvent : σ → Event → Result (σ × Bool)) (consumer : σ) (raw : Bool),
        ∃ fed, replayed consumeEvent consumer raw ((archiveOf rounds last cpus).take n) = .ok fed ∧
          (fed.taken.consumer, fed.ending) =
            handed consumeEvent consumer (evs.take k).reduceOption ending ∧
          offline consumeEvent consumer raw ((archiveOf rounds last cpus).take n) =
            (Ending.stop fed.ending).map fun stop => fed.taken.report stop 0 none := by
  obtain ⟨final, evs, stops, hrun, hsized, -⟩ := runLive_eq_ok hlive
  generalize hall : recordsOf rounds last ++ [kernelSummary (totalStats cpus)] = records
  have hsized' : ∀ r ∈ records, Sized r := hall ▸ sized_summary hsized
  have harchive : archiveOf rounds last cpus = rawMagic ++ bytesOf (records.map recordItem) :=
    hall ▸ archiveOf_items rounds last cpus
  have hmagic : rawMagic.length = 8 := rfl
  have hinput : (archiveOf rounds last cpus).take n =
      rawMagic ++ (bytesOf (records.map recordItem)).take (n - 8) := by
    rw [harchive, List.take_append, hmagic, List.take_of_length_le (hmagic.trans_le hlow)]
  have hn : n - 8 ≤ (bytesOf (records.map recordItem)).length := by
    rw [harchive, List.length_append, hmagic] at hhigh
    omega
  obtain ⟨final', hrun'⟩ := run_summary hrun hcounters
  rw [hall] at hrun'
  obtain ⟨k, ending, hcut⟩ := exists_cut local_records (chops_records hsized') hn
  refine ⟨final, evs, k, ending, hrun, breaksOff_of_cut hsized' hlow hcut, ?_⟩
  intro consumeEvent consumer raw
  have hk : k ≤ records.length := hcut.le.trans_eq (List.length_map _)
  obtain ⟨mid, evs₁, evs₂, hfirst, -, hsplit⟩ :=
    Machine.run_append.mp ((List.take_append_drop k records).symm ▸ hrun')
  have hevs : evs₁.reduceOption = (evs.take k).reduceOption := by
    have hlen : evs₁.length = k := by
      rw [Machine.length_run hfirst, List.length_take, min_eq_left hk]
    have htake : evs₁ = (evs ++ [none]).take k := by rw [hsplit, List.take_left' hlen]
    rw [htake, reduceOption_take_none]
  have hfuel : k < ((bytesOf (records.map recordItem)).take (n - 8)).length + 1 := by
    have hle := length_le_archived (records.take k)
    rw [← bytesOf_records, List.map_take, List.length_take, min_eq_left hk] at hle
    rw [List.length_take, min_eq_left hn]
    exact Nat.lt_succ_of_le (hle.trans hcut.whole)
  have hfed : replayed consumeEvent consumer raw ((archiveOf rounds last cpus).take n) =
      .ok (feed nextRecord (Session.consume consumeEvent)
        (((bytesOf (records.map recordItem)).take (n - 8)).length + 1) ()
        ((bytesOf (records.map recordItem)).take (n - 8)) (Session.start raw consumer)) := by
    rw [replayed, hinput, readRawHeader_magic, Result.ok_bind]
  refine ⟨_, hfed, ?_, by rw [hinput, offline_archive, ← hinput, replay_fed, hfed, Result.ok_bind]⟩
  have hplays : Plays (Session.consume consumeEvent) consumeEvent Session.consumer
      (Session.start raw consumer) (((records.map recordItem).take k).map Item.out)
      (evs.take k).reduceOption := by
    rw [← List.map_take, List.map_map, ← hevs]
    exact (List.map_id _).symm ▸ plays_records (s := Session.start raw consumer) hfirst
  rw [feed_cut local_records (chops_records hsized') hcut hfuel]
  exact Prod.ext (hplays.offer ending).1 (hplays.offer ending).2

theorem cut_archive_replays_bulkOut : ∃ (evs : List (Option Event)) (k : Nat) (ending : Ending)
    (fed : Fed Unit (Session Unit)),
    BreaksOff (recordsOf [bulkOutRound] [] ++ [kernelSummary (totalStats [twoLosses])]) 100 k ending ∧
      replayed takeAll () false ((archiveOf [bulkOutRound] [] [twoLosses]).take 100) = .ok fed ∧
      (fed.taken.consumer, fed.ending) = handed takeAll () (evs.take k).reduceOption ending := by
  obtain ⟨final, evs, k, ending, -, hbreaks, hreplayed⟩ := @cut_archive_replays Unit
    (Consumer × List Event) (logged everything.consumeEvent) (Consumer.start none, []) true
    [bulkOutRound] [] [twoLosses] _ rfl (by decide) 100 (by decide)
    (by decide +kernel)
  obtain ⟨fed, hfed, heq, -⟩ := hreplayed takeAll () false
  exact ⟨evs, k, ending, fed, hbreaks, hfed, heq⟩

/-! ## pcapng files -/

/-- The blocks of a file that is read to its end, as items of the stream. -/
theorem chops_blocks {count : Nat} {r r' : Reader} {input : Bytes} {blocks : List Block}
    (h : readBlocks count r input = .ok (blocks, r', [])) :
    ∃ items, Chops nextItem r items ∧ items.map Item.out = blocks ∧ bytesOf items = input := by
  induction count generalizing r input blocks with
  | zero =>
    cases h
    exact ⟨[], .nil _, rfl, rfl⟩
  | succ count ih =>
    rw [readBlocks] at h
    split at h
    · rename_i hnil
      cases h
      exact ⟨[], .nil _, rfl, rfl⟩
    · rename_i hne
      obtain ⟨⟨b, r₁, input₁⟩, hb, h⟩ := Result.bind_eq_ok.mp h
      obtain ⟨⟨bs, r₂, input₂⟩, hbs, h⟩ := Result.bind_eq_ok.mp h
      cases h
      have hnext : nextItem r input = .ok (some (b, r₁, input₁)) := by
        rw [nextItem, if_neg hne, hb]
        rfl
      obtain ⟨bytes, rfl, htakes⟩ := local_blocks.takes _ _ _ _ _ hnext
      obtain ⟨items, hchops, hout, hbytes⟩ := ih hbs
      exact ⟨⟨b, bytes, r₁⟩ :: items, .cons htakes hchops, by rw [List.map_cons, hout],
        by rw [bytesOf_cons, hbytes]⟩

/-- The consumer gets the events that are delivered. -/
theorem plays_blocks (consumeEvent : σ → Event → Result (σ × Bool)) (blocks : List Block) (s : σ) :
    Plays (takeBlock consumeEvent) consumeEvent id s blocks (delivered blocks) := by
  induction blocks generalizing s with
  | nil => exact .nil s
  | cons b rest ih =>
    rw [delivered, List.filterMap_cons]
    cases hevent : b.event with
    | none =>
      refine .quiet ?_ rfl (ih s)
      rw [takeBlock, hevent]
    | some e =>
      refine .event id ?_ (fun _ => rfl) ih
      rw [takeBlock, hevent]
      dsimp only [id]
      cases consumeEvent s e <;> rfl

/-- A file that is not empty starts with a section. -/
theorem starts_section {count : Nat} {r : Reader} {input rest : Bytes} {blocks : List Block}
    (h : readBlocks (count + 1) Reader.new input = .ok (blocks, r, rest)) (hne : input ≠ []) :
    input.take 4 = [10, 13, 13, 10] := by
  rw [readBlocks, if_neg hne] at h
  obtain ⟨_, hb, -⟩ := Result.bind_eq_ok.mp h
  unfold nextBlock at hb
  obtain ⟨⟨header, input₁⟩, hheader, hb⟩ := Result.bind_eq_ok.mp hb
  obtain ⟨-, heq⟩ := readExact_eq_ok.mp hheader
  obtain ⟨rfl, -⟩ := Prod.mk.inj heq
  dsimp only at hb
  by_cases hsec : (input.take 8).take 4 = [10, 13, 13, 10]
  · rwa [List.take_take] at hsec
  · rw [if_neg hsec] at hb
    exact absurd (ensure_bind_eq_ok.mp hb).1 Bool.false_ne_true

theorem offline_pcapng (consumeEvent : σ → Event → Result (σ × Bool)) (consumer : σ) {input : Bytes}
    (h : input.take 4 = [10, 13, 13, 10]) :
    offline consumeEvent consumer false input = replayPcapng consumeEvent consumer input := by
  rw [offline, openInput, if_pos h, Result.ok_bind]
  dsimp only
  rw [ensure_of _ (.inl rfl), Result.ok_bind, if_pos rfl]

/-- The error of a block that breaks off says so. -/
theorem cutShort_of_cut {items : List (Item Reader Block)} (hchops : Chops nextItem Reader.new items)
    {n k : Nat} {ending : Ending} (hcut : Cut nextItem Reader.new items n k ending) :
    ending = .ended ∨ ∃ message, ending = .unread message ∧ CutShort message := by
  rcases hcut.ending with ⟨-, rfl⟩ | ⟨item, message, hget, hlow, hhigh, herror, rfl⟩
  · exact .inl rfl
  · refine .inr ⟨message, rfl, ?_⟩
    have hitem := hchops.get hget
    have hwhole := hitem.same []
    rw [List.append_nil, nextItem, if_neg hitem.ne_nil] at hwhole
    cases hb : nextBlock (behind Reader.new (items.take k)) item.bytes with
    | error message =>
      rw [hb] at hwhole
      cases hwhole
    | ok res =>
      have hne : item.bytes.take (n - (bytesOf (items.take k)).length) ≠ [] := by
        intro hnil
        have hlen := congrArg List.length hnil
        rw [List.length_take, List.length_nil] at hlen
        omega
      rw [nextItem, if_neg hne] at herror
      obtain ⟨b, r', rest⟩ := res
      cases hfront : nextBlock (behind Reader.new (items.take k))
          (item.bytes.take (n - (bytesOf (items.take k)).length)) with
      | error message' =>
        rw [hfront] at herror
        cases herror
        exact nextBlock_honest hb _ _ hfront
      | ok res =>
        rw [hfront] at herror
        cases herror

/-- **A pcapng file that breaks off.** The front of a file that the reader can read
hands on the events of the blocks that are complete in it, in order and to any
consumer; then it ends or, inside a block, is reported as cut short. -/
theorem cut_pcapng_replays {input : Bytes} {blocks : List Block} {r : Reader}
    (hread : Reads input blocks r) {n : Nat} (hlow : 4 ≤ n) (hhigh : n ≤ input.length) :
    ∃ items k ending, Chops nextItem Reader.new items ∧ items.map Item.out = blocks ∧
      bytesOf items = input ∧ Cut nextItem Reader.new items n k ending ∧
      (ending = .ended ∨ ∃ message, ending = .unread message ∧ CutShort message) ∧
      ∀ (consumeEvent : σ → Event → Result (σ × Bool)) (consumer : σ),
        ∃ fed, replayedPcapng consumeEvent consumer (input.take n) = fed ∧
          (fed.taken, fed.ending) =
            handed consumeEvent consumer (delivered (blocks.take k)) ending ∧
          (fed.ending = .ended → fed.reader = behind Reader.new (items.take k)) ∧
          offline consumeEvent consumer false (input.take n) = (Ending.stop fed.ending).map fun stop =>
            (Session.start false fed.taken).report stop fed.reader.incomplete none := by
  obtain ⟨count, hread⟩ := hread
  have hne : input ≠ [] := by
    intro hnil
    rw [hnil, List.length_nil] at hhigh
    omega
  have hsection : (input.take n).take 4 = [10, 13, 13, 10] := by
    rw [List.take_take, min_eq_left hlow]
    cases count with
    | zero =>
      cases hread
      exact absurd rfl hne
    | succ count => exact starts_section hread hne
  obtain ⟨items, hchops, hout, hbytes⟩ := chops_blocks hread
  obtain ⟨k, ending, hcut⟩ := exists_cut local_blocks hchops (hbytes.symm ▸ hhigh)
  refine ⟨items, k, ending, hchops, hout, hbytes, hcut, cutShort_of_cut hchops hcut, ?_⟩
  intro consumeEvent consumer
  have hfuel : k < (input.take n).length + 1 := by
    have hle := (hchops.first k).length_le
    rw [List.length_take, min_eq_left hcut.le] at hle
    rw [List.length_take, min_eq_left hhigh]
    exact Nat.lt_succ_of_le (hle.trans hcut.whole)
  have hfed : replayedPcapng consumeEvent consumer (input.take n) =
      (offer (takeBlock consumeEvent) Reader.new (items.take k) consumer).andThen ending := by
    rw [replayedPcapng, ← hbytes, feed_cut local_blocks hchops hcut (hbytes.symm ▸ hfuel)]
  have hplays : Plays (takeBlock consumeEvent) consumeEvent id consumer
      ((items.take k).map Item.out) (delivered (blocks.take k)) := by
    rw [List.map_take, hout]
    exact plays_blocks consumeEvent _ consumer
  refine ⟨_, hfed, Prod.ext (hplays.offer ending).1 (hplays.offer ending).2, ?_, ?_⟩
  · intro hended
    rw [Fed.andThen] at hended ⊢
    split at hended
    · rename_i hall
      rw [if_pos hall]
      exact reader_offer hall
    · rename_i hstop
      exact absurd hended hstop
  · rw [offline_pcapng _ _ hsection, replayPcapng_fed, hfed]

theorem cut_pcapng_replays_stale : ∃ (items : List (Item Reader Block)) (k : Nat) (ending : Ending),
    items.map Item.out = staleBlocks ∧ Cut nextItem Reader.new items 200 k ending ∧
      (replayedPcapng takeAll () (staleFile.take 200)).ending =
        (handed takeAll () (delivered (staleBlocks.take k)) ending).2 := by
  obtain ⟨r, hread⟩ := readBlocks_of_blocksOf (show blocksOf 5 staleFile = some staleBlocks by
    decide +kernel)
  obtain ⟨items, k, ending, -, hout, -, hcut, -, hreplay⟩ :=
    @cut_pcapng_replays Unit _ _ _ ⟨5, hread⟩ 200 (by decide) (by decide +kernel)
  obtain ⟨fed, hfed, htaken, -, -⟩ := hreplay takeAll ()
  exact ⟨items, k, ending, hout, hcut, hfed ▸ congrArg Prod.snd htaken⟩

end UsbScope.App
