import UsbScope.Pcapng.ReadBack

/-! # Raw archives

An archive is the magic, then every ring record behind its length, then the
kernel's counters as one more record. The reader checks the length field of the
record against the one before it. -/
namespace UsbScope.Capture
open UsbScope.Lib UsbScope.Common
open UsbScope.Pcapng (readExact readExact_append)

/-- A record as it is appended to an archive. -/
def archived (record : Bytes) : Bytes := ByteOrder.little.bytes 4 record.length ++ record

def counters (stats : CaptureStats) : Bytes :=
  [stats.submitted, stats.completed, stats.submitErrors, stats.ringLosses, stats.readErrors,
    stats.unsupportedBuffers, stats.stateErrors, stats.sgEvents].flatMap (ByteOrder.little.bytes 8)

/-- The counters that stand for losses. -/
def lossCounters (stats : CaptureStats) : List Nat :=
  [stats.ringLosses, stats.readErrors, stats.unsupportedBuffers, stats.stateErrors]

/-- The record of the final kernel counters. -/
def kernelSummary (stats : CaptureStats) : Bytes :=
  ByteOrder.little.bytes 2 abiVersion.toNat ++ (ByteOrder.little.bytes 2 recordStats.toNat ++
    (ByteOrder.little.bytes 4 88 ++ (List.replicate 16 0 ++ counters stats)))

def writeKernelSummary (stats : CaptureStats) : Bytes :=
  ByteOrder.little.bytes 4 88 ++ kernelSummary stats

/-- The input behind the magic. -/
def readRawHeader (input : Bytes) : Result Bytes := do
  let (magic, input) ← readExact 8 "reading capture header" input
  ensure (magic = rawMagic) "not a usbscope event archive"
  .ok input

/-- The next record and the input behind it; nothing at the end. -/
def readRecord (input : Bytes) : Result (Option (Bytes × Bytes)) :=
  if input = [] then .ok none
  else do
    let (length, input) ← readExact 4 "truncated archive record length" input
    let len := (u32 .little 0 length).toNat
    ensure (24 ≤ len ∧ len ≤ maxRecordSize) s!"invalid archive record length {len}"
    let (bytes, input) ← readExact len "truncated archive record" input
    ensure ((u32At bytes 4).toNat = len) "archive and event lengths disagree"
    .ok (some (bytes, input))

/-- All records up to the end. Each takes at least one byte. -/
def readRecords : Nat → Bytes → Result (List Bytes)
  | 0, _ => .error "the archive does not get shorter"
  | fuel + 1, input => do
    match ← readRecord input with
    | none => .ok []
    | some (record, input) =>
      let records ← readRecords fuel input
      .ok (record :: records)

/-! ## Reading back -/

/-- A record whose own length field is right. -/
structure Sized (record : Bytes) : Prop where
  low : 24 ≤ record.length
  high : record.length ≤ maxRecordSize
  field : (u32At record 4).toNat = record.length

theorem readRecord_archived {record : Bytes} (h : Sized record) (rest : Bytes) :
    readRecord (archived record ++ rest) = .ok (some (record, rest)) := by
  have hlow := h.low
  have hhigh := h.high
  have hlen : (u32 .little 0 (ByteOrder.little.bytes 4 record.length)).toNat = record.length := by
    have hlt : record.length < 2 ^ 32 := by
      unfold maxRecordSize chunkSize at hhigh
      omega
    have hbytes := u32_bytes_end .little (UInt32.ofNat record.length)
    rw [UInt32.toNat_ofNat_of_lt' hlt] at hbytes
    rw [hbytes, UInt32.toNat_ofNat_of_lt' hlt]
  have hne : archived record ++ rest ≠ [] := by
    intro hnil
    have hzero := congrArg List.length hnil
    simp [archived] at hzero
  unfold readRecord
  rw [if_neg hne, archived, List.append_assoc, readExact_append (by simp), Result.ok_bind]
  dsimp only
  rw [hlen, ensure_of _ ⟨hlow, hhigh⟩, Result.ok_bind, readExact_append rfl, Result.ok_bind]
  dsimp only
  rw [ensure_of _ h.field, Result.ok_bind]

/-- An archive gives back its records. -/
theorem readRecords_archived {records : List Bytes} (h : ∀ r ∈ records, Sized r) {fuel : Nat}
    (hfuel : records.length < fuel) :
    readRecords fuel (records.flatMap archived) = .ok records := by
  induction records generalizing fuel with
  | nil =>
    obtain ⟨fuel, rfl⟩ : ∃ n, fuel = n + 1 := ⟨fuel - 1, by simp at hfuel; omega⟩
    rfl
  | cons r rest ih =>
    obtain ⟨fuel, rfl⟩ : ∃ n, fuel = n + 1 := ⟨fuel - 1, by omega⟩
    rw [List.length_cons] at hfuel
    rw [List.flatMap_cons, readRecords, readRecord_archived (h r List.mem_cons_self), Result.ok_bind]
    dsimp only
    rw [ih (fun x hx => h x (List.mem_cons_of_mem _ hx)) (by omega), Result.ok_bind]

theorem readRawHeader_magic (rest : Bytes) : readRawHeader (rawMagic ++ rest) = .ok rest := by
  rw [readRawHeader, readExact_append (n := 8) rfl, Result.ok_bind]
  dsimp only
  rw [ensure_of _ rfl, Result.ok_bind]

/-! ## The summary -/

@[simp] theorem length_counters (stats : CaptureStats) : (counters stats).length = 64 := by simp [counters]

@[simp] theorem length_kernelSummary (stats : CaptureStats) : (kernelSummary stats).length = 88 := by
  simp [kernelSummary]

theorem writeKernelSummary_eq (stats : CaptureStats) :
    writeKernelSummary stats = archived (kernelSummary stats) := by
  rw [writeKernelSummary, archived, length_kernelSummary]

theorem sized_kernelSummary (stats : CaptureStats) : Sized (kernelSummary stats) := by
  have hfield : u32At (kernelSummary stats) 4 = 88 := by
    rw [u32At, kernelSummary, u32_skip (by simp), u32_skip (by simp)]
    exact u32_bytes .little 88 _
  refine ⟨by simp, by simp [maxRecordSize, chunkSize], ?_⟩
  rw [hfield, length_kernelSummary]
  rfl

theorem parse_kernelSummary (stats : CaptureStats) : Record.parse (kernelSummary stats) =
    .ok { kind := recordStats, id := 0, offset := 0, body := counters stats } := by
  have hversion : u16At (kernelSummary stats) 0 = abiVersion := u16_bytes .little abiVersion _
  have hkind : u16At (kernelSummary stats) 2 = recordStats := by
    rw [u16At, kernelSummary, u16_skip (by simp)]
    simp
  have hsize := (sized_kernelSummary stats).field
  rw [length_kernelSummary] at hsize
  -- the id and the offset are written as one run of zeros
  have hzeros : List.replicate 16 0 = ByteOrder.little.bytes 8 (0 : UInt64).toNat ++
      ByteOrder.little.bytes 8 (0 : UInt64).toNat := by decide
  have hid : u64At (kernelSummary stats) 8 = 0 := by
    rw [u64At, kernelSummary, u64_skip (by simp), u64_skip (by simp), u64_skip (by simp), hzeros,
      List.append_assoc]
    exact u64_bytes .little 0 _
  have hoffset : u64At (kernelSummary stats) 16 = 0 := by
    rw [u64At, kernelSummary, u64_skip (by simp), u64_skip (by simp), u64_skip (by simp), hzeros,
      List.append_assoc, u64_skip (by simp)]
    exact u64_bytes .little 0 _
  have hbody : ((kernelSummary stats).take 88).drop 24 = counters stats := by
    rw [List.take_of_length_le (by simp)]
    rfl
  unfold Record.parse
  rw [ensure_of _ (by simp), Result.ok_bind, ensure_of _ hversion, Result.ok_bind]
  dsimp only
  rw [hsize, ensure_of _ (by simp [maxRecordSize, chunkSize]), Result.ok_bind, hkind, hid, hoffset, hbody]
  rfl

/-- A word of a sequence of words. -/
theorem toNat_u64_words {values : List Nat} {k v : Nat} (hk : values[k]? = some v) (hv : v < 2 ^ 64) :
    (u64 .little (8 * k) (values.flatMap (ByteOrder.little.bytes 8))).toNat = v := by
  induction values generalizing k with
  | nil => simp at hk
  | cons value rest ih =>
    rw [List.flatMap_cons]
    cases k with
    | zero =>
      obtain rfl : value = v := by simpa using hk
      have hbytes := u64_bytes .little (UInt64.ofNat value) (rest.flatMap (ByteOrder.little.bytes 8))
      rw [UInt64.toNat_ofNat_of_lt' hv] at hbytes
      rw [Nat.mul_zero, hbytes, UInt64.toNat_ofNat_of_lt' hv]
    | succ k =>
      rw [u64_skip (by simp), ByteOrder.length_bytes, Nat.mul_succ, Nat.add_sub_cancel]
      exact ih (by simpa using hk)

theorem summaryLosses_counters {stats : CaptureStats} (h : ∀ n ∈ lossCounters stats, n < 2 ^ 64) :
    summaryLosses (counters stats) = lossCounters stats := by
  have hring : (u64At (counters stats) (8 * 3)).toNat = stats.ringLosses :=
    toNat_u64_words rfl (h _ (by simp [lossCounters]))
  have hread : (u64At (counters stats) (8 * 4)).toNat = stats.readErrors :=
    toNat_u64_words rfl (h _ (by simp [lossCounters]))
  have hbuffers : (u64At (counters stats) (8 * 5)).toNat = stats.unsupportedBuffers :=
    toNat_u64_words rfl (h _ (by simp [lossCounters]))
  have hstate : (u64At (counters stats) (8 * 6)).toNat = stats.stateErrors :=
    toNat_u64_words rfl (h _ (by simp [lossCounters]))
  rw [summaryLosses, List.map_cons, List.map_cons, List.map_cons, List.map_cons, List.map_nil, hring,
    hread, hbuffers, hstate, lossCounters]

/-- A summary only adds its losses. -/
theorem step_kernelSummary (self : Reassembler) {stats : CaptureStats}
    (h : ∀ n ∈ lossCounters stats, n < 2 ^ 64) :
    self.step (kernelSummary stats) = .ok ({ self with stats := { self.stats with
      kernelLosses := (lossCounters stats).foldl saturatingAdd self.stats.kernelLosses } }, none) := by
  rw [Reassembler.step, Reassembler.push, parse_kernelSummary]
  dsimp only
  rw [Reassembler.pushRecord, if_pos rfl, Reassembler.pushStats,
    if_pos ⟨rfl, rfl, length_counters stats⟩]
  dsimp only
  rw [summaryLosses_counters h]

end UsbScope.Capture
