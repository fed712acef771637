import UsbScope.App.Run
import UsbScope.Lib.Stream
import UsbScope.Pcapng.Blocks

/-! # Reading a file

`run` with an input reads records of an archive or events of a pcapng file and
hands them on at once. Both loops are loops over a local reader, so what they
have handed on when they fail is known as well (`replay_fed`, `pcapngLoop_fed`). -/
namespace UsbScope.App
open UsbScope.Lib UsbScope.Lib.Stream UsbScope.Common UsbScope.Capture UsbScope.Pcapng

variable {σ S T O : Type}

/-! ## `run` with an input -/

/-- The loop over the events of a pcapng file: the consumer, whether it wants to
stop, and the incomplete packets. -/
def pcapngLoop (consumeEvent : σ → Event → Result (σ × Bool)) :
    Nat → Reader → Bytes → σ → Result (σ × Bool × Nat)
  | 0, _, _, _ => .error "the file does not get shorter"
  | calls + 1, r, input, s =>
    match nextEvent (input.length + 1) r input with
    | .event e r input => do
      let (s, stop) ← consumeEvent s e
      if stop then .ok (s, true, r.incomplete) else pcapngLoop consumeEvent calls r input s
    | .finished incomplete => .ok (s, false, incomplete)
    | .failed message _ => .error message
    | .unfinished => .error "the block does not get shorter"

/-- A run over a pcapng file. -/
def replayPcapng (consumeEvent : σ → Event → Result (σ × Bool)) (consumer : σ) (input : Bytes) :
    Result (Report σ) := do
  let (consumer, stopped, incomplete) ←
    pcapngLoop consumeEvent (input.length + 1) Reader.new input consumer
  .ok ((Session.start false consumer).report stopped incomplete none)

/-- `run` with `--read`. A raw archive can only be made of another one. -/
def offline (consumeEvent : σ → Event → Result (σ × Bool)) (consumer : σ) (rawOutput : Bool)
    (input : Bytes) : Result (Report σ) := do
  let (_, pcap) ← openInput input
  ensure (rawOutput = false ∨ pcap = false)
    "pcapng omits metadata required by raw archives; --raw-output requires live or raw input"
  if pcap then replayPcapng consumeEvent consumer input
  else replay consumeEvent consumer rawOutput input

/-! ## Records -/

/-- `read_record`, as the reader of a stream. -/
def nextRecord : Next Unit Bytes :=
  fun _ input => (readRecord input).map fun r => r.map fun p => (p.1, (), p.2)

/-- How a loop that ended reports. -/
def Ending.stop : Ending → Result Bool
  | .ended => .ok false
  | .stopped => .ok true
  | .unread message => .error message
  | .refused message => .error message

/-- What a run over an archive has handed on, also when it fails. -/
def replayed (consumeEvent : σ → Event → Result (σ × Bool)) (consumer : σ) (rawOutput : Bool)
    (archive : Bytes) : Result (Fed Unit (Session σ)) := do
  let input ← readRawHeader archive
  .ok (feed nextRecord (Session.consume consumeEvent) (input.length + 1) () input
    (Session.start rawOutput consumer))

theorem readRecord_eq_none {input : Bytes} : readRecord input = .ok none ↔ input = [] := by
  constructor
  · intro h
    by_contra hne
    unfold readRecord at h
    rw [if_neg hne] at h
    obtain ⟨length, -, h⟩ := Result.bind_eq_ok.mp h
    obtain ⟨-, h⟩ := ensure_bind_eq_ok.mp h
    obtain ⟨bytes, -, h⟩ := Result.bind_eq_ok.mp h
    obtain ⟨-, h⟩ := ensure_bind_eq_ok.mp h
    cases h
  · intro h
    rw [readRecord, if_pos h]

/-- Whatever is read was archived. -/
theorem readRecord_eq_some {input record rest : Bytes}
    (h : readRecord input = .ok (some (record, rest))) :
    Sized record ∧ input = archived record ++ rest := by
  unfold readRecord at h
  split at h
  · cases h
  obtain ⟨⟨length, input₁⟩, hlength, h⟩ := Result.bind_eq_ok.mp h
  obtain ⟨hfour, heq⟩ := readExact_eq_ok.mp hlength
  obtain ⟨rfl, rfl⟩ := Prod.mk.inj heq
  obtain ⟨hsize, h⟩ := ensure_bind_eq_ok.mp h
  obtain ⟨⟨bytes, input₂⟩, hbytes, h⟩ := Result.bind_eq_ok.mp h
  obtain ⟨hlen, heq⟩ := readExact_eq_ok.mp hbytes
  obtain ⟨rfl, rfl⟩ := Prod.mk.inj heq
  obtain ⟨hfield, h⟩ := ensure_bind_eq_ok.mp h
  cases h
  have hword : u32 .little 0 (input.take 4) = u32 .little 0 input := u32_take _ (by decide)
  rw [hword] at hsize hlen hfield ⊢
  have hrecord : ((input.drop 4).take (u32 .little 0 input).toNat).length =
      (u32 .little 0 input).toNat := by rw [List.length_take, min_eq_left hlen]
  refine ⟨⟨by rw [hrecord]; exact hsize.1, by rw [hrecord]; exact hsize.2, ?_⟩, ?_⟩
  · rw [hrecord]
    exact hfield
  · have hfront := @bytes_u32_drop .little 0 input (by omega)
    rw [archived, hrecord, List.append_assoc, List.take_append_drop]
    exact hfront.symm

/-- An archived record, as an item of the stream. -/
def recordItem (record : Bytes) : Item Unit Bytes := ⟨record, archived record, ()⟩

theorem takes_record {record : Bytes} (h : Sized record) : Takes nextRecord () (recordItem record) where
  ne_nil := by
    intro hnil
    have hlen := congrArg List.length hnil
    simp [recordItem, archived] at hlen
  same := fun rest => by
    rw [nextRecord, recordItem, readRecord_archived h]
    rfl

theorem nextRecord_eq_ok {input : Bytes} {r : Option (Bytes × Unit × Bytes)}
    (h : nextRecord () input = .ok r) :
    (r = none ∧ input = []) ∨ ∃ record rest, r = some (record, (), rest) ∧ Sized record ∧
      input = archived record ++ rest := by
  unfold nextRecord at h
  cases hread : readRecord input with
  | error message =>
    rw [hread] at h
    cases h
  | ok res =>
    rw [hread] at h
    cases res with
    | none =>
      cases h
      exact .inl ⟨rfl, readRecord_eq_none.mp hread⟩
    | some p =>
      cases h
      exact .inr ⟨p.1, p.2, rfl, readRecord_eq_some hread⟩

theorem local_records : Local nextRecord where
  ends := fun s input => by
    constructor
    · intro h
      rcases nextRecord_eq_ok h with ⟨-, hnil⟩ | ⟨record, rest, heq, -⟩
      · exact hnil
      · cases heq
    · intro h
      rw [nextRecord, readRecord_eq_none.mpr h]
      rfl
  takes := fun s input o s' rest h => by
    rcases nextRecord_eq_ok h with ⟨heq, -⟩ | ⟨record, rest', heq, hsized, hinput⟩
    · cases heq
    · cases heq
      exact ⟨archived o, hinput, takes_record hsized⟩

/-- Sized records are an archive. -/
theorem chops_records {records : List Bytes} (h : ∀ r ∈ records, Sized r) :
    Chops nextRecord () (records.map recordItem) := by
  induction records with
  | nil => exact .nil ()
  | cons r rest ih =>
    exact .cons (takes_record (h r List.mem_cons_self)) (ih fun x hx => h x (List.mem_cons_of_mem _ hx))

theorem bytesOf_records (records : List Bytes) :
    bytesOf (records.map recordItem) = records.flatMap archived := by
  induction records with
  | nil => rfl
  | cons r rest ih => rw [List.map_cons, bytesOf_cons, ih, List.flatMap_cons, recordItem]

/-- The loop over an archive is the loop over its stream. -/
theorem replayLoop_fed (record : S → Bytes → Result (S × Bool)) {fuel : Nat} {input : Bytes} (s : S)
    (hfuel : input.length < fuel) :
    replayLoop record fuel input s = (Ending.stop (feed nextRecord record fuel () input s).ending).map
      fun stop => ((feed nextRecord record fuel () input s).taken, stop) := by
  induction fuel generalizing input s with
  | zero => omega
  | succ fuel ih =>
    rw [replayLoop, feed, nextRecord]
    cases hread : readRecord input with
    | error message => rfl
    | ok res =>
      cases res with
      | none => rfl
      | some p =>
        obtain ⟨bytes, rest⟩ := p
        obtain ⟨-, hinput⟩ := readRecord_eq_some hread
        have hless : rest.length < fuel := by
          rw [hinput, archived] at hfuel
          simp only [List.length_append, ByteOrder.length_bytes] at hfuel
          omega
        dsimp only [Except.map, Option.map_some]
        rw [Result.ok_bind]
        dsimp only
        cases htake : record s bytes with
        | error message => rfl
        | ok res =>
          obtain ⟨s', stop⟩ := res
          cases stop with
          | true => rfl
          | false => exact ih s' hless

theorem replay_fed (consumeEvent : σ → Event → Result (σ × Bool)) (consumer : σ) (rawOutput : Bool)
    (archive : Bytes) : replay consumeEvent consumer rawOutput archive =
      (replayed consumeEvent consumer rawOutput archive) >>= fun fed =>
        (Ending.stop fed.ending).map fun stop => fed.taken.report stop 0 none := by
  rw [replay, replayed]
  cases readRawHeader archive with
  | error message => rfl
  | ok input =>
    simp only [Result.ok_bind]
    rw [replayLoop_fed _ _ (Nat.lt_succ_self _)]
    cases Ending.stop (feed nextRecord (Session.consume consumeEvent) (input.length + 1) () input
      (Session.start rawOutput consumer)).ending with
    | error message => rfl
    | ok stop => rfl

/-! ## Blocks -/

/-- The next block, as the reader of a stream. -/
def nextItem : Next Reader Block :=
  fun r input => if input = [] then .ok none else (nextBlock r input).map some

/-- What the loop over events does with a block. -/
def takeBlock (consumeEvent : σ → Event → Result (σ × Bool)) (s : σ) (b : Block) : Result (σ × Bool) :=
  match b.event with
  | none => .ok (s, false)
  | some e => consumeEvent s e

theorem local_blocks : Local nextItem where
  ends := fun r input => by
    unfold nextItem
    constructor
    · intro h
      by_contra hne
      rw [if_neg hne] at h
      cases hb : nextBlock r input with
      | error message =>
        rw [hb] at h
        cases h
      | ok res =>
        rw [hb] at h
        cases h
    · intro h
      rw [if_pos h]
  takes := fun r input b r' rest h => by
    unfold nextItem at h
    split at h
    · cases h
    rename_i hne
    cases hb : nextBlock r input with
    | error message =>
      rw [hb] at h
      cases h
    | ok res =>
      rw [hb] at h
      cases h
      obtain ⟨-, hsize, htook, -⟩ := nextBlock_framed hb
      have hlen := htook.le
      refine ⟨input.take (u32 (frameOrder r.endian input) 4 input).toNat, ?_, ?_, fun g => ?_⟩
      · rw [htook.left, List.take_append_drop]
      · intro hnil
        have hzero := congrArg List.length hnil
        rw [List.length_take, List.length_nil] at hzero
        omega
      · have hnonempty : input.take (u32 (frameOrder r.endian input) 4 input).toNat ++ g ≠ [] := by
          intro hnil
          have hzero := congrArg List.length (List.append_eq_nil_iff.mp hnil).1
          rw [List.length_take, List.length_nil] at hzero
          omega
        dsimp only
        rw [nextItem, if_neg hnonempty, htook.same]
        rfl

/-- What a run over a pcapng file has handed on, also when it fails. -/
def replayedPcapng (consumeEvent : σ → Event → Result (σ × Bool)) (consumer : σ) (input : Bytes) :
    Fed Reader σ :=
  feed nextItem (takeBlock consumeEvent) (input.length + 1) Reader.new input consumer

/-- The rounds of `next_event` do not matter, if they are enough. -/
theorem nextEvent_rounds {rounds rounds' : Nat} {r : Reader} {input : Bytes}
    (h : input.length < rounds) (h' : input.length < rounds') :
    nextEvent rounds r input = nextEvent rounds' r input := by
  induction rounds generalizing rounds' r input with
  | zero => omega
  | succ rounds ih =>
    obtain ⟨rounds', rfl⟩ : ∃ n, rounds' = n + 1 := ⟨rounds' - 1, by omega⟩
    rw [nextEvent, nextEvent]
    split
    · rfl
    · cases hb : nextBlock r input with
      | error message => rfl
      | ok res =>
        obtain ⟨b, r', rest⟩ := res
        have hless := length_nextBlock hb
        dsimp only
        cases b.event with
        | some e => rfl
        | none => exact ih (by omega) (by omega)

/-- A block without an event is passed over. -/
theorem pcapngLoop_skip (consumeEvent : σ → Event → Result (σ × Bool)) {r r' : Reader}
    {input rest : Bytes} {b : Block} (hb : nextBlock r input = .ok (b, r', rest)) (hne : input ≠ [])
    (hevent : b.event = none) (calls : Nat) (s : σ) :
    pcapngLoop consumeEvent calls r input s = pcapngLoop consumeEvent calls r' rest s := by
  have hless := length_nextBlock hb
  cases calls with
  | zero => rfl
  | succ calls =>
    have hcall : nextEvent (input.length + 1) r input = nextEvent (rest.length + 1) r' rest := by
      rw [nextEvent, if_neg hne, hb]
      dsimp only
      rw [hevent]
      exact nextEvent_rounds hless (Nat.lt_succ_self _)
    rw [pcapngLoop, pcapngLoop, hcall]

/-- The loop over the events of a file is the loop over its blocks. -/
theorem pcapngLoop_fed (consumeEvent : σ → Event → Result (σ × Bool)) {calls fuel : Nat} {r : Reader}
    {input : Bytes} (s : σ) (hcalls : input.length < calls) (hfuel : input.length < fuel) :
    pcapngLoop consumeEvent calls r input s =
      (Ending.stop (feed nextItem (takeBlock consumeEvent) fuel r input s).ending).map fun stop =>
        ((feed nextItem (takeBlock consumeEvent) fuel r input s).taken, stop,
          (feed nextItem (takeBlock consumeEvent) fuel r input s).reader.incomplete) := by
  induction fuel generalizing calls r input s with
  | zero => omega
  | succ fuel ih =>
    obtain ⟨calls, rfl⟩ : ∃ n, calls = n + 1 := ⟨calls - 1, by omega⟩
    by_cases hne : input = []
    · rw [pcapngLoop, nextEvent, feed, nextItem, if_pos hne, if_pos hne]
      rfl
    rw [feed, nextItem, if_neg hne]
    cases hb : nextBlock r input with
    | error message =>
      rw [pcapngLoop, nextEvent, if_neg hne, hb]
      rfl
    | ok res =>
      obtain ⟨b, r', rest⟩ := res
      have hless := length_nextBlock hb
      dsimp only [Except.map]
      rw [takeBlock]
      cases hevent : b.event with
      | none =>
        rw [pcapngLoop_skip consumeEvent hb hne hevent]
        exact ih s (by omega) (by omega)
      | some e =>
        rw [pcapngLoop, nextEvent, if_neg hne, hb]
        dsimp only
        rw [hevent]
        dsimp only
        cases consumeEvent s e with
        | error message => rfl
        | ok res =>
          obtain ⟨s', stop⟩ := res
          cases stop with
          | true => rfl
          | false => exact ih s' (by omega) (by omega)

theorem replayPcapng_fed (consumeEvent : σ → Event → Result (σ × Bool)) (consumer : σ) (input : Bytes) :
    replayPcapng consumeEvent consumer input =
      (Ending.stop (replayedPcapng consumeEvent consumer input).ending).map fun stop =>
        (Session.start false (replayedPcapng consumeEvent consumer input).taken).report stop
          (replayedPcapng consumeEvent consumer input).reader.incomplete none := by
  rw [replayPcapng, pcapngLoop_fed consumeEvent consumer (Nat.lt_succ_self _) (Nat.lt_succ_self _)]
  rw [← replayedPcapng]
  cases Ending.stop (replayedPcapng consumeEvent consumer input).ending with
  | error message => rfl
  | ok stop => rfl

end UsbScope.App
