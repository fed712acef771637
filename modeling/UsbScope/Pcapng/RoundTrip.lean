import UsbScope.Pcapng.ReadBack

/-! # Reading back a written file

The reader meets the sources of the writer in the order of their first use, so
both number them alike. A file of well-formed events is read to its end exactly
when the reader accepts each event with the submissions before it. -/
namespace UsbScope.Pcapng
open UsbScope.Lib UsbScope.Common UsbScope.Capture

/-! ## Runs of the reader -/

/-- From a state, the reader reads the input to its end. -/
def ReadsFrom (r : Reader) (input : Bytes) (blocks : List Block) (r' : Reader) : Prop :=
  ∃ count, readBlocks count r input = .ok (blocks, r', [])

theorem readBlocks_nil (count : Nat) (r : Reader) : readBlocks count r [] = .ok ([], r, []) := by
  cases count <;> rfl

theorem readsFrom_nil {r r' : Reader} {blocks : List Block} :
    ReadsFrom r [] blocks r' ↔ blocks = [] ∧ r' = r := by
  constructor
  · rintro ⟨count, h⟩
    rw [readBlocks_nil] at h
    cases h
    exact ⟨rfl, rfl⟩
  · rintro ⟨rfl, rfl⟩
    exact ⟨0, rfl⟩

/-- The first block of a run, and the run after it. -/
theorem readsFrom_cons {r r' : Reader} {input : Bytes} {blocks : List Block} (h : input ≠ []) :
    ReadsFrom r input blocks r' ↔ ∃ p blocks', nextBlock r input = .ok p ∧
      ReadsFrom p.2.1 p.2.2 blocks' r' ∧ blocks = p.1 :: blocks' := by
  constructor
  · rintro ⟨count, hread⟩
    cases count with
    | zero =>
      cases hread
      exact absurd rfl h
    | succ count =>
      rw [readBlocks, if_neg h] at hread
      obtain ⟨p, hp, hread⟩ := Result.bind_eq_ok.mp hread
      obtain ⟨⟨bs, r2, rest⟩, hq, hread⟩ := Result.bind_eq_ok.mp hread
      cases hread
      exact ⟨p, bs, hp, ⟨count, hq⟩, rfl⟩
  · rintro ⟨p, blocks', hp, ⟨count, hread⟩, rfl⟩
    refine ⟨count + 1, ?_⟩
    rw [readBlocks, if_neg h, hp, Result.ok_bind]
    dsimp only
    rw [hread, Result.ok_bind]

/-- The reader takes the bytes as these blocks and goes on in `r'`, or fails,
as `ok` tells. -/
def Consumes (r : Reader) (bytes : Bytes) (ok : Prop) (blocks : List Block) (r' : Reader) : Prop :=
  ∀ rest bs t, ReadsFrom r (bytes ++ rest) bs t ↔
    ok ∧ ∃ bs', ReadsFrom r' rest bs' t ∧ bs = blocks ++ bs'

theorem Consumes.nil (r : Reader) : Consumes r [] True [] r := by
  intro rest bs t
  simp

theorem Consumes.append {r r₁ r₂ : Reader} {b₁ b₂ : Bytes} {ok₁ ok₂ : Prop} {l₁ l₂ : List Block}
    (h₁ : Consumes r b₁ ok₁ l₁ r₁) (h₂ : Consumes r₁ b₂ ok₂ l₂ r₂) :
    Consumes r (b₁ ++ b₂) (ok₁ ∧ ok₂) (l₁ ++ l₂) r₂ := by
  intro rest bs t
  rw [List.append_assoc, h₁]
  constructor
  · rintro ⟨hok₁, bs', hread, rfl⟩
    obtain ⟨hok₂, bs'', hrest, rfl⟩ := (h₂ _ _ _).mp hread
    exact ⟨⟨hok₁, hok₂⟩, bs'', hrest, (List.append_assoc _ _ _).symm⟩
  · rintro ⟨⟨hok₁, hok₂⟩, bs', hread, rfl⟩
    exact ⟨hok₁, _, (h₂ _ _ _).mpr ⟨hok₂, bs', hread, rfl⟩, List.append_assoc _ _ _⟩

/-- A block that the reader takes exactly if `ok`. -/
theorem Consumes.block {r r' : Reader} {bytes : Bytes} {ok : Prop} {b : Block} (hne : bytes ≠ [])
    (h : ∀ rest res, nextBlock r (bytes ++ rest) = .ok res ↔ ok ∧ res = (b, r', rest)) :
    Consumes r bytes ok [b] r' := by
  intro rest bs t
  rw [readsFrom_cons (by simp [hne])]
  constructor
  · rintro ⟨p, bs', hp, hread, rfl⟩
    obtain ⟨hok, rfl⟩ := (h rest p).mp hp
    exact ⟨hok, bs', hread, rfl⟩
  · rintro ⟨hok, bs', hread, rfl⟩
    exact ⟨_, bs', (h rest _).mpr ⟨hok, rfl⟩, hread, rfl⟩

/-! ## Sources and interfaces -/

/-- The reader has met the interfaces that the writer has declared. -/
structure InStep (interfaces : List UInt64) (r : Reader) : Prop where
  endian : r.endian = .little
  inSection : r.inSection = true
  declared : r.interfaces = (List.range (max 1 interfaces.length)).map writtenInterface
  next : r.nextSourceId.toNat = max 1 interfaces.length
  nodup : interfaces.Nodup
  few : interfaces.length ≤ 2 ^ 32

/-- A source that the writer knows, or one that is new. -/
theorem interfaceFor_eq_ok {interfaces interfaces' : List UInt64} {source : UInt64} {index : UInt32}
    {declaration : Bytes} (hfew : interfaces.length ≤ 2 ^ 32)
    (h : interfaceFor interfaces source = .ok (index, declaration, interfaces')) :
    source ∈ interfaces' ∧ interfaces'.idxOf source < 2 ^ 32 ∧
      index = UInt32.ofNat (interfaces'.idxOf source) ∧
      ((interfaces' = interfaces ∧ declaration = []) ∨
        (source ∉ interfaces ∧ interfaces' = interfaces ++ [source] ∧
          declaration = if interfaces = [] then [] else interfaceBlock)) := by
  unfold interfaceFor at h
  cases hidx : interfaces.idxOf? source with
  | some k =>
    rw [hidx] at h
    cases h
    have hmem : source ∈ interfaces := by
      by_contra hno
      rw [List.idxOf?_eq_none_iff.mpr hno] at hidx
      cases hidx
    have hk : k = interfaces.idxOf source := by
      rw [List.idxOf_eq_getD_idxOf?, hidx, Option.getD_some]
    have hlt := List.idxOf_lt_length_of_mem hmem
    exact ⟨hmem, by omega, by rw [hk], .inl ⟨rfl, rfl⟩⟩
  | none =>
    rw [hidx] at h
    have hno : source ∉ interfaces := List.idxOf?_eq_none_iff.mp hidx
    dsimp only at h
    rw [ensure_bind_eq_ok] at h
    obtain ⟨hlt, h⟩ := h
    cases h
    have hidxOf : (interfaces ++ [source]).idxOf source = interfaces.length := by
      rw [List.idxOf_append_of_notMem hno]
      simp
    refine ⟨by simp, by omega, by rw [hidxOf], .inr ⟨hno, rfl, ?_⟩⟩
    by_cases hnil : interfaces = []
    · simp [hnil]
    · rw [if_pos (by simpa using hnil), if_neg hnil]

/-- The reader's number of a source: its position among the interfaces. -/
def number (interfaces : List UInt64) (source : UInt64) : UInt64 :=
  UInt64.ofNat (interfaces.idxOf source)

/-- The reader follows the declaration of a source. -/
theorem consumes_declaration {interfaces interfaces' : List UInt64} {source : UInt64}
    {index : UInt32} {declaration : Bytes} {r : Reader} (h : InStep interfaces r)
    (hi : interfaceFor interfaces source = .ok (index, declaration, interfaces')) :
    ∃ blocks r', Consumes r declaration True blocks r' ∧ delivered blocks = [] ∧
      InStep interfaces' r' ∧ r'.requested = r.requested ∧ r'.incomplete = r.incomplete := by
  obtain ⟨hmem, hlt, _, hcases⟩ := interfaceFor_eq_ok h.few hi
  rcases hcases with ⟨rfl, rfl⟩ | ⟨hno, rfl, rfl⟩
  · exact ⟨[], r, Consumes.nil r, rfl, h, rfl, rfl⟩
  have hnodup : (interfaces ++ [source]).Nodup := by
    rw [List.nodup_append]
    refine ⟨h.nodup, List.nodup_singleton _, ?_⟩
    rintro a ha b hb rfl
    exact hno (List.mem_singleton.mp hb ▸ ha)
  have hidx : (interfaces ++ [source]).idxOf source = interfaces.length := by
    rw [List.idxOf_append_of_notMem hno]
    simp
  by_cases hnil : interfaces = []
  · subst hnil
    refine ⟨[], r, Consumes.nil r, rfl, ⟨h.endian, h.inSection, h.declared, h.next, hnodup, ?_⟩,
      rfl, rfl⟩
    simp
  have hpos : 1 ≤ interfaces.length := List.length_pos_iff.mpr hnil
  have hmax : max 1 interfaces.length = interfaces.length := max_eq_right hpos
  have hnext := h.next
  have hdeclared := h.declared
  rw [hmax] at hnext hdeclared
  have hlen : max 1 (interfaces ++ [source]).length = interfaces.length + 1 := by simp
  rw [hidx] at hlt
  rw [if_neg hnil]
  have hsource : UInt64.ofNat interfaces.length = r.nextSourceId := by
    rw [← hnext, UInt64.ofNat_toNat]
  refine ⟨[.interface], { r with
    nextSourceId := r.nextSourceId + 1
    interfaces := r.interfaces ++ [⟨r.nextSourceId, 220, 1000000, 0⟩] }, ?_, rfl, ?_, rfl, rfl⟩
  · refine Consumes.block (by decide) fun rest res => ?_
    rw [nextBlock_interface h.endian h.inSection (by omega)]
    simp [eq_comm]
  · refine ⟨h.endian, h.inSection, ?_, ?_, hnodup, ?_⟩
    · rw [hlen, List.range_succ, List.map_append, List.map_singleton, ← hdeclared]
      simp only [writtenInterface, hsource]
    · rw [hlen]
      dsimp only
      rw [UInt64.toNat_add, hnext]
      simp
      omega
    · simp
      omega

/-- The reader makes the event of its packet, if it accepts it. -/
theorem consumes_packet {interfaces : List UInt64} {r : Reader} {e : Event} {l : Lengths}
    (h : InStep interfaces r) (hmem : e.sourceId ∈ interfaces) (he : Wellformed e)
    (hl : lengths e.iso.length e.metadata.payloadLen = .ok l) :
    ∃ blocks r', Consumes r (packetBlock (UInt32.ofNat (interfaces.idxOf e.sourceId)) e l)
        (Accepts r.requested (number interfaces e.sourceId) e) blocks r' ∧
      delivered blocks = [readBack (number interfaces e.sourceId) e
        (requestOf r.requested (number interfaces e.sourceId) e)] ∧
      InStep interfaces r' ∧
      r'.requested = tableAfter r.requested (number interfaces e.sourceId) e ∧
      r'.incomplete = r.incomplete := by
  have hlt := List.idxOf_lt_length_of_mem hmem
  have hfew := h.few
  have hat : r.interfaces[interfaces.idxOf e.sourceId]? =
      some (writtenInterface (interfaces.idxOf e.sourceId)) := by
    rw [h.declared, List.getElem?_map, List.getElem?_range (by omega)]
    rfl
  refine ⟨_, _, Consumes.block ?_ fun rest res =>
    nextBlock_packet h.endian h.inSection (by omega) hat he hl, rfl,
    ⟨h.endian, h.inSection, h.declared, h.next, h.nodup, h.few⟩, rfl, rfl⟩
  intro hnil
  have := congrArg List.length hnil
  simp [packetBlock, packetHeader] at this

/-! ## Files -/

/-- The events that are read back, from a table of submissions on. -/
def readBacks (num : UInt64 → UInt64) :
    (AList fun _ : RequestKey => UInt32) → List Event → List Event
  | _, [] => []
  | requested, e :: rest =>
    readBack (num e.sourceId) e (requestOf requested (num e.sourceId) e) ::
      readBacks num (tableAfter requested (num e.sourceId) e) rest

/-- The reader accepts one event after another. -/
def AcceptsAll (num : UInt64 → UInt64) :
    (AList fun _ : RequestKey => UInt32) → List Event → Prop
  | _, [] => True
  | requested, e :: rest =>
    Accepts requested (num e.sourceId) e ∧
      AcceptsAll num (tableAfter requested (num e.sourceId) e) rest

theorem writeEvent_eq_ok {w w' : Writer} {e : Event} :
    w.writeEvent e = .ok w' ↔ ∃ index declaration interfaces l,
      interfaceFor w.interfaces e.sourceId = .ok (index, declaration, interfaces) ∧
      lengths e.iso.length e.metadata.payloadLen = .ok l ∧
      e.metadata.payloadLen.toNat ≤ e.payload.length ∧
      w' =
        { output := w.output ++ (declaration ++ packetBlock index e l)
          bytes := w.bytes + (if declaration = [] then 0 else 20) + l.total.toNat
          interfaces := interfaces } := by
  unfold Writer.writeEvent
  rw [Result.bind_eq_ok]
  constructor
  · rintro ⟨⟨index, declaration, interfaces⟩, hi, h⟩
    obtain ⟨l, hl, h⟩ := Result.bind_eq_ok.mp h
    obtain ⟨hlen, h⟩ := ensure_bind_eq_ok.mp h
    cases h
    exact ⟨index, declaration, interfaces, l, hi, hl, hlen, rfl⟩
  · rintro ⟨index, declaration, interfaces, l, hi, hl, hlen, rfl⟩
    exact ⟨_, hi, Result.bind_eq_ok.mpr ⟨l, hl, ensure_bind_eq_ok.mpr ⟨hlen, rfl⟩⟩⟩

theorem writeAll_nil {w w' : Writer} : w.writeAll [] = .ok w' ↔ w' = w := by
  constructor
  · intro h
    cases h
    rfl
  · rintro rfl
    rfl

theorem writeAll_cons {w w' : Writer} {e : Event} {rest : List Event} :
    w.writeAll (e :: rest) = .ok w' ↔ ∃ w₁, w.writeEvent e = .ok w₁ ∧ w₁.writeAll rest = .ok w' := by
  unfold Writer.writeAll
  rw [List.foldlM_cons, Result.bind_eq_ok]

/-- Interfaces are only added, at the end. -/
theorem writeEvent_interfaces {w w' : Writer} {e : Event} (hw : w.writeEvent e = .ok w') :
    w.interfaces <+: w'.interfaces ∧ e.sourceId ∈ w'.interfaces := by
  obtain ⟨index, declaration, interfaces, l, hi, _, _, rfl⟩ := writeEvent_eq_ok.mp hw
  unfold interfaceFor at hi
  cases hidx : w.interfaces.idxOf? e.sourceId with
  | some k =>
    rw [hidx] at hi
    cases hi
    refine ⟨List.prefix_rfl, ?_⟩
    by_contra hno
    rw [List.idxOf?_eq_none_iff.mpr hno] at hidx
    cases hidx
  | none =>
    rw [hidx] at hi
    obtain ⟨_, hi⟩ := ensure_bind_eq_ok.mp hi
    cases hi
    exact ⟨List.prefix_append _ _, by simp⟩

theorem writeAll_interfaces {w w' : Writer} {events : List Event} (hw : w.writeAll events = .ok w') :
    w.interfaces <+: w'.interfaces ∧ ∀ e ∈ events, e.sourceId ∈ w'.interfaces := by
  induction events generalizing w with
  | nil =>
    cases writeAll_nil.mp hw
    exact ⟨List.prefix_rfl, by simp⟩
  | cons e rest ih =>
    obtain ⟨w₁, hw₁, hw₂⟩ := writeAll_cons.mp hw
    obtain ⟨hpre₁, hmem₁⟩ := writeEvent_interfaces hw₁
    obtain ⟨hpre₂, hmem₂⟩ := ih hw₂
    refine ⟨hpre₁.trans hpre₂, fun x hx => ?_⟩
    rcases List.mem_cons.mp hx with rfl | hx
    · exact hpre₂.subset hmem₁
    · exact hmem₂ x hx

theorem number_of_isPrefix {interfaces interfaces' : List UInt64} {source : UInt64}
    (h : interfaces <+: interfaces') (hmem : source ∈ interfaces) :
    number interfaces' source = number interfaces source := by
  obtain ⟨rest, rfl⟩ := h
  rw [number, List.idxOf_append_of_mem hmem, number]

/-- The reader follows the writer through one event. -/
theorem consumes_event {w w' : Writer} {r : Reader} {e : Event} (h : InStep w.interfaces r)
    (hw : w.writeEvent e = .ok w') (he : Wellformed e) :
    ∃ bytes blocks r', w'.output = w.output ++ bytes ∧
      Consumes r bytes (Accepts r.requested (number w'.interfaces e.sourceId) e) blocks r' ∧
      delivered blocks = [readBack (number w'.interfaces e.sourceId) e
        (requestOf r.requested (number w'.interfaces e.sourceId) e)] ∧
      InStep w'.interfaces r' ∧
      r'.requested = tableAfter r.requested (number w'.interfaces e.sourceId) e ∧
      r'.incomplete = r.incomplete := by
  obtain ⟨index, declaration, interfaces, l, hi, hl, _, rfl⟩ := writeEvent_eq_ok.mp hw
  obtain ⟨hmem, _, rfl, _⟩ := interfaceFor_eq_ok h.few hi
  obtain ⟨blocks₁, r₁, hread₁, hnone, hstep₁, hreq₁, hinc₁⟩ := consumes_declaration h hi
  obtain ⟨blocks₂, r₂, hread₂, hevent, hstep₂, hreq₂, hinc₂⟩ := consumes_packet hstep₁ hmem he hl
  rw [hreq₁] at hread₂ hevent hreq₂
  refine ⟨_, blocks₁ ++ blocks₂, r₂, rfl, ?_, ?_, hstep₂, hreq₂, hinc₂.trans hinc₁⟩
  · have := hread₁.append hread₂
    rwa [true_and] at this
  · rw [delivered, List.filterMap_append]
    change delivered blocks₁ ++ delivered blocks₂ = _
    rw [hnone, hevent, List.nil_append]

/-- The reader follows the writer through all events, numbering the sources as
the writer does. -/
theorem consumes_events {w w' : Writer} {r : Reader} {events : List Event}
    (h : InStep w.interfaces r) (hw : w.writeAll events = .ok w')
    (hevents : ∀ e ∈ events, Wellformed e) :
    w'.interfaces.Nodup ∧ w'.interfaces.length ≤ 2 ^ 32 ∧
      ∃ bytes blocks r', w'.output = w.output ++ bytes ∧
        Consumes r bytes (AcceptsAll (number w'.interfaces) r.requested events) blocks r' ∧
        delivered blocks = readBacks (number w'.interfaces) r.requested events ∧
        r'.incomplete = r.incomplete := by
  induction events generalizing w r with
  | nil =>
    cases writeAll_nil.mp hw
    exact ⟨h.nodup, h.few, [], [], r, by simp, Consumes.nil r, rfl, rfl⟩
  | cons e rest ih =>
    obtain ⟨w₁, hw₁, hw₂⟩ := writeAll_cons.mp hw
    obtain ⟨_, hmem⟩ := writeEvent_interfaces hw₁
    obtain ⟨hpre, _⟩ := writeAll_interfaces hw₂
    obtain ⟨bytes₁, blocks₁, r₁, hout₁, hread₁, hevent₁, hstep₁, hreq₁, hinc₁⟩ :=
      consumes_event h hw₁ (hevents e List.mem_cons_self)
    obtain ⟨hnodup, hfew, bytes₂, blocks₂, r₂, hout₂, hread₂, hevent₂, hinc₂⟩ :=
      ih hstep₁ hw₂ fun x hx => hevents x (List.mem_cons_of_mem _ hx)
    rw [← number_of_isPrefix hpre hmem] at hread₁ hevent₁ hreq₁
    rw [hreq₁] at hread₂ hevent₂
    refine ⟨hnodup, hfew, bytes₁ ++ bytes₂, blocks₁ ++ blocks₂, r₂, ?_, hread₁.append hread₂, ?_,
      hinc₂.trans hinc₁⟩
    · rw [hout₂, hout₁, List.append_assoc]
    · rw [delivered, List.filterMap_append]
      change delivered blocks₁ ++ delivered blocks₂ = _
      rw [hevent₁, hevent₂]
      rfl

/-- The reader takes the section header and the first interface. -/
theorem consumes_start : ∃ blocks r, Consumes Reader.new Writer.new.output True blocks r ∧
    delivered blocks = [] ∧ InStep [] r ∧ r.requested = ∅ ∧ r.incomplete = 0 := by
  have hsection : Consumes Reader.new sectionBlock True [.sectionHeader]
      ⟨.little, true, [], 0, ∅, 0⟩ := by
    refine Consumes.block (by decide) fun rest res => ?_
    rw [nextBlock_section]
    simp [eq_comm, Reader.new]
  have hinterface : Consumes ⟨.little, true, [], 0, ∅, 0⟩ interfaceBlock True [.interface]
      ⟨.little, true, [writtenInterface 0], 1, ∅, 0⟩ := by
    refine Consumes.block (by decide) fun rest res => ?_
    rw [nextBlock_interface rfl rfl (by decide)]
    simp [eq_comm, writtenInterface]
  have hstart := hsection.append hinterface
  rw [true_and] at hstart
  exact ⟨_, _, hstart, rfl, ⟨rfl, rfl, rfl, rfl, List.nodup_nil, by simp⟩, rfl, rfl⟩

/-- A written file is read to its end exactly when the reader accepts its
events; it then delivers what is read back of each. -/
theorem reads_written {w : Writer} {events : List Event} (hw : Writer.new.writeAll events = .ok w)
    (hevents : ∀ e ∈ events, Wellformed e) :
    w.interfaces.Nodup ∧ w.interfaces.length ≤ 2 ^ 32 ∧
      ((∃ blocks r, Reads w.output blocks r) ↔ AcceptsAll (number w.interfaces) ∅ events) ∧
      ∀ blocks r, Reads w.output blocks r →
        delivered blocks = readBacks (number w.interfaces) ∅ events ∧ r.incomplete = 0 := by
  obtain ⟨blocks₁, r₁, hread₁, hnone, hstep, hreq, hinc₁⟩ := consumes_start
  obtain ⟨hnodup, hfew, bytes, blocks₂, r₂, hout, hread₂, hevents, hinc₂⟩ :=
    consumes_events hstep hw hevents
  rw [hreq] at hread₂ hevents
  have hfile : ∀ blocks r, Reads w.output blocks r ↔
      AcceptsAll (number w.interfaces) ∅ events ∧ blocks = blocks₁ ++ blocks₂ ∧ r = r₂ := by
    intro blocks r
    have hall := (hread₁.append hread₂) [] blocks r
    rw [List.append_nil, ← hout, true_and] at hall
    refine hall.trans (and_congr_right fun _ => ?_)
    constructor
    · rintro ⟨bs', hend, rfl⟩
      obtain ⟨rfl, rfl⟩ := readsFrom_nil.mp hend
      exact ⟨List.append_nil _, rfl⟩
    · rintro ⟨rfl, rfl⟩
      exact ⟨[], readsFrom_nil.mpr ⟨rfl, rfl⟩, (List.append_nil _).symm⟩
  refine ⟨hnodup, hfew, ?_, ?_⟩
  · constructor
    · rintro ⟨blocks, r, h⟩
      exact ((hfile blocks r).mp h).1
    · intro h
      exact ⟨_, _, (hfile _ _).mpr ⟨h, rfl, rfl⟩⟩
  · intro blocks r h
    obtain ⟨_, rfl, rfl⟩ := (hfile blocks r).mp h
    refine ⟨?_, hinc₂.trans hinc₁⟩
    rw [delivered, List.filterMap_append]
    change delivered blocks₁ ++ delivered blocks₂ = _
    rw [hnone, hevents, List.nil_append]

end UsbScope.Pcapng
