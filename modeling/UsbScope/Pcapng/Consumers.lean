import UsbScope.Filter.Search
import UsbScope.Pcapng.Producers
import UsbScope.Pcapng.Rewrite

/-! # What is done with delivered events

Filters and the writer read an event's payload at the lengths and offsets that
its producer has checked. Neither finds less than declared. -/
namespace UsbScope.Pcapng
open UsbScope.Lib UsbScope.Common UsbScope.Capture

/-- An event that a push of a reassembler returned, among any records. -/
def Pushed (e : Event) : Prop :=
  ∃ records, .ok (some e) ∈ (Reassembler.fresh.pushAll records).2

/-- An event that a reader returned, of any input. -/
def Read (e : Event) : Prop := ∃ events, Received events ∧ e ∈ events

theorem Pushed.readable {e : Event} (h : Pushed e) : Readable e := by
  obtain ⟨records, he⟩ := h
  exact Reassembler.pushAll_readable Reassembler.fresh_stored he

theorem Read.readable {e : Event} (h : Read e) : Readable e := by
  obtain ⟨events, hevents, he⟩ := h
  have hwell := hevents.wellformed e he
  exact ⟨hwell.length, hwell.inside⟩

/-- The packet of a received event fits a block again. -/
theorem lengths_of_parsed {r : Reader} {p : Packet} {e : Event} (h : Parsed r p e) :
    ∃ l, lengths e.iso.length e.metadata.payloadLen = .ok l := by
  have hbody := h.body
  have hfits := h.fits
  unfold padded at hfits
  unfold lengths
  simp only [ensure_of _ (show e.iso.length < 2 ^ 32 by omega),
    ensure_of _ (show e.iso.length * 16 < 2 ^ 32 by omega),
    ensure_of _ (show e.iso.length * 16 + e.metadata.payloadLen.toNat < 2 ^ 32 by omega),
    ensure_of _ (show 64 + (e.iso.length * 16 + e.metadata.payloadLen.toNat) < 2 ^ 32 by omega),
    Result.ok_bind]
  rw [ensure_of _ (by omega)]
  exact ⟨_, rfl⟩

/-- An event with its payload is written, unless it is too long or comes from
one source too many. -/
theorem writeEvent_error {w : Writer} {e : Event} {message : String} (h : Readable e)
    (herror : w.writeEvent e = .error message) :
    interfaceFor w.interfaces e.sourceId = .error message ∨
      lengths e.iso.length e.metadata.payloadLen = .error message := by
  unfold Writer.writeEvent at herror
  rcases Result.bind_eq_error.mp herror with hinterface | ⟨⟨index, declaration, interfaces⟩, _, herror⟩
  · exact .inl hinterface
  · rcases Result.bind_eq_error.mp herror with hlengths | ⟨l, _, herror⟩
    · exact .inr hlengths
    · rw [ensure_of _ h.length.ge] at herror
      cases herror

theorem interfaceFor_error {interfaces : List UInt64} {source : UInt64} {message : String}
    (h : interfaceFor interfaces source = .error message) : message = "too many output interfaces" := by
  unfold interfaceFor at h
  split at h
  · cases h
  · rcases ensure_bind_eq_error h with rfl | h
    · rfl
    · cases h

/-- The messages about lengths that the format cannot hold. -/
def overflowMessages : List String :=
  ["too many ISO descriptors", "ISO descriptor length overflow", "USB record exceeds format length",
    "pcapng block exceeds format length"]

theorem lengths_error {descriptors : Nat} {payloadLen : UInt32} {message : String}
    (h : lengths descriptors payloadLen = .error message) : message ∈ overflowMessages := by
  unfold lengths at h
  rcases ensure_bind_eq_error h with rfl | h
  · decide
  · rcases ensure_bind_eq_error h with rfl | h
    · decide
    · dsimp only at h
      rcases ensure_bind_eq_error h with rfl | h
      · decide
      · rcases ensure_bind_eq_error h with rfl | h
        · decide
        · rcases ensure_bind_eq_error h with rfl | h
          · decide
          · cases h

/-- **Delivered events can be used.** Whatever delivered it, an event can be
filtered by every filter that parses, and the writer finds all of its payload.
An event from a file also fits a block: nothing but the number of sources can
keep it from being written. -/
theorem delivered_usable {e : Event} (he : Pushed e ∨ Read e) :
    (∀ source f latency, Filter.parse source = .ok f → ∃ b, f.isMatch e latency = .ok b) ∧
      (∀ w message, Writer.writeEvent w e = .error message →
        message ≠ "payload shorter than declared span") ∧
      (Read e → ∀ w message, Writer.writeEvent w e = .error message →
        message ∉ overflowMessages ∧ message = "too many output interfaces") := by
  have hread : Readable e := he.elim Pushed.readable Read.readable
  refine ⟨fun source f latency hparse => Filter.isMatch_ok hparse hread latency, ?_, ?_⟩
  · intro w message herror
    rcases writeEvent_error hread herror with hinterface | hlengths
    · rw [interfaceFor_error hinterface]
      decide
    · have hmem := lengths_error hlengths
      intro heq
      rw [heq] at hmem
      exact absurd hmem (by decide)
  · intro hreceived w message herror
    obtain ⟨events, hevents, hmem⟩ := hreceived
    obtain ⟨_, _, hp, _⟩ := hevents.parsed e hmem
    rcases writeEvent_error hread herror with hinterface | hlengths
    · rw [interfaceFor_error hinterface]
      decide
    · obtain ⟨l, hl⟩ := lengths_of_parsed hp
      rw [hl] at hlengths
      cases hlengths

theorem delivered_usable_bulkOut : Pushed bulkOutEvent ∧
    ∀ source f latency, Filter.parse source = .ok f → ∃ b, f.isMatch bulkOutEvent latency = .ok b := by
  have hpushed : Pushed bulkOutEvent :=
    ⟨Reassembler.bulkOutRecords ++ [Reassembler.bulkOutEnd],
      List.mem_of_getElem? (i := 2) rfl⟩
  exact ⟨hpushed, (delivered_usable (.inl hpushed)).1⟩

end UsbScope.Pcapng
