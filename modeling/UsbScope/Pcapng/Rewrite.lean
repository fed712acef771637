import UsbScope.Pcapng.RoundTrip
import UsbScope.Pcapng.Producers

/-! # Round trip and rewriting

What is read back agrees with what was written in every field of the format, and
writing it again gives the same bytes. -/
namespace UsbScope.Pcapng
open UsbScope.Lib UsbScope.Common UsbScope.Capture

/-- What an event that was read back shares with the written one. -/
structure Carried (e e' : Event) : Prop where
  urbId : e'.metadata.urbId = e.metadata.urbId
  bus : e'.metadata.bus = e.metadata.bus
  device : e'.metadata.device = e.metadata.device
  endpoint : e'.metadata.endpoint = e.metadata.endpoint
  transferType : e'.metadata.transferType = e.metadata.transferType
  eventType : e'.metadata.eventType = e.metadata.eventType
  setupPresent : e'.metadata.setupPresent = e.metadata.setupPresent
  hasData : e'.metadata.hasData = e.metadata.hasData
  status : e'.metadata.status = e.metadata.status
  interval : e'.metadata.interval = e.metadata.interval
  startFrame : e'.metadata.startFrame = e.metadata.startFrame
  transferFlags : e'.metadata.transferFlags = e.metadata.transferFlags
  isoCount : e'.metadata.isoCount = e.metadata.isoCount
  iso : e'.iso = e.iso
  payloadLen : e'.metadata.payloadLen = e.metadata.payloadLen
  payload : e'.payload = e.payload
  wireLen : wireLen e'.metadata = wireLen e.metadata
  setup : e.metadata.transferType ≠ 0 → e.metadata.setupPresent ≠ 0 →
    e'.metadata.setup = e.metadata.setup
  errorCount : e.metadata.transferType = 0 → e'.metadata.errorCount = e.metadata.errorCount
  timestamp : e'.metadata.timestampNs.toNat = e.metadata.timestampNs.toNat / 1000 * 1000

theorem toNat_microseconds (ns : UInt64) : (microseconds ns).toNat = ns.toNat / 1000 * 1000 := by
  have hlt := ns.toNat_lt
  exact UInt64.toNat_ofNat_of_lt' (by simp only [UInt64.size]; omega)

section
variable {e : Event} {source : UInt64} {request : Option UInt32}

/-- The wire length survives, since a submission always knows its request. -/
theorem wireLen_readBack
    (h : e.metadata.eventType = submitType → request = some e.metadata.requestedLen) :
    wireLen (readBack source e request).metadata = wireLen e.metadata := by
  unfold wireLen
  by_cases hs : e.metadata.eventType = submitType
  · rw [if_pos hs, if_pos (show (readBack source e request).metadata.eventType = submitType from hs),
      h hs]
    rfl
  · rw [if_neg hs,
      if_neg (show (readBack source e request).metadata.eventType ≠ submitType from hs)]
    exact if_neg hs

theorem carried_readBack
    (h : e.metadata.eventType = submitType → request = some e.metadata.requestedLen) :
    Carried e (readBack source e request) where
  urbId := rfl
  bus := rfl
  device := rfl
  endpoint := rfl
  transferType := rfl
  eventType := rfl
  setupPresent := rfl
  hasData := rfl
  status := rfl
  interval := rfl
  startFrame := rfl
  transferFlags := rfl
  isoCount := rfl
  iso := rfl
  payloadLen := rfl
  payload := rfl
  wireLen := wireLen_readBack h
  setup := fun ht hs => if_pos ⟨ht, hs⟩
  errorCount := fun ht => if_pos ht
  timestamp := toNat_microseconds _

theorem setupArea_readBack
    (h : e.metadata.eventType = submitType → request = some e.metadata.requestedLen) :
    setupArea (readBack source e request).metadata = setupArea e.metadata := by
  have hc : Carried e (readBack source e request) := carried_readBack h
  unfold setupArea
  by_cases ht : e.metadata.transferType = 0
  · rw [if_pos (hc.transferType.trans ht), if_pos ht, hc.errorCount ht, hc.isoCount]
  · rw [if_neg (hc.transferType ▸ ht), if_neg ht]
    by_cases hs : e.metadata.setupPresent = 0
    · rw [if_neg fun hne => hne (hc.setupPresent.trans hs), if_neg fun hne => hne hs]
    · rw [if_pos (hc.setupPresent ▸ hs), if_pos hs, hc.setup ht hs]

/-- Writing an event that was read back gives its packet again. -/
theorem packetBlock_readBack (index : UInt32) (l : Lengths)
    (h : e.metadata.eventType = submitType → request = some e.metadata.requestedLen) :
    packetBlock index (readBack source e request) l = packetBlock index e l := by
  have hts : (readBack source e request).metadata.timestampNs.toNat / 1000 =
      e.metadata.timestampNs.toNat / 1000 := by
    rw [(carried_readBack h).timestamp]
    omega
  have hheader : ∀ data, usbHeader (readBack source e request).metadata data =
      usbHeader e.metadata data := by
    intro data
    unfold usbHeader
    rw [setupArea_readBack h, wireLen_readBack h, hts]
    rfl
  unfold packetBlock packetData
  rw [hts, hheader]
  rfl

end

/-! ## Interfaces -/

theorem idxOf?_map {num : UInt64 → UInt64} {l : List UInt64} {source : UInt64}
    (h : ∀ x ∈ l, num x = num source → x = source) :
    (l.map num).idxOf? (num source) = l.idxOf? source := by
  induction l with
  | nil => rfl
  | cons a rest ih =>
    have hhead : (num a == num source) = (a == source) := by
      rw [Bool.eq_iff_iff, beq_iff_eq, beq_iff_eq]
      exact ⟨h a List.mem_cons_self, congrArg num⟩
    rw [List.map_cons, List.idxOf?_cons, List.idxOf?_cons, hhead,
      ih fun x hx => h x (List.mem_cons_of_mem _ hx)]

/-- The writer treats renumbered sources alike. -/
theorem interfaceFor_map {num : UInt64 → UInt64} {interfaces interfaces' : List UInt64}
    {source : UInt64} {index : UInt32} {declaration : Bytes}
    (hnum : ∀ x ∈ interfaces, num x = num source → x = source)
    (h : interfaceFor interfaces source = .ok (index, declaration, interfaces')) :
    interfaceFor (interfaces.map num) (num source) =
      .ok (index, declaration, interfaces'.map num) := by
  unfold interfaceFor at h ⊢
  rw [idxOf?_map hnum]
  cases hidx : interfaces.idxOf? source with
  | some k =>
    rw [hidx] at h
    cases h
    rfl
  | none =>
    rw [hidx] at h
    dsimp only at h ⊢
    obtain ⟨hlt, h⟩ := ensure_bind_eq_ok.mp h
    cases h
    rw [List.length_map]
    refine ensure_bind_eq_ok.mpr ⟨hlt, ?_⟩
    rw [List.map_append]
    rfl

theorem number_injOn {interfaces : List UInt64} (hfew : interfaces.length ≤ 2 ^ 32) {a b : UInt64}
    (ha : a ∈ interfaces) (hb : b ∈ interfaces)
    (h : number interfaces a = number interfaces b) : a = b := by
  have hlt := List.idxOf_lt_length_of_mem ha
  have hlt' := List.idxOf_lt_length_of_mem hb
  have hidx := congrArg UInt64.toNat h
  unfold number at hidx
  rw [UInt64.toNat_ofNat_of_lt' (by simp only [UInt64.size]; omega),
    UInt64.toNat_ofNat_of_lt' (by simp only [UInt64.size]; omega)] at hidx
  exact List.idxOf_inj ha |>.mp hidx

/-! ## Files -/

/-- Each event is read back on its own, with the source renumbered. -/
theorem readBacks_forall₂ (num : UInt64 → UInt64)
    (requested : AList fun _ : RequestKey => UInt32) (events : List Event) :
    List.Forall₂ (fun e e' => ∃ request, e' = readBack (num e.sourceId) e request ∧
      (e.metadata.eventType = submitType → request = some e.metadata.requestedLen))
      events (readBacks num requested events) := by
  induction events generalizing requested with
  | nil => exact .nil
  | cons e rest ih => exact .cons ⟨_, rfl, fun hs => if_pos hs⟩ (ih _)

/-- Writing what was read back follows the first writer byte by byte. -/
theorem writeAll_readBack {num : UInt64 → UInt64} {events events' : List Event} {w w' v : Writer}
    (hback : List.Forall₂ (fun e e' => ∃ request, e' = readBack (num e.sourceId) e request ∧
      (e.metadata.eventType = submitType → request = some e.metadata.requestedLen)) events events')
    (hw : w.writeAll events = .ok w')
    (hnum : ∀ a ∈ w'.interfaces, ∀ b ∈ w'.interfaces, num a = num b → a = b)
    (hout : v.output = w.output) (hint : v.interfaces = w.interfaces.map num) :
    ∃ v', v.writeAll events' = .ok v' ∧ v'.output = w'.output := by
  induction hback generalizing w v with
  | nil =>
    cases writeAll_nil.mp hw
    exact ⟨v, rfl, hout⟩
  | @cons e e' rest rest' hhead _ ih =>
    obtain ⟨request, rfl, hrequest⟩ := hhead
    obtain ⟨w₁, hw₁, hw₂⟩ := writeAll_cons.mp hw
    obtain ⟨hpre, hmem⟩ := writeEvent_interfaces hw₁
    obtain ⟨hpre₂, _⟩ := writeAll_interfaces hw₂
    obtain ⟨index, declaration, interfaces, l, hi, hl, hlen, rfl⟩ := writeEvent_eq_ok.mp hw₁
    have hi' : interfaceFor (w.interfaces.map num) (num e.sourceId) =
        .ok (index, declaration, interfaces.map num) :=
      interfaceFor_map (fun x hx => hnum x ((hpre.trans hpre₂).subset hx) _ (hpre₂.subset hmem)) hi
    rw [← hint] at hi'
    obtain ⟨v₁, hv, hout₁, hint₁⟩ : ∃ v₁, v.writeEvent (readBack (num e.sourceId) e request) = .ok v₁ ∧
        v₁.output = w.output ++ (declaration ++ packetBlock index e l) ∧
        v₁.interfaces = interfaces.map num := by
      refine ⟨_, writeEvent_eq_ok.mpr ⟨index, declaration, _, l, hi', hl, hlen, rfl⟩, ?_, rfl⟩
      rw [hout, packetBlock_readBack index l hrequest]
    obtain ⟨v', hv', hout'⟩ := ih hw₂ hout₁ hint₁
    exact ⟨v', writeAll_cons.mpr ⟨_, hv, hv'⟩, hout'⟩

/-! ## The round trip -/

theorem wellformed_of_delivered {events : List Event} (h : Reassembled events ∨ Received events) :
    ∀ e ∈ events, Wellformed e := by
  rcases h with h | h
  · exact fun e he => (h.fromKernel e he).toWellformed
  · exact h.wellformed

/-- **Round trip.** What is read of a written file are the written events, one by
one, with every field of the format; times are rounded down to a microsecond,
sources are told apart as before. Written again they give the same bytes. -/
theorem reads_back_written {events : List Event} {w : Writer} {blocks : List Block} {r : Reader}
    (hevents : Reassembled events ∨ Received events) (hw : Writer.new.writeAll events = .ok w)
    (hread : Reads w.output blocks r) :
    r.incomplete = 0 ∧ List.Forall₂ Carried events (delivered blocks) ∧
      (∀ (i j : Nat) (e₁ e₂ e₁' e₂' : Event), events[i]? = some e₁ → events[j]? = some e₂ →
        (delivered blocks)[i]? = some e₁' → (delivered blocks)[j]? = some e₂' →
        (e₁'.sourceId = e₂'.sourceId ↔ e₁.sourceId = e₂.sourceId)) ∧
      ∃ w', Writer.new.writeAll (delivered blocks) = .ok w' ∧ w'.output = w.output := by
  obtain ⟨_, hfew, _, hback⟩ := reads_written hw (wellformed_of_delivered hevents)
  obtain ⟨hdelivered, hincomplete⟩ := hback blocks r hread
  obtain ⟨_, hmem⟩ := writeAll_interfaces hw
  have hall := readBacks_forall₂ (number w.interfaces) ∅ events
  rw [← hdelivered] at hall
  refine ⟨hincomplete, hall.imp ?_, ?_, ?_⟩
  · rintro e e' ⟨request, rfl, hrequest⟩
    exact carried_readBack hrequest
  · have hsource : ∀ (i : Nat) (e e' : Event), events[i]? = some e → (delivered blocks)[i]? = some e' →
        e'.sourceId = number w.interfaces e.sourceId := by
      intro i e e' he he'
      obtain ⟨hi, rfl⟩ := List.getElem?_eq_some_iff.mp he
      obtain ⟨hi', rfl⟩ := List.getElem?_eq_some_iff.mp he'
      obtain ⟨request, heq, _⟩ := (List.forall₂_iff_get.mp hall).2 i hi hi'
      rw [List.get_eq_getElem] at heq
      rw [heq]
      rfl
    intro i j e₁ e₂ e₁' e₂' h₁ h₂ h₁' h₂'
    rw [hsource i e₁ e₁' h₁ h₁', hsource j e₂ e₂' h₂ h₂']
    constructor
    · exact number_injOn hfew (hmem e₁ (List.mem_of_getElem? h₁)) (hmem e₂ (List.mem_of_getElem? h₂))
    · intro heq
      rw [heq]
  · exact writeAll_readBack hall hw (fun a ha b hb => number_injOn hfew ha hb) rfl rfl

/-- The event of the bulk OUT submission. -/
def bulkOutEvent : Event := ⟨0, Reassembler.bulkOut, [], [1, 2, 3], true, true⟩

theorem reassembled_bulkOut : Reassembled [bulkOutEvent] :=
  ⟨Reassembler.bulkOutRecords ++ [Reassembler.bulkOutEnd], _, _, rfl, rfl⟩

theorem reads_back_written_bulkOut : ∃ w blocks r, Writer.new.writeAll [bulkOutEvent] = .ok w ∧
    Reads w.output blocks r ∧ r.incomplete = 0 ∧
    List.Forall₂ Carried [bulkOutEvent] (delivered blocks) := by
  have hw : Writer.new.writeAll [bulkOutEvent] =
      .ok ⟨Writer.new.output ++ packetBlock 0 bulkOutEvent ⟨3, 67, 1, 100⟩, 148, [0]⟩ := by
    decide +kernel
  have haccepts : AcceptsAll (number [0]) ∅ [bulkOutEvent] :=
    ⟨⟨fun _ => by decide, fun h => absurd h (by decide)⟩, trivial⟩
  obtain ⟨blocks, r, hread⟩ := (reads_written hw
    (wellformed_of_delivered (.inl reassembled_bulkOut))).2.2.1.mpr haccepts
  obtain ⟨hnone, hcarried, _⟩ := reads_back_written (.inl reassembled_bulkOut) hw hread
  exact ⟨_, blocks, r, hw, hread, hnone, hcarried⟩

end UsbScope.Pcapng
