import UsbScope.Pcapng.Checked
import UsbScope.Pcapng.Framing
import UsbScope.Pcapng.ReadBack

/-! # Block by block

Every block takes the bytes that its length field declares, so a call of
`next_event` comes to an end, and a block of a type that the reader does not
know can be put between any two blocks. -/
namespace UsbScope.Pcapng
open UsbScope.Lib UsbScope.Common UsbScope.Capture

/-! ## Reachable readers -/

/-- A reader that has read some blocks of some file. -/
def Reached (r : Reader) : Prop :=
  ∃ count input blocks rest, readBlocks count Reader.new input = .ok (blocks, r, rest)

/-- All interfaces can be used. -/
def Usable (r : Reader) : Prop := ∀ i ∈ r.interfaces, Checked.Sane i

theorem unitsOf_sane {value : UInt8} {units : Nat} (h : unitsOf value = some units) :
    0 < units ∧ units < 2 ^ 64 := by
  have hkeep : ∀ n, 0 < n → (if n < 2 ^ 64 then some n else none) = some units →
      0 < units ∧ units < 2 ^ 64 := by
    intro n hn hsome
    split at hsome
    · rename_i hfits
      obtain rfl := Option.some.inj hsome
      exact ⟨hn, hfits⟩
    · cases hsome
  refine hkeep _ ?_ h
  split
  · exact Nat.two_pow_pos _
  · exact Nat.pow_pos (by decide)

theorem applyOption_sane {o : ByteOrder} {i i' : Interface} {code : UInt16} {value : Bytes} {last : Bool}
    (hi : Checked.Sane i) (h : applyOption o i code value = .ok (i', last)) : Checked.Sane i' := by
  unfold applyOption at h
  split at h
  · obtain ⟨_, h⟩ := ensure_bind_eq_ok.mp h
    obtain ⟨units, hunits, h⟩ := Result.bind_eq_ok.mp h
    cases h
    obtain ⟨hpos, hfits⟩ := unitsOf_sane (context_eq_ok.mp hunits)
    exact ⟨hpos, hfits, hi.low, hi.high⟩
  · split at h
    · obtain ⟨_, h⟩ := ensure_bind_eq_ok.mp h
      cases h
      exact ⟨hi.units, hi.unitsFit, Int64.le_toInt _, Int64.toInt_lt _⟩
    · split at h
      · obtain ⟨_, h⟩ := ensure_bind_eq_ok.mp h
        cases h
        exact hi
      · cases h
        exact hi

theorem readOptions_sane {o : ByteOrder} {fuel remaining remaining' : Nat} {i i' : Interface}
    {input rest : Bytes} (hi : Checked.Sane i)
    (h : readOptions o fuel remaining i input = .ok (i', remaining', rest)) : Checked.Sane i' := by
  induction fuel generalizing remaining i input with
  | zero =>
    cases h
    exact hi
  | succ fuel ih =>
    rw [readOptions] at h
    split at h
    · cases h
      exact hi
    · obtain ⟨res, _, h⟩ := Result.bind_eq_ok.mp h
      dsimp only at h
      rw [ensure_bind_eq_ok] at h
      obtain ⟨_, h⟩ := h
      obtain ⟨⟨value, input₁⟩, _, h⟩ := Result.bind_eq_ok.mp h
      obtain ⟨input₂, _, h⟩ := Result.bind_eq_ok.mp h
      obtain ⟨⟨i₁, last⟩, happly, h⟩ := Result.bind_eq_ok.mp h
      dsimp only at h
      split at h
      · cases h
        exact applyOption_sane hi happly
      · exact ih (applyOption_sane hi happly) h

theorem readInterface_usable {r r' : Reader} (hr : Usable r) {size : UInt32} {input rest : Bytes}
    {b : Block} (h : readInterface r size input = .ok (b, r', rest)) : Usable r' := by
  unfold readInterface at h
  obtain ⟨_, h⟩ := ensure_bind_eq_ok.mp h
  obtain ⟨⟨body, input₁⟩, _, h⟩ := Result.bind_eq_ok.mp h
  obtain ⟨⟨i, remaining, input₂⟩, hoptions, h⟩ := Result.bind_eq_ok.mp h
  obtain ⟨input₃, _, h⟩ := Result.bind_eq_ok.mp h
  obtain ⟨_, h⟩ := ensure_bind_eq_ok.mp h
  obtain ⟨input₄, _, h⟩ := Result.bind_eq_ok.mp h
  cases h
  have hdefault : Checked.Sane ⟨r.nextSourceId, u16 r.endian 0 body, 1000000, 0⟩ := by
    refine ⟨?_, ?_, ?_, ?_⟩ <;> norm_num
  have hsane : Checked.Sane i := readOptions_sane hdefault hoptions
  intro j hj
  rcases List.mem_append.mp hj with hj | hj
  · exact hr j hj
  · rw [List.mem_singleton.mp hj]
    exact hsane

theorem nextBlock_usable {r r' : Reader} (hr : Usable r) {input rest : Bytes} {b : Block}
    (h : nextBlock r input = .ok (b, r', rest)) : Usable r' := by
  unfold nextBlock at h
  obtain ⟨⟨header, input₁⟩, _, h⟩ := Result.bind_eq_ok.mp h
  dsimp only at h
  split at h
  · obtain rfl := readSection_block h
    cases readSection_moves h with
    | sectionHeader endian =>
      intro i hi
      cases hi
  · obtain ⟨_, h⟩ := ensure_bind_eq_ok.mp h
    rw [ensure_bind_eq_ok] at h
    obtain ⟨_, h⟩ := h
    split at h
    · exact readInterface_usable hr h
    · split at h
      · obtain ⟨⟨event, rfl⟩, _⟩ := readPacket_block h
        cases readPacket_moves h with
        | truncated p hcut hi => exact hr
        | lost p e hp => exact hr
        | delivered p e hp hkept => exact hr
      · split at h
        · cases h
        · obtain ⟨input₂, _, h⟩ := Result.bind_eq_ok.mp h
          obtain ⟨input₃, _, h⟩ := Result.bind_eq_ok.mp h
          cases h
          exact hr

theorem readBlocks_usable {count : Nat} {r r' : Reader} (hr : Usable r) {input rest : Bytes}
    {blocks : List Block} (h : readBlocks count r input = .ok (blocks, r', rest)) : Usable r' := by
  induction count generalizing r input blocks with
  | zero =>
    cases h
    exact hr
  | succ count ih =>
    rw [readBlocks] at h
    split at h
    · cases h
      exact hr
    · obtain ⟨⟨b, r₁, input₁⟩, hb, h⟩ := Result.bind_eq_ok.mp h
      obtain ⟨⟨bs, r₂, input₂⟩, hbs, h⟩ := Result.bind_eq_ok.mp h
      cases h
      exact ih (nextBlock_usable hr hb) hbs

theorem Reached.usable {r : Reader} (h : Reached r) : Usable r := by
  obtain ⟨count, input, blocks, rest, h⟩ := h
  have hnew : Usable Reader.new := by
    intro i hi
    cases hi
  exact readBlocks_usable hnew h

/-! ## Calls of `next_event` -/

/-- How a call ends. An error leaves the count as the blocks before it did. -/
inductive Outcome where
  | event (e : Event) (r : Reader) (rest : Bytes)
  | finished (incomplete : Nat)
  | failed (message : String) (incomplete : Nat)
  /-- The rounds given were not enough. -/
  | unfinished

/-- `next_event`, with at most the given number of rounds of its loop. -/
def nextEvent : Nat → Reader → Bytes → Outcome
  | 0, _, _ => .unfinished
  | rounds + 1, r, input =>
    if input = [] then .finished r.incomplete
    else
      match nextBlock r input with
      | .error message => .failed message r.incomplete
      | .ok (b, r, rest) =>
        match b.event with
        | some e => .event e r rest
        | none => nextEvent rounds r rest

/-- What a file gives: its events in order, the count of incomplete packets, and
the error at which reading stopped. -/
structure Session where
  events : List Event
  incomplete : Nat
  error : Option String
deriving DecidableEq

/-- Calls of `next_event` up to the end of file or an error. -/
def session : Nat → Reader → Bytes → Option Session
  | 0, _, _ => none
  | calls + 1, r, input =>
    match nextEvent (input.length + 1) r input with
    | .event e r rest => (session calls r rest).map fun s => { s with events := e :: s.events }
    | .finished incomplete => some ⟨[], incomplete, none⟩
    | .failed message incomplete => some ⟨[], incomplete, some message⟩
    | .unfinished => none

def sessionOf (input : Bytes) : Option Session := session (input.length + 1) Reader.new input

/-- The same block by block. -/
inductive Drains : Reader → Bytes → Session → Prop where
  | finished {r : Reader} : Drains r [] ⟨[], r.incomplete, none⟩
  | failed {r : Reader} {input : Bytes} {message : String} (hne : input ≠ [])
      (h : nextBlock r input = .error message) : Drains r input ⟨[], r.incomplete, some message⟩
  | block {r r' : Reader} {input rest : Bytes} {b : Block} {s : Session} (hne : input ≠ [])
      (hb : nextBlock r input = .ok (b, r', rest)) (h : Drains r' rest s) :
      Drains r input { s with events := b.event.toList ++ s.events }

theorem length_nextBlock {r r' : Reader} {input rest : Bytes} {b : Block}
    (h : nextBlock r input = .ok (b, r', rest)) : rest.length < input.length := by
  obtain ⟨_, hsize, htook, _⟩ := nextBlock_framed h
  have hle := htook.le
  rw [htook.left, List.length_drop]
  omega

/-- Every input is drained, since every block takes some of it. -/
theorem exists_drains (r : Reader) (input : Bytes) : ∃ s, Drains r input s := by
  induction hlen : input.length using Nat.strong_induction_on generalizing r input with
  | _ n ih =>
    by_cases hne : input = []
    · subst hne
      exact ⟨_, .finished⟩
    · cases hb : nextBlock r input with
      | error message => exact ⟨_, .failed hne hb⟩
      | ok res =>
        obtain ⟨b, r', rest⟩ := res
        have hless := length_nextBlock hb
        obtain ⟨s, hs⟩ := ih rest.length (by omega) r' rest rfl
        exact ⟨_, .block hne hb hs⟩

/-- A call stops at the first event, with rounds for the bytes left. -/
theorem nextEvent_drains {r : Reader} {input : Bytes} {s : Session} (h : Drains r input s) {rounds : Nat}
    (hrounds : input.length < rounds) :
    (∃ e r' rest s', nextEvent rounds r input = .event e r' rest ∧ Drains r' rest s' ∧
      rest.length < input.length ∧ s = { s' with events := e :: s'.events }) ∨
    nextEvent rounds r input = .finished s.incomplete ∧ s.events = [] ∧ s.error = none ∨
    ∃ message, nextEvent rounds r input = .failed message s.incomplete ∧ s.events = [] ∧
      s.error = some message := by
  induction h generalizing rounds with
  | finished =>
    obtain ⟨rounds, rfl⟩ : ∃ n, rounds = n + 1 := ⟨rounds - 1, by omega⟩
    exact .inr (.inl ⟨rfl, rfl, rfl⟩)
  | @failed r input message hne h =>
    obtain ⟨rounds, rfl⟩ : ∃ n, rounds = n + 1 := ⟨rounds - 1, by omega⟩
    refine .inr (.inr ⟨message, ?_, rfl, rfl⟩)
    simp only [nextEvent, if_neg hne, h]
  | @block r r' input rest b s hne hb hs ih =>
    obtain ⟨rounds, rfl⟩ : ∃ n, rounds = n + 1 := ⟨rounds - 1, by omega⟩
    have hless := length_nextBlock hb
    have hstep : nextEvent (rounds + 1) r input = match b.event with
        | some e => .event e r' rest
        | none => nextEvent rounds r' rest := by
      simp only [nextEvent, if_neg hne, hb]
    cases hevent : b.event with
    | some e =>
      rw [hevent] at hstep
      exact .inl ⟨e, r', rest, s, hstep, hs, hless, rfl⟩
    | none =>
      rw [hevent] at hstep
      rw [hstep]
      rcases @ih rounds (by omega) with ⟨e, r₁, rest₁, s₁, hcall, hdrains, hlt, rfl⟩ | hend
      · exact .inl ⟨e, r₁, rest₁, s₁, hcall, hdrains, by omega, rfl⟩
      · exact .inr hend

theorem session_drains {r : Reader} {input : Bytes} {s : Session} (h : Drains r input s) {calls : Nat}
    (hcalls : input.length < calls) : session calls r input = some s := by
  induction calls generalizing r input s with
  | zero => omega
  | succ calls ih =>
    rw [session]
    rcases nextEvent_drains h (Nat.lt_succ_self _) with
      ⟨e, r', rest, s', hcall, hdrains, hless, rfl⟩ | ⟨hcall, hevents, herror⟩ |
      ⟨message, hcall, hevents, herror⟩
    · rw [hcall]
      dsimp only
      rw [ih hdrains (by omega)]
      rfl
    · rw [hcall]
      dsimp only
      rw [← hevents, ← herror]
    · rw [hcall]
      dsimp only
      rw [← hevents, ← herror]

/-! ## Foreign blocks -/

/-- A well-formed block of a type that the reader does not know. -/
structure Foreign (o : ByteOrder) (b : Bytes) : Prop where
  length : (u32 o 4 b).toNat = b.length
  low : 12 ≤ b.length
  aligned : b.length % 4 = 0
  footer : u32 o (b.length - 4) b = u32 o 4 b
  notSection : b.take 4 ≠ sectionType
  kind : u32 o 0 b ∉ [1, 2, 3, 6]

theorem nextBlock_foreign {r : Reader} (hr : r.inSection = true) {b : Bytes} (hb : Foreign r.endian b)
    (g : Bytes) : nextBlock r (b ++ g) = .ok (.unknown, r, g) := by
  have hlow := hb.low
  have hparts : b ++ g = b.take 8 ++ ((b.drop 8).take (b.length - 12) ++ (b.drop (b.length - 4) ++ g)) := by
    have hrest : b.drop (b.length - 4) = (b.drop 8).drop (b.length - 12) := by
      rw [List.drop_drop]
      congr 1
      omega
    rw [hrest, ← List.append_assoc _ _ g, List.take_append_drop, ← List.append_assoc,
      List.take_append_drop]
  have hheader : (b.take 8).length = 8 := List.length_take_of_le (by omega)
  have hmiddle : ((b.drop 8).take (b.length - 12)).length = b.length - 12 := by
    rw [List.length_take, List.length_drop]
    omega
  have hlast : (b.drop (b.length - 4)).length = 4 := by
    rw [List.length_drop]
    omega
  have hsection : (b.take 8).take 4 ≠ [10, 13, 13, 10] := by
    rw [List.take_take]
    exact hb.notSection
  have hkind := hb.kind
  simp only [List.mem_cons, List.not_mem_nil, or_false, not_or] at hkind
  have hsize : 12 ≤ (u32 r.endian 4 b).toNat ∧ (u32 r.endian 4 b).toNat % 4 = 0 := by
    rw [hb.length]
    exact ⟨hb.low, hb.aligned⟩
  have hfooter : u32 r.endian 0 (b.drop (b.length - 4)) = u32 r.endian 4 b := by
    rw [u32_drop, Nat.add_zero, hb.footer]
  have hskip : skip ((u32 r.endian 4 b).toNat - 12)
      ((b.drop 8).take (b.length - 12) ++ (b.drop (b.length - 4) ++ g)) =
        .ok (b.drop (b.length - 4) ++ g) := skip_append (by rw [hmiddle, hb.length])
  rw [hparts, nextBlock, readExact_append hheader, Result.ok_bind]
  dsimp only
  rw [if_neg hsection, ensure_of _ hr, Result.ok_bind, u32_take _ (by decide), u32_take _ (by decide),
    ensure_of _ hsize, Result.ok_bind, if_neg hkind.1, if_neg hkind.2.2.2,
    if_neg (not_or.mpr ⟨hkind.2.1, hkind.2.2.1⟩), hskip, Result.ok_bind, footer, readExact_append hlast,
    Result.ok_bind]
  dsimp only
  rw [ensure_of _ hfooter]
  rfl

/-- A foreign block gives nothing and changes nothing. -/
theorem drains_foreign {r : Reader} (hr : r.inSection = true) {b : Bytes} (hb : Foreign r.endian b)
    {g : Bytes} {s : Session} (h : Drains r g s) : Drains r (b ++ g) s := by
  have hne : b ++ g ≠ [] := by
    intro hnil
    have hlen := congrArg List.length hnil
    have hlow := hb.low
    rw [List.length_append, List.length_nil] at hlen
    omega
  exact .block hne (nextBlock_foreign hr hb g) h

/-- What is read before does not depend on what follows. -/
theorem drains_append {count : Nat} {r r' : Reader} {input g : Bytes} {blocks : List Block} {s : Session}
    (h : readBlocks count r input = .ok (blocks, r', [])) (hs : Drains r' g s) :
    Drains r (input ++ g) { s with events := delivered blocks ++ s.events } := by
  induction count generalizing r input blocks with
  | zero =>
    cases h
    exact hs
  | succ count ih =>
    rw [readBlocks] at h
    split at h
    · rename_i hnil
      cases h
      rw [hnil]
      exact hs
    · rename_i hne
      obtain ⟨⟨b, r₁, rest⟩, hb, h⟩ := Result.bind_eq_ok.mp h
      obtain ⟨⟨bs, r₂, rest₂⟩, hbs, h⟩ := Result.bind_eq_ok.mp h
      cases h
      have hfront : nextBlock r (input ++ g) = .ok (b, r₁, rest ++ g) := (nextBlock_framed hb).took.append g
      have hnext := Drains.block (by simp [hne]) hfront (ih hbs)
      have hevents : b.event.toList ++ (delivered bs ++ s.events) = delivered (b :: bs) ++ s.events := by
        cases hevent : b.event <;> simp [delivered, hevent]
      rwa [hevents] at hnext

/-- Blocks are taken as they are declared, without a panic; a call of
`next_event` ends, and a foreign block between two blocks makes no difference. -/
theorem blocks_as_declared {r : Reader} (hr : Reached r) :
    (∀ input b r' rest, nextBlock r input = .ok (b, r', rest) →
      (u32 (frameOrder r.endian input) 4 input).toNat ≤ input.length ∧
        rest = input.drop (u32 (frameOrder r.endian input) 4 input).toNat) ∧
    (∀ input, Checked.nextBlock r input ≠ .error .panic ∧
      Checked.nextBlock r input = Checked.of (nextBlock r input)) ∧
    (∀ input rounds, input.length < rounds → nextEvent rounds r input ≠ .unfinished) ∧
    ∀ count before blocks, readBlocks count Reader.new before = .ok (blocks, r, []) → r.inSection = true →
      ∀ b after, Foreign r.endian b →
        ∃ s, sessionOf (before ++ after) = some s ∧ sessionOf (before ++ (b ++ after)) = some s := by
  refine ⟨?_, ?_, ?_, ?_⟩
  · intro input b r' rest h
    have htook := (nextBlock_framed h).took
    exact ⟨htook.le, htook.left⟩
  · intro input
    rw [Checked.nextBlock_eq hr.usable input]
    exact ⟨Checked.of_ne_panic _, rfl⟩
  · intro input rounds hrounds hstuck
    obtain ⟨s, hs⟩ := exists_drains r input
    rcases nextEvent_drains hs hrounds with ⟨e, r', rest, s', hcall, _⟩ | ⟨hcall, _⟩ | ⟨message, hcall, _⟩
    · rw [hstuck] at hcall
      cases hcall
    · rw [hstuck] at hcall
      cases hcall
    · rw [hstuck] at hcall
      cases hcall
  · intro count before blocks hbefore hsection b after hforeign
    obtain ⟨s, hs⟩ := exists_drains r after
    have hplain := drains_append hbefore hs
    have hwith := drains_append hbefore (drains_foreign hsection hforeign hs)
    exact ⟨_, session_drains hplain (Nat.lt_succ_self _), session_drains hwith (Nat.lt_succ_self _)⟩

/-- An empty block of type 10. -/
def emptySecrets : Bytes := [10, 0, 0, 0, 12, 0, 0, 0, 12, 0, 0, 0]

/-- The packet of a bulk OUT submission. -/
def bulkOutPacket : Bytes :=
  packetBlock 0 ⟨0, Reassembler.bulkOut, [], [1, 2, 3], true, true⟩ ⟨3, 67, 1, 100⟩

/-- The block stands between two packets. -/
theorem blocks_as_declared_secrets : ∃ s,
    sessionOf (Writer.new.output ++ bulkOutPacket ++ bulkOutPacket) = some s ∧
    sessionOf (Writer.new.output ++ bulkOutPacket ++ (emptySecrets ++ bulkOutPacket)) = some s ∧
    s.events.length = 2 := by
  have hread : (readBlocks 3 Reader.new (Writer.new.output ++ bulkOutPacket)).toOption.any
      (fun res => res.2.1.inSection && res.2.1.endian = .little && res.2.2 = []) = true := by
    decide +kernel
  obtain ⟨⟨blocks, r, rest⟩, hres, hend⟩ := (Option.any_eq_true _ _).mp hread
  rw [Bool.and_eq_true, Bool.and_eq_true, decide_eq_true_eq, decide_eq_true_eq] at hend
  obtain ⟨⟨hsection, hendian⟩, rfl⟩ := hend
  have hblocks := Result.eq_ok_of_toOption hres
  have hforeign : Foreign r.endian emptySecrets := by
    rw [show r.endian = .little from hendian]
    exact ⟨by decide, by decide, by decide, by decide, by decide, by decide⟩
  obtain ⟨_, _, _, hinsert⟩ := blocks_as_declared ⟨3, _, _, _, hblocks⟩
  obtain ⟨s, hplain, hwith⟩ := hinsert 3 _ blocks hblocks hsection emptySecrets bulkOutPacket hforeign
  refine ⟨s, hplain, hwith, ?_⟩
  have hlength : (sessionOf (Writer.new.output ++ bulkOutPacket ++ bulkOutPacket)).map
      (fun s => s.events.length) = some 2 := by
    decide +kernel
  rw [hplain] at hlength
  exact Option.some.inj hlength

end UsbScope.Pcapng
