import UsbScope.Pcapng.Framing
import UsbScope.Pcapng.RoundTrip

/-! # Sections are read on their own

A section header resets the reader: what follows is read as from the start of a
file, with the sources counted on. -/
namespace UsbScope.Pcapng
open UsbScope.Lib UsbScope.Common UsbScope.Capture

/-! ## Renumbered sources -/

def Interface.shift (k : UInt64) (i : Interface) : Interface :=
  { i with sourceId := i.sourceId + k }

def shiftEvent (k : UInt64) (e : Event) : Event := { e with sourceId := e.sourceId + k }

def Block.shift (k : UInt64) : Block → Block
  | .packet p event => .packet p (event.map (shiftEvent k))
  | b => b

theorem delivered_shift (k : UInt64) (blocks : List Block) :
    delivered (blocks.map (Block.shift k)) = (delivered blocks).map (shiftEvent k) := by
  have hevent : ∀ b : Block, (b.shift k).event = b.event.map (shiftEvent k) := by
    intro b
    cases b <;> rfl
  rw [delivered, delivered, List.filterMap_map, List.map_filterMap]
  exact congrArg (fun f => blocks.filterMap f) (funext hevent)

theorem length_keys_erase {α β : Type} [DecidableEq α] (t : AList fun _ : α => β) (a : α) :
    (t.erase a).keys.length = if a ∈ t then t.keys.length - 1 else t.keys.length := by
  rw [AList.keys_erase, List.length_erase]
  by_cases h : a ∈ t.keys
  · rw [if_pos h, if_pos (AList.mem_keys.mpr h)]
  · rw [if_neg h, if_neg (mt AList.mem_keys.mp h)]

theorem length_keys_insert {α β : Type} [DecidableEq α] (t : AList fun _ : α => β) (a : α) (b : β) :
    (t.insert a b).keys.length = (t.erase a).keys.length + 1 := by
  rw [AList.keys_insert, AList.keys_erase, List.length_cons]

/-- The same submissions, of renumbered sources. -/
structure ShiftedTable (k : UInt64) (t t' : AList fun _ : RequestKey => UInt32) : Prop where
  lookup : ∀ source urb, t'.lookup (source + k, urb) = t.lookup (source, urb)
  length : t'.keys.length = t.keys.length

theorem ShiftedTable.empty (k : UInt64) : ShiftedTable k ∅ ∅ := ⟨fun _ _ => rfl, rfl⟩

section
variable {k : UInt64} {t t' : AList fun _ : RequestKey => UInt32}

theorem ShiftedTable.mem (h : ShiftedTable k t t') (source urb : UInt64) :
    (source + k, urb) ∈ t' ↔ (source, urb) ∈ t := by
  rw [← AList.lookup_isSome, ← AList.lookup_isSome, h.lookup]

/-- Keys stay apart when the sources are renumbered. -/
theorem shifted_key_ne {a source : UInt64} {b urb : UInt64} (h : (a, b) ≠ (source, urb)) :
    (a + k, b) ≠ (source + k, urb) := by
  intro heq
  obtain ⟨hsource, rfl⟩ := Prod.mk.inj heq
  exact h (by rw [(UInt64.add_left_inj k).mp hsource])

theorem ShiftedTable.erase (h : ShiftedTable k t t') (source urb : UInt64) :
    ShiftedTable k (t.erase (source, urb)) (t'.erase (source + k, urb)) := by
  constructor
  · intro a b
    by_cases hkey : (a, b) = (source, urb)
    · obtain ⟨rfl, rfl⟩ := Prod.mk.inj hkey
      rw [AList.lookup_erase, AList.lookup_erase]
    · rw [AList.lookup_erase_ne hkey, AList.lookup_erase_ne (shifted_key_ne hkey), h.lookup]
  · rw [length_keys_erase, length_keys_erase, h.length]
    simp only [h.mem]

theorem ShiftedTable.insert (h : ShiftedTable k t t') (source urb : UInt64) (len : UInt32) :
    ShiftedTable k (t.insert (source, urb) len) (t'.insert (source + k, urb) len) := by
  constructor
  · intro a b
    by_cases hkey : (a, b) = (source, urb)
    · obtain ⟨rfl, rfl⟩ := Prod.mk.inj hkey
      rw [AList.lookup_insert, AList.lookup_insert]
    · rw [AList.lookup_insert_ne hkey, AList.lookup_insert_ne (shifted_key_ne hkey), h.lookup]
  · rw [length_keys_insert, length_keys_insert, (h.erase source urb).length]

theorem pairRequest_shifted (h : ShiftedTable k t t') {table : AList fun _ : RequestKey => UInt32}
    {source : UInt64} {m m' : EventMeta} {len : UInt32} {known : Bool}
    (hpair : pairRequest t source m len = .ok (m', known, table)) :
    ∃ table', pairRequest t' (source + k) m len = .ok (m', known, table') ∧
      ShiftedTable k table table' := by
  unfold pairRequest at hpair ⊢
  by_cases hs : m.eventType = submitType
  · rw [if_pos hs] at hpair
    obtain ⟨hroom, hpair⟩ := ensure_bind_eq_ok.mp hpair
    cases hpair
    rw [if_pos hs, ensure_of _ (by rw [h.length]; exact hroom), Result.ok_bind]
    exact ⟨_, rfl, h.insert ..⟩
  · rw [if_neg hs] at hpair
    cases hpair
    rw [if_neg hs]
    dsimp only
    rw [h.lookup]
    exact ⟨_, rfl, h.erase ..⟩

end

/-- The state of the reader `k` interfaces and `d` lost packets further on. -/
structure Shifted (k d : Nat) (r s : Reader) : Prop where
  endian : s.endian = r.endian
  inSection : s.inSection = r.inSection
  interfaces : s.interfaces = r.interfaces.map (Interface.shift (UInt64.ofNat k))
  next : s.nextSourceId.toNat = r.nextSourceId.toNat + k
  requested : ShiftedTable (UInt64.ofNat k) r.requested s.requested
  incomplete : s.incomplete = r.incomplete + d

/-! ## Blocks -/

section
variable {k d : Nat} {r r' s : Reader} {size : UInt32} {input rest : Bytes} {b : Block}

theorem Shifted.nextSourceId (h : Shifted k d r s) :
    s.nextSourceId = r.nextSourceId + UInt64.ofNat k := by
  apply UInt64.toNat_inj.mp
  have hlt := s.nextSourceId.toNat_lt
  rw [UInt64.toNat_add, UInt64.toNat_ofNat', h.next, Nat.add_mod_mod, ← h.next, Nat.mod_eq_of_lt hlt]

theorem readUsb_shifted (h : Shifted k d r s) {captured : UInt32} {interface : Interface}
    {timestamp : UInt64} {seen : Packet}
    (hb : readUsb r size captured interface timestamp seen input = .ok (b, r', rest)) :
    ∃ s', readUsb s size captured (interface.shift (UInt64.ofNat k)) timestamp seen input =
      .ok (b.shift (UInt64.ofNat k), s', rest) ∧ Shifted k d r' s' := by
  unfold readUsb at hb
  obtain ⟨⟨usb, input₁⟩, husb, hb⟩ := Result.bind_eq_ok.mp hb
  obtain ⟨m, hm, hb⟩ := Result.bind_eq_ok.mp hb
  obtain ⟨⟨m₁, known, table⟩, hpair, hb⟩ := Result.bind_eq_ok.mp hb
  obtain ⟨⟨m₂, iso, input₂⟩, hsetup, hb⟩ := Result.bind_eq_ok.mp hb
  obtain ⟨⟨payload, input₃⟩, hpayload, hb⟩ := Result.bind_eq_ok.mp hb
  obtain ⟨input₄, hskip, hb⟩ := Result.bind_eq_ok.mp hb
  obtain ⟨input₅, hfooter, hb⟩ := Result.bind_eq_ok.mp hb
  obtain ⟨table', hpair', htable⟩ := pairRequest_shifted h.requested hpair
  unfold readUsb
  simp only [h.endian, husb, Result.ok_bind, hm, Interface.shift, hpair', hsetup, hpayload, hskip,
    hfooter]
  split at hb
  · rename_i hlost
    cases hb
    rw [if_pos hlost]
    refine ⟨_, rfl, rfl, h.inSection, h.interfaces, h.next, htable, ?_⟩
    dsimp only
    rw [h.incomplete]
    omega
  · rename_i hkept
    cases hb
    rw [if_neg hkept]
    exact ⟨_, rfl, rfl, h.inSection, h.interfaces, h.next, htable, h.incomplete⟩

theorem readPacket_shifted (h : Shifted k d r s)
    (hb : readPacket r size input = .ok (b, r', rest)) :
    ∃ s', readPacket s size input = .ok (b.shift (UInt64.ofNat k), s', rest) ∧ Shifted k d r' s' := by
  unfold readPacket at hb
  dsimp only at hb
  obtain ⟨hsize, hb⟩ := ensure_bind_eq_ok.mp hb
  obtain ⟨⟨packet, input₁⟩, hpacket, hb⟩ := Result.bind_eq_ok.mp hb
  dsimp only at hb
  obtain ⟨interface, hi, hb⟩ := Result.bind_eq_ok.mp hb
  obtain ⟨hlink, hb⟩ := ensure_bind_eq_ok.mp hb
  obtain ⟨timestamp, htime, hb⟩ := Result.bind_eq_ok.mp hb
  obtain ⟨hpadded, hb⟩ := ensure_bind_eq_ok.mp hb
  have hi' : s.interfaces[(u32 r.endian 0 packet).toNat]? =
      some (interface.shift (UInt64.ofNat k)) := by
    rw [h.interfaces, List.getElem?_map, context_eq_ok.mp hi]
    rfl
  have hlink' : (interface.shift (UInt64.ofNat k)).linktype = 220 := hlink
  unfold readPacket
  simp only [ensure_of _ hsize, h.endian, hpacket, Result.ok_bind, hi', context_some,
    ensure_of _ hlink']
  rw [show (interface.shift (UInt64.ofNat k)).timestamp = interface.timestamp from rfl]
  simp only [htime, ensure_of _ hpadded, Result.ok_bind]
  split at hb
  · rename_i hcut
    obtain ⟨input₂, hskip, hb⟩ := Result.bind_eq_ok.mp hb
    obtain ⟨input₃, hfooter, hb⟩ := Result.bind_eq_ok.mp hb
    cases hb
    simp only [if_pos hcut, hskip, hfooter, Result.ok_bind]
    refine ⟨_, rfl, rfl, h.inSection, h.interfaces, h.next, h.requested, ?_⟩
    dsimp only
    rw [h.incomplete]
    omega
  · rename_i hcut
    obtain ⟨heq, hb⟩ := ensure_bind_eq_ok.mp hb
    simp only [if_neg hcut, ensure_of _ heq, Result.ok_bind]
    exact readUsb_shifted h hb

theorem applyOption_shift {o : ByteOrder} {i i' : Interface} {code : UInt16} {value : Bytes}
    {last : Bool} (k : UInt64) (h : applyOption o i code value = .ok (i', last)) :
    applyOption o (i.shift k) code value = .ok (i'.shift k, last) := by
  unfold applyOption at h ⊢
  split at h
  · rename_i hcode
    obtain ⟨hlen, h⟩ := ensure_bind_eq_ok.mp h
    obtain ⟨units, hunits, h⟩ := Result.bind_eq_ok.mp h
    cases h
    rw [if_pos hcode, ensure_of _ hlen, Result.ok_bind, hunits]
    rfl
  · rename_i hcode
    rw [if_neg hcode]
    split at h
    · rename_i hcode
      obtain ⟨hlen, h⟩ := ensure_bind_eq_ok.mp h
      cases h
      rw [if_pos hcode, ensure_of _ hlen]
      rfl
    · rename_i hcode
      rw [if_neg hcode]
      split at h
      · rename_i hcode
        obtain ⟨hlen, h⟩ := ensure_bind_eq_ok.mp h
        cases h
        rw [if_pos hcode, ensure_of _ hlen]
        rfl
      · rename_i hcode
        cases h
        rw [if_neg hcode]

theorem readOptions_shift {o : ByteOrder} {fuel remaining remaining' : Nat} {i i' : Interface}
    (k : UInt64) (h : readOptions o fuel remaining i input = .ok (i', remaining', rest)) :
    readOptions o fuel remaining (i.shift k) input = .ok (i'.shift k, remaining', rest) := by
  induction fuel generalizing remaining i input with
  | zero =>
    cases h
    rfl
  | succ fuel ih =>
    rw [readOptions] at h ⊢
    split at h
    · rename_i hlow
      cases h
      rw [if_pos hlow]
    · rename_i hlow
      obtain ⟨⟨option, input₁⟩, hoption, h⟩ := Result.bind_eq_ok.mp h
      dsimp only at h
      rw [ensure_bind_eq_ok] at h
      obtain ⟨hfits, h⟩ := h
      obtain ⟨⟨value, input₂⟩, hvalue, h⟩ := Result.bind_eq_ok.mp h
      obtain ⟨input₃, hskip, h⟩ := Result.bind_eq_ok.mp h
      obtain ⟨⟨i₁, last⟩, happly, h⟩ := Result.bind_eq_ok.mp h
      rw [if_neg hlow]
      simp only [hoption, ensure_of _ hfits, hvalue, hskip, applyOption_shift k happly, Result.ok_bind]
      cases last with
      | true =>
        cases h
        rfl
      | false => exact ih h

theorem readInterface_shifted (h : Shifted k d r s)
    (hb : readInterface r size input = .ok (b, r', rest)) (hroom : r'.nextSourceId.toNat + k < 2 ^ 64) :
    ∃ s', readInterface s size input = .ok (b.shift (UInt64.ofNat k), s', rest) ∧
      Shifted k d r' s' := by
  unfold readInterface at hb
  obtain ⟨hsize, hb⟩ := ensure_bind_eq_ok.mp hb
  obtain ⟨⟨body, input₁⟩, hbody, hb⟩ := Result.bind_eq_ok.mp hb
  obtain ⟨⟨i, remaining, input₂⟩, hoptions, hb⟩ := Result.bind_eq_ok.mp hb
  obtain ⟨input₃, hskip, hb⟩ := Result.bind_eq_ok.mp hb
  obtain ⟨hnext, hb⟩ := ensure_bind_eq_ok.mp hb
  obtain ⟨input₄, hfooter, hb⟩ := Result.bind_eq_ok.mp hb
  cases hb
  have hone : ∀ x : UInt64, x.toNat + 1 < 2 ^ 64 → (x + 1).toNat = x.toNat + 1 := by
    intro x hx
    rw [UInt64.toNat_add]
    exact Nat.mod_eq_of_lt hx
  dsimp only at hroom
  rw [hone _ hnext] at hroom
  have hnext' : s.nextSourceId.toNat + 1 < 2 ^ 64 := by
    rw [h.next]
    omega
  have hoptions' := readOptions_shift (UInt64.ofNat k) hoptions
  simp only [Interface.shift, ← h.nextSourceId] at hoptions'
  unfold readInterface
  simp only [ensure_of _ hsize, hbody, h.endian, Result.ok_bind, hoptions', hskip,
    ensure_of _ hnext', hfooter]
  refine ⟨_, rfl, rfl, h.inSection, ?_, ?_, h.requested, h.incomplete⟩
  · dsimp only
    rw [h.interfaces, List.map_append]
    rfl
  · dsimp only
    rw [hone _ hnext, hone _ hnext', h.next]
    omega

/-- A section header leaves nothing of the section before it. -/
theorem readSection_shifted {header : Bytes} (hb : readSection r header input = .ok (b, r', rest))
    (hnext : s.nextSourceId.toNat = r.nextSourceId.toNat + k)
    (hincomplete : s.incomplete = r.incomplete + d) :
    ∃ s', readSection s header input = .ok (b.shift (UInt64.ofNat k), s', rest) ∧
      Shifted k d r' s' := by
  unfold readSection at hb
  obtain ⟨⟨magic, input₁⟩, hmagic, hb⟩ := Result.bind_eq_ok.mp hb
  obtain ⟨endian, hendian, hb⟩ := Result.bind_eq_ok.mp hb
  obtain ⟨hsize, hb⟩ := ensure_bind_eq_ok.mp hb
  obtain ⟨⟨version, input₂⟩, hversion, hb⟩ := Result.bind_eq_ok.mp hb
  obtain ⟨hone, hb⟩ := ensure_bind_eq_ok.mp hb
  obtain ⟨input₃, hskip, hb⟩ := Result.bind_eq_ok.mp hb
  obtain ⟨input₄, hfooter, hb⟩ := Result.bind_eq_ok.mp hb
  cases hb
  unfold readSection
  simp only [hmagic, hendian, ensure_of _ hsize, hversion, ensure_of _ hone, hskip, hfooter,
    Result.ok_bind]
  exact ⟨_, rfl, rfl, rfl, rfl, hnext, .empty _, hincomplete⟩

theorem nextBlock_shifted (h : Shifted k d r s) (hb : nextBlock r input = .ok (b, r', rest))
    (hroom : r'.nextSourceId.toNat + k < 2 ^ 64) :
    ∃ s', nextBlock s input = .ok (b.shift (UInt64.ofNat k), s', rest) ∧ Shifted k d r' s' := by
  unfold nextBlock at hb ⊢
  obtain ⟨⟨header, input₁⟩, hheader, hb⟩ := Result.bind_eq_ok.mp hb
  rw [hheader, Result.ok_bind]
  dsimp only at hb ⊢
  split at hb
  · rename_i hsec
    rw [if_pos hsec]
    exact readSection_shifted hb h.next h.incomplete
  · rename_i hsec
    rw [if_neg hsec]
    obtain ⟨hin, hb⟩ := ensure_bind_eq_ok.mp hb
    rw [ensure_bind_eq_ok] at hb
    obtain ⟨hsize, hb⟩ := hb
    rw [ensure_of _ (by rw [h.inSection]; exact hin), Result.ok_bind]
    simp only [h.endian, ensure_of _ hsize, Result.ok_bind]
    split at hb
    · rename_i hkind
      rw [if_pos hkind]
      exact readInterface_shifted h hb hroom
    · rename_i hkind
      rw [if_neg hkind]
      split at hb
      · rename_i hkind
        rw [if_pos hkind]
        exact readPacket_shifted h hb
      · rename_i hkind
        rw [if_neg hkind]
        split at hb
        · cases hb
        · rename_i hkind
          rw [if_neg hkind]
          obtain ⟨input₂, hskip, hb⟩ := Result.bind_eq_ok.mp hb
          obtain ⟨input₃, hfooter, hb⟩ := Result.bind_eq_ok.mp hb
          cases hb
          rw [hskip, Result.ok_bind, hfooter]
          exact ⟨s, rfl, h⟩

/-- The first block of a file is a section header, so that the state it is met
in does not matter. -/
theorem nextBlock_new_shifted (hb : nextBlock Reader.new input = .ok (b, r', rest)) (s : Reader) :
    ∃ s', nextBlock s input = .ok (b.shift (UInt64.ofNat s.nextSourceId.toNat), s', rest) ∧
      Shifted s.nextSourceId.toNat s.incomplete r' s' := by
  unfold nextBlock at hb ⊢
  obtain ⟨⟨header, input₁⟩, hheader, hb⟩ := Result.bind_eq_ok.mp hb
  rw [hheader, Result.ok_bind]
  dsimp only at hb ⊢
  split at hb
  · rename_i hsec
    rw [if_pos hsec]
    exact readSection_shifted hb (Nat.zero_add _).symm (Nat.zero_add _).symm
  · obtain ⟨hin, _⟩ := ensure_bind_eq_ok.mp hb
    cases hin

end

/-! ## Runs -/

section
variable {k d : Nat} {r r' s : Reader} {input : Bytes} {blocks : List Block}

/-- A rule for runs to the end of the input, block by block. -/
theorem ReadsFrom.rule {P : Reader → Bytes → List Block → Prop} (hend : P r' [] [])
    (hstep : ∀ r input b r₁ rest blocks, nextBlock r input = .ok (b, r₁, rest) → input ≠ [] →
      ReadsFrom r₁ rest blocks r' → P r₁ rest blocks → P r input (b :: blocks))
    (h : ReadsFrom r input blocks r') : P r input blocks := by
  induction blocks generalizing r input with
  | nil =>
    by_cases hne : input = []
    · subst hne
      obtain ⟨_, rfl⟩ := readsFrom_nil.mp h
      exact hend
    · obtain ⟨_, _, _, _, hnil⟩ := (readsFrom_cons hne).mp h
      cases hnil
  | cons b blocks ih =>
    by_cases hne : input = []
    · subst hne
      cases (readsFrom_nil.mp h).1
    · obtain ⟨⟨b', r₁, rest⟩, blocks', hb, hrest, heq⟩ := (readsFrom_cons hne).mp h
      cases heq
      exact hstep _ _ _ _ _ _ hb hne hrest (ih hrest)

/-- What a run takes, it takes whatever follows. -/
theorem ReadsFrom.consumes (h : ReadsFrom r input blocks r') : Consumes r input True blocks r' := by
  refine ReadsFrom.rule (P := fun r input blocks => Consumes r input True blocks r')
    (Consumes.nil r') ?_ h
  intro r input b r₁ rest blocks hb hne _ ih
  obtain ⟨_, hsize, htook, _⟩ := nextBlock_framed hb
  have hle := htook.le
  have hfirst : Consumes r (input.take (u32 (frameOrder r.endian input) 4 input).toNat) True [b] r₁ := by
    refine Consumes.block (fun hnil => ?_) fun g res => ?_
    · have hlen := congrArg List.length hnil
      rw [List.length_take, min_eq_left hle, List.length_nil] at hlen
      omega
    · rw [htook.same]
      simp [eq_comm]
  rw [htook.left] at ih
  have hall := hfirst.append ih
  rwa [List.take_append_drop, and_true] at hall

/-- Every interface block of a run counts as a source. -/
theorem ReadsFrom.sources (h : ReadsFrom r input blocks r') :
    r'.nextSourceId.toNat = r.nextSourceId.toNat + blocks.count .interface ∧
      blocks.length ≤ input.length := by
  refine ReadsFrom.rule (P := fun r input blocks => r'.nextSourceId.toNat =
    r.nextSourceId.toNat + blocks.count .interface ∧ blocks.length ≤ input.length)
    ⟨rfl, le_rfl⟩ ?_ h
  intro r input b r₁ rest blocks hb hne _ ih
  obtain ⟨_, hsize, htook, _⟩ := nextBlock_framed hb
  refine ⟨?_, ?_⟩
  · rw [ih.1, List.count_cons]
    cases nextBlock_moves hb with
    | interface i hsource hnext =>
      dsimp only
      rw [UInt64.toNat_add, Nat.mod_eq_of_lt (show r.nextSourceId.toNat + (1 : UInt64).toNat < _ from hnext)]
      simp
      omega
    | sectionHeader => simp
    | unknown => simp
    | truncated => simp
    | lost => simp
    | delivered => simp
  · have hlen := ih.2
    have hle := htook.le
    rw [htook.left, List.length_drop] at hlen
    rw [List.length_cons]
    omega

theorem ReadsFrom.shifted (h : ReadsFrom r input blocks r') (hs : Shifted k d r s)
    (hroom : r'.nextSourceId.toNat + k < 2 ^ 64) :
    ∃ s', ReadsFrom s input (blocks.map (Block.shift (UInt64.ofNat k))) s' ∧ Shifted k d r' s' := by
  refine ReadsFrom.rule (P := fun r input blocks => ∀ s, Shifted k d r s →
    ∃ s', ReadsFrom s input (blocks.map (Block.shift (UInt64.ofNat k))) s' ∧ Shifted k d r' s')
    (fun s hs => ⟨s, readsFrom_nil.mpr ⟨rfl, rfl⟩, hs⟩) ?_ h s hs
  intro r input b r₁ rest blocks hb hne hrest ih s hs
  have hsources := hrest.sources.1
  obtain ⟨s₁, hb', hs₁⟩ := nextBlock_shifted hs hb (by omega)
  obtain ⟨s', hrest', hs'⟩ := ih s₁ hs₁
  exact ⟨s', (readsFrom_cons hne).mpr ⟨_, _, hb', hrest', rfl⟩, hs'⟩

/-- A file is read after another one as it is read alone. -/
theorem reads_shifted (h : Reads input blocks r) (s : Reader)
    (hroom : r.nextSourceId.toNat + s.nextSourceId.toNat < 2 ^ 64) :
    ∃ s', ReadsFrom s input (blocks.map (Block.shift (UInt64.ofNat s.nextSourceId.toNat))) s' ∧
      s'.incomplete = r.incomplete + s.incomplete := by
  by_cases hne : input = []
  · subst hne
    obtain ⟨rfl, rfl⟩ := readsFrom_nil.mp h
    exact ⟨s, readsFrom_nil.mpr ⟨rfl, rfl⟩, (Nat.zero_add _).symm⟩
  · obtain ⟨⟨b, r₁, rest⟩, blocks, hb, hrest, rfl⟩ := (readsFrom_cons hne).mp h
    obtain ⟨s₁, hb', hs₁⟩ := nextBlock_new_shifted hb s
    obtain ⟨s', hrest', hs'⟩ := hrest.shifted hs₁ hroom
    exact ⟨s', (readsFrom_cons hne).mpr ⟨_, _, hb', hrest', rfl⟩, hs'.incomplete⟩

end

/-- The interface blocks of a file. -/
def interfaceFrames (input : Bytes) : List Frame := (framesOf input).filter fun f => f.kind = 1

theorem length_interfaceFrames {input : Bytes} {blocks : List Block} {r : Reader}
    (h : Reads input blocks r) : (interfaceFrames input).length = r.nextSourceId.toNat := by
  have hcount : ∀ {fs : List Frame} {blocks : List Block}, List.Forall₂ Describes fs blocks →
      (fs.filter fun f => f.kind = 1).length = blocks.count .interface := by
    intro fs blocks hall
    induction hall with
    | nil => rfl
    | @cons f b fs blocks hfb _ ih =>
      have hiff : f.kind = 1 ↔ b = .interface := by
        cases b with
        | sectionHeader =>
          rw [show f.kind = 0x0a0d0d0a from hfb]
          decide
        | interface => exact ⟨fun _ => rfl, fun _ => hfb⟩
        | unknown => exact ⟨fun hk => absurd hk hfb.1, fun h => by cases h⟩
        | packet p e =>
          rw [hfb.1]
          exact ⟨fun h => absurd h (by decide), fun h => by cases h⟩
      by_cases hk : f.kind = 1
      · rw [List.filter_cons_of_pos (by simpa using hk), hiff.mp hk, List.count_cons_self,
          List.length_cons, ih]
      · rw [List.filter_cons_of_neg (by simpa using hk),
          List.count_cons_of_ne (fun h => hk (hiff.mpr h)), ih]
  rw [interfaceFrames, hcount h.framed, (ReadsFrom.sources h).1]
  exact (Nat.zero_add _).symm

/-- **Section isolation.** Two files that can be read can be read one after the
other: the events of both, the second file's sources counted on from the
interfaces of the first. No byte string is longer than memory, so the sources
can always be counted. -/
theorem sections_isolated {f g : Bytes} {bf bg : List Block} {rf rg : Reader}
    (hf : Reads f bf rf) (hg : Reads g bg rg) (hlen : (f ++ g).length < 2 ^ 64) :
    ∃ blocks r, Reads (f ++ g) blocks r ∧
      delivered blocks = delivered bf ++
        (delivered bg).map (shiftEvent (UInt64.ofNat (interfaceFrames f).length)) ∧
      r.incomplete = rf.incomplete + rg.incomplete := by
  have hsf := ReadsFrom.sources hf
  have hsg := ReadsFrom.sources hg
  have hbf := List.count_le_length (a := Block.interface) (l := bf)
  have hbg := List.count_le_length (a := Block.interface) (l := bg)
  rw [List.length_append] at hlen
  have hzero : Reader.new.nextSourceId.toNat = 0 := rfl
  obtain ⟨r, hread, hincomplete⟩ := reads_shifted hg rf (by omega)
  refine ⟨bf ++ bg.map (Block.shift (UInt64.ofNat rf.nextSourceId.toNat)), r, ?_, ?_, ?_⟩
  · exact (ReadsFrom.consumes hf g _ r).mpr ⟨trivial, _, hread, rfl⟩
  · rw [length_interfaceFrames hf, delivered, List.filterMap_append]
    exact congrArg (delivered bf ++ ·) (delivered_shift _ bg)
  · rw [hincomplete, Nat.add_comm]

theorem sections_isolated_stale : ∃ blocks r, Reads (staleFile ++ staleFile) blocks r ∧
    delivered blocks = delivered staleBlocks ++
      (delivered staleBlocks).map (shiftEvent (UInt64.ofNat (interfaceFrames staleFile).length)) := by
  obtain ⟨r, hread⟩ := readBlocks_of_blocksOf (show blocksOf 5 staleFile = some staleBlocks by
    decide +kernel)
  obtain ⟨blocks, r', hboth, hdelivered, _⟩ :=
    sections_isolated ⟨5, hread⟩ ⟨5, hread⟩ (by decide +kernel)
  exact ⟨blocks, r', hboth, hdelivered⟩

end UsbScope.Pcapng
