import UsbScope.App.KernelConfig
import UsbScope.Ebpf.Shadow
import UsbScope.Filter.Numbers

/-! # Symbols of the running kernel

The completion hook accepts callers by their return address. `kernel_addresses`
finds the range of the one function whose calls come after DMA is unmapped; a
return address lies in this range exactly when that function is the nearest
symbol below it. -/
namespace UsbScope.App.KernelSymbols
open UsbScope.Lib UsbScope.Common UsbScope.Ebpf UsbScope.App.KernelConfig

/-! ## `kernel_addresses` -/

/-- `str::split_whitespace`. -/
def words (text : List Char) : List (List Char) :=
  (text.splitOnP Filter.isWhitespace).filter fun word => word ≠ []

/-- `u64::from_str_radix(_, 16)`. -/
def parseAddress (text : List Char) : Option UInt64 :=
  (Filter.inRange 0 (2 ^ 64 - 1) (Filter.fromStrRadix 16 false text)).map fun v =>
    UInt64.ofNat v.toNat

/-- A line of `/proc/kallsyms`, if it is about a function. -/
def parseFunction (line : List Char) : Option (UInt64 × String) :=
  match words line with
  | address :: kind :: name :: _ => do
    let address ← parseAddress address
    if kind = ['t'] ∨ kind = ['T'] then some (address, String.ofList name) else none
  | _ => none

def functionsOf (symbols : String) : List (UInt64 × String) :=
  (lines symbols.toList).filterMap parseFunction

/-- `variable`: the address of the first symbol of a name, if it can be read. -/
def variableOf (arch : Arch) (symbols name : String) : UInt64 :=
  match arch with
  | .arm64 => 0
  | .x86 =>
    ((lines symbols.toList).findSome? fun line =>
      match words line with
      | address :: _ :: found :: _ =>
        if String.ofList found = name then parseAddress address else none
      | _ => none).getD 0

def givebackName : String := "__usb_hcd_giveback_urb"

/-- The range of the function, and the two variables. -/
structure Addresses where
  givebackStart : UInt64
  givebackEnd : UInt64
  vmemmapBase : UInt64
  pageOffsetBase : UInt64
deriving DecidableEq

def kernelAddresses (arch : Arch) (symbols : String) : Result Addresses := do
  let functions := functionsOf symbols
  let start ← context
    (((functions.find? fun f => f.2 = givebackName).map Prod.fst).filter fun address => address ≠ 0)
    "__usb_hcd_giveback_urb address unavailable; readable kallsyms is required"
  let stop ← context
    ((functions.filterMap fun f => if start < f.1 then some f.1 else none).min?)
    "cannot determine completion function boundary"
  .ok ⟨start, stop, variableOf arch symbols "vmemmap_base", variableOf arch symbols "page_offset_base"⟩

/-! ## Listings -/

/-- A symbol as `/proc/kallsyms` lists it. -/
structure Entry where
  digits : List (Fin 16)
  kind : Char
  name : List Char
  /-- The module of the symbol, behind a tabulator. -/
  origin : List Char
  digits_ne : digits ≠ []
  fits : Filter.Numeral.digitsValue 16 (digits.map Fin.val) < 2 ^ 64
  kind_plain : Filter.isWhitespace kind = false
  name_ne : name ≠ []
  name_plain : ∀ c ∈ name, Filter.isWhitespace c = false
  origin_tab : origin = [] ∨ ∃ rest, origin = '\t' :: rest
  origin_line : '\n' ∉ origin ∧ origin.getLast? ≠ some '\r'

namespace Entry

def addressText (e : Entry) : List Char := e.digits.map fun d : Fin 16 => Filter.digitChar false d

def text (e : Entry) : List Char := e.addressText ++ ' ' :: [e.kind] ++ ' ' :: e.name ++ e.origin

def address (e : Entry) : UInt64 :=
  UInt64.ofNat (Filter.Numeral.digitsValue 16 (e.digits.map Fin.val))

/-- The entry, if it is about a function. -/
def function (e : Entry) : Option (UInt64 × String) :=
  if e.kind = 't' ∨ e.kind = 'T' then some (e.address, String.ofList e.name) else none

end Entry

def listing (entries : List Entry) : String :=
  String.ofList (entries.flatMap fun e => e.text ++ ['\n'])

/-- A line without a line break is taken to its end. -/
theorem linesFrom_append {line : List Char} (h : '\n' ∉ line) (start rest : List Char) :
    linesFrom start (line ++ rest) = linesFrom (line.reverse ++ start) rest := by
  induction line generalizing start with
  | nil => rfl
  | cons c tail ih =>
    have hc : c ≠ '\n' := fun heq => h (heq ▸ List.mem_cons_self)
    have htail := ih (fun hmem => h (List.mem_cons_of_mem _ hmem)) (c :: start)
    rw [List.cons_append, List.reverse_cons, List.append_assoc, List.singleton_append, ← htail]
    conv => lhs; unfold linesFrom
    exact if_neg hc

theorem linesFrom_break {line : List Char} (h : line.getLast? ≠ some '\r') (rest : List Char) :
    linesFrom line.reverse ('\n' :: rest) = line :: linesFrom [] rest := by
  conv => lhs; unfold linesFrom
  rw [if_pos rfl]
  congr 1
  split
  · rename_i front hfront
    refine absurd ?_ h
    rw [← List.head?_reverse, hfront]
    rfl
  · exact List.reverse_reverse line

theorem lines_flatMap {entries : List (List Char)}
    (h : ∀ line ∈ entries, '\n' ∉ line ∧ line.getLast? ≠ some '\r') :
    lines (entries.flatMap fun line => line ++ ['\n']) = entries := by
  induction entries with
  | nil => rfl
  | cons line rest ih =>
    obtain ⟨hbreak, hreturn⟩ := h line List.mem_cons_self
    have htail := ih fun l hl => h l (List.mem_cons_of_mem _ hl)
    rw [lines] at htail ⊢
    rw [List.flatMap_cons, List.append_assoc, linesFrom_append hbreak, List.append_nil,
      List.singleton_append, linesFrom_break hreturn, htail]

theorem words_cons {word rest : List Char} {c : Char} (hne : word ≠ [])
    (hword : ∀ c ∈ word, Filter.isWhitespace c = false) (hc : Filter.isWhitespace c = true) :
    words (word ++ c :: rest) = word :: words rest := by
  rw [words, List.splitOnP_append_cons_of_forall_mem hword c hc,
    List.filter_cons_of_pos (by simpa using hne)]
  rfl

theorem words_single {word : List Char} (hne : word ≠ [])
    (hword : ∀ c ∈ word, Filter.isWhitespace c = false) : words word = [word] := by
  rw [words, List.splitOnP_eq_singleton hword, List.filter_cons_of_pos (by simpa using hne),
    List.filter_nil]

theorem Entry.addressText_plain (e : Entry) :
    ∀ c ∈ e.addressText, Filter.isWhitespace c = false ∧ c ≠ '+' ∧ c ≠ '-' := by
  intro c hc
  obtain ⟨d, -, rfl⟩ := List.mem_map.mp hc
  have hplain := Filter.plain_hex d false
  have hword := (Bool.and_eq_true_iff.mp hplain.2).1
  exact ⟨by simpa using hword, hplain.ne (by decide), hplain.ne (by decide)⟩

theorem Entry.parseAddress_text (e : Entry) : parseAddress e.addressText = some e.address := by
  have hvalue := Filter.digits_map (fun d : Fin 16 => Filter.toDigit_hex d false) e.digits_ne
  have hparse : Filter.fromStrRadix 16 false e.addressText =
      some (Filter.Numeral.digitsValue 16 (e.digits.map Fin.val) : Int) := by
    rw [Filter.fromStrRadix_plain fun c hc => (e.addressText_plain c hc).2, addressText, hvalue]
    rfl
  have hfits := e.fits
  rw [parseAddress, hparse, Filter.inRange, Option.filter_some, if_pos]
  · rfl
  · rw [decide_eq_true_eq]
    omega

theorem Entry.parseFunction_text (e : Entry) : parseFunction e.text = e.function := by
  have hspace : Filter.isWhitespace ' ' = true := by decide
  have haddress : e.addressText ≠ [] := by
    rw [addressText, Ne, List.map_eq_nil_iff]
    exact e.digits_ne
  have hkind : ∀ c ∈ [e.kind], Filter.isWhitespace c = false := by
    intro c hc
    rw [List.mem_singleton.mp hc]
    exact e.kind_plain
  obtain ⟨more, hname⟩ : ∃ more, words (e.name ++ e.origin) = e.name :: more := by
    rcases e.origin_tab with hnil | ⟨rest, hrest⟩
    · rw [hnil, List.append_nil]
      exact ⟨[], words_single e.name_ne e.name_plain⟩
    · rw [hrest]
      exact ⟨_, words_cons e.name_ne e.name_plain (by decide)⟩
  have hwords : words e.text = e.addressText :: [e.kind] :: e.name :: more := by
    have htext : e.text = e.addressText ++ ' ' :: ([e.kind] ++ ' ' :: (e.name ++ e.origin)) := by
      simp [text]
    rw [htext, words_cons haddress (fun c hc => (e.addressText_plain c hc).1) hspace,
      words_cons (List.cons_ne_nil _ _) hkind hspace, hname]
  rw [parseFunction, hwords]
  dsimp only
  rw [e.parseAddress_text, function]
  simp

/-- An entry is one line. -/
theorem Entry.text_line (e : Entry) : '\n' ∉ e.text ∧ e.text.getLast? ≠ some '\r' := by
  have hplain : ∀ c, Filter.isWhitespace c = false → c ≠ '\n' ∧ c ≠ '\r' := by
    intro c hc
    constructor
    · rintro rfl
      cases hc
    · rintro rfl
      cases hc
  constructor
  · intro hmem
    simp only [text, List.mem_append, List.mem_cons, List.not_mem_nil, or_false] at hmem
    rcases hmem with ((haddress | hspace | hkind) | hspace | hname) | horigin
    · exact (hplain _ (e.addressText_plain _ haddress).1).1 rfl
    · cases hspace
    · exact (hplain _ e.kind_plain).1 hkind.symm
    · cases hspace
    · exact (hplain _ (e.name_plain _ hname)).1 rfl
    · exact e.origin_line.1 horigin
  · have htext : e.text = (e.addressText ++ [' ', e.kind, ' ']) ++ e.name ++ e.origin := by simp [text]
    rw [htext, List.getLast?_append, List.getLast?_append]
    intro hlast
    cases horigin : e.origin.getLast? with
    | some c =>
      rw [horigin, Option.some_or] at hlast
      exact e.origin_line.2 (horigin.trans hlast)
    | none =>
      rw [horigin, Option.none_or, List.getLast?_eq_some_getLast e.name_ne, Option.some_or] at hlast
      exact (hplain _ (e.name_plain _ (List.getLast_mem e.name_ne))).2 (Option.some.inj hlast)

/-- What is read of a listing are its functions. -/
theorem functionsOf_listing (entries : List Entry) :
    functionsOf (listing entries) = entries.filterMap Entry.function := by
  have hlines : ∀ line ∈ entries.map Entry.text, '\n' ∉ line ∧ line.getLast? ≠ some '\r' := by
    intro line hline
    obtain ⟨e, -, rfl⟩ := List.mem_map.mp hline
    exact e.text_line
  have hflat : (entries.flatMap fun e => e.text ++ ['\n']) =
      (entries.map Entry.text).flatMap fun line => line ++ ['\n'] := by
    rw [List.flatMap_map]
  rw [functionsOf, listing, String.toList_ofList, hflat, lines_flatMap hlines, List.filterMap_map]
  congr 1
  funext e
  exact e.parseFunction_text

/-! ## What the range means -/

/-- The function at `start` is the nearest below the address, and there is another
above it. -/
structure Within (functions : List (UInt64 × String)) (start address : UInt64) : Prop where
  above : start ≤ address
  nearest : ∀ f ∈ functions, f.1 ≤ address → f.1 ≤ start
  below : ∃ f ∈ functions, address < f.1

instance (functions : List (UInt64 × String)) (start address : UInt64) :
    Decidable (Within functions start address) :=
  decidable_of_iff (start ≤ address ∧ (∀ f ∈ functions, f.1 ≤ address → f.1 ≤ start) ∧
    ∃ f ∈ functions, address < f.1)
    ⟨fun h => ⟨h.1, h.2.1, h.2.2⟩, fun h => ⟨h.above, h.nearest, h.below⟩⟩

/-- What the addresses found say of the symbols. -/
structure Found (functions : List (UInt64 × String)) (a : Addresses) : Prop where
  named : (a.givebackStart, givebackName) ∈ functions
  nonzero : a.givebackStart ≠ 0
  window : ∀ address, a.givebackStart ≤ address ∧ address < a.givebackEnd ↔
    Within functions a.givebackStart address

/-- The least address above `start` ends its range. -/
theorem within_iff {functions : List (UInt64 × String)} {start stop : UInt64}
    (h : (functions.filterMap fun f => if start < f.1 then some f.1 else none).min? = some stop)
    (address : UInt64) : start ≤ address ∧ address < stop ↔ Within functions start address := by
  have hmem : ∀ x, x ∈ (functions.filterMap fun f => if start < f.1 then some f.1 else none) ↔
      ∃ f ∈ functions, start < f.1 ∧ f.1 = x := by
    intro x
    rw [List.mem_filterMap]
    refine exists_congr fun f => and_congr_right fun _ => ?_
    split <;> simp_all
  obtain ⟨hstop, hleast⟩ := List.min?_eq_some_iff.mp h
  obtain ⟨g, hg, hlow, rfl⟩ := (hmem stop).mp hstop
  constructor
  · rintro ⟨habove, hbelow⟩
    refine ⟨habove, fun f hf hle => ?_, g, hg, hbelow⟩
    by_contra hlt
    have hnext := hleast f.1 ((hmem _).mpr ⟨f, hf, UInt64.not_le.mp hlt, rfl⟩)
    exact absurd hbelow (UInt64.not_lt.mpr (UInt64.le_trans hnext hle))
  · intro hwithin
    refine ⟨hwithin.above, ?_⟩
    by_contra hlt
    have hle := hwithin.nearest g hg (UInt64.not_lt.mp hlt)
    exact absurd hlow (UInt64.not_lt.mpr hle)

theorem found_of_kernelAddresses {arch : Arch} {symbols : String} {a : Addresses}
    (h : kernelAddresses arch symbols = .ok a) : Found (functionsOf symbols) a := by
  unfold kernelAddresses at h
  dsimp only at h
  obtain ⟨start, hstart, h⟩ := Result.bind_eq_ok.mp h
  obtain ⟨stop, hstop, h⟩ := Result.bind_eq_ok.mp h
  cases h
  obtain ⟨hfirst, hzero⟩ := Option.filter_eq_some_iff.mp (context_eq_ok.mp hstart)
  obtain ⟨⟨address, name⟩, hfind, rfl⟩ := Option.map_eq_some_iff.mp hfirst
  have hname := List.find?_some hfind
  obtain rfl : name = givebackName := of_decide_eq_true hname
  exact ⟨List.mem_of_find?_eq_some hfind, of_decide_eq_true hzero, within_iff (context_eq_ok.mp hstop)⟩

/-! ## Callers of the completion hook -/

/-- The scene with the range that `capture` writes to `CONFIG`. -/
def watch (a : Addresses) (scene : Scene) : Scene :=
  { scene with
    config := { scene.config with givebackStart := a.givebackStart, givebackEnd := a.givebackEnd } }

/-- A completion that is not called from the function at `start`. -/
def foreign (functions : List (UInt64 × String)) (start : UInt64) : Hook → Bool
  | .complete caller _ => !decide (Within functions start caller)
  | _ => false

section

variable {functions : List (UInt64 × String)} {a : Addresses} {scene : Scene} {s : Tracker}

/-- A foreign call leaves everything as it is. -/
theorem step_foreign (h : Found functions a) {hook : Hook}
    (hforeign : foreign functions a.givebackStart hook = true) :
    s.step (watch a scene, hook) = (s, []) := by
  cases hook with
  | complete caller address =>
    have hout : ¬ Within functions a.givebackStart caller := by simpa [foreign] using hforeign
    rw [← h.window, not_and_or, UInt64.not_le, UInt64.not_lt] at hout
    change Tracker.complete (watch a scene) caller address s = (s, [])
    unfold Tracker.complete
    exact if_pos hout
  | submit address => cases hforeign
  | submitError address ret => cases hforeign
  | giveback address => cases hforeign

/-- A call of the function completes the URB if its giveback has been seen. -/
theorem step_within (h : Found functions a) {caller address : UInt64} {state : State}
    (hstate : s.inflight[address]? = some state) (hready : state.ready ≠ 0) :
    Within functions a.givebackStart caller ↔
      ∃ t x, s.step (watch a scene, .complete caller (some address)) =
        (t, [.emitted address x]) ∧ x.call.urbId = state.id ∧ x.call.eventType = completeType ∧
          t.inflight = s.inflight.erase address := by
  constructor
  · intro hwithin
    obtain ⟨habove, hbelow⟩ := (h.window caller).mpr hwithin
    have hin : ¬ (caller < a.givebackStart ∨ a.givebackEnd ≤ caller) := by
      rw [not_or, UInt64.not_lt, UInt64.not_le]
      exact ⟨habove, hbelow⟩
    simp only [Tracker.step, Tracker.complete, watch, if_neg hin, hstate, if_neg hready]
    exact ⟨_, _, rfl, rfl, rfl, rfl⟩
  · rintro ⟨t, x, hstep, -⟩
    by_contra hout
    rw [step_foreign h (by simpa [foreign] using hout)] at hstep
    cases hstep

/-- A run is a run without its foreign calls. -/
theorem run_without_foreign (h : Found functions a) (steps : List (Scene × Hook)) (s : Tracker) :
    s.run (loaded (watch a) steps) =
      s.run (loaded (watch a) (steps.filter fun x => !foreign functions a.givebackStart x.2)) := by
  induction steps generalizing s with
  | nil => rfl
  | cons x rest ih =>
    have hcons : ∀ l, loaded (watch a) (x :: l) = (watch a x.1, x.2) :: loaded (watch a) l := fun _ => rfl
    cases hforeign : foreign functions a.givebackStart x.2 with
    | true =>
      rw [List.filter_cons_of_neg (by simp [hforeign]), hcons, Tracker.run, Trace.run_cons,
        step_foreign h hforeign]
      exact ih s
    | false =>
      rw [List.filter_cons_of_pos (by simp [hforeign]), hcons, hcons, Tracker.run, Tracker.run,
        Trace.run_cons, Trace.run_cons]
      rw [← Tracker.run, ← Tracker.run, ih]

end

/-- **Only the function itself completes URBs.** The addresses found in a listing
of the symbols select, of all calls of the completion hook, those whose return
address has `__usb_hcd_giveback_urb` as the nearest function below it. No other
call changes a run, and none of these is passed over. -/
theorem only_giveback_completes {arch : Arch} {entries : List Entry} {a : Addresses}
    (h : kernelAddresses arch (listing entries) = .ok a) :
    ((a.givebackStart, givebackName) ∈ entries.filterMap Entry.function ∧ a.givebackStart ≠ 0) ∧
    (∀ (s : Tracker) (steps : List (Scene × Hook)), s.run (loaded (watch a) steps) =
      s.run (loaded (watch a)
        (steps.filter fun x => !foreign (entries.filterMap Entry.function) a.givebackStart x.2))) ∧
    ∀ (s : Tracker) (scene : Scene) (caller address : UInt64) (state : State),
      s.inflight[address]? = some state → state.ready ≠ 0 →
        (Within (entries.filterMap Entry.function) a.givebackStart caller ↔
          ∃ t x, s.step (watch a scene, .complete caller (some address)) =
            (t, [.emitted address x]) ∧ x.call.urbId = state.id ∧ x.call.eventType = completeType ∧
              t.inflight = s.inflight.erase address) := by
  have hfound := found_of_kernelAddresses h
  rw [functionsOf_listing] at hfound
  refine ⟨⟨hfound.named, hfound.nonzero⟩, fun s steps => run_without_foreign hfound steps s, ?_⟩
  intro s scene caller address state hstate hready
  exact step_within hfound hstate hready

/-- A text symbol at the address `16 * high + 1`. -/
def someEntry (high : Fin 16) (name : List Char) (hne : name ≠ [])
    (hplain : name.all (fun c => !Filter.isWhitespace c) = true) : Entry where
  digits := [high, 1]
  kind := 't'
  name
  origin := []
  digits_ne := List.cons_ne_nil _ _
  fits := by
    have hlt := high.isLt
    simp only [Filter.Numeral.digitsValue, List.map_cons, List.map_nil, List.foldl_cons, List.foldl_nil]
    omega
  kind_plain := rfl
  name_ne := hne
  name_plain := fun c hc => by simpa using List.all_eq_true.mp hplain c hc
  origin_tab := .inl rfl
  origin_line := ⟨List.not_mem_nil, by decide⟩

def someName : List Char :=
  ['_', '_', 'u', 's', 'b', '_', 'h', 'c', 'd', '_', 'g', 'i', 'v', 'e', 'b', 'a', 'c',
    'k', '_', 'u', 'r', 'b']

/-- The function and the one behind it. -/
def someEntries : List Entry :=
  [someEntry 3 someName (List.cons_ne_nil _ _) rfl,
    someEntry 5 ['u', 's', 'b'] (List.cons_ne_nil _ _) rfl]

theorem only_giveback_completes_some :
    kernelAddresses .x86 (listing someEntries) = .ok ⟨49, 81, 0, 0⟩ ∧
      ((49, givebackName) ∈ someEntries.filterMap Entry.function ∧ (49 : UInt64) ≠ 0) := by
  have h : kernelAddresses .x86 (listing someEntries) = .ok ⟨49, 81, 0, 0⟩ := by decide +kernel
  exact ⟨h, (only_giveback_completes h).1⟩

end UsbScope.App.KernelSymbols
