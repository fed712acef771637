import UsbScope.Lib.Machine
import UsbScope.Lib.Parser

/-! # Reading one item after another

`feed` reads items off the front of its input and hands them to a taker, until
the input ends or cannot be read, or the taker has enough or fails. A local
reader sees nothing behind the item that it reads. So it reads items wherever
they stand (`feed_items`), and of an input that is cut anywhere it reads those
that are whole and no others (`feed_cut`). -/
namespace UsbScope.Lib.Stream

variable {S O T : Type}

inductive Ending where
  | ended
  /-- The taker has enough. -/
  | stopped
  /-- The next item cannot be read. -/
  | unread (message : String)
  /-- The taker failed. -/
  | refused (message : String)
deriving DecidableEq

/-- What the taker has, the reader, and how the loop ended. -/
structure Fed (S T : Type) where
  taken : T
  reader : S
  ending : Ending

/-- The next item with the input behind it, or nothing at the end. -/
abbrev Next (S O : Type) := S → Bytes → Result (Option (O × S × Bytes))

/-- Items in the order of the input. The fuel is more than there are items. -/
def feed (next : Next S O) (take : T → O → Result (T × Bool)) : Nat → S → Bytes → T → Fed S T
  | 0, s, _, t => ⟨t, s, .unread "the input does not get shorter"⟩
  | fuel + 1, s, input, t =>
    match next s input with
    | .error message => ⟨t, s, .unread message⟩
    | .ok none => ⟨t, s, .ended⟩
    | .ok (some (o, s', rest)) =>
      match take t o with
      | .error message => ⟨t, s', .refused message⟩
      | .ok (t', true) => ⟨t', s', .stopped⟩
      | .ok (t', false) => feed next take fuel s' rest t'

/-- An item, the bytes it is read from, and the reader behind it. -/
structure Item (S O : Type) where
  out : O
  bytes : Bytes
  after : S

/-- The taker alone, on items that have been read. -/
def offer (take : T → O → Result (T × Bool)) : S → List (Item S O) → T → Fed S T
  | s, [], t => ⟨t, s, .ended⟩
  | _, item :: rest, t =>
    match take t item.out with
    | .error message => ⟨t, item.after, .refused message⟩
    | .ok (t', true) => ⟨t', item.after, .stopped⟩
    | .ok (t', false) => offer take item.after rest t'

/-- The end of the items is no end of the input. -/
def Fed.andThen (fed : Fed S T) (ending : Ending) : Fed S T :=
  if fed.ending = .ended then { fed with ending } else fed

/-- The taker alone, without a reader. -/
def hand (take : T → O → Result (T × Bool)) : T → List O → T × Ending
  | t, [] => (t, .ended)
  | t, o :: rest =>
    match take t o with
    | .error message => (t, .refused message)
    | .ok (t', true) => (t', .stopped)
    | .ok (t', false) => hand take t' rest

/-- What is handed on before an input ends or cannot be read. -/
def handed (take : T → O → Result (T × Bool)) (t : T) (events : List O) (ending : Ending) : T × Ending :=
  match hand take t events with
  | (t, .ended) => (t, ending)
  | r => r

/-! ## Local readers -/

/-- The reader takes the bytes of the item, whatever comes behind them. -/
structure Takes (next : Next S O) (s : S) (item : Item S O) : Prop where
  ne_nil : item.bytes ≠ []
  same : ∀ rest, next s (item.bytes ++ rest) = .ok (some (item.out, item.after, rest))

/-- The reader ends at the end of the input only, and takes items from the front. -/
structure Local (next : Next S O) : Prop where
  ends : ∀ s input, next s input = .ok none ↔ input = []
  takes : ∀ s input o s' rest, next s input = .ok (some (o, s', rest)) →
    ∃ bytes, input = bytes ++ rest ∧ Takes next s ⟨o, bytes, s'⟩

/-- The reader takes these items one after another. -/
inductive Chops (next : Next S O) : S → List (Item S O) → Prop where
  | nil (s : S) : Chops next s []
  | cons {s : S} {item : Item S O} {items : List (Item S O)} (h : Takes next s item)
      (hrest : Chops next item.after items) : Chops next s (item :: items)

def bytesOf (items : List (Item S O)) : Bytes := items.flatMap Item.bytes

def behind : S → List (Item S O) → S
  | s, [] => s
  | _, item :: rest => behind item.after rest

@[simp] theorem bytesOf_nil : bytesOf ([] : List (Item S O)) = [] := rfl

@[simp] theorem bytesOf_cons (item : Item S O) (items : List (Item S O)) :
    bytesOf (item :: items) = item.bytes ++ bytesOf items := List.flatMap_cons

section

variable {next : Next S O} {take : T → O → Result (T × Bool)} {s : S} {item : Item S O}
  {items : List (Item S O)}

theorem feed_takes (h : Takes next s item) (fuel : Nat) (rest : Bytes) (t : T) :
    feed next take (fuel + 1) s (item.bytes ++ rest) t =
      match take t item.out with
      | .error message => ⟨t, item.after, .refused message⟩
      | .ok (t', true) => ⟨t', item.after, .stopped⟩
      | .ok (t', false) => feed next take fuel item.after rest t' := by
  rw [feed, h.same]

theorem feed_items (h : Chops next s items) (fuel : Nat) (rest : Bytes) (t : T) :
    feed next take (items.length + fuel) s (bytesOf items ++ rest) t =
      if (offer take s items t).ending = .ended then
        feed next take fuel (behind s items) rest (offer take s items t).taken
      else offer take s items t := by
  induction h generalizing t with
  | nil s => rw [List.length_nil, Nat.zero_add, bytesOf_nil, List.nil_append, offer, if_pos rfl, behind]
  | @cons s item items h _ ih =>
    have hfuel : (item :: items).length + fuel = (items.length + fuel) + 1 := by
      rw [List.length_cons]
      omega
    rw [hfuel, bytesOf_cons, List.append_assoc, feed_takes h, offer, behind]
    cases take t item.out with
    | error message => rfl
    | ok res =>
      obtain ⟨t', stop⟩ := res
      cases stop with
      | true => rfl
      | false => exact ih t'

/-- Nothing shorter than an item is read as one. -/
theorem Takes.short (hlocal : Local next) (h : Takes next s item) {n : Nat} (hpos : 0 < n)
    (hn : n < item.bytes.length) : ∃ message, next s (item.bytes.take n) = .error message := by
  have hne : item.bytes.take n ≠ [] := by
    intro hnil
    have hlen := congrArg List.length hnil
    rw [List.length_take, List.length_nil] at hlen
    omega
  cases hnext : next s (item.bytes.take n) with
  | error message => exact ⟨message, rfl⟩
  | ok res =>
    cases res with
    | none => exact absurd ((hlocal.ends _ _).mp hnext) hne
    | some found =>
      obtain ⟨o, s', rest⟩ := found
      obtain ⟨front, hsplit, hfront⟩ := hlocal.takes _ _ _ _ _ hnext
      -- what is found would also be found in the whole item, and be too short
      have hwhole : front ++ (rest ++ item.bytes.drop n) = item.bytes := by
        rw [← List.append_assoc, ← hsplit, List.take_append_drop]
      have hsame := hfront.same (rest ++ item.bytes.drop n)
      have hbytes := h.same []
      rw [List.append_nil] at hbytes
      rw [hwhole, hbytes] at hsame
      have hrest : [] = rest ++ item.bytes.drop n :=
        (Prod.mk.inj (Prod.mk.inj (Option.some.inj (Except.ok.inj hsame))).2).2
      have hdrop := congrArg List.length hrest
      rw [List.length_append, List.length_drop, List.length_nil] at hdrop
      omega

/-! ## Cut input -/

/-- The first `n` bytes hold the first `k` items, and then end or break off inside
the next item. -/
structure Cut (next : Next S O) (s : S) (items : List (Item S O)) (n k : Nat) (ending : Ending) : Prop where
  le : k ≤ items.length
  whole : (bytesOf (items.take k)).length ≤ n
  ending : (n = (bytesOf (items.take k)).length ∧ ending = .ended) ∨
    ∃ item message, items[k]? = some item ∧ (bytesOf (items.take k)).length < n ∧
      n < (bytesOf (items.take k)).length + item.bytes.length ∧
      next (behind s (items.take k)) (item.bytes.take (n - (bytesOf (items.take k)).length)) =
        .error message ∧ ending = .unread message

theorem exists_cut (hlocal : Local next) (h : Chops next s items) {n : Nat}
    (hn : n ≤ (bytesOf items).length) : ∃ k ending, Cut next s items n k ending := by
  induction h generalizing n with
  | nil s =>
    rw [bytesOf_nil, List.length_nil] at hn
    exact ⟨0, .ended, Nat.le_refl _, Nat.zero_le _, .inl ⟨Nat.le_zero.mp hn, rfl⟩⟩
  | @cons s item items h _ ih =>
    rw [bytesOf_cons, List.length_append] at hn
    rcases Nat.lt_or_ge n item.bytes.length with hlt | hge
    · rcases Nat.eq_zero_or_pos n with hzero | hpos
      · exact ⟨0, .ended, Nat.zero_le _, Nat.zero_le _, .inl ⟨hzero, rfl⟩⟩
      · obtain ⟨message, hmessage⟩ := h.short hlocal hpos hlt
        exact ⟨0, .unread message, Nat.zero_le _, Nat.zero_le _,
          .inr ⟨item, message, rfl, hpos, (Nat.zero_add _).symm ▸ hlt, hmessage, rfl⟩⟩
    · obtain ⟨k, ending, hle, hwhole, hending⟩ := ih (n := n - item.bytes.length) (by omega)
      have hlength : (bytesOf ((item :: items).take (k + 1))).length =
          item.bytes.length + (bytesOf (items.take k)).length := by
        rw [List.take_succ_cons, bytesOf_cons, List.length_append]
      refine ⟨k + 1, ending, Nat.succ_le_succ hle, by omega, ?_⟩
      rw [hlength, List.take_succ_cons, behind]
      rcases hending with ⟨heq, hend⟩ | ⟨next', message, hget, hlow, hhigh, herror, hend⟩
      · exact .inl ⟨by omega, hend⟩
      · refine .inr ⟨next', message, hget, by omega, by omega, ?_, hend⟩
        rwa [Nat.sub_add_eq]

theorem Chops.first (h : Chops next s items) (k : Nat) : Chops next s (items.take k) := by
  induction h generalizing k with
  | nil s =>
    rw [List.take_nil]
    exact .nil s
  | cons h _ ih =>
    cases k with
    | zero => exact .nil _
    | succ k => exact .cons h (ih k)

theorem Chops.get (h : Chops next s items) {k : Nat} (hget : items[k]? = some item) :
    Takes next (behind s (items.take k)) item := by
  induction h generalizing k with
  | nil s => cases hget
  | cons h _ ih =>
    cases k with
    | zero =>
      cases hget
      exact h
    | succ k => exact ih hget

theorem Chops.length_le (h : Chops next s items) : items.length ≤ (bytesOf items).length := by
  induction h with
  | nil s => exact Nat.le_refl _
  | @cons s item items h _ ih =>
    have hpos := List.length_pos_iff.mpr h.ne_nil
    rw [bytesOf_cons, List.length_append, List.length_cons]
    omega

/-- The reader is behind the items that the taker has taken. -/
theorem reader_offer {t : T} (h : (offer take s items t).ending = .ended) :
    (offer take s items t).reader = behind s items := by
  induction items generalizing s t with
  | nil => rfl
  | cons item rest ih =>
    rw [offer] at h ⊢
    cases htake : take t item.out with
    | error message =>
      rw [htake] at h
      cases h
    | ok res =>
      obtain ⟨t', stop⟩ := res
      rw [htake] at h
      cases stop with
      | true => cases h
      | false => exact ih h

theorem bytesOf_append (items items' : List (Item S O)) :
    bytesOf (items ++ items') = bytesOf items ++ bytesOf items' := List.flatMap_append

/-- A taker that stops within the items does not see what is behind them. -/
theorem feed_stopped (h : Chops next s items) {fuel : Nat} (hfuel : items.length ≤ fuel) (rest : Bytes)
    (t : T) (hstop : (offer take s items t).ending ≠ .ended) :
    feed next take fuel s (bytesOf items ++ rest) t = offer take s items t := by
  obtain ⟨more, rfl⟩ : ∃ more, fuel = items.length + more := ⟨fuel - items.length, by omega⟩
  rw [feed_items h, if_neg hstop]

/-- Of an input that is nothing but items each is handed to the taker. -/
theorem feed_whole (hlocal : Local next) (h : Chops next s items) {fuel : Nat}
    (hfuel : items.length < fuel) (t : T) :
    feed next take fuel s (bytesOf items) t = offer take s items t := by
  obtain ⟨more, rfl⟩ : ∃ more, fuel = items.length + (more + 1) := ⟨fuel - items.length - 1, by omega⟩
  have hitems := @feed_items S O T next take s items h (more + 1) [] t
  rw [List.append_nil] at hitems
  rw [hitems]
  split
  · rename_i hended
    rw [feed, (hlocal.ends _ _).mpr rfl, ← reader_offer hended, ← hended]
  · rfl

/-- Of a cut input the whole items are handed to the taker. -/
theorem feed_cut {n k : Nat} {ending : Ending} (hlocal : Local next) (h : Chops next s items)
    (hcut : Cut next s items n k ending) {fuel : Nat} (hfuel : k < fuel) (t : T) :
    feed next take fuel s ((bytesOf items).take n) t =
      (offer take s (items.take k) t).andThen ending := by
  obtain ⟨fuel, rfl⟩ : ∃ m, fuel = k + (m + 1) := ⟨fuel - k - 1, by omega⟩
  have hinput : (bytesOf items).take n = bytesOf (items.take k) ++
      (bytesOf (items.drop k)).take (n - (bytesOf (items.take k)).length) := by
    have hall : bytesOf items = bytesOf (items.take k) ++ bytesOf (items.drop k) := by
      rw [← bytesOf_append, List.take_append_drop]
    rw [hall, List.take_append, List.take_of_length_le hcut.whole]
  have hlen : (items.take k).length = k := by rw [List.length_take, min_eq_left hcut.le]
  have hitems := @feed_items S O T next take s (items.take k) (h.first k) (fuel + 1)
    ((bytesOf (items.drop k)).take (n - (bytesOf (items.take k)).length)) t
  rw [hlen] at hitems
  rw [hinput, hitems, Fed.andThen]
  split
  · rename_i hended
    rw [reader_offer hended]
    rcases hcut.ending with ⟨hn, rfl⟩ | ⟨item, message, hget, -, hhigh, herror, rfl⟩
    · have hnil : (bytesOf (items.drop k)).take (n - (bytesOf (items.take k)).length) = [] := by
        rw [hn, Nat.sub_self, List.take_zero]
      rw [hnil, feed, (hlocal.ends _ _).mpr rfl]
    · have hdrop : items.drop k = item :: items.drop (k + 1) := by
        obtain ⟨hlt, rfl⟩ := List.getElem?_eq_some_iff.mp hget
        exact List.drop_eq_getElem_cons hlt
      rw [hdrop, bytesOf_cons, List.take_append_of_le_length (by omega), feed, herror]
  · rfl

end

/-! ## Takers that hand events on -/

variable {E V : Type}

/-- While the taker takes the items it gives the events, each to a taker that it
contains: the state of that one is `view`. -/
inductive Plays (take : T → O → Result (T × Bool)) (give : V → E → Result (V × Bool)) (view : T → V) :
    T → List O → List E → Prop where
  | nil (t : T) : Plays take give view t [] []
  | quiet {t t' : T} {o : O} {rest : List O} {events : List E} (h : take t o = .ok (t', false))
      (hview : view t' = view t) (hrest : Plays take give view t' rest events) :
      Plays take give view t (o :: rest) events
  | event {t : T} {o : O} {rest : List O} {e : E} {events : List E} (put : V → T)
      (h : take t o = (give (view t) e).map fun r => (put r.1, r.2)) (hput : ∀ v, view (put v) = v)
      (hrest : ∀ v, Plays take give view (put v) rest events) :
      Plays take give view t (o :: rest) (e :: events)

theorem Plays.offer {take : T → O → Result (T × Bool)} {give : V → E → Result (V × Bool)} {view : T → V}
    {t : T} {items : List (Item S O)} {events : List E} {s : S} (ending : Ending)
    (h : Plays take give view t (items.map Item.out) events) :
    view ((Stream.offer take s items t).andThen ending).taken = (handed give (view t) events ending).1 ∧
      ((Stream.offer take s items t).andThen ending).ending =
        (handed give (view t) events ending).2 := by
  induction items generalizing s t events with
  | nil =>
    cases h
    exact ⟨rfl, rfl⟩
  | cons item rest ih =>
    rw [List.map_cons] at h
    rw [Stream.offer]
    cases h with
    | quiet h hview hrest =>
      rw [h, ← hview]
      exact ih hrest
    | event put h hput hrest =>
      rename_i e events
      rw [h, handed, hand]
      cases hgive : give (view t) e with
      | error message => exact ⟨rfl, rfl⟩
      | ok res =>
        obtain ⟨v, stop⟩ := res
        cases stop with
        | true => exact ⟨hput v, rfl⟩
        | false =>
          have hnext := ih (s := item.after) (hrest v)
          rw [hput] at hnext
          exact hnext

/-! ## Takers that have enough -/

/-- The taker wants nothing more and stays as it is. -/
def Enough (give : V → E → Result (V × Bool)) (t : V) : Prop := ∀ e, give t e = .ok (t, true)

/-- Once the taker wants to stop, it has enough. -/
def Sticky (give : V → E → Result (V × Bool)) : Prop :=
  ∀ t e t', give t e = .ok (t', true) → Enough give t'

theorem Enough.run {give : V → E → Result (V × Bool)} {t t' : V} {events : List E} {stops : List Bool}
    (h : Enough give t) (hrun : Machine.run give t events = .ok (t', stops)) : t' = t := by
  induction events generalizing stops with
  | nil =>
    cases hrun
    rfl
  | cons e rest ih =>
    obtain ⟨t₁, o, os, hstep, hrest, -⟩ := Machine.run_cons.mp hrun
    rw [h e] at hstep
    cases hstep
    exact ih hrest

/-- Going on after the stop makes no difference to the taker. -/
theorem hand_of_run {give : V → E → Result (V × Bool)} (hsticky : Sticky give) {t t' : V}
    {events : List E} {stops : List Bool} (hrun : Machine.run give t events = .ok (t', stops)) :
    hand give t events = (t', if true ∈ stops then .stopped else .ended) := by
  induction events generalizing t stops with
  | nil =>
    cases hrun
    rfl
  | cons e rest ih =>
    obtain ⟨t₁, o, os, hstep, hrest, rfl⟩ := Machine.run_cons.mp hrun
    rw [hand, hstep]
    cases o with
    | true =>
      rw [if_pos List.mem_cons_self, (hsticky _ _ _ hstep).run hrest]
    | false =>
      have hmem : true ∈ false :: os ↔ true ∈ os := by simp
      dsimp only
      rw [ih hrest]
      simp only [hmem]

theorem handed_ended (give : V → E → Result (V × Bool)) (t : V) (events : List E) :
    handed give t events .ended = hand give t events := by
  rw [handed]
  split
  · rename_i t' heq
    rw [heq]
  · rfl

theorem Fed.andThen_ended (fed : Fed S T) : fed.andThen .ended = fed := by
  rw [Fed.andThen]
  split
  · rename_i hended
    rw [← hended]
  · rfl

end UsbScope.Lib.Stream
