import UsbScope.Filter.Search
import UsbScope.Lib.Borders

/-! # The search finds every occurrence

The prefix table holds, for every prefix of the needle, the longest shorter one
that it ends with. While it scans, the search knows the longest prefix of the
needle that the bytes read so far end with. The bytes may come in any number of
buffers; a new range starts over. -/
namespace UsbScope
open UsbScope.Lib UsbScope.Common UsbScope.Capture
namespace Filter

/-! ## One byte -/

/-- The entries of a prefix table are right. -/
def Failure (needle : Bytes) (table : List Nat) : Prop :=
  ∀ i v : Nat, table[i]? = some v → Longest needle (needle.take (i + 1)).tail v

section
variable {needle text : Bytes} {table : List Nat} (htable : Failure needle table)
include htable

/-- The loop stops at the longest prefix that `byte` continues. -/
theorem fallBack_longest (byte : UInt8) {fuel matched : Nat} (hfuel : matched ≤ fuel)
    (hneedle : matched < needle.length) (hlen : matched ≤ table.length)
    (hsuffix : needle.take matched <:+ text)
    (hlongest : ∀ m, m < needle.length → needle.take m <:+ text → needle[m]? = some byte → m ≤ matched) :
    ∃ n, fallBack needle table byte fuel matched = .ok n ∧ n ≤ matched ∧ needle.take n <:+ text ∧
      (∀ m, m < needle.length → needle.take m <:+ text → needle[m]? = some byte → m ≤ n) ∧
      (n = 0 ∨ needle[n]? = some byte) := by
  induction fuel generalizing matched with
  | zero =>
    obtain rfl : matched = 0 := by omega
    exact ⟨0, rfl, le_rfl, hsuffix, hlongest, .inl rfl⟩
  | succ fuel ih =>
    rw [fallBack]
    by_cases hzero : matched = 0
    · rw [if_pos hzero]
      subst hzero
      exact ⟨0, rfl, le_rfl, hsuffix, hlongest, .inl rfl⟩
    · obtain ⟨expected, hget, hexpected⟩ := indexAt_ok needle hneedle
      obtain ⟨shorter, hgetShorter, hshorter⟩ := indexAt_ok table (i := matched - 1) (by omega)
      have hentry := htable _ _ hgetShorter
      rw [Nat.sub_add_cancel (by omega)] at hentry
      have hle : shorter ≤ matched - 1 := by
        have hlength := hentry.suffix.length_le
        rw [List.length_take_of_le hentry.le, List.length_tail, List.length_take_of_le hneedle.le] at hlength
        exact hlength
      rw [if_neg hzero, hexpected, Result.ok_bind]
      by_cases hbyte : byte = expected
      · rw [if_neg (not_not.mpr hbyte)]
        refine ⟨matched, rfl, le_rfl, hsuffix, hlongest, .inr ?_⟩
        rw [hget, hbyte]
      · rw [if_pos hbyte, hshorter, Result.ok_bind]
        -- a candidate is not `matched` itself, so it ends what is matched
        have hnext : ∀ m, m < needle.length → needle.take m <:+ text → needle[m]? = some byte →
            m ≤ shorter := by
          intro m hm hmatch hgrows
          have hne : m ≠ matched := by
            intro heq
            rw [heq, hget] at hgrows
            exact hbyte (Option.some.inj hgrows).symm
          have hmle := hlongest m hm hmatch hgrows
          exact hentry.shorter hneedle.le hsuffix (by omega) hmatch
        obtain ⟨n, hn, hnle, hrest⟩ := @ih shorter (by omega) (by omega) (by omega)
          (hentry.suffix_of_tail hsuffix) hnext
        exact ⟨n, hn, by omega, hrest⟩

theorem extend_longest (byte : UInt8) {matched : Nat} (h : Longest needle text matched)
    (hneedle : matched < needle.length) (hlen : matched ≤ table.length) :
    ∃ n, extend needle table matched byte = .ok n ∧ Longest needle (text ++ [byte]) n := by
  obtain ⟨n, hn, hle, hsuffix, hlongest, hstop⟩ := fallBack_longest htable byte le_rfl hneedle hlen
    h.suffix fun m hm hmatch _ => h.longest m hm.le hmatch
  have hlt : n < needle.length := by omega
  obtain ⟨expected, hget, hexpected⟩ := indexAt_ok needle hlt
  obtain ⟨hgrows, hstays⟩ := Longest.snoc hlt hsuffix hlongest
  rw [extend, hn, Result.ok_bind, hexpected, Result.ok_bind]
  by_cases hbyte : byte = expected
  · rw [if_pos hbyte]
    exact ⟨n + 1, rfl, hgrows (by rw [hget, hbyte])⟩
  · rw [if_neg hbyte]
    have hnot : needle[n]? ≠ some byte := by
      intro hsome
      rw [hget] at hsome
      exact hbyte (Option.some.inj hsome).symm
    have hzero : n = 0 := hstop.resolve_right hnot
    subst hzero
    exact ⟨0, rfl, hstays rfl hnot⟩

end

/-! ## The prefix table -/

theorem prefixFrom_failure {needle : Bytes} {table : List Nat} {matched i : Nat} (hi : 0 < i)
    (hle : i ≤ needle.length) (hlen : table.length = i) (htable : Failure needle table)
    (h : Longest needle (needle.take i).tail matched) :
    ∃ t, prefixFrom needle (needle.drop i) table matched = .ok t ∧ Failure needle t ∧
      t.length = needle.length := by
  induction hrest : needle.drop i generalizing table matched i with
  | nil =>
    have hall : needle.length ≤ i := List.drop_eq_nil_iff.mp hrest
    exact ⟨table, rfl, htable, by omega⟩
  | cons byte rest ih =>
    have hlt : i < needle.length := by
      by_contra hge
      rw [List.drop_eq_nil_of_le (by omega)] at hrest
      cases hrest
    have hmatched : matched ≤ i - 1 := by
      have hlength := h.suffix.length_le
      rwa [List.length_take_of_le h.le, List.length_tail, List.length_take_of_le hle] at hlength
    obtain ⟨n, hn, hlongest⟩ := extend_longest htable byte h (by omega) (by omega)
    have hbyte : needle[i]? = some byte := by
      rw [← List.head?_drop, hrest]
      rfl
    have htext : (needle.take (i + 1)).tail = (needle.take i).tail ++ [byte] := by
      have hne : needle.take i ≠ [] := by
        intro hnil
        have := List.length_take_of_le hle
        rw [hnil, List.length_nil] at this
        omega
      rw [List.take_add_one, hbyte, Option.toList_some, List.tail_append_of_ne_nil hne]
    rw [← htext] at hlongest
    have hnext : Failure needle (table ++ [n]) := by
      intro j v hv
      rcases Nat.lt_or_ge j table.length with hj | hj
      · rw [List.getElem?_append_left hj] at hv
        exact htable j v hv
      · rw [List.getElem?_append_right hj] at hv
        obtain ⟨hjlt, hv⟩ := List.getElem?_eq_some_iff.mp hv
        rw [List.getElem_singleton] at hv
        rw [List.length_singleton] at hjlt
        obtain rfl : j = i := by omega
        rwa [← hv]
    have hdrop : needle.drop (i + 1) = rest := by
      rw [← List.tail_drop, hrest]
      rfl
    rw [prefixFrom, hn, Result.ok_bind]
    exact @ih (table ++ [n]) n (i + 1) (by omega) hlt (by simp [hlen]) hnext hlongest hdrop

theorem prefixTable_failure {needle : Bytes} (h : needle ≠ []) :
    ∃ table, prefixTable needle = .ok table ∧ Failure needle table ∧ table.length = needle.length := by
  have hpos := List.length_pos_of_ne_nil h
  have htail : (needle.take 1).tail = [] := by
    obtain ⟨first, rest, rfl⟩ := List.exists_cons_of_ne_nil h
    rfl
  have hfirst : Longest needle (needle.take 1).tail 0 := by
    rw [htail]
    exact Longest.nil needle
  have htable : Failure needle [0] := by
    intro i v hv
    cases i with
    | zero =>
      cases hv
      exact hfirst
    | succ i => simp at hv
  rw [prefixTable, ← List.drop_one]
  exact prefixFrom_failure Nat.one_pos hpos rfl htable hfirst

/-! ## Scanning -/

section
variable {payload needle : Bytes} {table : List Nat} (htable : Failure needle table)
  (hlen : table.length = needle.length)
include htable hlen

theorem scanBuffer_longest (buffer : Bytes) {text : Bytes} {matched : Nat}
    (h : Longest needle text matched) (hmatched : matched < needle.length) :
    (scanBuffer needle table matched buffer = .ok none ∧ EndsIn needle text buffer) ∨
      ∃ n, scanBuffer needle table matched buffer = .ok (some n) ∧ n < needle.length ∧
        Longest needle (text ++ buffer) n ∧ ¬ EndsIn needle text buffer := by
  induction buffer generalizing text matched with
  | nil =>
    right
    exact ⟨matched, rfl, hmatched, by simpa using h, not_endsIn_nil⟩
  | cons byte rest ih =>
    obtain ⟨n, hn, hlongest⟩ := extend_longest htable byte h hmatched (by omega)
    rw [scanBuffer, hn, Result.ok_bind, endsIn_cons]
    by_cases hwhole : n = needle.length
    · left
      rw [if_pos hwhole]
      exact ⟨rfl, .inl (hlongest.whole.mp hwhole)⟩
    · have hnot : ¬ needle <:+ text ++ [byte] := fun hsuffix => hwhole (hlongest.whole.mpr hsuffix)
      have hle := hlongest.le
      rw [if_neg hwhole]
      rcases ih hlongest (by omega) with ⟨hscan, hends⟩ | ⟨k, hscan, hk, hlongest', hends⟩
      · exact .inl ⟨hscan, .inr hends⟩
      · refine .inr ⟨k, hscan, hk, ?_, ?_⟩
        · rwa [List.append_assoc, List.singleton_append] at hlongest'
        · exact not_or.mpr ⟨hnot, hends⟩

/-- A range is scanned buffer by buffer, and the boundaries do not matter. -/
theorem scanRange_longest {fuel pos length matched : Nat} {text : Bytes}
    (hfuel : length ≤ fuel * bufferSize) (h : Longest needle text matched)
    (hmatched : matched < needle.length) (hrange : length = 0 ∨ pos + length ≤ payload.length) :
    ∃ found, scanRange payload needle table fuel pos length matched = .ok found ∧
      (found = true ↔ EndsIn needle text ((payload.drop pos).take length)) := by
  induction fuel generalizing pos length matched text with
  | zero =>
    obtain rfl : length = 0 := by omega
    exact ⟨false, rfl, by simp [not_endsIn_nil]⟩
  | succ fuel ih =>
    rw [scanRange]
    by_cases hzero : length = 0
    · subst hzero
      exact ⟨false, if_pos rfl, by simp [not_endsIn_nil]⟩
    · have hread : readExact payload pos (min length bufferSize) =
          .ok ((payload.drop pos).take (min length bufferSize)) := by
        rw [readExact, Spool.readAt_eq_some (by omega), context_some]
      have hsplit : (payload.drop pos).take length =
          (payload.drop pos).take (min length bufferSize) ++
            (payload.drop (pos + min length bufferSize)).take (length - min length bufferSize) := by
        rw [← List.drop_drop, ← List.take_add, Nat.add_sub_cancel' (min_le_left _ _)]
      have hless : length - min length bufferSize ≤ fuel * bufferSize := by
        rw [Nat.succ_mul] at hfuel
        omega
      have hnext : length - min length bufferSize = 0 ∨
          pos + min length bufferSize + (length - min length bufferSize) ≤ payload.length := by
        omega
      rw [if_neg hzero]
      dsimp only
      rw [hread, Result.ok_bind, hsplit, endsIn_append]
      rcases scanBuffer_longest htable hlen ((payload.drop pos).take (min length bufferSize)) h hmatched
        with ⟨hscan, hends⟩ | ⟨n, hscan, hn, hlongest, hends⟩
      · rw [hscan, Result.ok_bind]
        exact ⟨true, rfl, by simp [hends]⟩
      · obtain ⟨found, hfound, hiff⟩ := ih hless hlongest hn hnext
        rw [hscan, Result.ok_bind]
        refine ⟨found, hfound, hiff.trans ?_⟩
        simp [hends]

theorem scanRanges_iff (hneedle : needle ≠ []) {ranges : List (Nat × Nat)}
    (hranges : ∀ x ∈ ranges, x.2 = 0 ∨ x.1 + x.2 ≤ payload.length) :
    ∃ found, scanRanges payload needle table ranges = .ok found ∧
      (found = true ↔ ∃ x ∈ ranges, needle <:+: (payload.drop x.1).take x.2) := by
  induction ranges with
  | nil => exact ⟨false, rfl, by simp⟩
  | cons x rest ih =>
    have hfuel : x.2 ≤ (x.2 / bufferSize + 1) * bufferSize := by
      unfold bufferSize
      omega
    obtain ⟨found, hfound, hiff⟩ := scanRange_longest htable hlen hfuel (Longest.nil needle)
      (List.length_pos_of_ne_nil hneedle) (hranges x List.mem_cons_self)
    rw [endsIn_nil_iff hneedle] at hiff
    rw [scanRanges, hfound, Result.ok_bind]
    cases found with
    | true => exact ⟨true, rfl, by simpa using .inl (hiff.mp rfl)⟩
    | false =>
      have hnot : ¬ needle <:+: (payload.drop x.1).take x.2 := fun hinfix => by
        cases hiff.mpr hinfix
      obtain ⟨found, hrest, hiff⟩ := ih fun y hy => hranges y (List.mem_cons_of_mem _ hy)
      refine ⟨found, hrest, ?_⟩
      simpa [hnot] using hiff

/-- More rounds than a range needs change nothing. -/
theorem scanRange_fuel (hneedle : needle ≠ []) {fuel pos length : Nat}
    (hfuel : length / bufferSize + 1 ≤ fuel) (hrange : length = 0 ∨ pos + length ≤ payload.length) :
    scanRange payload needle table fuel pos length 0 =
      scanRange payload needle table (length / bufferSize + 1) pos length 0 := by
  have henough : ∀ n, length / bufferSize + 1 ≤ n → length ≤ n * bufferSize := by
    intro n hn
    unfold bufferSize at hn ⊢
    omega
  obtain ⟨found, hfound, hiff⟩ := scanRange_longest htable hlen (henough fuel hfuel) (Longest.nil needle)
    (List.length_pos_of_ne_nil hneedle) hrange
  obtain ⟨found', hfound', hiff'⟩ := scanRange_longest htable hlen (henough _ le_rfl) (Longest.nil needle)
    (List.length_pos_of_ne_nil hneedle) hrange
  rw [hfound, hfound', Bool.eq_iff_iff.mpr (hiff.trans hiff'.symm)]

end

/-! ## Events -/

/-- The ranges of the payload that a search looks at, each on its own. -/
def searched (e : Event) : List (Nat × Nat) :=
  if e.metadata.transferType = 0 then e.iso.map fun d => (d.offset.toNat, d.length.toNat)
  else [(0, e.metadata.payloadLen.toNat)]

/-- The stored payload covers the declared ranges. -/
def Covered (e : Event) : Prop := ∀ x ∈ searched e, x.2 = 0 ∨ x.1 + x.2 ≤ e.payload.length

/-- The search finds the needle exactly where it occurs within one declared
range. It always answers, so no index was out of range and no loop was cut
short. -/
theorem contains_iff_occurs {e : Event} {needle : Bytes} (hneedle : needle ≠ []) (he : Covered e) :
    (∃ found, contains e needle = .ok found ∧
      (found = true ↔
        if e.metadata.transferType = 0 then
          ∃ d ∈ e.iso, needle <:+: (e.payload.drop d.offset.toNat).take d.length.toNat
        else needle <:+: e.payload.take e.metadata.payloadLen.toNat)) ∧
      ∃ table, prefixTable needle = .ok table ∧ ∀ x ∈ searched e, ∀ fuel, x.2 / bufferSize + 1 ≤ fuel →
        scanRange e.payload needle table fuel x.1 x.2 0 =
          scanRange e.payload needle table (x.2 / bufferSize + 1) x.1 x.2 0 := by
  obtain ⟨table, htable, hfailure, hlen⟩ := prefixTable_failure hneedle
  refine ⟨?_, table, htable, ?_⟩
  · obtain ⟨found, hfound, hiff⟩ := scanRanges_iff hfailure hlen hneedle he
    refine ⟨found, ?_, hiff.trans ?_⟩
    · rw [contains, htable, Result.ok_bind]
      exact hfound
    · unfold searched
      split
      · simp
      · simp
  · intro x hx fuel hfuel
    exact scanRange_fuel hfailure hlen hneedle hfuel (he x hx)

/-- A bulk transfer that repeats the start of the needle. -/
def repeatedStart : Event := ⟨0, Reassembler.bulkOut, [], [1, 1, 2], true, true⟩

theorem contains_iff_occurs_repeatedStart : contains repeatedStart [1, 2] = .ok true := by
  have hcovered : Covered repeatedStart := by
    intro x hx
    obtain rfl : x = (0, 3) := List.mem_singleton.mp hx
    exact .inr (by decide)
  have hne : ([1, 2] : Bytes) ≠ [] := by decide
  obtain ⟨⟨found, hfound, hiff⟩, _⟩ := contains_iff_occurs hne hcovered
  rw [hfound, hiff.mpr]
  exact ⟨[1], [], rfl⟩

end Filter
end UsbScope
