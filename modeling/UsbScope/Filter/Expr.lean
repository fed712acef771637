import UsbScope.Capture.Reassembler

/-! # Filter expressions

Evaluation is three-valued: a field that the event does not carry is unknown,
and unknown never matches, even under `not`. `required` extracts the predicates
that every matching event satisfies; those over fields that are the same for a
submission and its completion go to the kernel. -/
namespace UsbScope
open UsbScope.Lib UsbScope.Common UsbScope.Capture
namespace Filter

inductive Truth where
  | false
  | true
  | unknown
deriving DecidableEq

namespace Truth

def not : Truth → Truth
  | .false => .true
  | .true => .false
  | .unknown => .unknown

def and : Truth → Truth → Truth
  | .false, _ => .false
  | _, .false => .false
  | .true, .true => .true
  | _, _ => .unknown

def or : Truth → Truth → Truth
  | .true, _ => .true
  | _, .true => .true
  | .false, .false => .false
  | _, _ => .unknown

def ofBool : Bool → Truth
  | .true => .true
  | .false => .false

end Truth

inductive Field where
  | bus
  | device
  | vid
  | pid
  | endpoint
  | epNum
  | direction
  | transfer
  | requested
  | actual
  | length
  | captured
  | frames
  | status
  | event
  | interval
  | startFrame
  | errors
  | urbId
  | request
  | requestType
  | value
  | index
  | setupLength
  | latency
  | payload (offset : UInt64) (size : UInt8)
deriving DecidableEq

inductive Compare where
  | eq
  | ne
  | lt
  | le
  | gt
  | ge
deriving DecidableEq

namespace Compare

def holds : Compare → Int → Int → Bool
  | .eq, a, b => a == b
  | .ne, a, b => a != b
  | .lt, a, b => a < b
  | .le, a, b => a ≤ b
  | .gt, a, b => a > b
  | .ge, a, b => a ≥ b

def invert : Compare → Compare
  | .eq => .ne
  | .ne => .eq
  | .lt => .ge
  | .le => .gt
  | .gt => .le
  | .ge => .lt

def code : Compare → UInt32
  | .eq => 0
  | .ne => 1
  | .lt => 2
  | .le => 3
  | .gt => 4
  | .ge => 5

@[simp] theorem holds_invert (c : Compare) (a b : Int) : c.invert.holds a b = !c.holds a b := by
  cases c <;> rw [Bool.eq_iff_iff] <;> simp [invert, holds]

end Compare

structure Predicate where
  field : Field
  mask : Option UInt64
  comparison : Compare
  value : Int
deriving DecidableEq

inductive Expr where
  | all
  | predicate (p : Predicate)
  | contains (needle : Bytes)
  | and (a b : Expr)
  | or (a b : Expr)
  | not (inner : Expr)
deriving DecidableEq

/-! ## Field values -/

/-- `read_exact` at a position of the payload. -/
def readExact (payload : Bytes) (pos length : Nat) : Result Bytes :=
  context (Spool.readAt payload pos length) "failed to fill whole buffer"

/-- The big endian value of at most eight bytes. -/
def fromBeBytes (bytes : Bytes) : Nat := bytes.foldl (fun n b => 256 * n + b.toNat) 0

/-- A setup word, little endian. -/
def setupWord (m : EventMeta) (i : Nat) : Int :=
  (m.setup.toList.getD i 0).toNat + 256 * (m.setup.toList.getD (i + 1) 0).toNat

/-- The value of a setup field; nothing without a setup packet. -/
def setupValue (m : EventMeta) (v : Int) : Option Int :=
  if m.setupPresent = 0 then none else some v

/-- The unsigned value of `size` payload bytes. ISO padding is no captured data. -/
def payloadValue (e : Event) (offset : UInt64) (size : UInt8) : Result (Option Int) :=
  let stop := offset.toNat + size.toNat
  if 2 ^ 64 ≤ stop then .ok none
  else if e.metadata.hasData = 0 ∨ e.metadata.payloadLen.toNat < stop then .ok none
  else if e.metadata.transferType = 0 ∧
      !e.iso.any fun d => d.offset.toNat ≤ offset.toNat ∧ stop ≤ d.stop then .ok none
  else do
    let bytes ← readExact e.payload offset.toNat size.toNat
    .ok (some (fromBeBytes bytes))

/-- `value`: nothing when the event does not carry the field. -/
def value (field : Field) (e : Event) (latency : Option UInt64) : Result (Option Int) :=
  if (field = .vid ∨ field = .pid) ∧ !e.identityKnown ∨ field = .requested ∧ !e.requestedKnown then
    .ok none
  else
    let m := e.metadata
    match field with
    | .bus => .ok (some m.bus.toNat)
    | .device => .ok (some m.device.toNat)
    | .vid => .ok (some m.vid.toNat)
    | .pid => .ok (some m.pid.toNat)
    | .endpoint => .ok (some m.endpoint.toNat)
    | .epNum => .ok (some (m.endpoint &&& 15).toNat)
    | .direction => .ok (some (m.endpoint >>> 7).toNat)
    | .transfer => .ok (some m.transferType.toNat)
    | .requested => .ok (some m.requestedLen.toNat)
    | .actual => if m.eventType = submitType then .ok none else .ok (some m.actualLen.toNat)
    | .length =>
      .ok (some (if m.eventType = submitType then m.requestedLen.toNat else m.actualLen.toNat))
    | .captured => .ok (some m.payloadLen.toNat)
    | .frames => .ok (some m.isoCount.toNat)
    | .status => .ok (some m.status.toInt)
    | .event => .ok (some m.eventType.toNat)
    | .interval => .ok (some m.interval.toInt)
    | .startFrame => .ok (some m.startFrame.toInt)
    | .errors => .ok (some m.errorCount.toInt)
    | .urbId => .ok (some m.urbId.toNat)
    | .latency => .ok (latency.map fun l => (l.toNat : Int))
    | .request => .ok (setupValue m (m.setup.toList.getD 1 0).toNat)
    | .requestType => .ok (setupValue m (m.setup.toList.getD 0 0).toNat)
    | .value => .ok (setupValue m (setupWord m 2))
    | .index => .ok (setupValue m (setupWord m 4))
    | .setupLength => .ok (setupValue m (setupWord m 6))
    | .payload offset size => payloadValue e offset size

/-! ## Payload search

Knuth-Morris-Pratt over the payload as it is read in chunks. Both inner loops
get the number of matched bytes as fuel, which the prefix table makes enough.
An index outside the needle or the table is an error here and a panic in the
source. -/

def bufferSize : Nat := 16384

def indexAt {α : Type} (xs : List α) (i : Nat) : Result α := context xs[i]? "index out of bounds"

/-- The inner loop: fall back along the prefix table while `byte` does not
continue the match. -/
def fallBack (needle : Bytes) (table : List Nat) (byte : UInt8) : Nat → Nat → Result Nat
  | 0, 0 => .ok 0
  | 0, _ => .error "the match does not get shorter"
  | fuel + 1, matched =>
    if matched = 0 then .ok 0
    else do
      let expected ← indexAt needle matched
      if byte ≠ expected then
        let matched ← indexAt table (matched - 1)
        fallBack needle table byte fuel matched
      else .ok matched

/-- Fall back, then extend the match by `byte` if that continues it. -/
def extend (needle : Bytes) (table : List Nat) (matched : Nat) (byte : UInt8) : Result Nat := do
  let matched ← fallBack needle table byte matched matched
  let expected ← indexAt needle matched
  .ok (if byte = expected then matched + 1 else matched)

/-- The entries of the prefix table from `i` on, for the bytes left. -/
def prefixFrom (needle : Bytes) : Bytes → List Nat → Nat → Result (List Nat)
  | [], table, _ => .ok table
  | byte :: rest, table, matched => do
    let matched ← extend needle table matched byte
    prefixFrom needle rest (table ++ [matched]) matched

/-- The prefix table. The source fills a zeroed table from index 1; entries not
yet written are never read. -/
def prefixTable (needle : Bytes) : Result (List Nat) := prefixFrom needle needle.tail [0] 0

/-- Scan one buffer: the length of the match at its end, or nothing once the
whole needle was found. -/
def scanBuffer (needle : Bytes) (table : List Nat) : Nat → Bytes → Result (Option Nat)
  | matched, [] => .ok (some matched)
  | matched, byte :: rest => do
    let matched ← extend needle table matched byte
    if matched = needle.length then .ok none else scanBuffer needle table matched rest

/-- Scan a range of the payload, buffer by buffer; true once the needle was found. -/
def scanRange (payload needle : Bytes) (table : List Nat) :
    Nat → (pos length matched : Nat) → Result Bool
  | 0, _, _, _ => .ok false
  | fuel + 1, pos, length, matched =>
    if length = 0 then .ok false
    else do
      let n := min length bufferSize
      let buffer ← readExact payload pos n
      match ← scanBuffer needle table matched buffer with
      | none => .ok true
      | some matched => scanRange payload needle table fuel (pos + n) (length - n) matched

def scanRanges (payload needle : Bytes) (table : List Nat) : List (Nat × Nat) → Result Bool
  | [] => .ok false
  | (offset, length) :: rest => do
    if ← scanRange payload needle table (length / bufferSize + 1) offset length 0 then .ok true
    else scanRanges payload needle table rest

def contains (e : Event) (needle : Bytes) : Result Bool := do
  let table ← prefixTable needle
  let ranges := if e.metadata.transferType = 0
    then e.iso.map fun d => (d.offset.toNat, d.length.toNat)
    else [(0, e.metadata.payloadLen.toNat)]
  scanRanges e.payload needle table ranges

/-! ## Evaluation -/

def Predicate.evaluate (p : Predicate) (e : Event) (latency : Option UInt64) : Result Truth := do
  match ← Filter.value p.field e latency with
  | none => .ok .unknown
  | some v =>
    let v := match p.mask with
      | some mask => ((UInt64.ofInt v &&& mask).toNat : Int)
      | none => v
    .ok (.ofBool (p.comparison.holds v p.value))

namespace Expr

def evaluate (e : Event) (latency : Option UInt64) : Expr → Result Truth
  | .all => .ok .true
  | .not inner => do
    let t ← inner.evaluate e latency
    .ok t.not
  | .and a b => do
    let t ← a.evaluate e latency
    if t = .false then .ok t
    else do
      let u ← b.evaluate e latency
      .ok (t.and u)
  | .or a b => do
    let t ← a.evaluate e latency
    if t = .true then .ok t
    else do
      let u ← b.evaluate e latency
      .ok (t.or u)
  | .predicate p => p.evaluate e latency
  | .contains needle =>
    if e.metadata.hasData = 0 then .ok .unknown
    else do
      let found ← Filter.contains e needle
      .ok (.ofBool found)

def needsLatency : Expr → Bool
  | .predicate p => p.field = .latency
  | .not inner => inner.needsLatency
  | .and a b => a.needsLatency || b.needsLatency
  | .or a b => a.needsLatency || b.needsLatency
  | .all => false
  | .contains _ => false

/-- Add what is not yet there, in order. -/
def union (left right : List Predicate) : List Predicate :=
  right.foldl (fun result p => if result.contains p then result else result ++ [p]) left

def inter (left right : List Predicate) : List Predicate := left.filter fun p => right.contains p

/-- `required`: predicates that hold whenever the expression is true, or false
if `negated`. -/
def required (negated : Bool) : Expr → List Predicate
  | .predicate p => [if negated then { p with comparison := p.comparison.invert } else p]
  | .not inner => inner.required (!negated)
  | .and a b =>
    if negated then inter (a.required negated) (b.required negated)
    else union (a.required negated) (b.required negated)
  | .or a b =>
    if negated then union (a.required negated) (b.required negated)
    else inter (a.required negated) (b.required negated)
  | .all => []
  | .contains _ => []

end Expr

/-! ## Filters -/

/-- The kernel's number of a field that cannot change between S and C. -/
def Field.kernel : Field → Option UInt32
  | .bus => some 1
  | .device => some 2
  | .vid => some 3
  | .pid => some 4
  | .endpoint => some 5
  | .epNum => some 6
  | .direction => some 7
  | .transfer => some 8
  | .requested => some 9
  | .frames => some 10
  | _ => none

/-- The kernel form of a predicate, if its field is stable and its constant
fits. -/
def Predicate.kernel (p : Predicate) : Option KernelPredicate :=
  match p.field.kernel with
  | none => none
  | some field =>
    if 0 ≤ p.value ∧ p.value < 2 ^ 64 then
      some
        { value := UInt64.ofNat p.value.toNat
          mask := p.mask.getD 0xffffffffffffffff
          field := field
          comparison := p.comparison.code }
    else none

end Filter

structure Filter where
  expression : Filter.Expr
deriving DecidableEq

namespace Filter

/-- Whether the event is selected. -/
def isMatch (f : Filter) (e : Event) (latency : Option UInt64) : Result Bool := do
  let t ← f.expression.evaluate e latency
  .ok (t = .true)

def needsLatency (f : Filter) : Bool := f.expression.needsLatency

def kernelPredicates (f : Filter) : List KernelPredicate :=
  ((f.expression.required false).filterMap Predicate.kernel).take maxKernelPredicates

end Filter
end UsbScope
