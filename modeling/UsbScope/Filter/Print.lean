import UsbScope.Filter.Parse

/-! # Printing expressions

The written forms of an expression: every name and alias, every spelling of an
operator, numbers with any digits, quoted text with any escapes, parentheses
where precedence calls for them (or anywhere else), and any white space. Of the
parser, only its notion of white space is used. -/
namespace UsbScope.Filter
open UsbScope.Lib UsbScope.Common

/-! ## Lexemes -/

/-- A written token. The characters of quoted text are marked where a backslash
stands before them. -/
inductive Lexeme where
  | word (text : List Char)
  | operator (text : List Char)
  | quoted (mark : Char) (text : List (Char × Bool))
deriving DecidableEq

namespace Lexeme

def escaped (c : Char × Bool) : List Char := if c.2 then ['\\', c.1] else [c.1]

def chars : Lexeme → List Char
  | word text => text
  | operator text => text
  | quoted mark text => mark :: (text.flatMap escaped ++ [mark])

def isWord : Lexeme → Bool
  | word _ => true
  | _ => false

end Lexeme

/-- A word from its text. -/
def name (text : String) : Lexeme := .word text.toList

/-- An operator from its text. -/
def sign (text : String) : Lexeme := .operator text.toList

/-! ## Numbers -/

/-- A digit, in lower or upper case. -/
def digitChar (upper : Bool) (d : Nat) : Char :=
  if d < 10 then Char.ofNat (48 + d) else Char.ofNat ((if upper then 55 else 87) + d)

/-- A decimal number, possibly negative, or a hexadecimal one. -/
inductive Numeral where
  | decimal (negative : Bool) (digits : List (Fin 10))
  | hex (digits : List (Fin 16 × Bool))

namespace Numeral

def digitsValue (radix : Nat) (digits : List Nat) : Nat := digits.foldl (fun n d => radix * n + d) 0

def value : Numeral → Int
  | decimal negative digits =>
    let n : Int := digitsValue 10 (digits.map Fin.val)
    if negative then -n else n
  | hex digits => digitsValue 16 (digits.map fun d => d.1.val)

def text : Numeral → List Char
  | decimal negative digits =>
    (if negative then ['-'] else []) ++ digits.map fun d => digitChar false d.val
  | hex digits => '0' :: 'x' :: digits.map fun d => digitChar d.2 d.1.val

def isEmpty : Numeral → Bool
  | decimal _ digits => digits.isEmpty
  | hex digits => digits.isEmpty

/-- Some digits, and a value between the smallest `i64` and the largest `u64`. -/
structure InRange (n : Numeral) : Prop where
  digits : n.isEmpty = false
  low : -2 ^ 63 ≤ n.value
  high : n.value ≤ 2 ^ 64 - 1

end Numeral

/-- The byte as two hexadecimal digits, each in lower or upper case. -/
def hexPair (byte : UInt8 × Bool × Bool) : List Char :=
  [digitChar byte.2.1 (byte.1.toNat / 16), digitChar byte.2.2 (byte.1.toNat % 16)]

/-! ## Names -/

def fieldNames : List (String × Field) :=
  [("bus", .bus), ("dev", .device), ("device", .device), ("vid", .vid), ("pid", .pid),
    ("ep", .endpoint), ("endpoint", .endpoint), ("epnum", .epNum), ("dir", .direction),
    ("direction", .direction), ("type", .transfer), ("requested", .requested),
    ("actual", .actual), ("len", .length), ("length", .length), ("captured", .captured),
    ("frames", .frames), ("status", .status), ("event", .event), ("interval", .interval),
    ("start_frame", .startFrame), ("errors", .errors), ("urb", .urbId),
    ("setup.request", .request), ("setup.type", .requestType), ("setup.value", .value),
    ("setup.index", .index), ("setup.length", .setupLength), ("latency", .latency)]

/-- Names that stand for a field with its value. -/
def shorthands : List (String × Field × Int) :=
  [("in", .direction, 1), ("out", .direction, 0), ("iso", .transfer, 0), ("isoc", .transfer, 0),
    ("interrupt", .transfer, 1), ("intr", .transfer, 1), ("control", .transfer, 2),
    ("ctrl", .transfer, 2), ("bulk", .transfer, 3)]

/-- Names of values. -/
def valueNames : List (String × Field × Int) :=
  shorthands ++ [("S", .event, 83), ("submit", .event, 83), ("C", .event, 67),
    ("complete", .event, 67), ("E", .event, 69), ("error", .event, 69)]

def comparisonSigns : List (String × Compare) :=
  [("=", .eq), ("==", .eq), ("!=", .ne), ("<", .lt), ("<=", .le), (">", .gt), (">=", .ge)]

/-- The units of a latency, in nanoseconds. -/
def durationUnits : List (String × Int) :=
  [("", 1), ("ns", 1), ("us", 1000), ("ms", 1000000), ("s", 1000000000)]

/-! ## Predicates -/

/-- The written forms of a field's value. -/
inductive ValueText : Field → Int → List Char → Prop where
  | named {text : String} {field : Field} {v : Int} (h : (text, field, v) ∈ valueNames) :
      ValueText field v text.toList
  | number {field : Field} {n : Numeral} (hfield : field ≠ .latency) (h : n.InRange) :
      ValueText field n.value n.text
  | duration {n : Numeral} {unit : String} {factor : Int} (h : n.InRange)
      (hunit : (unit, factor) ∈ durationUnits) :
      ValueText .latency (n.value * factor) (n.text ++ unit.toList)

/-- The written forms of an optional mask. -/
inductive MaskText : Option UInt64 → List Lexeme → Prop where
  | absent : MaskText none []
  | present {n : Numeral} {mask : UInt64} (h : n.InRange) (hmask : n.value = mask.toNat) :
      MaskText (some mask) [sign "&", .word n.text]

/-- The written forms of a comparison; equality may be left out. -/
inductive CompareText : Compare → List Lexeme → Prop where
  | omitted : CompareText .eq []
  | written {text : String} {c : Compare} (h : (text, c) ∈ comparisonSigns) : CompareText c [sign text]

/-- The written forms of the width of an extraction; one byte may be left out. -/
inductive WidthText : UInt8 → List Lexeme → Prop where
  | omitted : WidthText 1 []
  | written {n : Numeral} {size : UInt8} (h : n.InRange) (hsize : n.value = size.toNat) :
      WidthText size [sign ":", .word n.text]

/-- The written forms of a field, up to its condition. -/
inductive FieldText : Field → List Lexeme → Prop where
  | named {text : String} {field : Field} (h : (text, field) ∈ fieldNames) : FieldText field [name text]
  | payload {n : Numeral} {offset : UInt64} {size : UInt8} {width : List Lexeme} (h : n.InRange)
      (hoffset : n.value = offset.toNat) (hsize : size = 1 ∨ size = 2 ∨ size = 4 ∨ size = 8)
      (hwidth : WidthText size width) :
      FieldText (.payload offset size) (name "payload" :: sign "[" :: .word n.text :: width ++ [sign "]"])

/-- The written forms of quoted text: both marks and the backslash are escaped
where they would end the text or escape something. -/
structure QuotedText (mark : Char) (text : List (Char × Bool)) : Prop where
  quote : mark = '\'' ∨ mark = '"'
  escapes : ∀ c ∈ text, c.2 = false → c.1 ≠ mark ∧ c.1 ≠ '\\'
  nonempty : text ≠ []

/-- The written forms of a predicate or a search. -/
inductive Leaf : Expr → List Lexeme → Prop where
  | shorthand {text : String} {field : Field} {v : Int} (h : (text, field, v) ∈ shorthands) :
      Leaf (.predicate ⟨field, none, .eq, v⟩) [name text]
  | condition {field : Field} {mask : Option UInt64} {c : Compare} {v : Int}
      {fieldText maskText compareText : List Lexeme} {text : List Char}
      (hfield : FieldText field fieldText) (hmask : MaskText mask maskText)
      (hcompare : CompareText c compareText) (hvalue : ValueText field v text) :
      Leaf (.predicate ⟨field, mask, c, v⟩) (fieldText ++ (maskText ++ (compareText ++ [.word text])))
  | text {mark : Char} {text : List (Char × Bool)} (h : QuotedText mark text) :
      Leaf (.contains (String.ofList (text.map Prod.fst)).toUTF8.data.toList)
        [name "payload", name "contains", .quoted mark text]
  | hex {bytes : List (UInt8 × Bool × Bool)} (h : bytes ≠ []) :
      Leaf (.contains (bytes.map Prod.fst))
        [name "payload", name "contains", .word ('0' :: 'x' :: bytes.flatMap hexPair)]

/-! ## Expressions -/

inductive Level where
  | unary
  | and
  | or

def notTexts : List (List Lexeme) := [[name "not"], [sign "!"]]

/-- Conjunction may be left out between its operands. -/
def andTexts : List (List Lexeme) := [[name "and"], [sign "&&"], []]

def orTexts : List (List Lexeme) := [[name "or"], [sign "||"]]

/-- The written forms of an expression at a level of precedence, with at most
`depth` operands of `not` or parentheses inside one another. -/
inductive Printed : Level → Nat → Expr → List Lexeme → Prop where
  | leaf {depth : Nat} {x : Expr} {text : List Lexeme} (h : Leaf x text) :
      Printed .unary (depth + 1) x text
  | not {depth : Nat} {x : Expr} {op text : List Lexeme} (hop : op ∈ notTexts)
      (h : Printed .unary depth x text) : Printed .unary (depth + 1) (.not x) (op ++ text)
  | parens {depth : Nat} {x : Expr} {text : List Lexeme} (h : Printed .or depth x text) :
      Printed .unary (depth + 1) x (sign "(" :: text ++ [sign ")"])
  | unary {depth : Nat} {x : Expr} {text : List Lexeme} (h : Printed .unary depth x text) :
      Printed .and depth x text
  | and {depth : Nat} {x y : Expr} {left op right : List Lexeme} (hop : op ∈ andTexts)
      (hx : Printed .and depth x left) (hy : Printed .and depth y right) :
      Printed .and depth (.and x y) (left ++ (op ++ right))
  | conjunction {depth : Nat} {x : Expr} {text : List Lexeme} (h : Printed .and depth x text) :
      Printed .or depth x text
  | or {depth : Nat} {x y : Expr} {left op right : List Lexeme} (hop : op ∈ orTexts)
      (hx : Printed .or depth x left) (hy : Printed .or depth y right) :
      Printed .or depth (.or x y) (left ++ (op ++ right))

/-! ## White space -/

def Blank (space : List Char) : Prop := ∀ c ∈ space, isWhitespace c = true

/-- The lexemes with white space around them, which two words in a row need
between them. -/
inductive Spaced : List Lexeme → List Char → Prop where
  | done {space : List Char} (h : Blank space) : Spaced [] space
  | lexeme {space chars : List Char} {l : Lexeme} {rest : List Lexeme} (hspace : Blank space)
      (h : Spaced rest chars)
      (hwords : l.isWord = true → ∀ next ∈ rest.head?, next.isWord = true →
        ∃ c ∈ chars.head?, isWhitespace c = true) :
      Spaced (l :: rest) (space ++ (l.chars ++ chars))

end UsbScope.Filter
