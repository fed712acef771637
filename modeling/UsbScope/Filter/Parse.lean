import UsbScope.Filter.Expr

/-! # Filter syntax

The tokenizer and the recursive descent parser. Loops carry fuel: the
characters or tokens left, of which each round takes at least one. Nesting is
bounded by the source itself. -/
namespace UsbScope
open UsbScope.Lib UsbScope.Common
namespace Filter

/-! ## Tokens -/

structure Token where
  text : String
  quoted : Bool
deriving DecidableEq

/-- `char::is_whitespace`: the Unicode property White_Space. -/
def isWhitespace (c : Char) : Bool :=
  let n := c.toNat
  (0x09 ≤ n && n ≤ 0x0d) || n == 0x20 || n == 0x85 || n == 0xa0 || n == 0x1680 ||
    (0x2000 ≤ n && n ≤ 0x200a) || n == 0x2028 || n == 0x2029 || n == 0x202f || n == 0x205f ||
    n == 0x3000

def oneOf (set : String) (c : Char) : Bool := set.toList.contains c

/-- The text up to the closing quotation mark, and what follows it. -/
def quotedText (mark : Char) : List Char → List Char → Result (String × List Char)
  | _, [] => .error "unterminated quoted string"
  | text, c :: rest =>
    if c = mark then .ok (String.ofList text.reverse, rest)
    else if c = '\\' then
      match rest with
      | [] => .error "unfinished quoted escape"
      | d :: rest => quotedText mark (d :: text) rest
    else quotedText mark (c :: text) rest

/-- Whether an operator takes the next character too. -/
def doubled (ch : Char) : List Char → Bool
  | [] => false
  | c :: _ => (c == '=' && oneOf "!=<>" ch) || (c == ch && oneOf "&|" ch)

def inWord (c : Char) : Bool := !isWhitespace c && !oneOf "()[]:&|!=<>\"'" c

def tokenizeFrom : Nat → List Char → Result (List Token)
  | 0, _ => .ok []
  | _ + 1, [] => .ok []
  | fuel + 1, ch :: rest =>
    if isWhitespace ch then tokenizeFrom fuel rest
    else if oneOf "'\"" ch then do
      let (text, rest) ← quotedText ch [] rest
      let tokens ← tokenizeFrom fuel rest
      .ok (⟨text, true⟩ :: tokens)
    else if oneOf "()[]:&|!=<>" ch then do
      let n := if doubled ch rest then 1 else 0
      let tokens ← tokenizeFrom fuel (rest.drop n)
      .ok (⟨String.ofList (ch :: rest.take n), false⟩ :: tokens)
    else do
      let tokens ← tokenizeFrom fuel (rest.dropWhile inWord)
      .ok (⟨String.ofList (ch :: rest.takeWhile inWord), false⟩ :: tokens)

def tokenize (input : String) : Result (List Token) :=
  tokenizeFrom input.toList.length input.toList

/-! ## Numbers -/

def toDigit (radix : Nat) (c : Char) : Option Nat :=
  let digit :=
    if '0' ≤ c ∧ c ≤ '9' then some (c.toNat - 48)
    else if 'a' ≤ c ∧ c ≤ 'z' then some (c.toNat - 87)
    else if 'A' ≤ c ∧ c ≤ 'Z' then some (c.toNat - 55)
    else none
  digit.filter fun d => d < radix

/-- The value of a nonempty sequence of digits. -/
def digits (radix : Nat) : List Char → Option Nat
  | [] => none
  | cs => cs.foldlM (fun n c => (toDigit radix c).map fun d => radix * n + d) 0

/-- `from_str_radix`, less the check of the range: one sign, of which `-` only
for signed types, and at least one digit. -/
def fromStrRadix (radix : Nat) (signed : Bool) : List Char → Option Int
  | '+' :: rest => (digits radix rest).map fun n => (n : Int)
  | '-' :: rest => if signed then (digits radix rest).map fun n => -(n : Int) else none
  | cs => (digits radix cs).map fun n => (n : Int)

/-- Keep a value that fits the type. -/
def inRange (low high : Int) (v : Option Int) : Option Int :=
  v.filter fun v => low ≤ v ∧ v ≤ high

/-- `strip_prefix("0x")`. -/
def hexDigits (text : String) : Option (List Char) :=
  match text.toList with
  | '0' :: 'x' :: rest => some rest
  | _ => none

def number (text : String) : Result Int :=
  match hexDigits text with
  | some hex => context (inRange 0 (2 ^ 64 - 1) (fromStrRadix 16 false hex)) "invalid hex number"
  | none => do
    let v ← context (inRange (-2 ^ 127) (2 ^ 127 - 1) (fromStrRadix 10 true text.toList))
      ("invalid number '" ++ text ++ "'")
    ensure (-2 ^ 63 ≤ v ∧ v ≤ 2 ^ 64 - 1) "number out of range"
    .ok v

def stripSuffix (suffix text : String) : Option String :=
  if suffix.toList.isSuffixOf text.toList then
    some (String.ofList (text.toList.take (text.toList.length - suffix.toList.length)))
  else none

def durationIn (text : String) : List (String × Int) → Result Int
  | [] => number text
  | (suffix, multiplier) :: rest =>
    match stripSuffix suffix text with
    | none => durationIn text rest
    | some value => do
      let v ← number value
      context (inRange (-2 ^ 127) (2 ^ 127 - 1) (some (v * multiplier))) "duration overflow"

def duration (text : String) : Result Int :=
  durationIn text [("ns", 1), ("us", 1000), ("ms", 1000000), ("s", 1000000000)]

/-- One byte of a hex pattern, from a pair of bytes of its text. -/
def hexByte (a b : UInt8) : Result UInt8 :=
  if a < 0x80 ∧ b < 0x80 then do
    let v ← context (fromStrRadix 16 false [Char.ofNat a.toNat, Char.ofNat b.toNat])
      "invalid digit found in string"
    .ok (UInt8.ofNat v.toNat)
  else if 0xc2 ≤ a ∧ a ≤ 0xdf ∧ 0x80 ≤ b ∧ b ≤ 0xbf then .error "invalid digit found in string"
  else .error "invalid utf-8 sequence"

def hexBytes : Bytes → Result Bytes
  | a :: b :: rest => do
    let x ← hexByte a b
    let xs ← hexBytes rest
    .ok (x :: xs)
  | _ => .ok []

def intoBytes (text : String) : Bytes := text.toUTF8.data.toList

/-- The bytes of a search pattern. -/
def pattern (token : Token) : Result Bytes := do
  let bytes ←
    if token.quoted then (.ok (intoBytes token.text) : Result Bytes)
    else do
      let hex ← context (hexDigits token.text)
        "payload pattern must be quoted text or 0x-prefixed hex bytes"
      let hex := intoBytes (String.ofList hex)
      ensure (hex.length % 2 = 0) "hex pattern must contain whole bytes"
      hexBytes hex
  ensure (bytes ≠ []) "empty payload pattern"
  .ok bytes

/-! ## The parser

Its state is the list of tokens not yet taken. -/

namespace Parser

def peek (tokens : List Token) : Option String := tokens.head?.map Token.text

def take : List Token → Result (Token × List Token)
  | [] => .error "unexpected end of filter"
  | token :: rest => .ok (token, rest)

/-- The tokens behind `text`, if that is next. -/
def accept (text : String) : List Token → Option (List Token)
  | [] => none
  | token :: rest => if token.text = text then some rest else none

/-- `{:?}` of a peeked token, for plain text. -/
def debug : Option String → String
  | none => "None"
  | some text => "Some(\"" ++ text ++ "\")"

def expect (text : String) (tokens : List Token) : Result (List Token) :=
  context (accept text tokens) ("expected '" ++ text ++ "', found " ++ debug (peek tokens))

/-- A field name, with the value of a shorthand. -/
def fieldNamed (name : String) : Option (Field × Option Int) :=
  match name with
  | "bus" => some (.bus, none)
  | "dev" | "device" => some (.device, none)
  | "vid" => some (.vid, none)
  | "pid" => some (.pid, none)
  | "ep" | "endpoint" => some (.endpoint, none)
  | "epnum" => some (.epNum, none)
  | "in" => some (.direction, some 1)
  | "out" => some (.direction, some 0)
  | "dir" | "direction" => some (.direction, none)
  | "iso" | "isoc" => some (.transfer, some 0)
  | "interrupt" | "intr" => some (.transfer, some 1)
  | "control" | "ctrl" => some (.transfer, some 2)
  | "bulk" => some (.transfer, some 3)
  | "type" => some (.transfer, none)
  | "requested" => some (.requested, none)
  | "actual" => some (.actual, none)
  | "len" | "length" => some (.length, none)
  | "captured" => some (.captured, none)
  | "frames" => some (.frames, none)
  | "status" => some (.status, none)
  | "event" => some (.event, none)
  | "interval" => some (.interval, none)
  | "start_frame" => some (.startFrame, none)
  | "errors" => some (.errors, none)
  | "urb" => some (.urbId, none)
  | "setup.request" => some (.request, none)
  | "setup.type" => some (.requestType, none)
  | "setup.value" => some (.value, none)
  | "setup.index" => some (.index, none)
  | "setup.length" => some (.setupLength, none)
  | "latency" => some (.latency, none)
  | _ => none

/-- The value of a field, which may be a name for some fields. -/
def fieldValue (field : Field) (text : String) : Result Int :=
  match field with
  | .direction =>
    match text with
    | "in" => .ok 1
    | "out" => .ok 0
    | _ => number text
  | .transfer =>
    match text with
    | "iso" | "isoc" => .ok 0
    | "interrupt" | "intr" => .ok 1
    | "control" | "ctrl" => .ok 2
    | "bulk" => .ok 3
    | _ => number text
  | .event =>
    match text with
    | "S" | "submit" => .ok submitType.toNat
    | "C" | "complete" => .ok completeType.toNat
    | "E" | "error" => .ok errorType.toNat
    | _ => number text
  | .latency => duration text
  | _ => number text

/-- The comparison operator, equality when there is none. -/
def comparison (tokens : List Token) : Compare × List Token :=
  match peek tokens with
  | some "=" | some "==" => (.eq, tokens.tail)
  | some "!=" => (.ne, tokens.tail)
  | some "<" => (.lt, tokens.tail)
  | some "<=" => (.le, tokens.tail)
  | some ">" => (.gt, tokens.tail)
  | some ">=" => (.ge, tokens.tail)
  | _ => (.eq, tokens)

/-- `[OFFSET]` or `[OFFSET:WIDTH]`. -/
def extraction (tokens : List Token) : Result (Field × List Token) := do
  let tokens ← expect "[" tokens
  let (token, tokens) ← take tokens
  let offset ← number token.text
  ensure (0 ≤ offset ∧ offset < 2 ^ 64) "payload offset must be nonnegative and fit u64"
  let (size, tokens) ←
    match accept ":" tokens with
    | some tokens => do
      let (token, tokens) ← take tokens
      let size ← number token.text
      ensure (0 ≤ size ∧ size < 2 ^ 8) "invalid payload width"
      (.ok (size, tokens) : Result (Int × List Token))
    | none => .ok (1, tokens)
  ensure (size = 1 ∨ size = 2 ∨ size = 4 ∨ size = 8) "payload width must be 1, 2, 4, or 8"
  let tokens ← expect "]" tokens
  .ok (.payload (UInt64.ofNat offset.toNat) (UInt8.ofNat size.toNat), tokens)

/-- The mask, comparison and value that follow a field. -/
def condition (field : Field) (tokens : List Token) : Result (Expr × List Token) := do
  let (mask, tokens) ←
    match accept "&" tokens with
    | some tokens => do
      let (token, tokens) ← take tokens
      let mask ← number token.text
      ensure (0 ≤ mask ∧ mask < 2 ^ 64) "mask must fit u64"
      (.ok (some (UInt64.ofNat mask.toNat), tokens) : Result (Option UInt64 × List Token))
    | none => .ok (none, tokens)
  let (comparison, tokens) := comparison tokens
  let (token, tokens) ← take tokens
  let value ← fieldValue field token.text
  .ok (.predicate ⟨field, mask, comparison, value⟩, tokens)

def predicate (tokens : List Token) : Result (Expr × List Token) := do
  let (token, tokens) ← take tokens
  if token.text = "payload" then
    match accept "contains" tokens with
    | some tokens => do
      let (token, tokens) ← take tokens
      let bytes ← pattern token
      .ok (.contains bytes, tokens)
    | none => do
      let (field, tokens) ← extraction tokens
      condition field tokens
  else
    match fieldNamed token.text with
    | none => .error ("unknown USB filter field '" ++ token.text ++ "'")
    | some (field, some value) => .ok (.predicate ⟨field, none, .eq, value⟩, tokens)
    | some (field, none) => condition field tokens

/-- One round of `balanced`: join neighbours. -/
def pairUp (and : Bool) : Expr → List Expr → Expr × List Expr
  | a, [] => (a, [])
  | a, [b] => (if and then .and a b else .or a b, [])
  | a, b :: c :: rest =>
    let (first, more) := pairUp and c rest
    (if and then .and a b else .or a b, first :: more)

def balanceLoop (and : Bool) : Nat → Expr → List Expr → Expr
  | 0, first, _ => first
  | fuel + 1, first, rest =>
    if rest.isEmpty then first
    else
      let (first, rest) := pairUp and first rest
      balanceLoop and fuel first rest

/-- `balanced` of a nonempty list of nodes. -/
def balanced (first : Expr) (rest : List Expr) (and : Bool) : Expr :=
  balanceLoop and rest.length first rest

section
variable (unary : List Token → Result (Expr × List Token))

/-- The further operands of a conjunction. -/
def andRest : Nat → List Token → Result (List Expr × List Token)
  | 0, tokens => .ok ([], tokens)
  | fuel + 1, tokens =>
    match peek tokens with
    | none | some ")" | some "or" | some "||" => .ok ([], tokens)
    | _ => do
      let tokens := ((accept "and" tokens).or (accept "&&" tokens)).getD tokens
      let (node, tokens) ← unary tokens
      let (nodes, tokens) ← andRest fuel tokens
      .ok (node :: nodes, tokens)

def and (tokens : List Token) : Result (Expr × List Token) := do
  let (node, tokens) ← unary tokens
  let (nodes, tokens) ← andRest unary tokens.length tokens
  .ok (balanced node nodes true, tokens)

/-- The further operands of a disjunction. -/
def orRest : Nat → List Token → Result (List Expr × List Token)
  | 0, tokens => .ok ([], tokens)
  | fuel + 1, tokens =>
    match (accept "or" tokens).or (accept "||" tokens) with
    | none => .ok ([], tokens)
    | some tokens => do
      let (node, tokens) ← and unary tokens
      let (nodes, tokens) ← orRest fuel tokens
      .ok (node :: nodes, tokens)

def or (tokens : List Token) : Result (Expr × List Token) := do
  let (node, tokens) ← and unary tokens
  let (nodes, tokens) ← orRest unary tokens.length tokens
  .ok (balanced node nodes false, tokens)

end

/-- `unary`, with the nesting still allowed. -/
def unary : Nat → List Token → Result (Expr × List Token)
  | 0, _ => .error "filter nesting exceeds parser resource limit"
  | budget + 1, tokens =>
    match (accept "not" tokens).or (accept "!" tokens) with
    | some tokens => do
      let (node, tokens) ← unary budget tokens
      .ok (.not node, tokens)
    | none =>
      match accept "(" tokens with
      | some tokens => do
        let (node, tokens) ← or (unary budget) tokens
        let tokens ← expect ")" tokens
        .ok (node, tokens)
      | none => predicate tokens

def maxDepth : Nat := 128

end Parser

def parse (source : String) : Result Filter := do
  let tokens ← tokenize source
  if tokens.isEmpty then .ok ⟨.all⟩
  else do
    let (expression, tokens) ← Parser.or (Parser.unary Parser.maxDepth) tokens
    ensure (Parser.peek tokens = none) ("unexpected token " ++ Parser.debug (Parser.peek tokens))
    .ok ⟨expression⟩

end Filter
end UsbScope
