import Migration.Json.Basic
import Migration.Json.Decimal

/-!
# JSON text, read

The strict grammar: no byte order mark, no comments, no trailing commas and nothing after the value.
A string holds no raw control and no escaped half of a surrogate pair, a number must lie in the
range of a double, and containers nest to a fixed depth at most. Text that breaks a rule has no
value; the reader does not say which rule it was.

Every function takes characters and gives what it read together with the characters after it.
Containers are read by recursion on the depth that is left, so that only the depth, and never the
text, decides how far the recursion goes.
-/

namespace Migration.Json

/-- How deep containers may nest in a text. -/
def maxDepth : Nat := 127

/-! ### Blanks, digits and strings -/

/-- A blank of the format. -/
def isBlank (c : Char) : Bool := c == ' ' || c == '\n' || c == '\t' || c == '\r'

/-- The characters after leading blanks. -/
def skipBlanks (cs : List Char) : List Char := cs.dropWhile isBlank

/-- The value of a hexadecimal digit of either case. -/
def hexValue? (c : Char) : Option Nat :=
  if c.isDigit then some (c.toNat - '0'.toNat)
  else if 'a' ≤ c && c ≤ 'f' then some (c.toNat - 'a'.toNat + 10)
  else if 'A' ≤ c && c ≤ 'F' then some (c.toNat - 'A'.toNat + 10)
  else none

/-- The value of four hexadecimal digits. -/
def hex4? (a b c d : Char) : Option Nat := do
  let a ← hexValue? a
  let b ← hexValue? b
  let c ← hexValue? c
  let d ← hexValue? d
  return ((a * 16 + b) * 16 + c) * 16 + d

/-- The first half of a surrogate pair. -/
def isHighSurrogate (n : Nat) : Bool := 0xd800 ≤ n && n ≤ 0xdbff

/-- The second half of a surrogate pair. -/
def isLowSurrogate (n : Nat) : Bool := 0xdc00 ≤ n && n ≤ 0xdfff

/-- The code point of a surrogate pair. -/
def pairValue (high low : Nat) : Nat := 0x10000 + (high - 0xd800) * 0x400 + (low - 0xdc00)

/-- The character of an escape with a single letter. -/
def shortEscape? : Char → Option Char
  | '"' => some '"'
  | '\\' => some '\\'
  | '/' => some '/'
  | 'b' => some '\x08'
  | 'f' => some '\x0c'
  | 'n' => some '\n'
  | 'r' => some '\r'
  | 't' => some '\t'
  | _ => none

/-- The rest of a string after its opening quote, through its closing quote. -/
def stringBody : List Char → Option (List Char × List Char)
  | '"' :: rest => some ([], rest)
  | '\\' :: 'u' :: a :: b :: c :: d :: '\\' :: 'u' :: e :: f :: g :: h :: rest => do
    let first ← hex4? a b c d
    if isHighSurrogate first then
      let second ← hex4? e f g h
      guard (isLowSurrogate second)
      let (body, rest) ← stringBody rest
      return (Char.ofNat (pairValue first second) :: body, rest)
    else
      guard (!isLowSurrogate first)
      let (body, rest) ← stringBody ('\\' :: 'u' :: e :: f :: g :: h :: rest)
      return (Char.ofNat first :: body, rest)
  | '\\' :: 'u' :: a :: b :: c :: d :: rest => do
    let first ← hex4? a b c d
    guard (!isHighSurrogate first && !isLowSurrogate first)
    let (body, rest) ← stringBody rest
    return (Char.ofNat first :: body, rest)
  | '\\' :: letter :: rest => do
    let c ← shortEscape? letter
    let (body, rest) ← stringBody rest
    return (c :: body, rest)
  | c :: rest => do
    guard (c != '\\' && 0x20 ≤ c.toNat)
    let (body, rest) ← stringBody rest
    return (c :: body, rest)
  | [] => none

/-! ### Numbers -/

/-- A row of at least one digit. -/
def digits1 (cs : List Char) : Option (List Char × List Char) :=
  match cs.span Char.isDigit with
  | ([], _) => none
  | (ds, rest) => some (ds, rest)

/-- The digits before the point: a single zero, or digits that start with another. -/
def wholeDigits : List Char → Option (List Char × List Char)
  | '0' :: rest =>
    match rest with
    | c :: _ => if c.isDigit then none else some (['0'], rest)
    | [] => some (['0'], [])
  | cs => digits1 cs

/-- The digits after the point; none when there is no point. -/
def fractionDigits : List Char → Option (List Char × List Char)
  | '.' :: rest => digits1 rest
  | cs => some ([], cs)

/-- The spelling of an exponent's mark and sign, its sign and the characters after. -/
def exponentSign : List Char → List Char × Bool × List Char
  | '+' :: rest => (['+'], false, rest)
  | '-' :: rest => (['-'], true, rest)
  | cs => ([], false, cs)

/-- An exponent with its spelling; nothing when there is none. -/
def exponentPart (cs : List Char) : Option (Option (List Char × Int) × List Char) :=
  match cs with
  | c :: rest =>
    if c == 'e' || c == 'E' then do
      let (sign, negative, rest) := exponentSign rest
      let (ds, rest) ← digits1 rest
      let n : Int := digitsValue ds
      return (some (c :: sign ++ ds, if negative then -n else n), rest)
    else some (none, cs)
  | [] => some (none, [])

/-- The digits of a number after its sign. -/
def unsignedNumber (negative : Bool) (cs : List Char) : Option (Json × List Char) := do
  let (whole, rest) ← wholeDigits cs
  let (fraction, rest) ← fractionDigits rest
  let (exponent, rest) ← exponentPart rest
  guard (Decimal.ofDigits whole fraction ((exponent.map (·.2)).getD 0)).isDouble
  let point := if fraction.isEmpty then [] else '.' :: fraction
  let mark := (exponent.map (·.1)).getD []
  let isWhole := fraction.isEmpty && exponent.isNone && !(negative && whole == ['0'])
  let n : Int := digitsValue whole
  if isWhole then
    return (.int (if negative then -n else n), rest)
  else
    let sign := if negative then ['-'] else []
    return (.real (String.ofList (sign ++ whole ++ point ++ mark)), rest)

/-- A number. Whole numbers are those without fraction and exponent, minus zero apart. -/
def number : List Char → Option (Json × List Char)
  | '-' :: rest => unsignedNumber true rest
  | cs => unsignedNumber false cs

/-! ### Values -/

/-- The items of a container after its first one: `separator` before each, `closing` at the end. -/
def itemsAfter {α : Type} (item : List Char → Option (α × List Char)) (closing : Char) :
    Nat → List Char → Option (List α × List Char)
  | 0, _ => none
  | n + 1, cs =>
    match skipBlanks cs with
    | ',' :: rest => do
      let (x, rest) ← item (skipBlanks rest)
      let (xs, rest) ← itemsAfter item closing n rest
      return (x :: xs, rest)
    | c :: rest => if c == closing then some ([], rest) else none
    | [] => none

/-- The items of a container after its opening bracket, through its closing one. -/
def itemsOf {α : Type} (item : List Char → Option (α × List Char)) (closing : Char)
    (cs : List Char) : Option (List α × List Char) :=
  match skipBlanks cs with
  | [] => none
  | c :: rest =>
    if c == closing then some ([], rest)
    else do
      let (x, rest) ← item (c :: rest)
      let (xs, rest) ← itemsAfter item closing (rest.length + 1) rest
      return (x :: xs, rest)

/-- A field: its key, a colon and its value. -/
def fieldOf (value : List Char → Option (Json × List Char)) :
    List Char → Option ((String × Json) × List Char)
  | '"' :: rest => do
    let (key, rest) ← stringBody rest
    match skipBlanks rest with
    | ':' :: rest =>
      let (v, rest) ← value (skipBlanks rest)
      return ((String.ofList key, v), rest)
    | _ => none
  | _ => none

/-- A value that is neither an array nor an object. -/
def scalar : List Char → Option (Json × List Char)
  | 'n' :: 'u' :: 'l' :: 'l' :: rest => some (.null, rest)
  | 't' :: 'r' :: 'u' :: 'e' :: rest => some (.bool true, rest)
  | 'f' :: 'a' :: 'l' :: 's' :: 'e' :: rest => some (.bool false, rest)
  | '"' :: rest => (stringBody rest).map fun (body, rest) => (.str (String.ofList body), rest)
  | cs => number cs

/-- A value with at most `depth` nested containers, starting at its first character. -/
def value : Nat → List Char → Option (Json × List Char)
  | 0, cs =>
    match cs with
    | '[' :: _ => none
    | '\x7b' :: _ => none
    | _ => scalar cs
  | depth + 1, cs =>
    match cs with
    | '[' :: rest => (itemsOf (value depth) ']' rest).map fun (xs, rest) => (.arr xs, rest)
    | '\x7b' :: rest =>
      (itemsOf (fieldOf (value depth)) '\x7d' rest).map fun (xs, rest) => (.obj xs, rest)
    | _ => scalar cs

/-- The value that a whole text spells with at most `depth` nested containers. -/
def parseWithin (depth : Nat) (text : String) : Option Json := do
  let (j, rest) ← value depth (skipBlanks text.toList)
  guard (skipBlanks rest).isEmpty
  return j

/-- The value that a whole text spells. -/
def parse (text : String) : Option Json := parseWithin maxDepth text

end Migration.Json
