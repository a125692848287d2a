import Migration.ParseError
import Migration.Tree.Basic

/-!
# Reading tokens

A cursor stands in a row of tokens. A parser reads some of them and gives a value together with the
cursor after it, or the cause for which the source is refused.

Trivia belongs to the token behind it until a node takes it (`takeLead`): the token is bare from
then on, so no trivia is taken twice.

Two combinators carry all repetition. `fix` ties the knot of a recursive production; `repeatWhile`
runs a step as long as the cursor asks for it. Both are bounded by the number of tokens left, which
is never felt, because no production re-enters itself and no step ends without having read a token.
-/

namespace Migration

/-- A position in a row of tokens. -/
structure Cursor where
  /-- The tokens not yet read, the end of the file apart. -/
  rest : List Token
  eof : Token
  /-- The number of the next node. -/
  nextId : NodeId

namespace Cursor

/-- The cursor in front of the first token. -/
def ofTokens (ts : Tokens) : Cursor := ⟨ts.words, ts.eof, 0⟩

/-- The `n`-th token from here; beyond the last token stands the end of the file. -/
def peekAt (c : Cursor) (n : Nat) : Token := c.rest.getD n c.eof

/-- The token at the cursor. -/
def peek (c : Cursor) : Token := c.rest.headD c.eof

/-- The token at the cursor is spelled `text`. -/
def isAt (c : Cursor) (text : String) : Bool := c.peek.is text

/-- The token at the cursor is one of `texts`. -/
def isAtAny (c : Cursor) (texts : List String) : Bool := texts.any c.isAt

/-- All tokens are read. -/
def atEnd (c : Cursor) : Bool := c.rest.isEmpty

/-- The cursor after one token. The end of the file is never passed, only its trivia is taken. -/
def advance (c : Cursor) : Cursor :=
  match c.rest with
  | [] => { c with eof := c.eof.bare }
  | _ :: rest => { c with rest }

/-- The cursor with the trivia of its token taken away. -/
def stripLead (c : Cursor) : Cursor :=
  match c.rest with
  | [] => { c with eof := c.eof.bare }
  | t :: rest => { c with rest := t.bare :: rest }

/-- The refusal of the token at the cursor. -/
def unexpected (c : Cursor) (expected : Expectation) : ParseError :=
  .unexpected (if c.atEnd then none else some c.peek.text) expected c.peek.offset

/-- The refusal of a construct at the cursor. -/
def unsupported (c : Cursor) (what : Construct) : ParseError := .unsupported what c.peek.offset

end Cursor

/-- A reader of tokens. -/
abbrev Parser (α : Type) := StateT Cursor (Except ParseError) α

namespace Parser

/-- Refuse the token at the cursor. -/
def unexpected {α : Type} (expected : Expectation) : Parser α :=
  fun c => .error (c.unexpected expected)

/-- Refuse a construct at the cursor. -/
def unsupported {α : Type} (what : Construct) : Parser α :=
  fun c => .error (c.unsupported what)

/-- The number of a new node. -/
def fresh : Parser NodeId := fun c => .ok (c.nextId, { c with nextId := c.nextId + 1 })

/-- Read one token. -/
def bump : Parser Token := fun c => .ok (c.peek, c.advance)

/-- Take the trivia of the token at the cursor, without reading the token. -/
def takeLead : Parser Trivia := fun c => .ok (c.peek.lead, c.stripLead)

/-- Read the token spelled `text`, and give its trivia. -/
def expect (text : String) : Parser Trivia := do
  if (← get).isAt text then return (← bump).lead else unexpected (.token text)

/-- Read with `p` when the token at the cursor is spelled `text`. -/
def whenAt {α : Type} (text : String) (p : Parser α) : Parser (Option α) := do
  if (← get).isAt text then return some (← p) else return none

/-- The `n`-th approximation of a recursive production: re-entered `n` times, it refuses. -/
def approx {α : Type} (F : Parser α → Parser α) : Nat → Parser α
  | 0, c => unexpected .expression c
  | n + 1, c => F (approx F n) c

/-- The production that `F` describes in terms of itself. -/
def fix {α : Type} (F : Parser α → Parser α) : Parser α :=
  fun c => approx F (c.rest.length + 1) c

/-- At most `n` rounds of `step`. -/
def repeatUpTo {α : Type} (more : Cursor → Bool) (step : α → Parser α) : Nat → α → Parser α
  | 0, a => pure a
  | n + 1, a => do
    if more (← get) then
      let a ← step a
      repeatUpTo more step n a
    else return a

/-- Run `step` from `a` as long as the cursor is one that asks for `more`. -/
def repeatWhile {α : Type} (more : Cursor → Bool) (step : α → Parser α) (a : α) : Parser α :=
  fun c => repeatUpTo more step (c.rest.length + 1) a c

/-- The values that `p` reads as long as the cursor is one that asks for `more`. -/
def many {α : Type} (more : Cursor → Bool) (p : Parser α) : Parser (List α) :=
  fix fun self => do
    if more (← get) then
      let a ← p
      return a :: (← self)
    else return []

/-! ### Comma-separated lists -/

/-- Items with the trivia in front of the comma that follows each; the last has none. -/
def padItems {α : Type} (first : α) : List (Trivia × α) → List (Padded α)
  | [] => [⟨first, ""⟩]
  | (after, next) :: more => ⟨first, after⟩ :: padItems next more

/-- One item or more, separated by commas. -/
def separated {α : Type} (item : Parser α) : Parser (List (Padded α)) := do
  let first ← item
  let more ← many (·.isAt ",") do
    let comma ← bump
    return (comma.lead, ← item)
  return padItems first more

/-- Items separated by commas between brackets. -/
def listing {α : Type} (opening closing : String) (item : Parser α) : Parser (Listing α) := do
  let lead ← expect opening
  let items ← if (← get).isAt closing then pure [] else separated item
  let close ← expect closing
  return ⟨lead, items, close⟩

end Parser

end Migration
