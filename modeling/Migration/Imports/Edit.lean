import Migration.Tree.Trivia
import Migration.Tree.Basic

/-!
# Editing a list of imports

Imports stand in groups divided by empty lines. A new import goes into the group with which it
shares most leading segments, at its place in the order of names, and a removed one hands its trivia
on when it opened a group, so that groups stay apart and header comments stay where they are.
-/

namespace Migration

namespace Import

/-- The import after other trivia. -/
def withLead (i : Import) (lead : Trivia) : Import := { i with lead }

end Import

namespace Imports

/-! ### Line breaks -/

/-- The text contains a carriage return followed by a line feed. -/
def hasWindowsBreak : List Char → Bool
  | '\r' :: '\n' :: _ => true
  | _ :: rest => hasWindowsBreak rest
  | [] => false

/-- The trivia that decide which line break a module uses: in front of imports and types, and at the
end of the file. -/
def breakSamples (m : Module) : List Trivia :=
  m.imports.map (·.lead) ++ m.types.map (·.lead) ++ [m.eof]

/-- The line break that a module uses. -/
def lineBreak (m : Module) : String :=
  if (breakSamples m).any (hasWindowsBreak ·.toList) then "\r\n" else "\n"

/-- Two line breaks. -/
def blankLine (eol : String) : String := eol ++ eol

/-- Trivia with an empty line in it, made by line breaks in front where there is none. -/
def ensureBlankLine (eol : String) (lead : Trivia) : Trivia :=
  if Trivia.hasBlankLine lead then lead
  else if eol.toList.isPrefixOf lead.toList then eol ++ lead
  else blankLine eol ++ lead

/-- The text through the last occurrence of `sep`, and the text after it. -/
def splitAfterLast (sep : List Char) : List Char → Option (List Char × List Char)
  | [] => none
  | c :: cs =>
    match splitAfterLast sep cs with
    | some (before, after) => some (c :: before, after)
    | none =>
      if sep.isPrefixOf (c :: cs) then some (sep, (c :: cs).drop sep.length) else none

/-- The trivia at the top of a file, divided at its last empty line: the header stays on top of a
new import, the rest stays with the type below it, after an empty line. -/
def splitHeader (eol : String) (lead : Trivia) : Trivia × Trivia :=
  match splitAfterLast (blankLine eol).toList lead.toList with
  | some (header, rest) => (String.ofList header, blankLine eol ++ String.ofList rest)
  | none => ("", blankLine eol ++ lead)

/-! ### Removing -/

/-- The imports that are not marked for removal, and trivia with nowhere to go. A marked import at
the start of the list or of a group hands its trivia to the next import that is kept. `started`
tells whether an import was kept before, `carry` is the trivia handed on so far. -/
def keep (started : Bool) (carry : Option Trivia) :
    List (Import × Bool) → List Import × Option Trivia
  | [] => ([], carry)
  | (i, true) :: rest =>
    let opensGroup := !started || Trivia.hasBlankLine i.lead
    keep started (if opensGroup then carry.or (some i.lead) else carry) rest
  | (i, false) :: rest =>
    let (kept, left) := keep true none rest
    (i.withLead (carry.getD i.lead) :: kept, left)

/-! ### Inserting -/

/-- Imports divided into groups: an import after an empty line opens a new one. -/
def groups : List Import → List (List Import)
  | [] => []
  | i :: rest =>
    match rest, groups rest with
    | next :: _, g :: gs =>
      if Trivia.hasBlankLine next.lead then [i] :: g :: gs else (i :: g) :: gs
    | _, _ => [[i]]

/-- How many leading segments two lists share. -/
def commonLength : List String → List String → Nat
  | a :: as, b :: bs => if a == b then commonLength as bs + 1 else 0
  | _, _ => 0

/-- How many leading segments two names share. -/
def commonSegments (a b : String) : Nat := commonLength (Name.segments a) (Name.segments b)

/-- The greatest number of leading segments that a name shares with an import of the group that is
not static. -/
def groupScore? (name : String) (group : List Import) : Option Nat :=
  ((group.filter (!·.isStatic)).map (commonSegments ·.name name)).max?

/-- The position of the group with the greatest score, the earliest of these; none when all imports
are static. -/
def bestGroup? (name : String) (gs : List (List Import)) : Option Nat :=
  (gs.zipIdx.foldl (fun best (g, k) =>
    match best, groupScore? name g with
    | best, none => best
    | none, some score => some (k, score)
    | some (l, top), some score => if top < score then some (k, score) else some (l, top))
    (none : Option (Nat × Nat))).map (·.1)

/-- The position in a group at which an import of `name` is in order: in front of the first import
that is not static and has a greater name, or else behind the last that is not static. -/
def positionIn (name : String) (group : List Import) : Nat :=
  match group.findIdx? fun i => !i.isStatic && decide (name < i.name) with
  | some k => k
  | none => group.length - (group.reverse.findIdx fun i => !i.isStatic)

/-- Put an import into a group at its place. At the front it takes over the trivia of the import
that stood there. -/
def insertInto (eol : String) (new : Import) (group : List Import) : List Import :=
  match positionIn new.name group, group with
  | 0, first :: rest => new.withLead first.lead :: first.withLead eol :: rest
  | k, group => group.take k ++ new.withLead eol :: group.drop k

/-- Put an import into a list that is not empty. Static imports only are a group of their own, in
front of which the new import stands. -/
def insertSorted (eol : String) (new : Import) (imports : List Import) : List Import :=
  let gs := groups imports
  match bestGroup? new.name gs, imports with
  | some k, _ => (gs.modify k (insertInto eol new)).flatten
  | none, first :: rest => new.withLead first.lead :: first.withLead (blankLine eol) :: rest
  | none, [] => [new]

end Imports

end Migration
