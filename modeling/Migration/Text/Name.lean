/-!
# Dotted names

A name is any string; dots divide it into segments. `com.acme.Limits` has the segments `com`,
`acme` and `Limits`, its simple name is `Limits` and its qualifier is `com.acme`. The functions are
total: a name without a dot is its own simple name and has no qualifier, and a name that starts or
ends with a dot has an empty segment there.
-/

namespace Migration.Name

/-- The maximal runs without `sep`, in order; there is always at least one. -/
def splitAt (sep : Char) : List Char → List (List Char)
  | [] => [[]]
  | c :: cs =>
    if c == sep then [] :: splitAt sep cs
    else
      match splitAt sep cs with
      | [] => [[c]]
      | word :: words => (c :: word) :: words

/-- The segments of a name, first to last. -/
def segments (name : String) : List String := (splitAt '.' name.toList).map String.ofList

/-- The segments put together again. -/
def ofSegments (parts : List String) : String := ".".intercalate parts

/-- What follows the last dot, or the whole name when it has none. -/
def simple (name : String) : String :=
  String.ofList ((name.toList.reverse.takeWhile (· != '.')).reverse)

/-- What precedes the last dot. -/
def qualifier? (name : String) : Option String :=
  match name.toList.reverse.dropWhile (· != '.') with
  | [] => none
  | _ :: rest => some (String.ofList rest.reverse)

/-- What precedes the first dot, or the whole name when it has none. -/
def head (name : String) : String := String.ofList (name.toList.takeWhile (· != '.'))

/-- The name has more than one segment. -/
def isQualified (name : String) : Bool := name.toList.contains '.'

/-- `inner` inside `outer`. -/
def join (outer inner : String) : String := outer ++ "." ++ inner

/-- The part after the first dot, dot included, or nothing. -/
def afterHead (name : String) : String := String.ofList (name.toList.dropWhile (· != '.'))

end Migration.Name
