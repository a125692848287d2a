/-!
# JSON values

A value of the data format in which trees, manifests and reports are exchanged. Objects keep their
fields in order and may repeat a key; what a repeated key means is decided by the reader of a
particular shape. Numbers written with a fraction or an exponent are kept as they are spelled,
because no shape in this library holds one.
-/

namespace Migration

/-- A JSON value. -/
inductive Json where
  | null
  | bool (b : Bool)
  | int (n : Int)
  /-- A number that is not written as a whole number, by its spelling. -/
  | real (spelling : String)
  | str (s : String)
  | arr (items : List Json)
  | obj (fields : List (String × Json))
deriving Inhabited

namespace Json

/-- A natural number as a value. -/
def nat (n : Nat) : Json := .int n

/-- A list of strings as a value. -/
def strs (ss : List String) : Json := .arr (ss.map .str)

/-- An optional string; nothing is `null`. -/
def optStr : Option String → Json
  | none => .null
  | some s => .str s

/-! ### Equality -/

mutual

/-- Equality of values, field for field. -/
def beq : Json → Json → Bool
  | .null, .null => true
  | .bool a, .bool b => a == b
  | .int a, .int b => a == b
  | .real a, .real b => a == b
  | .str a, .str b => a == b
  | .arr as, .arr bs => beqItems as bs
  | .obj as, .obj bs => beqFields as bs
  | _, _ => false
termination_by structural a => a

/-- Equality of lists of values. -/
def beqItems : List Json → List Json → Bool
  | [], [] => true
  | a :: as, b :: bs => beq a b && beqItems as bs
  | _, _ => false
termination_by structural as => as

/-- Equality of lists of fields. -/
def beqFields : List (String × Json) → List (String × Json) → Bool
  | [], [] => true
  | (k, a) :: as, (l, b) :: bs => k == l && beq a b && beqFields as bs
  | _, _ => false
termination_by structural as => as

end

instance : BEq Json := ⟨beq⟩

/-! ### Depth -/

mutual

/-- How many containers are nested at most. -/
def depth : Json → Nat
  | .arr items => depthItems items + 1
  | .obj fields => depthFields fields + 1
  | _ => 0
termination_by structural j => j

/-- The greatest depth in a list of values. -/
def depthItems : List Json → Nat
  | [] => 0
  | j :: js => max (depth j) (depthItems js)
termination_by structural js => js

/-- The greatest depth in a list of fields. -/
def depthFields : List (String × Json) → Nat
  | [] => 0
  | (_, j) :: js => max (depth j) (depthFields js)
termination_by structural js => js

end

/-! ### Looking inside -/

/-- The value of a key; the last one counts when a key is repeated. -/
def get? (j : Json) (key : String) : Option Json :=
  match j with
  | .obj fields => (fields.reverse.find? (·.1 == key)).map (·.2)
  | _ => none

/-- The items of an array. -/
def items? : Json → Option (List Json)
  | .arr items => some items
  | _ => none

/-- The text of a string. -/
def str? : Json → Option String
  | .str s => some s
  | _ => none

/-- A truth value. -/
def bool? : Json → Option Bool
  | .bool b => some b
  | _ => none

/-- A whole number. -/
def int? : Json → Option Int
  | .int n => some n
  | _ => none

/-- A list of strings. -/
def strs? (j : Json) : Option (List String) := j.items?.bind (·.mapM str?)

end Json

end Migration
