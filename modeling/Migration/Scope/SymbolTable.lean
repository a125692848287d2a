import Migration.Scope.TypeIndex

/-!
# What a name means in a module

A simple name is looked up in four tiers: the types that the module declares, its imports of single
types, the known types of its own package, and the known types of the packages that it imports on
demand, of which `java.lang` is always one. The first tier that has a candidate decides, and several
candidates in it make the name ambiguous.
-/

namespace Migration

/-- The package that every module imports on demand. -/
def implicitPackage : String := "java.lang"

/-- The outcome of looking up a name. -/
inductive Resolved where
  | type (name : String)
  | ambiguous (candidates : List String)
  | unknown
deriving DecidableEq, Repr

namespace Resolved

/-- The outcome when all candidates of the deciding tier are known. -/
def ofCandidates : List String → Resolved
  | [] => .unknown
  | [name] => .type name
  | names => .ambiguous names

/-- The full name, when there is exactly one. -/
def type? : Resolved → Option String
  | .type name => some name
  | _ => none

end Resolved

/-- The value of the first pair with a key. -/
def lookupFirst (key : String) (pairs : List (String × String)) : Option String :=
  (pairs.find? (·.1 == key)).map (·.2)

/-- The pairs whose key does not occur further to the front. -/
def firstByKey : List (String × String) → List (String × String)
  | [] => []
  | p :: ps => p :: (firstByKey ps).filter (·.1 != p.1)

/-- The names visible in a module. -/
structure SymbolTable where
  index : TypeIndex
  package : Option String
  /-- Simple and full names of the declared types. Of types with the same simple name, the one
  declared first counts. -/
  locals : List (String × String)
  /-- Simple and full names of the imported types; the last import of a simple name counts. -/
  explicit : List (String × String)
  /-- The packages imported on demand. -/
  onDemand : List String

namespace SymbolTable

/-- The names visible in `m`. -/
def ofModule (m : Module) (index : TypeIndex) : SymbolTable where
  index
  package := m.packageName?
  locals := firstByKey (m.declaredTypes.map fun d => (d.simpleName, d.qualifiedName))
  explicit := m.typeImports.map fun i => (Name.simple i.name, i.name)
  onDemand := (m.imports.filter fun i => !i.isStatic && i.wildcard).map (·.name)

/-- The type is declared in the module. -/
def isLocal (t : SymbolTable) (name : String) : Bool := t.locals.any (·.2 == name)

/-- The known types of a simple name in the module's own package. -/
def samePackage (t : SymbolTable) (simple : String) : List String :=
  (t.index.candidates simple).filter fun name => Name.qualifier? name == t.package

/-- The known types of a simple name in the packages imported on demand. -/
def visibleOnDemand (t : SymbolTable) (simple : String) : List String :=
  (t.index.candidates simple).filter fun name =>
    match Name.qualifier? name with
    | some package => package == implicitPackage || t.onDemand.contains package
    | none => false

/-- Look up a simple name. -/
def resolveSimple (t : SymbolTable) (simple : String) : Resolved :=
  match lookupFirst simple t.locals with
  | some name => .type name
  | none =>
    match lookupFirst simple t.explicit.reverse with
    | some name => .type name
    | none =>
      match t.samePackage simple with
      | [] => .ofCandidates (t.visibleOnDemand simple)
      | names => .ofCandidates names

/-- Look up a name as it is spelled where it is used. A dotted name is looked up by its head; when
that is no type in scope, the name is full already. -/
def resolve (t : SymbolTable) (name : String) : Resolved :=
  if Name.isQualified name then
    match t.resolveSimple (Name.head name) with
    | .type outer => .type (outer ++ Name.afterHead name)
    | _ => .type name
  else t.resolveSimple name

/-- The full name that a configured name stands for. A dotted name is full already; a simple name is
looked up, and when nothing in scope has it, everywhere. -/
def qualify (t : SymbolTable) (name : String) : Resolved :=
  if Name.isQualified name then .type name
  else
    match t.resolveSimple name with
    | .unknown => .ofCandidates (t.index.candidates name)
    | r => r

end SymbolTable

end Migration
