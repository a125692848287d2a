import Migration.Imports.Edit
import Migration.Rule.PassState
import Migration.Scope.SymbolTable
import Migration.Text.Quoted
import Migration.Traversal.Usage

/-!
# Imports after a pass

A pass asks for imports and gives others up. A type that is asked for is imported unless it is not
used at all or is visible anyway. An import that is given up goes when nothing uses its simple name
any more. Where both meet in one simple name, the new import takes the place of the old one,
provided that only names which the pass changed used it; otherwise the two are in conflict.
-/

namespace Migration

/-- Why a type cannot be imported. -/
inductive ResolutionError where
  | unknown (name : String)
  | ambiguous (name : String) (candidates : List String)
  /-- The simple name is imported from elsewhere. -/
  | conflict (name existing : String)
deriving DecidableEq, Repr

/-- The wording of each cause. -/
def ResolutionError.message : ResolutionError → String
  | .unknown name => "cannot resolve `" ++ name ++ "` to a fully-qualified type"
  | .ambiguous name candidates => "`" ++ name ++ "` is ambiguous: " ++ Text.quotedList candidates
  | .conflict name existing =>
    "cannot import `" ++ name ++ "`: `" ++ existing ++ "` is already imported under the same name"

/-- The names of the imports that were added, in order, and of those that were removed, in source
order. -/
structure ImportChanges where
  added : List String
  removed : List String
deriving DecidableEq, Repr

namespace ImportChanges

/-- No imports were added or removed. -/
def isEmpty (c : ImportChanges) : Bool := c.added.isEmpty && c.removed.isEmpty

end ImportChanges

namespace Imports

/-! ### Planning -/

/-- The import is the one that `name` gives up: by its full name, or by its simple name where `name`
is simple. -/
def isGivenUpBy (i : Import) (name : String) : Bool :=
  i.isSingleType &&
    if Name.isQualified name then i.name == name else Name.simple i.name == name

/-- What the code of a module uses, and what the pass that ran over it has noted down. -/
structure Demand where
  module : Module
  symbols : SymbolTable
  /-- The names that the code uses. -/
  used : NameSet
  /-- The names that the code uses elsewhere than where the pass changed them. -/
  untouched : NameSet
  removals : NameSet

/-- What to do about the imports: the types to import, and the positions of imports to replace. -/
structure Plan where
  additions : NameSet
  replaced : List Nat

namespace Demand

/-- The demand for imports after a pass over `m`. -/
def ofPass (m : Module) (symbols : SymbolTable) (s : PassState) : Demand where
  module := m
  symbols
  used := m.usedNames
  untouched := m.usedNamesExcept s.retargeted
  removals := s.removals

/-- The import is given up. -/
def isGivenUp (d : Demand) (i : Import) : Bool := d.removals.toList.any (isGivenUpBy i)

/-- The full name of a type that is asked for. -/
def fullName (d : Demand) (name : String) : Except ResolutionError String :=
  match d.symbols.qualify name with
  | .type full => .ok full
  | .ambiguous candidates => .error (.ambiguous name candidates)
  | .unknown => .error (.unknown name)

/-- No import is needed for the type: it is not used, or visible without one, or imported. -/
def isSatisfied (d : Demand) (full : String) : Bool :=
  let package := Name.qualifier? full
  !d.used.contains (Name.simple full) || package == d.symbols.package
    || package == some implicitPackage || d.symbols.isLocal full
    || d.module.typeImports.any (·.name == full)

/-- The first import, with its position, that binds the simple name of the type to another one. -/
def clash? (d : Demand) (full : String) : Option (Import × Nat) :=
  d.module.imports.zipIdx.find? fun (i, _) =>
    i.isSingleType && Name.simple i.name == Name.simple full && i.name != full

/-- The package of the type is imported on demand. -/
def isOnDemand (d : Demand) (full : String) : Bool :=
  d.module.imports.any fun i => i.wildcard && !i.isStatic && Name.qualifier? full == some i.name

/-- The plan with one more type that is asked for. -/
def request (d : Demand) (p : Plan) (name : String) : Except ResolutionError Plan := do
  let full ← d.fullName name
  if d.isSatisfied full then return p
  else
    match d.clash? full with
    | some (existing, k) =>
      if d.isGivenUp existing && !d.untouched.contains (Name.simple full) then
        return ⟨p.additions.insert full, k :: p.replaced⟩
      else throw (.conflict full existing.name)
    | none =>
      if d.isOnDemand full then return p
      else return { p with additions := p.additions.insert full }

/-- The plan for all types that are asked for. -/
def plan (d : Demand) (names : List String) : Except ResolutionError Plan :=
  names.foldlM d.request ⟨NameSet.empty, []⟩

/-- The imports, each with whether it is removed: it is given up, and it is replaced or unused. -/
def marked (d : Demand) (p : Plan) : List (Import × Bool) :=
  d.module.imports.zipIdx.map fun (i, k) =>
    (i, d.isGivenUp i && (p.replaced.contains k || !d.used.contains (Name.simple i.name)))

end Demand

/-! ### Carrying out -/

/-- The imports while new ones are put in. -/
structure Placement where
  imports : List Import
  /-- Trivia of removed imports that no kept import took over. -/
  leftover : Option Trivia
  /-- The trivia in front of the first type. -/
  firstLead : Option Trivia
  nextId : NodeId

/-- Put one more import in. The first import of a module takes over what removed ones left, or
stands below the package, or between the header of the file and its first type. -/
def Placement.add (eol : String) (hasPackage : Bool) (p : Placement) (name : String) : Placement :=
  let new := Import.single p.nextId "" name
  let p := { p with nextId := p.nextId + 1 }
  if p.imports.isEmpty then
    match p.leftover, hasPackage, p.firstLead with
    | some lead, _, _ => { p with imports := [new.withLead lead], leftover := none }
    | none, true, first =>
      { p with
        imports := [new.withLead (blankLine eol)]
        firstLead := first.map (ensureBlankLine eol) }
    | none, false, some first =>
      let (header, rest) := splitHeader eol first
      { p with imports := [new.withLead header], firstLead := some rest }
    | none, false, none => { p with imports := [new] }
  else { p with imports := insertSorted eol new p.imports }

/-- When no import and no package is left, what removed imports left goes to the first type. -/
def Placement.settle (hasPackage : Bool) (p : Placement) : Placement :=
  if p.imports.isEmpty && !hasPackage then
    match p.leftover, p.firstLead with
    | some lead, some _ => { p with firstLead := some lead }
    | _, _ => p
  else p

/-- The types with other trivia in front of the first one. -/
def withFirstLead (lead : Option Trivia) : List TypeDecl → List TypeDecl
  | [] => []
  | d :: ds => { d with lead := lead.getD d.lead } :: ds

/-- Carry out a plan: `marked` are the imports with whether they are removed, `names` the types to
import. -/
def carryOut (m : Module) (marked : List (Import × Bool)) (names : List String)
    (nextId : NodeId) : Module :=
  let eol := lineBreak m
  let (kept, leftover) := keep false none marked
  let start : Placement := ⟨kept, leftover, m.types.head?.map (·.lead), nextId⟩
  let p := (names.foldl (Placement.add eol m.package.isSome) start).settle m.package.isSome
  { m with imports := p.imports, types := withFirstLead p.firstLead m.types }.raiseNextId p.nextId

end Imports

/-- Bring the imports of `m` in line with what a pass over it has noted down; `symbols` are the
names visible before the pass. -/
def Module.reconcile (m : Module) (symbols : SymbolTable) (s : PassState) :
    Except ResolutionError (Module × ImportChanges) := do
  let demand := Imports.Demand.ofPass m symbols s
  let plan ← demand.plan s.additions.toList
  let marked := demand.marked plan
  let removed := (marked.filter (·.2)).map (·.1.name)
  if plan.additions.isEmpty && removed.isEmpty then return (m.raiseNextId s.nextId, ⟨[], []⟩)
  else
    let names := plan.additions.toList
    return (Imports.carryOut m marked names s.nextId, ⟨names, removed⟩)

end Migration
