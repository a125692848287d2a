import Migration.Rule.Matching
import Migration.Rule.PassState
import Migration.Traversal.Transform

/-!
# Changing superclasses

Every class that extends the old type extends the new one instead. A superclass that is spelled
simply becomes the new simple name, and the new type is imported; one that is spelled with dots
becomes the new full name.
-/

namespace Migration

/-- A change of superclass. -/
structure SupertypeChange where
  old : TypePattern
  new : TypePattern

namespace SupertypeChange

/-- The change from one configured type to another. -/
def ofNames (old new : String) : Except ConfigurationError SupertypeChange := do
  let old ← TypePattern.parse "old" old
  let new ← TypePattern.parse "new" new
  if old = new then throw (.identicalNames old.spelled)
  return ⟨old, new⟩

/-- How the superclass is spelled after the change, and what is noted down about it; nothing when
the new full name is needed and not known. -/
def respell (c : SupertypeChange) (symbols : SymbolTable) (superclass : TypeName) (s : PassState) :
    Option String × PassState :=
  if superclass.isQualified then
    match c.new.qualifiedIn? symbols with
    | some name => (some name, s)
    | none => (none, s.recordMismatch superclass.id
        (.superclassNotQualifiable superclass.name c.new.spelled))
  else (some c.new.simpleName, s.retarget superclass.id c.old.spelled c.new.spelled)

/-- Replace a matching class. -/
def replace (c : SupertypeChange) (symbols : SymbolTable) (d : TypeDecl) (s : PassState) :
    Option TypeDecl × PassState :=
  if c.old.matchesSupertype symbols d then
    match d.superclass? with
    | none => (none, s)
    | some superclass =>
      match c.respell symbols superclass s with
      | (none, s) => (none, s)
      | (some name, s) =>
        match d.withSuperclass? (superclass.withName name) with
        | none => (none, s)
        | some d => (some d, s.recordEdit)
  else (none, s)

/-- The hooks of the change. -/
def hooks (c : SupertypeChange) (symbols : SymbolTable) : Hooks PassState :=
  { Hooks.none with typeDecl := c.replace symbols }

/-- Change a module. No replacement nests another, so the height of the module is depth enough. -/
def pass (c : SupertypeChange) (symbols : SymbolTable) (m : Module) :
    Pass PassState (Option Module) :=
  m.transform (c.hooks symbols) m.height

end SupertypeChange

end Migration
