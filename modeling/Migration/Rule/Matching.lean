import Migration.Rule.Pattern
import Migration.Scope.SymbolTable

/-!
# Which nodes a configured name matches

Names are compared by what they mean where that is known, and by their simple names where it is not.
-/

namespace Migration

namespace TypePattern

/-- The full name of a superclass: the one known from elsewhere, or else what its spelling means. -/
def superclassName? (symbols : SymbolTable) (superclass : TypeName) : Option String :=
  match superclass.resolved with
  | some name => some name
  | none => (symbols.resolve superclass.name).type?

/-- The declaration is a class whose only superclass is the configured type. The simple names must
agree; where the full name is configured and that of the superclass is known, so must these. -/
def matchesSupertype (p : TypePattern) (symbols : SymbolTable) (d : TypeDecl) : Bool :=
  match d.superclass? with
  | none => false
  | some superclass =>
    superclass.simpleName == p.simpleName &&
      match p.fullName?, superclassName? symbols superclass with
      | some expected, some actual => actual == expected
      | _, _ => true

/-- The qualifier, as it is spelled, can stand for the configured type. A dotted qualifier is taken
as a full name; a simple one must agree with the simple name, and with the full name where that is
configured and the qualifier's is known. -/
def matchesQualifier (p : TypePattern) (symbols : SymbolTable) (qualifier : String) : Bool :=
  if Name.isQualified qualifier then p.fullName? == some qualifier
  else
    qualifier == p.simpleName &&
      match p.fullName?, (symbols.resolve qualifier).type? with
      | some expected, some actual => expected == actual
      | _, _ => true

/-- The access refers to `member` of the configured type. An owner known from elsewhere decides;
otherwise the target must spell a name. -/
def matchesReference (owner : TypePattern) (member : String) (symbols : SymbolTable)
    (a : FieldAccess) : Bool :=
  a.name.name == member &&
    match a.owner with
    | some name => owner.matchesFullName name
    | none =>
      match a.target.dottedName? with
      | some qualifier => owner.matchesQualifier symbols qualifier
      | none => false

/-- The full name that the configured type has in a module. -/
def qualifiedIn? (p : TypePattern) (symbols : SymbolTable) : Option String :=
  match p.fullName? with
  | some name => some name
  | none => (symbols.qualify p.simpleName).type?

end TypePattern

end Migration
