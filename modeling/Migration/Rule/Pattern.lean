import Migration.ConfigurationError
import Migration.Text.Identifier

/-!
# Configured names

A configuration names types and members. A type may be named simply, `Vehicle`, and then stands for
every type of that simple name; a dotted name, `com.old.Vehicle`, stands for one type only.
-/

namespace Migration

/-- A configured type. -/
structure TypePattern where
  /-- The name as it is configured. -/
  spelled : String
  valid : Name.isTypeName spelled = true
deriving DecidableEq

/-- A configured member is checked. -/
def checkMember (field value : String) : Except ConfigurationError Unit :=
  if value == "" then .error (.emptyName field)
  else if Name.isIdentifier value then .ok ⟨⟩
  else .error (.invalidIdentifier field value)

namespace TypePattern

/-- The type that a configured field names. -/
def parse (field value : String) : Except ConfigurationError TypePattern :=
  if value == "" then .error (.emptyName field)
  else if valid : Name.isTypeName value = true then .ok ⟨value, valid⟩
  else .error (.invalidIdentifier field value)

/-- The last segment of the name. -/
def simpleName (p : TypePattern) : String := Name.simple p.spelled

/-- The full name, when it is configured. -/
def fullName? (p : TypePattern) : Option String :=
  if Name.isQualified p.spelled then some p.spelled else none

/-- Both patterns can stand for the same type: their simple names agree, and so do their full names
when both have one. -/
def overlaps (p q : TypePattern) : Bool :=
  p.simpleName == q.simpleName &&
    match p.fullName?, q.fullName? with
    | some a, some b => a == b
    | _, _ => true

/-- The pattern stands for the type with the given full name. -/
def matchesFullName (p : TypePattern) (name : String) : Bool :=
  match p.fullName? with
  | some expected => expected == name
  | none => Name.simple name == p.simpleName

end TypePattern

end Migration
