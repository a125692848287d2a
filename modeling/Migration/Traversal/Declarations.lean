import Migration.Traversal.Walk

/-!
# Declared types

The types that a module declares at any depth, in source order and each with its full name: the
package, the types around it and its own name, joined by dots.
-/

namespace Migration

/-- A type declared in a module. -/
structure DeclaredType where
  simpleName : String
  qualifiedName : String
  kind : TypeKind
  /-- How many types are around it. -/
  depth : Nat
deriving DecidableEq, Repr

/-- The names of the types around the current node, innermost first, and the types declared so far,
latest first. -/
structure DeclarationState where
  enclosing : List String
  declared : List DeclaredType

/-- Collects declared types. -/
def declarationVisitor (package : Option String) : Visitor DeclarationState where
  enter
    | .typeDecl d, s =>
      let name := d.name.name
      let path := package.toList ++ s.enclosing.reverse ++ [name]
      (.descend, ⟨name :: s.enclosing,
        ⟨name, Name.ofSegments path, d.kind, s.enclosing.length⟩ :: s.declared⟩)
    | _, s => (.descend, s)
  leave
    | .typeDecl _, s => { s with enclosing := s.enclosing.tail }
    | _, s => s

/-- The types that a module declares, in source order. -/
def Module.declaredTypes (m : Module) : List DeclaredType :=
  (m.walk (declarationVisitor m.packageName?) ⟨[], []⟩).2.declared.reverse

end Migration
