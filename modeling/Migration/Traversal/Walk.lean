import Migration.Traversal.Outline

/-!
# Walking a module

A visitor is told when a node is entered and when it is left, and carries a state along. On entering
it decides whether the nodes below are visited too, are skipped, or the whole walk stops there.
After a stop nothing is called any more, not even for the nodes that are still open.
-/

namespace Migration

/-- What a visitor decides on entering a node. -/
inductive Visit where
  | descend
  | skip
  | stop
deriving DecidableEq, Repr

/-- A visitor with a state of type `σ`. -/
structure Visitor (σ : Type) where
  enter : Node → σ → Visit × σ
  leave : Node → σ → σ

namespace Outline

mutual

/-- Walk an outline; the result tells whether the walk came to its end. -/
def walk {σ : Type} (v : Visitor σ) : Outline → σ → Bool × σ
  | .node n below, s =>
    match v.enter n s with
    | (.stop, s) => (false, s)
    | (.skip, s) => (true, v.leave n s)
    | (.descend, s) =>
      match walkAll v below s with
      | (false, s) => (false, s)
      | (true, s) => (true, v.leave n s)
termination_by structural o => o

/-- Walk several outlines, as long as none stops. -/
def walkAll {σ : Type} (v : Visitor σ) : List Outline → σ → Bool × σ
  | [], s => (true, s)
  | o :: os, s =>
    match walk v o s with
    | (false, s) => (false, s)
    | (true, s) => walkAll v os s
termination_by structural os => os

end

end Outline

/-- Walk a module. -/
def Module.walk {σ : Type} (m : Module) (v : Visitor σ) (s : σ) : Bool × σ := m.outline.walk v s

end Migration
