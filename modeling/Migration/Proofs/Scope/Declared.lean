import Migration.Proofs.Traversal.Declarations
import Migration.Proofs.Tree.Names

/-!
# Full names of declared types

A type declared in a well-formed module has a full name that spells the package, the types around it
and its own name (`declared_spelled`). So its simple name is the name that it was declared with.
-/

namespace Migration

/-- What the declared types are called: each by the package, names around it and its own name. -/
def Spelled (package : Option String) (d : DeclaredType) : Prop :=
  ∃ outer : List String, d.qualifiedName
      = Name.ofSegments (package.toList ++ outer ++ [d.simpleName])
    ∧ (∀ o ∈ outer, isNameText o = true) ∧ isNameText d.simpleName = true

mutual

theorem Member.spelled_declared {package : Option String} : (m : Member) → m.WellFormed →
    {outer : List String} → (∀ o ∈ outer, isNameText o = true) →
      ∀ d ∈ m.declared package outer, Spelled package d
  | .field _, _, _, _ => List.forall_mem_nil _
  | .method _, _, _, _ => List.forall_mem_nil _
  | .type d, h, _, houter => d.spelled_declared h houter

theorem TypeDecl.spelled_declared {package : Option String} : (d : TypeDecl) → d.WellFormed →
    {outer : List String} → (∀ o ∈ outer, isNameText o = true) →
      ∀ e ∈ d.declared package outer, Spelled package e
  | ⟨_, _, _, _, _, name, _, _, _, ⟨_, _, members, _⟩⟩, h, outer, houter => by
    have hname := h.1.name_ok
    refine List.forall_mem_cons.mpr ⟨⟨outer, rfl, houter, hname⟩, ?_⟩
    refine Member.spelled_declaredAll members h.2 ?_
    exact List.forall_mem_append.mpr ⟨houter, List.forall_mem_singleton.mpr hname⟩

theorem Member.spelled_declaredAll {package : Option String} : (ms : List Member) →
    Member.WellFormedAll ms → {outer : List String} → (∀ o ∈ outer, isNameText o = true) →
      ∀ d ∈ Member.declaredAll package outer ms, Spelled package d
  | [], _, _, _ => List.forall_mem_nil _
  | m :: ms, h, _, houter => List.forall_mem_append.mpr
    ⟨m.spelled_declared h.1 houter, Member.spelled_declaredAll ms h.2 houter⟩

end

/-- **What declared types are called.** -/
theorem declared_spelled {m : Module} (h : m.WellFormed) {d : DeclaredType}
    (hd : d ∈ m.declaredTypes) : Spelled m.packageName? d := by
  rw [Module.declaredTypes_eq] at hd
  obtain ⟨t, ht, hd⟩ := List.mem_flatMap.mp hd
  exact t.spelled_declared (h.types t ht) (List.forall_mem_nil _) d hd

/-- The simple name of a declared type is the name that it was declared with. -/
theorem Spelled.simple_eq {package : Option String} {d : DeclaredType} (h : Spelled package d) :
    Name.simple d.qualifiedName = d.simpleName := by
  obtain ⟨outer, hname, _, hsimple⟩ := h
  have hdotless : Name.Dotless d.simpleName :=
    dotless_of_isWordText (isWordText_of_isNameText hsimple)
  rw [hname, Name.simple_ofSegments hdotless]

/-- The full name of a declared type can be read. -/
theorem Spelled.isDottedText {package : Option String} {d : DeclaredType} (h : Spelled package d)
    (hpackage : ∀ p ∈ package, isDottedText false p = true) :
    isDottedText false d.qualifiedName = true := by
  obtain ⟨outer, hname, houter, hsimple⟩ := h
  have hnames : ∀ s ∈ outer ++ [d.simpleName], isNameText s = true :=
    List.forall_mem_append.mpr ⟨houter, List.forall_mem_singleton.mpr hsimple⟩
  rw [isDottedText_eq, hname, Name.segments_ofSegments (by simp), List.append_assoc,
    List.flatMap_append, flatMap_segments fun s hs => isWordText_of_isNameText (hnames s hs)]
  cases package with
  | none =>
    cases outer with
    | nil => exact isChainText_cons.mpr ⟨hsimple, rfl⟩
    | cons o os =>
      obtain ⟨ho, hos⟩ := List.forall_mem_cons.mp hnames
      exact isChainText_cons.mpr ⟨ho, areSegmentTexts_of_names hos⟩
  | some p =>
    rw [Option.toList_some, List.flatMap_singleton]
    refine isChainText_append (isChainText_mono (a := false) (fun h => by cases h) ?_)
      (areSegmentTexts_of_names hnames)
    rw [← isDottedText_eq]
    exact hpackage p rfl

end Migration
