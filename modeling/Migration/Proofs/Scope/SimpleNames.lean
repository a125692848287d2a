import Migration.Grammar.Declarations
import Migration.Proofs.Scope.Lookup
import Migration.Proofs.Token.Scanning
import Migration.Proofs.Traversal.Declarations

/-!
# Lookup keeps the simple name

A name is looked up by a simple name, in tables whose keys are simple names of what they hold: the name of a
declaration is the last segment of its full name, an import is kept by the last segment of what it names,
and so are the known types. A dotted name is looked up by its first segment, and all that follows is kept.
So whatever a name means has the simple name that it was spelled with, in any tree
(`SymbolTable.lookup_lastSegment`).
-/

namespace Migration

/-! ### Declarations -/

section

variable {package : Option String}

mutual

theorem Member.qualifiedName_declared : (m : Member) → {outer : List String} → {e : DeclaredType} →
    e ∈ m.declared package outer →
      ∃ parts, e.qualifiedName = Name.ofSegments (parts ++ [e.simpleName])
  | .field _, _, _, h => nomatch h
  | .method _, _, _, h => nomatch h
  | .type d, _, _, h => TypeDecl.qualifiedName_declared d h

/-- The full name of a declared type ends with its simple name, whatever stands in front. -/
theorem TypeDecl.qualifiedName_declared : (d : TypeDecl) → {outer : List String} → {e : DeclaredType} →
    e ∈ d.declared package outer →
      ∃ parts, e.qualifiedName = Name.ofSegments (parts ++ [e.simpleName])
  | ⟨_, _, _, _, _, _, _, _, _, ⟨_, _, members, _⟩⟩, _, _, h => by
    rcases List.mem_cons.mp h with rfl | h
    · exact ⟨_, rfl⟩
    · exact Member.qualifiedName_declaredAll members h

theorem Member.qualifiedName_declaredAll : (ms : List Member) → {outer : List String} →
    {e : DeclaredType} → e ∈ Member.declaredAll package outer ms →
      ∃ parts, e.qualifiedName = Name.ofSegments (parts ++ [e.simpleName])
  | [], _, _, h => nomatch h
  | m :: ms, _, _, h => by
    rcases List.mem_append.mp h with h | h
    · exact Member.qualifiedName_declared m h
    · exact Member.qualifiedName_declaredAll ms h

end

end

variable {m : Module} {index : TypeIndex} {simple : String}

/-- A declared type that is called by a name without dots has that simple name. -/
theorem simple_of_mem_declaredTypes {d : DeclaredType} (hd : d ∈ m.declaredTypes)
    (hdotless : Name.Dotless d.simpleName) : Name.simple d.qualifiedName = d.simpleName := by
  rw [Module.declaredTypes_eq] at hd
  obtain ⟨t, _, hd⟩ := List.mem_flatMap.mp hd
  obtain ⟨parts, hname⟩ := t.qualifiedName_declared hd
  rw [hname, Name.simple_ofSegments hdotless]

/-! ### Outcomes -/

/-- The outcome is right for the name: what is found has its simple name, and several candidates are in
order, different from each other and called by the name itself. -/
def Resolved.Keeps (name : String) : Resolved → Prop
  | .type full => Name.simple full = Name.simple name
  | .ambiguous names =>
    2 ≤ names.length ∧ TypeIndex.InByteOrder names ∧ ∀ full ∈ names, Name.simple full = name
  | .unknown => True

theorem Resolved.keeps_ofCandidates {names : List String} (hsorted : names.Pairwise (· < ·))
    (hnames : ∀ full ∈ names, Name.simple full = simple) :
    (Resolved.ofCandidates names).Keeps simple := by
  match names with
  | [] => trivial
  | [full] =>
    have hfull := hnames full List.mem_cons_self
    show Name.simple full = Name.simple simple
    rw [← hfull, Name.simple_of_dotless (Name.dotless_simple full)]
  | _ :: _ :: rest =>
    exact ⟨Nat.le_add_left 2 rest.length, TypeIndex.inByteOrder_iff.mpr hsorted, hnames⟩

namespace SymbolTable

theorem keeps_filter_candidates (index : TypeIndex) (simple : String) (test : String → Bool) :
    (Resolved.ofCandidates ((index.candidates simple).filter test)).Keeps simple :=
  Resolved.keeps_ofCandidates ((index.pairwise_candidates simple).filter test) fun _ hfull =>
    (TypeIndex.mem_candidates.mp (List.mem_filter.mp hfull).1).2

theorem keeps_inPackages (t : SymbolTable) (simple : String) : (t.inPackages simple).Keeps simple := by
  rw [inPackages]
  split
  · exact keeps_filter_candidates t.index simple _
  · exact keeps_filter_candidates t.index simple _

/-- **Whatever tier decides, what is found has the simple name.** -/
theorem keeps_resolveSimple (hdotless : Name.Dotless simple) :
    ((ofModule m index).resolveSimple simple).Keeps simple := by
  cases hlocal : lookupFirst simple (ofModule m index).locals with
  | some full =>
    rw [resolveSimple_declared hlocal]
    rw [lookupFirst_locals] at hlocal
    obtain ⟨d, hd, rfl⟩ := Option.map_eq_some_iff.mp hlocal
    obtain rfl : d.simpleName = simple := beq_iff_eq.mp (List.find?_some hd :)
    show Name.simple d.qualifiedName = Name.simple d.simpleName
    rw [simple_of_mem_declaredTypes (List.mem_of_find?_eq_some hd) hdotless,
      Name.simple_of_dotless hdotless]
  | none =>
    cases hlast : (Imports.importedAs simple m.imports).getLast? with
    | some full =>
      rw [resolveSimple_imported hlocal hlast]
      obtain ⟨i, hi, rfl⟩ := List.mem_map.mp (List.mem_of_getLast? hlast)
      have htest := (List.mem_filter.mp hi).2
      rw [Bool.and_eq_true, beq_iff_eq] at htest
      show Name.simple i.name = Name.simple simple
      rw [htest.2, Name.simple_of_dotless hdotless]
    | none =>
      rw [resolveSimple_packages hlocal (List.getLast?_eq_none_iff.mp hlast)]
      exact keeps_inPackages _ _

theorem keeps_resolve (m : Module) (index : TypeIndex) (name : String) :
    ((ofModule m index).resolve name).Keeps name := by
  rw [resolve]
  split
  · next hqualified =>
    obtain ⟨rest, hafter, hname⟩ := Name.exists_afterHead hqualified
    split
    · next outer _ =>
      show Name.simple (outer ++ Name.afterHead name) = Name.simple name
      rw [hafter, ← String.append_assoc, Name.simple_join, hname, Name.simple_join]
    · exact rfl
  · next hdotless => exact keeps_resolveSimple (Name.isQualified_eq_false.mp (Bool.eq_false_iff.mpr hdotless))

theorem keeps_qualify (m : Module) (index : TypeIndex) (name : String) :
    ((ofModule m index).qualify name).Keeps name := by
  rw [qualify]
  split
  · exact rfl
  · next hdotless =>
    split
    · exact Resolved.keeps_ofCandidates (index.pairwise_candidates name) fun _ h =>
        (TypeIndex.mem_candidates.mp h).2
    · exact keeps_resolveSimple (Name.isQualified_eq_false.mp (Bool.eq_false_iff.mpr hdotless))

end SymbolTable

/-- A configured name and the full name that it stands for have the same simple name. -/
theorem simple_qualify {name full : String} (h : (SymbolTable.ofModule m index).qualify name = .type full) :
    Name.simple full = Name.simple name := by
  have hkeeps := SymbolTable.keeps_qualify m index name
  rwa [h] at hkeeps

namespace SymbolTable

/-- **Looking up a name never changes its last segment.** In any module, whether it was parsed or not, a name
that means one type ends in the same segment as the full name of the type, however it is spelled and wherever
the type was found. Candidates are at least two, in order and different from each other, and the name is the
last segment of each of them. -/
theorem lookup_lastSegment (m : Module) (index : TypeIndex) (name : String) :
    (∀ full, (ofModule m index).resolve name = .type full ∨ (ofModule m index).qualify name = .type full →
      (Name.segments full).getLast? = (Name.segments name).getLast?) ∧
    ∀ names, (ofModule m index).resolve name = .ambiguous names
        ∨ (ofModule m index).qualify name = .ambiguous names →
      2 ≤ names.length ∧ TypeIndex.InByteOrder names
        ∧ ∀ full ∈ names, (Name.segments full).getLast? = some name := by
  have hkeeps {r : Resolved} (h : (ofModule m index).resolve name = r ∨ (ofModule m index).qualify name = r) :
      r.Keeps name := by
    rcases h with rfl | rfl
    · exact keeps_resolve m index name
    · exact keeps_qualify m index name
  refine ⟨fun full h => ?_, fun names h => ?_⟩
  · have hsimple : Name.simple full = Name.simple name := hkeeps h
    rw [TypeIndex.getLast?_segments.mpr rfl, TypeIndex.getLast?_segments.mpr rfl, hsimple]
  · obtain ⟨htwo, hsorted, hnames⟩ := hkeeps h
    exact ⟨htwo, hsorted, fun full hfull => TypeIndex.getLast?_segments.mpr (hnames full hfull)⟩

/-- A type inside an imported one, and a name that is no type of the module but that of two known types. -/
theorem lookup_lastSegment_imported : ∃ m,
    Module.parse "import a.Outer; class X \x7b\x7d" = .ok m ∧
    (ofModule m (.ofList ["c.Car", "b.Car"])).resolve "Outer.Inner" = .type "a.Outer.Inner" ∧
    (Name.segments "a.Outer.Inner").getLast? = (Name.segments "Outer.Inner").getLast? ∧
    (ofModule m (.ofList ["c.Car", "b.Car"])).qualify "Car" = .ambiguous ["b.Car", "c.Car"] ∧
    TypeIndex.InByteOrder ["b.Car", "c.Car"] ∧
    ∀ full ∈ ["b.Car", "c.Car"], (Name.segments full).getLast? = some "Car" := by
  have hcheck : (do
      let m ← (Module.parse "import a.Outer; class X \x7b\x7d").toOption
      return decide ((ofModule m (.ofList ["c.Car", "b.Car"])).resolve "Outer.Inner" = .type "a.Outer.Inner")
        && decide ((ofModule m (.ofList ["c.Car", "b.Car"])).qualify "Car" = .ambiguous ["b.Car", "c.Car"])
      : Option Bool) = some true := by
    decide +kernel
  obtain ⟨m, hm, hcheck⟩ := Option.bind_eq_some_iff.mp hcheck
  simp only [pure, Option.some.injEq, Bool.and_eq_true, decide_eq_true_eq] at hcheck
  obtain ⟨hinner, hcar⟩ := hcheck
  obtain ⟨htype, -⟩ := lookup_lastSegment m (.ofList ["c.Car", "b.Car"]) "Outer.Inner"
  obtain ⟨-, hseveral⟩ := lookup_lastSegment m (.ofList ["c.Car", "b.Car"]) "Car"
  obtain ⟨-, hsorted, hnames⟩ := hseveral _ (.inr hcar)
  exact ⟨m, eq_ok_of_toOption hm, hinner, htype _ (.inl hinner), hcar, hsorted, hnames⟩

end SymbolTable

end Migration
