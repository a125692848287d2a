import Migration.Proofs.Grammar.RoundTrip
import Migration.Proofs.Traversal.Declarations
import Migration.Proofs.Traversal.Fragments

/-!
# Where types are declared

A type declaration has a place: the numbers of the members that lead to it, and the types around it
(`TypeDecl.Declares`, `Module.Declares`). Places are in the order of the source when their numbers are in
lexicographic order, so that a type stands in front of those inside it.

The declared types of a module are those at all its places, in this order, each with as many types
around it as its place has, and named by the package, these types and itself (`Module.walk_collects`).
-/

namespace Migration

/-- A type declaration with its place: the numbers of the members that lead to it, and the types around
it, outermost first. -/
structure Site where
  address : List Nat
  enclosing : List TypeDecl
  decl : TypeDecl

namespace Site

/-- The place with one more number in front. -/
def atMember (i : Nat) (p : Site) : Site := { p with address := i :: p.address }

/-- The place with one more type around it. -/
def under (d : TypeDecl) (p : Site) : Site := { p with enclosing := d :: p.enclosing }

end Site

/-- `d` is declared at the place, or a type inside it is: one at a member of `d`, and so on. -/
inductive TypeDecl.Declares : TypeDecl → Site → Prop
  | self (d : TypeDecl) : Declares d ⟨[], [], d⟩
  | member {d e : TypeDecl} {i : Nat} {p : Site} (he : d.body.members[i]? = some (.type e))
    (hp : Declares e p) : Declares d ((p.atMember i).under d)

/-- The module declares a type at the place. -/
inductive Module.Declares (m : Module) : Site → Prop
  | type {d : TypeDecl} {i : Nat} {p : Site} (hd : m.types[i]? = some d) (hp : d.Declares p) :
    Declares m (p.atMember i)

mutual

/-- The places of the types that a member declares. -/
def Member.sites : Member → List Site
  | .field _ => []
  | .method _ => []
  | .type d => d.sites
termination_by structural m => m

def TypeDecl.sites : TypeDecl → List Site
  | ⟨id, lead, modifiers, kindLead, kind, name, typeParams, extending, implementing, body⟩ =>
    ⟨[], [], ⟨id, lead, modifiers, kindLead, kind, name, typeParams, extending, implementing, body⟩⟩
      :: body.sites.map (Site.under
        ⟨id, lead, modifiers, kindLead, kind, name, typeParams, extending, implementing, body⟩)
termination_by structural d => d

def TypeBody.sites : TypeBody → List Site
  | ⟨_, _, members, _⟩ => Member.sitesFrom 0 members
termination_by structural b => b

/-- The places of the types declared by members, the first of which has the number `i`. -/
def Member.sitesFrom : Nat → List Member → List Site
  | _, [] => []
  | i, m :: rest => m.sites.map (Site.atMember i) ++ Member.sitesFrom (i + 1) rest
termination_by structural _ ms => ms

end

theorem TypeDecl.sites_eq (d : TypeDecl) :
    d.sites = ⟨[], [], d⟩ :: (Member.sitesFrom 0 d.body.members).map (Site.under d) := by
  obtain ⟨_, _, _, _, _, _, _, _, _, ⟨_, _, _, _⟩⟩ := d
  rfl

/-! ### What is declared where -/

mutual

theorem Member.mem_sites : (m : Member) → (p : Site) →
    (p ∈ m.sites ↔ ∃ d, m = .type d ∧ d.Declares p)
  | .field _, p => by simp [Member.sites]
  | .method _, p => by simp [Member.sites]
  | .type d, p => by simp [Member.sites, TypeDecl.mem_sites d p]

theorem TypeDecl.mem_sites : (d : TypeDecl) → (p : Site) → (p ∈ d.sites ↔ d.Declares p)
  | ⟨id, lead, modifiers, kindLead, kind, name, typeParams, extending, implementing,
      ⟨bodyId, bodyLead, members, close⟩⟩, p => by
    rw [TypeDecl.sites_eq, List.mem_cons, List.mem_map]
    constructor
    · rintro (rfl | ⟨q, hq, rfl⟩)
      · exact .self _
      · obtain ⟨i, e, r, he, hr, rfl⟩ := (Member.mem_sitesFrom members 0 q).mp hq
        rw [Nat.zero_add]
        exact .member he hr
    · rintro (_ | ⟨he, hr⟩)
      · exact .inl rfl
      · exact .inr ⟨_, (Member.mem_sitesFrom members 0 _).mpr ⟨_, _, _, he, hr, by rw [Nat.zero_add]⟩,
          rfl⟩

theorem Member.mem_sitesFrom : (ms : List Member) → (i : Nat) → (p : Site) →
    (p ∈ Member.sitesFrom i ms ↔
      ∃ (j : Nat) (e : TypeDecl) (q : Site),
        ms[j]? = some (.type e) ∧ e.Declares q ∧ p = q.atMember (i + j))
  | [], i, p => by simp [Member.sitesFrom]
  | m :: ms, i, p => by
    rw [Member.sitesFrom, List.mem_append, List.mem_map, Member.mem_sitesFrom ms (i + 1) p]
    constructor
    · rintro (⟨q, hq, rfl⟩ | ⟨j, e, q, he, hq, rfl⟩)
      · obtain ⟨e, rfl, he⟩ := (Member.mem_sites m q).mp hq
        exact ⟨0, e, q, rfl, he, rfl⟩
      · exact ⟨j + 1, e, q, he, hq, by rw [Nat.add_right_comm, Nat.add_assoc]⟩
    · rintro ⟨_ | j, e, q, he, hq, rfl⟩
      · cases he
        exact .inl ⟨q, (Member.mem_sites _ q).mpr ⟨e, rfl, hq⟩, rfl⟩
      · exact .inr ⟨j, e, q, he, hq, by rw [Nat.add_right_comm, Nat.add_assoc]⟩

end

/-! ### Source order -/

/-- One place is in front of another in the source. -/
def Site.Before (p q : Site) : Prop := p.address < q.address

theorem Site.before_atMember {i : Nat} {p q : Site} (h : p.Before q) : (p.atMember i).Before (q.atMember i) :=
  List.Lex.cons h

mutual

theorem Member.pairwise_sites : (m : Member) → m.sites.Pairwise Site.Before
  | .field _ => .nil
  | .method _ => .nil
  | .type d => TypeDecl.pairwise_sites d

theorem TypeDecl.pairwise_sites : (d : TypeDecl) → d.sites.Pairwise Site.Before
  | ⟨id, lead, modifiers, kindLead, kind, name, typeParams, extending, implementing,
      ⟨bodyId, bodyLead, members, close⟩⟩ => by
    rw [TypeDecl.sites_eq, List.pairwise_cons, List.pairwise_map]
    constructor
    · intro p hp
      obtain ⟨q, hq, rfl⟩ := List.mem_map.mp hp
      obtain ⟨j, e, r, _, _, rfl⟩ := (Member.mem_sitesFrom members 0 q).mp hq
      exact List.Lex.nil
    · exact Member.pairwise_sitesFrom members 0

theorem Member.pairwise_sitesFrom : (ms : List Member) → (i : Nat) →
    (Member.sitesFrom i ms).Pairwise Site.Before
  | [], _ => .nil
  | m :: ms, i => by
    rw [Member.sitesFrom, List.pairwise_append, List.pairwise_map]
    refine ⟨(Member.pairwise_sites m).imp Site.before_atMember, Member.pairwise_sitesFrom ms (i + 1), ?_⟩
    intro p hp q hq
    obtain ⟨p, hp, rfl⟩ := List.mem_map.mp hp
    obtain ⟨j, e, q, _, _, rfl⟩ := (Member.mem_sitesFrom ms (i + 1) q).mp hq
    exact List.Lex.rel (by omega)

end

/-! ### The entries -/

/-- What is declared at a place, given the package and the names of the types around the whole. -/
def Site.declaredIn (package : Option String) (outer : List String) (p : Site) : DeclaredType :=
  let names := outer ++ p.enclosing.map (·.name.name)
  ⟨p.decl.name.name, Name.ofSegments (package.toList ++ names ++ [p.decl.name.name]), p.decl.kind,
    names.length⟩

variable {package : Option String}

theorem Site.declaredIn_under (outer : List String) (d : TypeDecl) (p : Site) :
    (p.under d).declaredIn package outer = p.declaredIn package (outer ++ [d.name.name]) := by
  simp [declaredIn, under]

mutual

theorem Member.declared_eq_map : (m : Member) → (outer : List String) →
    m.declared package outer = m.sites.map (Site.declaredIn package outer)
  | .field _, _ => rfl
  | .method _, _ => rfl
  | .type d, outer => TypeDecl.declared_eq_map d outer

theorem TypeDecl.declared_eq_map : (d : TypeDecl) → (outer : List String) →
    d.declared package outer = d.sites.map (Site.declaredIn package outer)
  | ⟨id, lead, modifiers, kindLead, kind, name, typeParams, extending, implementing,
      ⟨bodyId, bodyLead, members, close⟩⟩, outer => by
    rw [TypeDecl.declared_eq, TypeDecl.sites_eq, List.map_cons, List.map_map,
      Member.declaredAll_eq_map members 0]
    congr 1
    · simp [TypeDecl.entry, Site.declaredIn]
    · exact List.map_congr_left fun p _ => (Site.declaredIn_under outer _ p).symm

theorem Member.declaredAll_eq_map : (ms : List Member) → (i : Nat) → (outer : List String) →
    Member.declaredAll package outer ms
      = (Member.sitesFrom i ms).map (Site.declaredIn package outer)
  | [], _, _ => rfl
  | m :: ms, i, outer => by
    rw [Member.declaredAll, Member.sitesFrom, List.map_append, List.map_map,
      Member.declared_eq_map m, Member.declaredAll_eq_map ms (i + 1)]
    rfl

end

/-! ### The whole module -/

namespace Module

/-- The places of the types that a module declares. -/
def sites (m : Module) : List Site := Member.sitesFrom 0 (m.types.map .type)

theorem mem_sites {m : Module} {p : Site} : p ∈ m.sites ↔ m.Declares p := by
  rw [sites, Member.mem_sitesFrom]
  constructor
  · rintro ⟨i, d, q, hd, hq, rfl⟩
    rw [List.getElem?_map, Option.map_eq_some_iff] at hd
    obtain ⟨d, hd, ⟨⟩⟩ := hd
    rw [Nat.zero_add]
    exact .type hd hq
  · rintro ⟨hd, hq⟩
    exact ⟨_, _, _, by rw [List.getElem?_map, hd]; rfl, hq, by rw [Nat.zero_add]⟩

/-- What is declared at a place: its full name is the package, the names of the types around it and its
own name, joined by dots, and its depth is the number of types around it. -/
def declaredAt (m : Module) (p : Site) : DeclaredType where
  simpleName := p.decl.name.name
  qualifiedName := Name.ofSegments
    (m.packageName?.toList ++ p.enclosing.map (·.name.name) ++ [p.decl.name.name])
  kind := p.decl.kind
  depth := p.enclosing.length

theorem declaredTypes_eq_map (m : Module) :
    m.declaredTypes = m.sites.map m.declaredAt := by
  have hall (ds : List TypeDecl) : ds.flatMap (TypeDecl.declared m.packageName? [])
      = Member.declaredAll m.packageName? [] (ds.map .type) := by
    induction ds with
    | nil => rfl
    | cons d ds ih => rw [List.flatMap_cons, ih, List.map_cons, Member.declaredAll, Member.declared]
  have hentry : Site.declaredIn m.packageName? [] = m.declaredAt := by
    funext p
    simp [Site.declaredIn, declaredAt]
  rw [declaredTypes_eq, hall, Member.declaredAll_eq_map _ 0, hentry, sites]

/-- **What the two collectors find.** The used names, those numbered in `skip` apart, are the first
segments of the type names and expression names anywhere in the code and the names of all annotations,
which are their own first segments in a well-formed module. The declared types are those of all
declarations at any depth, each once and in the order of the source. -/
theorem walk_collects (m : Module) :
    (∀ (skip : List NodeId) (h : String), h ∈ (m.usedNamesExcept skip).toList ↔
      (h ≠ "" ∧ h ≠ "?")
        ∧ ((∃ t, m.Contains (.typeName t) ∧ t.id ∉ skip ∧ Name.head t.name = h)
          ∨ (∃ i, m.Contains (.expr (.name i)) ∧ i.id ∉ skip ∧ Name.head i.name = h)
          ∨ ∃ i, m.Contains (.modifier i) ∧ i.isMarker = true ∧ Name.head i.markerName = h))
    ∧ (m.WellFormed → ∀ i, m.Contains (.modifier i) → i.isMarker = true →
        Name.head i.markerName = i.markerName ∧ i.markerName ≠ "" ∧ i.markerName ≠ "?")
    ∧ ∃ sites : List Site,
        sites.Pairwise (fun p q => p.address < q.address)
          ∧ (∀ p, p ∈ sites ↔ m.Declares p)
          ∧ m.declaredTypes = sites.map m.declaredAt := by
  refine ⟨fun skip h => mem_usedNamesExcept_iff, fun hm i hi hmarker => hm.head_markerName hi hmarker,
    m.sites, Member.pairwise_sitesFrom _ 0, fun p => mem_sites, m.declaredTypes_eq_map⟩

/-- A class with an annotation, inside another one. -/
theorem walk_collects_nested :
    ∃ m, parse "@Old class A { @New class B extends p.C {} }" = .ok m ∧ m.WellFormed
      ∧ (∀ i, m.Contains (.modifier i) → i.isMarker = true →
          Name.head i.markerName = i.markerName ∧ i.markerName ≠ "" ∧ i.markerName ≠ "?")
      ∧ ((∃ t, m.Contains (.typeName t) ∧ t.id ∉ [] ∧ Name.head t.name = "New")
        ∨ (∃ i, m.Contains (.expr (.name i)) ∧ i.id ∉ [] ∧ Name.head i.name = "New")
        ∨ ∃ i, m.Contains (.modifier i) ∧ i.isMarker = true ∧ Name.head i.markerName = "New") := by
  have hcheck : (parse "@Old class A { @New class B extends p.C {} }").toOption.map
      (fun m => m.usedNames.toList) = some ["New", "Old", "p"] := by
    decide +kernel
  obtain ⟨m, hm, hused⟩ := Option.map_eq_some_iff.mp hcheck
  have hparse := eq_ok_of_toOption hm
  have hwf : m.WellFormed := (parse_sound hparse).2.2
  obtain ⟨hnames, hmarkers, -⟩ := walk_collects m
  have hnew : "New" ∈ (m.usedNamesExcept []).toList := by
    rw [← usedNames, hused]
    exact List.mem_cons_self
  exact ⟨m, hparse, hwf, hmarkers hwf, ((hnames [] "New").mp hnew).2⟩

end Module

end Migration
