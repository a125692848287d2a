import Migration.Proofs.Imports.Reconcile
import Migration.Proofs.Recipe.Unchanged
import Migration.Proofs.Rule.Superclasses

/-!
# What becomes of the superclasses

A change of superclasses is a map on declarations: in every class, nested ones included, it puts another
name in the place of the superclass where that matches and where the new name is known
(`SupertypeChange.respelled`), and nothing else of a declaration changes (`TypeDecl.mapSuperclasses`).
Whether a superclass matches is seen from the names visible before the pass and from the superclass alone,
so it makes no difference that the pass goes on inside a declaration that it has replaced.

`Recipe.apply_respells` says what comes out of the recipe: the declarations so changed, with other trivia
perhaps in front of the first, the number of superclasses that were changed, and a note on each that matched
and was not, in source order.
-/

namespace Migration

/-! ### Other superclasses in the same declarations -/

/-- What a declaration extends, with another superclass if it is a class that has one. -/
def mapSuperclass (f : TypeName → TypeName) : TypeKind → Option TypeClause → Option TypeClause
  | .ofClass, some ⟨id, lead, [⟨t, after⟩]⟩ => some ⟨id, lead, [⟨f t, after⟩]⟩
  | _, extending => extending

mutual

/-- The member with other superclasses in the classes inside it. -/
def Member.mapSuperclasses (f : TypeName → TypeName) : Member → Member
  | .field v => .field v
  | .method m => .method m
  | .type d => .type (d.mapSuperclasses f)
termination_by structural m => m

/-- The declaration with other superclasses, its own one and those of the classes inside it. -/
def TypeDecl.mapSuperclasses (f : TypeName → TypeName) : TypeDecl → TypeDecl
  | ⟨id, lead, modifiers, kindLead, kind, name, typeParams, extending, implementing, body⟩ =>
    ⟨id, lead, modifiers, kindLead, kind, name, typeParams, mapSuperclass f kind extending, implementing,
      body.mapSuperclasses f⟩
termination_by structural d => d

def TypeBody.mapSuperclasses (f : TypeName → TypeName) : TypeBody → TypeBody
  | ⟨id, lead, members, close⟩ => ⟨id, lead, Member.mapSuperclassesAll f members, close⟩
termination_by structural b => b

def Member.mapSuperclassesAll (f : TypeName → TypeName) : List Member → List Member
  | [] => []
  | m :: rest => m.mapSuperclasses f :: Member.mapSuperclassesAll f rest
termination_by structural ms => ms

end

section

variable {f : TypeName → TypeName} {d : TypeDecl} {t : TypeName}

theorem mapSuperclass_of_none (h : d.superclass? = none) :
    mapSuperclass f d.kind d.extending = d.extending := by
  rw [TypeDecl.superclass?] at h
  unfold mapSuperclass
  split at h
  · cases h
  · next hno =>
    split
    · next id lead t after hkind hextending => exact absurd hextending (hno id lead ⟨t, after⟩ hkind)
    · rfl

theorem mapSuperclass_of_some {id : NodeId} {lead after : Trivia} (hkind : d.kind = .ofClass)
    (hextending : d.extending = some ⟨id, lead, [⟨t, after⟩]⟩) :
    mapSuperclass f d.kind d.extending = some ⟨id, lead, [⟨f t, after⟩]⟩ := by
  rw [hkind, hextending, mapSuperclass]

theorem TypeDecl.mapSuperclasses_eq (f : TypeName → TypeName) (d : TypeDecl) : d.mapSuperclasses f =
    { d with
      extending := mapSuperclass f d.kind d.extending
      body := { d.body with members := Member.mapSuperclassesAll f d.body.members } } := by
  obtain ⟨id, lead, modifiers, kindLead, kind, name, params, extending, implementing, body⟩ := d
  obtain ⟨bodyId, bodyLead, members, close⟩ := body
  rfl

end

namespace SupertypeChange

/-! ### What the change does to one superclass -/

/-- The new spelling of a superclass: the full name where it was spelled with dots, if that is known, and
the simple name where it was not. -/
def newName? (c : SupertypeChange) (symbols : SymbolTable) (t : TypeName) : Option String :=
  if t.isQualified then c.new.qualifiedIn? symbols else some c.new.simpleName

/-- The superclass matches, and is changed. -/
def changes (c : SupertypeChange) (symbols : SymbolTable) (t : TypeName) : Bool :=
  c.old.matchesSuperclass symbols t && (c.newName? symbols t).isSome

/-- The superclass matches, but its new spelling is not known. -/
def misses (c : SupertypeChange) (symbols : SymbolTable) (t : TypeName) : Bool :=
  c.old.matchesSuperclass symbols t && (c.newName? symbols t).isNone

/-- The superclass after the change: with the new name where it is changed, and its number, trivia and type
arguments kept. -/
def respelled (c : SupertypeChange) (symbols : SymbolTable) (t : TypeName) : TypeName :=
  if c.old.matchesSuperclass symbols t then ((c.newName? symbols t).map t.withName).getD t else t

/-- The note on a superclass whose new spelling is not known. -/
def mismatch (c : SupertypeChange) (t : TypeName) : Mismatch :=
  ⟨t.id, .superclassNotQualifiable t.name c.new.spelled⟩

/-- From `s` to `s'` the changed superclasses of a list are counted, and those that were missed are noted
down in order. -/
def Notes (c : SupertypeChange) (symbols : SymbolTable) : Change PassState (List TypeName) :=
  fun s ts s' _ => s'.edits = s.edits + ts.countP (c.changes symbols) ∧
    s'.mismatches = s.mismatches ++ (ts.filter (c.misses symbols)).map c.mismatch

variable {c : SupertypeChange} {symbols : SymbolTable}

theorem fst_respell (c : SupertypeChange) (symbols : SymbolTable) (t : TypeName) (s : PassState) :
    (c.respell symbols t s).1 = c.newName? symbols t := by
  rw [respell, newName?]
  split
  · cases c.new.qualifiedIn? symbols <;> rfl
  · rfl

theorem mismatches_respell (c : SupertypeChange) (symbols : SymbolTable) (t : TypeName) (s : PassState) :
    (c.respell symbols t s).2.mismatches =
      s.mismatches ++ if (c.newName? symbols t).isNone then [c.mismatch t] else [] := by
  rw [respell, newName?]
  split
  · cases c.new.qualifiedIn? symbols with
    | none => rfl
    | some name => exact (List.append_nil _).symm
  · exact (List.append_nil _).symm

theorem notes_of_not_matches {t : TypeName} {us : List TypeName} {s : PassState}
    (h : c.old.matchesSuperclass symbols t = false) : c.Notes symbols s [t] s us := by
  simp [Notes, changes, misses, h]

/-- **One declaration.** Its superclass becomes what it is mapped to, and is counted or noted down. -/
theorem replace_eq {d : TypeDecl} {s s' : PassState} {r : Option TypeDecl} {us : List TypeName}
    (h : c.replace symbols d s = (r, s')) :
    r.getD d = { d with extending := mapSuperclass (c.respelled symbols) d.kind d.extending } ∧
      c.Notes symbols s d.superclass?.toList s' us := by
  rw [replace] at h
  cases ht : d.superclass? with
  | none =>
    rw [TypePattern.matchesSupertype, ht] at h
    cases h
    rw [mapSuperclass_of_none ht]
    exact ⟨by cases d; rfl, by simp [Notes]⟩
  | some t =>
    obtain ⟨hkind, id, lead, after, hextending⟩ := TypeDecl.superclass?_eq_some ht
    rw [TypePattern.matchesSupertype_eq ht, ht] at h
    rw [mapSuperclass_of_some hkind hextending, respelled]
    cases hmatch : c.old.matchesSuperclass symbols t with
    | false =>
      rw [hmatch] at h
      cases h
      rw [if_neg Bool.false_ne_true, ← hextending]
      exact ⟨by cases d; rfl, notes_of_not_matches hmatch⟩
    | true =>
      rw [hmatch, if_pos rfl] at h
      dsimp only at h
      have hname := c.fst_respell symbols t s
      have hedits := c.edits_respell symbols t s
      have hmismatches := c.mismatches_respell symbols t s
      rw [if_pos rfl, ← hname]
      rw [← hname] at hmismatches
      simp only [Notes, Option.toList_some, List.countP_cons, List.countP_nil, Nat.zero_add, changes, misses,
        hmatch, Bool.true_and, List.filter_cons, List.filter_nil, ← hname]
      generalize c.respell symbols t s = x at *
      obtain ⟨_ | name, s₁⟩ := x
      · cases h
        simp only [Option.map_none, Option.getD_none]
        rw [← hextending]
        exact ⟨by cases d; rfl, hedits, hmismatches⟩
      · dsimp only at h
        rw [TypeDecl.withSuperclass?_eq hkind hextending] at h
        cases h
        rw [PassState.recordEdit, hedits]
        exact ⟨rfl, rfl, hmismatches⟩

/-! ### What a pass does -/

theorem threaded_notes (c : SupertypeChange) (symbols : SymbolTable) :
    Threaded c symbols (c.Notes symbols) where
  nil _ := by simp [Notes]
  append h h' := by
    obtain ⟨hedits, hmismatches⟩ := h
    obtain ⟨hedits', hmismatches'⟩ := h'
    rw [Notes, hedits', hedits, hmismatches', hmismatches, List.countP_append, List.filter_append,
      List.map_append, Nat.add_assoc, List.append_assoc]
    exact ⟨rfl, rfl⟩
  replace h := (replace_eq h).2

theorem members_eq {s s' : PassState} {f : TypeName → TypeName} {xs ys : List Member}
    (h : Change.Each (Change.Member Change.Same Change.Same fun _ d _ e => e = d.mapSuperclasses f)
      s xs s' ys) : ys = Member.mapSuperclassesAll f xs := by
  induction h with
  | nil => rfl
  | cons hx _ ih =>
    rw [ih, Member.mapSuperclassesAll]
    cases hx with
    | field hv =>
      obtain ⟨rfl, _⟩ := hv.same
      rfl
    | @method _ _ m body hbody =>
      obtain rfl : body = m.body := by
        generalize m.body = x at hbody
        cases hbody with
        | block hb =>
          obtain ⟨rfl, _⟩ := hb
          rfl
        | absent => rfl
      rfl
    | type hd => rw [hd, Member.mapSuperclasses]

theorem types_eq {s s' : PassState} {f : TypeName → TypeName} {xs ys : List TypeDecl}
    (h : Change.Each (fun _ d _ e => e = d.mapSuperclasses f) s xs s' ys) :
    ys = xs.map (TypeDecl.mapSuperclasses f) := by
  induction h with
  | nil => rfl
  | cons hd _ ih => rw [hd, ih, List.map_cons]

theorem respects_map (c : SupertypeChange) (symbols : SymbolTable) :
    Pass.Respects (c.hooks symbols) Change.Same Change.Same
      fun _ d _ e => e = d.mapSuperclasses (c.respelled symbols) := by
  refine respects_of_decl ?_
  intro s s₁ s₂ d r members hask hmembers
  obtain ⟨hreplaced, _⟩ : _ ∧ c.Notes symbols s d.superclass?.toList s₁ [] := replace_eq hask
  rw [hreplaced, members_eq hmembers, TypeDecl.mapSuperclasses_eq]

/-- **A pass is a map on declarations**, and gives account of it. -/
theorem pass_eq {m : Module} {s s' : PassState} {r : Option Module}
    (h : c.pass symbols m s = some (r, s')) :
    (r.getD m).types = m.types.map (TypeDecl.mapSuperclasses (c.respelled symbols)) ∧
      s'.edits = s.edits + m.superclasses.countP (c.changes symbols) ∧
      s'.mismatches = s.mismatches ++ (m.superclasses.filter (c.misses symbols)).map c.mismatch := by
  obtain ⟨types, heach, hout⟩ := (c.respects_map symbols).transform_each _ h
  refine ⟨?_, (threaded_notes c symbols).pass h⟩
  rw [hout]
  exact types_eq heach

end SupertypeChange

/-- **Exactly the matched superclasses change**, at every depth. With the names visible in the module before,
each superclass that matches becomes the new name, in the spelling it had, where that is known. All else of
the declarations stays, but for the trivia in front of the first one. The report counts the changed
superclasses, and lists those that matched and stayed in source order. -/
theorem Recipe.apply_respells {c : SupertypeChange} {index : TypeIndex} {m : Module} {a : Applied}
    (h : (Recipe.changeSupertype c).apply index m = some (.ok a)) :
    (∃ lead, a.module.types = Imports.withFirstLead lead
      (m.types.map (TypeDecl.mapSuperclasses (c.respelled (SymbolTable.ofModule m index))))) ∧
    a.report.edits = m.superclasses.countP (c.changes (SymbolTable.ofModule m index)) ∧
    a.report.mismatches =
      (m.superclasses.filter (c.misses (SymbolTable.ofModule m index))).map c.mismatch := by
  generalize hsymbols : SymbolTable.ofModule m index = symbols
  obtain ⟨⟨changed, s⟩, hrun, h⟩ := Option.map_eq_some_iff.mp h
  rw [hsymbols] at hrun h
  obtain ⟨htypes, hedits, hmismatches⟩ := SupertypeChange.pass_eq hrun
  obtain ⟨_, htells⟩ := (c.counting symbols).transform_tells _ m _ changed s hrun
  dsimp only at h
  split at h
  case h_1 =>
    -- nothing was replaced, so nothing was counted
    cases h
    refine ⟨⟨none, ?_⟩, ?_, ?_⟩
    · rw [Imports.withFirstLead_self]
      exact htypes
    · have hnone : ¬ (PassState.start m).edits < s.edits := fun hlt => by simpa using htells.mpr (.inr hlt)
      have hstart : (PassState.start m).edits = 0 := rfl
      dsimp only
      omega
    · exact hmismatches
  case h_2 changed =>
    split at h
    case h_1 => cases h
    case h_2 out imports hreconcile =>
      cases h
      obtain ⟨_, _, _, _, ⟨lead, hlead⟩, _⟩ := Module.reconcile_spec hreconcile
      refine ⟨⟨lead, ?_⟩, ?_, ?_⟩
      · exact hlead.trans (congrArg _ htypes)
      · exact hedits.trans (Nat.zero_add _)
      · exact hmismatches

/-- A class, one inside it that spells its superclass with dots and arguments, and one that extends another
type. -/
theorem Recipe.apply_respells_nested : ∃ c m a,
    SupertypeChange.ofNames "Vehicle" "q.Car" = .ok c ∧
    Module.parse "class A extends Vehicle { class B extends p.Vehicle<T> {} } class C extends D {}" = .ok m ∧
    (Recipe.changeSupertype c).apply (.ofList []) m = some (.ok a) ∧ a.report.edits = 2 := by
  have hcheck : (do
      let c ← (SupertypeChange.ofNames "Vehicle" "q.Car").toOption
      let m ← (Module.parse
        "class A extends Vehicle { class B extends p.Vehicle<T> {} } class C extends D {}").toOption
      let _ ← ((Recipe.changeSupertype c).apply (.ofList []) m).bind Except.toOption
      return m.superclasses.countP (c.changes (SymbolTable.ofModule m (.ofList []))) == 2 : Option Bool)
      = some true := by
    decide +kernel
  obtain ⟨c, hc, hcheck⟩ := Option.bind_eq_some_iff.mp hcheck
  obtain ⟨m, hm, hcheck⟩ := Option.bind_eq_some_iff.mp hcheck
  obtain ⟨a, ha, hcheck⟩ := Option.bind_eq_some_iff.mp hcheck
  obtain ⟨outcome, happly, hok⟩ := Option.bind_eq_some_iff.mp ha
  rw [eq_ok_of_toOption hok] at happly
  obtain ⟨_, hedits, _⟩ := Recipe.apply_respells happly
  have hcount := beq_iff_eq.mp (Option.some.inj hcheck)
  exact ⟨c, m, a, eq_ok_of_toOption hc, eq_ok_of_toOption hm, happly, hedits.trans hcount⟩

end Migration
