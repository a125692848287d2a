import Migration.Proofs.Text.Identifier
import Migration.Proofs.Traversal.Transform
import Migration.Proofs.Traversal.Walk
import Migration.Recipe.Basic

/-!
# What the rules replace and note down

Each rule has one hook. `SupertypeChange.replace_cases` and `ConstantTable.replace_cases` say
everything the two hooks can do: leave a node alone, or replace one name in it, and ask for an import
only where the new name is written simply.

A pass changes the types of a module and nothing else of it, it leaves alone which type declarations
are inside which, and every type that it asks for is named in the changed module
(`Recipe.pass_changes`).
-/

namespace Migration

/-! ### Full names -/

theorem Resolved.type?_eq_some {r : Resolved} {name : String} :
    r.type? = some name ↔ r = .type name := by
  cases r <;> simp [Resolved.type?]

namespace TypePattern

variable {p : TypePattern} {symbols : SymbolTable}

/-- The full name of a pattern is what its spelling stands for. -/
theorem qualifiedIn?_eq (p : TypePattern) (symbols : SymbolTable) :
    p.qualifiedIn? symbols = (symbols.qualify p.spelled).type? := by
  rw [qualifiedIn?, fullName?]
  by_cases hq : Name.isQualified p.spelled = true
  · have hqualify : symbols.qualify p.spelled = .type p.spelled := by
      rw [SymbolTable.qualify, if_pos hq]
    rw [if_pos hq, hqualify]
    rfl
  · have hdotless := Name.isQualified_eq_false.mp (Bool.eq_false_iff.mpr hq)
    rw [if_neg hq, simpleName, Name.simple_of_dotless hdotless]

theorem qualifiedIn?_eq_some {full : String} (h : p.qualifiedIn? symbols = some full) :
    symbols.qualify p.spelled = .type full := by
  rw [qualifiedIn?_eq] at h
  exact Resolved.type?_eq_some.mp h

end TypePattern

/-! ### The hooks -/

theorem TypeDecl.superclass?_eq_some {d : TypeDecl} {t : TypeName} (h : d.superclass? = some t) :
    d.kind = .ofClass ∧ ∃ id lead after, d.extending = some ⟨id, lead, [⟨t, after⟩]⟩ := by
  rw [superclass?] at h
  split at h
  case h_2 => cases h
  case h_1 id lead single hkind hextending =>
    cases h
    exact ⟨hkind, id, lead, single.after, hextending⟩

theorem TypeDecl.withSuperclass?_eq {d : TypeDecl} {t u : TypeName} {id : NodeId}
    {lead after : Trivia} (hkind : d.kind = .ofClass)
    (hextending : d.extending = some ⟨id, lead, [⟨t, after⟩]⟩) :
    d.withSuperclass? u = some { d with extending := some ⟨id, lead, [⟨u, after⟩]⟩ } := by
  rw [withSuperclass?, hkind, hextending]

/-- What a new spelling of a superclass can be. -/
theorem SupertypeChange.respell_cases {c : SupertypeChange} {symbols : SymbolTable} {t : TypeName}
    {s s' : PassState} {name : String} (h : c.respell symbols t s = (some name, s')) :
    (t.isQualified = true ∧ c.new.qualifiedIn? symbols = some name ∧ s'.additions = s.additions) ∨
      (t.isQualified = false ∧ name = c.new.simpleName
        ∧ s'.additions = s.additions.insert c.new.spelled) := by
  rw [respell] at h
  split at h
  case isTrue hq =>
    split at h
    case h_1 full hfull =>
      cases h
      exact .inl ⟨hq, hfull, rfl⟩
    case h_2 => cases h
  case isFalse hq =>
    cases h
    exact .inr ⟨Bool.eq_false_iff.mpr hq, rfl, rfl⟩

/-- **What replacing a superclass can do.** -/
theorem SupertypeChange.replace_cases {c : SupertypeChange} {symbols : SymbolTable} {d : TypeDecl}
    {s s' : PassState} {r : Option TypeDecl} (h : c.replace symbols d s = (r, s')) :
    (r = none ∧ s'.additions = s.additions) ∨
    ∃ id lead t after name,
      d.kind = .ofClass ∧ d.extending = some ⟨id, lead, [⟨t, after⟩]⟩ ∧
      t.simpleName = c.old.simpleName ∧
      r = some { d with extending := some ⟨id, lead, [⟨t.withName name, after⟩]⟩ } ∧
      ((t.isQualified = true ∧ c.new.qualifiedIn? symbols = some name
          ∧ s'.additions = s.additions) ∨
        (t.isQualified = false ∧ name = c.new.simpleName
          ∧ s'.additions = s.additions.insert c.new.spelled)) := by
  rw [replace] at h
  split at h
  case isFalse =>
    cases h
    exact .inl ⟨rfl, rfl⟩
  case isTrue hmatch =>
    split at h
    case h_1 =>
      cases h
      exact .inl ⟨rfl, rfl⟩
    case h_2 t ht =>
      obtain ⟨hkind, id, lead, after, hextending⟩ := TypeDecl.superclass?_eq_some ht
      have hsimple : t.simpleName = c.old.simpleName := by
        simp only [TypePattern.matchesSupertype, ht, Bool.and_eq_true, beq_iff_eq] at hmatch
        exact hmatch.1
      split at h
      case h_1 s₁ hnone =>
        cases h
        refine .inl ⟨rfl, ?_⟩
        rw [respell] at hnone
        split at hnone
        case isFalse => cases hnone
        case isTrue =>
          split at hnone
          case h_1 => cases hnone
          case h_2 =>
            cases hnone
            rfl
      case h_2 name s₁ hname =>
        rw [TypeDecl.withSuperclass?_eq hkind hextending] at h
        have hcases := respell_cases hname
        cases h
        exact .inr ⟨id, lead, t, after, name, hkind, hextending, hsimple, rfl, hcases⟩

/-- The expression is a simple name. -/
def Expr.isName : Expr → Bool
  | .name _ => true
  | _ => false

/-- **What becomes of the target of a matched access.** -/
theorem ConstantChange.retarget_cases {c : ConstantChange} {symbols : SymbolTable} {a : FieldAccess}
    {s s' : PassState} {r : Option Expr} (h : c.retarget symbols a s = (r, s')) :
    (c.ownerChanges = false ∧ r = some a.target ∧ s'.additions = s.additions) ∨
    (c.ownerChanges = true ∧ ∃ i, a.target = .name i
      ∧ r = some (.name (i.withName c.newOwner.simpleName))
      ∧ s'.additions = s.additions.insert c.newOwner.spelled) ∨
    (c.ownerChanges = true ∧ a.target.isName = false ∧ c.newOwner.qualifiedIn? symbols = none
      ∧ r = none ∧ s'.additions = s.additions) ∨
    (c.ownerChanges = true ∧ a.target.isName = false ∧ ∃ full,
      c.newOwner.qualifiedIn? symbols = some full
        ∧ r = some (nameChain s.nextId a.target.lead full).1 ∧ s'.additions = s.additions) := by
  rw [retarget] at h
  split at h
  case isTrue howner =>
    cases h
    rw [Bool.not_eq_true'] at howner
    exact .inl ⟨howner, rfl, rfl⟩
  case isFalse howner =>
    rw [Bool.not_eq_true', Bool.not_eq_false] at howner
    split at h
    case h_1 i hi =>
      cases h
      exact .inr (.inl ⟨howner, i, hi, rfl, rfl⟩)
    case h_2 hother =>
      have hname : a.target.isName = false := by
        cases hx : a.target with
        | name i => exact absurd hx (hother i)
        | _ => rfl
      split at h
      case h_1 hunknown =>
        cases h
        exact .inr (.inr (.inl ⟨howner, hname, hunknown, rfl, rfl⟩))
      case h_2 full hfull =>
        cases h
        exact .inr (.inr (.inr ⟨howner, hname, full, hfull, rfl, rfl⟩))

theorem ConstantChange.isMatch_iff {c : ConstantChange} {symbols : SymbolTable} {a : FieldAccess}
    (howner : a.owner = none) : c.isMatch symbols a = true ↔ a.name.name = c.oldMember ∧
      ∃ spelled, a.target.dottedName? = some spelled
        ∧ c.oldOwner.matchesQualifier symbols spelled = true := by
  rw [isMatch, TypePattern.matchesReference, howner, Bool.and_eq_true, beq_iff_eq]
  cases a.target.dottedName? with
  | none => simp
  | some spelled => simp

namespace ConstantTable

variable {t : ConstantTable} {symbols : SymbolTable} {a : FieldAccess}

theorem find?_congr {b : FieldAccess} (hname : a.name.name = b.name.name)
    (howner : a.owner = b.owner) (hdotted : a.target.dottedName? = b.target.dottedName?) :
    t.find? symbols a = t.find? symbols b := by
  simp only [find?, ConstantChange.isMatch, TypePattern.matchesReference, hname, howner, hdotted]

theorem mem_of_find? {c : ConstantChange} (h : t.find? symbols a = some c) : c ∈ t.entries :=
  List.mem_of_find?_eq_some h

theorem isMatch_of_find? {c : ConstantChange} (h : t.find? symbols a = some c) :
    c.isMatch symbols a = true := by
  have hmatch := List.find?_some h
  exact hmatch

theorem member_of_find? {c : ConstantChange} (h : t.find? symbols a = some c) :
    a.name.name = c.oldMember := by
  have hmatch := isMatch_of_find? h
  rw [ConstantChange.isMatch, TypePattern.matchesReference, Bool.and_eq_true,
    beq_iff_eq] at hmatch
  exact hmatch.1

/-- The access is left alone: no entry matches it, or it stands behind no type, or its new target
cannot be written. -/
def Spares (t : ConstantTable) (symbols : SymbolTable) (a : FieldAccess) : Prop :=
  ∀ c, t.find? symbols a = some c →
    a.target.dottedName?.any Name.isTypeQualifier = false ∨
      (c.ownerChanges = true ∧ a.target.isName = false ∧ c.newOwner.qualifiedIn? symbols = none)

/-- **What replacing a constant can do.** -/
theorem replace_cases {s s' : PassState} {r : Option Expr} (h : t.replace symbols a s = (r, s')) :
    (r = none ∧ t.Spares symbols a ∧ s'.additions = s.additions) ∨
    ∃ c spelled target owner, t.find? symbols a = some c ∧
      a.target.dottedName? = some spelled ∧ Name.isTypeQualifier spelled = true ∧
      r = some (.access { a with target, name := a.name.withName c.newMember, owner }) ∧
      (a.owner = none → owner = none) ∧
      ((c.ownerChanges = false ∧ target = a.target ∧ s'.additions = s.additions) ∨
        (c.ownerChanges = true ∧ ∃ i, a.target = .name i
          ∧ target = .name (i.withName c.newOwner.simpleName)
          ∧ s'.additions = s.additions.insert c.newOwner.spelled) ∨
        (c.ownerChanges = true ∧ a.target.isName = false ∧ ∃ full,
          c.newOwner.qualifiedIn? symbols = some full
            ∧ target = (nameChain s.nextId a.target.lead full).1
            ∧ s'.additions = s.additions)) := by
  rw [replace] at h
  cases hc : t.find? symbols a with
  | none =>
    rw [hc] at h
    cases h
    exact .inl ⟨rfl, (fun c hc' => nomatch hc.symm.trans hc'), rfl⟩
  | some c =>
    rw [hc] at h
    dsimp only at h
    rw [ConstantChange.replace] at h
    split at h
    case isFalse hspelled =>
      cases h
      exact .inl ⟨rfl, fun _ _ => .inl (Bool.eq_false_iff.mpr hspelled), rfl⟩
    case isTrue hspelled =>
      obtain ⟨spelled, hdotted, htype⟩ : ∃ spelled, a.target.dottedName? = some spelled
          ∧ Name.isTypeQualifier spelled = true := by
        cases hd : a.target.dottedName? with
        | none =>
          rw [hd] at hspelled
          cases hspelled
        | some spelled =>
          rw [hd] at hspelled
          exact ⟨spelled, rfl, hspelled⟩
      have hnone : a.owner = none →
          (a.owner.bind fun _ => c.newOwner.qualifiedIn? symbols) = none := by
        intro howner
        rw [howner]
        rfl
      cases hretarget : c.retarget symbols a s with
      | mk target s₁ =>
        rw [hretarget] at h
        obtain ⟨howner, rfl, hs⟩ | ⟨howner, i, hi, rfl, hs⟩ | ⟨howner, hname, hunknown, rfl, hs⟩ |
          ⟨howner, hname, full, hfull, rfl, hs⟩ := ConstantChange.retarget_cases hretarget
        · cases h
          exact .inr ⟨c, spelled, _, _, rfl, hdotted, htype, rfl, hnone, .inl ⟨howner, rfl, hs⟩⟩
        · cases h
          exact .inr ⟨c, spelled, _, _, rfl, hdotted, htype, rfl, hnone,
            .inr (.inl ⟨howner, i, hi, rfl, hs⟩)⟩
        · cases h
          refine .inl ⟨rfl, fun c' hc' => .inr ?_, hs⟩
          cases hc.symm.trans hc'
          exact ⟨howner, hname, hunknown⟩
        · cases h
          exact .inr ⟨c, spelled, _, _, rfl, hdotted, htype, rfl, hnone,
            .inr (.inr ⟨howner, hname, full, hfull, rfl, hs⟩)⟩

end ConstantTable

/-! ### Types that are asked for -/

/-- What is asked for in `s'` and not yet in `s` are types of `P`, and their simple names are among
`names`. -/
def Asks (P : TypePattern → Prop) (s s' : PassState) (names : List String) : Prop :=
  ∀ new ∈ s'.additions.toList,
    new ∈ s.additions.toList ∨ ∃ p, P p ∧ p.spelled = new ∧ p.simpleName ∈ names

section Asks

variable {P : TypePattern → Prop} {s s₁ s₂ : PassState} {as bs names : List String}

theorem asks_of_eq (h : s₁.additions = s.additions) : Asks P s s₁ names := by
  intro new hnew
  rw [h] at hnew
  exact .inl hnew

theorem asks_insert {p : TypePattern} (hp : P p) (hname : p.simpleName ∈ names)
    (h : s₁.additions = s.additions.insert p.spelled) : Asks P s s₁ names := by
  intro new hnew
  rw [h, NameSet.mem_insert] at hnew
  rcases hnew with rfl | hnew
  · exact .inr ⟨p, hp, rfl, hname⟩
  · exact .inl hnew

theorem Asks.trans (h₁ : Asks P s s₁ as) (h₂ : Asks P s₁ s₂ bs) (has : as ⊆ names)
    (hbs : bs ⊆ names) : Asks P s s₂ names := by
  intro new hnew
  rcases h₂ new hnew with hnew | ⟨p, hp, hspelled, hname⟩
  · rcases h₁ new hnew with hnew | ⟨p, hp, hspelled, hname⟩
    · exact .inl hnew
    · exact .inr ⟨p, hp, hspelled, has hname⟩
  · exact .inr ⟨p, hp, hspelled, hbs hname⟩

theorem Asks.after (hs : s₁.additions = s.additions) (h : Asks P s₁ s₂ names) :
    Asks P s s₂ names := by
  intro new hnew
  rw [← hs]
  exact h new hnew

theorem Asks.mono (h : Asks P s s₁ as) (has : as ⊆ names) : Asks P s s₁ names :=
  h.trans (asks_of_eq rfl) has (List.nil_subset _)

theorem Asks.append (h₁ : Asks P s s₁ as) (h₂ : Asks P s₁ s₂ bs) : Asks P s s₂ (as ++ bs) :=
  h₁.trans h₂ (List.subset_append_left _ _) (List.subset_append_right _ _)

end Asks

/-! ### Names in changed parts -/

open Outline (mentions mentions_append mentions_cons mentions_node typesAll)

section Mentions

variable (skip : List NodeId)

theorem mentions_access (a : FieldAccess) :
    mentions skip [(Expr.access a).outline] = mentions skip [a.target.outline] :=
  Outline.collect_access _ a

theorem mentions_call (c : MethodCall) : mentions skip [(Expr.call c).outline]
    = mentions skip (c.target.map Expr.outline).toList
      ++ mentions skip (Expr.outlineAll c.args.items) := Outline.collect_call _ c

theorem mentions_create (c : Creation) : mentions skip [(Expr.create c).outline]
    = mentions skip [c.type.outline] ++ mentions skip (Expr.outlineAll c.args.items) :=
  Outline.collect_create _ c

theorem mentions_binary (b : Binary) : mentions skip [(Expr.binary b).outline]
    = mentions skip [b.left.outline] ++ mentions skip [b.right.outline] :=
  Outline.collect_binary _ b

theorem mentions_parens (p : Parens) :
    mentions skip [(Expr.parens p).outline] = mentions skip [p.inner.outline] :=
  Outline.collect_parens _ p

theorem mentions_block (b : Block) :
    mentions skip [b.outline] = mentions skip (Stmt.outlineAll b.statements) :=
  Outline.collect_block _ b

theorem mentions_typeDecl (d : TypeDecl) : mentions skip [d.outline]
    = mentions skip (outlineHeader d.modifiers d.typeParams d.extending d.implementing)
      ++ mentions skip (Member.outlineAll d.body.members) := Outline.collect_typeDecl _ d

theorem name_mem_mentions (t : TypeName) : t.name ∈ mentions [] [t.outline] := by
  obtain ⟨id, lead, name, args, resolved⟩ := t
  cases args with
  | none => exact List.mem_cons_self
  | some args =>
    rw [TypeName.outline, mentions_node]
    exact List.mem_cons_self

theorem name_mem_mentions_header (modifiers : List Ident) (typeParams : Option TypeArguments)
    (implementing : Option TypeClause) (id : NodeId) (lead after : Trivia) (t : TypeName) :
    t.name ∈ mentions [] (outlineHeader modifiers typeParams (some ⟨id, lead, [⟨t, after⟩]⟩)
      implementing) := by
  rw [outlineHeader, mentions_append, mentions_append]
  refine List.mem_append_left _ (List.mem_append_right _ ?_)
  exact name_mem_mentions t

end Mentions

/-- The change of expressions in which a pass asks for what is named; a name stays as it is. -/
def asksExpr (P : TypePattern → Prop) : Change PassState Expr :=
  fun s x s' y => Asks P s s' (mentions [] [y.outline]) ∧ ∀ i, x = .name i → y = x

/-- The change of blocks in which a pass asks for what is named. -/
def asksBlock (P : TypePattern → Prop) : Change PassState Block :=
  fun s _ s' b => Asks P s s' (mentions [] [b.outline])

/-- The change of type declarations in which a pass asks for what is named, and leaves the nesting of
type declarations alone. -/
def asksDecl (P : TypePattern → Prop) : Change PassState TypeDecl :=
  fun s d s' e => Asks P s s' (mentions [] [e.outline]) ∧ e.outline.types = d.outline.types

section Changes

open Change (Each Opt Item Bracketed Below)

variable {P : TypePattern → Prop} {s s' : PassState}

theorem asks_items {xs ys : List (Padded Expr)} (h : Each (Item (asksExpr P)) s xs s' ys) :
    Asks P s s' (mentions [] (Expr.outlineAll ys)) := by
  induction h with
  | nil => exact asks_of_eq rfl
  | cons hx _ ih =>
    obtain ⟨hx⟩ := hx
    rw [Expr.outlineAll, mentions_cons]
    exact hx.1.append ih

theorem asks_bracketed {x y : Listing Expr} (h : Bracketed (asksExpr P) s x s' y) :
    Asks P s s' (mentions [] (Expr.outlineAll y.items)) := by
  obtain ⟨hitems⟩ := h
  exact asks_items hitems

theorem asks_opt {x y : Option Expr} (h : Opt (asksExpr P) s x s' y) :
    Asks P s s' (mentions [] (y.map Expr.outline).toList) := by
  cases h with
  | none => exact asks_of_eq rfl
  | some hx => exact hx.1

theorem asks_below {x y : Expr} (h : Below (asksExpr P) s x s' y) :
    Asks P s s' (mentions [] [y.outline]) := by
  cases h with
  | name => exact asks_of_eq rfl
  | literal => exact asks_of_eq rfl
  | access htarget =>
    rw [mentions_access]
    exact htarget.1
  | call htarget hargs =>
    rw [mentions_call]
    exact (asks_opt htarget).append (asks_bracketed hargs)
  | create hargs =>
    rw [mentions_create]
    exact (asks_bracketed hargs).mono (List.subset_append_right _ _)
  | binary hleft hright =>
    rw [mentions_binary]
    exact hleft.1.append hright.1
  | parens hinner =>
    rw [mentions_parens]
    exact hinner.1

theorem asks_value {x y : Option Initializer} (h : Opt (Change.Init (asksExpr P)) s x s' y) :
    Asks P s s' (mentions [] (y.map (·.value.outline)).toList) := by
  cases h with
  | none => exact asks_of_eq rfl
  | some hinit =>
    obtain ⟨hx⟩ := hinit
    exact hx.1

theorem asks_var {v w : Variable} (h : Change.Var (asksExpr P) s v s' w) :
    Asks P s s' (mentions [] w.outlines) := by
  obtain ⟨hvalue⟩ := h
  rw [Variable.outlines, mentions_append, mentions_cons]
  exact (asks_value hvalue).mono
    (List.subset_append_of_subset_right _ (List.subset_append_right _ _))

theorem asks_statements {xs ys : List Stmt}
    (h : Each (Change.Stmt (asksExpr P) (asksBlock P)) s xs s' ys) :
    Asks P s s' (mentions [] (Stmt.outlineAll ys)) := by
  induction h with
  | nil => exact asks_of_eq rfl
  | cons hx _ ih =>
    rw [Stmt.outlineAll, mentions_append]
    refine Asks.append ?_ ih
    cases hx with
    | expr hx => exact hx.1
    | localVar hv => exact asks_var hv
    | ret hx => exact asks_opt hx
    | block hb => exact hb

theorem asks_body {B : Change PassState Block} {x y : MethodBody}
    (hblock : ∀ {s b s' c}, B s b s' c → Asks P s s' (mentions [] [c.outline]))
    (h : Change.Body B s x s' y) : Asks P s s' (mentions [] y.outlines) := by
  cases h with
  | block hb => exact hblock hb
  | absent => exact asks_of_eq rfl

theorem asks_members {E : Change PassState Expr} {B : Change PassState Block}
    {xs ys : List Member}
    (hvar : ∀ {s v s' w}, Change.Var E s v s' w → Asks P s s' (mentions [] w.outlines))
    (hblock : ∀ {s b s' c}, B s b s' c → Asks P s s' (mentions [] [c.outline]))
    (h : Each (Change.Member E B (asksDecl P)) s xs s' ys) :
    Asks P s s' (mentions [] (Member.outlineAll ys))
      ∧ typesAll (Member.outlineAll ys) = typesAll (Member.outlineAll xs) := by
  induction h with
  | nil => exact ⟨asks_of_eq rfl, rfl⟩
  | cons hx _ ih =>
    rw [Member.outlineAll, mentions_cons, typesAll, Member.outlineAll, typesAll, ih.2]
    cases hx with
    | field hv =>
      refine ⟨Asks.append ?_ ih.1, ?_⟩
      · rw [Member.outline, mentions_node]
        exact hvar hv
      · simp only [Member.outline, Outline.types, Variable.typesAll_outlines]
    | method hbody =>
      refine ⟨Asks.append ?_ ih.1, ?_⟩
      · rw [Member.outline, Method.outline, mentions_node, mentions_append]
        exact (asks_body hblock hbody).mono
          (List.subset_append_of_subset_right _ (List.subset_append_right _ _))
      · simp only [Member.outline, Method.types_outline]
    | type hd =>
      refine ⟨Asks.append ?_ ih.1, ?_⟩
      · exact hd.1
      · simp only [Member.outline, hd.2]

theorem asks_decl {E : Change PassState Expr} {B : Change PassState Block} {d : TypeDecl}
    {members : List Member}
    (hvar : ∀ {s v s' w}, Change.Var E s v s' w → Asks P s s' (mentions [] w.outlines))
    (hblock : ∀ {s b s' c}, B s b s' c → Asks P s s' (mentions [] [c.outline]))
    (h : Each (Change.Member E B (asksDecl P)) s d.body.members s' members) :
    Asks P s s' (mentions [] (Member.outlineAll members))
      ∧ (TypeDecl.outline { d with body := { d.body with members } }).types
        = d.outline.types := by
  obtain ⟨hasks, htypes⟩ := asks_members hvar hblock h
  refine ⟨hasks, ?_⟩
  rw [TypeDecl.types_outline, d.types_outline, htypes]

end Changes

/-! ### The rules -/

theorem SupertypeChange.askExpr_hooks {c : SupertypeChange} {symbols : SymbolTable} {x : Expr}
    {s s₁ : PassState} {r : Option Expr} (hask : Pass.askExpr (c.hooks symbols) x s = some (r, s₁)) :
    r = none ∧ s₁ = s := by
  cases x <;> exact Pass.pure_eq_some.mp hask

/-- A change of superclasses asks at declarations only, and a replacement has the members of the
declaration that it replaces. -/
theorem SupertypeChange.respects_of_decl {c : SupertypeChange} {symbols : SymbolTable}
    {D : Change PassState TypeDecl}
    (hdecl : ∀ {s s₁ s₂ d r members}, c.replace symbols d s = (r, s₁) →
      Change.Each (Change.Member Change.Same Change.Same D) s₁ d.body.members s₂ members →
      D s d s₂ { r.getD d with body := { d.body with members } }) :
    Pass.Respects (c.hooks symbols) Change.Same Change.Same D where
  quiet _ _ := rfl
  expr := by
    intro s s₁ s₂ x y r hask hbelow
    obtain ⟨rfl, rfl⟩ := askExpr_hooks hask
    exact hbelow.same
  block h := h.block_same
  decl := by
    intro s s₁ s₂ d r members hask hmembers
    have hbody : (r.getD d).body = d.body := by
      rcases replace_cases hask with ⟨rfl, _⟩ | ⟨_, _, _, _, _, _, _, _, rfl, _⟩ <;> rfl
    rw [hbody] at hmembers ⊢
    exact hdecl hask hmembers

theorem SupertypeChange.respects (c : SupertypeChange) (symbols : SymbolTable) :
    Pass.Respects (c.hooks symbols) Change.Same Change.Same (asksDecl (· = c.new)) := by
  refine respects_of_decl ?_
  intro s s₁ s₂ d r members hask hmembers
  obtain ⟨hinner, htypes⟩ := asks_decl (P := (· = c.new))
    (fun hv => asks_of_eq (by rw [hv.same.2])) (fun hb => asks_of_eq (by rw [hb.2])) hmembers
  have hmentions := mentions_typeDecl [] { r.getD d with body := { d.body with members } }
  rcases replace_cases hask with ⟨rfl, hs⟩ | ⟨id, lead, t, after, name, _, _, _, rfl, hcase⟩
  · refine ⟨?_, htypes⟩
    rw [hmentions]
    exact (hinner.mono (List.subset_append_right _ _)).after hs
  · refine ⟨?_, ?_⟩
    · rw [hmentions]
      rcases hcase with ⟨_, _, hs⟩ | ⟨_, rfl, hs⟩
      · exact (hinner.mono (List.subset_append_right _ _)).after hs
      · exact Asks.append (asks_insert rfl (name_mem_mentions_header ..) hs) hinner
    · rw [← htypes, TypeDecl.types_outline, TypeDecl.types_outline]
      rfl

theorem ConstantTable.respects (t : ConstantTable) (symbols : SymbolTable) :
    Pass.Respects (t.hooks symbols) (asksExpr fun p => ∃ c ∈ t.entries, c.newOwner = p)
      (asksBlock fun p => ∃ c ∈ t.entries, c.newOwner = p)
      (asksDecl fun p => ∃ c ∈ t.entries, c.newOwner = p) where
  quiet _ _ := rfl
  expr := by
    intro s s₁ s₂ x y r hask hbelow
    cases x with
    | access a =>
      have hhook : t.replace symbols a s = (r, s₁) := Option.some.inj hask
      refine ⟨?_, fun i hi => by cases hi⟩
      rcases replace_cases hhook with
        ⟨rfl, _, hs⟩ | ⟨c, spelled, target, owner, hc, _, _, rfl, _, hcase⟩
      · exact (asks_below hbelow).after hs
      · rcases hcase with ⟨_, rfl, hs⟩ | ⟨_, i, hi, rfl, hs⟩ | ⟨_, _, full, _, rfl, hs⟩
        · exact (asks_below hbelow).after hs
        · -- The new target is a name, which the rest of the pass leaves as it is.
          obtain ⟨target, ⟨hasks, hname⟩, rfl⟩ := hbelow.access_inv
          cases hname (i.withName c.newOwner.simpleName) rfl
          rw [mentions_access]
          refine Asks.trans (asks_insert ⟨c, mem_of_find? hc, rfl⟩ ?_ hs) hasks (List.Subset.refl _)
            (List.Subset.refl _)
          exact List.mem_cons_self
        · exact (asks_below hbelow).after hs
    | name i =>
      obtain ⟨rfl, rfl⟩ := Pass.pure_eq_some.mp hask
      refine ⟨asks_below hbelow, fun _ _ => ?_⟩
      cases hbelow
      rfl
    | _ =>
      obtain ⟨rfl, rfl⟩ := Pass.pure_eq_some.mp hask
      exact ⟨asks_below hbelow, fun i hi => by cases hi⟩
  block := by
    intro s s' b statements h
    rw [asksBlock, mentions_block]
    exact asks_statements h
  decl := by
    intro s s₁ s₂ d r members hask hmembers
    obtain ⟨rfl, rfl⟩ : r = none ∧ s₁ = s := by
      have hpair : ((none : Option TypeDecl), s) = (r, s₁) := hask
      cases hpair
      exact ⟨rfl, rfl⟩
    obtain ⟨hinner, htypes⟩ := asks_decl asks_var (fun hb => hb) hmembers
    refine ⟨?_, htypes⟩
    rw [mentions_typeDecl]
    exact hinner.mono (List.subset_append_right _ _)

/-! ### Leaf recipes -/

namespace Recipe

/-- The pass of a recipe that is no pipeline. -/
def pass? : Recipe → Option (SymbolTable → Module → Pass PassState (Option Module))
  | .changeSupertype c => some c.pass
  | .changeConstant t => some t.pass
  | .changeConstants t => some t.pass
  | .pipeline _ _ => none

/-- The types whose names a recipe writes. -/
def Writes : Recipe → TypePattern → Prop
  | .changeSupertype c => (· = c.new)
  | .changeConstant t => fun p => ∃ c ∈ t.entries, c.newOwner = p
  | .changeConstants t => fun p => ∃ c ∈ t.entries, c.newOwner = p
  | .pipeline _ _ => fun _ => False

theorem apply_of_pass? {r : Recipe} {pass : SymbolTable → Module → Pass PassState (Option Module)}
    (hr : r.pass? = some pass) (index : TypeIndex) (m : Module) :
    r.apply index m = applyPass r.name m index pass := by
  cases r <;> cases hr <;> rfl

theorem asks_types {P : TypePattern → Prop} {s s' : PassState} {xs ys : List TypeDecl}
    (h : Change.Each (asksDecl P) s xs s' ys) :
    Asks P s s' (mentions [] (ys.map TypeDecl.outline))
      ∧ typesAll (ys.map TypeDecl.outline) = typesAll (xs.map TypeDecl.outline) := by
  induction h with
  | nil => exact ⟨asks_of_eq rfl, rfl⟩
  | cons hx _ ih =>
    rw [List.map_cons, mentions_cons, typesAll, List.map_cons, typesAll, ih.2, hx.2]
    exact ⟨hx.1.append ih.1, rfl⟩

/-- **A pass changes the types of a module only**, leaves their nesting alone, and names the types
that it asks for. -/
theorem pass_changes {r : Recipe} {pass : SymbolTable → Module → Pass PassState (Option Module)}
    (hr : r.pass? = some pass) {symbols : SymbolTable} {m : Module} {s s' : PassState}
    {changed : Option Module} (hrun : pass symbols m s = some (changed, s')) :
    ∃ types, changed.getD m = { m with types }
      ∧ Asks r.Writes s s' (mentions [] (types.map TypeDecl.outline))
      ∧ typesAll (types.map TypeDecl.outline) = typesAll (m.types.map TypeDecl.outline) := by
  have hconstant {t : ConstantTable} (hrun : t.pass symbols m s = some (changed, s')) :
      ∃ types, changed.getD m = { m with types }
        ∧ Asks (fun p => ∃ c ∈ t.entries, c.newOwner = p) s s'
          (mentions [] (types.map TypeDecl.outline))
        ∧ typesAll (types.map TypeDecl.outline) = typesAll (m.types.map TypeDecl.outline) := by
    obtain ⟨types, heach, hout⟩ := (t.respects symbols).transform_each _ hrun
    exact ⟨types, hout, asks_types heach⟩
  cases r with
  | changeSupertype c =>
    cases hr
    obtain ⟨types, heach, hout⟩ := (c.respects symbols).transform_each _ hrun
    exact ⟨types, hout, asks_types heach⟩
  | changeConstant t =>
    cases hr
    exact hconstant hrun
  | changeConstants t =>
    cases hr
    exact hconstant hrun
  | pipeline name recipes => cases hr

end Recipe

end Migration
