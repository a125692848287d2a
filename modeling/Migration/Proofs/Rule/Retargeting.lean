import Migration.Proofs.Rule.Released
import Migration.Proofs.Traversal.Spelling

/-!
# Names that a pass points elsewhere

Where a pass writes a name simply it notes down three things together: the new type to import, the old one
whose import may be unused now, and the number of the name. Main result (`Recipe.pass_renames`): the
imports that a pass gives up are those of configured old types, and the names with the numbers that it
notes are spelled like configured new ones.
-/

namespace Migration

open Outline (spellings spellings_append spellings_node)

/-! ### The hooks -/

/-- **What replacing a superclass points elsewhere.** -/
theorem SupertypeChange.replace_retargeted {c : SupertypeChange} {symbols : SymbolTable} {d : TypeDecl}
    {s s' : PassState} {r : Option TypeDecl} (h : c.replace symbols d s = (r, s')) :
    s'.retargeted = s.retargeted ∨
    ∃ id lead, ∃ t : TypeName, ∃ after, s'.retargeted = t.id :: s.retargeted ∧
      r = some { d with extending := some ⟨id, lead, [⟨t.withName c.new.simpleName, after⟩]⟩ } := by
  rw [replace] at h
  split at h
  case isFalse =>
    cases h
    exact .inl rfl
  case isTrue =>
    split at h
    case h_1 =>
      cases h
      exact .inl rfl
    case h_2 t ht =>
      obtain ⟨hkind, id, lead, after, hextending⟩ := TypeDecl.superclass?_eq_some ht
      rw [respell] at h
      cases hq : t.isQualified with
      | false =>
        rw [hq, if_neg Bool.false_ne_true] at h
        dsimp only at h
        rw [TypeDecl.withSuperclass?_eq hkind hextending] at h
        cases h
        exact .inr ⟨id, lead, t, after, rfl, rfl⟩
      | true =>
        rw [hq, if_pos rfl] at h
        cases hfull : c.new.qualifiedIn? symbols with
        | none =>
          rw [hfull] at h
          cases h
          exact .inl rfl
        | some full =>
          rw [hfull] at h
          dsimp only at h
          rw [TypeDecl.withSuperclass?_eq hkind hextending] at h
          cases h
          exact .inl rfl

theorem ConstantChange.retarget_retargeted {c : ConstantChange} {symbols : SymbolTable} {a : FieldAccess}
    {s s' : PassState} {r : Option Expr} (h : c.retarget symbols a s = (r, s')) :
    s'.retargeted = s.retargeted ∨
    ∃ i : Ident, s'.retargeted = i.id :: s.retargeted ∧ r = some (.name (i.withName c.newOwner.simpleName)) := by
  rw [retarget] at h
  split at h
  · cases h
    exact .inl rfl
  · split at h
    case h_1 i _ =>
      cases h
      exact .inr ⟨i, rfl, rfl⟩
    case h_2 =>
      split at h <;> cases h <;> exact .inl rfl

/-- **What replacing a constant points elsewhere.** -/
theorem ConstantTable.replace_retargeted {t : ConstantTable} {symbols : SymbolTable} {a : FieldAccess}
    {s s' : PassState} {r : Option Expr} (h : t.replace symbols a s = (r, s')) :
    s'.retargeted = s.retargeted ∨
    ∃ c ∈ t.entries, ∃ (i : Ident) (b : FieldAccess), s'.retargeted = i.id :: s.retargeted ∧ r = some (.access b) ∧
      b.target = .name (i.withName c.newOwner.simpleName) := by
  rw [replace] at h
  split at h
  case h_1 =>
    cases h
    exact .inl rfl
  case h_2 c hc =>
    rw [ConstantChange.replace] at h
    split at h
    case isFalse =>
      cases h
      exact .inl rfl
    case isTrue =>
      split at h
      case h_1 s₁ hretarget =>
        cases h
        rcases ConstantChange.retarget_retargeted hretarget with hsame | ⟨_, _, hnone⟩
        · exact .inl hsame
        · cases hnone
      case h_2 target s₁ hretarget =>
        cases h
        rcases ConstantChange.retarget_retargeted hretarget with hsame | ⟨i, hmore, htarget⟩
        · exact .inl hsame
        · exact .inr ⟨c, mem_of_find? hc, i, _, hmore, rfl, Option.some.inj htarget⟩

theorem ConstantTable.replace_removals {t : ConstantTable} {symbols : SymbolTable} {a : FieldAccess}
    {s s' : PassState} {r : Option Expr} (h : t.replace symbols a s = (r, s')) :
    s'.removals = s.removals ∨
    ∃ c ∈ t.entries, s'.removals = s.removals.insert c.oldOwner.spelled := by
  cases hc : t.find? symbols a with
  | none =>
    rw [replace, hc] at h
    cases h
    exact .inl rfl
  | some c =>
    have hremovals := removals_of_find? hc h
    split at hremovals
    · exact .inr ⟨c, mem_of_find? hc, hremovals⟩
    · exact .inl hremovals

/-! ### Passes -/

/-- A change of outlines in which what is given up are types of `old`, and what is pointed elsewhere is
spelled like a type of `new`. -/
def Renames (old new : TypePattern → Prop) : Change PassState (List Outline) := fun s _ s' ps =>
  (∀ name ∈ s'.removals.toList, name ∈ s.removals.toList ∨ ∃ p, old p ∧ p.spelled = name) ∧
    ∀ id ∈ s'.retargeted, id ∈ s.retargeted ∨ ∃ p, new p ∧ (id, p.simpleName) ∈ spellings ps

section Renames

variable {old new : TypePattern → Prop} {s s₁ s' : PassState} {os ps : List Outline}

theorem renames_same (s : PassState) (os ps : List Outline) : Renames old new s os s ps :=
  ⟨fun _ => .inl, fun _ => .inl⟩

theorem renames_of_same {α : Type} (f : α → List Outline) {x y : α} (h : Change.Same s x s' y) :
    Renames old new s (f x) s' (f y) := by
  obtain ⟨rfl, rfl⟩ := h
  exact renames_same _ _ _

theorem Renames.mono {os' ps' : List Outline} (hsub : spellings ps ⊆ spellings ps')
    (h : Renames old new s os s' ps) : Renames old new s os' s' ps' :=
  ⟨h.1, fun id hid => (h.2 id hid).imp_right fun ⟨p, hp, hmem⟩ => ⟨p, hp, hsub hmem⟩⟩

/-- What one hook notes down in front of the rest. -/
theorem Renames.after (h : Renames old new s₁ os s' ps)
    (hremovals : s₁.removals = s.removals ∨ ∃ p, old p ∧ s₁.removals = s.removals.insert p.spelled)
    (hretargeted : s₁.retargeted = s.retargeted ∨
      ∃ p id, new p ∧ s₁.retargeted = id :: s.retargeted ∧ (id, p.simpleName) ∈ spellings ps) :
    Renames old new s os s' ps := by
  refine ⟨fun name hname => ?_, fun id hid => ?_⟩
  · refine (h.1 name hname).elim (fun hname => ?_) .inr
    rcases hremovals with hsame | ⟨p, hp, hmore⟩
    · exact .inl (hsame ▸ hname)
    · rw [hmore, NameSet.mem_insert] at hname
      exact hname.symm.imp_right fun heq => ⟨p, hp, heq.symm⟩
  · refine (h.2 id hid).elim (fun hid => ?_) .inr
    rcases hretargeted with hsame | ⟨p, id', hp, hmore, hmem⟩
    · exact .inl (hsame ▸ hid)
    · rw [hmore, List.mem_cons] at hid
      exact hid.symm.imp_right fun (heq : id = id') => ⟨p, hp, heq ▸ hmem⟩

theorem congruent_renames : Pass.Congruent (Renames old new) where
  free _ := renames_same _ _ _
  append h h' := by
    refine ⟨fun name hname => ?_, fun id hid => ?_⟩
    · exact (h'.1 name hname).elim (h.1 name) .inr
    · rw [spellings_append]
      rcases h'.2 id hid with hid | ⟨p, hp, hmem⟩
      · exact (h.2 id hid).imp_right fun ⟨p, hp, hmem⟩ => ⟨p, hp, List.mem_append_left _ hmem⟩
      · exact .inr ⟨p, hp, List.mem_append_right _ hmem⟩
  node _ _ h := h.mono (by rw [spellings_node]; exact List.subset_append_right _ _)

end Renames

theorem spellings_access (a : FieldAccess) :
    spellings [(Expr.access a).outline] = spellings [a.target.outline] := Outline.collect_access _ a

theorem spellings_typeDecl (d : TypeDecl) : spellings [d.outline] =
    spellings (outlineHeader d.modifiers d.typeParams d.extending d.implementing) ++
      spellings (Member.outlineAll d.body.members) := Outline.collect_typeDecl _ d

theorem spelling_mem_typeName (t : TypeName) : (t.id, t.name) ∈ spellings [t.outline] := by
  obtain ⟨id, lead, name, args, resolved⟩ := t
  cases args with
  | none => exact List.mem_cons_self
  | some args =>
    rw [TypeName.outline, spellings_node]
    exact List.mem_cons_self

theorem SupertypeChange.respects_renames (c : SupertypeChange) (symbols : SymbolTable) :
    Pass.Respects (c.hooks symbols) Change.Same Change.Same fun s d s' e =>
      Renames (· = c.old) (· = c.new) s [d.outline] s' [e.outline] := by
  refine respects_of_decl ?_
  intro s s₁ s₂ d r members hask hmembers
  have hrest : Renames (· = c.old) (· = c.new) s₁ (Member.outlineAll d.body.members) s₂
      (Member.outlineAll members) :=
    congruent_renames.members (renames_of_same fun x => [Expr.outline x])
      (renames_of_same fun b => [Block.outline b]) (fun hd => hd) hmembers
  refine (hrest.mono ?_).after ?_ ?_
  · rw [spellings_typeDecl]
    exact List.subset_append_right _ _
  · rcases replace_removals hask with ⟨_, hsame⟩ | ⟨_, _, _, ⟨_, hsame⟩ | ⟨_, hmore⟩⟩
    · exact .inl hsame
    · exact .inl hsame
    · exact .inr ⟨c.old, rfl, hmore⟩
  · refine (replace_retargeted hask).imp_right fun ⟨id, lead, t, after, hmore, hr⟩ =>
      ⟨c.new, t.id, rfl, hmore, ?_⟩
    subst hr
    rw [spellings_typeDecl, outlineHeader, spellings_append, spellings_append]
    refine List.mem_append_left _ (List.mem_append_left _ (List.mem_append_right _ ?_))
    exact spelling_mem_typeName (t.withName c.new.simpleName)

/-- The change of expressions in which names are pointed elsewhere; a simple one is only replaced as the
owner of a constant. -/
def renamesExpr (old new : TypePattern → Prop) : Change PassState Expr := fun s x s' y =>
  Renames old new s [x.outline] s' [y.outline] ∧ ∀ i, x = .name i → y = x

theorem ConstantTable.renames_expr {t : ConstantTable} {symbols : SymbolTable} {s s₁ s₂ : PassState}
    {x y : Expr} {r : Option Expr} (hask : Pass.askExpr (t.hooks symbols) x s = some (r, s₁))
    (hbelow : Change.Below (renamesExpr (fun p => ∃ c ∈ t.entries, c.oldOwner = p)
      fun p => ∃ c ∈ t.entries, c.newOwner = p) s₁ (r.getD x) s₂ y) :
    renamesExpr (fun p => ∃ c ∈ t.entries, c.oldOwner = p) (fun p => ∃ c ∈ t.entries, c.newOwner = p)
      s x s₂ y := by
  cases x with
  | access a =>
    have hhook : t.replace symbols a s = (r, s₁) := Option.some.inj hask
    refine ⟨?_, nofun⟩
    have hafter {b : FieldAccess} (hb : r.getD (.access a) = .access b)
        (hnames : s₁.retargeted = s.retargeted ∨ ∃ c ∈ t.entries, ∃ i : Ident,
          s₁.retargeted = i.id :: s.retargeted ∧ b.target = .name (i.withName c.newOwner.simpleName)) :
        Renames (fun p => ∃ c ∈ t.entries, c.oldOwner = p) (fun p => ∃ c ∈ t.entries, c.newOwner = p)
          s [(Expr.access a).outline] s₂ [y.outline] := by
      rw [hb] at hbelow
      obtain ⟨target, ⟨htarget, hname⟩, rfl⟩ := hbelow.access_inv
      refine (htarget.mono (by rw [spellings_access]; exact List.Subset.refl _)).after ?_ ?_
      · exact (replace_removals hhook).imp_right fun ⟨c, hc, hmore⟩ => ⟨c.oldOwner, ⟨c, hc, rfl⟩, hmore⟩
      · refine hnames.imp_right fun ⟨c, hc, i, hmore, hi⟩ => ⟨c.newOwner, i.id, ⟨c, hc, rfl⟩, hmore, ?_⟩
        -- The new owner is a name, which the rest of the pass leaves as it is.
        rw [spellings_access, hname _ hi, hi]
        exact List.mem_singleton.mpr rfl
    rcases replace_retargeted hhook with hsame | ⟨c, hc, i, b, hmore, rfl, hb⟩
    · obtain ⟨b, hb⟩ : ∃ b, r.getD (.access a) = .access b := by
        rcases replace_cases hhook with ⟨rfl, _⟩ | ⟨_, _, _, _, _, _, _, rfl, _⟩ <;> exact ⟨_, rfl⟩
      exact hafter hb (.inl hsame)
    · exact hafter rfl (.inr ⟨c, hc, i, hmore, hb⟩)
  | name i =>
    obtain ⟨rfl, rfl⟩ := Pass.pure_eq_some.mp hask
    refine ⟨congruent_renames.below (fun h => h.1) hbelow nofun, fun _ _ => ?_⟩
    cases hbelow
    rfl
  | _ =>
    obtain ⟨rfl, rfl⟩ := Pass.pure_eq_some.mp hask
    exact ⟨congruent_renames.below (fun h => h.1) hbelow nofun, nofun⟩

/-- The configured types whose imports a recipe gives up. -/
def Recipe.Replaces : Recipe → TypePattern → Prop
  | .changeSupertype c => (· = c.old)
  | .changeConstant t => fun p => ∃ c ∈ t.entries, c.oldOwner = p
  | .changeConstants t => fun p => ∃ c ∈ t.entries, c.oldOwner = p
  | .pipeline _ _ => fun _ => False

/-- **What a pass notes down**: it gives up imports of configured old types, and points elsewhere only
what is spelled like a configured new one afterwards. -/
theorem Recipe.pass_renames {r : Recipe}
    {pass : SymbolTable → Module → Pass PassState (Option Module)} (hr : r.pass? = some pass)
    {symbols : SymbolTable} {m : Module} {s s' : PassState} {changed : Option Module}
    (hrun : pass symbols m s = some (changed, s')) :
    Renames r.Replaces r.Writes s (m.types.map TypeDecl.outline) s'
      ((changed.getD m).types.map TypeDecl.outline) := by
  have hconstant {t : ConstantTable} (hrun : t.pass symbols m s = some (changed, s')) :
      Renames (fun p => ∃ c ∈ t.entries, c.oldOwner = p) (fun p => ∃ c ∈ t.entries, c.newOwner = p) s
        (m.types.map TypeDecl.outline) s' ((changed.getD m).types.map TypeDecl.outline) :=
    congruent_renames.transform (fun h => h.1) (fun _ _ => rfl) (fun _ _ => rfl)
      ConstantTable.renames_expr hrun
  cases r with
  | changeSupertype c =>
    cases hr
    obtain ⟨types, heach, hout⟩ := (c.respects_renames symbols).transform_each _ hrun
    rw [hout]
    exact congruent_renames.types heach
  | changeConstant t =>
    cases hr
    exact hconstant hrun
  | changeConstants t =>
    cases hr
    exact hconstant hrun
  | pipeline name recipes => cases hr

end Migration
