import Mathlib.Logic.Relation
import Migration.Proofs.Rule.Notes
import Migration.Proofs.Traversal.Depth
import Migration.Proofs.Tree.Chains

/-!
# When moving constants ends

A constant behind a dotted owner is replaced by a chain of names, and the pass goes on inside that
chain, where an entry may match again and put in its own chain. So the pass leaps from chain to chain.
Which entry it leaps to depends on the names of a chain only (`leap?_chain`): every entry has at most
one entry that it leads to (`Leads`), and what matters is whether an entry leads back to itself.

* An expression from which such an entry is reached is never done with (`expr_endless`).
* From all others the pass meets each entry at most once, and the depth to which a pass is carried out
  leaves room for all of their chains (`chain_deepens`, `expr_deepens`). So a pass that ends at all
  ends within that depth, with the same result (`pass_eq_some_iff`).
* The passes of a table end for all modules exactly when no entry leads back to itself
  (`pass_ends_iff`).

A change of superclasses nests no replacements and always ends (`SupertypeChange.pass_ends`).
-/

namespace Migration

open Outline (fits_cons within_of_height_le)
open Pass (Deepens exprOf approx)
open Relation (ReflTransGen TransGen)

namespace Expr.Chain

/-! ### Chains of the same names -/

variable {e e' : Expr} {lead lead' : Trivia} {ss : List String}

/-- A chain of the same names as one that ends with an access ends with one, too. -/
theorem access_inv {s : String} (h : e.Chain lead (ss ++ [s])) (hne : ss ≠ []) :
    ∃ target id member, e = .access ⟨id, target, "", ⟨member, "", s⟩, none⟩
      ∧ target.Chain lead ss := by
  generalize hall : ss ++ [s] = all at h
  cases h with
  | name =>
    cases ss with
    | nil => exact absurd rfl hne
    | cons t ts => simp at hall
  | @access target _ rs htarget id member r =>
    obtain ⟨rfl, hlast⟩ := List.append_inj' hall rfl
    cases hlast
    exact ⟨target, id, member, rfl, htarget⟩

theorem isName_eq (h : e.Chain lead ss) : e.isName = (ss.length == 1) := by
  cases h with
  | name => rfl
  | @access _ _ ss htarget id member s =>
    have hpos := List.length_pos_iff.mpr htarget.ne_nil
    have hlong : (ss ++ [s]).length ≠ 1 := by
      rw [List.length_append, List.length_singleton]
      omega
    exact (beq_eq_false_iff_ne.mpr hlong).symm

theorem name_inv {s : String} (h : e.Chain lead [s]) : ∃ id, e = .name ⟨id, lead, s⟩ := by
  generalize hall : [s] = all at h
  cases h with
  | name =>
    cases hall
    exact ⟨_, rfl⟩
  | @access _ _ ss htarget _ _ _ =>
    cases ss with
    | nil => exact absurd rfl htarget.ne_nil
    | cons t ts => simp at hall

theorem dottedName?_congr (h : e.Chain lead ss) (h' : e'.Chain lead' ss) :
    e.dottedName? = e'.dottedName? := by
  induction h generalizing e' with
  | name =>
    obtain ⟨id, rfl⟩ := h'.name_inv
    rfl
  | access htarget id member s ih =>
    obtain ⟨target', id', member', rfl, htarget'⟩ := h'.access_inv htarget.ne_nil
    rw [Expr.dottedName?, Expr.dottedName?, ih htarget']

end Expr.Chain

namespace ConstantTable

variable {t : ConstantTable} {symbols : SymbolTable}

/-! ### Leaps -/

/-- The entry whose full new name takes the place of the target of an access. -/
def leapAt? (t : ConstantTable) (symbols : SymbolTable) (a : FieldAccess) :
    Option ConstantChange :=
  if a.target.isName then none
  else (t.find? symbols a).filter fun c => a.target.dottedName?.any Name.isTypeQualifier
    && c.ownerChanges && (c.newOwner.qualifiedIn? symbols).isSome

/-- The entry that the pass leaps to on its way down through the targets of accesses. -/
def leap? (t : ConstantTable) (symbols : SymbolTable) : Expr → Option ConstantChange
  | .access ⟨id, target, dot, name, owner⟩ =>
    (t.leapAt? symbols ⟨id, target, dot, name, owner⟩).or (leap? t symbols target)
  | _ => none
termination_by structural e => e

/-- Inside the full new name of one entry the pass leaps to another one. -/
def Leads (t : ConstantTable) (symbols : SymbolTable) (c d : ConstantChange) : Prop :=
  ∃ full, c.newOwner.qualifiedIn? symbols = some full
    ∧ t.leap? symbols (nameChain 0 "" full).1 = some d

/-- No entry leads back to itself. -/
def Grounded (t : ConstantTable) (symbols : SymbolTable) : Prop :=
  ∀ c ∈ t.entries, ¬ TransGen (t.Leads symbols) c c

theorem leap?_access (a : FieldAccess) :
    t.leap? symbols (.access a) = (t.leapAt? symbols a).or (t.leap? symbols a.target) := by
  obtain ⟨id, target, dot, name, owner⟩ := a
  rw [leap?]

theorem leap?_of_isName {e : Expr} (h : e.isName = true) : t.leap? symbols e = none := by
  cases e with
  | name i => rfl
  | _ => cases h

theorem mem_of_leapAt? {a : FieldAccess} {c : ConstantChange}
    (h : t.leapAt? symbols a = some c) : c ∈ t.entries := by
  rw [leapAt?] at h
  split at h
  · cases h
  · exact List.mem_of_find?_eq_some (Option.filter_eq_some_iff.mp h).1

theorem mem_of_leap? : (e : Expr) → {c : ConstantChange} → t.leap? symbols e = some c →
    c ∈ t.entries
  | .access ⟨id, target, dot, name, owner⟩, c, h => by
    rw [leap?_access] at h
    rcases Option.or_eq_some_iff.mp h with h | ⟨_, h⟩
    · exact mem_of_leapAt? h
    · exact mem_of_leap? target h
  | .name _, _, h => nomatch h
  | .literal _, _, h => nomatch h
  | .call _, _, h => nomatch h
  | .create _, _, h => nomatch h
  | .binary _, _, h => nomatch h
  | .parens _, _, h => nomatch h

theorem mem_of_reached {c d : ConstantChange} (hc : c ∈ t.entries)
    (h : ReflTransGen (t.Leads symbols) c d) : d ∈ t.entries := by
  rcases ReflTransGen.cases_tail h with rfl | ⟨_, _, full, _, hleap⟩
  · exact hc
  · exact mem_of_leap? _ hleap

theorem leapAt?_congr {a b : FieldAccess} (hname : a.name.name = b.name.name)
    (howner : a.owner = b.owner) (hdotted : a.target.dottedName? = b.target.dottedName?)
    (hkind : a.target.isName = b.target.isName) :
    t.leapAt? symbols a = t.leapAt? symbols b := by
  rw [leapAt?, leapAt?, hkind, hdotted, find?_congr hname howner hdotted]

/-- **Where a chain leads depends on its names only.** -/
theorem leap?_chain {e e' : Expr} {lead lead' : Trivia} {ss : List String} (h : e.Chain lead ss)
    (h' : e'.Chain lead' ss) : t.leap? symbols e = t.leap? symbols e' := by
  induction h generalizing e' with
  | name =>
    obtain ⟨i, rfl⟩ := h'.name_inv
    rfl
  | access htarget id member s ih =>
    obtain ⟨target', id', member', rfl, htarget'⟩ := h'.access_inv htarget.ne_nil
    rw [leap?_access, leap?_access, ih htarget']
    congr 1
    refine leapAt?_congr rfl rfl (htarget.dottedName?_congr htarget') ?_
    exact htarget.isName_eq.trans htarget'.isName_eq.symm

theorem leads_iff {c d : ConstantChange} {full : String}
    (hfull : c.newOwner.qualifiedIn? symbols = some full) (nextId : NodeId) (lead : Trivia) :
    t.Leads symbols c d ↔ t.leap? symbols (nameChain nextId lead full).1 = some d := by
  rw [leap?_chain (chain_nameChain nextId lead full) (chain_nameChain 0 "" full)]
  constructor
  · rintro ⟨full', hfull', hleap⟩
    cases hfull.symm.trans hfull'
    exact hleap
  · intro hleap
    exact ⟨full, hfull, hleap⟩

/-- **Where the pass goes on below an access**: in the same target, in a name, or, where it leaps, in
the full name of the new owner. -/
theorem replace_onward {a : FieldAccess} {s s' : PassState} {r : Option Expr}
    (h : t.replace symbols a s = (r, s')) :
    ∃ b, r.getD (.access a) = .access b ∧
      ((b.target = a.target ∧ t.leapAt? symbols a = none) ∨
        (a.target.isName = true ∧ ∃ i, b.target = .name i) ∨
        ∃ c full, t.leapAt? symbols a = some c ∧ c.newOwner.qualifiedIn? symbols = some full
          ∧ b.target = (nameChain s.nextId a.target.lead full).1) := by
  rcases replace_cases h with ⟨rfl, hspares, _⟩ | ⟨c, spelled, target, owner, hfind, hdotted, htype,
    rfl, _, hcase⟩
  · refine ⟨a, rfl, .inl ⟨rfl, ?_⟩⟩
    cases hfind : t.find? symbols a with
    | none => simp [leapAt?, hfind]
    | some c =>
      rcases hspares c hfind with hspelled | ⟨_, _, hunknown⟩
      · simp [leapAt?, hfind, hspelled]
      · simp [leapAt?, hfind, hunknown]
  · rcases hcase with ⟨howner, rfl, _⟩ | ⟨_, i, hi, rfl, _⟩ | ⟨howner, hname, full, hfull, rfl, _⟩
    · exact ⟨_, rfl, .inl ⟨rfl, by simp [leapAt?, hfind, howner]⟩⟩
    · exact ⟨_, rfl, .inr (.inl ⟨by rw [hi]; rfl, _, rfl⟩)⟩
    · refine ⟨_, rfl, .inr (.inr ⟨c, full, ?_, hfull, rfl⟩)⟩
      simp [leapAt?, hname, hfind, hdotted, htype, howner, hfull]

/-! ### Endless passes -/

/-- An entry that leads back to itself is reached. -/
def Endless (t : ConstantTable) (symbols : SymbolTable) (c : ConstantChange) : Prop :=
  ∃ d, ReflTransGen (t.Leads symbols) c d ∧ TransGen (t.Leads symbols) d d

theorem Endless.leads {c : ConstantChange} (h : t.Endless symbols c) :
    ∃ c', t.Leads symbols c c' ∧ t.Endless symbols c' := by
  obtain ⟨d, hcd, hdd⟩ := h
  rcases ReflTransGen.cases_head hcd with rfl | ⟨c', hleads, hreach⟩
  · obtain ⟨c', hleads, hreach⟩ := TransGen.head'_iff.mp hdd
    exact ⟨c', hleads, c, hreach, hdd⟩
  · exact ⟨c', hleads, d, hreach, hdd⟩

/-- **No depth is enough for an endless entry.** -/
theorem expr_endless {e : Expr} {c : ConstantChange} (hleap : t.leap? symbols e = some c)
    (hend : t.Endless symbols c) (depth n : Nat) (s : PassState) :
    approx (exprOf (t.hooks symbols) depth) n e s = none := by
  induction n generalizing e c s with
  | zero => rfl
  | succ n ih =>
    cases e with
    | access a =>
      refine Option.eq_none_iff_forall_ne_some.mpr fun r hrun => ?_
      obtain ⟨replaced, s₁, hask, hrun⟩ := Pass.bind_eq_some.mp hrun
      obtain ⟨below, s₂, hbelow, _⟩ := Pass.bind_eq_some.mp hrun
      obtain ⟨b, hb, hcases⟩ := replace_onward (Option.some.inj hask)
      rw [hb] at hbelow
      obtain ⟨target, s₃, htarget, _⟩ := Pass.bind_eq_some.mp hbelow
      rw [leap?_access] at hleap
      rcases hcases with ⟨hsame, hnone⟩ | ⟨hname, i, _⟩ | ⟨d, full, hat, hfull, hchain⟩
      · rw [hnone, Option.none_or] at hleap
        rw [hsame, ih hleap hend] at htarget
        cases htarget
      · rw [leapAt?, if_pos hname, Option.none_or, leap?_of_isName hname] at hleap
        cases hleap
      · rw [hat, Option.some_or] at hleap
        cases hleap
        obtain ⟨c', hleads, hend'⟩ := hend.leads
        rw [hchain, ih ((leads_iff hfull _ _).mp hleads) hend'] at htarget
        cases htarget
    | _ => cases hleap

/-! ### Enough depth -/

/-- The depth that the chains of some entries take up. -/
def room (symbols : SymbolTable) (cs : List ConstantChange) : Nat :=
  cs.foldr (fun c n => chainLength symbols c + 1 + n) 0

theorem room_append_cons {cs ds : List ConstantChange} {c : ConstantChange} :
    room symbols (cs ++ c :: ds) = chainLength symbols c + 1 + room symbols (cs ++ ds) := by
  induction cs with
  | nil => rfl
  | cons b cs ih =>
    have hfirst (es : List ConstantChange) :
        room symbols (b :: es) = chainLength symbols b + 1 + room symbols es := rfl
    rw [List.cons_append, List.cons_append, hfirst, hfirst, ih]
    omega

variable {depth depth' : Nat}

/-- A name is done with at once. -/
theorem name_deepens {total : Prop} {i : Ident} (n : Nat) {n' : Nat} (hn' : 0 < n') :
    Deepens total (approx (exprOf (t.hooks symbols) depth) n (.name i))
      (approx (exprOf (t.hooks symbols) depth') n' (.name i)) := by
  obtain ⟨n', rfl⟩ := Nat.exists_eq_add_one.mpr hn'
  refine Deepens.of_succ (fun n => Deepens.ask_bind fun s r s' hask => ?_) n
  cases hask
  exact Deepens.changeNode (.pure _)

/-- An access takes one step more than what its target becomes. -/
theorem access_deepens {total : Prop} {a : FieldAccess} {n n' : Nat}
    (h : ∀ s s' r b, t.replace symbols a s = (r, s') → r.getD (.access a) = .access b →
      Deepens total (approx (exprOf (t.hooks symbols) depth) n b.target)
        (approx (exprOf (t.hooks symbols) depth') n' b.target)) :
    Deepens total (approx (exprOf (t.hooks symbols) depth) (n + 1) (.access a))
      (approx (exprOf (t.hooks symbols) depth') (n' + 1) (.access a)) := by
  refine Deepens.ask_bind fun s r s' hask => Deepens.changeNode ?_
  obtain ⟨b, hb, _⟩ := replace_onward hask
  rw [hb]
  exact (h s s' r b hask hb).map _

/-- Where the pass leaps to an entry, the chain of the entry is in its own room. What is reached from
inside the chain finds room in the rest, because the entry does not lead back to itself, or else the
pass has no end in the first place. -/
theorem leap_deepens {cs : List ConstantChange} {c : ConstantChange} (hmem : c ∈ t.entries)
    {full : String} (hfull : c.newOwner.qualifiedIn? symbols = some full) {e : Expr} {lead : Trivia}
    (he : e.Chain lead (Name.segments full))
    (hcs : ∀ d, ReflTransGen (t.Leads symbols) c d → d ∈ cs) {n n' : Nat}
    (hroom : room symbols cs ≤ n' + 1)
    (hchain : ∀ ds, (∀ d, t.leap? symbols e = some d →
        ∀ d', ReflTransGen (t.Leads symbols) d d' → d' ∈ ds) →
      (Name.segments full).length + room symbols ds ≤ n' →
      Deepens (t.Grounded symbols) (approx (exprOf (t.hooks symbols) depth) n e)
        (approx (exprOf (t.hooks symbols) depth') n' e)) :
    Deepens (t.Grounded symbols) (approx (exprOf (t.hooks symbols) depth) n e)
      (approx (exprOf (t.hooks symbols) depth') n' e) := by
  have hleads (d : ConstantChange) : t.leap? symbols e = some d ↔ t.Leads symbols c d := by
    rw [leads_iff hfull 0 "", leap?_chain he (chain_nameChain 0 "" full)]
  by_cases hself : TransGen (t.Leads symbols) c c
  · obtain ⟨d, hd, hend⟩ := Endless.leads ⟨c, .refl, hself⟩
    intro s
    refine ⟨fun r hr => ?_, fun hgrounded => absurd hself (hgrounded c hmem)⟩
    rw [expr_endless ((hleads d).mpr hd) hend depth n s] at hr
    cases hr
  · obtain ⟨before, after, rfl⟩ := List.append_of_mem (hcs c .refl)
    have hlength : chainLength symbols c = (Name.segments full).length := by
      rw [chainLength, hfull]
    rw [room_append_cons, hlength] at hroom
    refine hchain (before ++ after) (fun d hd d' hreach => ?_) (by omega)
    have hpath : TransGen (t.Leads symbols) c d' := .head' ((hleads d).mp hd) hreach
    have hne : d' ≠ c := by
      rintro rfl
      exact hself hpath
    rcases List.mem_append.mp (hcs d' hpath.to_reflTransGen) with hin | hin
    · exact List.mem_append_left _ hin
    · exact List.mem_append_right _ ((List.mem_cons.mp hin).resolve_left hne)

/-- **The depth is enough for a chain**: one step for each of its names, and room for the chains of
the entries that are reached from it. -/
theorem chain_deepens {cs : List ConstantChange} {e : Expr} {lead : Trivia} {ss : List String}
    (he : e.Chain lead ss) (hcs : ∀ c, t.leap? symbols e = some c →
      ∀ d, ReflTransGen (t.Leads symbols) c d → d ∈ cs)
    (n : Nat) {n' : Nat} (hroom : ss.length + room symbols cs ≤ n') :
    Deepens (t.Grounded symbols) (approx (exprOf (t.hooks symbols) depth) n e)
      (approx (exprOf (t.hooks symbols) depth') n' e) := by
  induction n' generalizing n e lead ss cs with
  | zero =>
    have hpos := List.length_pos_iff.mpr he.ne_nil
    omega
  | succ n' ih =>
    cases he with
    | name => exact name_deepens n (Nat.succ_pos n')
    | @access target _ ss htarget id member s =>
      rw [List.length_append, List.length_singleton] at hroom
      have hpos := List.length_pos_iff.mpr htarget.ne_nil
      refine Deepens.of_succ (fun n => access_deepens fun s₀ s₁ r b hask hb => ?_) n
      obtain ⟨b', hb', hcases⟩ := replace_onward hask
      cases hb.symm.trans hb'
      rw [leap?_access] at hcs
      rcases hcases with ⟨hsame, hnone⟩ | ⟨_, i, hi⟩ | ⟨c, full, hat, hfull, hchain⟩
      · rw [hnone, Option.none_or] at hcs
        rw [hsame]
        exact ih htarget hcs n (by omega)
      · rw [hi]
        exact name_deepens n (by omega)
      · rw [hat, Option.some_or] at hcs
        have hnew := chain_nameChain s₀.nextId target.lead full
        rw [← hchain] at hnew
        exact leap_deepens (mem_of_leapAt? hat) hfull hnew (hcs c rfl) (by omega)
          fun ds hds hroom => ih hnew hds n hroom

theorem bounded_hooks {P : FieldAccess → Prop} : Pass.Bounded P (t.hooks symbols) where
  typeName h hfits := by
    cases h
    exact hfits
  typeDecl h hfits := by
    cases h
    exact hfits

/-- **The depth is enough for an expression** when it has room for all entries. -/
theorem expr_deepens {e : Expr} (n : Nat) {n' : Nat} (hdepth : n' ≤ depth')
    (he : e.outline.height + room symbols t.entries ≤ n') :
    Deepens (t.Grounded symbols) (approx (exprOf (t.hooks symbols) depth) n e)
      (approx (exprOf (t.hooks symbols) depth') n' e) := by
  induction n' generalizing n e with
  | zero =>
    have hpos := e.outline.height_pos
    omega
  | succ n' ih =>
    obtain ⟨k, hk⟩ := Nat.exists_eq_add_one.mpr e.outline.height_pos
    have hkd : k ≤ depth' := by omega
    have hfits := within_of_height_le (Nat.le_of_eq hk)
    have hself (n : Nat) (x : Expr) (hx : x.outline.Within (fun _ => True) k) :
        Deepens (t.Grounded symbols) (approx (exprOf (t.hooks symbols) depth) n x)
          (approx (exprOf (t.hooks symbols) depth') n' x) := by
      have hheight := hx.1
      exact ih n (by omega) (by omega)
    have hkept (n : Nat) : Deepens (t.Grounded symbols)
        (Pass.changeNode e none (Pass.belowExpr (t.hooks symbols) depth
          (approx (exprOf (t.hooks symbols) depth) n)))
        (Pass.changeNode e none (Pass.belowExpr (t.hooks symbols) depth'
          (approx (exprOf (t.hooks symbols) depth') n'))) :=
      Deepens.changeNode (Pass.belowExpr_deepens bounded_hooks hkd (Nat.le_refl k) (hself n) hfits)
    refine Deepens.of_succ (fun n => ?_) n
    cases e with
    | access a =>
      obtain ⟨id, target, dot, name, owner⟩ := a
      have htarget : target.outline.Within (fun _ => True) k :=
        (fits_cons.mp (fits_cons.mp hfits.fits_below).1.fits).1
      have hheight := htarget.1
      have hpos := target.outline.height_pos
      refine access_deepens fun s s₁ r b hask hb => ?_
      obtain ⟨b', hb', hcases⟩ := replace_onward hask
      cases hb.symm.trans hb'
      rcases hcases with ⟨hsame, _⟩ | ⟨_, i, hi⟩ | ⟨c, full, hat, hfull, hchain⟩
      · rw [hsame]
        exact hself n target htarget
      · rw [hi]
        exact name_deepens n (by omega)
      · have hnew := chain_nameChain s.nextId target.lead full
        rw [← hchain] at hnew
        have hmem := mem_of_leapAt? hat
        exact leap_deepens hmem hfull hnew (fun d => mem_of_reached hmem) (by omega)
          fun ds hds hroom => chain_deepens hnew hds n hroom
    | _ => exact hkept n

/-! ### Passes over modules -/

theorem passWithin_deepens (m : Module) (depth : Nat) :
    Deepens (t.Grounded symbols) (t.passWithin symbols m depth) (t.pass symbols m) := by
  have hbound : t.depthBound symbols m = m.outline.height + 1 + room symbols t.entries := rfl
  refine Pass.transform_deepens bounded_hooks (n := m.outline.height) (by omega) (fun e he => ?_)
    (within_of_height_le (Nat.le_refl _))
  have hheight := he.1
  exact expr_deepens depth (Nat.le_refl _) (by omega)

/-- **A pass that ends at all ends within the depth that it is carried out to**, and the depth has no
effect on its result. -/
theorem pass_eq_some_iff {m : Module} {s : PassState} {r : Option Module × PassState} :
    t.pass symbols m s = some r ↔ ∃ depth, t.passWithin symbols m depth s = some r :=
  ⟨fun h => ⟨_, h⟩, fun ⟨depth, h⟩ => (passWithin_deepens m depth s).1 r h⟩

/-- A class with one field that has the given value. -/
def fieldModule (value : Expr) : Module :=
  let field : Variable :=
    ⟨0, "", [], ⟨0, "", "int", none, none⟩, ⟨0, " ", "x"⟩, some ⟨" ", value⟩, ""⟩
  ⟨0, none, [], [⟨0, "", [], "", .ofClass, ⟨0, " ", "X"⟩, none, none, none,
    ⟨0, " ", [.field field], " "⟩⟩], "", 0⟩

theorem passWithin_fieldModule {value : Expr} {depth : Nat} {s : PassState}
    (h : (t.passWithin symbols (fieldModule value) depth s).isSome = true) :
    ∃ s, (approx (exprOf (t.hooks symbols) depth) depth value s).isSome = true := by
  obtain ⟨r, hrun⟩ := Option.isSome_iff_exists.mp h
  obtain ⟨types, s₁, htypes, _⟩ := Pass.bind_eq_some.mp hrun
  obtain ⟨d, s₂, hd, _⟩ := Pass.bind_eq_some.mp htypes
  cases depth with
  | zero => cases hd
  | succ depth =>
    obtain ⟨replaced, s₃, hask, hd⟩ := Pass.bind_eq_some.mp hd
    cases hask
    obtain ⟨below, s₄, hbelow, _⟩ := Pass.bind_eq_some.mp hd
    obtain ⟨_, s₅, _, hbelow⟩ := Pass.bind_eq_some.mp hbelow
    obtain ⟨_, s₆, _, hbelow⟩ := Pass.bind_eq_some.mp hbelow
    obtain ⟨_, s₇, _, hbelow⟩ := Pass.bind_eq_some.mp hbelow
    obtain ⟨_, s₈, hbody, _⟩ := Pass.bind_eq_some.mp hbelow
    obtain ⟨_, s₉, hmembers, _⟩ := Pass.bind_eq_some.mp hbody
    obtain ⟨_, s₁₀, hmember, _⟩ := Pass.bind_eq_some.mp hmembers
    obtain ⟨_, s₁₁, hfield, _⟩ := Pass.bind_eq_some.mp hmember
    obtain ⟨_, s₁₂, _, hvalue⟩ := Pass.bind_eq_some.mp hfield
    obtain ⟨_, s₁₃, hinit, _⟩ := Pass.bind_eq_some.mp hvalue
    obtain ⟨_, s₁₄, hinit, _⟩ := Pass.bind_eq_some.mp hinit
    obtain ⟨_, s₁₅, hexpr, _⟩ := Pass.bind_eq_some.mp hinit
    exact ⟨s₁₂, Option.isSome_iff_exists.mpr ⟨_, hexpr⟩⟩

/-- **The passes of a table end exactly when no entry leads back to itself.** -/
theorem pass_ends_iff (t : ConstantTable) (symbols : SymbolTable) :
    (∀ m s, ∃ depth, (t.passWithin symbols m depth s).isSome = true) ↔ t.Grounded symbols := by
  constructor
  · intro hends c _ hself
    -- Going down the full name of the entry already leads to the entry.
    obtain ⟨d, ⟨full, _, hleap⟩, hend⟩ := Endless.leads ⟨c, .refl, hself⟩
    let m := fieldModule (nameChain 0 "" full).1
    obtain ⟨depth, hrun⟩ := hends m (.start m)
    obtain ⟨s, hvalue⟩ := passWithin_fieldModule hrun
    rw [expr_endless hleap hend] at hvalue
    cases hvalue
  · intro hgrounded m s
    exact ⟨_, (passWithin_deepens m 0 s).2 hgrounded⟩

/-- One entry is enough for a table that is accepted, although a pass of it has no end: the new owner
of the constant is named like the constant itself. -/
theorem pass_ends_iff_self : ∃ t m, ofMappings [⟨"a.P", "Q", "a.P.Q", "r"⟩] = .ok t ∧
    Module.parse "class X { int y = a.P.Q; }" = .ok m ∧
    (∀ depth, t.passWithin (.ofModule m (.ofList [])) m depth (.start m) = none) ∧
    ¬ t.Grounded (.ofModule m (.ofList [])) := by
  have hcheck : (do
      let t ← (ofMappings [⟨"a.P", "Q", "a.P.Q", "r"⟩]).toOption
      let m ← (Module.parse "class X { int y = a.P.Q; }").toOption
      return (t.pass (.ofModule m (.ofList [])) m (.start m)).isNone : Option Bool)
        = some true := by
    decide +kernel
  obtain ⟨t, ht, hcheck⟩ := Option.bind_eq_some_iff.mp hcheck
  obtain ⟨m, hm, hcheck⟩ := Option.bind_eq_some_iff.mp hcheck
  have hnone := Option.isNone_iff_eq_none.mp (Option.some.inj hcheck)
  have hnever (depth : Nat) :
      t.passWithin (.ofModule m (.ofList [])) m depth (.start m) = none := by
    refine Option.eq_none_iff_forall_ne_some.mpr fun r hrun => ?_
    rw [pass_eq_some_iff.mpr ⟨depth, hrun⟩] at hnone
    cases hnone
  refine ⟨t, m, eq_ok_of_toOption ht, eq_ok_of_toOption hm, hnever, fun hgrounded => ?_⟩
  obtain ⟨depth, hrun⟩ := (pass_ends_iff t _).mpr hgrounded m (.start m)
  rw [hnever depth] at hrun
  cases hrun

end ConstantTable

/-! ### Changing superclasses -/

theorem TypeName.height_withName (t : TypeName) (name : String) :
    (t.withName name).outline.height = t.outline.height := by
  obtain ⟨_, _, _, args, _⟩ := t
  cases args <;> rfl

namespace SupertypeChange

/-- A declaration with another superclass is as high as it was. -/
theorem bounded_hooks {c : SupertypeChange} {symbols : SymbolTable} :
    Pass.Bounded (fun _ => True) (c.hooks symbols) where
  typeName h hfits := by
    cases h
    exact hfits
  typeDecl {d s s' r n} h hfits := by
    rcases replace_cases h with ⟨rfl, _⟩ | ⟨id, lead, t, after, name, _, hextending, _, rfl, _⟩
    · exact hfits
    · obtain ⟨_, _, modifiers, _, _, _, params, extending, implementing, body⟩ := d
      obtain rfl : extending = some ⟨id, lead, [⟨t, after⟩]⟩ := hextending
      have hclause : Outline.heightAll (TypeClause.outlines ⟨id, lead, [⟨t.withName name, after⟩]⟩)
          = Outline.heightAll (TypeClause.outlines ⟨id, lead, [⟨t, after⟩]⟩) :=
        congrArg (max · 0) (t.height_withName name)
      refine within_of_height_le (Nat.le_trans (Nat.le_of_eq (congrArg (· + 1) ?_)) hfits.1)
      simp only [outlineHeader, Outline.heightAll_append, Option.toList_some,
        List.flatMap_singleton, hclause]

/-- **A change of superclasses always ends.** -/
theorem pass_ends (c : SupertypeChange) (symbols : SymbolTable) (m : Module) (s : PassState) :
    (c.pass symbols m s).isSome = true := by
  have hquiet (e : Expr) (s : PassState) (r : Option Expr) (s' : PassState)
      (hask : Pass.askExpr (c.hooks symbols) e s = some (r, s')) : r = none := by
    cases e <;> exact (Pass.pure_eq_some.mp hask).1
  have hdeep : m.outline.height ≤ m.height := Nat.le_succ _
  have hends : Deepens True (m.transform (c.hooks symbols) 0)
      (m.transform (c.hooks symbols) m.height) :=
    Pass.transform_deepens bounded_hooks hdeep
      (fun e he => Pass.expr_deepens_of_quiet bounded_hooks hdeep
        (fun e s r s' _ hask => hquiet e s r s' hask) he) (within_of_height_le (Nat.le_refl _))
  exact (hends s).2 trivial

end SupertypeChange

end Migration
