import Mathlib.Algebra.Order.Group.Multiset
import Migration.Proofs.Imports.Leads
import Migration.Proofs.Imports.Report
import Migration.Tree.Printer

/-!
# Adding imports is insertion of text

Where imports are only added, the text of the module stays as it is but for the imports that are put in
between and the line breaks around them (`Module.reconcile_inserts`). A new import takes over the trivia of
the one it is put in front of, the first import of a module those of a type, so the trivia change hands.
What does not change is the row of texts that is made of all of them in turn, of the trivia in front of each
import, the import itself, and the trivia in front of the first type (`Placement.parts`). To put an import in
is to put two neighbours into this row, the import and a line break (`interposed_insertSorted`).

How far a text has been woven into another one is kept part by part (`Woven`), so that an import can be put
between any two of them, whatever has been put in before.
-/

namespace Migration

/-! ### Insertions -/

/-- **The second text is the first one with imports put in**, one for each of the names, wherever they
stand, and with line breaks put in. -/
inductive Inserted (eol : String) : Multiset String → String → String → Prop
  | done : Inserted eol 0 "" ""
  | keep {names : Multiset String} {s t : String} (x : String) :
      Inserted eol names s t → Inserted eol names (x ++ s) (x ++ t)
  | lineBreak {names : Multiset String} {s t : String} :
      Inserted eol names s t → Inserted eol names s (eol ++ t)
  | addImport {names : Multiset String} {s t : String} (name : String) :
      Inserted eol names s t → Inserted eol ({name} + names) s ("import " ++ name ++ ";" ++ t)

namespace Inserted

variable {eol s t s' t' : String} {names names' : Multiset String}

theorem refl (eol s : String) : Inserted eol 0 s s := by
  have h : Inserted eol 0 (s ++ "") (s ++ "") := .keep s .done
  rwa [String.append_empty] at h

theorem append (h : Inserted eol names s t) (h' : Inserted eol names' s' t') :
    Inserted eol (names + names') (s ++ s') (t ++ t') := by
  induction h with
  | done => simpa using h'
  | keep x _ ih =>
    rw [String.append_assoc, String.append_assoc]
    exact .keep x ih
  | lineBreak _ ih =>
    rw [String.append_assoc]
    exact .lineBreak ih
  | addImport name _ ih =>
    rw [String.append_assoc, add_assoc]
    exact .addImport name ih

theorem blankLine (h : Inserted eol names s t) : Inserted eol names s (Imports.blankLine eol ++ t) := by
  rw [Imports.blankLine, String.append_assoc]
  exact .lineBreak (.lineBreak h)

theorem ensureBlankLine (h : Inserted eol names s t) :
    Inserted eol names s (Imports.ensureBlankLine eol t) := by
  unfold Imports.ensureBlankLine
  split
  · exact h
  · split
    · exact .lineBreak h
    · exact h.blankLine

theorem of_break {x : String} (h : x = eol ∨ x = Imports.blankLine eol) : Inserted eol 0 "" x := by
  rcases h with rfl | rfl
  · have h : Inserted x 0 "" (x ++ "") := .lineBreak .done
    rwa [String.append_empty] at h
  · have h : Inserted eol 0 "" (Imports.blankLine eol ++ "") := blankLine .done
    rwa [String.append_empty] at h

theorem of_import (eol name : String) : Inserted eol {name} "" ("import " ++ name ++ ";") := by
  have h : Inserted eol ({name} + 0) "" ("import " ++ name ++ ";" ++ "") := .addImport name .done
  rwa [add_zero, String.append_empty] at h

end Inserted

/-! ### Rows of texts -/

/-- A text with something put into it, part by part. -/
inductive Woven (eol : String) : Multiset String → String → List String → Prop
  | nil : Woven eol 0 "" []
  | cons {names names' : Multiset String} {s s' t : String} {ts : List String} :
      Inserted eol names s t → Woven eol names' s' ts → Woven eol (names + names') (s ++ s') (t :: ts)

namespace Woven

variable {eol s s' : String} {names names' : Multiset String} {ts us : List String}

theorem refl (eol : String) (ts : List String) : Woven eol 0 (String.join ts) ts := by
  induction ts with
  | nil => exact .nil
  | cons t ts ih =>
    rw [String.join_cons]
    exact .cons (.refl eol t) ih

theorem inserted (h : Woven eol names s ts) : Inserted eol names s (String.join ts) := by
  induction h with
  | nil => exact .done
  | cons hpart _ ih =>
    rw [String.join_cons]
    exact hpart.append ih

theorem append (h : Woven eol names s ts) (h' : Woven eol names' s' us) :
    Woven eol (names + names') (s ++ s') (ts ++ us) := by
  induction h with
  | nil => simpa using h'
  | cons hpart _ ih =>
    rw [String.append_assoc, add_assoc]
    exact .cons hpart ih

theorem of_append (h : Woven eol names s (ts ++ us)) :
    ∃ names₁ s₁ names₂ s₂, names = names₁ + names₂ ∧ s = s₁ ++ s₂ ∧
      Woven eol names₁ s₁ ts ∧ Woven eol names₂ s₂ us := by
  induction ts generalizing names s with
  | nil => exact ⟨0, "", names, s, (zero_add _).symm, String.empty_append.symm, .nil, h⟩
  | cons t ts ih =>
    cases h with
    | cons hpart hrest =>
      obtain ⟨names₁, s₁, names₂, s₂, rfl, rfl, h₁, h₂⟩ := ih hrest
      exact ⟨_, _, names₂, s₂, (add_assoc _ _ _).symm, String.append_assoc.symm, .cons hpart h₁, h₂⟩

/-- Between any two parts something can be put in. -/
theorem put {xs : List String} (h : Woven eol names s (ts ++ us)) (hxs : Woven eol names' "" xs) :
    Woven eol (names + names') s (ts ++ xs ++ us) := by
  obtain ⟨names₁, s₁, names₂, s₂, rfl, rfl, h₁, h₂⟩ := h.of_append
  have hput := (h₁.append hxs).append h₂
  rwa [String.append_empty, add_right_comm] at hput

end Woven

namespace Imports

/-! ### Putting imports in -/

/-- The texts that imports are made of: in turn the trivia in front of an import, and the import. -/
def parts (imports : List Import) : List String := imports.flatMap fun i => [i.lead, i.bare.print]

theorem parts_append (imports more : List Import) : parts (imports ++ more) = parts imports ++ parts more :=
  List.flatMap_append

theorem join_parts (imports : List Import) :
    String.join (parts imports) = String.join (imports.map Import.print) := by
  induction imports with
  | nil => rfl
  | cons i is ih =>
    have hparts : parts (i :: is) = [i.lead, i.bare.print] ++ parts is := rfl
    have hprint : i.print = i.lead ++ i.bare.print := by
      simp only [Import.print, Import.bare, Import.withLead, String.empty_append, String.append_assoc]
      rfl
    rw [List.map_cons, String.join_cons, ← ih, hprint, hparts, String.join_append, String.join_cons,
      String.join_cons, String.join_nil, String.append_empty]

theorem print_bare_single (id : NodeId) (lead : Trivia) (name : String) :
    (Import.single id lead name).bare.print = "import " ++ name ++ ";" := by
  have hkeyword : "import " = "import" ++ " " := by decide
  rw [hkeyword]
  simp [Import.print, Import.bare, Import.withLead, Import.single, printOption, String.append_assoc]

/-- Two neighbours are put into a row of texts: the text of an import and a line break or an empty line, in
one order or the other. -/
def Interposed (eol : String) (new : Import) (row row' : List String) : Prop :=
  ∃ as bs xs x, row = as ++ bs ∧ row' = as ++ xs ++ bs ∧ (x = eol ∨ x = blankLine eol) ∧
    (xs = [new.bare.print, x] ∨ xs = [x, new.bare.print])

section

variable {eol : String} {new : Import}

theorem Interposed.between {row row' : List String} (h : Interposed eol new row row')
    (front back : List String) : Interposed eol new (front ++ row ++ back) (front ++ row' ++ back) := by
  obtain ⟨as, bs, xs, x, rfl, rfl, hx, hxs⟩ := h
  exact ⟨front ++ as, bs ++ back, xs, x, by simp, by simp, hx, hxs⟩

variable (eol) (new) in
theorem interposed_insertInto (group : List Import) :
    Interposed eol new (parts group) (parts (insertInto eol new group)) := by
  unfold insertInto
  split
  · next first rest _ =>
    -- the trivia of the first import stay in front, a line break divides the two
    exact ⟨[first.lead], first.bare.print :: parts rest, _, eol, rfl, rfl, .inl rfl, .inl rfl⟩
  · next group k _ _ =>
    refine ⟨parts (group.take (positionIn new.name group)), parts (group.drop (positionIn new.name group)),
      _, eol, ?_, ?_, .inl rfl, .inr rfl⟩
    · rw [← parts_append, List.take_append_drop]
    · rw [parts_append, List.append_assoc]
      rfl

variable (eol) (new) in
/-- **An import is put in with a line break next to it**, at whatever place, between the parts of the
others. -/
theorem interposed_insertSorted {imports : List Import} (hne : imports ≠ []) :
    Interposed eol new (parts imports) (parts (insertSorted eol new imports)) := by
  cases hk : bestGroup? new.name (groups imports) with
  | none =>
    cases imports with
    | nil => exact absurd rfl hne
    | cons first rest =>
      simp only [insertSorted, hk]
      exact ⟨[first.lead], first.bare.print :: parts rest, _, _, rfl, rfl, .inr rfl, .inl rfl⟩
  | some k =>
    simp only [insertSorted, hk]
    have hlt := bestGroup?_lt hk
    have hgroups := (groups imports).take_append_drop k
    rw [List.drop_eq_getElem_cons hlt] at hgroups
    have hrow := congrArg (fun gs => parts gs.flatten) hgroups
    have hmodify := List.modify_eq_take_cons_drop (f := insertInto eol new) hlt
    have hrow' := congrArg (fun gs => parts gs.flatten) hmodify
    simp only [List.flatten_append, List.flatten_cons, parts_append, ← List.append_assoc] at hrow hrow'
    rw [flatten_groups] at hrow
    rw [← hrow, hrow']
    exact (interposed_insertInto eol new (groups imports)[k]).between _ _

end

theorem Interposed.woven {eol name s : String} {id : NodeId} {names : Multiset String}
    {row row' : List String} (h : Interposed eol (Import.single id "" name) row row') (hrow : Woven eol names s row) :
    Woven eol (names + {name}) s row' := by
  obtain ⟨as, bs, xs, x, rfl, rfl, hx, hxs⟩ := h
  have hbreak := Inserted.of_break hx
  rw [print_bare_single] at hxs
  refine hrow.put ?_
  rcases hxs with rfl | rfl
  · simpa using Woven.cons (.of_import eol name) (.cons hbreak .nil)
  · simpa using Woven.cons hbreak (.cons (.of_import eol name) .nil)

theorem exists_splitHeader (eol : String) (lead : Trivia) : ∃ rest,
    lead = (splitHeader eol lead).1 ++ rest ∧ (splitHeader eol lead).2 = blankLine eol ++ rest := by
  obtain ⟨rest, hlead, hrest, _⟩ := splitHeader_append eol lead
  exact ⟨String.ofList rest, String.toList_injective (by simpa using hlead),
    String.toList_injective (by simpa using hrest)⟩

namespace Placement

/-- The texts at which imports are put in, up to the trivia in front of the first type. -/
def parts (p : Placement) : List String := Imports.parts p.imports ++ p.firstLead.toList

variable {eol : String} {hasPackage : Bool} {p : Placement} {s name : String} {names : Multiset String}

variable (hasPackage) (name) in
theorem woven_add (hne : p.imports ≠ []) (h : Woven eol names s p.parts) :
    Woven eol (names + {name}) s (p.add eol hasPackage name).parts := by
  obtain ⟨imports, leftover, firstLead, nextId⟩ := p
  cases imports with
  | nil => exact absurd rfl hne
  | cons i is =>
    have hinterposed :=
      (interposed_insertSorted eol (Import.single nextId "" name) hne).between [] firstLead.toList
    exact hinterposed.woven h

variable (eol) (hasPackage) (name) in
/-- The first import of a module stands below the package, or divides the trivia of the first type. -/
theorem woven_add_first (firstLead : Option Trivia) (nextId : NodeId) :
    Woven eol {name} (firstLead.getD "")
      (add eol hasPackage ⟨[], none, firstLead, nextId⟩ name).parts := by
  have himport : Inserted eol {name} "" (Import.single nextId "" name).bare.print := by
    rw [print_bare_single]
    exact .of_import eol name
  have hblank : Inserted eol 0 "" (blankLine eol) := .of_break (.inr rfl)
  cases hasPackage with
  | true =>
    cases firstLead with
    | none =>
      have hwoven := Woven.cons hblank (.cons himport .nil)
      simp only [zero_add, add_zero, String.append_empty] at hwoven
      exact hwoven
    | some first =>
      have hfirst := (Inserted.refl eol first).ensureBlankLine
      have hwoven := Woven.cons hblank (.cons himport (.cons hfirst .nil))
      simp only [zero_add, add_zero, String.append_empty, String.empty_append] at hwoven
      exact hwoven
  | false =>
    cases firstLead with
    | none =>
      have hwoven := Woven.cons (.refl eol "") (.cons himport .nil)
      simp only [zero_add, add_zero, String.append_empty] at hwoven
      exact hwoven
    | some first =>
      obtain ⟨rest, hfirst, hrest⟩ := exists_splitHeader eol first
      have hbelow : Inserted eol 0 rest (splitHeader eol first).2 := by
        rw [hrest]
        exact (Inserted.refl eol rest).blankLine
      have hwoven := Woven.cons (.refl eol (splitHeader eol first).1) (.cons himport (.cons hbelow .nil))
      simp only [zero_add, add_zero, String.append_empty, String.empty_append, ← hfirst] at hwoven
      exact hwoven

variable (eol) (hasPackage) in
theorem woven_foldl_add (more : List String) (hne : p.imports ≠ []) (h : Woven eol names s p.parts) :
    Woven eol (names + more) s (more.foldl (add eol hasPackage) p).parts := by
  induction more generalizing p names with
  | nil => simpa using h
  | cons name more ih =>
    have hrun := ih (add_imports_ne_nil eol hasPackage p name) (woven_add hasPackage name hne h)
    rwa [add_assoc, Multiset.singleton_add, Multiset.cons_coe] at hrun

variable (eol) (hasPackage) in
/-- **Imports are put in between**, where no trivia of removed ones are left. -/
theorem woven_foldl_add_of_kept (more : List String) (h : p.leftover = none) :
    Woven eol more (String.join p.parts) (more.foldl (add eol hasPackage) p).parts := by
  by_cases hne : p.imports = []
  · obtain ⟨imports, leftover, firstLead, nextId⟩ := p
    cases hne
    cases h
    cases more with
    | nil => exact .refl eol _
    | cons name more =>
      have hrun := woven_foldl_add eol hasPackage more (add_imports_ne_nil eol hasPackage _ name)
        (woven_add_first eol hasPackage name firstLead nextId)
      have hjoin : String.join firstLead.toList = firstLead.getD "" := by cases firstLead <;> simp
      rwa [Multiset.singleton_add, Multiset.cons_coe, ← hjoin] at hrun
  · have hrun := woven_foldl_add eol hasPackage more hne (.refl eol p.parts)
    rwa [zero_add] at hrun

variable (eol) (hasPackage) (name) in
theorem isSome_firstLead_add : (p.add eol hasPackage name).firstLead.isSome = p.firstLead.isSome := by
  obtain ⟨imports, leftover, firstLead, nextId⟩ := p
  cases imports with
  | cons i is => rfl
  | nil => cases leftover <;> cases hasPackage <;> cases firstLead <;> rfl

variable (eol) (hasPackage) in
theorem isSome_firstLead_foldl_add (more : List String) :
    (more.foldl (add eol hasPackage) p).firstLead.isSome = p.firstLead.isSome := by
  induction more generalizing p with
  | nil => rfl
  | cons name more ih => exact ih.trans (isSome_firstLead_add eol hasPackage name)

end Placement

/-! ### The text of the module -/

/-- The trivia in front of the first type are the first part of the text of all types. -/
theorem exists_print_withFirstLead (ds : List TypeDecl) : ∃ rest, ∀ lead : Option Trivia,
    lead.isSome = (ds.head?.map (·.lead)).isSome →
      String.join ((withFirstLead lead ds).map TypeDecl.print) = String.join lead.toList ++ rest := by
  cases ds with
  | nil => exact ⟨"", fun lead h => by cases lead <;> simp_all [withFirstLead]⟩
  | cons d ds =>
    refine ⟨({ d with lead := "" } : TypeDecl).print ++ String.join (ds.map TypeDecl.print), fun lead h => ?_⟩
    obtain ⟨lead, rfl⟩ := Option.isSome_iff_exists.mp h
    obtain ⟨_, _, _, _, _, _, _, _, _, _⟩ := d
    simp [withFirstLead, TypeDecl.print, printHeader, String.append_assoc]

theorem withFirstLead_head (ds : List TypeDecl) : withFirstLead (ds.head?.map (·.lead)) ds = ds := by
  cases ds with
  | nil => rfl
  | cons d ds =>
    obtain ⟨_, _, _, _, _, _, _, _, _, _⟩ := d
    rfl

theorem keep_left_of_unmarked {marked : List (Import × Bool)} (h : ∀ q ∈ marked, q.2 = false)
    (started : Bool) : (keep started none marked).2 = none := by
  induction marked generalizing started with
  | nil => rfl
  | cons q marked ih =>
    obtain ⟨i, removed⟩ := q
    obtain ⟨hq, hrest⟩ := List.forall_mem_cons.mp h
    cases hq
    exact ih hrest true

theorem inserted_carryOut (m : Module) {marked : List (Import × Bool)}
    (hmarked : marked.map (·.1) = m.imports) (h : ∀ q ∈ marked, q.2 = false) (names : List String)
    (nextId : NodeId) : Inserted (lineBreak m) names m.print (carryOut m marked names nextId).print := by
  have hleft := keep_left_of_unmarked h false
  have hsettled : (placed m marked names nextId).settle m.package.isSome = placed m marked names nextId := by
    refine Placement.settle_eq_self ?_
    by_cases hnames : names = []
    · subst hnames
      exact .inr (.inl hleft)
    · refine .inl fun hnil => hnames ?_
      exact (Placement.foldl_add_imports_eq_nil.mp hnil).1
  have hwoven := Placement.woven_foldl_add_of_kept (lineBreak m) m.package.isSome
    (p := ⟨(keep false none marked).1, (keep false none marked).2, m.types.head?.map (·.lead), nextId⟩)
    names hleft
  have hsome : (placed m marked names nextId).firstLead.isSome = (m.types.head?.map (·.lead)).isSome :=
    Placement.isSome_firstLead_foldl_add _ _ names
  obtain ⟨rest, hrest⟩ := exists_print_withFirstLead m.types
  have hbefore : m.print = printOption Package.print m.package ++
      (String.join (Imports.parts m.imports ++ (m.types.head?.map (·.lead)).toList) ++ (rest ++ m.eof)) := by
    have htypes := hrest _ rfl
    rw [withFirstLead_head] at htypes
    rw [Module.print, htypes, String.join_append, join_parts]
    simp only [String.append_assoc]
  have hafter : (carryOut m marked names nextId).print = printOption Package.print m.package ++
      (String.join (placed m marked names nextId).parts ++ (rest ++ m.eof)) := by
    have htypes := hrest _ hsome
    rw [Module.print, carryOut_types, hsettled, htypes, carryOut_imports, Placement.parts, String.join_append,
      join_parts]
    simp only [String.append_assoc]
    rfl
  rw [hbefore, hafter]
  have hinserted := hwoven.inserted.append (.refl _ (rest ++ m.eof))
  have hkept : (keep false none marked).1 = m.imports := (keep_of_unmarked h false).trans hmarked
  rw [add_zero] at hinserted
  rw [← hkept]
  exact .keep _ hinserted

end Imports

variable {m out : Module} {symbols : SymbolTable} {s : PassState} {changes : ImportChanges}

/-- **Adding imports is insertion of text.** Where no import is removed, the text of the module afterwards is
the text before with one import put in for each name that was added, and with line breaks of the module put
in. -/
theorem Module.reconcile_inserts (h : m.reconcile symbols s = .ok (out, changes))
    (hremoved : changes.removed = []) :
    Inserted (Imports.lineBreak m) changes.added m.print out.print := by
  obtain ⟨plan, hplan, hadded, ⟨hnone, _, rfl⟩ | rfl⟩ := reconcile_cases h
  · rw [hadded, hnone]
    exact .refl _ _
  · rw [hadded]
    refine Imports.inserted_carryOut m (Imports.Demand.marked_map_fst plan) (fun q hq => ?_) _ _
    rw [reconcile_removed h hplan, List.map_eq_nil_iff, List.filter_eq_nil_iff] at hremoved
    exact (Bool.not_eq_true _).mp (hremoved q hq)

/-- One import is put in at the start of a group, another one behind the imports of its group. -/
theorem Module.reconcile_inserts_two : ∃ m out changes,
    Module.parse "import a.C;\n\nimport z.W;\nclass X extends B {C c; W w; Z z;}" = .ok m ∧
    m.reconcile (.ofModule m (.ofList ["a.B", "z.Z"]))
      { PassState.start m with additions := .ofList ["a.B", "z.Z"] } = .ok (out, changes) ∧
    changes = ⟨["a.B", "z.Z"], []⟩ ∧ Imports.lineBreak m = "\n" ∧
    out.print = "import a.B;\nimport a.C;\n\nimport z.W;\nimport z.Z;\nclass X extends B {C c; W w; Z z;}" ∧
    Inserted "\n" ["a.B", "z.Z"] m.print out.print := by
  have hcheck : (do
      let m ← (Module.parse "import a.C;\n\nimport z.W;\nclass X extends B {C c; W w; Z z;}").toOption
      let result ← (m.reconcile (.ofModule m (.ofList ["a.B", "z.Z"]))
        { PassState.start m with additions := .ofList ["a.B", "z.Z"] }).toOption
      return decide (result.2 = ⟨["a.B", "z.Z"], []⟩) && decide (Imports.lineBreak m = "\n")
        && decide (result.1.print =
          "import a.B;\nimport a.C;\n\nimport z.W;\nimport z.Z;\nclass X extends B {C c; W w; Z z;}") :
      Option Bool) = some true := by
    decide +kernel
  obtain ⟨m, hm, hcheck⟩ := Option.bind_eq_some_iff.mp hcheck
  obtain ⟨⟨out, changes⟩, hout, hcheck⟩ := Option.bind_eq_some_iff.mp hcheck
  simp only [pure, Option.some.injEq, Bool.and_eq_true, decide_eq_true_eq] at hcheck
  obtain ⟨⟨hchanges, hbreak⟩, hprint⟩ := hcheck
  subst hchanges
  have hok := eq_ok_of_toOption hout
  have hinserted := reconcile_inserts hok rfl
  rw [hbreak] at hinserted
  exact ⟨m, out, _, eq_ok_of_toOption hm, hok, rfl, hbreak, hprint, hinserted⟩

end Migration
