import Migration.Proofs.Imports.Leads
import Migration.Proofs.Imports.Readable
import Migration.Proofs.Tree.Rewording

/-!
# The header of a file

The first import of a module without a package divides the trivia of its first type at their last empty
line, wherever that is. Closed trivia that are divided behind a line break are closed on both sides, or
the cut goes through a block comment, and then whatever is put there is part of the comment
(`Scan.Closed.split`). So the first imports can be read when their header is closed
(`Imports.readable_carryOut`), and when it is not, there is nothing but trivia in front of the first type
(`Imports.spell_carryOut`).
-/

namespace Migration

open Scan (Closed isClosed)

/-! ### Cutting trivia -/

/-- What follows closed trivia in closed trivia is closed. -/
theorem Scan.Closed.of_append {st : Scan.TriviaState} {a b : List Char} (ha : Closed st a)
    (h : Closed st (a ++ b)) : Closed .between b := by
  induction ha with
  | done => exact h
  | @blank c cs hc _ ih =>
    rw [List.cons_append] at h
    generalize cs ++ b = rest at h ih
    cases h with
    | blank _ h => exact ih h
    | line _ => cases hc
    | block _ => cases hc
  | line _ ih =>
    rw [List.cons_append, List.cons_append] at h
    cases h with
    | blank hc _ => cases hc
    | line h => exact ih h
  | block _ ih =>
    rw [List.cons_append, List.cons_append] at h
    cases h with
    | blank hc _ => cases hc
    | block h => exact ih 0 (h 0)
  | lineEnd _ ih =>
    rw [List.cons_append] at h
    cases h with
    | lineEnd h => exact ih h
    | inLine hc _ => exact absurd rfl hc
  | inLine hc _ ih =>
    rw [List.cons_append] at h
    cases h with
    | lineEnd _ => exact absurd rfl hc
    | inLine _ h => exact ih h
  | blockEnd _ ih =>
    rw [List.cons_append, List.cons_append] at h
    cases h with
    | blockEnd h => exact ih h
    | inBlock hc _ => exact absurd rfl (hc rfl)
  | @inBlock start c cs hc hcs ih =>
    rw [List.cons_append] at h
    generalize hrest : cs ++ b = rest at h ih
    cases h with
    | inBlock _ h => exact ih h
    | blockEnd _ =>
      cases cs with
      | nil => cases hcs
      | cons d ds =>
        obtain ⟨rfl, _⟩ := List.cons.inj hrest
        exact absurd rfl (hc rfl)

/-- The text is empty or ends with a line break. -/
def EndsLine (a : List Char) : Prop := ∀ c ∈ a.getLast?, c = '\n'

theorem EndsLine.of_cons {c : Char} {a : List Char} (h : EndsLine (c :: a)) :
    (a = [] → c = '\n') ∧ EndsLine a := by
  cases a with
  | nil => exact ⟨fun _ => h c rfl, nofun⟩
  | cons d a => exact ⟨nofun, by rwa [EndsLine, List.getLast?_cons_cons] at h⟩

/-- In a block comment anything without an asterisk may be put. -/
theorem Scan.Closed.insert {start : Nat} {mid b : List Char} (h : Closed (.blockComment start) b)
    (hmid : '*' ∉ mid) : Closed (.blockComment start) (mid ++ b) := by
  induction mid with
  | nil => exact h
  | cons c mid ih =>
    rw [List.mem_cons, not_or] at hmid
    exact .inBlock (fun hc => absurd hc.symm hmid.1) (ih hmid.2)

/-- It takes an asterisk to close a block comment. -/
theorem Scan.Closed.asterisk_mem {start : Nat} {cs : List Char} (h : Closed (.blockComment start) cs) :
    '*' ∈ cs := by
  generalize hst : Scan.TriviaState.blockComment start = st at h
  induction h with
  | blockEnd _ _ => exact List.mem_cons_self
  | inBlock _ _ ih => exact List.mem_cons_of_mem _ (ih hst)
  | _ => cases hst

/-- Closed trivia are cut between `a` and `b`: they are closed on both sides, or the cut goes through a block
comment, which takes in whatever is put there without an asterisk. -/
def Scan.CutAt (st : Scan.TriviaState) (a b : List Char) : Prop :=
  Closed st a ∧ Closed .between b ∨ ∀ mid, '*' ∉ mid → Closed st (a ++ (mid ++ b))

theorem Scan.CutAt.behind {st st' : Scan.TriviaState} {a b : List Char} (h : Scan.CutAt st' a b)
    (front : List Char) (hfront : ∀ cs, Closed st' cs → Closed st (front ++ cs)) : Scan.CutAt st (front ++ a) b := by
  rcases h with ⟨ha, hb⟩ | hinside
  · exact .inl ⟨hfront a ha, hb⟩
  · refine .inr fun mid hmid => ?_
    rw [List.append_assoc]
    exact hfront _ (hinside mid hmid)

/-- At a cut with nothing in front of it the state there decides. -/
theorem Scan.Closed.cutAt_nil {st : Scan.TriviaState} {b : List Char} (h : Closed st b)
    (hst : st ≠ .lineComment) : Scan.CutAt st [] b := by
  cases st with
  | between => exact .inl ⟨.done, h⟩
  | lineComment => exact absurd rfl hst
  | blockComment start => exact .inr fun _ hmid => h.insert hmid

/-- A mark of two characters, neither of which breaks a line, is not cut apart behind a line break. -/
theorem Scan.Closed.cutAt_mark {st st' : Scan.TriviaState} {x y : Char} {cs a b : List Char}
    (h : Closed st (x :: y :: cs)) (htext : a ++ b = x :: y :: cs) (ha : EndsLine a)
    (hst : st ≠ .lineComment) (hx : x ≠ '\n') (hy : y ≠ '\n')
    (hmark : ∀ cs, Closed st' cs → Closed st (x :: y :: cs))
    (ih : ∀ a, EndsLine a → (st' = .lineComment → a ≠ []) → a ++ b = cs → Scan.CutAt st' a b) :
    Scan.CutAt st a b := by
  match a with
  | [] =>
    obtain rfl : b = _ := htext
    exact h.cutAt_nil hst
  | [c] =>
    obtain ⟨rfl, _⟩ := List.cons.inj htext
    exact absurd (ha.of_cons.1 rfl) hx
  | c :: d :: a =>
    obtain ⟨rfl, hrest⟩ := List.cons.inj htext
    obtain ⟨rfl, hrest'⟩ := List.cons.inj hrest
    obtain ⟨hne, ha⟩ := ha.of_cons.2.of_cons
    have hcut := ih a ha (fun _ hnil => hy (hne hnil)) hrest'
    exact hcut.behind [c, d] hmark

/-- Closed trivia that are cut behind a line break are closed on both sides of the cut, or they are cut
inside a block comment. -/
theorem Scan.Closed.split {st : Scan.TriviaState} {a b : List Char} (h : Closed st (a ++ b))
    (ha : EndsLine a) (hst : st = .lineComment → a ≠ []) : Scan.CutAt st a b := by
  generalize htext : a ++ b = text at h
  induction h generalizing a with
  | done =>
    obtain ⟨rfl, rfl⟩ := List.append_eq_nil_iff.mp htext
    exact .inl ⟨.done, .done⟩
  | @blank c cs hc h ih =>
    cases a with
    | nil =>
      obtain rfl : b = _ := htext
      exact (Closed.blank hc h).cutAt_nil nofun
    | cons x a =>
      obtain ⟨rfl, hrest⟩ := List.cons.inj htext
      exact (ih ha.of_cons.2 nofun hrest).behind [x] fun _ => .blank hc
  | line h ih =>
    exact (Closed.line h).cutAt_mark htext ha nofun (by decide) (by decide) (fun _ => .line)
      fun _ ha hne hrest => ih ha hne hrest
  | block h ih =>
    -- where the comment was opened does not matter for the cut
    exact (Closed.block h).cutAt_mark htext ha nofun (by decide) (by decide)
      (fun _ hcs => .block fun start => hcs.reopen start 0 rfl) fun _ ha hne hrest => ih 0 ha hne hrest
  | lineEnd h ih =>
    cases a with
    | nil => exact absurd rfl (hst rfl)
    | cons x a =>
      obtain ⟨rfl, hrest⟩ := List.cons.inj htext
      exact (ih ha.of_cons.2 nofun hrest).behind ['\n'] fun _ => .lineEnd
  | @inLine c cs hc h ih =>
    cases a with
    | nil => exact absurd rfl (hst rfl)
    | cons x a =>
      obtain ⟨rfl, hrest⟩ := List.cons.inj htext
      obtain ⟨hne, ha⟩ := ha.of_cons
      exact (ih ha (fun _ hnil => hc (hne hnil)) hrest).behind [x] fun _ => .inLine hc
  | blockEnd h ih =>
    exact (Closed.blockEnd h).cutAt_mark htext ha nofun (by decide) (by decide) (fun _ => .blockEnd)
      fun _ ha hne hrest => ih ha hne hrest
  | @inBlock start c cs hc h ih =>
    cases a with
    | nil =>
      obtain rfl : b = _ := htext
      exact (Closed.inBlock hc h).cutAt_nil nofun
    | cons x a =>
      obtain ⟨rfl, hrest⟩ := List.cons.inj htext
      obtain ⟨hne, ha⟩ := ha.of_cons
      -- An asterisk does not end the part in front of the cut, so what is put there does not end the comment.
      have hhead (rest : List Char) (hx : x = '*') : (a ++ rest).head? ≠ some '/' := by
        cases a with
        | nil => exact absurd (hx ▸ hne rfl) (by decide)
        | cons y a =>
          obtain rfl : y :: (a ++ b) = cs := hrest
          exact hc hx
      rcases ih ha nofun hrest with ⟨hclosed, hb⟩ | hinside
      · have hclosed' := hhead []
        rw [List.append_nil] at hclosed'
        exact .inl ⟨.inBlock hclosed' hclosed, hb⟩
      · exact .inr fun mid hmid => .inBlock (hhead _) (hinside mid hmid)

/-! ### The first imports -/

open Imports (lineBreak blankLine carryOut splitHeader Placement)

/-- The trivia in front of the first type that stay on top of the first import. -/
def Module.fileHeader (m : Module) : Trivia :=
  (splitHeader (lineBreak m) ((m.types.head?.map (·.lead)).getD "")).1

namespace Imports

variable {m : Module} {names : List String} {nextId : NodeId}

variable (nextId) in
/-- The first imports of a module stand below the header of the file, line by line. -/
theorem carryOut_leads (hpackage : m.package = none) (hnames : names ≠ []) :
    ∃ i is, (carryOut m [] names nextId).imports = i :: is ∧ i.lead = m.fileHeader
      ∧ ∀ j ∈ is, j.lead = lineBreak m ∨ j.lead = blankLine (lineBreak m) := by
  have htail : ∀ i ∈ (placed m [] names nextId).imports.tail,
      i.lead = lineBreak m ∨ i.lead = blankLine (lineBreak m) :=
    Placement.tail_leads_foldl_add m.package.isSome names (List.forall_mem_nil _)
  obtain ⟨i, is, himports, hlead⟩ : ∃ i is, (carryOut m [] names nextId).imports = i :: is
      ∧ i.lead = m.fileHeader := by
    cases htypes : m.types with
    | cons d ds =>
      obtain ⟨i, is, himports, hlead, _⟩ := carryOut_splits nextId htypes hpackage hnames
      exact ⟨i, is, himports, by rw [hlead, Module.fileHeader, htypes]; rfl⟩
    | nil =>
      obtain ⟨name, names, rfl⟩ := List.exists_cons_of_ne_nil hnames
      obtain ⟨i, is, himports, hlead, _⟩ := Placement.head_foldl_add (lineBreak m) false names
        (p := Placement.add (lineBreak m) false ⟨[], none, none, nextId⟩ name) rfl
      refine ⟨i, is, ?_, ?_⟩
      · rw [carryOut_imports, placed, hpackage, htypes]
        exact himports
      · rw [hlead, Module.fileHeader, htypes]
        rfl
  refine ⟨i, is, himports, hlead, ?_⟩
  rw [carryOut_imports] at himports
  rwa [himports] at htail

/-- The first imports of a module are imports of single types. -/
theorem carryOut_single {i : Import} (hi : i ∈ (carryOut m [] names nextId).imports) :
    i.name ∈ names ∧ ∃ id, i = (Import.single id "" i.name).withLead i.lead := by
  rw [carryOut_imports] at hi
  obtain ⟨added, hadded, hsingle, _, hperm⟩ := exists_foldl_add (lineBreak m) m.package.isSome names
    ⟨[], none, m.types.head?.map (·.lead), nextId⟩
  have hmem := hperm.mem_iff.mp (List.mem_map_of_mem (f := Import.bare) hi)
  rw [List.map_nil, List.append_nil] at hmem
  obtain ⟨id, hid⟩ := hsingle _ hmem
  refine ⟨hadded ▸ List.mem_map_of_mem (f := (·.name)) hmem, id, ?_⟩
  calc i = i.bare.withLead i.lead := rfl
    _ = (Import.single id "" i.name).withLead i.lead := by rw [hid]; rfl

end Imports

theorem Import.spell_withLead (i : Import) (lead : Trivia) :
    spell (i.withLead lead).tokens = lead.toList ++ spell (i.withLead "").tokens := by
  simp [Import.withLead, Import.tokens, Import.tailTokens]

/-- A new import has no asterisk in it. -/
theorem Import.not_mem_spell_single {id : NodeId} {name : String} (h : isDottedText false name = true)
    {lead : Trivia} (hlead : '*' ∉ lead.toList) :
    '*' ∉ spell ((Import.single id "" name).withLead lead).tokens := by
  have hname := not_mem_of_isDottedText (c := '*') (by decide) (by decide) (by decide) (by decide) h
  simp [Import.single, Import.withLead, Import.tokens, Import.tailTokens, wildcardTokens, optionTokens,
    spell_nameTokens, hlead, hname]

/-! ### The text around the first imports -/

theorem Imports.not_mem_lineBreak (m : Module) : '*' ∉ (lineBreak m).toList := by
  rw [lineBreak]
  split <;> decide

theorem isClosed_ofList {cs : List Char} : isClosed (String.ofList cs) ↔ Closed .between cs := by
  rw [isClosed, String.toList_ofList]

theorem ReadAs.withFirstLead {xs ys : List TypeDecl} (h : ReadAs xs ys) (lead : Option Trivia) :
    ReadAs (Imports.withFirstLead lead xs) (Imports.withFirstLead lead ys) := by
  cases lead with
  | none => rwa [Imports.withFirstLead_self, Imports.withFirstLead_self]
  | some lead =>
    have hwf := wellFormed_withFirstLead h.wellFormed (some lead)
    cases h with
    | nil => exact .nil
    | cons hy hlead htokens h =>
      obtain ⟨hy, _⟩ := List.forall_mem_cons.mp hwf
      exact .cons hy rfl (TypeDecl.tokens_withLead hlead htokens lead) h

namespace Imports

variable {m : Module} {names : List String} {nextId : NodeId}

/-- Below a closed header the first imports can be read. -/
theorem readable_carryOut (hpackage : m.package = none) (hnames : names ≠ [])
    (hdotted : ∀ name ∈ names, isDottedText false name = true) (hheader : isClosed m.fileHeader) :
    ∀ i ∈ (carryOut m [] names nextId).imports, i.Readable := by
  obtain ⟨i, is, himports, hlead, htail⟩ := carryOut_leads nextId hpackage hnames
  have heol := isClosed_lineBreak m
  have hclosed : ∀ j ∈ (carryOut m [] names nextId).imports, isClosed j.lead := by
    rw [himports]
    refine List.forall_mem_cons.mpr ⟨hlead ▸ hheader, fun j hj => ?_⟩
    rcases htail j hj with h | h
    · exact h ▸ heol
    · exact h ▸ isClosed_blankLine heol
  intro j hj
  obtain ⟨hname, id, hsingle⟩ := carryOut_single hj
  rw [hsingle]
  exact (Import.Readable.single (hdotted _ hname) id).withLead (hclosed j hj)

variable (nextId) in
/-- Below a closed header the trivia of the first type are closed. -/
theorem isClosed_carryOut (hpackage : m.package = none) (hnames : names ≠ [])
    (hheader : isClosed m.fileHeader) (hclosed : ∀ lead ∈ m.types.head?.map (·.lead), isClosed lead) :
    ∃ first, (∀ lead ∈ first, isClosed lead) ∧
      (carryOut m [] names nextId).types = withFirstLead first m.types := by
  cases htypes : m.types with
  | nil => exact ⟨none, nofun, by rw [carryOut_types, htypes]; rfl⟩
  | cons d ds =>
    obtain ⟨_, _, _, _, hfirst⟩ := carryOut_splits nextId htypes hpackage hnames
    refine ⟨some (splitHeader (lineBreak m) d.lead).2, ?_, hfirst⟩
    rintro _ ⟨⟩
    obtain ⟨rest, hsplit, hbelow, _⟩ := splitHeader_append (lineBreak m) d.lead
    rw [htypes] at hclosed
    have hlead : Closed .between d.lead.toList := hclosed d.lead rfl
    rw [hsplit] at hlead
    have hheader : Closed .between (splitHeader (lineBreak m) d.lead).1.toList := by
      rw [Module.fileHeader, htypes] at hheader
      exact hheader
    rw [isClosed, hbelow]
    exact (isClosed_blankLine (isClosed_lineBreak m)).append (hheader.of_append hlead)

variable (nextId) in
/-- The first imports behind their header have no asterisk in them. -/
theorem not_mem_spell_carryOut (hpackage : m.package = none) (hnames : names ≠ [])
    (hdotted : ∀ name ∈ names, isDottedText false name = true) : ∃ below : List Char, '*' ∉ below ∧
      spell ((carryOut m [] names nextId).imports.flatMap Import.tokens) = m.fileHeader.toList ++ below := by
  obtain ⟨i, is, himports, hlead, htail⟩ := carryOut_leads nextId hpackage hnames
  have hspell (j : Import) (hj : j ∈ (carryOut m [] names nextId).imports) (lead : Trivia)
      (hlead : '*' ∉ lead.toList) : '*' ∉ spell (j.withLead lead).tokens := by
    obtain ⟨hname, id, hsingle⟩ := carryOut_single hj
    rw [hsingle]
    exact Import.not_mem_spell_single (hdotted _ hname) hlead
  rw [himports] at hspell ⊢
  obtain ⟨hfirst, hrest⟩ := List.forall_mem_cons.mp hspell
  refine ⟨spell (i.withLead "").tokens ++ spell (is.flatMap Import.tokens), ?_, ?_⟩
  · rw [List.mem_append, not_or, spell_flatMap, List.mem_flatMap]
    refine ⟨hfirst "" (by decide), ?_⟩
    rintro ⟨j, hj, hmem⟩
    refine hrest j hj j.lead ?_ hmem
    rcases htail j hj with h | h
    · exact h ▸ not_mem_lineBreak m
    · rw [h, blankLine, String.toList_append, List.mem_append, or_self]
      exact not_mem_lineBreak m
  · rw [List.flatMap_cons, spell_append, ← List.append_assoc, ← hlead, ← Import.spell_withLead]
    rfl

variable (nextId) in
/-- A header that is not closed takes the first imports in: all the text in front of the first type is
trivia. -/
theorem spell_carryOut (hpackage : m.package = none) (hnames : names ≠ [])
    (hdotted : ∀ name ∈ names, isDottedText false name = true) (hheader : ¬ isClosed m.fileHeader)
    (hclosed : ∀ lead ∈ m.types.head?.map (·.lead), isClosed lead) :
    ∃ lead, isClosed lead ∧ spell (carryOut m [] names nextId).tokens
      = spell ((withFirstLead (some lead) m.types).flatMap TypeDecl.tokens) := by
  cases htypes : m.types with
  | nil =>
    refine absurd ?_ hheader
    rw [Module.fileHeader, htypes]
    exact Scan.isClosed_empty
  | cons d ds =>
    obtain ⟨_, _, _, _, hfirst⟩ := carryOut_splits nextId htypes hpackage hnames
    obtain ⟨below, hbelow, himports⟩ :=
      not_mem_spell_carryOut nextId hpackage hnames hdotted
    obtain ⟨rest, hsplit, hrest, hend⟩ := splitHeader_append (lineBreak m) d.lead
    have hfile : m.fileHeader = (splitHeader (lineBreak m) d.lead).1 := by
      rw [Module.fileHeader, htypes]
      rfl
    rw [← hfile] at hsplit hend
    have hline : EndsLine m.fileHeader.toList := by
      rcases hend with h | ⟨front, h⟩
      · rw [h]
        nofun
      · rw [← h, EndsLine, List.getLast?_append, getLast?_blankLine, Option.some_or]
        rintro _ ⟨⟩
        rfl
    have hlead : Closed .between (m.fileHeader.toList ++ rest) := by
      rw [← hsplit]
      exact hclosed d.lead (by rw [htypes]; rfl)
    rcases hlead.split hline nofun with ⟨hopen, _⟩ | hinside
    · exact absurd hopen hheader
    have hmid : '*' ∉ below ++ (blankLine (lineBreak m)).toList := by
      rw [List.mem_append, not_or, blankLine, String.toList_append, List.mem_append, or_self]
      exact ⟨hbelow, not_mem_lineBreak m⟩
    refine ⟨_, isClosed_ofList.mpr (hinside _ hmid), ?_⟩
    have hpackage' : (carryOut m [] names nextId).package = none := hpackage
    rw [Module.tokens, hpackage', hfirst, withFirstLead, Option.getD_some, List.flatMap_cons,
      List.flatMap_cons, spell_append, spell_append, spell_append, spell_append, himports,
      d.spell_withLead (splitHeader (lineBreak m) d.lead).2, hrest,
      d.spell_withLead (String.ofList (m.fileHeader.toList ++ _))]
    simp only [optionTokens, spell_nil, List.nil_append, String.toList_ofList, List.append_assoc]

end Imports

end Migration
