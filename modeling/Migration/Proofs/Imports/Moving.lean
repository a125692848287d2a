import Migration.Proofs.Imports.Leads

/-!
# What moving trivia keeps

Editing imports does two things to what is there: it moves trivia from one place to another, and puts line
breaks in. So a property of imports that each import keeps with other trivia in front of it, as long as these
have a property of their own (`LeadLaw`), is kept by every edit for which the line breaks have that property,
too (`Breaks`), and so by bringing the imports of a module in line (`LeadLaw.carryOut`). The one import that
takes the place of all others needs no line break.
-/

namespace Migration.Imports

/-- An import with the first property has trivia with the second one in front of it, and it may have any
such trivia. -/
structure LeadLaw (R : Import → Prop) (L : Trivia → Prop) : Prop where
  lead {i : Import} : R i → L i.lead
  withLead {i : Import} {lead : Trivia} : R i → L lead → R (i.withLead lead)

/-- The line breaks that are put in have the property, and trivia keep it when line breaks are put into
them: in front of the first type below a package, or at the header of the file where there is none. -/
structure Breaks (L : Trivia → Prop) (hasPackage : Bool) (eol : String) : Prop where
  single : L eol
  double : L (blankLine eol)
  below {lead : Trivia} : hasPackage = true → L lead → L (ensureBlankLine eol lead)
  header {lead : Trivia} : hasPackage = false → L lead →
    L (splitHeader eol lead).1 ∧ L (splitHeader eol lead).2

/-- The imports have the first property while new ones are put in, and trivia elsewhere the second. -/
structure Placement.Holds (R : Import → Prop) (L : Trivia → Prop) (p : Placement) : Prop where
  imports : ∀ i ∈ p.imports, R i
  leftover : ∀ t ∈ p.leftover, L t
  firstLead : ∀ t ∈ p.firstLead, L t

namespace LeadLaw

variable {R : Import → Prop} {L : Trivia → Prop} (hR : LeadLaw R L)

include hR

/-- Removing imports moves trivia to others, or leaves some. -/
theorem keep {marked : List (Import × Bool)} (h : ∀ q ∈ marked, R q.1) (started : Bool)
    {carry : Option Trivia} (hcarry : ∀ t ∈ carry, L t) :
    (∀ i ∈ (keep started carry marked).1, R i) ∧ ∀ t ∈ (Imports.keep started carry marked).2, L t := by
  induction marked generalizing started carry with
  | nil => exact ⟨List.forall_mem_nil _, hcarry⟩
  | cons q rest ih =>
    obtain ⟨i, removed⟩ := q
    obtain ⟨hi, hrest⟩ := List.forall_mem_cons.mp h
    cases removed with
    | true =>
      refine ih hrest started fun t ht => ?_
      split at ht
      · cases carry with
        | some carry => exact hcarry t ht
        | none =>
          cases ht
          exact hR.lead hi
      · exact hcarry t ht
    | false =>
      have hnone : ∀ t ∈ (none : Option Trivia), L t := nofun
      obtain ⟨hkept, hleft⟩ := ih hrest true hnone
      refine ⟨List.forall_mem_cons.mpr ⟨hR.withLead hi ?_, hkept⟩, hleft⟩
      cases carry with
      | none => exact hR.lead hi
      | some carry => exact hcarry carry rfl

variable {eol : String} {new : Import} (hnew : R new)

include hnew

theorem insertInto (heol : L eol) {group : List Import} (h : ∀ i ∈ group, R i) :
    ∀ i ∈ insertInto eol new group, R i := by
  have hcut (k : Nat) : ∀ i ∈ group.take k ++ new.withLead eol :: group.drop k, R i := by
    intro i hi
    rcases List.mem_append.mp hi with hi | hi
    · exact h i (List.mem_of_mem_take hi)
    · rcases List.mem_cons.mp hi with rfl | hi
      · exact hR.withLead hnew heol
      · exact h i (List.mem_of_mem_drop hi)
  unfold Imports.insertInto
  split
  case h_1 first rest _ =>
    obtain ⟨hfirst, hrest⟩ := List.forall_mem_cons.mp h
    exact List.forall_mem_cons.mpr ⟨hR.withLead hnew (hR.lead hfirst),
      List.forall_mem_cons.mpr ⟨hR.withLead hfirst heol, hrest⟩⟩
  case h_2 => exact hcut _

theorem insertSorted (heol : L eol) (hblank : L (blankLine eol)) {imports : List Import}
    (h : ∀ i ∈ imports, R i) : ∀ i ∈ insertSorted eol new imports, R i := by
  have hgroups : ∀ g ∈ groups imports, ∀ i ∈ g, R i := by
    intro g hg i hi
    refine h i ?_
    rw [← flatten_groups imports]
    exact List.mem_flatten_of_mem hg hi
  simp only [Imports.insertSorted]
  split
  case h_1 k _ =>
    intro i hi
    obtain ⟨g, hg, hi⟩ := List.mem_flatten.mp hi
    obtain ⟨j, hj⟩ := List.mem_iff_getElem?.mp hg
    rw [List.getElem?_modify] at hj
    obtain ⟨old, hold, rfl⟩ := Option.map_eq_some_iff.mp hj
    have hall := hgroups old (List.mem_of_getElem? hold)
    split at hi
    · exact hR.insertInto hnew heol hall i hi
    · exact hall i hi
  case h_2 first rest _ =>
    obtain ⟨hfirst, hrest⟩ := List.forall_mem_cons.mp h
    exact List.forall_mem_cons.mpr ⟨hR.withLead hnew (hR.lead hfirst),
      List.forall_mem_cons.mpr ⟨hR.withLead hfirst hblank, hrest⟩⟩
  case h_3 => exact List.forall_mem_singleton.mpr hnew

omit hnew

variable {hasPackage : Bool}

/-- The import that takes the place of the removed ones takes their trivia over. -/
theorem add_leftover {p : Placement} (hp : p.Holds R L) (himports : p.imports = [])
    (hleft : p.leftover.isSome = true) {name : String} (hnew : R (Import.single p.nextId "" name)) :
    (p.add eol hasPackage name).Holds R L := by
  obtain ⟨imports, leftover, firstLead, nextId⟩ := p
  obtain rfl : imports = [] := himports
  cases leftover with
  | none => cases hleft
  | some lead =>
    exact ⟨List.forall_mem_singleton.mpr (hR.withLead hnew (hp.leftover lead rfl)), nofun, hp.firstLead⟩

/-- **One more import keeps the properties.** -/
theorem add (hbreaks : Breaks L hasPackage eol) {p : Placement} (hp : p.Holds R L) {name : String}
    (hnew : R (Import.single p.nextId "" name)) : (p.add eol hasPackage name).Holds R L := by
  obtain ⟨imports, leftover, firstLead, nextId⟩ := p
  cases imports with
  | cons i is =>
    exact ⟨hR.insertSorted hnew hbreaks.single hbreaks.double hp.imports, hp.leftover, hp.firstLead⟩
  | nil =>
    cases leftover with
    | some lead => exact hR.add_leftover hp rfl rfl hnew
    | none =>
      cases hasPackage with
      | true =>
        refine ⟨List.forall_mem_singleton.mpr (hR.withLead hnew hbreaks.double), nofun, fun t ht => ?_⟩
        obtain ⟨lead, hlead, rfl⟩ := Option.map_eq_some_iff.mp ht
        exact hbreaks.below rfl (hp.firstLead lead hlead)
      | false =>
        cases firstLead with
        | none => exact ⟨List.forall_mem_singleton.mpr hnew, nofun, nofun⟩
        | some lead =>
          obtain ⟨hheader, hrest⟩ := hbreaks.header rfl (hp.firstLead lead rfl)
          refine ⟨List.forall_mem_singleton.mpr (hR.withLead hnew hheader), nofun, ?_⟩
          rintro _ ⟨⟩
          exact hrest

theorem foldl_add (hbreaks : Breaks L hasPackage eol) {names : List String}
    (hnames : ∀ name ∈ names, ∀ id, R (Import.single id "" name)) {p : Placement} (hp : p.Holds R L) :
    (names.foldl (Placement.add eol hasPackage) p).Holds R L := by
  induction names generalizing p with
  | nil => exact hp
  | cons name names ih =>
    obtain ⟨hname, hnames⟩ := List.forall_mem_cons.mp hnames
    exact ih hnames (hR.add hbreaks hp (hname _))

omit hR in
theorem settle {p : Placement} (hp : p.Holds R L) : (p.settle hasPackage).Holds R L := by
  obtain ⟨imports, leftover, firstLead, nextId⟩ := p
  unfold Placement.settle
  split
  · split
    · next lead _ hleft _ =>
      refine ⟨hp.imports, hp.leftover, ?_⟩
      rintro _ ⟨⟩
      exact hp.leftover lead hleft
    · exact hp
  · exact hp

/-- **Carrying out a plan keeps the properties**: with line breaks that have them, without new imports, or
with one in the place of all others. -/
theorem carryOut {m : Module} {marked : List (Import × Bool)} (hmarked : ∀ q ∈ marked, R q.1)
    (hfirst : ∀ t ∈ m.types.head?.map (·.lead), L t) {names : List String}
    (hnames : ∀ name ∈ names, ∀ id, R (Import.single id "" name))
    (hbreaks : Breaks L m.package.isSome (lineBreak m) ∨ names = [] ∨
      names.length = 1 ∧ marked ≠ [] ∧ ∀ q ∈ marked, q.2 = true) (nextId : NodeId) :
    (∀ i ∈ (carryOut m marked names nextId).imports, R i) ∧
      ∃ lead, (∀ t ∈ lead, L t) ∧ (carryOut m marked names nextId).types = withFirstLead lead m.types := by
  have hnone : ∀ t ∈ (none : Option Trivia), L t := nofun
  obtain ⟨hkept, hleft⟩ := hR.keep hmarked false hnone
  have hstart : Placement.Holds R L ⟨(Imports.keep false none marked).1, (Imports.keep false none marked).2,
      m.types.head?.map (·.lead), nextId⟩ := ⟨hkept, hleft, hfirst⟩
  have hplaced : (placed m marked names nextId).Holds R L := by
    rcases hbreaks with hbreaks | rfl | ⟨hone, hne, hall⟩
    · exact hR.foldl_add hbreaks hnames hstart
    · exact hstart
    · obtain ⟨name, rfl⟩ := List.length_eq_one_iff.mp hone
      have hnil : (Imports.keep false none marked).1 = [] := keep_eq_nil_iff.mpr hall
      exact hR.add_leftover hstart hnil ((isSome_left_of_keep_eq_nil hnil).mpr hne)
        (hnames name List.mem_cons_self _)
  refine ⟨fun i hi => hplaced.imports i (carryOut_imports ▸ hi), _, ?_, carryOut_types⟩
  exact (settle hplaced).firstLead

end LeadLaw

end Migration.Imports
