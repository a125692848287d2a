import Migration.Proofs.Grammar.Accepting
import Migration.Proofs.Grammar.SoundExpressions

/-!
# Names and types are read back

The converse of `typeName_sound` and of the lemmas before it: where the tokens of a well-formed name,
modifier or type stand in front of something that cannot continue it, the production accepts them and
gives the same tree, up to the numbers of its nodes.
-/

namespace Migration.Parser

open Token (symbol)

variable {c : Cursor} {r : List Token} {tail : Trivia}

/-! ### Words -/

theorem gives_word {lead : Trivia} {s : String} (hc : c.At (.word lead s :: r) tail) :
    Gives Parser.word c r tail fun i => i.unnumbered = ⟨0, lead, s⟩ := by
  refine (gives_fresh hc).bind fun id c1 hc1 _ => (gives_bump hc1).bind fun t c2 hc2 ht => ?_
  refine Gives.pure hc2 ?_
  have hlead := congrArg Token.lead ht
  have htext := congrArg Token.text ht
  simp only [Token.unplaced_lead, Token.unplaced_text, Token.word_lead, Token.word_text] at hlead htext
  simp [Ident.unnumbered, hlead, htext]

theorem isName_of_isNameText {s : String} (h : isNameText s = true) (lead : Trivia) :
    (Token.word lead s).isName = true := by
  rw [isNameText, Bool.and_eq_true] at h
  exact h.2

theorem isName_of_at {t : Token} (hc : c.At (t :: r) tail) : c.peek.isName = t.isName := by
  rw [← hc.peek]
  rfl

theorem gives_ident {i : Ident} (hi : isNameText i.name = true) (hc : c.At (i.tokens ++ r) tail) :
    Gives ident c r tail fun y => y.unnumbered = i.unnumbered := by
  refine Gives.get (Gives.ite_pos ?_ (gives_word hc))
  rw [isName_of_at hc]
  exact isName_of_isNameText hi _

theorem gives_memberName {i : Ident} (hi : isSegmentText (headIs r ".") i.name = true)
    (hc : c.At (i.tokens ++ r) tail) :
    Gives memberName c r tail fun y => y.unnumbered = i.unnumbered := by
  have hdot : (c.peekAt 1).is "." = headIs r "." := hc.peekAt_is 1 (by decide)
  have hres : c.peek.isReserved = reservedWords.contains i.name := by
    have hpeek : c.peek.unplaced = Token.word i.lead i.name := hc.peek
    have : c.peek.isReserved = c.peek.unplaced.isReserved := rfl
    rw [this, hpeek]
    simp [Token.isReserved]
  by_cases hd : (c.peek.isReserved && (c.peekAt 1).is ".") = true
  · exact Gives.get (Gives.ite_pos hd (gives_word hc))
  · refine Gives.get (Gives.ite_neg hd (gives_ident ?_ hc))
    refine isNameText_of_isSegmentText ?_
    rw [hdot, hres] at hd
    simp only [isSegmentText, Bool.and_eq_true, Bool.or_eq_true] at hi ⊢
    refine ⟨hi.1, .inr ?_⟩
    rcases hi.2 with hflag | hnot
    · simpa [hflag] using hd
    · exact hnot

/-! ### Dotted names -/

theorem nameStep_stop {wildcards : Bool} (hc : c.At r tail) (h : headIs r "." = false) :
    Gives (nameStep wildcards) c r tail (· = .stop) := by
  refine Gives.get (Gives.ite_pos ?_ (Gives.pure hc rfl))
  rw [hc.isAt (by decide), h]
  rfl

theorem nameStep_wildcard (hc : c.At (symbol "" "." :: symbol "" "*" :: r) tail) :
    Gives (nameStep true) c (symbol "" "." :: symbol "" "*" :: r) tail (· = .wildcard) := by
  have hnext : (c.peekAt 1).unplaced = symbol "" "*" := hc.peekAt 1
  have hlead : c.peek.lead = "" := congrArg Token.lead hc.peek
  have hlead1 : (c.peekAt 1).lead = "" := congrArg Token.lead hnext
  refine Gives.get (Gives.ite_neg ?_ (Gives.ite_neg ?_ (Gives.ite_pos ?_ (Gives.pure hc rfl))))
  · rw [hc.isAt (by decide)]
    simp
  · simp [hlead, hlead1]
  · rw [hc.peekAt_is 1 (by decide)]
    simp

theorem nameStep_segment {wildcards : Bool} {s : String}
    (hs : isSegmentText (headIs r ".") s = true)
    (hc : c.At (symbol "" "." :: Token.word "" s :: r) tail) :
    Gives (nameStep wildcards) c (symbol "" "." :: Token.word "" s :: r) tail (· = .segment s) := by
  have hnext : (c.peekAt 1).unplaced = Token.word "" s := hc.peekAt 1
  have hlead : c.peek.lead = "" := congrArg Token.lead hc.peek
  have hlead1 : (c.peekAt 1).lead = "" := congrArg Token.lead hnext
  have htext : (c.peekAt 1).text = s := congrArg Token.text hnext
  have hkind : (c.peekAt 1).kind = .word := congrArg Token.kind hnext
  simp only [isSegmentText, Bool.and_eq_true, Bool.or_eq_true] at hs
  refine Gives.get (Gives.ite_neg ?_ (Gives.ite_neg ?_ (Gives.ite_neg ?_ (Gives.ite_pos ?_ ?_))))
  · rw [hc.isAt (by decide)]
    simp
  · simp [hlead, hlead1]
  · rw [hc.peekAt_is 1 (by decide)]
    have hne : s ≠ "*" := by
      rintro rfl
      exact absurd hs.1.1 (by decide)
    simp [hne]
  · have hdot : (c.peekAt 2).is "." = headIs r "." := hc.peekAt_is 2 (by decide)
    have hmark : (c.peekAt 1).isMarker = (Token.word "" s).isMarker := by
      rw [Token.isMarker, Token.isMarker, htext, Token.word_text]
    simp only [Token.isSegment, hkind, htext, hdot, hmark, Bool.and_eq_true, Bool.or_eq_true,
      beq_self_eq_true, true_and]
    exact ⟨hs.1.2, hs.2.symm⟩
  · exact Gives.pure hc (by rw [htext])

/-- The rest of a dotted name that spells the segments `ss` and has `.*` behind it or not. -/
structure NameRest (wildcards : Bool) (tail : Trivia) (x : String × Bool) (c : Cursor)
    (r : List Token) : Prop where
  allowed : x.2 = true → wildcards = true
  ends : x.2 = false → headIs r "." = false
  segments : ∃ ss, x.1.toList = ss.flatMap (fun s => '.' :: s.toList)
    ∧ areSegmentTexts x.2 ss = true ∧ c.At (dotTokens ss ++ (wildcardTokens x.2 ++ r)) tail

theorem gives_nameRest {wildcards : Bool} {x : String × Bool} (h : NameRest wildcards tail x c r) :
    Gives (nameRest wildcards) c r tail fun y => y = x := by
  refine gives_fix (f := id) ?_ h
  intro n self hself x c r hn hx
  obtain ⟨name, wildcard⟩ := x
  obtain ⟨hallowed, hends, ss, hname, hss, hc⟩ := hx
  cases ss with
  | nil =>
    obtain rfl : name = "" := String.toList_inj.mp hname
    cases wildcard with
    | false =>
      refine (nameStep_stop hc (hends rfl)).bind fun s c1 hc1 hs => ?_
      subst hs
      exact Gives.pure hc1 rfl
    | true =>
      obtain rfl : wildcards = true := hallowed rfl
      refine (nameStep_wildcard hc).bind fun s c1 hc1 hs => ?_
      subst hs
      exact (gives_bump hc1).bind fun _ c2 hc2 _ => (gives_bump hc2).bind fun _ c3 hc3 _ =>
        Gives.pure hc3 rfl
  | cons s ss =>
    obtain ⟨hs, hrest⟩ := areSegmentTexts_cons.mp hss
    have hflag : (wildcard || !ss.isEmpty) = true →
        headIs (dotTokens ss ++ (wildcardTokens wildcard ++ r)) "." = true := by
      intro hf
      cases ss with
      | cons t ts => rfl
      | nil =>
        obtain rfl : wildcard = true := by simpa using hf
        rfl
    refine (nameStep_segment (isSegmentText_mono hflag hs) hc).bind fun st c1 hc1 hst => ?_
    subst hst
    refine (gives_bump hc1).bind fun _ c2 hc2 _ => (gives_bump hc2).bind fun _ c3 hc3 _ => ?_
    have hlen1 := hc1.length_cons hc2
    have hlen2 := hc2.length_cons hc3
    have hsame := hc.length.trans hc1.length.symm
    have hx : NameRest wildcards tail (String.ofList (ss.flatMap fun s => '.' :: s.toList), wildcard)
        c3 r := ⟨hallowed, hends, ss, String.toList_ofList, hrest, hc3⟩
    refine (hself _ c3 r (by omega) hx).bind fun y c4 hc4 hy => Gives.pure hc4 ?_
    obtain rfl : y = _ := hy
    refine Prod.ext (String.toList_inj.mp ?_) rfl
    simp [hname, List.flatMap_cons]

theorem gives_dotted {wildcards wildcard : Bool} {lead : Trivia} {name : String}
    (hname : isDottedText wildcard name = true) (hallowed : wildcard = true → wildcards = true)
    (hends : wildcard = false → headIs r "." = false)
    (hc : c.At (nameTokens lead name ++ (wildcardTokens wildcard ++ r)) tail) :
    Gives (dotted wildcards) c r tail (· = (lead, name, wildcard)) := by
  cases hsegs : Name.segments name with
  | nil => exact absurd hsegs (Name.segments_ne_nil name)
  | cons s ss =>
    rw [isDottedText, hsegs, Bool.and_eq_true] at hname
    rw [nameTokens, hsegs, dottedTokens] at hc
    refine Gives.get (Gives.ite_pos ?_ ((gives_bump hc).bind fun t c1 hc1 ht => ?_))
    · rw [isName_of_at hc]
      exact isName_of_isNameText hname.1 _
    · have hlead : t.lead = lead := congrArg Token.lead ht
      have htext : t.text = s := congrArg Token.text ht
      have hx : NameRest wildcards tail
          (String.ofList (ss.flatMap fun s => '.' :: s.toList), wildcard) c1 r :=
        ⟨hallowed, hends, ss, String.toList_ofList, hname.2, hc1⟩
      refine (gives_nameRest hx).bind fun y c2 hc2 hy => Gives.pure hc2 ?_
      subst hy
      rw [hlead, htext]
      refine Prod.ext rfl (Prod.ext (String.toList_inj.mp ?_) rfl)
      rw [Name.toList_of_segments hsegs]
      simp

/-! ### Modifiers -/

theorem isAtModifier_of_at {ts : List Token} (hc : c.At ts tail) :
    c.isAtModifier = startsModifier ts := by
  have hcolon : (c.peekAt 1).is ":" = headIs (ts.drop 1) ":" := hc.peekAt_is 1 (by decide)
  cases ts with
  | nil =>
    have hkind := congrArg Token.kind (hc.peekAt 0)
    rw [← Cursor.peek_eq_peekAt, Token.unplaced_kind] at hkind
    simp [isAtModifier_eq, hkind, startsModifier]
  | cons t ts =>
    have hpeek := hc.peek
    rw [isAtModifier_eq, hcolon, startsModifier, ← hpeek]
    rfl

theorem gives_modifiers {ms : List Ident} (hms : ∀ m ∈ ms, isModifierText m.name = true)
    (hstop : startsModifier r = false) (hcolon : headIs r ":" = false)
    (hopen : headIs r "(" = false) (hc : c.At (modifierTokens ms ++ r) tail) :
    Gives modifiers c r tail fun ys => ys.map Ident.unnumbered = ms.map Ident.unnumbered := by
  have hword : ∀ m ∈ ms, Scan.isWordText m.name.toList = true := by
    intro m hm
    have h := hms m hm
    rw [isModifierText, Bool.and_eq_true] at h
    exact h.1
  have hone : ∀ m ∈ ms, ∀ c r, c.At ([Token.word m.lead m.name] ++ r) tail →
      (headIs r ":" = false ∧ headIs r "(" = false) →
      c.isAtModifier = true ∧ Gives modifier c r tail fun y => y.unnumbered = m.unnumbered := by
    intro m hm c r hc hr
    rw [List.singleton_append] at hc
    have hmod := hms m hm
    rw [isModifierText, Bool.and_eq_true] at hmod
    constructor
    · rw [isAtModifier_of_at hc]
      have hmark : (Token.word m.lead m.name).isMarker = (Token.word "" m.name).isMarker := rfl
      simp only [startsModifier, Token.word_kind, hmark, Token.word_text,
        hmod.2, hr.1]
      simp
    · refine Gives.get ((gives_word hc).bind fun i c1 hc1 hi => Gives.get (Gives.ite_neg ?_ ?_))
      · rw [hc1.isAt (by decide), hr.2]
        simp
      · exact Gives.pure hc1 hi
  have hc' : c.At (ms.flatMap (fun m => [Token.word m.lead m.name]) ++ r) tail := by
    rw [← List.map_eq_flatMap]
    exact hc
  refine gives_many (fun m hm c r _ => hone m hm c r) (fun m hm => ⟨by simp, fun r => ?_⟩)
    ⟨hcolon, hopen⟩ (fun c hc => by rw [isAtModifier_of_at hc]; exact hstop) (Nat.lt_succ_self _) hc'
  have hw := hword m hm
  constructor
  · simp only [List.singleton_append, headIs_cons, Token.word_is, beq_eq_false_iff_ne]
    intro h
    rw [h] at hw
    exact absurd hw (by decide)
  · simp only [List.singleton_append, headIs_cons, Token.word_is, beq_eq_false_iff_ne]
    intro h
    rw [h] at hw
    exact absurd hw (by decide)

/-! ### Types -/

/-- What may follow a type: nothing that goes on with its name or its arguments, and no bound after
a mere `?`. -/
structure TypeFollow (t : TypeName) (r : List Token) : Prop where
  dot : headIs r "." = false
  args : headIs r "<" = false
  array : headIs r "[" = false
  bound : t.isAny = true → headIs r "extends" = false ∧ headIs r "super" = false

theorem typeFollow_of_is {u : Token} {text : String} (hu : u.is text = true)
    (h : text ∉ [".", "<", "[", "extends", "super"]) {t : TypeName} : TypeFollow t (u :: r) := by
  have hne : ∀ s ∈ [".", "<", "[", "extends", "super"], headIs (u :: r) s = false := by
    intro s hs
    rw [headIs_cons, Bool.eq_false_iff]
    intro his
    exact h ((Token.text_of_is hu).symm.trans (Token.text_of_is his) ▸ hs)
  exact ⟨hne _ (by decide), hne _ (by decide), hne _ (by decide),
    fun _ => ⟨hne _ (by decide), hne _ (by decide)⟩⟩

theorem gives_typeHead {lead : Trivia} {name : String} (hname : isTypeText name = true)
    (hdot : headIs r "." = false)
    (hbound : name = "?" → headIs r "extends" = false ∧ headIs r "super" = false)
    (hc : c.At (typeHeadTokens lead name ++ r) tail) :
    Gives typeHead c r tail (· = (lead, name)) := by
  by_cases hany : name = "?"
  · subst hany
    obtain ⟨hext, hsup⟩ := hbound rfl
    refine Gives.get (Gives.ite_pos ?_ ((gives_bump hc).bind fun t c1 hc1 ht => Gives.get ?_))
    · rw [hc.isAt (by decide)]
      simp [typeHeadTokens]
    · refine Gives.ite_neg ?_ (Gives.pure hc1 ?_)
      · rw [hc1.isAt (by decide), hc1.isAt (by decide)]
        show ¬ (headIs r "extends" || headIs r "super") = true
        rw [hext, hsup]
        decide
      · have hlead : t.lead = lead := congrArg Token.lead ht
        rw [hlead]
  · have hdotted : isDottedText false name = true := by
      simpa [isTypeText, hany] using hname
    rw [typeHeadTokens, if_neg hany] at hc
    refine Gives.get (Gives.ite_neg ?_ ((gives_dotted (r := r) hdotted (by simp) (fun _ => hdot)
      hc).bind fun y c1 hc1 hy => Gives.pure hc1 ?_))
    · cases hsegs : Name.segments name with
      | nil => exact absurd hsegs (Name.segments_ne_nil name)
      | cons s ss =>
        rw [isDottedText, hsegs, Bool.and_eq_true] at hdotted
        rw [nameTokens, hsegs, dottedTokens] at hc
        rw [hc.isAt (by decide)]
        simp only [List.cons_append, headIs_cons, Token.word_is, beq_iff_eq]
        rintro rfl
        exact absurd hdotted.1 (by decide)
    · rw [hy]

theorem typeHeadTokens_head (lead : Trivia) {name : String} (h : isTypeText name = true) :
    ∃ t ts, typeHeadTokens lead name = t :: ts
      ∧ (t = symbol lead "?" ∨ ∃ s, isNameText s = true ∧ t = Token.word lead s) := by
  by_cases hany : name = "?"
  · subst hany
    exact ⟨_, [], rfl, .inl rfl⟩
  · rw [typeHeadTokens, if_neg hany, nameTokens]
    have hdotted : isDottedText false name = true := by simpa [isTypeText, hany] using h
    cases hsegs : Name.segments name with
    | nil => exact absurd hsegs (Name.segments_ne_nil name)
    | cons s ss =>
      rw [isDottedText, hsegs, Bool.and_eq_true] at hdotted
      exact ⟨_, _, rfl, .inr ⟨s, hdotted.1, rfl⟩⟩

/-- A type starts with a name or with `?`. -/
theorem typeTokens_head {t : TypeName} (h : t.WellFormed) :
    ∃ u us, t.tokens = u :: us
      ∧ (u = symbol t.lead "?" ∨ ∃ s, isNameText s = true ∧ u = Token.word t.lead s) := by
  rw [TypeName.wellFormed_iff] at h
  obtain ⟨u, us, htokens, hu⟩ := typeHeadTokens_head t.lead h.1
  rw [TypeName.tokens_eq, htokens]
  exact ⟨u, _, rfl, hu⟩

theorem typeTokens_ne_nil {t : TypeName} (h : t.WellFormed) : t.tokens ≠ [] := by
  obtain ⟨u, us, htokens, _⟩ := typeTokens_head h
  simp [htokens]

theorem headIs_typeTokens {t : TypeName} (h : t.WellFormed) {text : String} (hany : text ≠ "?")
    (hname : isNameText text = false) : headIs t.tokens text = false := by
  obtain ⟨u, us, htokens, rfl | ⟨s, hs, rfl⟩⟩ := typeTokens_head h
  · rw [htokens, headIs_cons, Token.symbol_is, beq_eq_false_iff_ne]
    exact hany.symm
  · rw [htokens, headIs_cons, Token.word_is, beq_eq_false_iff_ne]
    rintro rfl
    rw [hs] at hname
    cases hname

/-- A type in front of what may follow it. -/
structure TypeSpec (tail : Trivia) (t : TypeName) (c : Cursor) (r : List Token) : Prop where
  wellFormed : t.WellFormed
  follow : TypeFollow t r
  ahead : c.At (t.tokens ++ r) tail

/-- Type arguments, given that the types in them are accepted. -/
theorem gives_typeArgumentsOf {self : Parser TypeName} {n : Nat}
    (hself : ∀ t c r, c.rest.length < n → TypeSpec tail t c r →
      Gives self c r tail fun y => y.unnumbered = t.unnumbered)
    {a : TypeArguments} (ha : a.WellFormed) (hn : c.rest.length ≤ n)
    (hc : c.At (a.tokens ++ r) tail) :
    Gives (typeArgumentsOf self) c r tail fun y => y.unnumbered = a.unnumbered := by
  obtain ⟨id, l⟩ := a
  have hall : ItemsOk TypeName.WellFormed l.items := (TypeName.wellFormedAll_iff _).mp ha
  obtain ⟨hitems, hlast⟩ := itemsOk_iff.mp hall
  rw [TypeArguments.tokens_eq] at hc
  refine (gives_fresh hc).bind fun id' c1 hc1 _ => ?_
  have hlen := hc.length.trans hc1.length.symm
  have hitem : ∀ p ∈ l.items, ∀ c r, c.rest.length + 1 < c1.rest.length + 1 →
      c.At (p.elem.tokens ++ r) tail → (∀ t, TypeFollow t r) →
      Gives self c r tail fun y => y.unnumbered = p.elem.unnumbered :=
    fun p hp c r hb hc hr => hself p.elem c r (by omega) ⟨hitems p hp, hr _, hc⟩
  refine (gives_listing (by decide) (by decide) (by decide) hitem
    (fun p hp => ⟨typeTokens_ne_nil (hitems p hp), headIs_typeTokens (hitems p hp) (by decide) (by decide)⟩)
    (fun after r t => typeFollow_of_is (Token.symbol_is_self after ",") (by decide))
    (fun after r t => typeFollow_of_is (Token.symbol_is_self after ">") (by decide)) hlast
    (Nat.lt_succ_self _) hc1).bind fun l' c2 hc2 hl => Gives.pure hc2 ?_
  rw [TypeArguments.unnumbered_eq, TypeArguments.unnumbered_eq, Listing.map, Listing.map, hl.1, hl.2.1,
    hl.2.2]

theorem gives_typeNameOf {self : Parser TypeName} {n : Nat}
    (hself : ∀ t c r, c.rest.length < n → TypeSpec tail t c r →
      Gives self c r tail fun y => y.unnumbered = t.unnumbered)
    (t : TypeName) (c : Cursor) (r : List Token) (hn : c.rest.length < n + 1)
    (ht : TypeSpec tail t c r) :
    Gives (typeNameOf self) c r tail fun y => y.unnumbered = t.unnumbered := by
  obtain ⟨hwf, hfollow, hc⟩ := ht
  rw [TypeName.wellFormed_iff] at hwf
  obtain ⟨htext, hres, hargs⟩ := hwf
  rw [TypeName.tokens_eq, List.append_assoc] at hc
  refine (gives_fresh hc).bind fun id c1 hc1 _ => ?_
  have hlen1 := hc.length.trans hc1.length.symm
  obtain ⟨u, us, hu, _⟩ := typeHeadTokens_head t.lead htext
  have hmid : headIs (optionTokens TypeArguments.tokens t.args ++ r) "." = false ∧
      (t.name = "?" → headIs (optionTokens TypeArguments.tokens t.args ++ r) "extends" = false
        ∧ headIs (optionTokens TypeArguments.tokens t.args ++ r) "super" = false) := by
    cases harg : t.args with
    | none =>
      refine ⟨hfollow.dot, fun hany => hfollow.bound ?_⟩
      simp [TypeName.isAny, hany, harg]
    | some a =>
      obtain ⟨id, lead, items, close⟩ := a
      simp [optionTokens, TypeArguments.tokens]
  refine (gives_typeHead htext hmid.1 hmid.2 hc1).bind fun head c2 hc2 hhead => ?_
  have hlen2 := hc1.length_le hc2
  rw [hu, List.length_cons] at hlen2
  refine (gives_whenAt (f := TypeArguments.unnumbered) (by decide) hc2 (fun _ => hfollow.args)
    (fun a ha => ⟨?_, fun hat => ?_⟩)).bind fun args c3 hc3 hargs' => Gives.get ?_
  · obtain ⟨id, lead, items, close⟩ := a
    simp [TypeArguments.tokens]
  · exact gives_typeArgumentsOf hself (hargs a ha) (by omega) hat
  · refine Gives.ite_neg ?_ (Gives.pure hc3 ?_)
    · rw [hc3.isAt (by decide), hfollow.array]
      decide
    · obtain rfl : head = _ := hhead
      rw [TypeName.unnumbered_eq, TypeName.unnumbered_eq t, hargs', hres]

/-- **Types are read back.** -/
theorem gives_typeName {t : TypeName} (ht : t.WellFormed) (hfollow : TypeFollow t r)
    (hc : c.At (t.tokens ++ r) tail) :
    Gives typeName c r tail fun y => y.unnumbered = t.unnumbered :=
  gives_fix (fun _ _ hself => gives_typeNameOf hself) ⟨ht, hfollow, hc⟩

theorem gives_typeArguments {a : TypeArguments} (ha : a.WellFormed)
    (hc : c.At (a.tokens ++ r) tail) :
    Gives typeArguments c r tail fun y => y.unnumbered = a.unnumbered :=
  gives_typeArgumentsOf (fun _ _ _ _ ht => gives_typeName ht.wellFormed ht.follow ht.ahead) ha
    (Nat.le_refl _) hc

end Migration.Parser
