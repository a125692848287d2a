import Migration.Proofs.Recipe.Readable

/-!
# Configured names in sources

A name that a configuration accepts means in a source what it means there: it can be imported, extended
and selected from, and is read as it is spelled (`TypePattern.read_spelled`). The keywords and characters
that the configuration checks are not those of the scanner and of the grammar, which also take a keyword
between two dots for a segment; for ASCII names both come to the same.

Each of the three sources differs in one name from a source that can be read as it stands. So its tokens
are found again (`scannable_of_named`), and it is read as the tree that is written with them.
-/

namespace Migration

open Scan (Scannable)
open Token (word symbol)

/-! ### Trees without numbers -/

theorem Expr.dottedName?_unnumbered : (e : Expr) → e.unnumbered.dottedName? = e.dottedName?
  | .name _ => rfl
  | .access ⟨_, target, _, member, _⟩ => by
    rw [unnumbered, dottedName?, dottedName?, target.dottedName?_unnumbered]
    rfl
  | .call ⟨_, none, _, _, ⟨_, _, _⟩⟩ => rfl
  | .call ⟨_, some _, _, _, ⟨_, _, _⟩⟩ => rfl
  | .create ⟨_, _, _, ⟨_, _, _⟩⟩ => rfl
  | .literal ⟨_, _, _⟩ => rfl
  | .binary ⟨_, _, _, _, _⟩ => rfl
  | .parens ⟨_, _, _, _⟩ => rfl

theorem Expr.exists_access_of_unnumbered {a : FieldAccess} :
    (e : Expr) → e.unnumbered = .access a → ∃ b, e = .access b
  | .access b, _ => ⟨b, rfl⟩
  | .name _, h => nomatch h
  | .call ⟨_, none, _, _, ⟨_, _, _⟩⟩, h => nomatch h
  | .call ⟨_, some _, _, _, ⟨_, _, _⟩⟩, h => nomatch h
  | .create ⟨_, _, _, ⟨_, _, _⟩⟩, h => nomatch h
  | .literal _, h => nomatch h
  | .binary ⟨_, _, _, _, _⟩, h => nomatch h
  | .parens ⟨_, _, _, _⟩, h => nomatch h

theorem TypeDecl.superclass?_unnumbered (d : TypeDecl) :
    d.unnumbered.superclass? = d.superclass?.map TypeName.unnumbered := by
  obtain ⟨_, _, _, _, kind, _, _, extending, _, _⟩ := d
  obtain _ | ⟨_, _, types⟩ := extending
  · cases kind <;> rfl
  · cases kind with
    | ofInterface => rfl
    | ofClass => rcases types with _ | ⟨p, _ | ⟨q, rest⟩⟩ <;> rfl

theorem TypeDecl.members_unnumbered (d : TypeDecl) :
    d.unnumbered.body.members = d.body.members.map Member.unnumbered := by
  obtain ⟨_, _, _, _, _, _, _, _, _, ⟨_, _, members, _⟩⟩ := d
  exact Member.unnumberedAll_eq members

theorem Member.exists_field_of_unnumbered {v : Variable} :
    (x : Member) → x.unnumbered = .field v → ∃ w, x = .field w ∧ w.unnumbered = v
  | .field w, h => ⟨w, rfl, Member.field.inj h⟩
  | .method _, h => nomatch h
  | .type _, h => nomatch h

/-! ### A name in a row -/

/-- A row in which a simple name stands is found again with a dotted name in its place. -/
theorem scannable_of_named {source : String} {before after : List Token} {t : Token} {lead : Trivia}
    (hrow : (Module.parse source).toOption.map (fun m => (m.tokens, m.eof))
      = some (before ++ t :: (dottedTokens lead ["A"] ++ after), ""))
    (ht : t.opens = true) {ss : List String} (hss : isChainText false ss = true) :
    Scannable (before ++ t :: (dottedTokens lead ss ++ after)) [] := by
  obtain ⟨m, hm, hrow⟩ := Option.map_eq_some_iff.mp hrow
  obtain ⟨htokens, heof⟩ := Prod.mk.inj hrow
  obtain ⟨_, hscan, _⟩ := parse_sound (eq_ok_of_toOption hm)
  rw [htokens, heof] at hscan
  obtain ⟨e, hafter⟩ := Respelled.refl 0 true after
  have hname : Respelled 0 t.opens (dottedTokens lead ["A"] ++ after) (dottedTokens lead ss ++ after)
      e := by
    rw [ht]
    exact .name (by decide) hss (Nat.zero_le _) (Nat.zero_le _) hafter
  have hnamed : Respelled 0 true _ _ e := Respelled.before before hname
  exact (hnamed.scannable hscan).1

/-! ### The three sources -/

/-- `import name;` -/
def importing (name : String) : Module := ⟨0, none, [.single 0 "" name], [], "", 0⟩

/-- `class X`, then what it extends, and its members. -/
def classX (extending : Option TypeClause) (members : List Member) (close : Trivia) : TypeDecl :=
  ⟨0, "", [], "", .ofClass, ⟨0, " ", "X"⟩, none, extending, none, ⟨0, " ", members, close⟩⟩

/-- `class X extends name {}` -/
def extendingClass (name : String) : Module :=
  ⟨0, none, [], [classX (some ⟨0, " ", [⟨⟨0, " ", name, none, none⟩, ""⟩]⟩) [] ""], "", 0⟩

/-- `int a = value;` -/
def fieldA (value : Expr) : Variable :=
  ⟨0, " ", [], ⟨0, "", "int", none, none⟩, ⟨0, " ", "a"⟩, some ⟨" ", value⟩, ""⟩

/-- `class X { int a = value; }` -/
def initializingClass (value : Expr) : Module :=
  ⟨0, none, [], [classX none [.field (fieldA value)] " "], "", 0⟩

theorem tokens_importing (name : String) : (importing name).tokens
    = [] ++ word "" "import" :: (nameTokens " " name ++ [symbol "" ";"]) := by
  simp [importing, Module.tokens, Import.tokens, Import.tailTokens, Import.single, optionTokens,
    wildcardTokens]

theorem tokens_classX (extending : Option TypeClause) (members : List Member) (close : Trivia) :
    (classX extending members close).tokens = word "" "class" :: word " " "X" ::
      (optionTokens (TypeClause.tokens "extends") extending
        ++ symbol " " "\x7b" :: (members.flatMap Member.tokens ++ [symbol close "\x7d"])) := by
  rw [classX, TypeDecl.tokens, prependLead_empty, TypeBody.tokens, Member.tokensAll_eq]
  simp [headerTokens, modifierTokens, Ident.tokens, optionTokens, TypeKind.keyword]

theorem tokens_extendingClass {name : String} (h : name ≠ "?") : (extendingClass name).tokens
    = [word "" "class", word " " "X"] ++ word " " "extends" :: (nameTokens " " name
      ++ [symbol " " "\x7b", symbol "" "\x7d"]) := by
  simp [extendingClass, Module.tokens, tokens_classX, TypeClause.tokens, itemTokens, TypeName.tokens,
    typeHeadTokens, h, optionTokens]

theorem tokens_fieldA (value : Expr) : (fieldA value).tokens
    = word " " "int" :: word " " "a" :: symbol " " "=" :: (value.tokens ++ [symbol "" ";"]) := rfl

theorem tokens_initializingClass (value : Expr) : (initializingClass value).tokens
    = [word "" "class", word " " "X", symbol " " "\x7b", word " " "int", word " " "a"]
      ++ symbol " " "=" :: (value.tokens ++ [symbol "" ";", symbol " " "\x7d"]) := by
  simp [initializingClass, Module.tokens, tokens_classX, Member.tokens, tokens_fieldA, optionTokens]

theorem wellFormed_ofTypes {types : List TypeDecl} (h : ∀ d ∈ types, d.WellFormed) :
    (Module.mk 0 none [] types "" 0).WellFormed where
  package p hp := by cases hp
  imports := List.forall_mem_nil _
  types := h

theorem wellFormed_classX {extending : Option TypeClause} {members : List Member} {close : Trivia}
    (hextending : ∀ c ∈ extending, c.WellFormed) (hmembers : ∀ x ∈ members, x.WellFormed) :
    (classX extending members close).WellFormed := by
  refine ⟨⟨?_, List.forall_mem_nil _, by decide, ?_, hextending, ?_⟩,
    (Member.wellFormedAll_iff members).mpr hmembers⟩
  · intro t ht
    cases ht
    rfl
  · intro a ha
    cases ha
  · intro c hc
    cases hc

theorem wellFormed_fieldA {value : Expr} (h : value.WellFormed false) : (fieldA value).WellFormed := by
  have hname : isNameText "a" = true := by decide
  refine ⟨⟨?_, List.forall_mem_nil _, ⟨by decide, rfl⟩, rfl, hname, ?_⟩, ?_⟩
  · intro t ht
    cases ht
    rfl
  · intro hany
    cases hany
  · intro i hi
    cases hi
    exact h

/-! ### Reading them -/

/-- A text is read as the tree it is written from, when a source that differs from it in a name can be
read. -/
theorem exists_parse_of_named {source : String} {before after : List Token} {t : Token} {lead : Trivia}
    (hrow : (Module.parse source).toOption.map (fun m => (m.tokens, m.eof))
      = some (before ++ t :: (dottedTokens lead ["A"] ++ after), ""))
    (ht : t.opens = true) {ss : List String} (hss : isChainText false ss = true) {m : Module}
    (hwf : m.WellFormed) (htokens : m.tokens = before ++ t :: (dottedTokens lead ss ++ after))
    (heof : m.eof = "") {text : String} (htext : text.toList = spell m.tokens) :
    ∃ u, Module.parse text = .ok u ∧ u.unnumbered = m.unnumbered := by
  have hscan := scannable_of_named hrow ht hss
  have hprint : m.print = text := by
    rw [← String.toList_inj, Module.toList_print, heof, htext]
    exact List.append_nil _
  rw [← hprint]
  refine parse_of_print hwf ?_
  rw [htokens, heof]
  exact hscan

theorem exists_parse_importing {name : String} (h : isDottedText false name = true) :
    ∃ u i, Module.parse ("import " ++ name ++ ";") = .ok u ∧ u.imports = [i]
      ∧ i.isStatic = false ∧ i.wildcard = false ∧ i.name = name := by
  have hrow : (Module.parse "import A;").toOption.map (fun m => (m.tokens, m.eof))
      = some ([] ++ word "" "import" :: (dottedTokens " " ["A"] ++ [symbol "" ";"]), "") := by
    decide +kernel
  have hwf : (importing name).WellFormed :=
    ⟨fun p hp => (by cases hp), List.forall_mem_singleton.mpr h, List.forall_mem_nil _⟩
  have htext : ("import " ++ name ++ ";").toList = spell (importing name).tokens := by
    simp [tokens_importing, spell_nameTokens]
  rw [isDottedText_eq] at h
  obtain ⟨u, hu, hsame⟩ := exists_parse_of_named hrow rfl h hwf (tokens_importing name) rfl htext
  obtain ⟨i, hi, himport⟩ := List.map_eq_singleton_iff.mp (congrArg Module.imports hsame)
  rw [Import.mk.injEq] at himport
  obtain ⟨-, -, hstatic, -, hname, hwildcard, -⟩ := himport
  exact ⟨u, i, hu, hi, congrArg Option.isSome hstatic, hwildcard, hname⟩

theorem exists_parse_extendingClass {name : String} (h : isDottedText false name = true) :
    ∃ u d t, Module.parse ("class X extends " ++ name ++ " \x7b\x7d") = .ok u ∧ u.types = [d]
      ∧ d.superclass? = some t ∧ t.name = name := by
  have hrow : (Module.parse "class X extends A {}").toOption.map (fun m => (m.tokens, m.eof))
      = some ([word "" "class", word " " "X"] ++ word " " "extends" :: (dottedTokens " " ["A"]
        ++ [symbol " " "\x7b", symbol "" "\x7d"]), "") := by
    decide +kernel
  have htype : isTypeText name = true := by rw [isTypeText, h, Bool.or_true]
  have hwf : (extendingClass name).WellFormed := by
    refine wellFormed_ofTypes (List.forall_mem_singleton.mpr (wellFormed_classX ?_ ?_))
    · intro c hc
      cases hc
      exact ⟨List.cons_ne_nil _ _, ⟨htype, rfl⟩, rfl⟩
    · exact List.forall_mem_nil _
  have htokens := tokens_extendingClass (ne_any_of_isDottedText h)
  have htext : ("class X extends " ++ name ++ " \x7b\x7d").toList
      = spell (extendingClass name).tokens := by
    simp [htokens, spell_nameTokens]
  rw [isDottedText_eq] at h
  obtain ⟨u, hu, hsame⟩ := exists_parse_of_named hrow rfl h hwf htokens rfl htext
  obtain ⟨d, hd, hclass⟩ := List.map_eq_singleton_iff.mp (congrArg Module.types hsame)
  have hsuper := congrArg TypeDecl.superclass? hclass
  rw [TypeDecl.superclass?_unnumbered] at hsuper
  obtain ⟨t, ht, hname⟩ := Option.map_eq_some_iff.mp hsuper
  rw [TypeName.unnumbered_eq] at hname
  exact ⟨u, d, t, hu, hd, ht, congrArg TypeName.name hname⟩

/-- A member of a type that is named in full. -/
def memberOf (type member : String) : Expr :=
  .access ⟨0, (nameChain 0 " " type).1, "", ⟨0, "", member⟩, none⟩

theorem chain_memberOf (type member : String) :
    (memberOf type member).Chain " " (Name.segments type ++ [member]) :=
  (chain_nameChain 0 " " type).access 0 0 member

theorem tokens_memberOf (type member : String) : (memberOf type member).tokens
    = nameTokens " " type ++ [symbol "" ".", word "" member] := by
  rw [memberOf, Expr.tokens, (chain_nameChain 0 " " type).tokens_eq]
  rfl

theorem dottedName?_memberOf (type member : String) :
    (memberOf type member).dottedName? = some (type ++ "." ++ member) := by
  rw [memberOf, Expr.dottedName?, dottedName?_nameChain]
  rfl

theorem exists_parse_initializingClass {type member : String} (htype : isDottedText false type = true)
    (hmember : isNameText member = true) :
    ∃ u d v a, Module.parse ("class X \x7b int a = " ++ type ++ "." ++ member ++ "; \x7d") = .ok u
      ∧ u.types = [d] ∧ d.body.members = [.field v] ∧ v.value.map (·.value) = some (.access a)
      ∧ (Expr.access a).dottedName? = some (type ++ "." ++ member) := by
  have hrow : (Module.parse "class X { int a = A; }").toOption.map (fun m => (m.tokens, m.eof))
      = some ([word "" "class", word " " "X", symbol " " "\x7b", word " " "int", word " " "a"]
        ++ symbol " " "=" :: (dottedTokens " " ["A"] ++ [symbol "" ";", symbol " " "\x7d"]), "") := by
    decide +kernel
  have hchain := chain_memberOf type member
  have hsegments : isChainText false (Name.segments type ++ [member]) = true := by
    rw [isDottedText_eq] at htype
    rw [isChainText_concat (Name.segments_ne_nil type)]
    exact ⟨isChainText_mono (fun _ => rfl) htype, isSegmentText_of_isNameText false hmember⟩
  have hwf : (initializingClass (memberOf type member)).WellFormed := by
    refine wellFormed_ofTypes (List.forall_mem_singleton.mpr (wellFormed_classX ?_ ?_))
    · intro c hc
      cases hc
    · exact List.forall_mem_singleton.mpr (wellFormed_fieldA (hchain.wellFormed_iff.mpr hsegments))
  have htokens := tokens_initializingClass (memberOf type member)
  have htext : ("class X \x7b int a = " ++ type ++ "." ++ member ++ "; \x7d").toList
      = spell (initializingClass (memberOf type member)).tokens := by
    rw [htokens, tokens_memberOf]
    simp [spell_nameTokens]
  rw [hchain.tokens_eq] at htokens
  obtain ⟨u, hu, hsame⟩ := exists_parse_of_named hrow rfl hsegments hwf htokens rfl htext
  obtain ⟨d, hd, hclass⟩ := List.map_eq_singleton_iff.mp (congrArg Module.types hsame)
  have hmembers := congrArg (·.body.members) hclass
  rw [TypeDecl.members_unnumbered] at hmembers
  obtain ⟨x, hx, hfield⟩ := List.map_eq_singleton_iff.mp hmembers
  obtain ⟨v, rfl, hvariable⟩ := x.exists_field_of_unnumbered hfield
  obtain ⟨i, hi, hinit⟩ := Option.map_eq_some_iff.mp (congrArg Variable.value hvariable)
  have hvalue : i.value.unnumbered = (memberOf type member).unnumbered :=
    congrArg Initializer.value hinit
  obtain ⟨a, ha⟩ := i.value.exists_access_of_unnumbered hvalue
  refine ⟨u, d, v, a, hu, hd, hx, by rw [hi, ← ha]; rfl, ?_⟩
  rw [← ha, ← Expr.dottedName?_unnumbered, hvalue, Expr.dottedName?_unnumbered, dottedName?_memberOf]

/-- **Configured names are read in sources as they are spelled**, as long as they are ASCII: as the name
of an import of a single type, as a superclass, and together with a configured member as the name of a
constant. -/
theorem TypePattern.read_spelled {field value : String} {p : TypePattern}
    (hascii : Name.isAscii value = true) (hparse : TypePattern.parse field value = .ok p)
    {memberField member : String} (hmemberAscii : Name.isAscii member = true)
    (hmember : checkMember memberField member = .ok ⟨⟩) :
    (∃ u i, Module.parse ("import " ++ value ++ ";") = .ok u ∧ u.imports = [i]
      ∧ i.isStatic = false ∧ i.wildcard = false ∧ i.name = value) ∧
    (∃ u d t, Module.parse ("class X extends " ++ value ++ " \x7b\x7d") = .ok u ∧ u.types = [d]
      ∧ d.superclass? = some t ∧ t.name = value) ∧
    ∃ u d v a, Module.parse ("class X \x7b int a = " ++ value ++ "." ++ member ++ "; \x7d") = .ok u
      ∧ u.types = [d] ∧ d.body.members = [.field v] ∧ v.value.map (·.value) = some (.access a)
      ∧ (Expr.access a).dottedName? = some (value ++ "." ++ member) := by
  have htype : isDottedText false value = true := by
    rw [← spelled_parse hparse] at hascii ⊢
    exact Name.isDottedText_of_isTypeName hascii p.valid
  have hname := Name.isNameText_of_isIdentifier hmemberAscii (isIdentifier_of_checkMember hmember)
  exact ⟨exists_parse_importing htype, exists_parse_extendingClass htype,
    exists_parse_initializingClass htype hname⟩

/-- A keyword is read inside the name of a type, and not as a member of it. -/
example : (Module.parse "class X { int a = b.new.C.D; }").isOk = true ∧
    (Module.parse "class X { int a = b.C.new; }").isOk = false := by
  decide +kernel

/-- A type whose package contains a keyword, and one of its constants. -/
theorem TypePattern.read_spelled_keyword : ∃ p u d v a,
    Name.isAscii "com.new.Car" = true ∧ TypePattern.parse "old" "com.new.Car" = .ok p ∧
    Name.isAscii "MAX" = true ∧ checkMember "member" "MAX" = .ok ⟨⟩ ∧
    Module.parse "class X { int a = com.new.Car.MAX; }" = .ok u ∧ u.types = [d] ∧
    d.body.members = [.field v] ∧ v.value.map (·.value) = some (.access a) ∧
    (Expr.access a).dottedName? = some "com.new.Car.MAX" := by
  have hcheck : (TypePattern.parse "old" "com.new.Car").toOption.isSome = true := by decide +kernel
  obtain ⟨p, hp⟩ := Option.isSome_iff_exists.mp hcheck
  have hascii : Name.isAscii "com.new.Car" = true ∧ Name.isAscii "MAX" = true := by decide +kernel
  have hmember : checkMember "member" "MAX" = .ok ⟨⟩ := by decide +kernel
  obtain ⟨_, _, u, d, v, a, hread⟩ :=
    read_spelled hascii.1 (eq_ok_of_toOption hp) hascii.2 hmember
  exact ⟨p, u, d, v, a, hascii.1, eq_ok_of_toOption hp, hascii.2, hmember, hread⟩

end Migration
