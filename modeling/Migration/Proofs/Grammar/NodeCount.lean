import Migration.Proofs.Grammar.Numbering
import Migration.Proofs.Grammar.RoundTrip
import Migration.Proofs.Token.Bytes

/-!
# How many nodes a source has

Every node of a tree is written with a token of its own, the module with the end of the file. Mostly it is
the first token, or a bracket, a comma or a semicolon. A parameter is the exception: it has no token but
those of its type and its name, and is counted at the bracket or comma in front of it. So a tree has no more
nodes than tokens (`Module.length_ids_le`), and a source no more than bytes but one. The numbers of a module
that was read are then those from zero up to the next one, as long as these fit (`Module.parse_numbers`).
-/

namespace Migration

/-! ### Rows of tokens -/

@[simp] theorem length_prependLead (lead : Trivia) (ts : List Token) :
    (prependLead lead ts).length = ts.length := by
  cases ts <;> rfl

theorem length_optionTokens {α : Type} {ids : α → List NodeId} {tokens : α → List Token} {o : Option α}
    (h : ∀ a ∈ o, (ids a).length ≤ (tokens a).length) :
    (o.toList.flatMap ids).length ≤ (optionTokens tokens o).length := by
  cases o with
  | none => exact Nat.le_refl _
  | some a => simpa [optionTokens] using h a rfl

theorem length_flatMap_le {α : Type} {ids : α → List NodeId} {tokens : α → List Token} {as : List α}
    (h : ∀ a ∈ as, (ids a).length ≤ (tokens a).length) :
    (as.flatMap ids).length ≤ (as.flatMap tokens).length := by
  induction as with
  | nil => exact Nat.le_refl _
  | cons a as ih =>
    have ha := h a List.mem_cons_self
    have hrest := ih fun b hb => h b (List.mem_cons_of_mem _ hb)
    rw [List.flatMap_cons, List.flatMap_cons, List.length_append, List.length_append]
    omega

theorem length_modifierTokens (modifiers : List Ident) :
    (modifierTokens modifiers).length = (modifiers.map (·.id)).length := by
  rw [modifierTokens, List.length_map, List.length_map]

/-! ### Types -/

theorem length_nameTokens_pos (lead : Trivia) (name : String) : 0 < (nameTokens lead name).length := by
  rw [nameTokens]
  cases h : Name.segments name with
  | nil => exact absurd h (Name.segments_ne_nil name)
  | cons s ss => exact Nat.succ_pos _

theorem length_typeHeadTokens_pos (lead : Trivia) (name : String) :
    0 < (typeHeadTokens lead name).length := by
  rw [typeHeadTokens]
  split
  · exact Nat.succ_pos _
  · exact length_nameTokens_pos lead name

mutual

theorem TypeName.length_ids_le : ∀ t : TypeName, t.ids.length ≤ t.tokens.length
  | ⟨_, lead, name, none, _⟩ => length_typeHeadTokens_pos lead name
  | ⟨_, lead, name, some args, _⟩ => by
    have hhead := length_typeHeadTokens_pos lead name
    have hargs := TypeArguments.length_ids_le args
    rw [TypeName.ids, TypeName.tokens, List.length_cons, List.length_append]
    omega
termination_by structural t => t

theorem TypeArguments.length_ids_le : ∀ a : TypeArguments, a.ids.length ≤ a.tokens.length
  | ⟨_, ⟨lead, items, close⟩⟩ => by
    have hitems := TypeName.length_idsAll_le items
    simp only [TypeArguments.ids, TypeArguments.tokens, List.length_cons, List.length_append, List.length_nil]
    omega
termination_by structural a => a

theorem TypeName.length_idsAll_le : ∀ ps : List (Padded TypeName),
    (TypeName.idsAll ps).length ≤ (TypeName.tokensAll ps).length
  | [] => Nat.le_refl _
  | [⟨t, _⟩] => by
    have ht := TypeName.length_ids_le t
    rwa [TypeName.idsAll, TypeName.idsAll, List.append_nil]
  | ⟨t, after⟩ :: q :: rest => by
    have ht := TypeName.length_ids_le t
    have hrest := TypeName.length_idsAll_le (q :: rest)
    rw [TypeName.idsAll, TypeName.tokensAll, List.length_append, List.length_append, List.length_cons]
    omega
termination_by structural ps => ps

end

/-! ### Expressions -/

mutual

theorem Expr.length_ids_le : ∀ e : Expr, e.ids.length ≤ e.tokens.length
  | .name ident => Nat.le_refl _
  | .literal l => List.length_pos_iff.mpr l.tokens_ne_nil
  | .access ⟨_, target, dot, member, _⟩ => by
    have htarget := Expr.length_ids_le target
    simp only [Expr.ids, Expr.tokens, Ident.tokens, List.length_append, List.length_cons, List.length_nil]
    omega
  | .call ⟨_, none, _, member, ⟨opened, items, closed⟩⟩ => by
    have hitems := Expr.length_idsAll_le items
    simp only [Expr.ids, Expr.tokens, Ident.tokens, List.length_append, List.length_cons, List.length_nil]
    omega
  | .call ⟨_, some target, dot, member, ⟨opened, items, closed⟩⟩ => by
    have htarget := Expr.length_ids_le target
    have hitems := Expr.length_idsAll_le items
    simp only [Expr.ids, Expr.tokens, Ident.tokens, List.length_append, List.length_cons, List.length_nil]
    omega
  | .create ⟨_, lead, type, ⟨opened, items, closed⟩⟩ => by
    have htype := TypeName.length_ids_le type
    have hitems := Expr.length_idsAll_le items
    simp only [Expr.ids, Expr.tokens, List.length_append, List.length_cons, List.length_nil]
    omega
  | .binary ⟨_, left, opLead, op, right⟩ => by
    have hleft := Expr.length_ids_le left
    have hright := Expr.length_ids_le right
    simp only [Expr.ids, Expr.tokens, List.length_append, List.length_cons, List.length_nil]
    omega
  | .parens ⟨_, lead, inner, close⟩ => by
    have hinner := Expr.length_ids_le inner
    simp only [Expr.ids, Expr.tokens, List.length_append, List.length_cons, List.length_nil]
    omega
termination_by structural e => e

theorem Expr.length_idsAll_le : ∀ ps : List (Padded Expr),
    (Expr.idsAll ps).length ≤ (Expr.tokensAll ps).length
  | [] => Nat.le_refl _
  | [⟨e, _⟩] => by
    have he := Expr.length_ids_le e
    rwa [Expr.idsAll, Expr.idsAll, List.append_nil]
  | ⟨e, after⟩ :: q :: rest => by
    have he := Expr.length_ids_le e
    have hrest := Expr.length_idsAll_le (q :: rest)
    rw [Expr.idsAll, Expr.tokensAll, List.length_append, List.length_append, List.length_cons]
    omega
termination_by structural ps => ps

end

/-! ### Statements -/

theorem Variable.length_ids_le (v : Variable) : v.ids.length ≤ v.tokens.length := by
  have htype := v.type.length_ids_le
  have hvalue : (v.value.toList.flatMap (·.value.ids)).length ≤
      (optionTokens Initializer.tokens v.value).length := by
    refine length_optionTokens fun i _ => ?_
    have hi := i.value.length_ids_le
    rw [Initializer.tokens, List.length_cons]
    omega
  simp only [Variable.ids, Variable.tokens, Ident.tokens, length_prependLead, length_modifierTokens,
    List.length_append, List.length_cons, List.length_nil]
  omega

mutual

theorem Stmt.length_ids_le : ∀ s : Stmt, s.ids.length ≤ s.tokens.length
  | .expr s => by
    have he := s.expr.length_ids_le
    simp only [Stmt.ids, Stmt.tokens, ExprStmt.tokens, length_prependLead, List.length_append,
      List.length_cons, List.length_nil]
    omega
  | .localVar v => v.length_ids_le
  | .ret s => by
    have hvalue := length_optionTokens (o := s.value) fun e _ => e.length_ids_le
    simp only [Stmt.ids, Stmt.tokens, Return.tokens, List.length_append, List.length_cons, List.length_nil]
    omega
  | .block b => Block.length_ids_le b
termination_by structural s => s

theorem Block.length_ids_le : ∀ b : Block, b.ids.length ≤ b.tokens.length
  | ⟨_, lead, statements, close⟩ => by
    have hstatements := Stmt.length_idsAll_le statements
    simp only [Block.ids, Block.tokens, List.length_append, List.length_cons, List.length_nil]
    omega
termination_by structural b => b

theorem Stmt.length_idsAll_le : ∀ ss : List Stmt, (Stmt.idsAll ss).length ≤ (Stmt.tokensAll ss).length
  | [] => Nat.le_refl _
  | s :: rest => by
    have hs := Stmt.length_ids_le s
    have hrest := Stmt.length_idsAll_le rest
    rw [Stmt.idsAll, Stmt.tokensAll, List.length_append, List.length_append]
    omega
termination_by structural ss => ss

end

/-! ### Declarations -/

/-- A parameter is one node more than it has tokens. -/
theorem Param.length_ids_le (p : Param) : p.ids.length ≤ p.tokens.length + 1 := by
  have htype := p.type.length_ids_le
  simp only [Param.ids, Param.tokens, Ident.tokens, length_prependLead, length_modifierTokens,
    List.length_append, List.length_cons, List.length_nil]
  omega

/-- The commas between parameters make up for all but one. -/
theorem length_paramIds_le (ps : List (Padded Param)) :
    (ps.flatMap (·.elem.ids)).length ≤ (itemTokens Param.tokens ps).length + 1 := by
  induction ps with
  | nil => exact Nat.zero_le _
  | cons p ps ih =>
    have hp := p.elem.length_ids_le
    rw [List.flatMap_cons, List.length_append]
    cases ps with
    | nil => exact hp
    | cons q rest =>
      rw [itemTokens, List.length_append, List.length_cons]
      omega

theorem MethodBody.length_ids_le (b : MethodBody) : b.ids.length ≤ b.tokens.length := by
  cases b with
  | block b => exact b.length_ids_le
  | absent semi => exact Nat.zero_le _

theorem Method.length_ids_le (m : Method) : m.ids.length ≤ m.tokens.length := by
  have htype := length_optionTokens (o := m.returnType) fun t _ => t.length_ids_le
  have hparams := length_paramIds_le m.params.items
  have hbody := m.body.length_ids_le
  simp only [Method.ids, Method.headerIds, Method.tokens, Listing.tokens, Ident.tokens, length_prependLead,
    length_modifierTokens, List.length_append, List.length_cons, List.length_nil]
  omega

theorem TypeClause.length_ids_le (keyword : String) (c : TypeClause) :
    c.ids.length ≤ (c.tokens keyword).length := by
  have htypes := TypeName.length_idsAll_le c.types
  rw [TypeClause.ids, TypeClause.tokens, ← TypeName.tokensAll_eq, List.length_cons, List.length_cons]
  omega

theorem length_headerIds_lt (kindLead : Trivia) (kind : TypeKind) (name : Ident) (modifiers : List Ident)
    (typeParams : Option TypeArguments) (extending implementing : Option TypeClause) :
    (headerIds name modifiers typeParams extending implementing).length < (modifierTokens modifiers
      ++ headerTokens kindLead kind name typeParams extending implementing).length := by
  have hparams := length_optionTokens (o := typeParams) fun a _ => a.length_ids_le
  have hext := length_optionTokens (o := extending) fun c _ => c.length_ids_le "extends"
  have himp := length_optionTokens (o := implementing) fun c _ => c.length_ids_le "implements"
  simp only [headerIds, headerTokens, Ident.tokens, length_modifierTokens, List.length_append,
    List.length_cons, List.length_nil]
  omega

mutual

theorem Member.length_ids_le : ∀ m : Member, m.ids.length ≤ m.tokens.length
  | .field v => v.length_ids_le
  | .method m => m.length_ids_le
  | .type d => TypeDecl.length_ids_le d
termination_by structural m => m

theorem TypeDecl.length_ids_le : ∀ d : TypeDecl, d.ids.length ≤ d.tokens.length
  | ⟨_, lead, modifiers, kindLead, kind, name, typeParams, extending, implementing, body⟩ => by
    have hheader := length_headerIds_lt kindLead kind name modifiers typeParams extending implementing
    have hbody := TypeBody.length_ids_le body
    rw [TypeDecl.ids, TypeDecl.tokens, length_prependLead, ← List.append_assoc, List.length_append,
      List.length_cons, List.length_append]
    omega
termination_by structural d => d

theorem TypeBody.length_ids_le : ∀ b : TypeBody, b.ids.length ≤ b.tokens.length
  | ⟨_, lead, members, close⟩ => by
    have hmembers := Member.length_idsAll_le members
    simp only [TypeBody.ids, TypeBody.tokens, List.length_append, List.length_cons, List.length_nil]
    omega
termination_by structural b => b

theorem Member.length_idsAll_le : ∀ ms : List Member,
    (Member.idsAll ms).length ≤ (Member.tokensAll ms).length
  | [] => Nat.le_refl _
  | m :: rest => by
    have hm := Member.length_ids_le m
    have hrest := Member.length_idsAll_le rest
    rw [Member.idsAll, Member.tokensAll, List.length_append, List.length_append]
    omega
termination_by structural ms => ms

end

/-! ### Modules -/

/-- **A module has no more nodes than tokens**, the end of the file being one. -/
theorem Module.length_ids_le (m : Module) : m.ids.length ≤ m.tokens.length + 1 := by
  have hpackage : (m.package.toList.map (·.id)).length ≤ (optionTokens Package.tokens m.package).length := by
    cases m.package with
    | none => exact Nat.le_refl _
    | some p => exact Nat.succ_le_succ (Nat.zero_le _)
  have himports : (m.imports.map (·.id)).length ≤ (m.imports.flatMap Import.tokens).length := by
    rw [List.map_eq_flatMap]
    exact length_flatMap_le fun i _ => Nat.succ_le_succ (Nat.zero_le _)
  have htypes : (m.types.flatMap TypeDecl.ids).length ≤ (m.types.flatMap TypeDecl.tokens).length :=
    length_flatMap_le fun d _ => d.length_ids_le
  simp only [Module.ids, Module.tokens, List.length_append, List.length_cons]
  omega

/-- A row of tokens is no longer than its text. -/
theorem Scan.Scannable.length_le {ts : List Token} {tail : List Char} (h : Scannable ts tail) :
    ts.length ≤ (spell ts).length := by
  have hlexical := h.lexical
  clear h
  induction ts with
  | nil => exact Nat.le_refl _
  | cons t ts ih =>
    have htext := List.length_pos_iff.mpr (isLexeme_ne_nil (hlexical t List.mem_cons_self))
    have hrest := ih fun u hu => hlexical u (List.mem_cons_of_mem _ hu)
    rw [spell_cons, List.length_append, List.length_append, List.length_cons]
    omega

/-- A source has no more tokens than bytes, the end of the file being one more. -/
theorem Tokens.length_toList_le {source : String} {ts : Tokens} (h : Tokens.ofSource source = .ok ts) :
    ts.toList.length ≤ source.utf8ByteSize + 1 := by
  obtain ⟨hspell, hrow, _⟩ := Scan.scannable_of_tokensUpTo h (Nat.lt_succ_self _)
  have hwords := hrow.length_le
  have hbytes := Scan.length_le_byteLength source.toList
  rw [Scan.byteLength_toList, hspell, List.length_append] at hbytes
  rw [Tokens.toList, List.length_append, List.length_singleton]
  omega

/-! ### Numbers -/

/-- The first numbers are what they are called, as long as they fit. -/
theorem map_toNat_freshIds {n : Nat} (h : n < 2 ^ 32) : (freshIds 0 n).map (·.toNat) = List.range n := by
  rw [freshIds_zero, List.map_map]
  refine (List.map_congr_left fun k hk => ?_).trans (List.map_id _)
  have hk := List.mem_range.mp hk
  rw [Function.comp_apply, UInt32.toNat_ofNat', Nat.mod_eq_of_lt (Nat.lt_trans hk h)]
  rfl

/-- **The nodes of a source are numbered without gaps.** They have the first numbers, each once, the next
number is how many they are, and they are no more than the tokens, so than the bytes and one. On less than
`2 ^ 32 - 1` bytes all numbers fit, and they are exactly those below the next one. -/
theorem Module.parse_numbers {source : String} {m : Module} (h : Module.parse source = .ok m) :
    ∃ ts, Tokens.ofSource source = .ok ts ∧
      m.ids.Perm ((List.range m.ids.length).map UInt32.ofNat) ∧ m.nextId = UInt32.ofNat m.ids.length ∧
      m.ids.length ≤ ts.toList.length ∧ m.nextId.toNat ≤ ts.toList.length ∧
      ts.toList.length ≤ source.utf8ByteSize + 1 ∧
      (m.ids.length < 2 ^ 32 →
        m.nextId.toNat = m.ids.length ∧ (m.ids.map (·.toNat)).Perm (List.range m.nextId.toNat)) ∧
      (source.utf8ByteSize < 2 ^ 32 - 1 → m.ids.length < 2 ^ 32) := by
  obtain ⟨ts, hscan, htree⟩ := bind_eq_ok.mp h
  obtain ⟨_, hrow, hkind, htext⟩ := Scan.scannable_of_tokensUpTo hscan (Nat.lt_succ_self _)
  obtain ⟨htokens, _, _⟩ := ofTokens_sound hrow.lexical hkind htext htree
  obtain ⟨hids, hnext⟩ := ids_ofTokens htree
  have hbytes := Tokens.length_toList_le hscan
  have hcount : m.ids.length ≤ ts.toList.length := by
    have hle := m.length_ids_le
    rw [← htokens, List.length_map] at hle
    rwa [Tokens.toList, List.length_append, List.length_singleton]
  have hwrapped : m.nextId.toNat = m.ids.length % 2 ^ 32 := by rw [hnext, UInt32.toNat_ofNat']
  have hwraps := Nat.mod_le m.ids.length (2 ^ 32)
  refine ⟨ts, hscan, freshIds_zero _ ▸ hids, hnext, hcount, by omega, hbytes, fun hfits => ?_, by omega⟩
  have hexact : m.nextId.toNat = m.ids.length := hwrapped.trans (Nat.mod_eq_of_lt hfits)
  refine ⟨hexact, ?_⟩
  rw [hexact, ← map_toNat_freshIds hfits]
  exact hids.map _

/-- A statement that is tried as a local variable, is none, and so gives its numbers back. -/
theorem Module.parse_numbers_call :
    ∃ m, Module.parse "class A { void f() { b c = d; b.c(); } }" = .ok m ∧
      (m.ids.map (·.toNat)).Perm (List.range m.nextId.toNat) := by
  have hok : (Module.parse "class A { void f() { b c = d; b.c(); } }").isOk = true := by decide +kernel
  cases h : Module.parse "class A { void f() { b c = d; b.c(); } }" with
  | error e =>
    rw [h] at hok
    cases hok
  | ok m =>
    obtain ⟨ts, _, _, _, _, _, _, hexact, hfits⟩ := Module.parse_numbers h
    exact ⟨m, rfl, (hexact (hfits (by decide +kernel))).2⟩

end Migration
