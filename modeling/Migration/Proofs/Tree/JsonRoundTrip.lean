import Migration.Tree.Decode

/-!
# Trees survive their JSON values

What is written as a JSON value is read back. For a node this is a matter of its fields, which are
looked up by name (`fields_obj`, `need_cons_self`, …), and of its parts. A part that is a node of the
same kind is read by the decoder that `fix` is still defining; it is less deep than the node, and so
`fix_reads` carries the round trip of one node over to all depths. No node is followed through its
children twice: there is one such step for types, expressions, blocks and bodies of types each.

Main result: `ofJson_toJson`.
-/

namespace Migration

open Json

namespace Json

/-! ### Depth -/

theorem depth_lt_arr {items : List Json} {j : Json} (h : j ∈ items) : j.depth < (arr items).depth := by
  refine Nat.lt_succ_of_le ?_
  induction items with
  | nil => cases h
  | cons item items ih =>
    rw [depthItems]
    rcases List.mem_cons.mp h with rfl | h
    · exact Nat.le_max_left _ _
    · exact Nat.le_trans (ih h) (Nat.le_max_right _ _)

theorem depth_lt_obj {pairs : List (String × Json)} (key : String) {j : Json}
    (h : (key, j) ∈ pairs) : j.depth < (obj pairs).depth := by
  refine Nat.lt_succ_of_le ?_
  induction pairs with
  | nil => cases h
  | cons pair pairs ih =>
    obtain ⟨k, value⟩ := pair
    rw [depthFields]
    rcases List.mem_cons.mp h with h | h
    · cases h
      exact Nat.le_max_left _ _
    · exact Nat.le_trans (ih h) (Nat.le_max_right _ _)

theorem depth_lt_tagged (kind : String) (node : Json) : node.depth < (tagged kind node).depth :=
  depth_lt_obj kind List.mem_cons_self

theorem depth_lt_padded (elem : Json) (after : Trivia) : elem.depth < (ofPadded elem after).depth :=
  depth_lt_obj "elem" List.mem_cons_self

end Json

namespace Decoder

variable {α : Type}

/-! ### Parts -/

/-- The rest of a decoder is given what was read. Unlike `Option.bind_some` this is no step that is
checked by computation, which would compare the number of a node with its bound in unary. -/
theorem some_bind {β : Type} (a : α) (f : α → Option β) : (some a).bind f = f a := by
  rw [Option.bind_some]

@[simp] theorem id_ofId (n : NodeId) : id (ofId n) = some n := by
  have hlt : (n.toNat : Int) < 4294967296 := Int.ofNat_lt.mpr n.toNat_lt
  rw [ofId, nat, id, if_pos (by simp [hlt]), Int.toNat_natCast, UInt32.ofNat_toNat]

@[simp] theorem str_str (s : String) : str (.str s) = some s := by rw [str, Json.str?]

@[simp] theorem bool_bool (b : Bool) : Json.bool? (.bool b) = some b := by rw [Json.bool?]

theorem list_reads {part : Decoder α} {encode : α → Json} {xs : List α}
    (h : ∀ x ∈ xs, part (encode x) = some x) : list part (ofList encode xs) = some xs := by
  rw [ofList, list]
  induction xs with
  | nil => rfl
  | cons x xs ih =>
    obtain ⟨hx, hxs⟩ := List.forall_mem_cons.mp h
    rw [List.map_cons, List.mapM_cons, hx, ih hxs]
    rfl

@[simp] theorem opt_null {part : Decoder α} : opt part .null = some none := by rw [opt]

/-- A part that is not taken for a missing one. -/
theorem opt_reads {part : Decoder α} {j : Json} {a : α} (hj : j ≠ .null) (h : part j = some a) :
    opt part j = some (some a) := by
  rw [opt, h]
  · rfl
  · exact hj

theorem opt_ofOption {part : Decoder α} {encode : α → Json} {o : Option α}
    (hencode : ∀ a, encode a ≠ .null) (h : ∀ a ∈ o, part (encode a) = some a) :
    opt part (ofOption encode o) = some o := by
  cases o with
  | none => exact opt_null
  | some a => exact opt_reads (hencode a) (h a rfl)

@[simp] theorem opt_str (s : String) : opt str (.str s) = some (some s) :=
  opt_reads nofun (str_str s)

@[simp] theorem opt_optStr (o : Option String) : opt str (optStr o) = some o := by
  cases o with
  | none => exact opt_null
  | some s => exact opt_str s

/-! ### Fields -/

/-- The first field of each name. -/
def lookup (pairs : List (String × Json)) : Fields :=
  fun name => (pairs.find? (·.1 == name)).map (·.2)

/-- In an object without repeated names it does not matter from which end a field is looked up. -/
theorem find?_reverse {pairs : List (String × Json)} (h : (pairs.map Prod.fst).Nodup) (name : String) :
    pairs.reverse.find? (·.1 == name) = pairs.find? (·.1 == name) := by
  induction pairs with
  | nil => rfl
  | cons pair pairs ih =>
    obtain ⟨hnew, hrest⟩ := List.nodup_cons.mp h
    rw [List.reverse_cons, List.find?_append, ih hrest, List.find?_cons]
    cases hkey : pair.1 == name with
    | false => simp [hkey]
    | true =>
      have hnone : pairs.find? (·.1 == name) = none := by
        refine List.find?_eq_none.mpr fun other hother heq => hnew ?_
        rw [beq_iff_eq.mp hkey, ← beq_iff_eq.mp heq]
        exact List.mem_map_of_mem hother
      simp [hkey, hnone]

/-- The fields of an object are those of a node, some of which may be left out. -/
theorem fields_obj {names : List String} {pairs : List (String × Json)} (hnames : names.Nodup)
    (hkeys : (pairs.map Prod.fst).Sublist names) (spare : Nat) :
    fields names spare (.obj pairs) = some (lookup pairs) := by
  have hfind := find?_reverse (hkeys.nodup hnames)
  rw [fields]
  exact congrArg some (funext fun name => congrArg (Option.map _) (hfind name))

section Lookup

variable {name key : String} {j : Json} {pairs : List (String × Json)} {part : Decoder α}

theorem lookup_cons_self : lookup ((name, j) :: pairs) name = some j := by
  simp [lookup]

theorem lookup_cons_of_ne (h : key ≠ name) : lookup ((key, j) :: pairs) name = lookup pairs name := by
  simp [lookup, h]

@[simp] theorem need_cons_self : need (lookup ((name, j) :: pairs)) name part = part j := by
  rw [need, lookup_cons_self, Option.bind_some]

@[simp] theorem need_cons_of_ne (h : key ≠ name) :
    need (lookup ((key, j) :: pairs)) name part = need (lookup pairs) name part := by
  rw [need, lookup_cons_of_ne h, need]

@[simp] theorem want_cons_self : want (lookup ((name, j) :: pairs)) name part = opt part j := by
  rw [want, lookup_cons_self]

@[simp] theorem want_cons_of_ne (h : key ≠ name) :
    want (lookup ((key, j) :: pairs)) name part = want (lookup pairs) name part := by
  rw [want, lookup_cons_of_ne h, want]

/-- A field that was left out. -/
@[simp] theorem want_nil : want (lookup []) name part = some none := by
  rw [want, lookup, List.find?_nil, Option.map_none]

end Lookup

@[simp] theorem tagged_tagged (kind : String) (node : Json) :
    tagged (Json.tagged kind node) = some (kind, node) := by rw [Json.tagged, tagged]

/-! ### Items and nodes of their own kind -/

theorem padded_reads {elem : Decoder α} {j : Json} {a : α} (h : elem j = some a) (after : Trivia) :
    padded elem (ofPadded j after) = some ⟨a, after⟩ := by
  simp [-Option.bind_some, some_bind, padded, ofPadded, fields_obj, h]

/-- The items of a comma-separated list as a value. -/
def ofItems (encode : α → Json) (items : List (Padded α)) : Json :=
  ofList (fun p => ofPadded (encode p.elem) p.after) items

theorem items_reads {elem : Decoder α} {encode : α → Json} {items : List (Padded α)}
    (h : ∀ p ∈ items, elem (encode p.elem) = some p.elem) :
    list (padded elem) (ofItems encode items) = some items :=
  list_reads fun p hp => padded_reads (h p hp) p.after

theorem depth_lt_items {encode : α → Json} {items : List (Padded α)} {p : Padded α}
    (hp : p ∈ items) : (encode p.elem).depth < (ofItems encode items).depth :=
  Nat.lt_trans (depth_lt_padded _ p.after) (depth_lt_arr (List.mem_map_of_mem hp))

theorem toJsonAll_types (items : List (Padded TypeName)) :
    .arr (TypeName.toJsonAll items) = ofItems TypeName.toJson items := by
  induction items with
  | nil => rfl
  | cons p rest ih =>
    obtain ⟨t, after⟩ := p
    rw [TypeName.toJsonAll, Json.arr.inj ih]
    rfl

theorem toJsonAll_exprs (items : List (Padded Expr)) :
    .arr (Expr.toJsonAll items) = ofItems Expr.toJson items := by
  induction items with
  | nil => rfl
  | cons p rest ih =>
    obtain ⟨e, after⟩ := p
    rw [Expr.toJsonAll, Json.arr.inj ih]
    rfl

theorem toJsonAll_statements (ss : List Stmt) :
    .arr (Stmt.toJsonAll ss) = ofList Stmt.toJson ss := by
  induction ss with
  | nil => rfl
  | cons x rest ih =>
    rw [Stmt.toJsonAll, Json.arr.inj ih]
    rfl

theorem toJsonAll_members (ms : List Member) :
    .arr (Member.toJsonAll ms) = ofList Member.toJson ms := by
  induction ms with
  | nil => rfl
  | cons x rest ih =>
    rw [Member.toJsonAll, Json.arr.inj ih]
    rfl

/-- `self` reads back what is less deep than `j`. -/
def ReadsBelow (encode : α → Json) (self : Decoder α) (j : Json) : Prop :=
  ∀ b, (encode b).depth < j.depth → self (encode b) = some b

theorem ReadsBelow.mono {encode : α → Json} {self : Decoder α} {j k : Json}
    (h : ReadsBelow encode self j) (hk : k.depth < j.depth) : ReadsBelow encode self k :=
  fun b hb => h b (Nat.lt_trans hb hk)

/-- **A decoder that is described in terms of itself reads back** what it describes one step of. -/
theorem fix_reads {F : Decoder α → Decoder α} {encode : α → Json}
    (hF : ∀ self a, ReadsBelow encode self (encode a) → F self (encode a) = some a) (a : α) :
    fix F (encode a) = some a := by
  have happrox (n : Nat) : ∀ a, (encode a).depth < n → approx F n (encode a) = some a := by
    induction n with
    | zero => exact fun a h => absurd h (Nat.not_lt_zero _)
    | succ n ih =>
      exact fun a h => hF _ a fun b hb => ih b (Nat.lt_of_lt_of_le hb (Nat.le_of_lt_succ h))
  exact happrox _ a (Nat.lt_succ_self _)

/-! ### Names and types -/

@[simp] theorem ident_reads (i : Ident) : ident i.toJson = some i := by
  simp [-Option.bind_some, some_bind, ident, Ident.toJson, fields_obj]

@[simp] theorem idents_reads (is : List Ident) : list ident (ofList Ident.toJson is) = some is :=
  list_reads fun i _ => ident_reads i

theorem typeArguments_ne_null (a : TypeArguments) : a.toJson ≠ .null := by
  obtain ⟨id, list⟩ := a
  nofun

theorem typeArgumentsOf_reads {type : Decoder TypeName} (a : TypeArguments)
    (h : ReadsBelow TypeName.toJson type a.toJson) : typeArgumentsOf type a.toJson = some a := by
  obtain ⟨id, lead, items, close⟩ := a
  rw [TypeArguments.toJson, toJsonAll_types] at h ⊢
  have hitems : ReadsBelow TypeName.toJson type (ofItems TypeName.toJson items) :=
    h.mono (depth_lt_obj "args" (by simp))
  have hargs := items_reads fun p hp => hitems p.elem (depth_lt_items hp)
  simp [-Option.bind_some, some_bind, typeArgumentsOf, fields_obj, hargs]

theorem toJson_type (t : TypeName) :
    t.toJson = .obj ([("id", ofId t.id), ("prefix", .str t.lead), ("name", .str t.name),
      ("type_args", ofOption TypeArguments.toJson t.args)] ++ optField "resolved" t.resolved) := by
  obtain ⟨id, lead, name, args, resolved⟩ := t
  cases args <;> rfl

theorem typeName_ne_null (t : TypeName) : t.toJson ≠ .null := by
  rw [toJson_type]
  nofun

theorem typeNameOf_reads (self : Decoder TypeName) (t : TypeName)
    (h : ReadsBelow TypeName.toJson self t.toJson) : typeNameOf self t.toJson = some t := by
  obtain ⟨id, lead, name, args, resolved⟩ := t
  rw [toJson_type] at h ⊢
  have hargs : opt (typeArgumentsOf self) (ofOption TypeArguments.toJson args) = some args := by
    refine opt_ofOption typeArguments_ne_null fun a ha => typeArgumentsOf_reads a (h.mono ?_)
    rw [Option.mem_def.mp ha]
    exact depth_lt_obj "type_args" (by simp [ofOption])
  cases resolved <;> simp [-Option.bind_some, some_bind, typeNameOf, fields_obj, optField, hargs]

@[simp] theorem typeName_reads (t : TypeName) : typeName t.toJson = some t :=
  fix_reads typeNameOf_reads t

theorem typeArguments_reads (a : TypeArguments) : typeArguments a.toJson = some a :=
  typeArgumentsOf_reads a fun t _ => typeName_reads t

/-! ### Expressions -/

@[simp] theorem literal_reads (l : Literal) : literal l.toJson = some l := by
  simp [-Option.bind_some, some_bind, literal, Literal.toJson, fields_obj]

theorem argumentsOf_reads {self : Decoder Expr} (l : Listing Expr)
    (h : ReadsBelow Expr.toJson self (ofItems Expr.toJson l.items)) :
    argumentsOf self (ofArguments l.lead (Expr.toJsonAll l.items) l.close) = some l := by
  rw [ofArguments, toJsonAll_exprs]
  have hargs := items_reads fun p hp => h p.elem (depth_lt_items hp)
  simp [-Option.bind_some, some_bind, argumentsOf, fields_obj, hargs]

theorem depth_lt_arguments (opened closed : Trivia) (items : List (Padded Expr)) :
    (ofItems Expr.toJson items).depth < (ofArguments opened (Expr.toJsonAll items) closed).depth := by
  rw [← toJsonAll_exprs]
  exact depth_lt_obj "args" (by simp)

theorem toJson_call (c : MethodCall) : (Expr.call c).toJson = Json.tagged "MethodCall"
    (.obj [("id", ofId c.id), ("target", ofOption Expr.toJson c.target), ("dot", .str c.dot),
      ("name", c.name.toJson),
      ("args", ofArguments c.args.lead (Expr.toJsonAll c.args.items) c.args.close)]) := by
  obtain ⟨id, target, dot, member, opened, items, closed⟩ := c
  cases target <;> rfl

theorem expr_ne_null (e : Expr) : e.toJson ≠ .null := by
  cases e with
  | name i => nofun
  | literal l => nofun
  | access a =>
    obtain ⟨id, target, dot, member, owner⟩ := a
    nofun
  | call c =>
    rw [toJson_call]
    nofun
  | create c =>
    obtain ⟨id, lead, type, opened, items, closed⟩ := c
    nofun
  | binary b =>
    obtain ⟨id, left, opLead, op, right⟩ := b
    nofun
  | parens p =>
    obtain ⟨id, lead, inner, close⟩ := p
    nofun

theorem exprOf_reads (self : Decoder Expr) (e : Expr)
    (h : ReadsBelow Expr.toJson self e.toJson) : exprOf self e.toJson = some e := by
  cases e with
  | name i =>
    rw [Expr.toJson]
    simp [-Option.bind_some, some_bind, exprOf]
  | literal l =>
    rw [Expr.toJson]
    simp [-Option.bind_some, some_bind, exprOf]
  | access a =>
    obtain ⟨id, target, dot, member, owner⟩ := a
    rw [Expr.toJson] at h ⊢
    have hbelow := h.mono (depth_lt_tagged _ _)
    have htarget := hbelow target (depth_lt_obj "target" (by simp))
    cases owner <;>
      simp [-Option.bind_some, some_bind, exprOf, accessOf, fields_obj, optField, htarget]
  | call c =>
    obtain ⟨id, target, dot, member, args⟩ := c
    rw [toJson_call] at h ⊢
    have hbelow := h.mono (depth_lt_tagged _ _)
    have htarget : opt self (ofOption Expr.toJson target) = some target := by
      refine opt_ofOption expr_ne_null fun e he => hbelow e ?_
      rw [Option.mem_def.mp he]
      exact depth_lt_obj "target" (by simp [ofOption])
    have hargs := argumentsOf_reads args ((hbelow.mono (depth_lt_obj "args" (by simp))).mono
      (depth_lt_arguments args.lead args.close args.items))
    simp [-Option.bind_some, some_bind, exprOf, callOf, fields_obj, htarget, hargs]
  | create c =>
    obtain ⟨id, lead, type, opened, items, closed⟩ := c
    rw [Expr.toJson] at h ⊢
    have hbelow := h.mono (depth_lt_tagged _ _)
    have hargs := argumentsOf_reads ⟨opened, items, closed⟩
      ((hbelow.mono (depth_lt_obj "args" (by simp))).mono (depth_lt_arguments opened closed items))
    simp [-Option.bind_some, some_bind, exprOf, creationOf, fields_obj, hargs]
  | binary b =>
    obtain ⟨id, left, opLead, op, right⟩ := b
    rw [Expr.toJson] at h ⊢
    have hbelow := h.mono (depth_lt_tagged _ _)
    have hleft := hbelow left (depth_lt_obj "left" (by simp))
    have hright := hbelow right (depth_lt_obj "right" (by simp))
    simp [-Option.bind_some, some_bind, exprOf, binaryOf, fields_obj, hleft, hright]
  | parens p =>
    obtain ⟨id, lead, inner, close⟩ := p
    rw [Expr.toJson] at h ⊢
    have hbelow := h.mono (depth_lt_tagged _ _)
    have hinner := hbelow inner (depth_lt_obj "inner" (by simp))
    simp [-Option.bind_some, some_bind, exprOf, parensOf, fields_obj, hinner]

@[simp] theorem expr_reads (e : Expr) : expr e.toJson = some e := fix_reads exprOf_reads e

/-! ### Statements -/

theorem initializer_reads (i : Initializer) : initializer i.toJson = some i := by
  simp [-Option.bind_some, some_bind, initializer, Initializer.toJson, fields_obj]

@[simp] theorem variableDecl_reads (v : Variable) : variableDecl v.toJson = some v := by
  have hvalue : opt initializer (ofOption Initializer.toJson v.value) = some v.value :=
    opt_ofOption (fun _ => nofun) fun i _ => initializer_reads i
  simp [-Option.bind_some, some_bind, variableDecl, Variable.toJson, fields_obj, hvalue]

@[simp] theorem exprStmt_reads (s : ExprStmt) : exprStmt s.toJson = some s := by
  simp [-Option.bind_some, some_bind, exprStmt, ExprStmt.toJson, fields_obj]

@[simp] theorem returnStmt_reads (s : Return) : returnStmt s.toJson = some s := by
  have hvalue : opt expr (ofOption Expr.toJson s.value) = some s.value :=
    opt_ofOption expr_ne_null fun e _ => expr_reads e
  simp [-Option.bind_some, some_bind, returnStmt, Return.toJson, fields_obj, hvalue]

theorem stmtOf_reads (self : Decoder Block) (s : Stmt)
    (h : ReadsBelow Block.toJson self s.toJson) : stmtOf self s.toJson = some s := by
  cases s with
  | expr s =>
    rw [Stmt.toJson]
    simp [-Option.bind_some, some_bind, stmtOf]
  | localVar v =>
    rw [Stmt.toJson]
    simp [-Option.bind_some, some_bind, stmtOf]
  | ret s =>
    rw [Stmt.toJson]
    simp [-Option.bind_some, some_bind, stmtOf]
  | block b =>
    rw [Stmt.toJson] at h ⊢
    have hblock := h b (depth_lt_tagged _ _)
    simp [-Option.bind_some, some_bind, stmtOf, hblock]

theorem blockOf_reads (self : Decoder Block) (b : Block)
    (h : ReadsBelow Block.toJson self b.toJson) : blockOf self b.toJson = some b := by
  obtain ⟨id, lead, statements, close⟩ := b
  rw [Block.toJson, toJsonAll_statements] at h ⊢
  have hbelow : ReadsBelow Block.toJson self (ofList Stmt.toJson statements) :=
    h.mono (depth_lt_obj "statements" (by simp))
  have hstatements : list (stmtOf self) (ofList Stmt.toJson statements) = some statements :=
    list_reads fun s hs =>
      stmtOf_reads self s (hbelow.mono (depth_lt_arr (List.mem_map_of_mem hs)))
  simp [-Option.bind_some, some_bind, blockOf, fields_obj, hstatements]

@[simp] theorem block_reads (b : Block) : block b.toJson = some b := fix_reads blockOf_reads b

/-! ### Declarations -/

theorem param_reads (p : Param) : param p.toJson = some p := by
  simp [-Option.bind_some, some_bind, param, Param.toJson, fields_obj]

@[simp] theorem params_reads (l : Listing Param) : params (ofParams l) = some l := by
  have hitems : list (padded param) (ofItems Param.toJson l.items) = some l.items :=
    items_reads fun p _ => param_reads p.elem
  have hsame : ofList Padded.paramToJson l.items = ofItems Param.toJson l.items := rfl
  simp [-Option.bind_some, some_bind, params, ofParams, fields_obj, hsame, hitems]

@[simp] theorem methodBody_reads (b : MethodBody) : methodBody b.toJson = some b := by
  cases b with
  | block b => simp [-Option.bind_some, some_bind, methodBody, MethodBody.toJson]
  | absent semi => simp [-Option.bind_some, some_bind, methodBody, MethodBody.toJson]

@[simp] theorem method_reads (m : Method) : method m.toJson = some m := by
  have htype : opt typeName (ofOption TypeName.toJson m.returnType) = some m.returnType :=
    opt_ofOption typeName_ne_null fun t _ => typeName_reads t
  simp [-Option.bind_some, some_bind, method, Method.toJson, fields_obj, htype]

@[simp] theorem typeKind_reads (k : TypeKind) : typeKind (.str k.keyword) = some k := by
  cases k <;> rfl

theorem typeClause_reads (c : TypeClause) : typeClause c.toJson = some c := by
  have htypes : list (padded typeName) (ofItems TypeName.toJson c.types) = some c.types :=
    items_reads fun p _ => typeName_reads p.elem
  rw [TypeClause.toJson, toJsonAll_types]
  simp [-Option.bind_some, some_bind, typeClause, fields_obj, htypes]

theorem typeDeclOf_reads {body : Decoder TypeBody} (d : TypeDecl)
    (h : body d.body.toJson = some d.body) : typeDeclOf body d.toJson = some d := by
  obtain ⟨id, lead, modifiers, kindLead, kind, name, params, extending, implementing, inside⟩ := d
  have hparams : opt typeArguments (ofOption TypeArguments.toJson params) = some params :=
    opt_ofOption typeArguments_ne_null fun a _ => typeArguments_reads a
  have hclause (c : Option TypeClause) : opt typeClause (ofOption TypeClause.toJson c) = some c :=
    opt_ofOption (fun _ => nofun) fun c _ => typeClause_reads c
  rw [TypeDecl.toJson]
  simp [-Option.bind_some, some_bind, typeDeclOf, fields_obj, hparams, hclause, h]

theorem depth_lt_body (d : TypeDecl) : d.body.toJson.depth < d.toJson.depth := by
  obtain ⟨id, lead, modifiers, kindLead, kind, name, params, extending, implementing, inside⟩ := d
  rw [TypeDecl.toJson]
  exact depth_lt_obj "body" (by simp)

theorem memberOf_reads (self : Decoder TypeBody) (m : Member)
    (h : ReadsBelow TypeBody.toJson self m.toJson) : memberOf self m.toJson = some m := by
  cases m with
  | field v =>
    rw [Member.toJson]
    simp [-Option.bind_some, some_bind, memberOf]
  | method m =>
    rw [Member.toJson]
    simp [-Option.bind_some, some_bind, memberOf]
  | type d =>
    rw [Member.toJson] at h ⊢
    have htype := typeDeclOf_reads d (h.mono (depth_lt_tagged _ _) d.body (depth_lt_body d))
    simp [-Option.bind_some, some_bind, memberOf, htype]

theorem typeBodyOf_reads (self : Decoder TypeBody) (b : TypeBody)
    (h : ReadsBelow TypeBody.toJson self b.toJson) : typeBodyOf self b.toJson = some b := by
  obtain ⟨id, lead, members, close⟩ := b
  rw [TypeBody.toJson, toJsonAll_members] at h ⊢
  have hbelow : ReadsBelow TypeBody.toJson self (ofList Member.toJson members) :=
    h.mono (depth_lt_obj "members" (by simp))
  have hmembers : list (memberOf self) (ofList Member.toJson members) = some members :=
    list_reads fun m hm =>
      memberOf_reads self m (hbelow.mono (depth_lt_arr (List.mem_map_of_mem hm)))
  simp [-Option.bind_some, some_bind, typeBodyOf, fields_obj, hmembers]

theorem typeDecl_reads (d : TypeDecl) : typeDecl d.toJson = some d :=
  typeDeclOf_reads d (fix_reads typeBodyOf_reads d.body)

/-! ### Modules -/

theorem package_reads (p : Package) : package p.toJson = some p := by
  simp [-Option.bind_some, some_bind, package, Package.toJson, fields_obj]

theorem importDecl_reads (i : Import) : importDecl i.toJson = some i := by
  simp [-Option.bind_some, some_bind, importDecl, Import.toJson, fields_obj]

theorem module_reads (m : Module) : module m.toJson = some m := by
  have hpackage : opt package (ofOption Package.toJson m.package) = some m.package :=
    opt_ofOption (fun _ => nofun) fun p _ => package_reads p
  have himports : list importDecl (ofList Import.toJson m.imports) = some m.imports :=
    list_reads fun i _ => importDecl_reads i
  have htypes : list typeDecl (ofList TypeDecl.toJson m.types) = some m.types :=
    list_reads fun d _ => typeDecl_reads d
  simp [-Option.bind_some, some_bind, module, Module.toJson, fields_obj, hpackage, himports, htypes]

end Decoder

/-- **A module is read back from its JSON value**, whether or not it comes from a text. A full name that
is not known has no field, at a type and at an access; the text in front of `static` always has one,
which is `null` for other imports. -/
theorem ofJson_toJson (m : Module) :
    Module.ofJson? m.toJson = some m
      ∧ (∀ t : TypeName, t.toJson.get? "resolved" = t.resolved.map .str)
      ∧ (∀ a : FieldAccess,
        ((Expr.access a).toJson.get? "FieldAccess").bind (·.get? "owner") = a.owner.map .str)
      ∧ ∀ i : Import, i.toJson.get? "static_prefix" = some (optStr i.staticLead) := by
  refine ⟨Decoder.module_reads m, fun t => ?_, fun a => ?_, fun i => by simp [Import.toJson, get?]⟩
  · rw [Decoder.toJson_type]
    cases t.resolved <;> simp [get?, optField]
  · obtain ⟨id, target, dot, member, owner⟩ := a
    rw [Expr.toJson]
    cases owner <;> simp [get?, tagged, optField]

end Migration
