import Migration.Proofs.Grammar.Reading

/-!
# What a production accepts

The converse of reading. `Cursor.At c ts tail` says that the tokens ahead are `ts`, up to their
places, and that the trivia at the end of the file is `tail`. `Gives p c r tail P` says that `p`
succeeds at `c`, leaves `r` ahead and gives a value that satisfies `P`.

The productions use numbers of nodes and places of tokens only to hand them on, so all that can be
said about the value is what it is without them.
-/

namespace Migration

@[simp] theorem Token.symbol_is (lead : Trivia) (s text : String) :
    (Token.symbol lead s).is text = (s == text) := by
  simp [Token.is, Token.symbol]

theorem Token.symbol_is_self (lead : Trivia) (s : String) : (Token.symbol lead s).is s = true := by
  simp

@[simp] theorem Token.word_is (lead : Trivia) (s text : String) :
    (Token.word lead s).is text = (s == text) := by
  simp [Token.is, Token.word]

namespace Cursor

/-- The tokens ahead of the cursor and the trivia at the end. -/
structure At (c : Cursor) (ts : List Token) (tail : Trivia) : Prop where
  ahead : c.rest.map Token.unplaced = ts
  eof : c.eof.unplaced = ⟨.eof, tail, "", 0⟩
  lexical : ∀ t ∈ c.rest, t.Lexical

variable {c : Cursor} {ts r : List Token} {t : Token} {tail : Trivia}

theorem At.length (h : c.At ts tail) : c.rest.length = ts.length := by
  rw [← h.ahead, List.length_map]

/-- Behind some tokens fewer are ahead. -/
theorem At.length_le {c' : Cursor} (h : c.At (ts ++ r) tail) (h' : c'.At r tail) :
    c'.rest.length + ts.length = c.rest.length := by
  rw [h.length, h'.length, List.length_append, Nat.add_comm]

theorem At.length_cons {c' : Cursor} (h : c.At (t :: r) tail) (h' : c'.At r tail) :
    c'.rest.length + 1 = c.rest.length := by
  rw [h.length, h'.length, List.length_cons]

theorem At.peekAt (h : c.At ts tail) (n : Nat) :
    (c.peekAt n).unplaced = ts.getD n ⟨.eof, tail, "", 0⟩ := by
  rw [Cursor.peekAt, ← h.ahead, List.getD_eq_getElem?_getD, List.getD_eq_getElem?_getD,
    List.getElem?_map, ← h.eof]
  cases c.rest[n]? <;> rfl

theorem peek_eq_peekAt (c : Cursor) : c.peek = c.peekAt 0 := by
  rw [peek, Cursor.peekAt]
  cases c.rest <;> rfl

theorem At.peek (h : c.At (t :: r) tail) : c.peek.unplaced = t := by
  rw [peek_eq_peekAt, h.peekAt]
  rfl

/-- The token `n` ahead by its text. -/
theorem At.peekAt_is (h : c.At ts tail) (n : Nat) {text : String} (hne : text ≠ "") :
    (c.peekAt n).is text = headIs (ts.drop n) text := by
  rw [← Token.unplaced_is, h.peekAt, List.getD_eq_getElem?_getD]
  cases hn : ts[n]? with
  | none =>
    rw [List.drop_eq_nil_of_le (List.getElem?_eq_none_iff.mp hn)]
    simp [Token.is, hne.symm]
  | some t =>
    obtain ⟨hlt, ht⟩ := List.getElem?_eq_some_iff.mp hn
    rw [List.drop_eq_getElem_cons hlt, ht]
    rfl

theorem At.isAt (h : c.At ts tail) {text : String} (hne : text ≠ "") :
    c.isAt text = headIs ts text := by
  rw [Cursor.isAt, peek_eq_peekAt, h.peekAt_is 0 hne]
  rfl

theorem At.isAtAny (h : c.At ts tail) {texts : List String} (hne : "" ∉ texts) :
    c.isAtAny texts = texts.any (headIs ts) := by
  rw [Cursor.isAtAny, Bool.eq_iff_iff, List.any_eq_true, List.any_eq_true]
  constructor
  · rintro ⟨s, hs, hat⟩
    exact ⟨s, hs, by rw [← h.isAt (fun he => hne (he ▸ hs))]; exact hat⟩
  · rintro ⟨s, hs, hat⟩
    exact ⟨s, hs, by rw [h.isAt (fun he => hne (he ▸ hs))]; exact hat⟩

theorem At.exists_cons (h : c.At (t :: r) tail) :
    ∃ u rest, c.rest = u :: rest ∧ u.unplaced = t ∧ Cursor.At { c with rest } r tail := by
  obtain ⟨ha, he, hl⟩ := h
  obtain ⟨u, rest, hr, hu, hrest⟩ := List.map_eq_cons_iff.mp ha
  exact ⟨u, rest, hr, hu, hrest, he, fun v hv => hl v (by rw [hr]; exact List.mem_cons_of_mem _ hv)⟩

theorem At.sane (h : c.At ts tail) : c.Sane where
  eof_kind := congrArg Token.kind h.eof
  eof_text := congrArg Token.text h.eof
  lexical := h.lexical

theorem Sane.at (h : c.Sane) : c.At (c.rest.map Token.unplaced) c.eof.lead := by
  refine ⟨rfl, ?_, h.lexical⟩
  rw [Token.unplaced, h.eof_kind, h.eof_text]

/-- What is read stands ahead, in front of what is left. -/
theorem Reads.at {c' : Cursor} (h : c.Reads ts c') (hc : c.At r tail) :
    c'.At (c'.rest.map Token.unplaced) tail ∧ r = ts ++ c'.rest.map Token.unplaced := by
  have hsane := h.sane hc.sane
  obtain ⟨⟨read, hread, hts⟩, he⟩ := h
  refine ⟨⟨rfl, by rw [he]; exact hc.eof, hsane.lexical⟩, ?_⟩
  rw [← hc.ahead, hread, List.map_append, hts]

end Cursor

namespace Parser

variable {α β : Type} {c : Cursor} {ts r : List Token} {tail : Trivia}

/-- The production succeeds at the cursor, leaves `r` ahead and gives a value with `P`. -/
def Gives (p : Parser α) (c : Cursor) (r : List Token) (tail : Trivia) (P : α → Prop) : Prop :=
  ∃ y c', p c = .ok (y, c') ∧ c'.At r tail ∧ P y

theorem Gives.mono {p : Parser α} {P Q : α → Prop} (h : Gives p c r tail P)
    (hPQ : ∀ y, P y → Q y) : Gives p c r tail Q := by
  obtain ⟨y, c', hp, hat, hP⟩ := h
  exact ⟨y, c', hp, hat, hPQ y hP⟩

theorem Gives.congr {p q : Parser α} {P : α → Prop} (heq : p c = q c) (h : Gives q c r tail P) :
    Gives p c r tail P := by
  obtain ⟨y, c', hq, hat, hP⟩ := h
  exact ⟨y, c', heq.trans hq, hat, hP⟩

theorem Gives.bind {p : Parser α} {f : α → Parser β} {P : α → Prop} {Q : β → Prop}
    {r' : List Token} (h : Gives p c r tail P)
    (hf : ∀ y c', c'.At r tail → P y → Gives (f y) c' r' tail Q) :
    Gives (p >>= f) c r' tail Q := by
  obtain ⟨y, c', hp, hat, hP⟩ := h
  obtain ⟨z, d, hd, hat', hQ⟩ := hf y c' hat hP
  exact ⟨z, d, bind_ok.mpr ⟨y, c', hp, hd⟩, hat', hQ⟩

theorem Gives.pure {a : α} {P : α → Prop} (hc : c.At r tail) (h : P a) :
    Gives (pure a) c r tail P := ⟨a, c, rfl, hc, h⟩

theorem Gives.map {p : Parser α} {f : α → β} {P : α → Prop} {Q : β → Prop}
    (h : Gives p c r tail P) (hPQ : ∀ y, P y → Q (f y)) : Gives (f <$> p) c r tail Q := by
  obtain ⟨y, c', hp, hat, hP⟩ := h
  exact ⟨f y, c', map_ok.mpr ⟨y, hp, rfl⟩, hat, hPQ y hP⟩

theorem Gives.get {f : Cursor → Parser β} {P : β → Prop} (h : Gives (f c) c r tail P) :
    Gives ((get : Parser Cursor) >>= f) c r tail P := h

theorem Gives.ite_pos {b : Prop} [Decidable b] {p q : Parser α} {P : α → Prop} (hb : b)
    (h : Gives p c r tail P) : Gives (if b then p else q) c r tail P := by
  rw [if_pos hb]
  exact h

theorem Gives.ite_neg {b : Prop} [Decidable b] {p q : Parser α} {P : α → Prop} (hb : ¬ b)
    (h : Gives q c r tail P) : Gives (if b then p else q) c r tail P := by
  rw [if_neg hb]
  exact h

/-! ### Single tokens -/

theorem gives_fresh (hc : c.At r tail) : Gives fresh c r tail fun _ => True :=
  ⟨c.nextId, _, rfl, ⟨hc.ahead, hc.eof, hc.lexical⟩, trivial⟩

theorem gives_bump {t : Token} (hc : c.At (t :: r) tail) :
    Gives bump c r tail fun y => y.unplaced = t := by
  obtain ⟨u, rest, hr, hu, hat⟩ := hc.exists_cons
  exact ⟨u, _, bump_cons hr, hat, hu⟩

theorem gives_expect {lead : Trivia} {text : String} (hne : text ≠ "")
    (hc : c.At (.symbol lead text :: r) tail) : Gives (expect text) c r tail (· = lead) := by
  refine Gives.get (Gives.ite_pos ?_ ((gives_bump hc).bind fun y c' hc' hy => ?_))
  · rw [hc.isAt hne]
    simp
  · refine Gives.pure hc' ?_
    rw [← Token.unplaced_lead, hy]
    rfl

theorem gives_takeLead {t : Token} (hc : c.At (t :: r) tail) :
    Gives takeLead c (t.bare :: r) tail (· = t.lead) := by
  obtain ⟨u, rest, hr, hu, hat⟩ := hc.exists_cons
  refine ⟨c.peek.lead, c.stripLead, rfl, ⟨?_, ?_, ?_⟩, ?_⟩
  · rw [Cursor.stripLead, hr, ← hu, ← hat.ahead]
    rfl
  · rw [Cursor.stripLead, hr]
    exact hc.eof
  · rw [Cursor.stripLead, hr]
    intro v hv
    rcases List.mem_cons.mp hv with rfl | hv
    · exact hc.lexical u (by rw [hr]; exact List.mem_cons_self)
    · exact hc.lexical v (by rw [hr]; exact List.mem_cons_of_mem _ hv)
  · have hlead := congrArg Token.lead hc.peek
    exact hlead

/-- The trivia of a node is taken from its first token, which has no other. -/
theorem gives_takeLead_prepend {lead : Trivia} (hne : ts ≠ []) (hbare : HeadBare ts)
    (hc : c.At (prependLead lead ts ++ r) tail) :
    Gives takeLead c (ts ++ r) tail (· = lead) := by
  cases ts with
  | nil => exact absurd rfl hne
  | cons t ts =>
    have ht : t.lead = "" := hbare t rfl
    have h := gives_takeLead hc
    have hbare' : Token.bare { t with lead := lead ++ t.lead } = t := by
      obtain ⟨kind, l, text, offset⟩ := t
      cases ht
      rfl
    rw [hbare'] at h
    refine h.mono fun y hy => ?_
    rw [hy]
    simp [ht]

theorem gives_whenAt {text : String} {p : Parser α} {tokens : α → List Token} {f : α → β}
    {o : Option α} (hne : text ≠ "") (hc : c.At (optionTokens tokens o ++ r) tail)
    (hnone : o = none → headIs r text = false)
    (hsome : ∀ a, o = some a → headIs (tokens a ++ r) text = true
      ∧ (c.At (tokens a ++ r) tail → Gives p c r tail fun y => f y = f a)) :
    Gives (whenAt text p) c r tail fun y => y.map f = o.map f := by
  cases o with
  | none =>
    have hc' : c.At r tail := hc
    refine Gives.get (Gives.ite_neg ?_ (Gives.pure hc' rfl))
    rw [hc'.isAt hne, hnone rfl]
    decide
  | some a =>
    have hc' : c.At (tokens a ++ r) tail := hc
    obtain ⟨hat, hgives⟩ := hsome a rfl
    refine Gives.get (Gives.ite_pos ?_ ((hgives hc').bind fun y c' hc1 hy => Gives.pure hc1 ?_))
    · rw [hc'.isAt hne]
      exact hat
    · rw [Option.map_some, Option.map_some, hy]

/-! ### Repetition -/

/-- A recursive production accepts what it accepts in terms of itself on fewer tokens. -/
theorem gives_fix {F : Parser α → Parser α} {Spec : α → Cursor → List Token → Prop} {f : α → β}
    (hF : ∀ n q, (∀ x c r, c.rest.length < n → Spec x c r → Gives q c r tail fun y => f y = f x) →
      ∀ x c r, c.rest.length < n + 1 → Spec x c r → Gives (F q) c r tail fun y => f y = f x)
    {x : α} (h : Spec x c r) : Gives (fix F) c r tail fun y => f y = f x := by
  have happrox : ∀ n x c r, c.rest.length < n → Spec x c r →
      Gives (approx F n) c r tail fun y => f y = f x := by
    intro n
    induction n with
    | zero => intro x c r hn; omega
    | succ n ih => exact fun x c r hn hx => hF n _ ih x c r hn hx
  exact happrox _ x c r (Nat.lt_succ_self _) h

/-- Items one after the other: each is accepted in front of what may follow it, which is another
item or the end. -/
theorem gives_many {more : Cursor → Bool} {p : Parser α} {tokens : α → List Token} {f : α → β}
    {next : List Token → Prop} {xs : List α} {bound : Nat}
    (hitem : ∀ x ∈ xs, ∀ c r, c.rest.length < bound → c.At (tokens x ++ r) tail → next r →
      more c = true ∧ Gives p c r tail fun y => f y = f x)
    (hnext : ∀ x ∈ xs, tokens x ≠ [] ∧ ∀ r, next (tokens x ++ r))
    (hend : next r) (hstop : ∀ c : Cursor, c.At r tail → more c = false)
    (hbound : c.rest.length < bound) (hc : c.At (xs.flatMap tokens ++ r) tail) :
    Gives (many more p) c r tail fun ys => ys.map f = xs.map f := by
  have happrox : ∀ n (xs : List α) c, c.rest.length < n → c.rest.length < bound →
      (∀ x ∈ xs, ∀ c r, c.rest.length < bound → c.At (tokens x ++ r) tail → next r →
        more c = true ∧ Gives p c r tail fun y => f y = f x) →
      (∀ x ∈ xs, tokens x ≠ [] ∧ ∀ r, next (tokens x ++ r)) →
      c.At (xs.flatMap tokens ++ r) tail →
      Gives (approx (manyOf more p) n) c r tail fun ys => ys.map f = xs.map f := by
    intro n
    induction n with
    | zero => intro xs c hn; omega
    | succ n ih =>
      intro xs c hn hb hitem hnext hc
      cases xs with
      | nil =>
        refine Gives.get (Gives.ite_neg ?_ (Gives.pure hc rfl))
        rw [hstop c hc]
        decide
      | cons x xs =>
        have hrest : next (xs.flatMap tokens ++ r) := by
          cases xs with
          | nil => exact hend
          | cons x' xs =>
            rw [List.flatMap_cons, List.append_assoc]
            exact (hnext x' (List.mem_cons_of_mem _ List.mem_cons_self)).2 _
        rw [List.flatMap_cons, List.append_assoc] at hc
        have hpos := List.length_pos_iff.mpr (hnext x List.mem_cons_self).1
        obtain ⟨hmore, hgives⟩ := hitem x List.mem_cons_self c _ hb hc hrest
        refine Gives.get (Gives.ite_pos hmore (hgives.bind fun y c1 hc1 hy => ?_))
        have hlen := hc.length_le hc1
        refine (ih xs c1 (by omega) (by omega) (fun x' hx' => hitem x' (List.mem_cons_of_mem _ hx'))
          (fun x' hx' => hnext x' (List.mem_cons_of_mem _ hx')) hc1).bind fun ys c2 hc2 hys => ?_
        refine Gives.pure hc2 ?_
        rw [List.map_cons, List.map_cons, hy, hys]
  exact happrox _ xs c (Nat.lt_succ_self _) hbound hitem hnext hc

/-! ### Loops

A loop that collects a value from the left is followed round by round: after each round it stands at
what is left with the value so far, and it still has rounds enough for the tokens ahead. -/

/-- The production goes on as the loop from a value like `a`, in front of `r`. -/
def Reaches (p : Parser α) (c : Cursor) (r : List Token) (tail : Trivia) (more : Cursor → Bool)
    (step : α → Parser α) (f : α → β) (a : α) : Prop :=
  ∃ n b c', c'.rest.length < n ∧ c'.At r tail ∧ f b = f a ∧ p c = repeatUpTo more step n b c'

section

variable {p first : Parser α} {more : Cursor → Bool} {step : α → Parser α} {f : α → β} {a : α}

theorem Reaches.start (h : Gives first c r tail fun y => f y = f a) :
    Reaches (first >>= repeatWhile more step) c r tail more step f a := by
  obtain ⟨b, c', hrun, hat, hb⟩ := h
  refine ⟨c'.rest.length + 1, b, c', Nat.lt_succ_self _, hat, hb, ?_⟩
  have hbind : (first >>= repeatWhile more step) c = repeatWhile more step b c' := by
    show (first c >>= fun x => repeatWhile more step x.1 x.2) = _
    rw [hrun]
    rfl
  exact hbind

theorem Reaches.round {b : α} {r' : List Token} (h : Reaches p c r tail more step f a)
    (hlen : r'.length < r.length) (hmore : ∀ c : Cursor, c.At r tail → more c = true)
    (hstep : ∀ a' c, f a' = f a → c.At r tail → Gives (step a') c r' tail fun y => f y = f b) :
    Reaches p c r' tail more step f b := by
  obtain ⟨n, a', c', hn, hat, ha, hrun⟩ := h
  obtain ⟨b', d, hs, hat', hb⟩ := hstep a' c' ha hat
  cases n with
  | zero => omega
  | succ n =>
    have hlen' : d.rest.length < n := by
      have h1 := hat.length
      have h2 := hat'.length
      omega
    refine ⟨n, b', d, hlen', hat', hb, hrun.trans ?_⟩
    show (if more c' = true then (step a' >>= repeatUpTo more step n) else pure a') c' = _
    rw [if_pos (hmore c' hat)]
    show (step a' c' >>= fun x => repeatUpTo more step n x.1 x.2) = _
    rw [hs]
    rfl

theorem Reaches.done (h : Reaches p c r tail more step f a)
    (hmore : ∀ c : Cursor, c.At r tail → more c = false) :
    Gives p c r tail fun y => f y = f a := by
  obtain ⟨n, b, c', hn, hat, hb, hrun⟩ := h
  refine ⟨b, c', hrun.trans ?_, hat, hb⟩
  cases n with
  | zero => omega
  | succ n =>
    show (if more c' = true then (step b >>= repeatUpTo more step n) else pure b) c' = _
    rw [if_neg (by rw [hmore c' hat]; decide)]
    rfl

end

/-! ### Comma-separated lists -/

/-- What stands behind the first item of a list: commas, each with the item after it. -/
def unpadItems (p : Padded α) : List (Padded α) → List (Trivia × α)
  | [] => []
  | q :: rest => (p.after, q.elem) :: unpadItems q rest

theorem padItems_unpadItems {P : α → Prop} {p : Padded α} {rest : List (Padded α)}
    (h : ItemsOk P (p :: rest)) : padItems p.elem (unpadItems p rest) = p :: rest := by
  induction rest generalizing p with
  | nil =>
    obtain ⟨elem, after⟩ := p
    obtain ⟨_, rfl⟩ := h
    rfl
  | cons q rest ih => rw [unpadItems, padItems, ih h.2]

theorem itemsOk_iff {P : α → Prop} {ps : List (Padded α)} :
    ItemsOk P ps ↔ (∀ p ∈ ps, P p.elem) ∧ ItemsOk (fun _ => True) ps := by
  induction ps with
  | nil => simp [ItemsOk]
  | cons p rest ih =>
    cases rest with
    | nil => simp [ItemsOk]
    | cons q rest =>
      simp only [ItemsOk, ih, List.mem_cons, forall_eq_or_imp, true_and]
      exact and_assoc.symm

theorem mem_of_mem_unpadItems {p : Padded α} {rest : List (Padded α)} {m : Trivia × α}
    (h : m ∈ unpadItems p rest) : ∃ q ∈ rest, q.elem = m.2 := by
  induction rest generalizing p with
  | nil => cases h
  | cons q rest ih =>
    rw [unpadItems] at h
    rcases List.mem_cons.mp h with rfl | h
    · exact ⟨q, List.mem_cons_self, rfl⟩
    · obtain ⟨q', hq', he⟩ := ih h
      exact ⟨q', List.mem_cons_of_mem _ hq', he⟩

theorem map_padItems {f : α → β} {a b : α} {ms ns : List (Trivia × α)} (h : f a = f b)
    (hmap : ms.map (fun m => (m.1, f m.2)) = ns.map fun m => (m.1, f m.2)) :
    (padItems a ms).map (Padded.map f) = (padItems b ns).map (Padded.map f) := by
  induction ms generalizing a b ns with
  | nil =>
    rw [List.map_nil, eq_comm, List.map_eq_nil_iff] at hmap
    subst hmap
    simp [padItems, Padded.map, h]
  | cons m ms ih =>
    cases ns with
    | nil => cases hmap
    | cons n ns =>
      simp only [List.map_cons, List.cons.injEq, Prod.mk.injEq] at hmap
      obtain ⟨⟨h1, h2⟩, hrest⟩ := hmap
      obtain ⟨ma, mb⟩ := m
      obtain ⟨na, nb⟩ := n
      simp only at h1 h2
      subst h1
      rw [padItems, padItems, List.map_cons, List.map_cons, ih h2 hrest]
      simp [Padded.map, h]

theorem gives_separated {item : Parser α} {tokens : α → List Token} {f : α → β}
    {next : List Token → Prop} {ps : List (Padded α)} {bound : Nat}
    (hitem : ∀ p ∈ ps, ∀ c r, c.rest.length < bound → c.At (tokens p.elem ++ r) tail → next r →
      Gives item c r tail fun y => f y = f p.elem)
    (hcomma : ∀ after r, next (.symbol after "," :: r)) (hend : next r)
    (hstop : headIs r "," = false) (hne : ps ≠ []) (hlast : ItemsOk (fun _ => True) ps)
    (hbound : c.rest.length < bound) (hc : c.At (itemTokens tokens ps ++ r) tail) :
    Gives (separated item) c r tail fun qs => qs.map (Padded.map f) = ps.map (Padded.map f) := by
  cases ps with
  | nil => exact absurd rfl hne
  | cons p rest =>
    have hpad := padItems_unpadItems hlast
    rw [← hpad, itemTokens_padItems, List.append_assoc] at hc
    have hrest : next ((unpadItems p rest).flatMap (fun m => .symbol m.1 "," :: tokens m.2) ++ r) := by
      cases rest with
      | nil => exact hend
      | cons q rest =>
        rw [unpadItems, List.flatMap_cons]
        exact hcomma _ _
    refine (hitem p List.mem_cons_self c _ hbound hc hrest).bind fun first c1 hc1 hfirst => ?_
    have hlen := hc.length_le hc1
    have hone : ∀ m ∈ unpadItems p rest, ∀ c r, c.rest.length < bound →
        c.At ((.symbol m.1 "," :: tokens m.2) ++ r) tail → next r →
        c.isAt "," = true ∧
          Gives (do let comma ← bump; return (comma.lead, ← item)) c r tail fun y =>
            (y.1, f y.2) = (m.1, f m.2) := by
      intro m hm c r hb hc hr
      obtain ⟨q, hq, hqm⟩ := mem_of_mem_unpadItems hm
      refine ⟨by rw [hc.isAt (by decide)]; simp, ?_⟩
      refine (gives_bump hc).bind fun t c2 hc2 ht => ?_
      have hlen2 := hc.length_cons hc2
      rw [← hqm] at hc2 ⊢
      refine (hitem q (List.mem_cons_of_mem _ hq) c2 r (by omega) hc2 hr).bind fun y c3 hc3 hy => ?_
      refine Gives.pure hc3 ?_
      have hlead := congrArg Token.lead ht
      rw [Prod.mk.injEq]
      exact ⟨hlead, hy⟩
    refine (gives_many hone (fun m _ => ⟨by simp, fun r => hcomma _ _⟩) hend (fun c hc => ?_)
      (by omega) hc1).bind fun ms c2 hc2 hms => Gives.pure hc2 ?_
    · rw [hc.isAt (by decide)]
      exact hstop
    · rw [← hpad]
      exact map_padItems hfirst hms

theorem gives_listing {opening closing : String} {item : Parser α} {tokens : α → List Token}
    {f : α → β} {next : List Token → Prop} {l : Listing α} {bound : Nat} (ho : opening ≠ "")
    (hcl : closing ≠ "") (hcomma' : closing ≠ ",")
    (hitem : ∀ p ∈ l.items, ∀ c r, c.rest.length + 1 < bound → c.At (tokens p.elem ++ r) tail →
      next r → Gives item c r tail fun y => f y = f p.elem)
    (hhead : ∀ p ∈ l.items, tokens p.elem ≠ [] ∧ headIs (tokens p.elem) closing = false)
    (hcomma : ∀ after r, next (.symbol after "," :: r))
    (hclose : ∀ after r, next (.symbol after closing :: r))
    (hlast : ItemsOk (fun _ => True) l.items) (hbound : c.rest.length < bound)
    (hc : c.At (l.tokens opening closing tokens ++ r) tail) :
    Gives (listing opening closing item) c r tail fun l' =>
      l'.lead = l.lead ∧ l'.items.map (Padded.map f) = l.items.map (Padded.map f)
        ∧ l'.close = l.close := by
  obtain ⟨lead, items, close⟩ := l
  have hc0 : c.At (.symbol lead opening :: (itemTokens tokens items
      ++ (.symbol close closing :: r))) tail := by
    simpa [Listing.tokens] using hc
  refine (gives_expect ho hc0).bind fun lead' c1 hc1 hlead => Gives.get ?_
  have hlen := hc0.length_cons hc1
  have hdone : ∀ qs c2, c2.At (.symbol close closing :: r) tail →
      qs.map (Padded.map f) = items.map (Padded.map f) →
      Gives (do let close ← expect closing; return (⟨lead', qs, close⟩ : Listing α)) c2 r tail
        fun l' => l'.lead = lead ∧ l'.items.map (Padded.map f) = items.map (Padded.map f)
          ∧ l'.close = close := by
    intro qs c2 hc2 hqs
    exact (gives_expect hcl hc2).bind fun close' c3 hc3 hclose' =>
      Gives.pure hc3 ⟨hlead, hqs, hclose'⟩
  cases items with
  | nil =>
    refine Gives.ite_pos ?_ (Gives.bind (Gives.pure hc1 ?_) hdone)
    · rw [hc1.isAt hcl]
      simp [itemTokens]
    · rfl
  | cons p rest =>
    have hp := hhead p List.mem_cons_self
    have hfirst : headIs (itemTokens tokens (p :: rest) ++ .symbol close closing :: r) closing
        = false := by
      cases rest with
      | nil => rw [itemTokens, headIs_append _ _ hp.1, hp.2]
      | cons q rest => rw [itemTokens, List.append_assoc, headIs_append _ _ hp.1, hp.2]
    refine Gives.ite_neg (by rw [hc1.isAt hcl, hfirst]; decide) (Gives.bind ?_ hdone)
    exact gives_separated (fun q hq c r hb => hitem q hq c r (by omega)) hcomma (hclose _ _)
      (by simpa using hcomma') (by simp) hlast (Nat.lt_succ_self _) hc1

end Parser

end Migration
