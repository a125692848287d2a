import Mathlib.Data.List.TakeWhile
import Migration.Proofs.Token.Bytes
import Migration.Proofs.Token.Scanning

/-!
# Trivia piece by piece

The scanner reads trivia character by character, and keeps in mind whether it stands in a comment. Piece by
piece it comes to the same: blanks, a comment up to the end of its line (`trivia_line`), a comment through the
first `*/` in it (`trivia_block`), and again. So trivia are nothing but such pieces (`isTrivia_of_trivia`),
and a comment that runs up to the end of the text can only be the last of them.
-/

namespace Migration

namespace Scan

variable {offset : Nat} {cs : List Char}

/-- What was read, with more in front of it. -/
def behind (front : List Char) (x : List Char × List Char) : List Char × List Char := (front ++ x.1, x.2)

theorem map_behind (front back : List Char) (x : Except ParseError (List Char × List Char)) :
    (x.map (behind back)).map (behind front) = x.map (behind (front ++ back)) := by
  cases x with
  | error e => rfl
  | ok x => simp [Except.map, behind]

/-! ### Pieces -/

theorem trivia_blank {c : Char} (h : isBlank c = true) (offset : Nat) (cs : List Char) :
    trivia .between offset (c :: cs) = (trivia .between (offset + c.utf8Size) cs).map (behind [c]) := by
  have hslash : c ≠ '/' := by rintro rfl; revert h; decide
  rw [trivia.eq_3 _ _ _ (fun _ h => absurd h hslash) (fun _ h => absurd h hslash), if_pos h]
  rfl

theorem trivia_blanks (offset : Nat) (cs : List Char) : trivia .between offset cs =
    (trivia .between (offset + byteLength (cs.takeWhile isBlank)) (cs.dropWhile isBlank)).map
      (behind (cs.takeWhile isBlank)) := by
  induction cs generalizing offset with
  | nil => rfl
  | cons c cs ih =>
    cases h : isBlank c with
    | false =>
      rw [List.takeWhile_cons_of_neg (by simp [h]), List.dropWhile_cons_of_neg (by simp [h])]
      cases hrest : trivia .between offset (c :: cs) <;> simp [byteLength, hrest, Except.map, behind]
    | true =>
      rw [List.takeWhile_cons_of_pos h, List.dropWhile_cons_of_pos h, trivia_blank h, ih, map_behind]
      rw [Nat.add_assoc]
      rfl

/-- A comment up to the end of its line. -/
theorem trivia_line (offset : Nat) (cs : List Char) : trivia .lineComment offset cs =
    (trivia .between (offset + byteLength (cs.takeWhile (· != '\n'))) (cs.dropWhile (· != '\n'))).map
      (behind (cs.takeWhile (· != '\n'))) := by
  induction cs generalizing offset with
  | nil => rfl
  | cons c cs ih =>
    by_cases h : c = '\n'
    · subst h
      rw [List.takeWhile_cons_of_neg (by simp), List.dropWhile_cons_of_neg (by simp), trivia_blank rfl,
        trivia.eq_4, if_pos (by rfl), map_behind]
      rfl
    · rw [List.takeWhile_cons_of_pos (by simpa using h), List.dropWhile_cons_of_pos (by simpa using h),
        trivia.eq_4, if_neg (by simpa using h), ih]
      change Except.map (behind [c]) _ = _
      rw [map_behind, Nat.add_assoc]
      rfl

/-- The characters in front of the first `*/`, and those behind it. -/
def blockEnd? : List Char → Option (List Char × List Char)
  | '*' :: '/' :: cs => some ([], cs)
  | c :: cs => (blockEnd? cs).map fun x => (c :: x.1, x.2)
  | [] => none

theorem blockEnd?_eq_some {cs body rest : List Char} (h : blockEnd? cs = some (body, rest)) :
    cs = body ++ '*' :: '/' :: rest ∧ ¬ ['*', '/'] <:+: body ++ ['*'] := by
  fun_induction blockEnd? cs generalizing body rest with
  | case1 cs =>
    cases h
    exact ⟨rfl, by decide⟩
  | case2 c cs hno ih =>
    obtain ⟨⟨body', rest'⟩, h1, h2⟩ := Option.map_eq_some_iff.mp h
    cases h2
    obtain ⟨rfl, hbody⟩ := ih h1
    refine ⟨rfl, fun hin => ?_⟩
    -- an end that starts here would have been found
    rcases List.infix_cons_iff.mp hin with ⟨t, ht⟩ | hin
    · cases body' with
      | nil => cases ht
      | cons d ds =>
        obtain rfl : '*' = c := (List.cons.inj ht).1
        obtain rfl : '/' = d := (List.cons.inj (List.cons.inj ht).2).1
        exact hno _ rfl rfl
    · exact hbody hin
  | case3 => cases h

/-- A comment through the first `*/` in it, or one that never ends. -/
theorem trivia_block (start offset : Nat) (cs : List Char) : trivia (.blockComment start) offset cs =
    match blockEnd? cs with
    | some (body, rest) =>
      (trivia .between (offset + byteLength body + 2) rest).map (behind (body ++ ['*', '/']))
    | none => .error (.unterminated .comment start) := by
  fun_induction blockEnd? cs generalizing offset with
  | case1 cs =>
    rw [trivia.eq_5]
    rfl
  | case2 c cs hno ih =>
    rw [trivia.eq_6 _ _ _ _ hno, ih]
    cases h : blockEnd? cs with
    | none => rfl
    | some x =>
      change Except.map (behind [c]) _ = _
      rw [map_behind]
      have hoffset : offset + c.utf8Size + byteLength x.1 + 2 = offset + byteLength (c :: x.1) + 2 := by
        show _ = offset + (c.utf8Size + byteLength x.1) + 2
        omega
      rw [hoffset]
      rfl
  | case3 => rw [trivia.eq_7]

/-- Trivia that start with a comment up to the end of its line. -/
theorem trivia_lineComment (offset : Nat) (cs : List Char) : trivia .between offset ('/' :: '/' :: cs) =
    (trivia .between (offset + byteLength ('/' :: '/' :: cs.takeWhile (· != '\n')))
      (cs.dropWhile (· != '\n'))).map (behind ('/' :: '/' :: cs.takeWhile (· != '\n'))) := by
  have hopening : byteLength ['/', '/'] = 2 := by decide
  have hlength : offset + byteLength ('/' :: '/' :: cs.takeWhile (· != '\n'))
      = offset + 2 + byteLength (cs.takeWhile (· != '\n')) := by
    rw [← hopening, Nat.add_assoc, ← byteLength_append]
    rfl
  rw [hlength, trivia.eq_1, trivia_line]
  exact map_behind ['/', '/'] _ _

/-- Trivia that start with a comment through the first `*/`. -/
theorem trivia_blockComment (offset : Nat) (cs : List Char) : trivia .between offset ('/' :: '*' :: cs) =
    match blockEnd? cs with
    | some (body, rest) =>
      (trivia .between (offset + byteLength (['/', '*'] ++ body ++ ['*', '/'])) rest).map
        (behind (['/', '*'] ++ body ++ ['*', '/']))
    | none => .error (.unterminated .comment offset) := by
  rw [trivia.eq_2, trivia_block]
  cases blockEnd? cs with
  | none => rfl
  | some x =>
    obtain ⟨body, rest⟩ := x
    have hopening : byteLength ['/', '*'] = 2 := by decide
    have hclosing : byteLength ['*', '/'] = 2 := by decide
    have hlength : offset + byteLength (['/', '*'] ++ body ++ ['*', '/'])
        = offset + 2 + byteLength body + 2 := by
      rw [byteLength_append, byteLength_append]
      omega
    dsimp only
    rw [hlength, List.append_assoc]
    exact map_behind ['/', '*'] (body ++ ['*', '/']) _

/-- Where no trivia start there are none. -/
theorem trivia_of_end (offset : Nat) (h : startsTrivia cs = false) : trivia .between offset cs = .ok ([], cs) := by
  by_cases hne : cs = []
  · subst hne
    rfl
  · exact trivia_of_not_startsTrivia h hne offset

/-! ### Trivia -/

/-- **Trivia**: blanks, comments in `/*` and `*/`, each of which ends at the first `*/` in it, and comments
behind `//`, each of which runs up to a line feed, the last one perhaps to the end of the text. -/
inductive IsTrivia (last : Bool) : List Char → Prop
  | nil : IsTrivia last []
  | blank {c : Char} {cs : List Char} : isBlank c = true → IsTrivia last cs → IsTrivia last (c :: cs)
  | block {body cs : List Char} : ¬ ['*', '/'] <:+: body ++ ['*'] → IsTrivia last cs →
      IsTrivia last (['/', '*'] ++ body ++ ['*', '/'] ++ cs)
  | line {body cs : List Char} : '\n' ∉ body → IsTrivia last ('\n' :: cs) →
      IsTrivia last (['/', '/'] ++ body ++ '\n' :: cs)
  | lastLine {body : List Char} : '\n' ∉ body → last = true → IsTrivia last (['/', '/'] ++ body)

theorem IsTrivia.blanks {last : Bool} {bs cs : List Char} (hbs : ∀ b ∈ bs, isBlank b = true)
    (h : IsTrivia last cs) : IsTrivia last (bs ++ cs) := by
  induction bs with
  | nil => exact h
  | cons b bs ih =>
    obtain ⟨hb, hrest⟩ := List.forall_mem_cons.mp hbs
    exact .blank hb (ih hrest)

/-- Behind blanks a comment starts, or the trivia end. -/
theorem dropBlanks_cases (cs : List Char) : (∃ rest, cs.dropWhile isBlank = '/' :: '/' :: rest) ∨
    (∃ rest, cs.dropWhile isBlank = '/' :: '*' :: rest) ∨ startsTrivia (cs.dropWhile isBlank) = false := by
  have hhead : ∀ c ∈ (cs.dropWhile isBlank).head?, isBlank c = false := by
    intro c hc
    have hnot := List.head?_dropWhile_not isBlank cs
    rw [hc] at hnot
    simpa using hnot
  generalize cs.dropWhile isBlank = ds at hhead
  unfold startsTrivia
  split
  · exact .inl ⟨_, rfl⟩
  · exact .inr (.inl ⟨_, rfl⟩)
  · exact .inr (.inr (hhead _ rfl))
  · exact .inr (.inr rfl)

theorem map_behind_eq_ok {front : List Char} {x : Except ParseError (List Char × List Char)}
    {t r : List Char} (h : x.map (behind front) = .ok (t, r)) : ∃ t', x = .ok (t', r) ∧ t = front ++ t' := by
  cases x with
  | error e => cases h
  | ok x =>
    cases h
    exact ⟨x.1, rfl, rfl⟩

/-- **What the scanner takes as trivia are trivia**, and a comment that does not end is only there at the end
of the text. -/
theorem isTrivia_of_trivia {t r : List Char} (h : trivia .between offset cs = .ok (t, r)) :
    IsTrivia r.isEmpty t := by
  induction hn : cs.length using Nat.strong_induction_on generalizing offset cs t with
  | _ n ih =>
    subst hn
    rw [trivia_blanks] at h
    obtain ⟨t, hds, rfl⟩ := map_behind_eq_ok h
    have hlength : (cs.dropWhile isBlank).length ≤ cs.length := (List.dropWhile_sublist _).length_le
    refine .blanks (fun b hb => List.mem_takeWhile_imp hb) ?_
    rcases dropBlanks_cases cs with ⟨rest, hcomment⟩ | ⟨rest, hcomment⟩ | hend
    · rw [hcomment, trivia_lineComment] at hds
      obtain ⟨u, hrest, rfl⟩ := map_behind_eq_ok hds
      have hbody : '\n' ∉ rest.takeWhile (· != '\n') := fun hmem => by simpa using List.mem_takeWhile_imp hmem
      have hshorter : (rest.dropWhile (· != '\n')).length < cs.length := by
        have hsub := (List.dropWhile_sublist (· != '\n') (l := rest)).length_le
        rw [hcomment, List.length_cons, List.length_cons] at hlength
        omega
      have htail := ih _ hshorter hrest rfl
      have hhead := List.head?_dropWhile_not (· != '\n') rest
      cases hline : rest.dropWhile (· != '\n') with
      | nil =>
        rw [hline] at hrest
        cases hrest
        rw [List.append_nil]
        exact .lastLine hbody rfl
      | cons c more =>
        rw [hline] at hhead hrest
        obtain rfl : c = '\n' := by simpa using hhead
        rw [trivia_blank rfl] at hrest
        obtain ⟨v, _, rfl⟩ := map_behind_eq_ok hrest
        exact .line hbody htail
    · rw [hcomment, trivia_blockComment] at hds
      cases hclose : blockEnd? rest with
      | none =>
        rw [hclose] at hds
        cases hds
      | some x =>
        rw [hclose] at hds
        obtain ⟨u, hrest, rfl⟩ := map_behind_eq_ok hds
        obtain ⟨hrows, hbody⟩ := blockEnd?_eq_some hclose
        have hshorter : x.2.length < cs.length := by
          rw [hcomment, hrows] at hlength
          simp only [List.length_cons, List.length_append] at hlength
          omega
        exact .block hbody (ih _ hshorter hrest rfl)
    · rw [trivia_of_end _ hend] at hds
      cases hds
      exact .nil

end Scan

end Migration
