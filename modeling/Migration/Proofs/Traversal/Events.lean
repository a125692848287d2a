import Migration.Proofs.Traversal.Walk

/-!
# Watching a walk

What a walk tells its visitor, and in which order, is not seen in its result. So the visitor is wrapped:
`Visitor.logged` answers as before and lists every call beside the state, which has no influence on
the walk. The calls of a walk over outlines then have one of two shapes. Either the walk came to its end,
and every node that was entered was left again after what is below it (`Completes`). Or it was stopped, and
the nodes that were open then were never left (`Stops`).

Main result: `walk_events`. A walk that is nowhere stopped nor told to skip enters the nodes in preorder
(`Completes.entered_eq`).
-/

namespace Migration

/-- A call that a walk made to its visitor. -/
inductive VisitEvent where
  | enter (node : Node) (answer : Visit)
  | leave (node : Node)

/-- The node that was entered. -/
def VisitEvent.entered? : VisitEvent → Option Node
  | .enter n _ => some n
  | .leave _ => none

/-- The same visitor, with a list of all calls in their order. -/
def Visitor.logged {σ : Type} (v : Visitor σ) : Visitor (σ × List VisitEvent) where
  enter n s := ((v.enter n s.1).1, (v.enter n s.1).2, s.2 ++ [.enter n (v.enter n s.1).1])
  leave n s := (v.leave n s.1, s.2 ++ [.leave n])

namespace Outline

/-! ### The shapes of calls -/

/-- The calls of a walk over all of the outlines. Each node is left once: after the calls for what is below
it, or at once when that is skipped. -/
inductive Completes : List Outline → List VisitEvent → Prop
  | nil : Completes [] []
  | skip {n : Node} {below os : List Outline} {events : List VisitEvent} :
      Completes os events → Completes (.node n below :: os) (.enter n .skip :: .leave n :: events)
  | descend {n : Node} {below os : List Outline} {inner events : List VisitEvent} :
      Completes below inner → Completes os events →
      Completes (.node n below :: os) (.enter n .descend :: (inner ++ .leave n :: events))

/-- The calls of a walk over the outlines that was stopped inside the given nodes, the outermost first.
They end with the call that stopped the walk, and none of these nodes is left. -/
inductive Stops : List Outline → List Node → List VisitEvent → Prop
  | here {n : Node} {below os : List Outline} : Stops (.node n below :: os) [] [.enter n .stop]
  | inside {n : Node} {below os : List Outline} {nodes : List Node} {inner : List VisitEvent} :
      Stops below nodes inner → Stops (.node n below :: os) (n :: nodes) (.enter n .descend :: inner)
  | after {o : Outline} {os : List Outline} {nodes : List Node} {first events : List VisitEvent} :
      Completes [o] first → Stops os nodes events → Stops (o :: os) nodes (first ++ events)

variable {o : Outline} {os : List Outline} {events : List VisitEvent}

theorem Completes.cons {first : List VisitEvent} (ho : Completes [o] first)
    (hos : Completes os events) : Completes (o :: os) (first ++ events) := by
  cases ho with
  | skip hnil =>
    cases hnil
    exact .skip hos
  | @descend n below _ inner _ hbelow hnil =>
    cases hnil
    have hsplit : VisitEvent.enter n .descend :: (inner ++ [.leave n]) ++ events
        = .enter n .descend :: (inner ++ .leave n :: events) := by simp
    rw [hsplit]
    exact .descend hbelow hos

theorem Stops.cons {nodes : List Node} (h : Stops [o] nodes events) (os : List Outline) :
    Stops (o :: os) nodes events := by
  cases h with
  | here => exact .here
  | inside hbelow => exact .inside hbelow
  | after _ hnil => cases hnil

/-- A walk that came to its end was not stopped. -/
theorem Completes.not_stop (h : Completes os events) (n : Node) : .enter n .stop ∉ events := by
  induction h with
  | nil => simp
  | skip _ ih => simpa using ih
  | descend _ _ ihbelow ih => simp [ihbelow, ih]

/-- The call that stops a walk is the last one, and no other does. -/
theorem Stops.exists_last {nodes : List Node} (h : Stops os nodes events) :
    ∃ before n, events = before ++ [.enter n .stop] ∧ ∀ k, .enter k .stop ∉ before := by
  induction h with
  | @here n => exact ⟨[], n, rfl, fun _ => List.not_mem_nil⟩
  | @inside n _ _ _ _ _ ih =>
    obtain ⟨before, last, rfl, hbefore⟩ := ih
    exact ⟨.enter n .descend :: before, last, rfl, fun k hk => by simp [hbefore k] at hk⟩
  | @after _ _ _ first _ hfirst _ ih =>
    obtain ⟨before, last, rfl, hbefore⟩ := ih
    refine ⟨first ++ before, last, (List.append_assoc _ _ _).symm, fun k hk => ?_⟩
    rcases List.mem_append.mp hk with hk | hk
    · exact hfirst.not_stop k hk
    · exact hbefore k hk

/-- Where nothing is skipped, all nodes are entered, each before those below it. -/
theorem Completes.entered_eq (h : Completes os events) (hskip : ∀ n, .enter n .skip ∉ events) :
    events.filterMap VisitEvent.entered? = preorderAll os := by
  induction h with
  | nil => rfl
  | @skip n _ _ _ _ _ => exact absurd List.mem_cons_self (hskip n)
  | @descend n below os inner events _ _ ihbelow ih =>
    have hinner : ∀ k, .enter k .skip ∉ inner := fun k hk => hskip k (by simp [hk])
    have hevents : ∀ k, .enter k .skip ∉ events := fun k hk => hskip k (by simp [hk])
    rw [preorderAll, preorder, ← ihbelow hinner, ← ih hevents]
    simp [List.filterMap_cons, VisitEvent.entered?]

/-! ### The calls of a walk -/

/-- The calls fit the result of a walk over the outlines: they are complete when it came to its end, and
stop when it did not. -/
def Accounts (os : List Outline) (finished : Bool) (events : List VisitEvent) : Prop :=
  if finished then Completes os events else ∃ nodes, Stops os nodes events

/-- The answers in the list are those of the visitor. -/
def Answers {σ : Type} (v : Visitor σ) (events : List VisitEvent) : Prop :=
  ∀ n answer, .enter n answer ∈ events → ∃ s, (v.enter n s).1 = answer

section Walk

variable {σ : Type} (v : Visitor σ)

mutual

theorem walk_logged : (o : Outline) → (s : σ) → (log : List VisitEvent) →
    ∃ events, o.walk v.logged (s, log) = ((o.walk v s).1, (o.walk v s).2, log ++ events)
      ∧ Accounts [o] (o.walk v s).1 events ∧ Answers v events
  | .node n below, s, log => by
    rw [walk, walk]
    cases henter : v.enter n s with
    | mk answer s₁ =>
      have hlogged : v.logged.enter n (s, log) = (answer, s₁, log ++ [.enter n answer]) := by
        simp only [Visitor.logged, henter]
      have hanswer : ∃ s, (v.enter n s).1 = answer := ⟨s, by rw [henter]⟩
      rw [hlogged]
      cases answer with
      | stop =>
        refine ⟨[.enter n .stop], rfl, ⟨[], .here⟩, fun k a hk => ?_⟩
        cases List.mem_singleton.mp hk
        exact hanswer
      | skip =>
        refine ⟨[.enter n .skip, .leave n], ?_, .skip .nil, fun k a hk => ?_⟩
        · simp [Visitor.logged]
        · simp only [List.mem_cons, VisitEvent.enter.injEq, reduceCtorEq, List.not_mem_nil,
            or_false] at hk
          obtain ⟨rfl, rfl⟩ := hk
          exact hanswer
      | descend =>
        obtain ⟨inner, hwalk, haccounts, hanswers⟩ :=
          walkAll_logged below s₁ (log ++ [.enter n .descend])
        cases hbelow : walkAll v below s₁ with
        | mk finished s₂ =>
          rw [hbelow] at hwalk haccounts
          simp only [hwalk, hbelow]
          cases finished with
          | false =>
            obtain ⟨nodes, hstops⟩ := haccounts
            refine ⟨.enter n .descend :: inner, by simp, ⟨n :: nodes, .inside hstops⟩,
              fun k a hk => ?_⟩
            rcases List.mem_cons.mp hk with hk | hk
            · cases hk
              exact hanswer
            · exact hanswers k a hk
          | true =>
            have hshape : Completes [.node n below] (.enter n .descend :: (inner ++ [.leave n])) :=
              .descend haccounts .nil
            refine ⟨_, by simp [Visitor.logged], hshape, fun k a hk => ?_⟩
            rcases List.mem_cons.mp hk with hk | hk
            · cases hk
              exact hanswer
            · exact hanswers k a (by simpa using hk)

theorem walkAll_logged : (os : List Outline) → (s : σ) → (log : List VisitEvent) →
    ∃ events, walkAll v.logged os (s, log) = ((walkAll v os s).1, (walkAll v os s).2, log ++ events)
      ∧ Accounts os (walkAll v os s).1 events ∧ Answers v events
  | [], s, log => ⟨[], by simp [walkAll], .nil, fun _ _ hk => nomatch hk⟩
  | o :: os, s, log => by
    obtain ⟨first, hwalk, haccounts, hanswers⟩ := walk_logged o s log
    rw [walkAll, walkAll]
    cases ho : o.walk v s with
    | mk finished s₁ =>
      rw [ho] at hwalk haccounts
      simp only [hwalk]
      cases finished with
      | false =>
        obtain ⟨nodes, hstops⟩ := haccounts
        exact ⟨first, rfl, ⟨nodes, hstops.cons os⟩, hanswers⟩
      | true =>
        obtain ⟨events, hrest, hshape, hanswers'⟩ := walkAll_logged os s₁ (log ++ first)
        refine ⟨first ++ events, by simp [hrest], ?_, fun k a hk => ?_⟩
        · cases hfinished : (walkAll v os s₁).1 with
          | false =>
            rw [hfinished] at hshape
            obtain ⟨nodes, hstops⟩ := hshape
            exact ⟨nodes, .after haccounts hstops⟩
          | true =>
            rw [hfinished] at hshape
            exact Completes.cons haccounts hshape
        · rcases List.mem_append.mp hk with hk | hk
          · exact hanswers k a hk
          · exact hanswers' k a hk

end

end Walk

end Outline

open Outline (Completes Stops)

/-- **The calls that a walk makes to its visitor.** The list of calls has no influence on the walk. When
no answer was to stop, the walk comes to its end, and every node that was entered was left once, after
the calls for what is below it, or at once when that was skipped. When some answer was to stop, the walk
does not come to its end, that call is the last one of all and the only one with this answer, and the
nodes around it are not left. -/
theorem walk_events {σ : Type} (v : Visitor σ) (m : Module) (s : σ) :
    ∃ finished s' events, m.walk v.logged (s, []) = (finished, s', events)
      ∧ m.walk v s = (finished, s')
      ∧ ((∀ n, .enter n .stop ∉ events) → finished = true ∧ Completes [m.outline] events)
      ∧ ∀ n, .enter n .stop ∈ events → finished = false ∧ (∃ nodes, Stops [m.outline] nodes events)
        ∧ ∃ before, events = before ++ [.enter n .stop] ∧ ∀ k, .enter k .stop ∉ before := by
  obtain ⟨events, hwalk, haccounts, _⟩ := m.outline.walk_logged v s []
  refine ⟨_, _, events, hwalk, rfl, ?_⟩
  cases hfinished : (m.outline.walk v s).1 with
  | true =>
    rw [hfinished] at haccounts
    exact ⟨fun _ => ⟨rfl, haccounts⟩, fun n hn => absurd hn (Completes.not_stop haccounts n)⟩
  | false =>
    rw [hfinished] at haccounts
    obtain ⟨nodes, hstops⟩ := haccounts
    obtain ⟨before, last, rfl, hbefore⟩ := hstops.exists_last
    refine ⟨fun hnone => absurd (List.mem_append_right _ List.mem_cons_self) (hnone last),
      fun n hn => ⟨rfl, ⟨nodes, hstops⟩, before, ?_, hbefore⟩⟩
    rcases List.mem_append.mp hn with hn | hn
    · exact absurd hn (hbefore n)
    · rw [List.mem_singleton.mp hn]

end Migration
