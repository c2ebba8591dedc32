import Cascade.Proofs.Document.Relation
import Cascade.Proofs.Rule.Merging
/-!
What it means that a path of qualifiers selects an element, and that the matcher decides it.

A path selects an element if its qualifiers can be given elements, the last one that element, so
that each qualifier holds and each combinator relates two neighbours. The matcher gives up early:
an outcome other than a match is a statement about elements that were not tried.
-/
namespace Cascade.Document

/-- Elements in the places of the qualifiers of a path, from left to right. -/
structure Placed (d : Document) (path : List Qualifier) (places : List ElementId) : Prop where
  length : places.length = path.length
  satisfied : ∀ (i : Nat) (q : Qualifier) (e : ElementId),
    path[i]? = some q → places[i]? = some e → d.satisfies q e = true
  related : ∀ (i : Nat) (q : Qualifier) (x e : ElementId),
    path[i + 1]? = some q → places[i]? = some x → places[i + 1]? = some e →
      d.Relates q.combinator x e

/-- The path selects the element: it can be placed with the element last. -/
def Selected (d : Document) (path : List Qualifier) (e : ElementId) : Prop :=
  ∃ places, d.Placed path places ∧ places.getLast? = some e

/-- The same from the end of the path, one qualifier at a time. -/
def Fits (d : Document) : List Qualifier → ElementId → Prop
  | [], _ => True
  | q :: before, e => d.satisfies q e = true ∧
      (before = [] ∨ ∃ x, d.Relates q.combinator x e ∧ Fits d before x)

-- What stands in a list with an element at the end stands in the list, or it is that element.
theorem getElem?_concat_eq_some {α : Type} {xs : List α} {x y : α} {i : Nat} :
    (xs ++ [x])[i]? = some y ↔ xs[i]? = some y ∨ i = xs.length ∧ y = x := by
  rcases Nat.lt_trichotomy i xs.length with inside | rfl | beyond
  · simp [List.getElem?_append_left inside, Nat.ne_of_lt inside]
  · simp [eq_comm]
  · have outside : (xs ++ [x])[i]? = none := by simpa using Nat.succ_le_of_lt beyond
    simp [outside, List.getElem?_eq_none (Nat.le_of_lt beyond), Nat.ne_of_gt beyond]

theorem placed_append {d : Document} {path : List Qualifier} {places : List ElementId}
    {q : Qualifier} {e : ElementId} :
    d.Placed (path ++ [q]) (places ++ [e]) ↔ d.Placed path places ∧ d.satisfies q e = true ∧
      ∀ x, places.getLast? = some x → d.Relates q.combinator x e := by
  constructor
  · intro placed
    have same : places.length = path.length := by simpa using placed.length
    have old {α : Type} {xs : List α} {x y : α} {i : Nat} (there : xs[i]? = some y) :
        (xs ++ [x])[i]? = some y := getElem?_concat_eq_some.mpr (.inl there)
    refine ⟨⟨same, ?_, ?_⟩, ?_, ?_⟩
    · intro i r a hr ha
      exact placed.satisfied i r a (old hr) (old ha)
    · intro i r x a hr hx ha
      exact placed.related i r x a (old hr) (old hx) (old ha)
    · exact placed.satisfied path.length q e (by simp) (by simp [← same])
    · intro x last
      rw [List.getLast?_eq_getElem?] at last
      have back : places.length - 1 + 1 = path.length := by
        obtain ⟨bound, -⟩ := List.getElem?_eq_some_iff.mp last
        omega
      exact placed.related (places.length - 1) q x e (by simp [back]) (old last)
        (by simp [back, ← same])
  · rintro ⟨placed, holds, relates⟩
    have same := placed.length
    refine ⟨by simp [same], ?_, ?_⟩
    · intro i r a hr ha
      rcases getElem?_concat_eq_some.mp hr with qualifier | ⟨last, rfl⟩
      · obtain ⟨inside, -⟩ := List.getElem?_eq_some_iff.mp qualifier
        rcases getElem?_concat_eq_some.mp ha with place | ⟨last, -⟩
        · exact placed.satisfied i r a qualifier place
        · omega
      · rcases getElem?_concat_eq_some.mp ha with place | ⟨-, rfl⟩
        · obtain ⟨inside, -⟩ := List.getElem?_eq_some_iff.mp place
          omega
        · exact holds
    · -- Only the last qualifier has its left neighbour at the end of the old places.
      intro i r x a hr hx ha
      rcases getElem?_concat_eq_some.mp hx with neighbour | ⟨last, -⟩
      case inr =>
        obtain ⟨inside, -⟩ := List.getElem?_eq_some_iff.mp hr
        rw [List.length_append, List.length_singleton] at inside
        omega
      rcases getElem?_concat_eq_some.mp hr with qualifier | ⟨last, rfl⟩
      · obtain ⟨inside, -⟩ := List.getElem?_eq_some_iff.mp qualifier
        rcases getElem?_concat_eq_some.mp ha with place | ⟨last, -⟩
        · exact placed.related i r x a qualifier neighbour place
        · omega
      · rcases getElem?_concat_eq_some.mp ha with place | ⟨-, rfl⟩
        · obtain ⟨inside, -⟩ := List.getElem?_eq_some_iff.mp place
          omega
        · refine relates x ?_
          rwa [List.getLast?_eq_getElem?, same, ← last]

theorem selected_append {d : Document} {path : List Qualifier} {q : Qualifier} {e : ElementId} :
    d.Selected (path ++ [q]) e ↔ d.satisfies q e = true ∧
      (path = [] ∨ ∃ x, d.Relates q.combinator x e ∧ d.Selected path x) := by
  constructor
  · rintro ⟨places, placed, last⟩
    obtain ⟨rest, rfl⟩ := List.getLast?_eq_some_iff.mp last
    obtain ⟨inner, holds, relates⟩ := placed_append.mp placed
    refine ⟨holds, ?_⟩
    rcases List.eq_nil_or_concat rest with none | ⟨front, x, rfl⟩
    · subst none
      exact Or.inl (List.eq_nil_of_length_eq_zero (by simpa using inner.length.symm))
    · exact Or.inr ⟨x, relates x (by simp), front ++ [x], by simpa using inner, by simp⟩
  · rintro ⟨holds, rfl | ⟨x, relates, places, placed, last⟩⟩
    · refine ⟨[] ++ [e], placed_append.mpr ⟨⟨rfl, ?_, ?_⟩, holds, ?_⟩, by simp⟩ <;> simp
    · refine ⟨places ++ [e], placed_append.mpr ⟨placed, holds, ?_⟩, by simp⟩
      intro y final
      rw [last] at final
      exact Option.some.inj final ▸ relates

theorem selected_iff_fits {d : Document} {path : List Qualifier} (nonempty : path ≠ [])
    (e : ElementId) : d.Selected path e ↔ d.Fits path.reverse e := by
  induction path using List.reverseRecOn generalizing e with
  | nil => exact absurd rfl nonempty
  | append_singleton path q ih =>
      rw [selected_append, List.reverse_append, List.reverse_singleton, List.singleton_append,
        Fits, List.reverse_eq_nil_iff]
      apply and_congr_right
      intro _
      by_cases first : path = []
      · simp [first]
      · simp only [first, false_or]
        exact exists_congr fun x => and_congr_right fun _ => ih first x

/-! The elements that an outcome speaks of: the siblings up to an element, and these at the element
and at all its ancestors. -/

def Level (d : Document) (e x : ElementId) : Prop := x = e ∨ d.Precedes x e

def Around (d : Document) (e x : ElementId) : Prop :=
  ∃ a, (a = e ∨ d.Ancestor a e) ∧ d.Level a x

def Tells (d : Document) (chain : List Qualifier) (e : ElementId) : MatchOutcome → Prop
  | .matched => d.Fits chain e
  | .failedHere => ¬ d.Fits chain e
  | .failedLevel => ∀ x, d.Level e x → ¬ d.Fits chain x
  | .failedEverywhere => ∀ x, d.Around e x → ¬ d.Fits chain x

theorem level_self (d : Document) (e : ElementId) : d.Level e e := Or.inl rfl

theorem around_of_level {d : Document} {e x : ElementId} (level : d.Level e x) : d.Around e x :=
  ⟨e, Or.inl rfl, level⟩

theorem around_self (d : Document) (e : ElementId) : d.Around e e :=
  around_of_level (level_self d e)

theorem around_of_ancestor {d : Document} {a e : ElementId} (ancestor : d.Ancestor a e) :
    d.Around e a := ⟨a, Or.inr ancestor, level_self d a⟩

theorem level_parent {d : Document} (valid : d.WellFormed) {e x : ElementId}
    (level : d.Level e x) : d.parent? x = d.parent? e := by
  rcases level with rfl | precedes
  · rfl
  · exact parent_of_precedes valid precedes

-- Whatever is around an element has no other ancestors than the element has.
theorem around_ancestor {d : Document} (valid : d.WellFormed) {e x y : ElementId}
    (around : d.Around e x) (above : d.Ancestor y x) : d.Ancestor y e := by
  obtain ⟨a, position, level⟩ := around
  have higher := (ancestor_congr (level_parent valid level)).mp above
  rcases position with rfl | ancestor
  · exact higher
  · exact higher.trans ancestor

theorem around_parent {d : Document} (valid : d.WellFormed) {e p x y : ElementId}
    (known : d.parent? e = some p) (around : d.Around e x) (parent : d.parent? x = some y) :
    d.Around p y := by
  obtain ⟨q, same, here | above⟩ :=
    ancestor_cases (around_ancestor valid around (Ancestor.parent parent))
  · obtain rfl := Option.some.inj (known.symm.trans same)
    exact here ▸ around_self d y
  · obtain rfl := Option.some.inj (known.symm.trans same)
    exact around_of_ancestor above

-- What precedes something around an element is around any sibling of the element, if there it is
-- not among the siblings up to the element itself.
theorem around_precedes {d : Document} (valid : d.WellFormed) {e s x y : ElementId}
    (sibling : d.parent? s = d.parent? e) (around : d.Around e x) (precedes : d.Precedes y x) :
    d.Precedes y e ∨ d.Around s y := by
  obtain ⟨a, position, level⟩ := around
  have before : d.Precedes y a := by
    rcases level with rfl | further
    · exact precedes
    · exact precedes.trans valid further
  rcases position with rfl | ancestor
  · exact Or.inl before
  · exact Or.inr ⟨a, Or.inr ((ancestor_congr sibling).mpr ancestor), Or.inr before⟩

theorem tryAncestors_tells {d : Document} {before : List Qualifier}
    {outcomeAt : ElementId → MatchOutcome} (valid : d.WellFormed)
    (told : ∀ a, d.Tells before a (outcomeAt a)) (e : ElementId) :
    (d.tryAncestors outcomeAt e = .matched ∧ ∃ a, d.Ancestor a e ∧ d.Fits before a) ∨
    (d.tryAncestors outcomeAt e = .failedEverywhere ∧ ∀ a, d.Ancestor a e → ¬ d.Fits before a) := by
  induction e using Nat.strongRecOn with
  | _ e ih =>
      rw [tryAncestors]
      cases known : d.parent? e with
      | none => exact Or.inr ⟨rfl, fun a ancestor => absurd ancestor (not_ancestor known)⟩
      | some p =>
          have older := valid.older known
          -- The parent fails and the search goes on from there.
          have onward (fails : ¬ d.Fits before p) :
              (d.tryAncestors outcomeAt p = .matched ∧ ∃ a, d.Ancestor a e ∧ d.Fits before a) ∨
              (d.tryAncestors outcomeAt p = .failedEverywhere ∧
                ∀ a, d.Ancestor a e → ¬ d.Fits before a) := by
            simp only [ancestor_iff known]
            rcases ih p older with ⟨matched, a, ancestor, fits⟩ | ⟨failed, nowhere⟩
            · exact Or.inl ⟨matched, a, Or.inr ancestor, fits⟩
            · refine Or.inr ⟨failed, ?_⟩
              rintro a (rfl | farther)
              · exact fails
              · exact nowhere a farther
          have here := told p
          simp only [older, ↓reduceIte]
          generalize outcomeAt p = outcome at here
          cases outcome with
          | matched => exact Or.inl ⟨rfl, p, Ancestor.parent known, here⟩
          | failedHere => exact onward here
          | failedLevel => exact onward (here p (level_self d p))
          | failedEverywhere =>
              refine Or.inr ⟨rfl, fun a ancestor => ?_⟩
              rcases (ancestor_iff known).mp ancestor with rfl | farther
              · exact here a (around_self d a)
              · exact here a (around_of_ancestor farther)

theorem trySiblings_tells {d : Document} {before : List Qualifier}
    {outcomeAt : ElementId → MatchOutcome} (valid : d.WellFormed)
    (told : ∀ s, d.Tells before s (outcomeAt s)) (siblings : List ElementId)
    (linked : ∀ near s far, siblings = near ++ s :: far → d.precedingSiblings s = far) :
    (trySiblings outcomeAt siblings = .matched ∧ ∃ s ∈ siblings, d.Fits before s) ∨
    (trySiblings outcomeAt siblings = .failedLevel ∧ ∀ s ∈ siblings, ¬ d.Fits before s) ∨
    (trySiblings outcomeAt siblings = .failedEverywhere ∧ (∀ s ∈ siblings, ¬ d.Fits before s) ∧
      ∃ s ∈ siblings, d.Tells before s .failedEverywhere) := by
  induction siblings with
  | nil => exact Or.inr (Or.inl ⟨rfl, by simp⟩)
  | cons s farther ih =>
      have rest := ih fun near r far parts => linked (s :: near) r far (by rw [parts]; rfl)
      have preceding (r : ElementId) (member : r ∈ farther) : d.Precedes r s :=
        (mem_precedingSiblings valid r s).mp (linked [] s farther rfl ▸ member)
      have here := told s
      rw [trySiblings]
      cases outcome : outcomeAt s with
      | matched =>
          rw [outcome] at here
          exact Or.inl ⟨rfl, s, List.mem_cons_self, here⟩
      | failedHere =>
          rw [outcome] at here
          rcases rest with
            ⟨matched, r, member, fits⟩ | ⟨failed, none⟩ | ⟨failed, none, r, member, far⟩
          · exact Or.inl ⟨matched, r, List.mem_cons_of_mem s member, fits⟩
          · exact Or.inr (Or.inl ⟨failed, List.forall_mem_cons.mpr ⟨here, none⟩⟩)
          · exact Or.inr (Or.inr ⟨failed, List.forall_mem_cons.mpr ⟨here, none⟩, r,
              List.mem_cons_of_mem s member, far⟩)
      | failedLevel =>
          -- All siblings farther on precede this one, so its level covers them.
          rw [outcome] at here
          refine Or.inr (Or.inl ⟨rfl, List.forall_mem_cons.mpr ⟨here s (level_self d s), ?_⟩⟩)
          intro r member
          exact here r (Or.inr (preceding r member))
      | failedEverywhere =>
          rw [outcome] at here
          refine Or.inr (Or.inr ⟨rfl, List.forall_mem_cons.mpr ⟨here s (around_self d s), ?_⟩,
            s, List.mem_cons_self, here⟩)
          intro r member
          exact here r (around_of_level (Or.inr (preceding r member)))

theorem fits_cons {d : Document} {q : Qualifier} {before : List Qualifier} {e : ElementId}
    (more : before ≠ []) : d.Fits (q :: before) e ↔
      d.satisfies q e = true ∧ ∃ x, d.Relates q.combinator x e ∧ d.Fits before x := by
  simp [Fits, more]

theorem descendant_tells {d : Document} {q : Qualifier} {before : List Qualifier}
    (valid : d.WellFormed) (more : before ≠ []) (step : q.combinator = .descendant)
    (ih : ∀ x, d.Tells before x (d.matchChain before x)) {e : ElementId}
    (holds : d.satisfies q e = true) :
    d.Tells (q :: before) e (d.tryAncestors (fun a => d.matchChain before a) e) := by
  rcases tryAncestors_tells valid ih e with ⟨outcome, a, ancestor, fits⟩ | ⟨outcome, nowhere⟩
  · rw [outcome]
    exact (fits_cons more).mpr ⟨holds, a, by rw [step]; exact ancestor, fits⟩
  · rw [outcome]
    intro x around fits
    obtain ⟨-, y, relates, rest⟩ := (fits_cons more).mp fits
    rw [step] at relates
    exact nowhere y (around_ancestor valid around relates) rest

theorem child_tells {d : Document} {q : Qualifier} {before : List Qualifier}
    (valid : d.WellFormed) (more : before ≠ []) (step : q.combinator = .child)
    {e p : ElementId} (known : d.parent? e = some p) (holds : d.satisfies q e = true)
    {outcome : MatchOutcome} (here : d.Tells before p outcome) :
    d.Tells (q :: before) e outcome.fromParent := by
  -- On the level of an element the parent is the same.
  have level (fails : ¬ d.Fits before p) : d.Tells (q :: before) e .failedLevel := by
    intro x position fits
    obtain ⟨-, y, relates, rest⟩ := (fits_cons more).mp fits
    rw [step] at relates
    have parent : d.parent? e = some y := level_parent valid position ▸ relates
    obtain rfl := Option.some.inj (known.symm.trans parent)
    exact fails rest
  cases outcome with
  | matched => exact (fits_cons more).mpr ⟨holds, p, by rw [step]; exact known, here⟩
  | failedHere => exact level here
  | failedLevel => exact level (here p (level_self d p))
  | failedEverywhere =>
      intro x around fits
      obtain ⟨-, y, relates, rest⟩ := (fits_cons more).mp fits
      rw [step] at relates
      exact here y (around_parent valid known around relates) rest

theorem orphan_tells {d : Document} {q : Qualifier} {before : List Qualifier}
    (valid : d.WellFormed) (more : before ≠ []) (step : q.combinator = .child)
    {e : ElementId} (orphan : d.parent? e = none) :
    d.Tells (q :: before) e .failedEverywhere := by
  -- A parent of anything around the element would be an ancestor of the element.
  intro x around fits
  obtain ⟨-, y, relates, -⟩ := (fits_cons more).mp fits
  rw [step] at relates
  obtain ⟨p, known, -⟩ := ancestor_cases (around_ancestor valid around (Ancestor.parent relates))
  simp [orphan] at known

theorem nextSibling_tells {d : Document} {q : Qualifier} {before : List Qualifier}
    (valid : d.WellFormed) (more : before ≠ []) (step : q.combinator = .nextSibling)
    {e s : ElementId} (adjoins : d.Adjoins s e) (holds : d.satisfies q e = true)
    {outcome : MatchOutcome} (here : d.Tells before s outcome) :
    d.Tells (q :: before) e outcome := by
  have sibling := parent_of_precedes valid adjoins.precedes
  have neighbour {y x : ElementId} (near : d.Relates q.combinator y x) : d.Adjoins y x := by
    rw [step] at near
    exact near
  cases outcome with
  | matched => exact (fits_cons more).mpr ⟨holds, s, by rw [step]; exact adjoins, here⟩
  | failedHere =>
      intro fits
      obtain ⟨-, y, relates, rest⟩ := (fits_cons more).mp fits
      have first := (previousSibling_iff valid s e).mpr adjoins
      have second := (previousSibling_iff valid y e).mpr (neighbour relates)
      obtain rfl := Option.some.inj (first.symm.trans second)
      exact here rest
  | failedLevel =>
      intro x level fits
      obtain ⟨-, y, relates, rest⟩ := (fits_cons more).mp fits
      have before : d.Precedes y e := by
        rcases level with rfl | further
        · exact (neighbour relates).precedes
        · exact (neighbour relates).precedes.trans valid further
      exact here y (precedes_cases valid adjoins before) rest
  | failedEverywhere =>
      -- What is before something around the element is up to its neighbour, or around it.
      intro x around fits
      obtain ⟨-, y, relates, rest⟩ := (fits_cons more).mp fits
      rcases around_precedes valid sibling around (neighbour relates).precedes with near | far
      · exact here y (around_of_level (precedes_cases valid adjoins near)) rest
      · exact here y far rest

theorem firstSibling_tells {d : Document} {q : Qualifier} {before : List Qualifier}
    (valid : d.WellFormed) (more : before ≠ []) (step : q.combinator = .nextSibling)
    {e : ElementId} (first : d.previousSibling? e = none) :
    d.Tells (q :: before) e .failedLevel := by
  intro x level fits
  obtain ⟨-, y, relates, -⟩ := (fits_cons more).mp fits
  rw [step] at relates
  have precedes : d.Precedes y e := by
    rcases level with rfl | further
    · exact relates.precedes
    · exact relates.precedes.trans valid further
  have member := (mem_precedingSiblings valid y e).mpr precedes
  rw [List.head?_eq_none_iff.mp first] at member
  simp at member

theorem laterSibling_tells {d : Document} {q : Qualifier} {before : List Qualifier}
    (valid : d.WellFormed) (more : before ≠ []) (step : q.combinator = .laterSibling)
    (ih : ∀ x, d.Tells before x (d.matchChain before x)) {e : ElementId}
    (holds : d.satisfies q e = true) : d.Tells (q :: before) e
      (trySiblings (fun s => d.matchChain before s) (d.precedingSiblings e)) := by
  have linked : ∀ near s far, d.precedingSiblings e = near ++ s :: far →
      d.precedingSiblings s = far := fun near s far parts => (precedingSiblings_far valid parts).1
  have sibling (s : ElementId) := mem_precedingSiblings valid s e
  have earlier {y x : ElementId} (near : d.Relates q.combinator y x) : d.Precedes y x := by
    rw [step] at near
    exact near
  rcases trySiblings_tells valid ih (d.precedingSiblings e) linked with
    ⟨outcome, s, member, fits⟩ | ⟨outcome, none⟩ | ⟨outcome, none, s, member, far⟩
  · rw [outcome]
    exact (fits_cons more).mpr ⟨holds, s, by rw [step]; exact (sibling s).mp member, fits⟩
  · rw [outcome]
    intro x level fits
    obtain ⟨-, y, relates, rest⟩ := (fits_cons more).mp fits
    have before : d.Precedes y e := by
      rcases level with rfl | further
      · exact earlier relates
      · exact (earlier relates).trans valid further
    exact none y ((sibling y).mpr before) rest
  · rw [outcome]
    intro x around fits
    obtain ⟨-, y, relates, rest⟩ := (fits_cons more).mp fits
    have same := parent_of_precedes valid ((sibling s).mp member)
    rcases around_precedes valid same around (earlier relates) with near | wide
    · exact none y ((sibling y).mpr near) rest
    · exact far y wide rest

/-- Every outcome of the matcher is true of all the elements it speaks of. -/
theorem matchChain_tells {d : Document} (valid : d.WellFormed) (chain : List Qualifier)
    (e : ElementId) : d.Tells chain e (d.matchChain chain e) := by
  -- The rest of the chain tells the truth of every element, as any of them may be tried.
  induction chain generalizing e with
  | nil => trivial
  | cons q before ih =>
      rw [matchChain]
      by_cases holds : d.satisfies q e = true
      case neg =>
        simp only [holds, Bool.not_false, ↓reduceIte]
        exact fun fits => holds fits.1
      case pos =>
        by_cases first : before = []
        · subst first
          simp only [holds, Bool.not_true, Bool.false_eq_true, ↓reduceIte, List.isEmpty_nil]
          exact ⟨holds, Or.inl rfl⟩
        · simp only [holds, Bool.not_true, Bool.false_eq_true, ↓reduceIte,
            List.isEmpty_eq_false_iff.mpr first]
          cases step : q.combinator with
          | descendant => exact descendant_tells valid first step ih holds
          | child =>
              cases known : d.parent? e with
              | none => exact orphan_tells valid first step known
              | some p => exact child_tells valid first step known holds (ih p)
          | nextSibling =>
              cases known : d.previousSibling? e with
              | none => exact firstSibling_tells valid first step known
              | some s =>
                  have adjoins := (previousSibling_iff valid s e).mp known
                  exact nextSibling_tells valid first step adjoins holds (ih s)
          | laterSibling => exact laterSibling_tells valid first step ih holds

theorem tells_matched_iff {d : Document} {chain : List Qualifier} {e : ElementId}
    {outcome : MatchOutcome} (told : d.Tells chain e outcome) :
    outcome = .matched ↔ d.Fits chain e := by
  cases outcome with
  | matched => exact iff_of_true rfl told
  | failedHere => exact iff_of_false (by simp) told
  | failedLevel => exact iff_of_false (by simp) (told e (level_self d e))
  | failedEverywhere => exact iff_of_false (by simp) (told e (around_self d e))

/-- The matcher answers whether the path that a chain reverses selects the element. -/
theorem matchChain_iff {d : Document} (valid : d.WellFormed) {path : List Qualifier}
    (nonempty : path ≠ []) (e : ElementId) :
    d.matchChain path.reverse e = .matched ↔ d.Selected path e :=
  (tells_matched_iff (matchChain_tells valid path.reverse e)).trans
    (selected_iff_fits nonempty e).symm

end Cascade.Document

/-! Which elements the nodes of a rule tree apply to.
Main statement: a node applies to an element exactly if the path of qualifiers from the root to the
node selects it, whatever selectors were inserted and trees merged and however the document came
about. -/
namespace Cascade.RuleTree
variable {V : Type}

inductive Reached : RuleTree V → Prop where
  | empty : Reached empty
  | insert {t : RuleTree V} (s : Selector) (properties : Dictionary V) :
      Reached t → Reached (t.insert s properties).2
  | merge {t other : RuleTree V} (offset : Nat) :
      Reached t → Reached other → Reached (t.merge other offset)

theorem Reached.wellformed {t : RuleTree V} (reached : t.Reached) : t.WellFormed := by
  induction reached with
  | empty => exact empty_wellformed
  | insert s properties _ ih => exact (insert_spec ih s properties).1
  | merge offset _ _ first second => exact (merge_spec first second offset).1

/-- The qualifiers on the way from the root down to a node. -/
inductive Leads (t : RuleTree V) : List Qualifier → RuleNodeId → Prop where
  | root : Leads t [] root
  | step {path : List Qualifier} {p c : RuleNodeId} {node : RuleNode V} :
      Leads t path p → c ∈ t.children p → t.find? c = some node →
        Leads t (path ++ [node.qualifier]) c

theorem leads_iff {t : RuleTree V} (valid : t.WellFormed) (path : List Qualifier)
    (n : RuleNodeId) : t.Leads path n ↔ t.at? path = some n := by
  constructor
  · intro leads
    induction leads with
    | root => rfl
    | @step path p c node _ child found ih =>
        -- Qualifiers tell children apart, so the step finds this one.
        have same : t.qualifier c = node.qualifier := by simp [qualifier, found]
        simpa [at_append, ih] using (child_eq_some valid p c _).mpr ⟨child, same⟩
  · intro known
    induction path using List.reverseRecOn generalizing n with
    | nil => exact Option.some.inj known ▸ Leads.root
    | append_singleton path q ih =>
        rw [at_append] at known
        obtain ⟨p, front, last⟩ := Option.bind_eq_some_iff.mp known
        obtain ⟨child, same⟩ := (child_eq_some valid p n q).mp last
        obtain ⟨node, found⟩ := find_of_lt (lt_of_parent (valid.owned child))
        have equal : node.qualifier = q := by simpa [qualifier, found] using same
        exact equal ▸ Leads.step (ih p front) child found

theorem route_ne_nil {t : RuleTree V} (valid : t.WellFormed) {n : RuleNodeId}
    (bound : n < t.nodes.size) (inner : n ≠ root) : t.route n ≠ [] := by
  intro top
  have leads := at_route valid bound
  rw [top, at_nil] at leads
  exact inner (Option.some.inj leads).symm

theorem isApplicable_iff {t : RuleTree V} (valid : t.WellFormed) {d : Document}
    (sound : d.WellFormed) {n : RuleNodeId} (bound : n < t.nodes.size) (inner : n ≠ root)
    (e : ElementId) : t.isApplicable d n e = true ↔ d.Selected (t.route n) e := by
  have nonempty := route_ne_nil valid bound inner
  have decided := Document.matchChain_iff sound nonempty e
  rw [route, List.reverse_reverse] at decided
  rw [isApplicable]
  cases known : t.chain n with
  | nil => exact absurd (by simp [route, known]) nonempty
  | cons q rest =>
      rw [known] at decided
      exact beq_iff_eq.trans (by rw [decided, route, known])

/-- A node has one path from the root, and applies to what this path selects. -/
theorem isApplicable_exact {t : RuleTree V} (built : t.Reached) {d : Document}
    (reached : d.Reached) {n : RuleNodeId} (present : (t.find? n).isSome = true)
    (inner : n ≠ root) :
    ∃ path, (∀ other, t.Leads other n ↔ other = path) ∧
      ∀ e, t.isApplicable d n e = true ↔ d.Selected path e := by
  have valid := built.wellformed
  obtain ⟨node, found⟩ := Option.isSome_iff_exists.mp present
  have bound := lt_of_find found
  refine ⟨t.route n, ?_, isApplicable_iff valid reached.wellformed bound inner⟩
  intro other
  rw [leads_iff valid]
  constructor
  · intro leads
    exact (route_of_at valid leads).symm
  · rintro rfl
    exact at_route valid bound

/-- The tree of `.menu > li` over a list with one item. -/
theorem isApplicable_exact_menu :
    let s : Selector := ⟨⟨[.className "menu"]⟩, [(.child, ⟨[.tag "li"]⟩)]⟩
    let t := ((empty : RuleTree Unit).insert s .empty).2
    let menu : ElementData := { tag := "ul", classes := ["menu"] }
    let d : Document := ⟨#[some ⟨menu, none, [1]⟩, some ⟨{ tag := "li" }, some 0, []⟩], some 0⟩
    ∃ path, (∀ other, t.Leads other 2 ↔ other = path) ∧
      ∀ e, t.isApplicable d 2 e = true ↔ d.Selected path e := by
  intro s t menu d
  have listed : (Document.empty.insert menu).2.insertChild? 0 { tag := "li" } = some (1, d) := rfl
  exact isApplicable_exact (.insert s .empty .empty) (.insertChild (.insert menu .empty) listed)
    rfl (by decide)

end Cascade.RuleTree
