import Cascade.Proofs.Rule.Matching
/-!
Where the matcher looks.

Matching a chain at an element looks at the element, at its ancestors and at the siblings before any
of these. Documents that agree there match alike. And since a chain passes an element only where an
inner node applies to it, a change of an element to which no inner node applies is seen at that
element alone.
-/
namespace Cascade

namespace Document
variable {d other : Document}

/-- `f` stands after `e` among their siblings, or below such a sibling. -/
def Follows (d : Document) (e f : ElementId) : Prop :=
  d.Precedes e f ∨ ∃ s, d.Precedes e s ∧ d.Ancestor s f

theorem around_iff {e f : ElementId} :
    d.Around f e ↔ e = f ∨ d.Ancestor e f ∨ d.Follows e f := by
  constructor
  · rintro ⟨a, rfl | above, rfl | before⟩
    · exact Or.inl rfl
    · exact Or.inr (Or.inr (Or.inl before))
    · exact Or.inr (Or.inl above)
    · exact Or.inr (Or.inr (Or.inr ⟨a, before, above⟩))
  · rintro (rfl | above | before | ⟨s, before, above⟩)
    · exact around_self d e
    · exact around_of_ancestor above
    · exact around_of_level (Or.inr before)
    · exact ⟨s, Or.inr above, Or.inr before⟩

theorem not_around {e f : ElementId} (different : f ≠ e) (unrelated : ¬ d.Ancestor e f)
    (unfollowing : ¬ d.Follows e f) : ¬ d.Around f e := by
  rw [around_iff]
  rintro (same | above | follows)
  · exact different same.symm
  · exact unrelated above
  · exact unfollowing follows

theorem ne_of_not_around {e x : ElementId} (apart : ¬ d.Around x e) : x ≠ e := by
  rintro rfl
  exact apart (around_self d x)

theorem Around.trans (valid : d.WellFormed) {e x y : ElementId} (near : d.Around e x)
    (far : d.Around x y) : d.Around e y := by
  obtain ⟨b, rfl | above, level⟩ := far
  · obtain ⟨a, position, rfl | before⟩ := near
    · exact ⟨b, position, level⟩
    · refine ⟨a, position, Or.inr ?_⟩
      rcases level with rfl | farther
      · exact before
      · exact farther.trans valid before
  · exact ⟨b, Or.inr (around_ancestor valid near above), level⟩

-- What is not there yet has no children and stands in no list.
theorem not_around_size (valid : d.WellFormed) {e : ElementId} (old : e ≠ d.elements.size) :
    ¬ d.Around e d.elements.size := by
  have unlisted (p : ElementId) : d.elements.size ∉ d.children p :=
    fun child => Nat.lt_irrefl _ (valid.forest.bounded child)
  have last (x : ElementId) : ¬ d.Precedes d.elements.size x := by
    rintro ⟨p, before, between, after, -, split⟩
    exact unlisted p (by simp [split])
  intro around
  rcases around_iff.mp around with same | above | before | ⟨s, before, -⟩
  · exact old same.symm
  · rcases ((below_iff valid).mpr (Or.inr above)).cases_head with same | ⟨c, child, -⟩
    · exact old same.symm
    · simp [children, find_size] at child
  · exact last e before
  · exact last s before

structure ReadsAlike (d other : Document) (x : ElementId) : Prop where
  data : other.data? x = d.data? x
  parent : other.parent? x = d.parent? x
  siblings : other.precedingSiblings x = d.precedingSiblings x

theorem tryAncestors_congr {outcomeAt outcomeIn : ElementId → MatchOutcome} {e : ElementId}
    (parents : ∀ x, x = e ∨ d.Ancestor x e → other.parent? x = d.parent? x)
    (outcomes : ∀ x, d.Ancestor x e → outcomeIn x = outcomeAt x) :
    other.tryAncestors outcomeIn e = d.tryAncestors outcomeAt e := by
  induction e using Nat.strongRecOn with
  | _ e ih =>
      rw [tryAncestors, tryAncestors, parents e (Or.inl rfl)]
      cases known : d.parent? e with
      | none => rfl
      | some p =>
          by_cases older : p < e
          · have above (x : ElementId) (position : x = p ∨ d.Ancestor x p) : d.Ancestor x e :=
              position.elim (fun same => same ▸ .parent known) (.farther known)
            have farther := ih p older (fun x position => parents x (Or.inr (above x position)))
              fun x higher => outcomes x (above x (Or.inr higher))
            simp only [older, ↓reduceIte, outcomes p (above p (Or.inl rfl)), farther]
          · simp only [older, ↓reduceIte]

theorem trySiblings_congr {outcomeAt outcomeIn : ElementId → MatchOutcome}
    {siblings : List ElementId} (outcomes : ∀ x ∈ siblings, outcomeIn x = outcomeAt x) :
    trySiblings outcomeIn siblings = trySiblings outcomeAt siblings := by
  induction siblings with
  | nil => rfl
  | cons s farther ih =>
      rw [trySiblings, trySiblings, outcomes s List.mem_cons_self,
        ih fun x member => outcomes x (List.mem_cons_of_mem s member)]

/-- Matching at an element reads what is around it and nothing else. -/
theorem matchChain_congr (valid : d.WellFormed) (chain : List Qualifier) {e : ElementId}
    (alike : ∀ x, d.Around e x → d.ReadsAlike other x) :
    other.matchChain chain e = d.matchChain chain e := by
  -- What is around an element that a combinator points to is around the element as well.
  induction chain generalizing e with
  | nil => rfl
  | cons q before ih =>
      have onward {x : ElementId} (around : d.Around e x) :
          other.matchChain before x = d.matchChain before x :=
        ih fun y near => alike y (around.trans valid near)
      have sibling {s : ElementId} (member : s ∈ d.precedingSiblings e) : d.Around e s :=
        around_of_level (Or.inr ((mem_precedingSiblings valid s e).mp member))
      have here := alike e (around_self d e)
      have satisfied : other.satisfies q e = d.satisfies q e := by
        rw [satisfies, satisfies, here.data]
      simp only [matchChain, satisfied, previousSibling?, here.parent, here.siblings]
      have parents (x : ElementId) (position : x = e ∨ d.Ancestor x e) :
          other.parent? x = d.parent? x := by
        rcases position with rfl | above
        · exact here.parent
        · exact (alike x (around_of_ancestor above)).parent
      rw [tryAncestors_congr parents fun x above => onward (around_of_ancestor above),
        trySiblings_congr fun x member => onward (sibling member)]
      cases parent : d.parent? e with
      | none =>
          cases first : (d.precedingSiblings e).head? with
          | none => rfl
          | some s => simp only [onward (sibling (List.mem_of_head? first))]
      | some p =>
          cases first : (d.precedingSiblings e).head? with
          | none => simp only [onward (around_of_ancestor (.parent parent))]
          | some s =>
              simp only [onward (around_of_ancestor (.parent parent)),
                onward (sibling (List.mem_of_head? first))]

theorem insert_readsAlike {x : ElementId} (data : ElementData) (old : x ≠ (d.insert data).1) :
    d.ReadsAlike (d.insert data).2 x := by
  obtain ⟨parents, lists⟩ := insert_links d data
  exact ⟨data_insert data old, parents x, precedingSiblings_congr (parents x) lists⟩

theorem insertChild_readsAlike (valid : d.WellFormed) {grown : Document} {parent e x : ElementId}
    {data : ElementData} (added : d.insertChild? parent data = some (e, grown)) (old : x ≠ e) :
    d.ReadsAlike grown x := by
  obtain ⟨-, -, parents, -⟩ := insertChild_links added
  exact ⟨data_insertChild added old, by rw [parents, if_neg old],
    precedingSiblings_insertChild valid added old⟩

theorem remove_readsAlike (valid : d.WellFormed) {left : Document} {e x : ElementId}
    {data : ElementData} (removed : d.remove? e = some (data, left)) (apart : ¬ d.Around x e) :
    d.ReadsAlike left x := by
  obtain ⟨⟨element, found⟩, parents, -⟩ := remove_links valid removed
  have stays : x ∉ d.walk e := by
    intro gone
    rcases (below_iff valid).mp ((mem_walk valid found x).mp gone) with rfl | above
    · exact apart (around_self d x)
    · exact apart (around_of_ancestor above)
  have unmoved : ¬ d.Precedes e x := fun before => apart (around_of_level (Or.inr before))
  exact ⟨data_remove valid removed stays, by rw [parents, if_neg stays],
    precedingSiblings_remove valid removed stays unmoved⟩

theorem edit_readsAlike {e x : ElementId} (change : ElementData → ElementData) (apart : x ≠ e) :
    d.ReadsAlike (d.edit e change) x := by
  obtain ⟨parents, lists⟩ := edit_links d e change
  exact ⟨data_edit change apart, parents x, precedingSiblings_congr (parents x) lists⟩

structure DifferAt (d other : Document) (e : ElementId) : Prop where
  parents : ∀ x, other.parent? x = d.parent? x
  lists : ∀ x, other.children x = d.children x
  data : ∀ x, x ≠ e → other.data? x = d.data? x

theorem DifferAt.symm {e : ElementId} (differ : d.DifferAt other e) : other.DifferAt d e :=
  ⟨fun x => (differ.parents x).symm, fun x => (differ.lists x).symm,
    fun x different => (differ.data x different).symm⟩

theorem edit_differAt (d : Document) (e : ElementId) (change : ElementData → ElementData) :
    d.DifferAt (d.edit e change) e :=
  ⟨(edit_links d e change).1, (edit_links d e change).2, fun _ => data_edit change⟩

theorem DifferAt.relates {e : ElementId} (differ : d.DifferAt other e) {c : Combinator}
    {x y : ElementId} (relates : d.Relates c x y) : other.Relates c x y := by
  cases c with
  | descendant =>
      induction relates with
      | parent known => exact Ancestor.parent ((differ.parents _).trans known)
      | farther known _ ih => exact Ancestor.farther ((differ.parents _).trans known) ih
  | child => exact (differ.parents y).trans relates
  | nextSibling =>
      obtain ⟨p, before, after, known, split⟩ := relates
      exact ⟨p, before, after, (differ.parents y).trans known, (differ.lists p).trans split⟩
  | laterSibling =>
      obtain ⟨p, before, between, after, known, split⟩ := relates
      exact ⟨p, before, between, after, (differ.parents y).trans known,
        (differ.lists p).trans split⟩

end Document

namespace RuleTree
variable {V : Type} {t : RuleTree V} {d other : Document}

theorem isApplicable_iff_fits (t : RuleTree V) (sound : d.WellFormed) (n : RuleNodeId)
    (e : ElementId) : t.isApplicable d n e = true ↔ t.chain n ≠ [] ∧ d.Fits (t.chain n) e := by
  rw [isApplicable]
  cases t.chain n with
  | nil => simp
  | cons q before =>
      simpa using Document.tells_matched_iff (Document.matchChain_tells sound (q :: before) e)

theorem isApplicable_root (valid : t.WellFormed) (d : Document) (e : ElementId) :
    t.isApplicable d root e = false := by
  simp [isApplicable, chain_top valid.top]

/-- No node from which others go on applies to the element. -/
def QuietAt (t : RuleTree V) (d : Document) (e : ElementId) : Prop :=
  ∀ n, t.children n ≠ [] → t.isApplicable d n e = false

-- Where a chain goes on from an element, the rest of the chain makes an inner node apply there.
theorem isApplicable_differAt (valid : t.WellFormed) (sound : d.WellFormed)
    (soundly : other.WellFormed) {e : ElementId} (differ : d.DifferAt other e)
    (quiet : t.QuietAt d e) {n : RuleNodeId} {x : ElementId} (different : x ≠ e)
    (applies : t.isApplicable d n x = true) : t.isApplicable other n x = true := by
  induction n using Nat.strongRecOn generalizing x with
  | _ n ih =>
      rw [isApplicable_iff_fits t sound] at applies
      rw [isApplicable_iff_fits t soundly]
      refine ⟨applies.1, ?_⟩
      cases known : t.parent? n with
      | none => exact absurd (chain_top known) applies.1
      | some p =>
          rw [chain_step valid known] at applies ⊢
          obtain ⟨-, satisfied, rest⟩ := applies
          refine ⟨?_, ?_⟩
          · rw [Document.satisfies, differ.data x different]
            exact satisfied
          · by_cases first : t.chain p = []
            · exact Or.inl first
            · obtain ⟨y, relates, fits⟩ := rest.resolve_left first
              have inner := (isApplicable_iff_fits t sound p y).mpr ⟨first, fits⟩
              have elsewhere : y ≠ e := by
                rintro rfl
                have more := List.ne_nil_of_mem (valid.listed known)
                simp [quiet p more] at inner
              have onward := ih p (valid.older known) elsewhere inner
              exact Or.inr ⟨y, differ.relates relates,
                ((isApplicable_iff_fits t soundly p y).mp onward).2⟩

end RuleTree

namespace NodeIndex
variable {V : Type} {t : RuleTree V} {d other : Document}

theorem applicable_congr (index : NodeIndex) {e : ElementId} (data : other.data? e = d.data? e)
    (same : ∀ n, t.isApplicable other n e = t.isApplicable d n e) :
    index.applicable t other e = index.applicable t d e := by
  simp only [applicable, data, same]

theorem applicable_readsAlike (valid : d.WellFormed) (index : NodeIndex) {e : ElementId}
    (alike : ∀ x, d.Around e x → d.ReadsAlike other x) :
    index.applicable t other e = index.applicable t d e := by
  apply index.applicable_congr (alike e (Document.around_self d e)).data
  intro n
  simp only [RuleTree.isApplicable, Document.matchChain_congr valid _ alike]

theorem applicable_differAt (valid : t.WellFormed) (sound : d.WellFormed)
    (soundly : other.WellFormed) {e x : ElementId} (differ : d.DifferAt other e)
    (before : t.QuietAt d e) (after : t.QuietAt other e) (different : x ≠ e) (index : NodeIndex) :
    index.applicable t other x = index.applicable t d x := by
  apply index.applicable_congr (differ.data x different)
  intro n
  rw [Bool.eq_iff_iff]
  exact ⟨RuleTree.isApplicable_differAt valid soundly sound differ.symm after different,
    RuleTree.isApplicable_differAt valid sound soundly differ before different⟩

end NodeIndex
end Cascade
