import Cascade.Proofs.Rule.Growing
import Cascade.Proofs.Sheet.History
import Cascade.Proofs.Source.Writing
/-!
Nodes and their selector texts.

A qualifier is written as a compound that comes to this qualifier again. Every node of a tree that
grew from selectors of sources lies on the path of such a selector, so what its chain names can be
read again, and the selector that is read from its text leads back to it.
-/
namespace Cascade
open Token Text

namespace Qualifier

def compound (q : Qualifier) : Compound :=
  ⟨if q.isUniversal then [.universal]
    else q.tag.toList.map .tag ++ q.id.toList.map .id ++ q.classes.map .className ++
      q.pseudoClasses.map .pseudoClass⟩

theorem written_compound (q : Qualifier) : q.compound.written = q.text.toList := by
  rw [compound, text]
  split
  case isTrue => rfl
  case isFalse =>
    have tag : (q.tag.toList.map .tag).flatMap SimpleSelector.written =
        (q.tag.getD "").toList := by
      cases q.tag <;> simp [SimpleSelector.written]
    have id : (q.id.toList.map .id).flatMap SimpleSelector.written =
        ((q.id.map ("#" ++ ·)).getD "").toList := by
      cases q.id <;> simp [SimpleSelector.written]
    simp [Compound.written, tag, id, List.flatMap_map, SimpleSelector.written]

structure Canonical (q : Qualifier) : Prop where
  classes : Ordered.texts q.classes = q.classes
  pseudoClasses : Ordered.texts q.pseudoClasses = q.pseudoClasses

theorem canonical_ofCompound (combinator : Combinator) (c : Compound) :
    (ofCompound combinator c).Canonical := by
  have again (names : List String) : Ordered.texts (Ordered.texts names) = Ordered.texts names :=
    (Ordered.texts_eq_iff _ _).mpr (Ordered.mem_ofList names)
  exact ⟨again _, again _⟩

theorem lists_compound (q : Qualifier) :
    q.compound.tags = q.tag.toList ∧ q.compound.ids = q.id.toList ∧
      q.compound.classes = q.classes ∧ q.compound.pseudoClasses = q.pseudoClasses := by
  obtain ⟨tag, id, classes, pseudoClasses, combinator⟩ := q
  rw [compound]
  split
  case isTrue universal =>
    simp only [isUniversal, Bool.and_eq_true, Option.isNone_iff_eq_none, List.isEmpty_iff]
      at universal
    obtain ⟨⟨⟨rfl, rfl⟩, rfl⟩, rfl⟩ := universal
    exact ⟨rfl, rfl, rfl, rfl⟩
  case isFalse =>
    simp [Compound.tags, Compound.ids, Compound.classes, Compound.pseudoClasses,
      List.filterMap_append, List.filterMap_map]

/-- A qualifier is written as a compound that comes to it. -/
theorem ofCompound_compound {q : Qualifier} (canonical : q.Canonical) :
    ofCompound q.combinator q.compound = q := by
  obtain ⟨tags, ids, classes, pseudoClasses⟩ := q.lists_compound
  rw [ofCompound_eq, tags, ids, classes, pseudoClasses, canonical.classes, canonical.pseudoClasses]
  obtain ⟨tag, id, classes, pseudoClasses, combinator⟩ := q
  cases tag <;> cases id <;> rfl

/-- All that is written of a compound's qualifier was in the compound, but for a `*`. -/
theorem mem_compound {combinator : Combinator} {c : Compound} {s : SimpleSelector}
    (member : s ∈ (ofCompound combinator c).compound.components) :
    s = .universal ∨ s ∈ c.components := by
  have last {names : List String} {name : String} (member : name ∈ names.getLast?.toList) :
      name ∈ names := List.mem_of_mem_getLast? (Option.mem_toList.mp member)
  rw [compound, ofCompound_eq] at member
  split at member
  case isTrue => exact .inl (List.mem_singleton.mp member)
  case isFalse =>
    right
    simp only [List.mem_append, List.mem_map] at member
    rcases member with ((⟨name, inside, rfl⟩ | ⟨name, inside, rfl⟩) | ⟨name, inside, rfl⟩) |
      ⟨name, inside, rfl⟩
    · obtain ⟨t, listed, same⟩ := List.mem_filterMap.mp (last inside)
      cases t <;> simp_all
    · obtain ⟨t, listed, same⟩ := List.mem_filterMap.mp (last inside)
      cases t <;> simp_all
    · exact (c.mem_classes name).mp ((Ordered.mem_ofList _ name).mp inside)
    · exact (c.mem_pseudoClasses name).mp ((Ordered.mem_ofList _ name).mp inside)

theorem shape_compound (q : Qualifier) : ∃ first more, q.compound.components = first :: more ∧
    ∀ s ∈ more, s.qualifies = true := by
  have qualify : ∀ s ∈ q.id.toList.map SimpleSelector.id ++ q.classes.map .className ++
      q.pseudoClasses.map .pseudoClass, s.qualifies = true := by
    simp only [List.mem_append, List.mem_map]
    rintro s ((⟨name, -, rfl⟩ | ⟨name, -, rfl⟩) | ⟨name, -, rfl⟩) <;> rfl
  rw [compound]
  split
  case isTrue => exact ⟨_, [], rfl, by simp⟩
  case isFalse some =>
    obtain ⟨tag, id, classes, pseudoClasses, combinator⟩ := q
    cases tag with
    | some name => exact ⟨.tag name, _, by simp, qualify⟩
    | none =>
        cases rest : id.toList.map SimpleSelector.id ++ classes.map .className ++
            pseudoClasses.map .pseudoClass with
        | nil =>
            simp only [List.append_eq_nil_iff, List.map_eq_nil_iff, Option.toList_eq_nil_iff]
              at rest
            simp [isUniversal, rest] at some
        | cons first more =>
            rw [rest] at qualify
            exact ⟨first, more, by simpa using rest, (List.forall_mem_cons.mp qualify).2⟩

theorem legible_compound {q : Qualifier} (named : ∀ s ∈ q.compound.components, s.Named)
    (plain : ∀ name ∈ q.id, IdPlain name.toList) : q.compound.Legible := by
  refine ⟨q.shape_compound, fun s member => ?_⟩
  cases s with
  | id name =>
      have listed : name ∈ q.compound.ids := List.mem_filterMap.mpr ⟨_, member, rfl⟩
      rw [q.lists_compound.2.1] at listed
      exact plain name (Option.mem_toList.mp listed)
  | tag name | universal | className name | pseudoClass name => exact named _ member

def selector (first : Qualifier) (rest : List Qualifier) : Selector :=
  ⟨first.compound, rest.map fun q => (q.combinator, q.compound)⟩

theorem written_selector (first : Qualifier) (rest : List Qualifier) :
    (selector first rest).written = (RuleTree.pathText (first :: rest)).toList := by
  simp [Selector.written, selector, RuleTree.pathText, written_compound, List.flatMap_map]

theorem pathOf_selector {first : Qualifier} {rest : List Qualifier}
    (canonical : ∀ q ∈ first :: rest, q.Canonical) (start : first.combinator = .descendant) :
    RuleTree.pathOf (selector first rest) = first :: rest := by
  obtain ⟨here, others⟩ := List.forall_mem_cons.mp canonical
  have head := ofCompound_compound here
  rw [start] at head
  have tail : rest.map (fun q => ofCompound q.combinator q.compound) = rest := by
    conv_rhs => rw [← List.map_id rest]
    exact List.map_congr_left fun q member => ofCompound_compound (others q member)
  rw [RuleTree.pathOf, Selector.segments_eq, selector, List.map_cons, List.map_map]
  exact congrArg₂ List.cons head tail

theorem legible_selector {first : Qualifier} {rest : List Qualifier}
    (legible : ∀ q ∈ first :: rest, q.compound.Legible) : (selector first rest).Legible := by
  obtain ⟨here, others⟩ := List.forall_mem_cons.mp legible
  refine Selector.legible_iff.mpr ⟨here, fun segment member => ?_⟩
  obtain ⟨q, inside, rfl⟩ := List.mem_map.mp member
  exact others q inside

end Qualifier

namespace Outline
variable {V : Type}

def Begun (o : Outline V) : Prop :=
  ∀ path, ∀ q ∈ o.children path, ∃ s : Selector, s.Parsed ∧ path ++ [q] <+: RuleTree.pathOf s

theorem empty_begun : (empty : Outline V).Begun := fun _ _ member => nomatch member

variable {o other : Outline V}

theorem Begun.grow (begun : o.Begun) {path : List Qualifier} {q : Qualifier} {s : Selector}
    (parsed : s.Parsed) (front : path ++ [q] <+: RuleTree.pathOf s) : (o.grow path q).Begun := by
  intro place r member
  by_cases here : place = path
  · simp only [Outline.grow, if_pos here] at member
    subst here
    rcases (mem_foldl_adjoin (o.children place) [q] r).mp member with old | new
    · exact begun place r old
    · rw [List.mem_singleton.mp new]
      exact ⟨s, parsed, front⟩
  · simp only [Outline.grow, if_neg here] at member
    exact begun place r member

theorem Begun.growAll (begun : o.Begun) {path rest : List Qualifier} {s : Selector}
    (parsed : s.Parsed) (front : path ++ rest <+: RuleTree.pathOf s) :
    (o.growAll path rest).Begun := by
  induction rest generalizing o path with
  | nil => exact begun
  | cons q rest ih =>
      rw [List.append_cons] at front
      exact ih (begun.grow parsed ((List.prefix_append _ rest).trans front)) front

theorem Begun.insert (begun : o.Begun) {s : Selector} (parsed : s.Parsed)
    (properties : Dictionary V) : (o.insert (RuleTree.pathOf s) properties).Begun :=
  begun.growAll parsed (show [] ++ RuleTree.pathOf s <+: _ from List.prefix_rfl)

theorem Begun.merge (begun : o.Begun) (also : other.Begun) (offset : Nat) :
    (o.merge other offset).Begun := by
  intro path q member
  rcases (mem_foldl_adjoin _ _ q).mp member with here | there
  · exact begun path q here
  · exact also path q there

end Outline

namespace RuleTree
variable {V : Type}

/-- The trees that grow from selectors of sources by insertions and merges. -/
inductive Parsed : RuleTree V → Prop where
  | empty : Parsed empty
  | insert {t : RuleTree V} {s : Selector} (properties : Dictionary V) :
      Parsed t → s.Parsed → Parsed (t.insert s properties).2
  | merge {t other : RuleTree V} (offset : Nat) :
      Parsed t → Parsed other → Parsed (t.merge other offset)

theorem Parsed.spec {t : RuleTree V} (parsed : t.Parsed) : t.WellFormed ∧ t.outline.Begun := by
  induction parsed with
  | empty => exact ⟨empty_wellformed, Sheet.outline_empty ▸ Outline.empty_begun⟩
  | insert properties _ selector ih =>
      obtain ⟨valid, begun⟩ := ih
      obtain ⟨after, outlined⟩ := insert_spec valid _ properties
      exact ⟨after, outlined ▸ begun.insert selector properties⟩
  | merge offset _ _ first second =>
      obtain ⟨after, outlined⟩ := merge_spec first.1 second.1 offset
      exact ⟨after, outlined ▸ first.2.merge second.2 offset⟩

/-- A node other than the root lies on the path of a selector of a source. -/
theorem Parsed.route {t : RuleTree V} (parsed : t.Parsed) {n : RuleNodeId}
    (bound : n < t.nodes.size) (inner : n ≠ root) :
    ∃ s : Selector, s.Parsed ∧ t.route n <+: pathOf s := by
  obtain ⟨valid, begun⟩ := parsed.spec
  have leads := at_route valid bound
  rcases List.eq_nil_or_concat (t.route n) with none | ⟨front, q, whole⟩
  · exact absurd none (route_ne_nil valid bound inner)
  · rw [List.concat_eq_append] at whole
    rw [whole, at_append] at leads
    obtain ⟨p, reached, child⟩ := Option.bind_eq_some_iff.mp leads
    obtain ⟨listed, same⟩ := (child_eq_some valid p n q).mp child
    rw [whole]
    refine begun front q ?_
    rw [outline_children reached]
    exact List.mem_map.mpr ⟨n, listed, same⟩

/-- A path that leads to a node is followed without anything being created. -/
theorem descendAll_of_at {t : RuleTree V} (valid : t.WellFormed) {path : List Qualifier}
    {from' n : RuleNodeId} (bound : from' < t.nodes.size)
    (leads : path.foldlM t.child? from' = some n) : t.descendAll from' path = (n, t) := by
  induction path generalizing from' with
  | nil =>
      obtain rfl := Option.some.inj leads
      rfl
  | cons q rest ih =>
      rw [List.foldlM_cons] at leads
      obtain ⟨c, child, further⟩ := Option.bind_eq_some_iff.mp leads
      have listed := ((child_eq_some valid _ c q).mp child).1
      rw [descendAll, descend_of_child bound child]
      exact ih (valid.forest.bounded listed) further

theorem insert_of_at {t : RuleTree V} (valid : t.WellFormed) {s : Selector} {n : RuleNodeId}
    (leads : t.at? (pathOf s) = some n) (properties : Dictionary V) :
    t.insert s properties = (n, t.edit n fun held => held.merge properties) := by
  rw [insert, descendAll_of_at valid valid.rooted leads]

/-- The selector text of a node is read as one selector, which leads to the node again. -/
theorem selectorText_reads {t : RuleTree V} (parsed : t.Parsed) {n : RuleNodeId}
    (bound : n < t.nodes.size) (inner : n ≠ root)
    (plain : ∀ q ∈ t.chain n, ∀ name ∈ q.id, IdPlain name.toList) :
    ∃ s, StyleSource.ofText (t.selectorText n ++ " \x7b \x7d") = .ok ⟨[.style ⟨[s], [], 1⟩]⟩ ∧
      ∀ properties, (t.insert s properties).1 = n ∧
        (t.insert s properties).2.size = t.size := by
  obtain ⟨valid, begun⟩ := parsed.spec
  obtain ⟨s, known, front⟩ := parsed.route bound inner
  -- What stands on the path comes from compounds of the selector.
  have from' : ∀ q ∈ t.route n, ∃ segment ∈ s.segments,
      q = .ofCompound segment.1 segment.2 := by
    intro q member
    obtain ⟨segment, inside, same⟩ := List.mem_map.mp (front.subset member)
    exact ⟨segment, inside, same.symm⟩
  have canonical : ∀ q ∈ t.route n, q.Canonical := by
    intro q member
    obtain ⟨segment, -, rfl⟩ := from' q member
    exact Qualifier.canonical_ofCompound _ _
  have legible : ∀ q ∈ t.route n, q.compound.Legible := by
    intro q member
    have ids := plain q (List.mem_reverse.mp member)
    obtain ⟨segment, inside, rfl⟩ := from' q member
    refine Qualifier.legible_compound (fun c listed => ?_) ids
    rcases Qualifier.mem_compound listed with rfl | old
    · trivial
    · exact known.named segment inside c old
  have leads := at_route valid bound
  have text : t.selectorText n = pathText (t.route n) := rfl
  cases path : t.route n with
  | nil => exact absurd path (route_ne_nil valid bound inner)
  | cons first rest =>
      rw [path] at front canonical legible leads text
      have start : first.combinator = .descendant := by
        obtain ⟨same, -⟩ := List.cons_prefix_cons.mp front
        rw [same]
        rfl
      rw [← Qualifier.pathOf_selector canonical start] at leads
      refine ⟨Qualifier.selector first rest, ?_, fun properties => ?_⟩
      · have read := Selector.ofText_written (Qualifier.legible_selector legible)
        rwa [Qualifier.written_selector, String.ofList_toList, ← text] at read
      · rw [insert_of_at valid leads]
        exact ⟨rfl, congrArg (· - 1) (edit_shape t n _).size⟩

/-- The inner node of `ul#add > .open:hover`. -/
theorem selectorText_reads_open :
    let outer : Compound := ⟨[.tag "ul", .id "add"]⟩
    let inner : Compound := ⟨[.className "open", .pseudoClass "hover"]⟩
    let t := ((empty : RuleTree Unit).insert ⟨outer, [(.child, inner)]⟩ .empty).2
    t.selectorText 2 = "ul#add > .open:hover" ∧
      ∃ s, StyleSource.ofText (t.selectorText 2 ++ " \x7b \x7d") = .ok ⟨[.style ⟨[s], [], 1⟩]⟩ ∧
        ∀ properties, (t.insert s properties).1 = 2 ∧ (t.insert s properties).2.size = t.size := by
  intro outer inner t
  have add : IdPlain "add".toList :=
    .inl ⟨by decide, by decide, List.all_eq_true.mp (by decide)⟩
  have first : outer.Legible := by
    refine ⟨⟨_, _, rfl, List.forall_mem_singleton.mpr rfl⟩, List.forall_mem_cons.mpr ⟨?_, ?_⟩⟩
    · show "ul".toList ∈ Kind.ident.language
      decide
    · exact List.forall_mem_singleton.mpr add
  have second : inner.Legible := by
    refine ⟨⟨_, _, rfl, List.forall_mem_singleton.mpr rfl⟩, List.forall_mem_cons.mpr ⟨?_, ?_⟩⟩
    · show "open".toList ∈ Kind.ident.language
      decide
    · have others : "over".toList.all continuesName = true := by decide
      exact List.forall_mem_singleton.mpr (mem_headed.mpr ⟨'h', _, by decide, rfl,
        List.all_eq_true.mp others⟩)
  have legible : Selector.Legible ⟨outer, [(.child, inner)]⟩ :=
    List.forall_mem_cons.mpr ⟨first, List.forall_mem_singleton.mpr second⟩
  have known : Selector.Parsed ⟨outer, [(.child, inner)]⟩ :=
    ⟨_, _, Selector.ofText_written legible, _, List.mem_singleton_self _, List.mem_singleton_self _⟩
  have parsed : t.Parsed := .insert .empty .empty known
  have leads : t.at? [⟨some "ul", some "add", [], [], .descendant⟩,
      ⟨none, none, ["open"], ["hover"], .child⟩] = some 2 := by
    decide
  obtain ⟨bound, chain⟩ := chain_of_at parsed.spec.1 leads
  refine ⟨?_, selectorText_reads parsed bound (by decide) ?_⟩
  · rw [selectorText, chain]
    decide
  · rw [chain]
    simpa using add

end RuleTree
end Cascade
