import Cascade.Proofs.Collections
import Cascade.Proofs.Rule.Matching
/-!
How rule trees grow.

Insertions and merges only add: a node keeps its number, its qualifier, its parent and its children,
and more children come after these. So a path leads to the same node for good, and selectors end at
one node exactly if they come to the same path, that is if their compounds agree up to the order
and the repetition of what they ask for.
-/
namespace Cascade

namespace Compound

def tags (c : Compound) : List String :=
  c.components.filterMap fun | .tag name => some name | _ => none

def ids (c : Compound) : List String :=
  c.components.filterMap fun | .id name => some name | _ => none

def classes (c : Compound) : List String :=
  c.components.filterMap fun | .className name => some name | _ => none

def pseudoClasses (c : Compound) : List String :=
  c.components.filterMap fun | .pseudoClass name => some name | _ => none

-- Each of these lists picks the names of one kind of component.
theorem mem_picked {pick : SimpleSelector → Option String} {make : String → SimpleSelector}
    (picks : ∀ s name, pick s = some name ↔ s = make name) (components : List SimpleSelector)
    (name : String) : name ∈ components.filterMap pick ↔ make name ∈ components := by
  simp [List.mem_filterMap, picks]

theorem mem_tags (c : Compound) (name : String) : name ∈ c.tags ↔ .tag name ∈ c.components :=
  mem_picked (fun s _ => by cases s <;> simp) c.components name

theorem mem_ids (c : Compound) (name : String) : name ∈ c.ids ↔ .id name ∈ c.components :=
  mem_picked (fun s _ => by cases s <;> simp) c.components name

theorem mem_classes (c : Compound) (name : String) :
    name ∈ c.classes ↔ .className name ∈ c.components :=
  mem_picked (fun s _ => by cases s <;> simp) c.components name

theorem mem_pseudoClasses (c : Compound) (name : String) :
    name ∈ c.pseudoClasses ↔ .pseudoClass name ∈ c.components :=
  mem_picked (fun s _ => by cases s <;> simp) c.components name

/-- Two compounds that ask for the same. Of several tags or ids the last one counts. -/
structure Alike (a b : Compound) : Prop where
  tag : a.tags.getLast? = b.tags.getLast?
  id : a.ids.getLast? = b.ids.getLast?
  classes : ∀ name, .className name ∈ a.components ↔ .className name ∈ b.components
  pseudoClasses : ∀ name, .pseudoClass name ∈ a.components ↔ .pseudoClass name ∈ b.components

end Compound

theorem Qualifier.ofCompound_eq (combinator : Combinator) (c : Compound) :
    ofCompound combinator c = ⟨c.tags.getLast?, c.ids.getLast?, Ordered.texts c.classes,
      Ordered.texts c.pseudoClasses, combinator⟩ := rfl

/-- Qualifiers are a normal form of compounds. -/
theorem Qualifier.ofCompound_eq_iff (combinator other : Combinator) (a b : Compound) :
    ofCompound combinator a = ofCompound other b ↔ combinator = other ∧ a.Alike b := by
  simp only [ofCompound_eq, Qualifier.mk.injEq, Ordered.texts_eq_iff, Compound.mem_classes,
    Compound.mem_pseudoClasses]
  constructor
  · rintro ⟨tag, id, classes, pseudoClasses, same⟩
    exact ⟨same, tag, id, classes, pseudoClasses⟩
  · rintro ⟨same, alike⟩
    exact ⟨alike.tag, alike.id, alike.classes, alike.pseudoClasses, same⟩

theorem RuleTree.pathOf_eq_iff (s other : Selector) : pathOf s = pathOf other ↔
    List.Forall₂ (fun a b => a.1 = b.1 ∧ a.2.Alike b.2) s.segments other.segments := by
  rw [pathOf, pathOf, ← List.forall₂_eq_eq_eq, List.forall₂_map_left_iff,
    List.forall₂_map_right_iff]
  simp only [Qualifier.ofCompound_eq_iff]

/-- A node as it may be later: with more children after those it had, and with other properties. -/
structure RuleNode.Continues {V : Type} (node later : RuleNode V) : Prop where
  qualifier : later.qualifier = node.qualifier
  specificity : later.specificity = node.specificity
  parent : later.parent = node.parent
  children : node.children <+: later.children

namespace RuleTree
variable {V : Type}

theorem continues_refl (node : RuleNode V) : node.Continues node :=
  ⟨rfl, rfl, rfl, List.prefix_rfl⟩

theorem continues_trans {a b c : RuleNode V} (first : a.Continues b) (second : b.Continues c) :
    a.Continues c :=
  ⟨second.qualifier.trans first.qualifier, second.specificity.trans first.specificity,
    second.parent.trans first.parent, first.children.trans second.children⟩

def Extends (t later : RuleTree V) : Prop :=
  ∀ n node, t.find? n = some node → ∃ other, later.find? n = some other ∧ node.Continues other

theorem Extends.refl (t : RuleTree V) : t.Extends t :=
  fun _ node found => ⟨node, found, continues_refl node⟩

theorem Extends.trans {t u v : RuleTree V} (first : t.Extends u) (second : u.Extends v) :
    t.Extends v := by
  intro n node found
  obtain ⟨middle, also, early⟩ := first n node found
  obtain ⟨last, still, late⟩ := second n middle also
  exact ⟨last, still, continues_trans early late⟩

theorem push_extends (t : RuleTree V) (node : RuleNode V) : t.Extends ⟨t.nodes.push node⟩ := by
  intro n old found
  have different : n ≠ t.nodes.size := Nat.ne_of_lt (lt_of_find found)
  exact ⟨old, by rw [find_push, if_neg different, found], continues_refl old⟩

theorem modify_extends (t : RuleTree V) (n : RuleNodeId) {f : RuleNode V → RuleNode V}
    (continues : ∀ node : RuleNode V, node.Continues (f node)) : t.Extends (t.modify n f) := by
  intro x node found
  by_cases same : x = n
  · exact ⟨f node, by rw [find_modify, if_pos same, found]; rfl, continues node⟩
  · exact ⟨node, by rw [find_modify, if_neg same, found], continues_refl node⟩

theorem edit_extends (t : RuleTree V) (n : RuleNodeId) (f : Dictionary V → Dictionary V) :
    t.Extends (t.edit n f) := by
  apply modify_extends
  intro node
  exact ⟨rfl, rfl, rfl, List.prefix_rfl⟩

theorem descend_extends (t : RuleTree V) (n : RuleNodeId) (q : Qualifier) :
    t.Extends (t.descend n q).2 := by
  rw [descend]
  split
  case h_1 => exact Extends.refl t
  case h_2 node found =>
    split
    case h_1 => exact Extends.refl t
    case h_2 =>
      exact (push_extends t _).trans
        (modify_extends _ n fun _ => ⟨rfl, rfl, rfl, List.prefix_append _ _⟩)

structure Stable (P : RuleTree V → Prop) : Prop where
  descend : ∀ {t : RuleTree V} (n : RuleNodeId) (q : Qualifier), P t → P (t.descend n q).2
  edit : ∀ {t : RuleTree V} (n : RuleNodeId) (f : Dictionary V → Dictionary V),
    P t → P (t.edit n f)

section Stable
variable {P : RuleTree V → Prop} (stable : Stable P) {t : RuleTree V}
include stable

theorem Stable.descendAll (n : RuleNodeId) (path : List Qualifier) (holds : P t) :
    P (t.descendAll n path).2 := by
  induction path generalizing t n with
  | nil => exact holds
  | cons q rest ih => exact ih _ (stable.descend n q holds)

theorem Stable.insert (s : Selector) (properties : Dictionary V) (holds : P t) :
    P (t.insert s properties).2 :=
  stable.edit (t.descendAll root (pathOf s)).1 (fun held => held.merge properties)
    (stable.descendAll root (pathOf s) holds)

theorem Stable.adopt (other : RuleTree V) (n : RuleNodeId) (theirs : List RuleNodeId)
    (holds : P t) : P (t.adopt other n theirs).2 := by
  induction theirs generalizing t with
  | nil => exact holds
  | cons c rest ih =>
      rw [RuleTree.adopt]
      split
      case h_1 => exact ih holds
      case h_2 node found => exact ih (stable.descend n node.qualifier holds)

theorem Stable.mergeDue (other : RuleTree V) (offset fuel : Nat)
    (due : List (RuleNodeId × RuleNodeId)) (holds : P t) :
    P (mergeDue other offset fuel due t) := by
  fun_induction RuleTree.mergeDue other offset fuel due t with
  | case1 => exact holds
  | case2 => exact holds
  | case3 t fuel theirs ours due missing ih => exact ih holds
  | case4 fuel theirs ours due t node found merged children grown adopted ih =>
      have offered : P merged := by
        by_cases top : theirs = root
        · simpa only [merged, if_pos top] using holds
        · simp only [merged, if_neg top]
          exact stable.edit ours _ holds
      have more := stable.adopt other ours node.children offered
      rw [adopted] at more
      exact ih more

theorem Stable.merge (other : RuleTree V) (offset : Nat) (holds : P t) :
    P (t.merge other offset) :=
  stable.mergeDue other offset _ _ holds

end Stable

theorem extends_stable (t : RuleTree V) : Stable t.Extends where
  descend n q grows := grows.trans (descend_extends _ n q)
  edit n f grows := grows.trans (edit_extends _ n f)

theorem insert_extends (t : RuleTree V) (s : Selector) (properties : Dictionary V) :
    t.Extends (t.insert s properties).2 :=
  (extends_stable t).insert s properties (Extends.refl t)

theorem merge_extends (t other : RuleTree V) (offset : Nat) : t.Extends (t.merge other offset) :=
  (extends_stable t).merge other offset (Extends.refl t)

theorem Extends.parent {t later : RuleTree V} (grows : t.Extends later) {n : RuleNodeId}
    (bound : n < t.nodes.size) :
    later.parent? n = t.parent? n ∧ later.qualifier n = t.qualifier n := by
  obtain ⟨node, found⟩ := find_of_lt bound
  obtain ⟨other, also, continues⟩ := grows n node found
  simp [parent?, qualifier, found, also, continues.parent, continues.qualifier]

theorem Extends.chain {t later : RuleTree V} (grows : t.Extends later) (valid : t.WellFormed)
    (after : later.WellFormed) {n : RuleNodeId} (bound : n < t.nodes.size) :
    later.chain n = t.chain n := by
  -- Parents are older than their children.
  induction n using Nat.strongRecOn with
  | _ n ih =>
      obtain ⟨parent, qualifier⟩ := grows.parent bound
      cases known : t.parent? n with
      | none => rw [chain_top known, chain_top (parent.trans known)]
      | some p =>
          have older := valid.older known
          rw [chain_step valid known, chain_step after (parent.trans known), qualifier,
            ih p older (Nat.lt_trans older bound)]

/-- In a tree that has grown a path leads where it led. -/
theorem Extends.keeps {t later : RuleTree V} (grows : t.Extends later) (valid : t.WellFormed)
    (after : later.WellFormed) : t.Keeps later := by
  intro path n leads
  obtain ⟨bound, chain⟩ := chain_of_at valid leads
  obtain ⟨node, found⟩ := find_of_lt bound
  obtain ⟨other, also, -⟩ := grows n node found
  have reached := at_chain after (lt_of_find also)
  rwa [grows.chain valid after bound, chain, List.reverse_reverse] at reached

inductive Later (t : RuleTree V) : RuleTree V → Prop where
  | same : Later t t
  | insert {later : RuleTree V} (s : Selector) (properties : Dictionary V) :
      Later t later → Later t (later.insert s properties).2
  | merge {later other : RuleTree V} (offset : Nat) :
      Later t later → other.Reached → Later t (later.merge other offset)

theorem Later.reached {t later : RuleTree V} (grown : t.Later later) (reached : t.Reached) :
    later.Reached := by
  induction grown with
  | same => exact reached
  | insert s properties _ ih => exact .insert s properties ih
  | merge offset _ other ih => exact .merge offset ih other

theorem Later.extends {t later : RuleTree V} (grown : t.Later later) : t.Extends later := by
  induction grown with
  | same => exact Extends.refl t
  | insert s properties _ ih => exact ih.trans (insert_extends _ s properties)
  | merge offset _ _ ih => exact ih.trans (merge_extends _ _ offset)

/-- A selector is inserted at the end of its path. -/
theorem at_insert {t : RuleTree V} (valid : t.WellFormed) (s : Selector)
    (properties : Dictionary V) :
    (t.insert s properties).2.at? (pathOf s) = some (t.insert s properties).1 := by
  obtain ⟨grown, -, reached, -⟩ := descendAll_spec valid (at_nil t) (pathOf s)
  rw [List.nil_append] at reached
  obtain ⟨-, keeps, -⟩ :=
    edit_spec grown reached (pathOf_ne_nil s) fun held => held.merge properties
  exact keeps _ _ reached

theorem insert_same_iff {t later : RuleTree V} (reached : t.Reached) {s other : Selector}
    {properties more : Dictionary V} (grown : (t.insert s properties).2.Later later) :
    (later.insert other more).1 = (t.insert s properties).1 ↔ pathOf other = pathOf s := by
  have first := Reached.insert s properties reached
  have next := grown.reached first
  have last := (Reached.insert other more next).wellformed
  have ends := at_insert next.wellformed other more
  -- The path of the first selector still leads to its node at the second one.
  have still : (later.insert other more).2.at? (pathOf s) = some (t.insert s properties).1 :=
    (grown.extends.trans (insert_extends later other more)).keeps first.wellformed last _ _
      (at_insert reached.wellformed s properties)
  constructor
  · intro same
    exact at_inj last (same ▸ ends) still
  · intro same
    rw [same] at ends
    exact Option.some.inj (ends.symm.trans still)

theorem descend_held (t : RuleTree V) (n : RuleNodeId) (q : Qualifier) (x : RuleNodeId) :
    (t.descend n q).2.held x = t.held x := by
  cases found : t.find? n with
  | none => simp [descend, found]
  | some node =>
      have bound := lt_of_find found
      cases known : t.child? n q with
      | some c => rw [descend_of_child bound known]
      | none => rw [descend_of_none bound known, held_sprout bound]

theorem descendAll_held (t : RuleTree V) (n : RuleNodeId) (path : List Qualifier)
    (x : RuleNodeId) : (t.descendAll n path).2.held x = t.held x := by
  induction path generalizing t n with
  | nil => rfl
  | cons q rest ih => exact (ih _ _).trans (descend_held t n q x)

/-- An insertion changes what its own node holds and nothing else. -/
theorem insert_held {t : RuleTree V} (valid : t.WellFormed) (s : Selector)
    (properties : Dictionary V) (x : RuleNodeId) : (t.insert s properties).2.held x =
      if x = (t.insert s properties).1 then (t.held x).merge properties else t.held x := by
  obtain ⟨grown, -, reached, -⟩ := descendAll_spec valid (at_nil t) (pathOf s)
  have bound := (chain_of_at grown reached).1
  rw [insert, held_edit bound, descendAll_held, descendAll_held]
  by_cases same : x = (t.descendAll root (pathOf s)).1
  · rw [if_pos same, same]
    simp
  · rw [if_neg same]
    simp [same]

/-- Qualifiers tell the children of a node apart, the links agree and lead everywhere from the root.
A tree only grows; an insertion ends at the path of its selector, where it stays, and changes what
is held there. -/
theorem reached_grows {t : RuleTree V} (reached : t.Reached) :
    (∀ n, ((t.children n).map t.qualifier).Nodup) ∧
    (∀ n c, c ∈ t.children n ↔ t.parent? c = some n) ∧
    (∀ n, (t.find? n).isSome = true → ∃ path, t.Leads path n) ∧
    (∀ later, t.Later later → t.Extends later) ∧
    (∀ s properties,
      (∀ path, (t.insert s properties).2.Leads path (t.insert s properties).1 ↔ path = pathOf s) ∧
      (∀ later, (t.insert s properties).2.Later later → ∀ other more,
        (later.insert other more).1 = (t.insert s properties).1 ↔ pathOf other = pathOf s) ∧
      ∀ n, n ≠ (t.insert s properties).1 → (t.insert s properties).2.held n = t.held n) ∧
    ∀ s other : Selector, pathOf s = pathOf other ↔
      List.Forall₂ (fun a b => a.1 = b.1 ∧ a.2.Alike b.2) s.segments other.segments := by
  have valid := reached.wellformed
  refine ⟨valid.apart, fun n c => ⟨valid.owned, valid.listed⟩, ?_, fun _ grown => grown.extends,
    fun s properties => ⟨?_, fun _ grown _ _ => insert_same_iff reached grown, ?_⟩, pathOf_eq_iff⟩
  · intro n present
    obtain ⟨node, found⟩ := Option.isSome_iff_exists.mp present
    exact ⟨t.route n, (leads_iff valid _ n).mpr (at_route valid (lt_of_find found))⟩
  · have after := (Reached.insert s properties reached).wellformed
    have ends := at_insert valid s properties
    intro path
    rw [leads_iff after]
    constructor
    · intro leads
      exact at_inj after leads ends
    · rintro rfl
      exact ends
  · intro n different
    rw [insert_held valid, if_neg different]

/-- Items of an open menu, written in two ways. -/
theorem reached_grows_menu :
    let items : List (Combinator × Compound) := [(.child, ⟨[.tag "li"]⟩)]
    let s : Selector := ⟨⟨[.className "menu", .className "open"]⟩, items⟩
    let other : Selector :=
      ⟨⟨[.className "open", .className "menu", .className "open"]⟩, items⟩
    let t := (empty : RuleTree Unit).insert s .empty
    (t.2.insert other .empty).1 = t.1 ∧ t.2.Extends (t.2.insert other .empty).2 := by
  intro items s other t
  obtain ⟨-, -, -, -, inserted, normal⟩ := reached_grows (V := Unit) .empty
  obtain ⟨-, -, -, grown, -⟩ := reached_grows (.insert s .empty (.empty (V := Unit)))
  have same : pathOf other = pathOf s := by
    have first : other.first.Alike s.first := by
      refine ⟨rfl, rfl, fun name => ?_, fun name => by simp [s, other]⟩
      simp only [s, other, List.mem_cons, List.not_mem_nil, or_false]
      tauto
    exact (normal other s).mpr (.cons ⟨rfl, first⟩ (.cons ⟨rfl, rfl, rfl, by simp, by simp⟩ .nil))
  exact ⟨((inserted s .empty).2.1 _ .same other .empty).mpr same,
    grown _ (.insert other .empty .same)⟩

end RuleTree

/-! What a qualifier keeps of its compound.
Classes and pseudo-classes are all kept, but of several tags or ids only the last one is. So a
qualifier misses no element that its compound means, and means no other one exactly if the compound
names one tag at most and one id at most, however often. -/

def SimpleSelector.Holds (e : ElementData) : SimpleSelector → Prop
  | .tag name => e.tag = name
  | .universal => True
  | .id name => e.id = some name
  | .className name => e.hasClass name = true
  | .pseudoClass name => e.hasPseudoClass name = true

namespace Compound

def Holds (c : Compound) (e : ElementData) : Prop := ∀ s ∈ c.components, s.Holds e

/-- What is left of a compound if tags and ids give way to later ones. -/
structure Asks (c : Compound) (e : ElementData) : Prop where
  tag : ∀ name, c.tags.getLast? = some name → e.tag = name
  id : ∀ name, c.ids.getLast? = some name → e.id = some name
  classes : ∀ name, .className name ∈ c.components → e.hasClass name = true
  pseudoClasses : ∀ name, .pseudoClass name ∈ c.components → e.hasPseudoClass name = true

/-- Of the tags no two differ, nor of the ids. -/
structure Single (c : Compound) : Prop where
  tag : ∀ name other, .tag name ∈ c.components → .tag other ∈ c.components → name = other
  id : ∀ name other, .id name ∈ c.components → .id other ∈ c.components → name = other

variable {c : Compound} {e : ElementData}

theorem Holds.asks (holds : c.Holds e) : c.Asks e where
  tag name last := holds _ ((c.mem_tags name).mp (List.mem_of_getLast? last))
  id name last := holds _ ((c.mem_ids name).mp (List.mem_of_getLast? last))
  classes _ member := holds _ member
  pseudoClasses _ member := holds _ member

-- A name that occurs is the last one if no two differ.
theorem last_of_single {names : List String} {name : String} (member : name ∈ names)
    (single : ∀ other ∈ names, other = name) : names.getLast? = some name := by
  have last := List.getLast?_eq_some_getLast (List.ne_nil_of_mem member)
  rw [last, single _ (List.getLast_mem _)]

theorem Asks.holds (asks : c.Asks e) (single : c.Single) : c.Holds e := by
  intro s member
  cases s with
  | tag name =>
      apply asks.tag name (last_of_single ((c.mem_tags name).mpr member) fun other among => ?_)
      exact single.tag other name ((c.mem_tags other).mp among) member
  | universal => trivial
  | id name =>
      apply asks.id name (last_of_single ((c.mem_ids name).mpr member) fun other among => ?_)
      exact single.id other name ((c.mem_ids other).mp among) member
  | className name => exact asks.classes name member
  | pseudoClass name => exact asks.pseudoClasses name member

/-- An element that has just what the qualifier of a compound asks for. -/
def sample (c : Compound) : ElementData :=
  ⟨c.tags.getLast?.getD "", c.ids.getLast?, c.classes, c.pseudoClasses⟩

theorem asks_sample (c : Compound) : c.Asks c.sample where
  tag name last := by simp [sample, last]
  id name last := last
  classes name member := List.contains_iff_mem.mpr ((c.mem_classes name).mpr member)
  pseudoClasses name member := List.contains_iff_mem.mpr ((c.mem_pseudoClasses name).mpr member)

theorem Holds.single (holds : c.Holds c.sample) : c.Single where
  tag _ _ first second := (holds _ first).symm.trans (holds _ second)
  id _ _ first second := Option.some.inj ((holds _ first).symm.trans (holds _ second))

end Compound

namespace Qualifier

theorem holds_iff_asks (combinator : Combinator) (c : Compound) (e : ElementData) :
    (ofCompound combinator c).holds e = true ↔ c.Asks e := by
  rw [ofCompound_eq]
  simp only [holds, Bool.and_eq_true, Option.all_eq_true, List.all_eq_true, beq_iff_eq,
    Ordered.texts, Ordered.mem_ofList, Compound.mem_classes, Compound.mem_pseudoClasses]
  constructor
  · rintro ⟨⟨⟨tag, id⟩, classes⟩, pseudoClasses⟩
    exact ⟨fun name last => (tag name last).symm, id, classes, pseudoClasses⟩
  · intro asks
    exact ⟨⟨⟨fun name last => (asks.tag name last).symm, asks.id⟩, asks.classes⟩,
      asks.pseudoClasses⟩

/-- The qualifier of a compound asks for the last tag, the last id and every class and pseudo-class
of it. So it holds wherever the compound does, and nowhere else exactly if the compound has no two
tags or ids that differ. -/
theorem ofCompound_faithful (combinator : Combinator) (c : Compound) :
    (∀ e, (ofCompound combinator c).holds e = true ↔ c.Asks e) ∧
    (∀ e, c.Holds e → (ofCompound combinator c).holds e = true) ∧
    ((∀ e, (ofCompound combinator c).holds e = true ↔ c.Holds e) ↔ c.Single) := by
  have asks := holds_iff_asks combinator c
  refine ⟨asks, fun e holds => (asks e).mpr holds.asks, ?_⟩
  constructor
  · intro faithful
    exact ((faithful c.sample).mp ((asks c.sample).mpr c.asks_sample)).single
  · intro single e
    exact ⟨fun holds => ((asks e).mp holds).holds single, fun holds => (asks e).mpr holds.asks⟩

/-- Of `#a#b` the qualifier keeps the second id alone. -/
theorem not_faithful_ids :
    (ofCompound .descendant ⟨[.id "a", .id "b"]⟩).holds { tag := "p", id := some "b" } = true ∧
    ¬ Compound.Holds ⟨[.id "a", .id "b"]⟩ { tag := "p", id := some "b" } := by
  refine ⟨by decide, fun holds => ?_⟩
  have first : some "b" = some "a" := holds (.id "a") List.mem_cons_self
  exact absurd first (by decide)

end Qualifier
end Cascade
