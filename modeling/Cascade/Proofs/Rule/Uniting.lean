import Cascade.Proofs.Rule.Growing
import Mathlib.Algebra.GroupWithZero.Nat
/-!
What a merge makes of two trees.

A merge takes the nodes of the other tree one by one, parents first and each of them once, to the
node of the same path. So afterwards there are the paths of both trees, new children behind those
that were there, what the other tree holds is imported once at its paths, and nodes at all other
paths are left alone.
-/
namespace Cascade.RuleTree
open Traversal
variable {V : Type}

/-- The trees that insertions and merges lead to, with changes in between to what nodes below the
root hold. -/
inductive Tended : RuleTree V → Prop where
  | empty : Tended empty
  | insert {t : RuleTree V} (s : Selector) (properties : Dictionary V) :
      Tended t → Tended (t.insert s properties).2
  | merge {t other : RuleTree V} (offset : Nat) :
      Tended t → Tended other → Tended (t.merge other offset)
  | edit {t : RuleTree V} {n : RuleNodeId} (f : Dictionary V → Dictionary V) :
      Tended t → n < t.nodes.size → n ≠ root → Tended (t.edit n f)

theorem Tended.wellformed {t : RuleTree V} (tended : t.Tended) : t.WellFormed := by
  induction tended with
  | empty => exact empty_wellformed
  | insert s properties _ ih => exact (insert_spec ih s properties).1
  | merge offset _ _ first second => exact (merge_spec first second offset).1
  | edit f _ bound inner ih => exact edit_wellformed ih bound inner f

/-- The tree with one node of another tree merged at its path: what it holds imported, and its
children found or created. -/
def graft (other : RuleTree V) (offset : Nat) (t : RuleTree V) (theirs : RuleNodeId) : RuleTree V :=
  match t.at? (other.route theirs) with
  | none => t
  | some ours => (absorb other offset theirs ours t).2

theorem mergeDue_grafts {other : RuleTree V} (theirValid : other.WellFormed) (offset : Nat)
    {fuel : Nat} {nodes : List RuleNodeId} (enough : Enough other.children fuel nodes)
    (due : List (RuleNodeId × RuleNodeId)) (firsts : due.map Prod.fst = nodes) (t : RuleTree V)
    (valid : t.WellFormed)
    (leads : ∀ pair ∈ due, pair.1 < other.nodes.size ∧ t.at? (other.route pair.1) = some pair.2) :
    mergeDue other offset fuel due t =
      (sweep other.children fuel nodes).foldl (graft other offset) t := by
  -- Every pair that is due has the node that the path of its first node leads to.
  induction enough generalizing due t with
  | @done fuel =>
      obtain rfl := List.map_eq_nil_iff.mp firsts
      cases fuel <;> rfl
  | @visit fuel n nodes _ ih =>
      obtain ⟨⟨theirs, ours⟩, due, rfl, rfl, rfl⟩ := List.map_eq_cons_iff.mp firsts
      obtain ⟨bound, position⟩ := leads _ List.mem_cons_self
      obtain ⟨after, keeps, children, pairs, -⟩ :=
        absorb_spec offset valid theirValid bound position
      have grafted : graft other offset t theirs = (absorb other offset theirs ours t).2 := by
        rw [graft, position]
      rw [mergeDue_cons bound, sweep, List.foldl_cons, grafted]
      refine ih _ (by rw [List.map_append, children]) _ after fun pair member => ?_
      rcases List.mem_append.mp member with child | later
      · exact ⟨theirValid.forest.bounded (children ▸ List.mem_map_of_mem child), pairs pair child⟩
      · obtain ⟨present, reached⟩ := leads pair (List.mem_cons_of_mem _ later)
        exact ⟨present, keeps _ _ reached⟩

/-- A merge grafts the root and then every other node in pre-order. -/
theorem merge_eq_grafts {t other : RuleTree V} (valid : t.WellFormed)
    (theirValid : other.WellFormed) (offset : Nat) :
    t.merge other offset = (root :: other.preorder).foldl (graft other offset) t := by
  have rooted : ∀ n ∈ [root], n < other.nodes.size := by
    intro n member
    exact List.mem_singleton.mp member ▸ theirValid.rooted
  have enough : Enough other.children other.nodes.size [root] :=
    enough_of_size theirValid.forest (separate_singleton root) rooted (Nat.le_refl _)
  have visited : sweep other.children other.nodes.size [root] = root :: other.preorder := by
    rw [sweep_eq_subtrees theirValid.forest enough, List.flatMap_singleton,
      preorder_eq_subtree theirValid.forest]
  rw [← visited]
  refine mergeDue_grafts theirValid offset enough [(root, root)] rfl t valid fun pair member => ?_
  obtain rfl := List.mem_singleton.mp member
  exact ⟨theirValid.rooted, by rw [route_root theirValid, at_nil]⟩

/-- A path leads somewhere exactly if its last qualifier goes on from the path before it. -/
theorem leads_concat {t : RuleTree V} (valid : t.WellFormed) (path : List Qualifier)
    (q : Qualifier) : (∃ n, t.Leads (path ++ [q]) n) ↔ q ∈ t.outline.children path := by
  simp only [leads_iff valid, at_append]
  cases reached : t.at? path with
  | none => simp [outline, reached]
  | some p =>
      rw [outline_children reached, List.mem_map]
      exact exists_congr fun c => child_eq_some valid p c q

structure Unites (t other : RuleTree V) (offset : Nat) (merged : RuleTree V) : Prop where
  /-- There are the paths of both trees. -/
  paths : ∀ path, (∃ n, merged.Leads path n) ↔ (∃ n, t.Leads path n) ∨ ∃ n, other.Leads path n
  /-- New children come after those that are there, in the order they have in the other tree. -/
  children : ∀ path, merged.outline.children path = t.outline.children path ++
    (other.outline.children path).filter (· ∉ t.outline.children path)
  /-- What the other tree holds is over what was held at the same path, if anything was. -/
  properties : ∀ path m, other.Leads path m → ∃ n, merged.Leads path n ∧
    merged.held n = (t.outline.properties path).importFrom offset (other.held m)
  /-- Nodes keep their numbers, and those at no path of the other tree stay as they are. -/
  others : ∀ path n, t.Leads path n →
    merged.Leads path n ∧ ((∀ m, ¬ other.Leads path m) → merged.find? n = t.find? n)

section Merge
variable {t other : RuleTree V} (valid : t.WellFormed) (theirValid : other.WellFormed)
  (offset : Nat)
include valid theirValid

theorem merge_keeps : t.Keeps (t.merge other offset) :=
  (merge_extends t other offset).keeps valid (merge_spec valid theirValid offset).1

theorem leads_merge (path : List Qualifier) : (∃ n, (t.merge other offset).Leads path n) ↔
    (∃ n, t.Leads path n) ∨ ∃ n, other.Leads path n := by
  obtain ⟨after, outlined⟩ := merge_spec valid theirValid offset
  induction path using List.reverseRecOn with
  | nil => exact ⟨fun _ => Or.inl ⟨root, .root⟩, fun _ => ⟨root, .root⟩⟩
  | append_singleton path q _ =>
      rw [leads_concat after, leads_concat valid, leads_concat theirValid, outlined]
      exact mem_foldl_adjoin _ _ q

theorem children_merge (path : List Qualifier) :
    (t.merge other offset).outline.children path = t.outline.children path ++
      (other.outline.children path).filter (· ∉ t.outline.children path) := by
  have distinct : (other.outline.children path).Nodup := by
    cases reached : other.at? path with
    | none => simp [outline, reached]
    | some n =>
        rw [outline_children reached]
        exact theirValid.apart n
  rw [(merge_spec valid theirValid offset).2]
  exact foldl_adjoin_nodup _ distinct

theorem properties_merge (path : List Qualifier) : (t.merge other offset).outline.properties path =
    (t.outline.properties path).importFrom offset (other.outline.properties path) := by
  rw [(merge_spec valid theirValid offset).2]
  rfl

theorem held_merge {path : List Qualifier} {m : RuleNodeId} (leads : other.Leads path m) :
    ∃ n, (t.merge other offset).Leads path n ∧ (t.merge other offset).held n =
      (t.outline.properties path).importFrom offset (other.held m) := by
  have after := (merge_spec valid theirValid offset).1
  obtain ⟨n, reached⟩ := (leads_merge valid theirValid offset path).mpr (Or.inr ⟨m, leads⟩)
  refine ⟨n, reached, ?_⟩
  rw [← outline_properties ((leads_iff after _ _).mp reached),
    ← outline_properties ((leads_iff theirValid _ _).mp leads),
    properties_merge valid theirValid offset]

theorem find_merge {path : List Qualifier} {n : RuleNodeId} (leads : t.Leads path n)
    (missing : ∀ m, ¬ other.Leads path m) : (t.merge other offset).find? n = t.find? n := by
  rw [leads_iff valid] at leads
  have reached := merge_keeps valid theirValid offset path n leads
  have absent : other.at? path = none := by
    apply Option.eq_none_iff_forall_ne_some.mpr
    intro m known
    exact missing m ((leads_iff theirValid path m).mpr known)
  obtain ⟨node, found⟩ := find_of_lt (chain_of_at valid leads).1
  obtain ⟨later, also, continues⟩ := merge_extends t other offset n node found
  -- Children come after those that are there, and here none do.
  have lists : later.children = node.children := by
    have none : other.outline.children path = [] := by simp [outline, absent]
    have same := children_merge valid theirValid offset path
    rw [none, List.filter_nil, List.append_nil, outline_children reached,
      outline_children leads] at same
    have length : later.children.length = node.children.length := by
      simpa [children, also, found] using congrArg List.length same
    exact (continues.children.eq_of_length length.symm).symm
  have holds : later.properties = node.properties := by
    have none : other.outline.properties path = .empty := by simp [outline, absent]
    have same := properties_merge valid theirValid offset path
    rw [none, Dictionary.importFrom_empty, outline_properties reached,
      outline_properties leads] at same
    simpa [held, also, found] using same
  obtain ⟨qualifier, specificity, parent, -⟩ := continues
  rw [also, found]
  cases node
  cases later
  simp_all

end Merge

/-- After a merge there are the paths of both trees, what the other one holds is imported at its
paths, and all else is as it was. Every node of the other tree is grafted once. -/
theorem merge_unites {t other : RuleTree V} (tended : t.Tended) (theirs : other.Tended)
    (offset : Nat) :
    t.Unites other offset (t.merge other offset) ∧
    t.merge other offset = (root :: other.preorder).foldl (graft other offset) t ∧
    (root :: other.preorder).Nodup ∧
    ∀ m, m ∈ root :: other.preorder ↔ (other.find? m).isSome = true := by
  have valid := tended.wellformed
  have theirValid := theirs.wellformed
  refine ⟨⟨leads_merge valid theirValid offset, children_merge valid theirValid offset,
    fun _ _ leads => held_merge valid theirValid offset leads, fun path n leads => ⟨?_, ?_⟩⟩,
    merge_eq_grafts valid theirValid offset, ?_, fun m => ?_⟩
  · have after := (merge_spec valid theirValid offset).1
    rw [leads_iff valid] at leads
    exact (leads_iff after path n).mpr (merge_keeps valid theirValid offset path n leads)
  · exact find_merge valid theirValid offset leads
  · rw [List.nodup_cons, mem_preorder theirValid]
    exact ⟨fun member => member.2 rfl, preorder_nodup theirValid⟩
  · rw [List.mem_cons, mem_preorder theirValid, find?, isSome_getElem?]
    by_cases top : m = root
    · simp [top, theirValid.rooted]
    · simp [top]

/-- A path that both trees have, with a color in each of them, and paths that only one of them
has. -/
theorem merge_unites_shared :
    let shared : Selector := ⟨⟨[.tag "a"]⟩, [(.descendant, ⟨[.tag "b"]⟩)]⟩
    let beside : Selector := ⟨⟨[.tag "a"]⟩, [(.descendant, ⟨[.tag "e"]⟩)]⟩
    let apart : Selector := ⟨⟨[.tag "f"]⟩, [(.nextSibling, ⟨[.tag "g"]⟩)]⟩
    let color (value order : Nat) : Dictionary Nat :=
      Dictionary.empty.set .color ⟨value, .ofOrder order, ⟨"colors.css", 1⟩⟩
    let base := ((empty.insert shared (color 1 7)).2.insert ⟨⟨[.tag "c"]⟩, []⟩ .empty).2
    let overlay :=
      (((empty.insert shared (color 2 3)).2.insert beside .empty).2.insert apart .empty).2
    base.Unites overlay 1 (base.merge overlay 1) ∧
    (base.merge overlay 1).preorder.map (base.merge overlay 1).selectorText =
      ["a", "a b", "a e", "c", "f", "f + g"] ∧
    ((base.merge overlay 1).held 2).value? .color = some 2 := by
  intro shared beside apart color base overlay
  have ours : base.Tended := .insert _ _ (.insert _ _ .empty)
  have theirs : overlay.Tended := .insert _ _ (.insert _ _ (.insert _ _ .empty))
  exact ⟨(merge_unites ours theirs 1).1, by decide +kernel, by decide +kernel⟩

end Cascade.RuleTree

/-! Two counts of what selectors name.
A selector counts every simple selector that is written. A node of a rule tree counts what its
qualifiers ask for, in which no class stands twice and which have one tag and one id at most. So the
node of a selector never counts more than the selector, and as much if nothing is repeated. -/
namespace Cascade

namespace Specificity

/-- Counts summed component by component, each sum up to the limit. -/
def sum (counts : List Specificity) : Specificity :=
  ⟨min limit (counts.map ids).sum, min limit (counts.map classes).sum,
   min limit (counts.map tags).sum⟩

structure AtMost (a b : Specificity) : Prop where
  ids : a.ids ≤ b.ids
  classes : a.classes ≤ b.classes
  tags : a.tags ≤ b.tags

-- A sum that has stayed at the limit on the way stays there.
theorem sum_concat (counts : List Specificity) (last : Specificity) :
    sum (counts ++ [last]) = sum counts + last := by
  change sum (counts ++ [last]) = add (sum counts) last
  simp only [sum, add, saturatingAdd, List.map_append, List.map_cons, List.map_nil,
    List.sum_append, List.sum_singleton, mk.injEq]
  omega

theorem foldl_add (counts : List Specificity) :
    counts.foldl (fun total count => total + count) zero = sum counts := by
  induction counts using List.reverseRecOn with
  | nil => rfl
  | append_singleton front last ih => rw [List.foldl_append, ih, sum_concat]; rfl

theorem AtMost.sum {counts others : List Specificity}
    (each : List.Forall₂ AtMost counts others) : (sum counts).AtMost (sum others) := by
  have sums : (counts.map Specificity.ids).sum ≤ (others.map Specificity.ids).sum ∧
      (counts.map Specificity.classes).sum ≤ (others.map Specificity.classes).sum ∧
      (counts.map Specificity.tags).sum ≤ (others.map Specificity.tags).sum := by
    induction each with
    | nil => exact ⟨le_rfl, le_rfl, le_rfl⟩
    | cons first _ ih =>
        simp only [List.map_cons, List.sum_cons]
        exact ⟨Nat.add_le_add first.ids ih.1, Nat.add_le_add first.classes ih.2.1,
          Nat.add_le_add first.tags ih.2.2⟩
  exact ⟨min_le_min_left _ sums.1, min_le_min_left _ sums.2.1, min_le_min_left _ sums.2.2⟩

theorem ofSelector_eq (s : Selector) :
    ofSelector s = sum (s.segments.map fun segment => ofCompound segment.2) := by
  rw [← foldl_add, List.foldl_map]
  rfl

theorem ofCompound_eq (c : Compound) : ofCompound c = ⟨min limit c.ids.length,
    min limit (c.classes.length + c.pseudoClasses.length), min limit c.tags.length⟩ := by
  obtain ⟨components⟩ := c
  induction components using List.reverseRecOn with
  | nil => rfl
  | append_singleton front last ih =>
      have step : ofCompound ⟨front ++ [last]⟩ = add (ofCompound ⟨front⟩) (ofSimple last) := by
        rw [ofCompound, List.foldl_append]
        rfl
      rw [step, ih]
      cases last <;>
        simp [add, saturatingAdd, ofSimple, zero, Compound.ids, Compound.classes,
          Compound.pseudoClasses, Compound.tags] <;> omega

end Specificity

/-- There is one id at most and one tag at most, and no class or pseudo-class stands twice. -/
structure Compound.Sparing (c : Compound) : Prop where
  ids : c.ids.length ≤ 1
  tags : c.tags.length ≤ 1
  classes : c.classes.Nodup
  pseudoClasses : c.pseudoClasses.Nodup

namespace Qualifier

theorem length_getLast (names : List String) :
    names.getLast?.toList.length = min 1 names.length := by
  induction names using List.reverseRecOn with
  | nil => rfl
  | append_singleton front last _ => simp

theorem specificity_ofCompound (combinator : Combinator) (c : Compound) :
    (ofCompound combinator c).specificity = ⟨min 1 c.ids.length,
      min Specificity.limit ((Ordered.texts c.classes).length +
        (Ordered.texts c.pseudoClasses).length), min 1 c.tags.length⟩ := by
  rw [ofCompound_eq, specificity, length_getLast, length_getLast]

theorem specificity_atMost (combinator : Combinator) (c : Compound) :
    (ofCompound combinator c).specificity.AtMost (.ofCompound c) := by
  have one : 1 ≤ Specificity.limit := by decide
  have fewer := Nat.add_le_add (Ordered.length_ofList_le c.classes)
    (Ordered.length_ofList_le c.pseudoClasses)
  rw [specificity_ofCompound, Specificity.ofCompound_eq]
  exact ⟨min_le_min_right _ one, min_le_min_left _ fewer, min_le_min_right _ one⟩

theorem specificity_sparing (combinator : Combinator) {c : Compound} (sparing : c.Sparing) :
    (ofCompound combinator c).specificity = .ofCompound c := by
  have one : 1 ≤ Specificity.limit := by decide
  rw [specificity_ofCompound, Specificity.ofCompound_eq, Ordered.texts, Ordered.texts,
    Ordered.length_ofList sparing.classes, Ordered.length_ofList sparing.pseudoClasses,
    min_eq_right sparing.ids, min_eq_right sparing.tags, min_eq_right (sparing.ids.trans one),
    min_eq_right (sparing.tags.trans one)]

end Qualifier

namespace RuleTree
variable {V : Type}

theorem total_leads {t : RuleTree V} (valid : t.WellFormed) {path : List Qualifier}
    {n : RuleNodeId} (leads : t.Leads path n) :
    t.total n = .sum (path.map Qualifier.specificity) := by
  induction leads with
  | root => exact valid.weightless
  | @step path p c node _ child found ih =>
      have same : t.qualifier c = node.qualifier := by simp [qualifier, found]
      rw [List.map_append, List.map_singleton, Specificity.sum_concat, ← ih, ← same,
        valid.summed (valid.owned child)]

/-- A node counts what the qualifiers on its path ask for, and the node of a selector counts no
more than the selector names, and as much if no compound of it repeats anything. -/
theorem tended_weighs {t : RuleTree V} (tended : t.Tended) :
    (∀ n node, t.find? n = some node → ∃ path, (∀ other, t.Leads other n ↔ other = path) ∧
      node.specificity = .sum (path.map Qualifier.specificity)) ∧
    ∀ s properties, ∃ node, (t.insert s properties).2.find? (t.insert s properties).1 = some node ∧
      node.specificity.AtMost (.ofSelector s) ∧
      ((∀ segment ∈ s.segments, segment.2.Sparing) → node.specificity = .ofSelector s) := by
  constructor
  · intro n node found
    have valid := tended.wellformed
    have leads := at_route valid (lt_of_find found)
    refine ⟨t.route n, fun other => ?_, ?_⟩
    · rw [leads_iff valid]
      exact ⟨fun also => (route_of_at valid also).symm, fun same => same ▸ leads⟩
    · rw [← total_leads valid ((leads_iff valid _ _).mpr leads)]
      simp [total, found]
  · intro s properties
    have valid := (Tended.insert s properties tended).wellformed
    have leads := at_insert tended.wellformed s properties
    obtain ⟨node, found⟩ := find_of_lt (chain_of_at valid leads).1
    -- The path of the node is that of the selector, with one qualifier for each compound.
    have weighs : node.specificity = .sum (s.segments.map fun segment =>
        (Qualifier.ofCompound segment.1 segment.2).specificity) := by
      have counted : (t.insert s properties).2.total (t.insert s properties).1 =
          node.specificity := by simp [total, found]
      have summed := total_leads valid ((leads_iff valid _ _).mpr leads)
      rw [counted, pathOf, List.map_map] at summed
      exact summed
    refine ⟨node, found, ?_, fun sparing => ?_⟩
    · rw [weighs, Specificity.ofSelector_eq]
      apply Specificity.AtMost.sum
      rw [List.forall₂_map_left_iff, List.forall₂_map_right_iff, List.forall₂_same]
      exact fun segment _ => Qualifier.specificity_atMost segment.1 segment.2
    · rw [weighs, Specificity.ofSelector_eq]
      congr 1
      apply List.map_congr_left
      exact fun segment member => Qualifier.specificity_sparing segment.1 (sparing segment member)

/-- A link counts as much as its selector, but not for a class that is named twice. -/
theorem tended_weighs_link :
    let link (classes : List SimpleSelector) : Selector :=
      ⟨⟨[.id "nav"]⟩, [(.descendant, ⟨.tag "a" :: .pseudoClass "hover" :: classes⟩)]⟩
    let twice := link [.className "open", .className "open"]
    let tree (s : Selector) := (empty : RuleTree Unit).insert s .empty
    (∃ node, (tree (link [])).2.find? (tree (link [])).1 = some node ∧
      node.specificity = .ofSelector (link [])) ∧
    ∃ node, (tree twice).2.find? (tree twice).1 = some node ∧ node.specificity = ⟨1, 2, 1⟩ ∧
      node.specificity.AtMost (.ofSelector twice) ∧
      Specificity.ofSelector twice = ⟨1, 3, 1⟩ := by
  intro link twice tree
  have weighs := (tended_weighs (V := Unit) .empty).2
  constructor
  · obtain ⟨node, found, -, equal⟩ := weighs (link []) .empty
    refine ⟨node, found, equal fun segment member => ?_⟩
    simp only [link, Selector.segments_eq, List.mem_cons, List.not_mem_nil, or_false] at member
    rcases member with rfl | rfl <;> exact ⟨by decide, by decide, by decide, by decide⟩
  · obtain ⟨node, found, most, -⟩ := weighs twice .empty
    have counted : (tree twice).2.total (tree twice).1 = ⟨1, 2, 1⟩ := by decide
    refine ⟨node, found, ?_, most, by decide⟩
    simpa [total, tree, found] using counted

end RuleTree
end Cascade
