import Cascade.Proofs.Document.Linking
import Cascade.Proofs.Rule.Growing
/-!
Rule trees whose properties are in use.

Whoever has a tree may change what its nodes hold, the root included, node by node or in one pass
over all of them. The links stay what insertions and merges make them: nodes form a forest below the
root, and children stand in the order of their creation. So a pass over all properties comes to the
root and to the nodes of the pre-order, to each of them once.
-/
namespace Cascade.RuleTree
open Traversal
variable {V : Type} {t : RuleTree V}

/-- The trees that insertions and merges lead to, with any changes in between to what one node or
all of them hold. -/
inductive Handled : RuleTree V → Prop where
  | empty : Handled empty
  | insert {t : RuleTree V} (s : Selector) (properties : Dictionary V) :
      Handled t → Handled (t.insert s properties).2
  | merge {t other : RuleTree V} (offset : Nat) :
      Handled t → Handled other → Handled (t.merge other offset)
  | edit {t : RuleTree V} (n : RuleNodeId) (f : Dictionary V → Dictionary V) :
      Handled t → Handled (t.edit n f)
  | mapProperties {t : RuleTree V} (f : Dictionary V → Dictionary V) :
      Handled t → Handled (t.mapProperties f)

structure Grown (t : RuleTree V) : Prop where
  shaped : ∃ u : RuleTree V, u.WellFormed ∧ u.SameShape t
  ascending : ∀ n, (t.children n).Pairwise (· < ·)

theorem Grown.of_shape {u : RuleTree V} (grown : t.Grown) (same : t.SameShape u) : u.Grown := by
  obtain ⟨⟨first, valid, shape⟩, ascending⟩ := grown
  exact ⟨⟨first, valid, shape.trans same⟩, fun n => same.lists n ▸ ascending n⟩

theorem Grown.forest (grown : t.Grown) : Forest t.children t.nodes.size := by
  obtain ⟨u, valid, shape⟩ := grown.shaped
  exact shape.forest valid.forest

theorem empty_grown : (empty : RuleTree V).Grown where
  shaped := ⟨empty, empty_wellformed, SameShape.refl empty⟩
  ascending n := by by_cases top : n = root <;> simp [children, find_empty, top]

-- A new child has the greatest number and stands last.
theorem sprout_grown (grown : t.Grown) {n : RuleNodeId} (bound : n < t.nodes.size) {q : Qualifier}
    (new : t.child? n q = none) : (t.sprout n q).Grown where
  shaped := by
    obtain ⟨u, valid, shape⟩ := grown.shaped
    have inside : n < u.nodes.size := shape.size ▸ bound
    have fresh : u.child? n q = none := (shape.child n q).symm.trans new
    exact ⟨u.sprout n q, sprout_wellformed valid inside fresh, sprout_shape shape inside q⟩
  ascending m := by
    rw [children_sprout bound]
    split
    case isTrue =>
      refine List.pairwise_append.mpr ⟨grown.ascending n, List.pairwise_singleton _ _, ?_⟩
      intro c child last member
      exact List.mem_singleton.mp member ▸ grown.forest.bounded child
    case isFalse => exact grown.ascending m

theorem grown_stable : Stable (Grown : RuleTree V → Prop) where
  descend {t} n q grown := by
    cases found : t.find? n with
    | none => simpa [descend, found] using grown
    | some node =>
        have bound := lt_of_find found
        cases known : t.child? n q with
        | some c => rwa [descend_of_child bound known]
        | none =>
            rw [descend_of_none bound known]
            exact sprout_grown grown bound known
  edit n f grown := grown.of_shape (edit_shape _ n f)

theorem find_mapProperties (t : RuleTree V) (f : Dictionary V → Dictionary V) (n : RuleNodeId) :
    (t.mapProperties f).find? n =
      (t.find? n).map fun node => { node with properties := f node.properties } := by
  simp [find?, mapProperties]

theorem mapProperties_shape (t : RuleTree V) (f : Dictionary V → Dictionary V) :
    t.SameShape (t.mapProperties f) := by
  constructor
  · simp [mapProperties]
  all_goals
    intro n
    cases found : t.find? n <;>
      simp [parent?, children, qualifier, total, find_mapProperties, found]

theorem Handled.grown (handled : t.Handled) : t.Grown := by
  induction handled with
  | empty => exact empty_grown
  | insert s properties _ ih => exact grown_stable.insert s properties ih
  | merge offset _ _ ih _ => exact grown_stable.merge _ offset ih
  | edit n f _ ih => exact grown_stable.edit n f ih
  | mapProperties f _ ih => exact ih.of_shape (mapProperties_shape _ f)

theorem Grown.mem_preorder (grown : t.Grown) (n : RuleNodeId) :
    n ∈ t.preorder ↔ n ≠ root ∧ (t.find? n).isSome = true := by
  obtain ⟨u, valid, shape⟩ := grown.shaped
  rw [shape.preorder, RuleTree.mem_preorder valid, find?, isSome_getElem?, shape.size, and_comm]

theorem Grown.preorder_nodup (grown : t.Grown) : t.preorder.Nodup := by
  obtain ⟨u, valid, shape⟩ := grown.shaped
  rw [shape.preorder]
  exact RuleTree.preorder_nodup valid

theorem find_edits {nodes : List RuleNodeId} (distinct : nodes.Nodup) (t : RuleTree V)
    (f : Dictionary V → Dictionary V) (x : RuleNodeId) :
    (nodes.foldl (fun t n => t.edit n f) t).find? x = if x ∈ nodes then
      (t.find? x).map fun node => { node with properties := f node.properties }
      else t.find? x := by
  induction distinct generalizing t with
  | nil => simp
  | @cons n rest new _ ih =>
      rw [List.foldl_cons, ih, find_edit]
      by_cases same : x = n
      · subst same
        have once : x ∉ rest := fun later => new x later rfl
        simp [once]
      · simp [same]

/-- A pass over all properties changes those of the root and of the pre-order's nodes, each once. -/
theorem Grown.mapProperties_eq_edits (grown : t.Grown) (f : Dictionary V → Dictionary V) :
    t.mapProperties f = (root :: t.preorder).foldl (fun t n => t.edit n f) t := by
  have distinct : (root :: t.preorder).Nodup := by
    rw [List.nodup_cons, grown.mem_preorder]
    exact ⟨fun member => member.1 rfl, grown.preorder_nodup⟩
  apply ext_find
  intro x
  rw [find_mapProperties, find_edits distinct]
  split
  case isTrue => rfl
  case isFalse outside =>
    have missing : t.find? x = none := by
      rw [List.mem_cons, grown.mem_preorder, not_or] at outside
      simpa [outside.1] using outside.2
    rw [missing]
    rfl

end Cascade.RuleTree

/-! What traversals list.
The walk of a document and the pre-order of a rule tree keep a list of what is due. They come to
the same nodes in the same order as the recursion over lists of children, to each of them once, and
they leave out nothing. -/
namespace Cascade.Traversal

/-- From any start a walk is the pre-order by recursion, and holds the start and its descendants,
each once. With the root before it the pre-order of a rule tree is the one by recursion too; it
holds every other node once, children in the order of their creation, and a pass over all properties
comes to these nodes and the root. -/
theorem traversals_preorder :
    (∀ (d : Document) (reached : d.Reached) (start : ElementId),
      d.walk start =
        (if d.contains start then subtree reached.wellformed.forest start else []) ∧
      (d.walk start).Nodup ∧
      ∀ x, x ∈ d.walk start ↔ d.contains start = true ∧ d.Goes start x) ∧
    ∀ (V : Type) (t : RuleTree V) (handled : t.Handled),
      RuleTree.root :: t.preorder = subtree handled.grown.forest RuleTree.root ∧
      t.preorder.Nodup ∧
      (∀ n, n ∈ t.preorder ↔ n ≠ RuleTree.root ∧ (t.find? n).isSome = true) ∧
      (∀ n, (t.children n).Pairwise (· < ·)) ∧
      ∀ f, t.mapProperties f =
        (RuleTree.root :: t.preorder).foldl (fun changed n => changed.edit n f) t := by
  constructor
  · intro d reached start
    have valid := reached.wellformed
    cases found : d.find? start with
    | none => simp [Document.walk_of_gone found, Document.contains, found]
    | some element =>
        have present : d.contains start = true := by simp [Document.contains, found]
        refine ⟨?_, Document.walk_nodup valid found, fun x => ?_⟩
        · rw [if_pos present, Document.walk_eq_subtree valid found]
        · rw [Document.mem_walk valid found, Document.below_iff valid, and_iff_right present]
          rfl
  · intro V t handled
    have grown := handled.grown
    exact ⟨RuleTree.preorder_eq_subtree grown.forest, grown.preorder_nodup, grown.mem_preorder,
      grown.ascending, grown.mapProperties_eq_edits⟩

/-- A page that lost a button, and a tree of three selectors in which the root got a color as every
other node did. -/
theorem traversals_preorder_page :
    let left : Element := ⟨{ tag := "div" }, some 0, [4]⟩
    let right : Element := ⟨{ tag := "div" }, some 0, []⟩
    let text : Element := ⟨{ tag := "p" }, some 1, []⟩
    let d : Document :=
      ⟨#[some ⟨{ tag := "body" }, none, [1, 2]⟩, some left, some right, none, some text], some 0⟩
    let descendant (tag : String) : List (Combinator × Compound) := [(.descendant, ⟨[.tag tag]⟩)]
    let color : Property Nat := ⟨1, .ofOrder 0, ⟨"colors.css", 1⟩⟩
    let plain := (((RuleTree.empty.insert ⟨⟨[.tag "a"]⟩, descendant "b"⟩ .empty).2.insert
      ⟨⟨[.tag "c"]⟩, []⟩ .empty).2.insert ⟨⟨[.tag "a"]⟩, descendant "d"⟩ .empty).2
    let t := plain.mapProperties fun held => held.set .color color
    (∃ reached : d.Reached, d.walk 0 = subtree reached.wellformed.forest 0 ∧ d.walk 3 = []) ∧
    d.walk 0 = [0, 1, 4, 2] ∧
    (∃ handled : t.Handled,
      RuleTree.root :: t.preorder = subtree handled.grown.forest RuleTree.root) ∧
    t.preorder.map t.selectorText = ["a", "a b", "a d", "c"] := by
  intro left right text d descendant color plain t
  let body (children : List ElementId) : Element := ⟨{ tag := "body" }, none, children⟩
  let side (children : List ElementId) : Element := ⟨{ tag := "div" }, some 0, children⟩
  let button : Element := ⟨{ tag := "button" }, some 1, []⟩
  let one : Document := ⟨#[some (body [1]), some (side [])], some 0⟩
  let two : Document := ⟨#[some (body [1, 2]), some (side []), some right], some 0⟩
  let three : Document :=
    ⟨#[some (body [1, 2]), some (side [3]), some right, some button], some 0⟩
  let four : Document :=
    ⟨#[some (body [1, 2]), some (side [3, 4]), some right, some button, some text], some 0⟩
  have first : (Document.empty.insert (body []).data).2.insertChild? 0 left.data = some (1, one) :=
    rfl
  have second : one.insertChild? 0 right.data = some (2, two) := rfl
  have third : two.insertChild? 1 button.data = some (3, three) := rfl
  have fourth : three.insertChild? 1 text.data = some (4, four) := rfl
  have gone : four.remove? 3 = some (button.data, d) := rfl
  have reached : d.Reached := .remove (.insertChild (.insertChild (.insertChild
    (.insertChild (.insert _ .empty) first) second) third) fourth) gone
  have handled : t.Handled := .mapProperties _ (.insert _ _ (.insert _ _ (.insert _ _ .empty)))
  obtain ⟨walks, trees⟩ := traversals_preorder
  exact ⟨⟨reached, (walks d reached 0).1, (walks d reached 3).1⟩, rfl,
    ⟨handled, (trees Nat t handled).1⟩, by decide +kernel⟩

end Cascade.Traversal
