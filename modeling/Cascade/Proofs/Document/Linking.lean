import Cascade.Proofs.Document.Relation
/-!
The links of a document.

However a document came about, its parents and its lists of children tell of the same trees: who has
a parent is listed by it and by no other, climbing from parent to parent ends, going back from
sibling to sibling passes all earlier ones, and the root is an element without a parent.
-/
namespace Cascade.Document
variable {d : Document}

structure Linked (d : Document) : Prop where
  /-- An element with a parent is listed by the parent, once, and nowhere else. -/
  listed : ∀ e p, d.parent? e = some p → ∀ q, (d.children q).count e = if q = p then 1 else 0
  /-- What is listed is there, and so is the owner of the list, which is the parent. -/
  owned : ∀ e p, e ∈ d.children p →
    d.contains e = true ∧ d.contains p = true ∧ d.parent? e = some p
  acyclic : ∀ e, ¬ d.Ancestor e e
  /-- The ancestors are one parent after the other, up to an element without a parent. -/
  climbs : ∀ e, d.contains e = true →
    (e :: d.ancestors e).IsChain (fun x p => d.parent? x = some p) ∧
    ∃ top, (e :: d.ancestors e).getLast? = some top ∧ d.contains top = true ∧
      d.parent? top = none
  /-- One previous sibling after the other is each earlier child, the nearest first. -/
  backward : ∀ p before e after, d.children p = before ++ e :: after →
    (e :: before.reverse).IsChain (fun x s => d.previousSibling? x = some s) ∧
    ∃ first, (e :: before.reverse).getLast? = some first ∧ d.previousSibling? first = none
  /-- The root, if there is one, is an element without a parent. -/
  rooted : ∀ r, d.root = some r → d.contains r = true ∧ d.parent? r = none

theorem contains_of_child (valid : d.WellFormed) {e p : ElementId} (child : e ∈ d.children p) :
    d.contains e = true ∧ d.contains p = true := by
  obtain ⟨element, found⟩ := find_of_parent (valid.owned child)
  have owner : d.find? p ≠ none := by
    intro gone
    simp [children, gone] at child
  exact ⟨by simp [contains, found], by simp [contains, Option.isSome_iff_ne_none, owner]⟩

theorem count_children (valid : d.WellFormed) {e p : ElementId} (known : d.parent? e = some p)
    (q : ElementId) : (d.children q).count e = if q = p then 1 else 0 := by
  by_cases owner : q = p
  · subst owner
    rw [if_pos rfl]
    exact List.count_eq_one_of_mem (valid.distinct q) (valid.listed known)
  · rw [if_neg owner, List.count_eq_zero]
    intro child
    exact owner (Option.some.inj ((valid.owned child).symm.trans known))

theorem Ancestor.older (valid : d.WellFormed) {a e : ElementId} (above : d.Ancestor a e) :
    a < e := by
  induction above with
  | parent known => exact valid.older known
  | farther known _ ih => exact Nat.lt_trans ih (valid.older known)

theorem ancestors_of_parent (valid : d.WellFormed) {e p : ElementId}
    (known : d.parent? e = some p) : d.ancestors e = p :: d.ancestors p := by
  rw [ancestors, known]
  exact if_pos (valid.older known)

theorem ancestors_of_orphan {e : ElementId} (orphan : d.parent? e = none) : d.ancestors e = [] := by
  rw [ancestors, orphan]

theorem ancestors_climb (valid : d.WellFormed) (e : ElementId) (present : d.contains e = true) :
    (e :: d.ancestors e).IsChain (fun x p => d.parent? x = some p) ∧
    ∃ top, (e :: d.ancestors e).getLast? = some top ∧ d.contains top = true ∧
      d.parent? top = none := by
  -- A parent is older than its child, so the climb goes down in numbers.
  induction e using Nat.strongRecOn with
  | _ e ih =>
      cases known : d.parent? e with
      | none =>
          rw [ancestors_of_orphan known]
          exact ⟨.singleton e, e, rfl, present, known⟩
      | some p =>
          have owner := (contains_of_child valid (valid.listed known)).2
          obtain ⟨chain, top, last, there, orphan⟩ := ih p (valid.older known) owner
          rw [ancestors_of_parent valid known]
          refine ⟨.cons_cons known chain, top, ?_, there, orphan⟩
          rw [List.getLast?_cons_cons, last]

theorem previousSibling_split (valid : d.WellFormed) {p e : ElementId}
    {before after : List ElementId} (split : d.children p = before ++ e :: after) :
    d.previousSibling? e = before.getLast? := by
  rw [previousSibling?, precedingSiblings_split valid split, List.head?_reverse]

theorem siblings_backward (valid : d.WellFormed) {p e : ElementId} {before after : List ElementId}
    (split : d.children p = before ++ e :: after) :
    (e :: before.reverse).IsChain (fun x s => d.previousSibling? x = some s) ∧
    ∃ first, (e :: before.reverse).getLast? = some first ∧ d.previousSibling? first = none := by
  have nearest := previousSibling_split valid split
  -- The nearest of the earlier siblings is the last one of the list.
  induction before using List.reverseRecOn generalizing e after with
  | nil => exact ⟨.singleton e, e, rfl, nearest⟩
  | append_singleton before s ih =>
      have farther : d.children p = before ++ s :: (e :: after) := by simp [split]
      obtain ⟨chain, first, last, none⟩ := ih farther (previousSibling_split valid farther)
      rw [List.getLast?_concat] at nearest
      rw [List.reverse_append, List.reverse_singleton, List.singleton_append]
      refine ⟨.cons_cons nearest chain, first, ?_, none⟩
      rw [List.getLast?_cons_cons, last]

def RootOrphan (d : Document) : Prop :=
  ∀ r, d.root = some r → d.contains r = true ∧ d.parent? r = none

theorem contains_eq_data (d : Document) (e : ElementId) : d.contains e = (d.data? e).isSome := by
  simp [contains, data?]

theorem lt_of_contains {e : ElementId} (present : d.contains e = true) : e < d.elements.size := by
  obtain ⟨element, found⟩ := Option.isSome_iff_exists.mp present
  exact find_lt found

theorem insert_rootOrphan (sound : d.RootOrphan) (data : ElementData) :
    (d.insert data).2.RootOrphan := by
  intro r root
  rcases Option.or_eq_some_iff.mp root with old | ⟨-, new⟩
  · obtain ⟨there, orphan⟩ := sound r old
    rw [(insert_links d data).1, contains_eq_data,
      data_insert data (Nat.ne_of_lt (lt_of_contains there)), ← contains_eq_data]
    exact ⟨there, orphan⟩
  · obtain rfl := Option.some.inj new
    simp [contains, parent?, find_insert]

theorem insertChild_rootOrphan {grown : Document} {parent e : ElementId} {data : ElementData}
    (sound : d.RootOrphan) (added : d.insertChild? parent data = some (e, grown)) :
    grown.RootOrphan := by
  have same : grown.root = d.root := by
    rw [insertChild?] at added
    split at added
    case isFalse => simp at added
    case isTrue =>
      obtain ⟨-, rfl⟩ := Prod.mk.inj (Option.some.inj added)
      rfl
  intro r root
  obtain ⟨there, orphan⟩ := sound r (same ▸ root)
  obtain ⟨new, -, parents, -⟩ := insertChild_links added
  have old : r ≠ e := new ▸ Nat.ne_of_lt (lt_of_contains there)
  rw [parents, if_neg old, contains_eq_data, data_insertChild added old, ← contains_eq_data]
  exact ⟨there, orphan⟩

theorem edit_rootOrphan (sound : d.RootOrphan) (e : ElementId) (f : ElementData → ElementData) :
    (d.edit e f).RootOrphan := by
  intro r root
  obtain ⟨there, orphan⟩ := sound r root
  rw [(edit_links d e f).1]
  refine ⟨?_, orphan⟩
  by_cases same : r = e
  · subst same
    simpa [contains, find_edit] using there
  · rwa [contains_eq_data, data_edit f same, ← contains_eq_data]

-- A root that stays is above what goes, or not related to it.
theorem remove_rootOrphan {left : Document} {e : ElementId} {data : ElementData}
    (valid : d.WellFormed) (sound : d.RootOrphan) (removed : d.remove? e = some (data, left)) :
    left.RootOrphan := by
  obtain ⟨⟨element, found⟩, parents, -⟩ := remove_links valid removed
  intro r root
  rw [root_remove removed] at root
  split at root
  case isTrue => simp at root
  case isFalse other =>
    obtain ⟨there, orphan⟩ := sound r root
    have stays : r ∉ d.walk e := by
      rw [mem_walk valid found]
      intro below
      rcases Relation.ReflTransGen.cases_tail below with same | ⟨p, -, child⟩
      · exact other (same ▸ root)
      · simp [valid.owned child] at orphan
    rw [parents, if_neg stays, contains_eq_data, data_remove valid removed stays,
      ← contains_eq_data]
    exact ⟨there, orphan⟩

theorem Reached.rootOrphan (reached : d.Reached) : d.RootOrphan := by
  induction reached with
  | empty => exact fun r root => by cases root
  | insert data _ ih => exact insert_rootOrphan ih data
  | insertChild _ added ih => exact insertChild_rootOrphan ih added
  | edit e f _ ih => exact edit_rootOrphan ih e f
  | remove before removed ih => exact remove_rootOrphan before.wellformed ih removed

/-- Whatever was added, changed and removed, the links of a document form trees. -/
theorem Reached.linked (reached : d.Reached) : d.Linked where
  listed e p known := count_children reached.wellformed known
  owned e p child := by
    obtain ⟨there, owner⟩ := contains_of_child reached.wellformed child
    exact ⟨there, owner, reached.wellformed.owned child⟩
  acyclic e above := Nat.lt_irrefl e (above.older reached.wellformed)
  climbs := ancestors_climb reached.wellformed
  backward p before e after := siblings_backward reached.wellformed
  rooted := reached.rootOrphan

/-- A list of three items that lost the one in the middle, with the link in it. -/
theorem linked_items :
    let item : Element := ⟨{ tag := "li" }, some 0, []⟩
    let d : Document :=
      ⟨#[some ⟨{ tag := "ul" }, none, [1, 4]⟩, some item, none, none, some item], some 0⟩
    d.Reached ∧ d.Linked := by
  intro item d
  let list (children : List ElementId) : Element := ⟨{ tag := "ul" }, none, children⟩
  let link : ElementData := { tag := "a" }
  let one : Document := ⟨#[some (list [1]), some item], some 0⟩
  let two : Document := ⟨#[some (list [1, 2]), some item, some item], some 0⟩
  let middle : Element := ⟨item.data, some 0, [3]⟩
  let inner : Document :=
    ⟨#[some (list [1, 2]), some item, some middle, some ⟨link, some 2, []⟩], some 0⟩
  let three : Document :=
    ⟨#[some (list [1, 2, 4]), some item, some middle, some ⟨link, some 2, []⟩, some item], some 0⟩
  have first : (Document.empty.insert { tag := "ul" }).2.insertChild? 0 item.data = some (1, one) :=
    rfl
  have second : one.insertChild? 0 item.data = some (2, two) := rfl
  have below : two.insertChild? 2 link = some (3, inner) := rfl
  have third : inner.insertChild? 0 item.data = some (4, three) := rfl
  have gone : three.remove? 2 = some (item.data, d) := rfl
  have reached : d.Reached := .remove (.insertChild (.insertChild (.insertChild
    (.insertChild (.insert _ .empty) first) second) below) third) gone
  exact ⟨reached, reached.linked⟩

/-! What a removal takes.
An element goes with its descendants. Everything else stays as it is, but for the parent of the
element, which does not list it any more. -/

variable {d left : Document} {e : ElementId}

/-- The element itself or one of its descendants. -/
def Goes (d : Document) (e x : ElementId) : Prop := x = e ∨ d.Ancestor e x

/-- A document and what a removal leaves of it. -/
structure Removed (d : Document) (e : ElementId) (left : Document) : Prop where
  /-- The element and its descendants are gone, and nothing else is, nor is anything new. -/
  present : ∀ x, left.contains x = true ↔ d.contains x = true ∧ ¬ d.Goes e x
  data : ∀ x, ¬ d.Goes e x → left.data? x = d.data? x
  parent : ∀ x, ¬ d.Goes e x → left.parent? x = d.parent? x
  /-- The element is off its parent's list, and the rest of that list keeps its order. -/
  delisted : ∀ p, d.parent? e = some p → ∃ before after,
    d.children p = before ++ e :: after ∧ left.children p = before ++ after
  children : ∀ x, ¬ d.Goes e x → d.parent? e ≠ some x → left.children x = d.children x
  root : left.root = if d.root = some e then none else d.root

theorem remove_eq_none (absent : d.contains e = false) : d.remove? e = none := by
  have missing : d.find? e = none := by simpa [contains] using absent
  simp [remove?, missing]

/-- An element that is there can be removed, and its data are returned. -/
theorem remove_of_contains (present : d.contains e = true) :
    ∃ data left, d.data? e = some data ∧ d.remove? e = some (data, left) := by
  obtain ⟨element, found⟩ := Option.isSome_iff_exists.mp present
  exact ⟨element.data, _, by simp [data?, found], by simp only [remove?, found]; rfl⟩

theorem contains_remove (valid : d.WellFormed) {data : ElementData}
    (removed : d.remove? e = some (data, left)) (x : ElementId) :
    left.contains x = true ↔ d.contains x = true ∧ x ∉ d.walk e := by
  obtain ⟨element, -, after⟩ := find_remove valid removed
  rw [contains, after]
  by_cases gone : x ∈ d.walk e
  · simp [gone]
  · by_cases owner : element.parent = some x <;> simp [contains, gone, owner]

/-- The list of the parent falls into two parts around the element. -/
theorem children_remove (valid : d.WellFormed) {data : ElementData}
    (removed : d.remove? e = some (data, left)) {p : ElementId} (known : d.parent? e = some p) :
    ∃ before after, d.children p = before ++ e :: after ∧ left.children p = before ++ after := by
  obtain ⟨⟨element, found⟩, -, lists⟩ := remove_links valid removed
  obtain ⟨before, after, split, -⟩ := children_split valid known
  have stays : p ∉ d.walk e := by
    rw [mem_walk valid found]
    intro below
    have older := Traversal.below_le valid.forest below
    exact absurd (valid.older known) (Nat.not_lt.mpr older)
  -- The element stands in the list once, so the parts do not hold it.
  have distinct := valid.distinct p
  rw [split, List.nodup_middle, List.nodup_cons, List.mem_append, not_or] at distinct
  refine ⟨before, after, split, ?_⟩
  rw [lists, if_neg stays, split, List.filter_append, List.filter_cons_of_neg (by simp),
    List.filter_bne_eq_self_of_not_mem distinct.1.1,
    List.filter_bne_eq_self_of_not_mem distinct.1.2]

theorem removed_of_remove (valid : d.WellFormed) {data : ElementData}
    (removed : d.remove? e = some (data, left)) : d.Removed e left := by
  obtain ⟨⟨element, found⟩, parents, lists⟩ := remove_links valid removed
  have gone (x : ElementId) : x ∈ d.walk e ↔ d.Goes e x :=
    (mem_walk valid found x).trans (below_iff valid)
  refine ⟨fun x => ?_, fun x stays => ?_, fun x stays => ?_, ?_, fun x stays other => ?_,
    root_remove removed⟩
  · rw [contains_remove valid removed, gone]
  · exact data_remove valid removed ((gone x).not.mpr stays)
  · rw [parents, if_neg ((gone x).not.mpr stays)]
  · exact fun p known => children_remove valid removed known
  · rw [lists, if_neg ((gone x).not.mpr stays)]
    exact List.filter_bne_eq_self_of_not_mem fun child => other (valid.owned child)

/-- Removing an element that is not there does nothing. Removing one that is there returns its data
and takes exactly the element and its descendants. -/
theorem Reached.removes (reached : d.Reached) (e : ElementId) :
    (d.contains e = false → d.remove? e = none) ∧
    (d.contains e = true → ∃ data left, d.data? e = some data ∧
      d.remove? e = some (data, left) ∧ d.Removed e left) := by
  refine ⟨remove_eq_none, fun present => ?_⟩
  obtain ⟨data, left, known, removed⟩ := remove_of_contains present
  exact ⟨data, left, known, removed, removed_of_remove reached.wellformed removed⟩

/-- A list that loses its only item, with the link in it; an element that never was is not lost. -/
theorem Reached.removes_item :
    let list : ElementData := { tag := "ul" }
    let item : ElementData := { tag := "li" }
    let link : ElementData := { tag := "a" }
    let d : Document :=
      ⟨#[some ⟨list, none, [1]⟩, some ⟨item, some 0, [2]⟩, some ⟨link, some 1, []⟩], some 0⟩
    d.remove? 3 = none ∧ ∃ data left, d.data? 1 = some data ∧
      d.remove? 1 = some (data, left) ∧ d.Removed 1 left := by
  intro list item link d
  let one : Document := ⟨#[some ⟨list, none, [1]⟩, some ⟨item, some 0, []⟩], some 0⟩
  have first : (Document.empty.insert list).2.insertChild? 0 item = some (1, one) := rfl
  have second : one.insertChild? 1 link = some (2, d) := rfl
  have reached : d.Reached := .insertChild (.insertChild (.insert _ .empty) first) second
  exact ⟨(reached.removes 3).1 rfl, (reached.removes 1).2 rfl⟩

end Cascade.Document
