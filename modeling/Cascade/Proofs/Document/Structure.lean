import Cascade.Document
import Cascade.Proofs.Traversal
/-!
The structure of documents.

However elements were added, changed and removed, parents and lists of children agree, no element
is listed twice, and parents are older than their children. So the elements of a document form a
forest, and removing an element takes exactly what is below it.
-/
namespace Cascade.Document
open Traversal

/-- The documents that changes lead to, starting without elements. -/
inductive Reached : Document → Prop where
  | empty : Reached empty
  | insert {d : Document} (data : ElementData) : Reached d → Reached (d.insert data).2
  | insertChild {d grown : Document} {parent e : ElementId} {data : ElementData} :
      Reached d → d.insertChild? parent data = some (e, grown) → Reached grown
  | edit {d : Document} (e : ElementId) (f : ElementData → ElementData) :
      Reached d → Reached (d.edit e f)
  | remove {d left : Document} {e : ElementId} {data : ElementData} :
      Reached d → d.remove? e = some (data, left) → Reached left

structure WellFormed (d : Document) : Prop where
  older : ∀ {e p : ElementId}, d.parent? e = some p → p < e
  listed : ∀ {e p : ElementId}, d.parent? e = some p → e ∈ d.children p
  owned : ∀ {e p : ElementId}, e ∈ d.children p → d.parent? e = some p
  distinct : ∀ p, (d.children p).Nodup

theorem find_lt {d : Document} {e : ElementId} {element : Element}
    (found : d.find? e = some element) : e < d.elements.size := by
  by_contra outside
  have absent : d.elements[e]? = none := by simpa using outside
  simp [find?, absent] at found

theorem find_size (d : Document) : d.find? d.elements.size = none := by
  simp [find?]

theorem find_push (d : Document) (root : Option ElementId) (element : Element) (x : ElementId) :
    find? ⟨d.elements.push (some element), root⟩ x =
      if x = d.elements.size then some element else d.find? x := by
  simp only [find?, Array.getElem?_push]
  by_cases last : x = d.elements.size <;> simp [last]

theorem find_modify (d : Document) (e x : ElementId) (f : Element → Element) :
    (d.modify e f).find? x = if x = e then (d.find? e).map f else d.find? x := by
  simp only [find?, modify, Array.getElem?_modify]
  by_cases same : e = x
  · subst same
    rcases d.elements[e]? with _ | _ | _ <;> simp
  · simp [same, Ne.symm same]

theorem find_forget (d : Document) (e x : ElementId) :
    (d.forget e).find? x = if x = e then none else d.find? x := by
  simp only [find?, forget, Array.getElem?_modify]
  by_cases same : e = x
  · subst same
    rcases d.elements[e]? with _ | _ | _ <;> simp
  · simp [same, Ne.symm same]

theorem children_forget (d : Document) (e x : ElementId) :
    (d.forget e).children x = if x = e then [] else d.children x := by
  by_cases same : x = e <;> simp [children, find_forget, same]

theorem find_delist (d : Document) (e x : ElementId) : (d.delist e).find? x =
    if d.parent? e = some x then
      (d.find? x).map fun q => { q with children := q.children.filter (· != e) }
    else d.find? x := by
  rw [delist]
  cases d.parent? e with
  | none => simp
  | some p => by_cases owner : p = x <;> simp [find_modify, owner, Ne.symm]

theorem children_delist (d : Document) (e x : ElementId) : (d.delist e).children x =
    if d.parent? e = some x then (d.children x).filter (· != e) else d.children x := by
  by_cases owner : d.parent? e = some x
  · cases known : d.find? x <;> simp [children, find_delist, owner, known]
  · simp [children, find_delist, owner]

theorem parent_of_find {d : Document} {e : ElementId} {element : Element}
    (found : d.find? e = some element) : d.parent? e = element.parent := by
  simp [parent?, found]

theorem children_of_find {d : Document} {e : ElementId} {element : Element}
    (found : d.find? e = some element) : d.children e = element.children := by
  simp [children, found]

theorem find_of_parent {d : Document} {e p : ElementId} (parent : d.parent? e = some p) :
    ∃ element, d.find? e = some element := by
  cases found : d.find? e with
  | none => simp [parent?, found] at parent
  | some element => exact ⟨element, rfl⟩

theorem WellFormed.forest {d : Document} (valid : d.WellFormed) :
    Forest d.children d.elements.size where
  older child := valid.older (valid.owned child)
  bounded child := by
    obtain ⟨_, found⟩ := find_of_parent (valid.owned child)
    exact find_lt found
  distinct := valid.distinct
  single first second := Option.some.inj ((valid.owned first).symm.trans (valid.owned second))

-- In a forest nothing that is due is ever missing.
theorem visit_eq_sweep {d : Document} (valid : d.WellFormed) (fuel : Nat) (due : List ElementId)
    (present : ∀ e ∈ due, ∃ element, d.find? e = some element) :
    d.visit fuel due = sweep d.children fuel due := by
  induction fuel generalizing due with
  | zero => rfl
  | succ fuel ih =>
      cases due with
      | nil => rfl
      | cons e due =>
          obtain ⟨element, found⟩ := present e List.mem_cons_self
          simp only [visit, sweep, found, children_of_find found, List.cons.injEq, true_and]
          apply ih
          intro x member
          rcases List.mem_append.mp member with child | later
          · exact find_of_parent (valid.owned (children_of_find found ▸ child))
          · exact present x (List.mem_cons_of_mem e later)

theorem walk_eq_sweep {d : Document} (valid : d.WellFormed) {e : ElementId} {element : Element}
    (found : d.find? e = some element) : Enough d.children (d.elements.size + 1) [e] ∧
      d.walk e = sweep d.children (d.elements.size + 1) [e] := by
  have present : ∀ m ∈ [e], ∃ element, d.find? m = some element := by
    intro m member
    rw [List.mem_singleton.mp member]
    exact ⟨element, found⟩
  have bounded : ∀ m ∈ [e], m < d.elements.size := by
    intro m member
    rw [List.mem_singleton.mp member]
    exact find_lt found
  exact ⟨enough_of_size valid.forest (separate_singleton e) bounded (Nat.le_succ _),
    visit_eq_sweep valid _ _ present⟩

/-- A walk reaches what is below its start. -/
theorem mem_walk {d : Document} (valid : d.WellFormed) {e : ElementId} {element : Element}
    (found : d.find? e = some element) (x : ElementId) :
    x ∈ d.walk e ↔ Below d.children e x := by
  obtain ⟨enough, walked⟩ := walk_eq_sweep valid found
  rw [walked, mem_sweep enough, ahead_singleton]

theorem walk_nodup {d : Document} (valid : d.WellFormed) {e : ElementId} {element : Element}
    (found : d.find? e = some element) : (d.walk e).Nodup := by
  obtain ⟨enough, walked⟩ := walk_eq_sweep valid found
  rw [walked]
  exact sweep_nodup valid.forest enough (separate_singleton e)

/-- A walk is the pre-order by recursion from its start. -/
theorem walk_eq_subtree {d : Document} (valid : d.WellFormed) {e : ElementId} {element : Element}
    (found : d.find? e = some element) : d.walk e = subtree valid.forest e := by
  obtain ⟨enough, walked⟩ := walk_eq_sweep valid found
  rw [walked, sweep_eq_subtrees valid.forest enough, List.flatMap_singleton]

theorem walk_of_gone {d : Document} {e : ElementId} (gone : d.find? e = none) : d.walk e = [] := by
  rw [walk, visit, gone]
  cases d.elements.size <;> rfl

theorem empty_wellformed : WellFormed empty := by
  constructor <;> simp [parent?, children, find?, empty]

theorem WellFormed.of_same_links {d other : Document} (valid : d.WellFormed)
    (parents : ∀ x, other.parent? x = d.parent? x)
    (lists : ∀ x, other.children x = d.children x) : other.WellFormed where
  older parent := valid.older (parents _ ▸ parent)
  listed parent := lists _ ▸ valid.listed (parents _ ▸ parent)
  owned child := parents _ ▸ valid.owned (lists _ ▸ child)
  distinct p := lists p ▸ valid.distinct p

theorem find_insert (d : Document) (data : ElementData) (x : ElementId) :
    (d.insert data).2.find? x =
      if x = d.elements.size then some ⟨data, none, []⟩ else d.find? x := find_push d _ _ x

/-- A new element without a parent is linked to nothing. -/
theorem insert_links (d : Document) (data : ElementData) :
    (∀ x, (d.insert data).2.parent? x = d.parent? x) ∧
    ∀ x, (d.insert data).2.children x = d.children x := by
  constructor
  · intro x
    by_cases new : x = d.elements.size <;> simp [parent?, find_insert, new, find_size]
  · intro x
    by_cases new : x = d.elements.size <;> simp [children, find_insert, new, find_size]

theorem insert_wellformed {d : Document} (valid : d.WellFormed) (data : ElementData) :
    (d.insert data).2.WellFormed :=
  valid.of_same_links (insert_links d data).1 (insert_links d data).2

theorem find_edit (d : Document) (e x : ElementId) (f : ElementData → ElementData) :
    (d.edit e f).find? x = if x = e then
      (d.find? e).map fun element => { element with data := f element.data }
      else d.find? x := find_modify d e x _

/-- Data decide no links. -/
theorem edit_links (d : Document) (e : ElementId) (f : ElementData → ElementData) :
    (∀ x, (d.edit e f).parent? x = d.parent? x) ∧
    ∀ x, (d.edit e f).children x = d.children x := by
  constructor
  · intro x
    by_cases same : x = e
    · subst same
      cases known : d.find? x <;> simp [parent?, find_edit, known]
    · simp [parent?, find_edit, same]
  · intro x
    by_cases same : x = e
    · subst same
      cases known : d.find? x <;> simp [children, find_edit, known]
    · simp [children, find_edit, same]

theorem edit_wellformed {d : Document} (valid : d.WellFormed) (e : ElementId)
    (f : ElementData → ElementData) : (d.edit e f).WellFormed :=
  valid.of_same_links (edit_links d e f).1 (edit_links d e f).2

theorem insertChild_links {d grown : Document} {parent e : ElementId} {data : ElementData}
    (added : d.insertChild? parent data = some (e, grown)) :
    e = d.elements.size ∧ (∃ element, d.find? parent = some element) ∧
    (∀ x, grown.parent? x = if x = e then some parent else d.parent? x) ∧
    ∀ x, grown.children x = if x = parent then d.children parent ++ [e] else d.children x := by
  simp only [insertChild?] at added
  split at added
  case isFalse => simp at added
  case isTrue there =>
    obtain ⟨element, present⟩ := Option.isSome_iff_exists.mp there
    obtain ⟨rfl, rfl⟩ := Prod.mk.inj (Option.some.inj added)
    have bound := find_lt present
    have older : parent ≠ d.elements.size := Nat.ne_of_lt bound
    refine ⟨rfl, ⟨element, present⟩, ?_, ?_⟩
    · intro x
      by_cases new : x = d.elements.size
      · subst new
        simp [parent?, find_modify, find_push, older.symm]
      · by_cases same : x = parent
        · subst same
          simp [parent?, find_modify, find_push, new, present]
        · simp [parent?, find_modify, find_push, new, same]
    · intro x
      by_cases same : x = parent
      · subst same
        simp [children, find_modify, find_push, older, present]
      · by_cases new : x = d.elements.size
        · subst new
          simp [children, find_modify, find_push, find_size, same]
        · simp [children, find_modify, find_push, new, same]

/-- One parent more, and one child more of it. -/
theorem insertChild_adds {d grown : Document} {parent e : ElementId} {data : ElementData}
    (added : d.insertChild? parent data = some (e, grown)) (x p : ElementId) :
    (grown.parent? x = some p ↔ d.parent? x = some p ∨ x = e ∧ p = parent) ∧
    (x ∈ grown.children p ↔ x ∈ d.children p ∨ x = e ∧ p = parent) := by
  obtain ⟨rfl, -, parents, lists⟩ := insertChild_links added
  constructor
  · rw [parents]
    by_cases new : x = d.elements.size
    · have orphaned : d.parent? d.elements.size = none := by simp [parent?, find_size]
      simp [new, orphaned, eq_comm]
    · simp [new]
  · rw [lists]
    by_cases same : p = parent <;> simp [same]

theorem insertChild_wellformed {d grown : Document} {parent e : ElementId} {data : ElementData}
    (valid : d.WellFormed) (added : d.insertChild? parent data = some (e, grown)) :
    grown.WellFormed where
  older {x p} known := by
    rcases (insertChild_adds added x p).1.mp known with old | ⟨rfl, rfl⟩
    · exact valid.older old
    · obtain ⟨rfl, ⟨_, present⟩, -, -⟩ := insertChild_links added
      exact find_lt present
  listed {x p} known :=
    (insertChild_adds added x p).2.mpr
      (((insertChild_adds added x p).1.mp known).imp_left valid.listed)
  owned {x p} child :=
    (insertChild_adds added x p).1.mpr
      (((insertChild_adds added x p).2.mp child).imp_left valid.owned)
  distinct p := by
    obtain ⟨rfl, -, -, lists⟩ := insertChild_links added
    rw [lists]
    by_cases same : p = parent
    · have unlisted : d.elements.size ∉ d.children parent := by
        intro child
        exact absurd (valid.forest.bounded child) (Nat.lt_irrefl _)
      rw [if_pos same]
      exact List.nodup_append.mpr ⟨valid.distinct parent, List.nodup_singleton _, by
        intro x old y single equal
        exact unlisted (List.mem_singleton.mp single ▸ equal ▸ old)⟩
    · rw [if_neg same]
      exact valid.distinct p

/-- Draining a queue forgets what is ahead of it and nothing else. -/
theorem find_drain {d : Document} {size fuel : Nat} {due : List ElementId}
    (forest : Forest d.children size) (separate : Separate d.children due) (left : Finset Nat)
    (covered : ∀ x, Ahead d.children due x → x ∈ left) (room : left.card ≤ fuel) (x : ElementId) :
    (Ahead d.children due x → (d.drain fuel due).find? x = none) ∧
    (¬ Ahead d.children due x → (d.drain fuel due).find? x = d.find? x) := by
  induction fuel generalizing d due left with
  | zero =>
      cases due with
      | nil => exact ⟨fun ⟨_, member, _⟩ => absurd member List.not_mem_nil, fun _ => rfl⟩
      | cons e due =>
          have member := (covered_step forest separate covered).1
          rw [Finset.card_eq_zero.mp (Nat.le_zero.mp room)] at member
          exact absurd member (Finset.notMem_empty e)
  | succ fuel ih =>
      cases due with
      | nil => exact ⟨fun ⟨_, member, _⟩ => absurd member List.not_mem_nil, fun _ => rfl⟩
      | cons e due =>
          obtain ⟨member, others⟩ := covered_step forest separate covered
          have once := not_ahead_step forest separate
          -- The queue does not come to the element again, so it reads no list that is forgotten.
          have same (m : ElementId) (ahead : Ahead d.children (due ++ d.children e) m) :
              (d.forget e).children m = d.children m := by
            rw [children_forget, if_neg]
            rintro rfl
            exact once (ahead_queue.mp ahead)
          have fewer (m : ElementId) : ((d.forget e).children m).Sublist (d.children m) := by
            rw [children_forget]
            split
            case isTrue => exact List.nil_sublist _
            case isFalse => exact List.Sublist.refl _
          have alike (y : ElementId) : Ahead (d.forget e).children (due ++ d.children e) y ↔
              Ahead d.children (d.children e ++ due) y := (ahead_congr same y).trans ahead_queue
          have rest := ih (forest.sublist fewer)
            (separate_congr same (separate_queue forest separate)) (left.erase e)
            (fun y ahead => others y ((alike y).mp ahead))
            (by rw [Finset.card_erase_of_mem member]; omega)
          rw [alike, find_forget] at rest
          rw [ahead_cons, drain]
          by_cases here : x = e
          · subst here
            exact ⟨fun _ => (rest.2 once).trans (if_pos rfl),
              fun apart => absurd (Or.inl rfl) apart⟩
          · rw [if_neg here] at rest
            exact ⟨fun ahead => rest.1 (ahead.resolve_left here), fun apart => rest.2 fun ahead =>
              apart (Or.inr ahead)⟩

theorem find_remove {d left : Document} {e : ElementId} {data : ElementData} (valid : d.WellFormed)
    (removed : d.remove? e = some (data, left)) :
    ∃ element, d.find? e = some element ∧ ∀ x, left.find? x =
      if x ∈ d.walk e then none
      else if element.parent = some x then
        (d.find? x).map fun q => { q with children := q.children.filter (· != e) }
      else d.find? x := by
  simp only [remove?] at removed
  split at removed
  case h_1 => simp at removed
  case h_2 element found =>
    obtain ⟨-, rfl⟩ := Prod.mk.inj (Option.some.inj removed)
    refine ⟨element, found, fun x => ?_⟩
    have fewer (m : ElementId) : ((d.delist e).children m).Sublist (d.children m) := by
      rw [children_delist]
      split
      case isTrue => exact List.filter_sublist
      case isFalse => exact List.Sublist.refl _
    -- The parent is not below the element, so the lists below it are those of the document.
    have same (m : ElementId) (below : Below d.children e m) :
        (d.delist e).children m = d.children m := by
      rw [children_delist, if_neg]
      intro owner
      exact absurd (below_le valid.forest below) (Nat.not_le.mpr (valid.older owner))
    have forest := valid.forest.sublist fewer
    have drained := find_drain
      (d := { d.delist e with root := if d.root = some e then none else d.root }) forest
      (separate_singleton e) (Finset.range d.elements.size)
      (fun y ahead => Finset.mem_range.mpr (below_lt_size forest (find_lt found)
        (ahead_singleton.mp ahead)))
      (by rw [Finset.card_range]) x
    have ahead : Ahead (d.delist e).children [e] x ↔ x ∈ d.walk e := by
      rw [ahead_singleton, below_congr same, mem_walk valid found]
    change (Ahead (d.delist e).children [e] x → _) ∧
      (¬ Ahead (d.delist e).children [e] x → _ = (d.delist e).find? x) at drained
    rw [ahead, find_delist, parent_of_find found] at drained
    by_cases gone : x ∈ d.walk e
    · rw [drained.1 gone, if_pos gone]
    · rw [drained.2 gone, if_neg gone]

/-- Removing takes what is below the element, and the element off its parent's list. -/
theorem remove_links {d left : Document} {e : ElementId} {data : ElementData}
    (valid : d.WellFormed) (removed : d.remove? e = some (data, left)) :
    (∃ element, d.find? e = some element) ∧
    (∀ x, left.parent? x = if x ∈ d.walk e then none else d.parent? x) ∧
    ∀ x, left.children x =
      if x ∈ d.walk e then [] else (d.children x).filter (· != e) := by
  obtain ⟨element, found, after⟩ := find_remove valid removed
  refine ⟨⟨element, found⟩, ?_, ?_⟩
  · intro x
    simp only [parent?, after]
    by_cases gone : x ∈ d.walk e
    · simp [gone]
    · by_cases owner : element.parent = some x
      · cases known : d.find? x <;> simp [gone, owner]
      · simp [gone, owner]
  · intro x
    by_cases gone : x ∈ d.walk e
    · simp [children, after, gone]
    · by_cases owner : element.parent = some x
      · cases known : d.find? x <;> simp [children, after, gone, owner, known]
      · -- A list that does not name the element is left as it is.
        have unlisted : e ∉ d.children x := fun child =>
          owner ((parent_of_find found).symm.trans (valid.owned child))
        rw [if_neg gone, List.filter_bne_eq_self_of_not_mem unlisted]
        simp [children, after, gone, owner]

/-- A child stays if its parent does, unless it is the element removed; and a parent if a child
does. -/
theorem stays_iff {d : Document} (valid : d.WellFormed) {e : ElementId} {element : Element}
    (found : d.find? e = some element) {x p : ElementId} (child : x ∈ d.children p) :
    x ∉ d.walk e ↔ p ∉ d.walk e ∧ x ≠ e := by
  simp only [mem_walk valid found]
  constructor
  · intro stays
    refine ⟨fun below => stays (below.tail child), ?_⟩
    rintro rfl
    exact stays Relation.ReflTransGen.refl
  · rintro ⟨above, different⟩ below
    rcases below_child valid.forest child below with same | higher
    · exact different same.symm
    · exact above higher

theorem remove_wellformed {d left : Document} {e : ElementId} {data : ElementData}
    (valid : d.WellFormed) (removed : d.remove? e = some (data, left)) : left.WellFormed := by
  obtain ⟨⟨element, found⟩, parents, lists⟩ := remove_links valid removed
  refine { older := fun known => ?older, listed := fun {x p} known => ?listed,
           owned := fun {x p} child => ?owned, distinct := fun p => ?distinct }
  case older =>
    rw [parents] at known
    split at known
    case isTrue => simp at known
    case isFalse => exact valid.older known
  case listed =>
    rw [parents] at known
    split at known
    case isTrue => simp at known
    case isFalse stays =>
      have listed := valid.listed known
      obtain ⟨above, different⟩ := (stays_iff valid found listed).mp stays
      simpa [lists, above] using ⟨listed, different⟩
  case owned =>
    rw [lists] at child
    split at child
    case isTrue => simp at child
    case isFalse above =>
      obtain ⟨listed, different⟩ := List.mem_filter.mp child
      have stays := (stays_iff valid found listed).mpr ⟨above, by simpa using different⟩
      simpa [parents, stays] using valid.owned listed
  case distinct =>
    rw [lists]
    split
    · exact List.nodup_nil
    · exact (valid.distinct p).filter _

/-- The documents that changes lead to are well formed. -/
theorem Reached.wellformed {d : Document} (reached : d.Reached) : d.WellFormed := by
  induction reached with
  | empty => exact empty_wellformed
  | insert data _ ih => exact insert_wellformed ih data
  | insertChild _ added ih => exact insertChild_wellformed ih added
  | edit e f _ ih => exact edit_wellformed ih e f
  | remove _ removed ih => exact remove_wellformed ih removed

/-- A menu of three items. The first is open, the second is under the pointer. -/
def nav : Document :=
  ⟨#[some ⟨{ tag := "ul", id := some "nav" }, none, [1, 2, 3]⟩,
    some ⟨{ tag := "li", classes := ["open"] }, some 0, []⟩,
    some ⟨{ tag := "li", pseudoClasses := ["hover"] }, some 0, []⟩,
    some ⟨{ tag := "li" }, some 0, []⟩], some 0⟩

theorem nav_reached : nav.Reached := by
  let menu := (empty.insert { tag := "ul", id := some "nav" }).2
  have opened : menu.insertChild? 0 { tag := "li", classes := ["open"] } = some (1, _) := rfl
  have hovered := Reached.insertChild (.insert _ .empty) opened
  have last : Reached _ := .insertChild hovered
    (rfl : insertChild? _ 0 { tag := "li", pseudoClasses := ["hover"] } = some (2, _))
  exact .insertChild last (rfl : insertChild? _ 0 { tag := "li" } = some (3, nav))

end Cascade.Document
