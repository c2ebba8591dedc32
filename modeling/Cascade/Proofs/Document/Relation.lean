import Cascade.Proofs.Document.Structure
import Cascade.Selector
/-!
How two elements of a document are related.

Ancestors are what one parent after another leads to. Siblings stand in the list of children of
their common parent; elements without a parent have none, also when a document holds several trees.
-/
namespace Cascade.Document

inductive Ancestor (d : Document) (a : ElementId) : ElementId → Prop where
  | parent {e : ElementId} : d.parent? e = some a → Ancestor d a e
  | farther {p e : ElementId} : d.parent? e = some p → Ancestor d a p → Ancestor d a e

def Precedes (d : Document) (s e : ElementId) : Prop :=
  ∃ p before between after, d.parent? e = some p ∧
    d.children p = before ++ s :: between ++ e :: after

/-- `s` stands directly before `e` among the children of their parent. -/
def Adjoins (d : Document) (s e : ElementId) : Prop :=
  ∃ p before after, d.parent? e = some p ∧ d.children p = before ++ s :: e :: after

/-- What a combinator asks of the element on its left, `x`, and the one on its right. -/
def Relates (d : Document) : Combinator → ElementId → ElementId → Prop
  | .descendant, x, e => d.Ancestor x e
  | .child, x, e => d.parent? e = some x
  | .nextSibling, x, e => d.Adjoins x e
  | .laterSibling, x, e => d.Precedes x e

theorem Ancestor.trans {d : Document} {a b e : ElementId} (far : d.Ancestor a b)
    (near : d.Ancestor b e) : d.Ancestor a e := by
  induction near with
  | parent known => exact Ancestor.farther known far
  | farther known _ ih => exact Ancestor.farther known ih

-- An ancestor is the parent or an ancestor of the parent.
theorem ancestor_cases {d : Document} {a e : ElementId} (ancestor : d.Ancestor a e) :
    ∃ p, d.parent? e = some p ∧ (a = p ∨ d.Ancestor a p) := by
  cases ancestor with
  | parent known => exact ⟨a, known, Or.inl rfl⟩
  | @farther p _ known rest => exact ⟨p, known, Or.inr rest⟩

/-- The ancestors of an element are its parent and the parent's ancestors. -/
theorem ancestor_iff {d : Document} {a e p : ElementId} (known : d.parent? e = some p) :
    d.Ancestor a e ↔ a = p ∨ d.Ancestor a p := by
  constructor
  · intro ancestor
    obtain ⟨q, parent, rest⟩ := ancestor_cases ancestor
    obtain rfl := Option.some.inj (known.symm.trans parent)
    exact rest
  · rintro (rfl | farther)
    · exact Ancestor.parent known
    · exact Ancestor.farther known farther

theorem not_ancestor {d : Document} {a e : ElementId} (orphan : d.parent? e = none) :
    ¬ d.Ancestor a e := by
  intro ancestor
  obtain ⟨p, known, -⟩ := ancestor_cases ancestor
  simp [orphan] at known

theorem ancestor_congr {d : Document} {a e f : ElementId} (same : d.parent? e = d.parent? f) :
    d.Ancestor a e ↔ d.Ancestor a f := by
  have onward {x y : ElementId} (equal : d.parent? x = d.parent? y) (above : d.Ancestor a x) :
      d.Ancestor a y := by
    obtain ⟨p, known, here | farther⟩ := ancestor_cases above
    · exact here ▸ Ancestor.parent (equal ▸ known)
    · exact Ancestor.farther (equal ▸ known) farther
  exact ⟨onward same, onward same.symm⟩

/-- What is below an element is the element and its descendants. -/
theorem below_iff {d : Document} (valid : d.WellFormed) {a e : ElementId} :
    Traversal.Below d.children a e ↔ e = a ∨ d.Ancestor a e := by
  constructor
  · intro below
    induction below with
    | refl => exact Or.inl rfl
    | tail _ child ih =>
        have known := valid.owned child
        rcases ih with rfl | above
        · exact Or.inr (Ancestor.parent known)
        · exact Or.inr (Ancestor.farther known above)
  · rintro (rfl | above)
    · exact Relation.ReflTransGen.refl
    · induction above with
      | parent known => exact Relation.ReflTransGen.single (valid.listed known)
      | farther known _ ih => exact ih.tail (valid.listed known)

theorem precedingSiblings_split {d : Document} (valid : d.WellFormed) {p e : ElementId}
    {before after : List ElementId} (split : d.children p = before ++ e :: after) :
    d.precedingSiblings e = before.reverse := by
  have child : e ∈ d.children p := by simp [split]
  have unlisted : e ∉ before := by
    have distinct := valid.distinct p
    rw [split, List.nodup_append] at distinct
    intro member
    exact distinct.2.2 e member e List.mem_cons_self rfl
  have stop : (before ++ e :: after).takeWhile (· != e) = before := by
    rw [List.takeWhile_append_of_pos]
    · simp
    · intro s member
      have different : s ≠ e := fun same => unlisted (same ▸ member)
      simpa using different
  simp [precedingSiblings, valid.owned child, split, stop]

theorem children_split {d : Document} (valid : d.WellFormed) {p e : ElementId}
    (known : d.parent? e = some p) :
    ∃ before after, d.children p = before ++ e :: after ∧
      d.precedingSiblings e = before.reverse := by
  obtain ⟨before, after, split⟩ := List.append_of_mem (valid.listed known)
  exact ⟨before, after, split, precedingSiblings_split valid split⟩

theorem parent_of_precedingSibling {d : Document} {s e : ElementId}
    (member : s ∈ d.precedingSiblings e) : ∃ p, d.parent? e = some p := by
  cases known : d.parent? e with
  | none => simp [precedingSiblings, known] at member
  | some p => exact ⟨p, rfl⟩

theorem mem_precedingSiblings {d : Document} (valid : d.WellFormed) (s e : ElementId) :
    s ∈ d.precedingSiblings e ↔ d.Precedes s e := by
  constructor
  · intro member
    obtain ⟨p, known⟩ := parent_of_precedingSibling member
    obtain ⟨before, after, split, same⟩ := children_split valid known
    obtain ⟨first, between, parts⟩ := List.append_of_mem (List.mem_reverse.mp (same ▸ member))
    exact ⟨p, first, between, after, known, by rw [split, parts]⟩
  · rintro ⟨p, before, between, after, -, split⟩
    rw [precedingSiblings_split valid split]
    simp

/-- Past a sibling the list goes on with the siblings before that one. -/
theorem precedingSiblings_far {d : Document} (valid : d.WellFormed) {s e : ElementId}
    {near far : List ElementId} (parts : d.precedingSiblings e = near ++ s :: far) :
    d.precedingSiblings s = far ∧ d.parent? s = d.parent? e := by
  obtain ⟨p, known⟩ := parent_of_precedingSibling (by rw [parts]; simp : s ∈ _)
  obtain ⟨before, after, split, same⟩ := children_split valid known
  have reversed : before = far.reverse ++ s :: near.reverse := by
    rw [← List.reverse_reverse before, ← same, parts]
    simp
  have position : d.children p = far.reverse ++ s :: (near.reverse ++ e :: after) := by
    rw [split, reversed]
    simp
  constructor
  · rw [precedingSiblings_split valid position, List.reverse_reverse]
  · rw [known, valid.owned (by rw [position]; simp : s ∈ d.children p)]

theorem parent_of_precedes {d : Document} (valid : d.WellFormed) {s e : ElementId}
    (precedes : d.Precedes s e) : d.parent? s = d.parent? e := by
  obtain ⟨near, far, parts⟩ := List.append_of_mem ((mem_precedingSiblings valid s e).mpr precedes)
  exact (precedingSiblings_far valid parts).2

theorem Precedes.trans {d : Document} (valid : d.WellFormed) {r s e : ElementId}
    (far : d.Precedes r s) (near : d.Precedes s e) : d.Precedes r e := by
  obtain ⟨before, after, parts⟩ := List.append_of_mem ((mem_precedingSiblings valid s e).mpr near)
  have rest := (precedingSiblings_far valid parts).1
  have member : r ∈ after := rest ▸ (mem_precedingSiblings valid r s).mpr far
  exact (mem_precedingSiblings valid r e).mp (by rw [parts]; simp [member])

theorem previousSibling_iff {d : Document} (valid : d.WellFormed) (s e : ElementId) :
    d.previousSibling? e = some s ↔ d.Adjoins s e := by
  constructor
  · intro first
    have member := List.mem_of_head? first
    obtain ⟨p, known⟩ := parent_of_precedingSibling member
    obtain ⟨before, after, split, same⟩ := children_split valid known
    rw [previousSibling?, same, List.head?_reverse] at first
    obtain ⟨rest, parts⟩ := List.getLast?_eq_some_iff.mp first
    exact ⟨p, rest, after, known, by rw [split, parts]; simp⟩
  · rintro ⟨p, before, after, -, split⟩
    have position : d.children p = (before ++ [s]) ++ e :: after := by simp [split]
    rw [previousSibling?, precedingSiblings_split valid position]
    simp

theorem Adjoins.precedes {d : Document} {s e : ElementId} (adjoins : d.Adjoins s e) :
    d.Precedes s e := by
  obtain ⟨p, before, after, known, split⟩ := adjoins
  exact ⟨p, before, [], after, known, by simpa using split⟩

-- What precedes an element is its neighbour or precedes the neighbour.
theorem precedes_cases {d : Document} (valid : d.WellFormed) {r s e : ElementId}
    (adjoins : d.Adjoins s e) (precedes : d.Precedes r e) : r = s ∨ d.Precedes r s := by
  have first := (previousSibling_iff valid s e).mpr adjoins
  obtain ⟨rest, parts⟩ := List.head?_eq_some_iff.mp first
  have next : d.precedingSiblings e = [] ++ s :: rest := parts
  have far := (precedingSiblings_far valid next).1
  rcases List.mem_cons.mp (parts ▸ (mem_precedingSiblings valid r e).mpr precedes) with same | later
  · exact Or.inl same
  · exact Or.inr ((mem_precedingSiblings valid r s).mp (far ▸ later))

/-! What changes leave as it was.
A change touches the data of one element, or adds or takes away elements. The data and the parents
of all others stay, and what stands before an element changes only if one of its earlier siblings
goes. -/

section Data
variable {d : Document} {e x : ElementId}

theorem data_insert (data : ElementData) (old : x ≠ (d.insert data).1) :
    (d.insert data).2.data? x = d.data? x := by
  have different : x ≠ d.elements.size := old
  simp [data?, find_insert, different]

theorem data_edit (f : ElementData → ElementData) (other : x ≠ e) :
    (d.edit e f).data? x = d.data? x := by
  simp [data?, find_edit, other]

theorem data_insertChild {grown : Document} {parent : ElementId} {data : ElementData}
    (added : d.insertChild? parent data = some (e, grown)) (old : x ≠ e) :
    grown.data? x = d.data? x := by
  rw [insertChild?] at added
  split at added
  case isFalse => simp at added
  case isTrue =>
    obtain ⟨rfl, rfl⟩ := Prod.mk.inj (Option.some.inj added)
    by_cases same : x = parent
    · subst same
      cases known : d.find? x <;> simp [data?, find_modify, find_push, old, known]
    · simp [data?, find_modify, find_push, old, same]

theorem data_remove {left : Document} {data : ElementData} (valid : d.WellFormed)
    (removed : d.remove? e = some (data, left)) (stays : x ∉ d.walk e) :
    left.data? x = d.data? x := by
  obtain ⟨element, -, after⟩ := find_remove valid removed
  by_cases owner : element.parent = some x
  · cases known : d.find? x <;> simp [data?, after, stays, owner, known]
  · simp [data?, after, stays, owner]

theorem root_drain (fuel : Nat) (due : List ElementId) : (d.drain fuel due).root = d.root := by
  induction fuel generalizing d due with
  | zero => rfl
  | succ fuel ih =>
      cases due with
      | nil => rfl
      | cons e due => exact ih (d := d.forget e) (due ++ d.children e)

theorem root_remove {left : Document} {data : ElementData}
    (removed : d.remove? e = some (data, left)) :
    left.root = if d.root = some e then none else d.root := by
  rw [remove?] at removed
  split at removed
  case h_1 => simp at removed
  case h_2 =>
    obtain ⟨-, rfl⟩ := Prod.mk.inj (Option.some.inj removed)
    exact root_drain _ _

end Data

section Siblings
variable {d : Document} {e x : ElementId}

theorem precedingSiblings_congr {other : Document} (parent : other.parent? x = d.parent? x)
    (lists : ∀ p, other.children p = d.children p) :
    other.precedingSiblings x = d.precedingSiblings x := by
  simp only [precedingSiblings, parent, lists]

-- The new element comes last, so it stands before no other.
theorem precedingSiblings_insertChild {grown : Document} {parent : ElementId} {data : ElementData}
    (valid : d.WellFormed) (added : d.insertChild? parent data = some (e, grown)) (old : x ≠ e) :
    grown.precedingSiblings x = d.precedingSiblings x := by
  have after := insertChild_wellformed valid added
  obtain ⟨-, -, parents, lists⟩ := insertChild_links added
  have same : grown.parent? x = d.parent? x := by rw [parents, if_neg old]
  cases known : d.parent? x with
  | none => simp [precedingSiblings, same, known]
  | some p =>
      obtain ⟨first, last, split, before⟩ := children_split valid known
      by_cases here : p = parent
      · have longer : grown.children p = first ++ x :: (last ++ [e]) := by
          rw [lists, if_pos here, ← here, split]
          simp
        rw [before, precedingSiblings_split after longer]
      · have unchanged : grown.children p = first ++ x :: last := by
          rw [lists, if_neg here, split]
        rw [before, precedingSiblings_split after unchanged]

theorem precedingSiblings_remove {left : Document} {data : ElementData} (valid : d.WellFormed)
    (removed : d.remove? e = some (data, left)) (stays : x ∉ d.walk e)
    (apart : ¬ d.Precedes e x) : left.precedingSiblings x = d.precedingSiblings x := by
  have after := remove_wellformed valid removed
  obtain ⟨⟨element, found⟩, parents, lists⟩ := remove_links valid removed
  have same : left.parent? x = d.parent? x := by rw [parents, if_neg stays]
  cases known : d.parent? x with
  | none => simp [precedingSiblings, same, known]
  | some p =>
      obtain ⟨first, last, split, before⟩ := children_split valid known
      obtain ⟨kept, different⟩ := (stays_iff valid found (valid.listed known)).mp stays
      have later : e ∉ first := by
        intro member
        have earlier : e ∈ d.precedingSiblings x := by simpa [before] using member
        exact apart ((mem_precedingSiblings valid e x).mp earlier)
      have shorter : left.children p = first ++ x :: last.filter (· != e) := by
        rw [lists, if_neg kept, split, List.filter_append, List.filter_bne_eq_self_of_not_mem later]
        simp [different]
      rw [before, precedingSiblings_split after shorter]

end Siblings
end Cascade.Document
