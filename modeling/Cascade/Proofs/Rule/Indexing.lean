import Cascade.Proofs.Collections
import Cascade.Proofs.Rule.Matching
/-!
Node indices lose no node that matches.

A bucket holds the nodes filed under its key, in pre-order. An element that a node matches has the
key of the node, so the candidates of an element include all filed nodes that match it.
-/
namespace Cascade

/-- An element has the key of whatever holds of it. -/
theorem IndexKey.mem_ofElement {q : Qualifier} {e : ElementData} (holds : q.holds e = true) :
    IndexKey.ofQualifier q ∈ IndexKey.ofElement e := by
  rcases q with ⟨tag, id, classes, pseudoClasses, combinator⟩
  simp only [Qualifier.holds, Bool.and_eq_true] at holds
  obtain ⟨⟨⟨tagged, identified⟩, classed⟩, -⟩ := holds
  cases id with
  | some name =>
      have same : e.id = some name := by simpa using identified
      simp [ofQualifier, ofElement, same]
  | none =>
      cases classes with
      | cons name rest =>
          have member : name ∈ e.classes := by
            simpa [ElementData.hasClass] using List.all_eq_true.mp classed name List.mem_cons_self
          simp [ofQualifier, ofElement, member]
      | nil =>
          cases tag with
          | some name =>
              have same : name = e.tag := by simpa using tagged
              simp [ofQualifier, ofElement, same]
          | none => simp [ofQualifier, ofElement]

def RuleNode.isStyled {V : Type} (node : RuleNode V) : Bool := !node.properties.isEmpty

theorem RuleNode.isStyled_mapValues {V W : Type} (f : V → W) (node : RuleNode V) :
    (node.mapValues f).isStyled = node.isStyled := by
  rw [isStyled, isStyled, mapValues, Dictionary.isEmpty_mapValues]

namespace NodeIndex
variable {V W : Type} {t : RuleTree V}

@[simp] theorem get_empty (key : IndexKey) : empty.get key = [] := rfl

theorem get_insert (index : NodeIndex) (q : Qualifier) (n : RuleNodeId) (key : IndexKey) :
    (index.insert q n).get key =
      index.get key ++ if IndexKey.ofQualifier q = key then [n] else [] := by
  by_cases same : IndexKey.ofQualifier q = key <;> simp [insert, get, same]

def filedUnder (t : RuleTree V) (filed : RuleNode V → Bool) (key : IndexKey) (n : RuleNodeId) :
    Bool :=
  (t.find? n).any fun node => filed node && IndexKey.ofQualifier node.qualifier == key

theorem get_ofTree (t : RuleTree V) (filed : RuleNode V → Bool) (key : IndexKey) :
    (ofTree t filed).get key = t.preorder.filter (filedUnder t filed key) := by
  -- A node goes to the end of its own bucket, and the others do not change.
  have run {file : NodeIndex → RuleNodeId → NodeIndex}
      (step : ∀ index n, (file index n).get key =
        index.get key ++ if filedUnder t filed key n then [n] else [])
      (nodes : List RuleNodeId) (index : NodeIndex) :
      (nodes.foldl file index).get key =
        index.get key ++ nodes.filter (filedUnder t filed key) := by
    induction nodes generalizing index with
    | nil => simp
    | cons n rest ih =>
        rw [List.foldl_cons, ih, step, List.filter_cons]
        cases filedUnder t filed key n <;> simp
  refine run (fun index n => ?_) t.preorder empty
  cases found : t.find? n with
  | none => simp [filedUnder, found]
  | some node =>
      cases kept : filed node with
      | false => simp [filedUnder, found, kept]
      | true =>
          by_cases same : IndexKey.ofQualifier node.qualifier = key <;>
            simp [filedUnder, found, kept, get_insert, same]

/-- A bucket holds the filed nodes that have its key. -/
theorem mem_get (valid : t.WellFormed) (filed : RuleNode V → Bool) (key : IndexKey)
    (n : RuleNodeId) : n ∈ (ofTree t filed).get key ↔ n ≠ RuleTree.root ∧
      ∃ node, t.find? n = some node ∧ filed node = true ∧
        IndexKey.ofQualifier node.qualifier = key := by
  rw [get_ofTree, List.mem_filter, RuleTree.mem_preorder valid]
  cases found : t.find? n with
  | none => simp [filedUnder, found]
  | some node =>
      have bound := RuleTree.lt_of_find found
      simp [filedUnder, found, bound]

theorem get_nodup (valid : t.WellFormed) (filed : RuleNode V → Bool) (key : IndexKey) :
    ((ofTree t filed).get key).Nodup := by
  rw [get_ofTree]
  exact (RuleTree.preorder_nodup valid).filter _

/-- Each of the given nodes stands in one bucket, once, and no other node stands in any. -/
structure Holds (index : NodeIndex) (among : RuleNodeId → Prop) : Prop where
  one : ∀ n, among n → ∃! key, n ∈ index.get key
  once : ∀ key, (index.get key).Nodup
  only : ∀ key n, n ∈ index.get key → among n

theorem Holds.congr {index : NodeIndex} {among other : RuleNodeId → Prop}
    (holds : index.Holds among) (same : ∀ n, among n ↔ other n) : index.Holds other where
  one n member := holds.one n ((same n).mpr member)
  once := holds.once
  only key n member := (same n).mp (holds.only key n member)

theorem holds_ofTree (valid : t.WellFormed) (filed : RuleNode V → Bool) :
    (ofTree t filed).Holds fun n => n ≠ RuleTree.root ∧ (t.find? n).any filed = true where
  one := by
    rintro n ⟨inner, kept⟩
    obtain ⟨node, found, kept⟩ := (Option.any_eq_true _ _).mp kept
    refine ⟨IndexKey.ofQualifier node.qualifier, ?_, fun key member => ?_⟩
    · exact (mem_get valid filed _ n).mpr ⟨inner, node, found, kept, rfl⟩
    · obtain ⟨-, other, also, -, same⟩ := (mem_get valid filed key n).mp member
      rw [found] at also
      rw [← same, Option.some.inj also]
  once := get_nodup valid filed
  only := by
    intro key n member
    obtain ⟨inner, node, found, kept, -⟩ := (mem_get valid filed key n).mp member
    exact ⟨inner, by rw [found]; exact kept⟩

/-- The nodes found for an element come in ascending order, none of them twice. -/
theorem applicable_ascending (index : NodeIndex) (t : RuleTree V) (d : Document) (e : ElementId) :
    (index.applicable t d e).Pairwise (· < ·) := by
  rw [applicable]
  cases d.data? e with
  | none => exact List.Pairwise.nil
  | some data => exact (Ordered.numbers_ascending _).filter _

theorem satisfies_of_isApplicable {d : Document} {n : RuleNodeId} {e : ElementId}
    (applies : t.isApplicable d n e = true) :
    ∃ node, t.find? n = some node ∧ d.satisfies node.qualifier e = true := by
  cases found : t.find? n with
  | none =>
      have top : t.chain n = [] := by
        rw [RuleTree.chain, found]
      simp [RuleTree.isApplicable, top] at applies
  | some node =>
      refine ⟨node, rfl, ?_⟩
      by_contra fails
      have missed (before : List Qualifier) :
          d.matchChain (node.qualifier :: before) e = .failedHere := by
        simp [Document.matchChain, fails]
      rw [RuleTree.isApplicable, RuleTree.chain, found] at applies
      cases parent : node.parent with
      | none => simp [parent] at applies
      | some p =>
          by_cases older : p < n
          · simp [parent, older, missed] at applies
          · simp [parent, older] at applies

/-- The index finds the nodes that it files and that match, and no others. -/
theorem mem_applicable (valid : t.WellFormed) (filed : RuleNode V → Bool) (d : Document)
    (e : ElementId) (n : RuleNodeId) :
    n ∈ (ofTree t filed).applicable t d e ↔
      n ≠ RuleTree.root ∧ (t.find? n).any filed = true ∧ t.isApplicable d n e = true := by
  have candidate (data : ElementData) : n ∈ (ofTree t filed).candidates data ↔
      ∃ key ∈ IndexKey.ofElement data, n ∈ (ofTree t filed).get key := by
    simp [candidates, Ordered.mem_numbers]
  constructor
  · intro member
    rw [applicable] at member
    cases present : d.data? e with
    | none => simp [present] at member
    | some data =>
        simp only [present, List.mem_filter, candidate] at member
        obtain ⟨⟨key, -, under⟩, applies⟩ := member
        obtain ⟨inner, node, found, kept, -⟩ := (mem_get valid filed key n).mp under
        exact ⟨inner, by rw [found]; exact kept, applies⟩
  · rintro ⟨inner, kept, applies⟩
    obtain ⟨node, found, satisfied⟩ := satisfies_of_isApplicable applies
    obtain ⟨data, present, holds⟩ : ∃ data, d.data? e = some data ∧ node.qualifier.holds data := by
      simpa [Document.satisfies, Option.any_eq_true] using satisfied
    rw [found, Option.any_some] at kept
    simp only [applicable, present, List.mem_filter, candidate]
    exact ⟨⟨IndexKey.ofQualifier node.qualifier, IndexKey.mem_ofElement holds,
      (mem_get valid filed _ n).mpr ⟨inner, node, found, kept, rfl⟩⟩, applies⟩

theorem ofTree_mapValues (f : V → W) (filed : RuleNode V → Bool) (other : RuleNode W → Bool)
    (same : ∀ node, other (node.mapValues f) = filed node) :
    ofTree (t.mapValues f) other = ofTree t filed := by
  rw [ofTree, ofTree, (RuleTree.mapValues_shape f t).preorder]
  congr
  funext index n
  cases found : t.find? n with
  | none => simp [RuleTree.find_mapValues, found]
  | some node =>
      simp only [RuleTree.find_mapValues, found, Option.map_some, same]
      rfl

theorem applicable_mapValues (valid : t.WellFormed) (f : V → W) (index : NodeIndex) (d : Document)
    (e : ElementId) : index.applicable (t.mapValues f) d e = index.applicable t d e := by
  have other := (RuleTree.mapValues_wellformed f t).mpr valid
  have chains : (t.mapValues f).chain = t.chain :=
    funext ((RuleTree.mapValues_shape f t).chain valid other)
  simp only [applicable, RuleTree.isApplicable, chains]

/-- What the styled nodes that match an element hold together is, for each property, the greatest
that a path selecting the element holds. -/
theorem styled_greatest (valid : t.WellFormed) {d : Document} (sound : d.WellFormed)
    (e : ElementId) (p : Longhand) :
    Property.Greatest
      (fun q => ∃ path, d.Selected path e ∧ (t.outline.properties path).get? p = some q)
      ((t.gathered ((ofTree t RuleNode.isStyled).applicable t d e)).get? p) := by
  apply (RuleTree.gathered_greatest t _ p).congr
  intro q
  simp only [mem_applicable valid]
  constructor
  · rintro ⟨n, ⟨inner, kept, applies⟩, known⟩
    obtain ⟨node, found, -⟩ := satisfies_of_isApplicable applies
    have bound := RuleTree.lt_of_find found
    refine ⟨t.route n, (RuleTree.isApplicable_iff valid sound bound inner e).mp applies, ?_⟩
    rw [RuleTree.outline_properties (RuleTree.at_route valid bound), known]
  · rintro ⟨path, selected, known⟩
    cases leads : t.at? path with
    | none => simp [RuleTree.outline, leads] at known
    | some n =>
        rw [RuleTree.outline_properties leads] at known
        have bound := (RuleTree.chain_of_at valid leads).1
        have route : t.route n = path := RuleTree.route_of_at valid leads
        have inner : n ≠ RuleTree.root := by
          rintro rfl
          simp [valid.bare] at known
        obtain ⟨node, found⟩ := RuleTree.find_of_lt bound
        -- A node that holds the property is filed.
        have styled : node.isStyled = true := by
          have here : node.properties.get? p = some q := by
            simpa [RuleTree.held, found] using known
          rw [RuleNode.isStyled, Dictionary.isEmpty_of_some here]
          rfl
        refine ⟨n, ⟨inner, by simp [found, styled], ?_⟩, known⟩
        rw [RuleTree.isApplicable_iff valid sound bound inner, route]
        exact selected

end NodeIndex
end Cascade

/-! Trees that differ in ranks and origins.
Two trees of one shape whose nodes hold the same values, with ranks in the same order, stay so when
the same selectors are inserted into both. They match the same nodes with every element, and what
these hold together has the same values. -/
namespace Cascade.RuleTree
variable {V : Type} {R : Precedence → Precedence → Prop} {t u : RuleTree V}

structure Echoes (R : Precedence → Precedence → Prop) (t u : RuleTree V) : Prop where
  first : t.WellFormed
  second : u.WellFormed
  shape : t.SameShape u
  held : ∀ n, (t.held n).Echoes R (u.held n)

theorem Echoes.refl (valid : t.WellFormed)
    (kept : ∀ n p q, (t.held n).get? p = some q → R q.precedence q.precedence) : t.Echoes R t where
  first := valid
  second := valid
  shape := SameShape.refl t
  held n := Dictionary.Echoes.refl (kept n)

theorem Echoes.descend (echoes : t.Echoes R u) {n : RuleNodeId} (bound : n < t.nodes.size)
    (q : Qualifier) : (u.descend n q).1 = (t.descend n q).1 ∧
      (t.descend n q).2.Echoes R (u.descend n q).2 ∧
      (t.descend n q).1 < (t.descend n q).2.nodes.size := by
  have other : n < u.nodes.size := echoes.shape.size.symm ▸ bound
  have children := echoes.shape.child n q
  cases known : t.child? n q with
  | some c =>
      rw [descend_of_child bound known, descend_of_child other (children.trans known)]
      have child := ((child_eq_some echoes.first n c q).mp known).1
      exact ⟨rfl, echoes, lt_of_parent (echoes.first.owned child)⟩
  | none =>
      have missing := children.trans known
      rw [descend_of_none bound known, descend_of_none other missing]
      refine ⟨echoes.shape.size, ⟨sprout_wellformed echoes.first bound known,
        sprout_wellformed echoes.second other missing, sprout_shape echoes.shape bound q, ?_⟩, ?_⟩
      · intro x
        rw [held_sprout bound, held_sprout other]
        exact echoes.held x
      · rw [sprout_size]
        exact Nat.lt_succ_self _

theorem Echoes.descendAll (echoes : t.Echoes R u) {n : RuleNodeId} (bound : n < t.nodes.size)
    (path : List Qualifier) : (u.descendAll n path).1 = (t.descendAll n path).1 ∧
      (t.descendAll n path).2.Echoes R (u.descendAll n path).2 ∧
      (t.descendAll n path).1 < (t.descendAll n path).2.nodes.size := by
  induction path generalizing t u n with
  | nil => exact ⟨rfl, echoes, bound⟩
  | cons q rest ih =>
      obtain ⟨same, after, inside⟩ := echoes.descend bound q
      have others := ih after inside
      simp only [RuleTree.descendAll, same]
      exact others

theorem Echoes.insert (faithful : Precedence.Faithful R) (echoes : t.Echoes R u) (s : Selector)
    {d e : Dictionary V} (offer : d.Echoes R e) :
    (t.insert s d).2.Echoes R (u.insert s e).2 := by
  obtain ⟨same, after, inside⟩ := echoes.descendAll echoes.first.rooted (pathOf s)
  have other := after.shape.size.symm ▸ inside
  refine ⟨(insert_spec echoes.first s d).1, (insert_spec echoes.second s e).1, ?_, ?_⟩
  · have before := (edit_shape (t.descendAll root (pathOf s)).2 (t.descendAll root (pathOf s)).1
      fun held => held.merge d).symm
    simp only [RuleTree.insert, same]
    exact (before.trans after.shape).trans (edit_shape _ _ _)
  · intro x
    simp only [RuleTree.insert, same]
    rw [held_edit inside, held_edit other]
    split
    case isTrue => exact (after.held _).merge faithful offer
    case isFalse => exact after.held x

theorem Echoes.gathered (faithful : Precedence.Faithful R) (echoes : t.Echoes R u)
    (nodes : List RuleNodeId) : (t.gathered nodes).Echoes R (u.gathered nodes) :=
  List.foldl_rel Dictionary.echoes_empty fun n _ _ _ same => same.merge faithful (echoes.held n)

/-- The same nodes match an element. -/
theorem Echoes.styled (echoes : t.Echoes R u) (d : Document) (e : ElementId) :
    (NodeIndex.ofTree u RuleNode.isStyled).applicable u d e =
      (NodeIndex.ofTree t RuleNode.isStyled).applicable t d e := by
  have chains : u.chain = t.chain := funext (echoes.shape.chain echoes.first echoes.second)
  have index : NodeIndex.ofTree u RuleNode.isStyled = NodeIndex.ofTree t RuleNode.isStyled := by
    rw [NodeIndex.ofTree, NodeIndex.ofTree, echoes.shape.preorder]
    congr
    funext index n
    by_cases bound : n < t.nodes.size
    · obtain ⟨node, found⟩ := find_of_lt bound
      obtain ⟨other, also⟩ := find_of_lt (t := u) (echoes.shape.size.symm ▸ bound)
      have qualifiers := echoes.shape.qualifiers n
      have holds := (echoes.held n).isEmpty
      simp only [qualifier, RuleTree.held, found, also, Option.map_some, Option.getD_some]
        at qualifiers holds
      simp only [found, also, RuleNode.isStyled, qualifiers, holds]
    · have missing : t.find? n = none := by
        simpa [find?] using bound
      have also : u.find? n = none := by
        simpa [find?, echoes.shape.size] using bound
      rw [missing, also]
  simp only [NodeIndex.applicable, RuleTree.isApplicable, chains, index]

end Cascade.RuleTree
