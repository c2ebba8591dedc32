import Cascade.Proofs.Traversal
import Cascade.RuleTree
/-!
The structure of rule trees.

Parents and lists of children agree, parents are older than their children, and no two children of
a node stand for the same qualifier. So a path of qualifiers leads to one node at most, and a
node's chain is the path that leads to it, from its end.
-/
namespace Cascade.RuleTree
open Traversal
variable {V : Type}

def parent? (t : RuleTree V) (n : RuleNodeId) : Option RuleNodeId :=
  (t.find? n).bind RuleNode.parent

def qualifier (t : RuleTree V) (n : RuleNodeId) : Qualifier :=
  ((t.find? n).map RuleNode.qualifier).getD {}

def held (t : RuleTree V) (n : RuleNodeId) : Dictionary V :=
  ((t.find? n).map RuleNode.properties).getD .empty

def total (t : RuleTree V) (n : RuleNodeId) : Specificity :=
  ((t.find? n).map RuleNode.specificity).getD .zero

structure WellFormed (t : RuleTree V) : Prop where
  rooted : root < t.nodes.size
  top : t.parent? root = none
  bare : t.held root = .empty
  weightless : t.total root = .zero
  orphan : ∀ {n : RuleNodeId}, n < t.nodes.size → t.parent? n = none → n = root
  older : ∀ {c n : RuleNodeId}, t.parent? c = some n → n < c
  listed : ∀ {c n : RuleNodeId}, t.parent? c = some n → c ∈ t.children n
  owned : ∀ {c n : RuleNodeId}, c ∈ t.children n → t.parent? c = some n
  apart : ∀ n, ((t.children n).map t.qualifier).Nodup
  summed : ∀ {c n : RuleNodeId}, t.parent? c = some n →
    t.total c = t.total n + (t.qualifier c).specificity

def at? (t : RuleTree V) (path : List Qualifier) : Option RuleNodeId :=
  path.foldlM t.child? root

theorem find_of_lt {t : RuleTree V} {n : RuleNodeId} (bound : n < t.nodes.size) :
    ∃ node, t.find? n = some node := ⟨t.nodes[n], by simp [find?, bound]⟩

theorem lt_of_find {t : RuleTree V} {n : RuleNodeId} {node : RuleNode V}
    (found : t.find? n = some node) : n < t.nodes.size :=
  (Array.getElem?_eq_some_iff.mp found).1

theorem lt_of_parent {t : RuleTree V} {c n : RuleNodeId} (known : t.parent? c = some n) :
    c < t.nodes.size := by
  cases found : t.find? c with
  | none => simp [parent?, found] at known
  | some node => exact lt_of_find found

theorem lt_of_child {t : RuleTree V} {c n : RuleNodeId} (child : c ∈ t.children n) :
    n < t.nodes.size := by
  cases found : t.find? n with
  | none => simp [children, found] at child
  | some node => exact lt_of_find found

theorem find_modify (t : RuleTree V) (n x : RuleNodeId) (f : RuleNode V → RuleNode V) :
    (t.modify n f).find? x = if x = n then (t.find? x).map f else t.find? x := by
  simp only [find?, modify, Array.getElem?_modify]
  by_cases same : n = x
  · simp [same]
  · simp [same, Ne.symm same]

theorem find_push (t : RuleTree V) (node : RuleNode V) (x : RuleNodeId) :
    find? ⟨t.nodes.push node⟩ x = if x = t.nodes.size then some node else t.find? x := by
  simp only [find?, Array.getElem?_push]

theorem find_edit (t : RuleTree V) (n x : RuleNodeId) (f : Dictionary V → Dictionary V) :
    (t.edit n f).find? x = if x = n then
      (t.find? x).map fun node => { node with properties := f node.properties }
      else t.find? x := find_modify t n x _

theorem WellFormed.forest {t : RuleTree V} (valid : t.WellFormed) :
    Forest t.children t.nodes.size where
  older child := valid.older (valid.owned child)
  bounded child := lt_of_parent (valid.owned child)
  distinct n := (valid.apart n).of_map _
  single first second := Option.some.inj ((valid.owned first).symm.trans (valid.owned second))

theorem visit_eq_sweep (t : RuleTree V) (fuel : Nat) (due : List RuleNodeId) :
    t.visit fuel due = sweep t.children fuel due := by
  induction fuel generalizing due with
  | zero => rfl
  | succ fuel ih =>
      cases due with
      | nil => rfl
      | cons n due => simp only [visit, sweep, ih]

-- Every node but the root has an older parent, so all of them are below the root.
theorem below_root {t : RuleTree V} (valid : t.WellFormed) {n : RuleNodeId}
    (bound : n < t.nodes.size) : Below t.children root n := by
  induction n using Nat.strongRecOn with
  | _ n ih =>
      cases known : t.parent? n with
      | none =>
          rw [valid.orphan bound known]
      | some p =>
          have older := valid.older known
          have listed := valid.listed known
          exact (ih p older (lt_of_child listed)).tail listed

theorem preorder_enough {t : RuleTree V} (forest : Forest t.children t.nodes.size) :
    Enough t.children t.nodes.size (t.children root) :=
  enough_of_size forest (children_separate forest root) (fun _ child => forest.bounded child)
    (Nat.le_refl _)

/-- With the root before it the pre-order is the one by recursion from the root. -/
theorem preorder_eq_subtree {t : RuleTree V} (forest : Forest t.children t.nodes.size) :
    root :: t.preorder = subtree forest root := by
  rw [preorder, visit_eq_sweep, sweep_eq_subtrees forest (preorder_enough forest),
    subtree_eq forest root]

/-- The pre-order holds every node but the root. -/
theorem mem_preorder {t : RuleTree V} (valid : t.WellFormed) (n : RuleNodeId) :
    n ∈ t.preorder ↔ n < t.nodes.size ∧ n ≠ root := by
  rw [preorder, visit_eq_sweep, mem_sweep (preorder_enough valid.forest)]
  constructor
  · rintro ⟨c, child, below⟩
    refine ⟨below_lt_size valid.forest (valid.forest.bounded child) below, ?_⟩
    have older := valid.forest.older child
    have ascends := below_le valid.forest below
    exact Nat.ne_of_gt (Nat.lt_of_lt_of_le older ascends)
  · rintro ⟨bound, inner⟩
    rcases below_cases.mp (below_root valid bound) with same | ⟨c, child, below⟩
    · exact absurd same inner
    · exact ⟨c, child, below⟩

theorem preorder_nodup {t : RuleTree V} (valid : t.WellFormed) : t.preorder.Nodup := by
  rw [preorder, visit_eq_sweep]
  exact sweep_nodup valid.forest (preorder_enough valid.forest)
    (children_separate valid.forest root)

theorem child_eq_some {t : RuleTree V} (valid : t.WellFormed) (n c : RuleNodeId) (q : Qualifier) :
    t.child? n q = some c ↔ c ∈ t.children n ∧ t.qualifier c = q := by
  -- Among the children of a node the qualifier is looked up where it is.
  have same (x : RuleNodeId) (child : x ∈ t.children n) :
      (t.find? x).any (fun node => node.qualifier == q) = true ↔ t.qualifier x = q := by
    obtain ⟨node, found⟩ := find_of_lt (lt_of_parent (valid.owned child))
    simp [qualifier, found]
  have hit {x : RuleNodeId} (found : t.child? n q = some x) :
      x ∈ t.children n ∧ t.qualifier x = q := by
    rw [child?] at found
    have child := List.mem_of_find?_eq_some found
    have equal := List.find?_some found
    exact ⟨child, (same x child).mp equal⟩
  constructor
  · exact hit
  · rintro ⟨child, equal⟩
    cases found : t.child? n q with
    | none =>
        rw [child?] at found
        have missing := List.find?_eq_none.mp found c child
        exact absurd ((same c child).mpr equal) missing
    | some x =>
        obtain ⟨other, also⟩ := hit found
        rw [List.inj_on_of_nodup_map (valid.apart n) other child (also.trans equal.symm)]

theorem child_eq_none {t : RuleTree V} (valid : t.WellFormed) (n : RuleNodeId) (q : Qualifier) :
    t.child? n q = none ↔ q ∉ (t.children n).map t.qualifier := by
  rw [Option.eq_none_iff_forall_ne_some]
  simp only [ne_eq, child_eq_some valid, List.mem_map, not_and, not_exists]

theorem at_nil (t : RuleTree V) : t.at? [] = some root := rfl

theorem at_append (t : RuleTree V) (path : List Qualifier) (q : Qualifier) :
    t.at? (path ++ [q]) = (t.at? path).bind fun n => t.child? n q := by
  simp [at?, List.foldlM_append]

theorem chain_top {t : RuleTree V} {n : RuleNodeId} (orphan : t.parent? n = none) :
    t.chain n = [] := by
  rw [chain]
  cases found : t.find? n with
  | none => rfl
  | some node =>
      have top : node.parent = none := by simpa [parent?, found] using orphan
      simp [top]

theorem chain_step {t : RuleTree V} (valid : t.WellFormed) {n p : RuleNodeId}
    (known : t.parent? n = some p) : t.chain n = t.qualifier n :: t.chain p := by
  have older := valid.older known
  rw [chain]
  cases found : t.find? n with
  | none => simp [parent?, found] at known
  | some node =>
      have parent : node.parent = some p := by simpa [parent?, found] using known
      simp [parent, older, qualifier, found]

/-- A path leads to a node exactly if it is the node's chain from its end. -/
theorem chain_of_at {t : RuleTree V} (valid : t.WellFormed) {path : List Qualifier}
    {n : RuleNodeId} (leads : t.at? path = some n) :
    n < t.nodes.size ∧ t.chain n = path.reverse := by
  -- A chain starts with the last qualifier of the path.
  induction path using List.reverseRecOn generalizing n with
  | nil =>
      obtain rfl := Option.some.inj leads
      exact ⟨valid.rooted, chain_top valid.top⟩
  | append_singleton path q ih =>
      rw [at_append] at leads
      obtain ⟨p, first, last⟩ := Option.bind_eq_some_iff.mp leads
      obtain ⟨child, same⟩ := (child_eq_some valid p n q).mp last
      have known := valid.owned child
      exact ⟨lt_of_parent known, by simp [chain_step valid known, same, (ih first).2]⟩

theorem at_chain {t : RuleTree V} (valid : t.WellFormed) {n : RuleNodeId}
    (bound : n < t.nodes.size) : t.at? (t.chain n).reverse = some n := by
  -- Parents are older, so their chains lead to them.
  induction n using Nat.strongRecOn with
  | _ n ih =>
      cases known : t.parent? n with
      | none =>
          obtain rfl := valid.orphan bound known
          rw [chain_top known]
          rfl
      | some p =>
          have listed := valid.listed known
          rw [chain_step valid known, List.reverse_cons, at_append,
            ih p (valid.older known) (lt_of_child listed), Option.bind_some]
          exact (child_eq_some valid p n _).mpr ⟨listed, rfl⟩

theorem at_inj {t : RuleTree V} (valid : t.WellFormed) {path other : List Qualifier}
    {n : RuleNodeId} (first : t.at? path = some n) (second : t.at? other = some n) :
    path = other := by
  have same := (chain_of_at valid first).2.symm.trans (chain_of_at valid second).2
  exact List.reverse_injective same

theorem find_empty (x : RuleNodeId) : (empty : RuleTree V).find? x =
    if x = root then some ⟨{}, .zero, .empty, none, []⟩ else none := by
  cases x <;> simp [find?, empty, root]

theorem empty_wellformed : (empty : RuleTree V).WellFormed := by
  have parentless (x : RuleNodeId) : (empty : RuleTree V).parent? x = none := by
    by_cases first : x = root <;> simp [parent?, find_empty, first]
  have childless (x : RuleNodeId) : (empty : RuleTree V).children x = [] := by
    by_cases first : x = root <;> simp [children, find_empty, first]
  exact
    { rooted := by simp [empty, root]
      top := parentless root
      bare := by simp [held, find_empty]
      weightless := by simp [total, find_empty]
      orphan := by
        intro n bound _
        simpa [empty, root] using bound
      older := by simp [parentless]
      listed := by simp [parentless]
      owned := by simp [childless]
      apart := by simp [childless]
      summed := by simp [parentless] }

/-! Trees that differ in what their nodes hold only. -/

structure SameShape {W : Type} (t : RuleTree V) (u : RuleTree W) : Prop where
  size : u.nodes.size = t.nodes.size
  parents : ∀ n, u.parent? n = t.parent? n
  lists : ∀ n, u.children n = t.children n
  qualifiers : ∀ n, u.qualifier n = t.qualifier n
  totals : ∀ n, u.total n = t.total n

theorem SameShape.refl (t : RuleTree V) : t.SameShape t :=
  ⟨rfl, fun _ => rfl, fun _ => rfl, fun _ => rfl, fun _ => rfl⟩

section SameShape
variable {W : Type} {t : RuleTree V} {u : RuleTree W}

theorem SameShape.symm (same : t.SameShape u) : u.SameShape t :=
  ⟨same.size.symm, fun n => (same.parents n).symm, fun n => (same.lists n).symm,
    fun n => (same.qualifiers n).symm, fun n => (same.totals n).symm⟩

theorem SameShape.trans {U : Type} {v : RuleTree U} (first : t.SameShape u)
    (second : u.SameShape v) : t.SameShape v :=
  ⟨second.size.trans first.size, fun n => (second.parents n).trans (first.parents n),
    fun n => (second.lists n).trans (first.lists n),
    fun n => (second.qualifiers n).trans (first.qualifiers n),
    fun n => (second.totals n).trans (first.totals n)⟩

theorem SameShape.wellformed (same : t.SameShape u) (valid : t.WellFormed)
    (bare : u.held root = .empty) : u.WellFormed where
  rooted := same.size ▸ valid.rooted
  top := same.parents root ▸ valid.top
  bare := bare
  weightless := same.totals root ▸ valid.weightless
  orphan bound orphan := valid.orphan (same.size ▸ bound) (same.parents _ ▸ orphan)
  older known := valid.older (same.parents _ ▸ known)
  listed known := same.lists _ ▸ valid.listed (same.parents _ ▸ known)
  owned child := same.parents _ ▸ valid.owned (same.lists _ ▸ child)
  apart n := by
    rw [same.lists, funext same.qualifiers]
    exact valid.apart n
  summed known := by
    rw [same.totals, same.totals, same.qualifiers]
    exact valid.summed (same.parents _ ▸ known)

theorem SameShape.forest (same : t.SameShape u) (forest : Forest t.children t.nodes.size) :
    Forest u.children u.nodes.size := by
  rwa [funext same.lists, same.size]

theorem SameShape.child (same : t.SameShape u) (n : RuleNodeId) (q : Qualifier) :
    u.child? n q = t.child? n q := by
  have equal (c : RuleNodeId) : (u.find? c).any (fun node => node.qualifier == q) =
      (t.find? c).any fun node => node.qualifier == q := by
    by_cases bound : c < t.nodes.size
    · obtain ⟨node, found⟩ := find_of_lt bound
      obtain ⟨other, also⟩ := find_of_lt (same.size.symm ▸ bound : c < u.nodes.size)
      have qualifiers : other.qualifier = node.qualifier := by
        simpa [qualifier, found, also] using same.qualifiers c
      simp [found, also, qualifiers]
    · have missing : t.find? c = none := by simpa [find?] using bound
      have also : u.find? c = none := by simpa [find?, same.size] using bound
      rw [missing, also]
      rfl
  simp only [child?, same.lists, equal]

theorem SameShape.at (same : t.SameShape u) (path : List Qualifier) :
    u.at? path = t.at? path := by
  have steps : u.child? = t.child? := funext fun n => funext (same.child n)
  rw [at?, at?, steps]

theorem SameShape.chain (same : t.SameShape u) (valid : t.WellFormed) (other : u.WellFormed)
    (n : RuleNodeId) : u.chain n = t.chain n := by
  induction n using Nat.strongRecOn with
  | _ n ih =>
      cases known : t.parent? n with
      | none => rw [chain_top known, chain_top (same.parents n ▸ known)]
      | some p =>
          rw [chain_step valid known, chain_step other (same.parents n ▸ known), same.qualifiers,
            ih p (valid.older known)]

theorem SameShape.preorder (same : t.SameShape u) : u.preorder = t.preorder := by
  have lists : u.children = t.children := funext same.lists
  rw [RuleTree.preorder, RuleTree.preorder, visit_eq_sweep, visit_eq_sweep, same.size, lists]

end SameShape

end Cascade.RuleTree
