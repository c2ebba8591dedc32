import Cascade.Proofs.Property.Ranking
import Cascade.Proofs.Rule.Outline
/-!
Merging rule trees.

The merge walks the other tree with pairs of nodes that are due. What it has done is settled for
every path that no pair due is above, so at the end the outline of the result is the merge of the
two outlines: the other tree's qualifiers come after those that are there, and its properties on
top.
-/
namespace Cascade.RuleTree
open Traversal
variable {V : Type}

def route (t : RuleTree V) (n : RuleNodeId) : List Qualifier := (t.chain n).reverse

theorem at_route {t : RuleTree V} (valid : t.WellFormed) {n : RuleNodeId}
    (bound : n < t.nodes.size) : t.at? (t.route n) = some n := at_chain valid bound

/-- What a node holds stands at a path, if it is anything. -/
theorem held_cases {t : RuleTree V} (valid : t.WellFormed) (n : RuleNodeId) :
    t.held n = .empty ∨ ∃ path, t.outline.properties path = t.held n := by
  by_cases bound : n < t.nodes.size
  · exact .inr ⟨t.route n, outline_properties (at_route valid bound)⟩
  · exact .inl (by simp [held, find?, bound])

theorem route_of_at {t : RuleTree V} (valid : t.WellFormed) {path : List Qualifier}
    {n : RuleNodeId} (leads : t.at? path = some n) : t.route n = path := by
  rw [route, (chain_of_at valid leads).2, List.reverse_reverse]

theorem route_child {t : RuleTree V} (valid : t.WellFormed) {n c : RuleNodeId}
    (child : c ∈ t.children n) : t.route c = t.route n ++ [t.qualifier c] := by
  simp [route, chain_step valid (valid.owned child)]

theorem route_root {t : RuleTree V} (valid : t.WellFormed) : t.route root = [] :=
  route_of_at valid (at_nil t)

theorem route_inj {t : RuleTree V} (valid : t.WellFormed) {m n : RuleNodeId}
    (bound : m < t.nodes.size) (present : n < t.nodes.size) (same : t.route m = t.route n) :
    m = n := by
  have leads := at_route valid bound
  rw [same, at_route valid present] at leads
  exact (Option.some.inj leads).symm

theorem adopt_spec {t : RuleTree V} (other : RuleTree V) {n : RuleNodeId} {path : List Qualifier}
    (valid : t.WellFormed) (leads : t.at? path = some n) (theirs : List RuleNodeId)
    (present : ∀ c ∈ theirs, c < other.nodes.size) :
    (t.adopt other n theirs).2.WellFormed ∧ t.Keeps (t.adopt other n theirs).2 ∧
    (t.adopt other n theirs).1.map Prod.fst = theirs ∧
    (∀ pair ∈ (t.adopt other n theirs).1,
      (t.adopt other n theirs).2.at? (path ++ [other.qualifier pair.1]) = some pair.2) ∧
    (t.adopt other n theirs).2.outline =
      theirs.foldl (fun o c => o.grow path (other.qualifier c)) t.outline := by
  -- The tree grows with every child, but what paths led to they still lead to.
  induction theirs generalizing t with
  | nil => exact ⟨valid, Keeps.refl t, rfl, by simp [adopt], rfl⟩
  | cons c rest ih =>
      obtain ⟨node, found⟩ := find_of_lt (present c List.mem_cons_self)
      have same : other.qualifier c = node.qualifier := by simp [qualifier, found]
      obtain ⟨after, keeps, reached, grown⟩ := descend_spec valid leads node.qualifier
      obtain ⟨last, further, firsts, pairs, whole⟩ :=
        ih after (keeps path n leads) fun x member => present x (List.mem_cons_of_mem c member)
      simp only [adopt, found, List.map_cons, firsts, List.foldl_cons, same]
      refine ⟨last, keeps.trans further, trivial, ?_, by rw [whole, grown]⟩
      intro pair member
      rcases List.mem_cons.mp member with rfl | later
      · exact further _ _ (same ▸ reached)
      · exact pairs pair later

theorem foldl_grow_properties (qualifiers : List Qualifier) (path : List Qualifier)
    (o : Outline V) :
    (qualifiers.foldl (fun o q => o.grow path q) o).properties = o.properties := by
  induction qualifiers generalizing o with
  | nil => rfl
  | cons q rest ih => exact ih (o.grow path q)

theorem foldl_grow_children (qualifiers : List Qualifier) (path other : List Qualifier)
    (o : Outline V) :
    (qualifiers.foldl (fun o q => o.grow path q) o).children other =
      if other = path then qualifiers.foldl adjoin (o.children path) else o.children other := by
  induction qualifiers generalizing o with
  | nil =>
      by_cases here : other = path <;> simp [here]
  | cons q rest ih =>
      rw [List.foldl_cons, ih]
      by_cases here : other = path <;> simp [Outline.grow, here]

def AgreeAt (a b : Outline V) (path : List Qualifier) : Prop :=
  a.children path = b.children path ∧ a.properties path = b.properties path

theorem AgreeAt.trans {a b c : Outline V} {path : List Qualifier} (first : AgreeAt a b path)
    (second : AgreeAt b c path) : AgreeAt a c path :=
  ⟨first.1.trans second.1, first.2.trans second.2⟩

theorem AgreeAt.merge {a b : Outline V} {path : List Qualifier} (agree : AgreeAt a b path)
    (other : Outline V) (offset : Nat) :
    AgreeAt (a.merge other offset) (b.merge other offset) path := by
  constructor
  · simp [Outline.merge, agree.1]
  · simp [Outline.merge, agree.2]

def absorb (other : RuleTree V) (offset : Nat) (theirs ours : RuleNodeId) (t : RuleTree V) :
    List (RuleNodeId × RuleNodeId) × RuleTree V :=
  let merged := if theirs = root then t
    else t.edit ours fun held => held.importFrom offset (other.held theirs)
  merged.adopt other ours (other.children theirs)

theorem mergeDue_cons {t other : RuleTree V} {offset fuel : Nat} {theirs ours : RuleNodeId}
    {due : List (RuleNodeId × RuleNodeId)} (bound : theirs < other.nodes.size) :
    mergeDue other offset (fuel + 1) ((theirs, ours) :: due) t =
      mergeDue other offset fuel ((absorb other offset theirs ours t).1 ++ due)
        (absorb other offset theirs ours t).2 := by
  obtain ⟨node, found⟩ := find_of_lt bound
  simp [mergeDue, absorb, found, held, children]

/-- The properties of a pair are merged before its children are adopted. The root holds none, so
leaving it out changes nothing. -/
theorem absorb_split {t other : RuleTree V} (offset : Nat) {theirs ours : RuleNodeId}
    (valid : t.WellFormed) (theirValid : other.WellFormed) (bound : theirs < other.nodes.size)
    (leads : t.at? (other.route theirs) = some ours) :
    ∃ middle : RuleTree V,
      absorb other offset theirs ours t = middle.adopt other ours (other.children theirs) ∧
      middle.WellFormed ∧ t.Keeps middle ∧ middle.outline.children = t.outline.children ∧
      ∀ path, middle.outline.properties path = if path = other.route theirs then
        (t.outline.properties (other.route theirs)).importFrom offset (other.held theirs)
        else t.outline.properties path := by
  by_cases top : theirs = root
  · subst top
    refine ⟨t, by simp [absorb], valid, Keeps.refl t, rfl, ?_⟩
    intro path
    by_cases here : path = other.route root <;> simp [here, theirValid.bare]
  · have inner : other.route theirs ≠ [] := by
      intro empty
      have position := at_route theirValid bound
      rw [empty, at_nil] at position
      exact top (Option.some.inj position).symm
    obtain ⟨after, keeps, same, offered⟩ := edit_spec valid leads inner
      fun held => held.importFrom offset (other.held theirs)
    exact ⟨_, by simp [absorb, top], after, keeps, same, offered⟩

theorem absorb_spec {t other : RuleTree V} (offset : Nat) {theirs ours : RuleNodeId}
    (valid : t.WellFormed) (theirValid : other.WellFormed) (bound : theirs < other.nodes.size)
    (leads : t.at? (other.route theirs) = some ours) :
    (absorb other offset theirs ours t).2.WellFormed ∧
    t.Keeps (absorb other offset theirs ours t).2 ∧
    (absorb other offset theirs ours t).1.map Prod.fst = other.children theirs ∧
    (∀ pair ∈ (absorb other offset theirs ours t).1,
      (absorb other offset theirs ours t).2.at? (other.route pair.1) = some pair.2) ∧
    AgreeAt (absorb other offset theirs ours t).2.outline (t.outline.merge other.outline offset)
      (other.route theirs) ∧
    ∀ path, path ≠ other.route theirs →
      AgreeAt (absorb other offset theirs ours t).2.outline t.outline path := by
  have position := at_route theirValid bound
  obtain ⟨middle, split, after, keeps, sameLists, offered⟩ :=
    absorb_split offset valid theirValid bound leads
  obtain ⟨last, further, firsts, pairs, whole⟩ := adopt_spec other after
    (keeps _ _ leads) (other.children theirs) fun c child => theirValid.forest.bounded child
  rw [split]
  have outlined : (middle.adopt other ours (other.children theirs)).2.outline =
      ((other.children theirs).map other.qualifier).foldl
        (fun o q => o.grow (other.route theirs) q) middle.outline := by
    rw [whole, List.foldl_map]
  refine ⟨last, keeps.trans further, firsts, ?_, ?_, ?_⟩
  · intro pair member
    have child : pair.1 ∈ other.children theirs := firsts ▸ List.mem_map_of_mem member
    rw [route_child theirValid child]
    exact pairs pair member
  · rw [outlined]
    constructor
    · rw [foldl_grow_children, if_pos rfl, sameLists, ← outline_children position]
      rfl
    · rw [foldl_grow_properties, offered, if_pos rfl, ← outline_properties position]
      rfl
  · intro path elsewhere
    rw [outlined]
    constructor
    · rw [foldl_grow_children, if_neg elsewhere, sameLists]
    · rw [foldl_grow_properties, offered, if_neg elsewhere]

/-- Paths of the nodes ahead get merged, and all others stay. -/
theorem mergeDue_spec {other : RuleTree V} (theirValid : other.WellFormed) (offset : Nat)
    {fuel : Nat} {nodes : List RuleNodeId} (enough : Enough other.children fuel nodes)
    (due : List (RuleNodeId × RuleNodeId)) (firsts : due.map Prod.fst = nodes)
    (separate : Separate other.children nodes) (t : RuleTree V) (valid : t.WellFormed)
    (leads : ∀ pair ∈ due, pair.1 < other.nodes.size ∧ t.at? (other.route pair.1) = some pair.2) :
    (mergeDue other offset fuel due t).WellFormed ∧
    (∀ x, Ahead other.children nodes x → AgreeAt (mergeDue other offset fuel due t).outline
      (t.outline.merge other.outline offset) (other.route x)) ∧
    ∀ path, (∀ x, Ahead other.children nodes x → path ≠ other.route x) →
      AgreeAt (mergeDue other offset fuel due t).outline t.outline path := by
  induction enough generalizing due t with
  | @done fuel =>
      obtain rfl := List.map_eq_nil_iff.mp firsts
      have same : mergeDue other offset fuel [] t = t := by cases fuel <;> rfl
      rw [same]
      exact ⟨valid, by simp [Ahead], fun _ _ => ⟨rfl, rfl⟩⟩
  | @visit fuel n nodes _ ih =>
      obtain ⟨⟨theirs, ours⟩, due, rfl, rfl, rfl⟩ := List.map_eq_cons_iff.mp firsts
      obtain ⟨bound, position⟩ := leads _ List.mem_cons_self
      obtain ⟨after, keeps, children, pairs, here, elsewhere⟩ :=
        absorb_spec offset valid theirValid bound position
      rw [mergeDue_cons bound]
      have forest := theirValid.forest
      -- Nodes ahead are in the other tree, so their routes tell them apart.
      have inside {x : RuleNodeId} (ahead : Ahead other.children (theirs :: due.map Prod.fst) x) :
          x < other.nodes.size := by
        refine ahead_lt_size forest (fun m listed => ?_) ahead
        have listed : m ∈ ((theirs, ours) :: due).map Prod.fst := listed
        obtain ⟨pair, member, rfl⟩ := List.mem_map.mp listed
        exact (leads pair member).1
      have placed : ∀ pair ∈ (absorb other offset theirs ours t).1 ++ due,
          pair.1 < other.nodes.size ∧
          (absorb other offset theirs ours t).2.at? (other.route pair.1) = some pair.2 := by
        intro pair member
        rcases List.mem_append.mp member with child | later
        · exact ⟨forest.bounded (children ▸ List.mem_map_of_mem child), pairs pair child⟩
        · obtain ⟨present, reached⟩ := leads pair (List.mem_cons_of_mem _ later)
          exact ⟨present, keeps _ _ reached⟩
      obtain ⟨last, merged, stays⟩ := ih ((absorb other offset theirs ours t).1 ++ due)
        (by rw [List.map_append, children]) (separate_step forest separate) _ after placed
      refine ⟨last, ?_, ?_⟩
      · intro x ahead
        rcases ahead_cons.mp ahead with rfl | next
        · -- The node just merged is not ahead any more, so the rest leaves its path alone.
          have untouched := stays (other.route x) (by
            intro y under same
            obtain rfl := route_inj theirValid bound (inside (ahead_cons.mpr (Or.inr under))) same
            exact not_ahead_step forest separate under)
          exact untouched.trans here
        · have different : other.route x ≠ other.route theirs := by
            intro same
            obtain rfl := route_inj theirValid (inside ahead) bound same
            exact not_ahead_step forest separate next
          exact (merged x next).trans ((elsewhere _ different).merge other.outline offset)
      · intro path outside
        have different := outside theirs (ahead_cons.mpr (Or.inl rfl))
        have untouched := stays path fun x next => outside x (ahead_cons.mpr (Or.inr next))
        exact untouched.trans (elsewhere path different)

/-- The outline of a merge is the merge of the outlines. -/
theorem merge_spec {t other : RuleTree V} (valid : t.WellFormed) (theirValid : other.WellFormed)
    (offset : Nat) :
    (t.merge other offset).WellFormed ∧
    (t.merge other offset).outline = t.outline.merge other.outline offset := by
  have rooted : ∀ n ∈ [root], n < other.nodes.size := by
    intro n member
    exact List.mem_singleton.mp member ▸ theirValid.rooted
  have enough : Enough other.children other.nodes.size [root] :=
    enough_of_size theirValid.forest (separate_singleton root) rooted (Nat.le_refl _)
  obtain ⟨after, merged, stays⟩ := mergeDue_spec theirValid offset enough
    [(root, root)] rfl (separate_singleton root) t valid (by
      intro pair member
      obtain rfl := List.mem_singleton.mp member
      exact ⟨theirValid.rooted, by rw [route_root theirValid, at_nil]⟩)
  have every (path : List Qualifier) : AgreeAt (t.merge other offset).outline
      (t.outline.merge other.outline offset) path := by
    cases reached : other.at? path with
    | some n =>
        have bound := (chain_of_at theirValid reached).1
        have here := merged n (ahead_singleton.mpr (below_root theirValid bound))
        rwa [route_of_at theirValid reached] at here
    | none =>
        -- Where the other tree has nothing, merging with it changes nothing.
        have nothing : AgreeAt t.outline (t.outline.merge other.outline offset) path := by
          constructor <;> simp [Outline.merge, outline, reached]
        refine (stays path ?_).trans nothing
        intro x ahead same
        have bound := ahead_lt_size theirValid.forest rooted ahead
        rw [same, at_route theirValid bound] at reached
        simp at reached
  exact ⟨after, Outline.ext (funext fun path => (every path).1) (funext fun path => (every path).2)⟩

end Cascade.RuleTree

/-! Trees with every value replaced, and what several nodes hold together.
Values decide nothing: replacing them commutes with every operation on a tree, and ranks alone
say what stays when nodes are merged. -/
namespace Cascade

def RuleNode.mapValues {V W : Type} (f : V → W) (node : RuleNode V) : RuleNode W :=
  ⟨node.qualifier, node.specificity, node.properties.mapValues f, node.parent, node.children⟩

def Outline.mapValues {V W : Type} (f : V → W) (o : Outline V) : Outline W :=
  ⟨o.children, fun path => (o.properties path).mapValues f⟩

namespace RuleTree
variable {V W : Type}

def mapValues (f : V → W) (t : RuleTree V) : RuleTree W :=
  ⟨t.nodes.map (RuleNode.mapValues f)⟩

def gathered (t : RuleTree V) (nodes : List RuleNodeId) : Dictionary V :=
  nodes.foldl (fun held n => held.merge (t.held n)) .empty

theorem ext_find {t u : RuleTree V} (same : ∀ n, t.find? n = u.find? n) : t = u := by
  obtain ⟨nodes⟩ := t
  obtain ⟨others⟩ := u
  exact congrArg RuleTree.mk (Array.ext_getElem? same)

section Replacing
variable (f : V → W) (t : RuleTree V)

theorem find_mapValues (n : RuleNodeId) :
    (t.mapValues f).find? n = (t.find? n).map (RuleNode.mapValues f) := by
  simp [find?, mapValues]

theorem parent_mapValues (n : RuleNodeId) : (t.mapValues f).parent? n = t.parent? n := by
  cases found : t.find? n <;> simp [parent?, find_mapValues, found, RuleNode.mapValues]

theorem children_mapValues (n : RuleNodeId) : (t.mapValues f).children n = t.children n := by
  cases found : t.find? n <;> simp [children, find_mapValues, found, RuleNode.mapValues]

theorem qualifier_mapValues (n : RuleNodeId) : (t.mapValues f).qualifier n = t.qualifier n := by
  cases found : t.find? n <;> simp [qualifier, find_mapValues, found, RuleNode.mapValues]

theorem total_mapValues (n : RuleNodeId) : (t.mapValues f).total n = t.total n := by
  cases found : t.find? n <;> simp [total, find_mapValues, found, RuleNode.mapValues]

theorem held_mapValues (n : RuleNodeId) :
    (t.mapValues f).held n = (t.held n).mapValues f := by
  cases found : t.find? n <;>
    simp [held, find_mapValues, found, RuleNode.mapValues, Dictionary.mapValues_empty]

theorem mapValues_shape : t.SameShape (t.mapValues f) :=
  ⟨by simp [mapValues], parent_mapValues f t, children_mapValues f t, qualifier_mapValues f t,
    total_mapValues f t⟩

theorem mapValues_wellformed : (t.mapValues f).WellFormed ↔ t.WellFormed := by
  constructor
  · intro valid
    have bare := valid.bare
    rw [held_mapValues, Dictionary.mapValues_eq_empty] at bare
    exact (mapValues_shape f t).symm.wellformed valid bare
  · intro valid
    apply (mapValues_shape f t).wellformed valid
    rw [held_mapValues, valid.bare, Dictionary.mapValues_empty]

theorem child_mapValues (n : RuleNodeId) (q : Qualifier) :
    (t.mapValues f).child? n q = t.child? n q := by
  have same (c : RuleNodeId) : ((t.mapValues f).find? c).any (fun node => node.qualifier == q) =
      (t.find? c).any fun node => node.qualifier == q := by
    cases found : t.find? c <;> simp [find_mapValues, found, RuleNode.mapValues]
  simp only [child?, children_mapValues, same]

theorem outline_mapValues : (t.mapValues f).outline = t.outline.mapValues f := by
  have steps : (t.mapValues f).child? = t.child? :=
    funext fun n => funext fun q => child_mapValues f t n q
  have leads : (t.mapValues f).at? = t.at? := by
    funext path
    rw [at?, at?, steps]
  have quals : (t.mapValues f).qualifier = t.qualifier := funext (qualifier_mapValues f t)
  ext1
  · funext path
    simp only [outline, Outline.mapValues, leads, children_mapValues, quals]
  · funext path
    simp only [outline, Outline.mapValues, leads, held_mapValues]
    cases t.at? path with
    | none => exact (Dictionary.mapValues_empty f).symm
    | some n => rfl

theorem mapValues_mapValues {U : Type} (g : W → U) :
    (t.mapValues f).mapValues g = t.mapValues (g ∘ f) := by
  have same (node : RuleNode V) :
      (node.mapValues f).mapValues g = node.mapValues (g ∘ f) := by
    simp only [RuleNode.mapValues, Dictionary.mapValues_mapValues]
  simp [mapValues, same]

theorem gathered_mapValues (nodes : List RuleNodeId) :
    (t.mapValues f).gathered nodes = (t.gathered nodes).mapValues f := by
  have step (held : Dictionary V) :
      nodes.foldl (fun held n => held.merge ((t.mapValues f).held n)) (held.mapValues f) =
        (nodes.foldl (fun held n => held.merge (t.held n)) held).mapValues f := by
    induction nodes generalizing held with
    | nil => rfl
    | cons n rest ih =>
        rw [List.foldl_cons, List.foldl_cons, held_mapValues, ← Dictionary.mapValues_merge]
        exact ih _
  rw [gathered, ← Dictionary.mapValues_empty f, step]
  rfl

theorem modify_mapValues (n : RuleNodeId) {g : RuleNode V → RuleNode V}
    {h : RuleNode W → RuleNode W} (commutes : ∀ node, (g node).mapValues f = h (node.mapValues f)) :
    (t.modify n g).mapValues f = (t.mapValues f).modify n h := by
  apply ext_find
  intro x
  rw [find_mapValues, find_modify, find_modify, find_mapValues]
  by_cases same : x = n
  · cases found : t.find? x <;> simp [same, commutes]
  · simp [same]

theorem push_mapValues (node : RuleNode V) :
    mapValues f ⟨t.nodes.push node⟩ = ⟨(t.mapValues f).nodes.push (node.mapValues f)⟩ := by
  simp [mapValues]

theorem descend_mapValues (n : RuleNodeId) (q : Qualifier) :
    (t.mapValues f).descend n q = ((t.descend n q).1, (t.descend n q).2.mapValues f) := by
  cases found : t.find? n with
  | none => simp [descend, find_mapValues, found]
  | some node =>
      cases known : t.child? n q with
      | some c => simp [descend, find_mapValues, found, child_mapValues, known]
      | none =>
          have size : (t.mapValues f).nodes.size = t.nodes.size := (mapValues_shape f t).size
          simp only [descend, find_mapValues, found, child_mapValues, known, Option.map_some, size]
          have grown := modify_mapValues f
            ⟨t.nodes.push ⟨q, node.specificity + q.specificity, .empty, some n, []⟩⟩ n
            (g := fun p => { p with children := p.children ++ [t.nodes.size] })
            (h := fun p => { p with children := p.children ++ [t.nodes.size] }) fun _ => rfl
          rw [grown, push_mapValues]
          simp only [RuleNode.mapValues, Dictionary.mapValues_empty]

theorem descendAll_mapValues (n : RuleNodeId) (path : List Qualifier) :
    (t.mapValues f).descendAll n path =
      ((t.descendAll n path).1, (t.descendAll n path).2.mapValues f) := by
  induction path generalizing t n with
  | nil => rfl
  | cons q rest ih => simp only [descendAll, descend_mapValues, ih]

theorem insert_mapValues (s : Selector) (d : Dictionary V) :
    (t.insert s d).2.mapValues f = ((t.mapValues f).insert s (d.mapValues f)).2 := by
  simp only [insert, descendAll_mapValues, edit]
  exact modify_mapValues f _ _ fun node => by
    simp only [RuleNode.mapValues, Dictionary.mapValues_merge]

end Replacing

/-- What nodes hold together is, for each property, the greatest that one of them holds. -/
theorem gathered_greatest (t : RuleTree V) (nodes : List RuleNodeId) (p : Longhand) :
    Property.Greatest (fun q => ∃ n ∈ nodes, (t.held n).get? p = some q)
      ((t.gathered nodes).get? p) := by
  rw [gathered]
  apply Property.Greatest.folded (fun held : Dictionary V => held.get? p) fun n =>
    (t.held n).get? p
  · intro held n
    rw [Dictionary.get_merge]
  · rw [Dictionary.get?_empty]

end RuleTree
end Cascade
