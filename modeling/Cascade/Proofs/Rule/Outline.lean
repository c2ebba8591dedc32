import Cascade.Proofs.Rule.Structure
/-!
Rule trees seen through paths of qualifiers.

An outline forgets the numbers of nodes: it gives, for every path of qualifiers, the qualifiers
that go on from there, in order, and the properties that are held there. Every operation on rule
trees is an operation on outlines.
-/
namespace Cascade

def adjoin {α : Type} [DecidableEq α] (xs : List α) (x : α) : List α :=
  if x ∈ xs then xs else xs ++ [x]

theorem mem_foldl_adjoin {α : Type} [DecidableEq α] (xs ys : List α) (x : α) :
    x ∈ ys.foldl adjoin xs ↔ x ∈ xs ∨ x ∈ ys := by
  induction ys generalizing xs with
  | nil => simp
  | cons y rest ih =>
      have step : x ∈ adjoin xs y ↔ x ∈ xs ∨ x = y := by
        by_cases known : y ∈ xs
        · simp only [adjoin, if_pos known]
          exact ⟨Or.inl, fun either => either.elim id fun same => same ▸ known⟩
        · simp [adjoin, known]
      rw [List.foldl_cons, ih, step, List.mem_cons, or_assoc]

-- Elements that come once each come in their own order behind those that are there.
theorem foldl_adjoin_nodup {α : Type} [DecidableEq α] (xs : List α) {ys : List α}
    (distinct : ys.Nodup) : ys.foldl adjoin xs = xs ++ ys.filter (· ∉ xs) := by
  induction distinct generalizing xs with
  | nil => simp
  | @cons y rest new _ ih =>
      rw [List.foldl_cons, ih]
      by_cases known : y ∈ xs
      · simp [adjoin, known]
      · have same : rest.filter (· ∉ xs ++ [y]) = rest.filter (· ∉ xs) := by
          apply List.filter_congr
          intro z member
          simp [(new z member).symm]
        simp only [adjoin, if_neg known, same]
        simp [known]

@[ext] structure Outline (V : Type) where
  children : List Qualifier → List Qualifier
  properties : List Qualifier → Dictionary V

namespace Outline
variable {V : Type}

def empty : Outline V := ⟨fun _ => [], fun _ => .empty⟩

def grow (o : Outline V) (path : List Qualifier) (q : Qualifier) : Outline V where
  children other := if other = path then adjoin (o.children path) q else o.children other
  properties := o.properties

def growAll (o : Outline V) (path : List Qualifier) : List Qualifier → Outline V
  | [] => o
  | q :: rest => (o.grow path q).growAll (path ++ [q]) rest

def offer (o : Outline V) (path : List Qualifier) (properties : Dictionary V) : Outline V where
  children := o.children
  properties other :=
    if other = path then (o.properties path).merge properties else o.properties other

def insert (o : Outline V) (path : List Qualifier) (properties : Dictionary V) : Outline V :=
  (o.growAll [] path).offer path properties

/-- What goes on in the other outline comes after what goes on here, its properties on top. -/
def merge (o other : Outline V) (offset : Nat) : Outline V where
  children path := (other.children path).foldl adjoin (o.children path)
  properties path := (o.properties path).importFrom offset (other.properties path)

end Outline

namespace RuleTree
variable {V : Type}

def outline (t : RuleTree V) : Outline V where
  children path :=
    match t.at? path with
    | none => []
    | some n => (t.children n).map t.qualifier
  properties path :=
    match t.at? path with
    | none => .empty
    | some n => t.held n

def Keeps (t other : RuleTree V) : Prop :=
  ∀ path n, t.at? path = some n → other.at? path = some n

theorem Keeps.refl (t : RuleTree V) : t.Keeps t := fun _ _ leads => leads

theorem Keeps.trans {t u v : RuleTree V} (first : t.Keeps u) (second : u.Keeps v) : t.Keeps v :=
  fun path n leads => second path n (first path n leads)

theorem outline_children {t : RuleTree V} {path : List Qualifier} {n : RuleNodeId}
    (leads : t.at? path = some n) : t.outline.children path = (t.children n).map t.qualifier := by
  simp [outline, leads]

theorem outline_properties {t : RuleTree V} {path : List Qualifier} {n : RuleNodeId}
    (leads : t.at? path = some n) : t.outline.properties path = t.held n := by
  simp [outline, leads]

def sprout (t : RuleTree V) (n : RuleNodeId) (q : Qualifier) : RuleTree V :=
  modify ⟨t.nodes.push ⟨q, t.total n + q.specificity, .empty, some n, []⟩⟩ n
    fun p => { p with children := p.children ++ [t.nodes.size] }

section Sprout
variable {t : RuleTree V} {n : RuleNodeId}

theorem find_sprout (bound : n < t.nodes.size) (q : Qualifier) (x : RuleNodeId) :
    (t.sprout n q).find? x =
      if x = t.nodes.size then some ⟨q, t.total n + q.specificity, .empty, some n, []⟩
      else if x = n then
        (t.find? x).map fun p => { p with children := p.children ++ [t.nodes.size] }
      else t.find? x := by
  have different : t.nodes.size ≠ n := Nat.ne_of_gt bound
  rw [sprout, find_modify, find_push]
  by_cases new : x = t.nodes.size
  · simp [new, different]
  · by_cases same : x = n <;> simp [new, same, different.symm]

theorem sprout_size (t : RuleTree V) (n : RuleNodeId) (q : Qualifier) :
    (t.sprout n q).nodes.size = t.nodes.size + 1 := by
  simp [sprout, modify]

theorem find_beyond (t : RuleTree V) : t.find? t.nodes.size = none := by
  simp [find?]

theorem parent_sprout (bound : n < t.nodes.size) (q : Qualifier) (x : RuleNodeId) :
    (t.sprout n q).parent? x = if x = t.nodes.size then some n else t.parent? x := by
  by_cases new : x = t.nodes.size
  · simp [parent?, find_sprout bound, new]
  · by_cases same : x = n
    · cases found : t.find? x <;> simp_all [parent?, find_sprout bound]
    · simp [parent?, find_sprout bound, new, same]

theorem children_sprout (bound : n < t.nodes.size) (q : Qualifier) (x : RuleNodeId) :
    (t.sprout n q).children x =
      if x = n then t.children n ++ [t.nodes.size] else t.children x := by
  have different : t.nodes.size ≠ n := Nat.ne_of_gt bound
  by_cases new : x = t.nodes.size
  · simp [children, find_sprout bound, new, different, find_beyond]
  · by_cases same : x = n
    · obtain ⟨node, found⟩ := find_of_lt bound
      simp [children, find_sprout bound, same, found, different.symm]
    · simp [children, find_sprout bound, new, same]

theorem qualifier_sprout (bound : n < t.nodes.size) (q : Qualifier) (x : RuleNodeId) :
    (t.sprout n q).qualifier x = if x = t.nodes.size then q else t.qualifier x := by
  by_cases new : x = t.nodes.size
  · simp [qualifier, find_sprout bound, new]
  · by_cases same : x = n
    · cases found : t.find? x <;> simp_all [qualifier, find_sprout bound]
    · simp [qualifier, find_sprout bound, new, same]

theorem held_sprout (bound : n < t.nodes.size) (q : Qualifier) (x : RuleNodeId) :
    (t.sprout n q).held x = t.held x := by
  by_cases new : x = t.nodes.size
  · simp [held, find_sprout bound, new, find_beyond]
  · by_cases same : x = n
    · cases found : t.find? x <;> simp_all [held, find_sprout bound]
    · simp [held, find_sprout bound, new, same]

theorem total_sprout (bound : n < t.nodes.size) (q : Qualifier) (x : RuleNodeId) :
    (t.sprout n q).total x =
      if x = t.nodes.size then t.total n + q.specificity else t.total x := by
  by_cases new : x = t.nodes.size
  · simp [total, find_sprout bound, new]
  · by_cases same : x = n
    · cases found : t.find? x <;> simp_all [total, find_sprout bound]
    · simp [total, find_sprout bound, new, same]

theorem parent_sprout_iff (bound : n < t.nodes.size) (q : Qualifier) {c m : RuleNodeId} :
    (t.sprout n q).parent? c = some m ↔ t.parent? c = some m ∨ c = t.nodes.size ∧ m = n := by
  rw [parent_sprout bound]
  by_cases new : c = t.nodes.size
  · have orphaned : t.parent? t.nodes.size = none := by simp [parent?, find_beyond]
    simp [new, orphaned, eq_comm]
  · simp [new]

theorem mem_children_sprout (bound : n < t.nodes.size) (q : Qualifier) {c m : RuleNodeId} :
    c ∈ (t.sprout n q).children m ↔ c ∈ t.children m ∨ c = t.nodes.size ∧ m = n := by
  rw [children_sprout bound]
  by_cases same : m = n <;> simp [same]

/-- The children of a node have the qualifiers they had. -/
theorem qualifiers_sprout (valid : t.WellFormed) (bound : n < t.nodes.size) (q : Qualifier)
    (m : RuleNodeId) :
    (t.children m).map (t.sprout n q).qualifier = (t.children m).map t.qualifier := by
  apply List.map_congr_left
  intro c child
  have different : c ≠ t.nodes.size := Nat.ne_of_lt (valid.forest.bounded child)
  simp [qualifier_sprout bound, different]

theorem sprout_wellformed (valid : t.WellFormed) (bound : n < t.nodes.size) {q : Qualifier}
    (new : t.child? n q = none) : (t.sprout n q).WellFormed where
  rooted := by
    rw [sprout_size]
    exact Nat.lt_succ_of_lt valid.rooted
  top := by simpa [parent_sprout bound, Nat.ne_of_lt valid.rooted] using valid.top
  bare := by rw [held_sprout bound, valid.bare]
  weightless := by simpa [total_sprout bound, Nat.ne_of_lt valid.rooted] using valid.weightless
  orphan {x} inside parentless := by
    rw [parent_sprout bound] at parentless
    rw [sprout_size] at inside
    split at parentless
    case isTrue => simp at parentless
    case isFalse old =>
      exact valid.orphan (Nat.lt_of_le_of_ne (Nat.lt_succ_iff.mp inside) old) parentless
  older known := by
    rcases (parent_sprout_iff bound q).mp known with old | ⟨rfl, rfl⟩
    · exact valid.older old
    · exact bound
  listed known :=
    (mem_children_sprout bound q).mpr (((parent_sprout_iff bound q).mp known).imp_left valid.listed)
  owned child :=
    (parent_sprout_iff bound q).mpr (((mem_children_sprout bound q).mp child).imp_left valid.owned)
  apart m := by
    rw [children_sprout bound]
    by_cases same : m = n
    · subst same
      have fresh := (child_eq_none valid m q).mp new
      rw [if_pos rfl, List.map_append, qualifiers_sprout valid bound]
      simp only [List.map_cons, List.map_nil, qualifier_sprout bound, ↓reduceIte]
      exact List.nodup_append.mpr ⟨valid.apart m, List.nodup_singleton q, by
        intro a member b single equal
        exact fresh (List.mem_singleton.mp single ▸ equal ▸ member)⟩
    · rw [if_neg same, qualifiers_sprout valid bound]
      exact valid.apart m
  summed {c m} known := by
    rcases (parent_sprout_iff bound q).mp known with old | ⟨rfl, rfl⟩
    · have inner : c ≠ t.nodes.size := Nat.ne_of_lt (lt_of_parent old)
      have above : m ≠ t.nodes.size :=
        Nat.ne_of_lt (Nat.lt_trans (valid.older old) (lt_of_parent old))
      simpa [total_sprout bound, qualifier_sprout bound, inner, above] using valid.summed old
    · simp [total_sprout bound, qualifier_sprout bound, Nat.ne_of_lt bound]

theorem sprout_shape {u : RuleTree V} (same : t.SameShape u) (bound : n < t.nodes.size)
    (q : Qualifier) : (t.sprout n q).SameShape (u.sprout n q) := by
  have other : n < u.nodes.size := same.size.symm ▸ bound
  constructor
  · rw [sprout_size, sprout_size, same.size]
  · intro x
    rw [parent_sprout bound, parent_sprout other, same.size, same.parents]
  · intro x
    rw [children_sprout bound, children_sprout other, same.size, same.lists, same.lists]
  · intro x
    rw [qualifier_sprout bound, qualifier_sprout other, same.size, same.qualifiers]
  · intro x
    rw [total_sprout bound, total_sprout other, same.size, same.totals, same.totals]

theorem child_sprout (valid : t.WellFormed) (bound : n < t.nodes.size) {q : Qualifier}
    (new : t.child? n q = none) (m : RuleNodeId) (r : Qualifier) :
    (t.sprout n q).child? m r = if m = n ∧ r = q then some t.nodes.size else t.child? m r := by
  have after := sprout_wellformed valid bound new
  by_cases hit : m = n ∧ r = q
  · rw [if_pos hit, child_eq_some after, children_sprout bound, qualifier_sprout bound]
    simp [hit]
  · rw [if_neg hit]
    ext c
    rw [child_eq_some after, child_eq_some valid, children_sprout bound, qualifier_sprout bound]
    have known (child : c ∈ t.children m) : c ≠ t.nodes.size :=
      Nat.ne_of_lt (valid.forest.bounded child)
    by_cases same : m = n
    · have different : q ≠ r := fun equal => hit ⟨same, equal.symm⟩
      subst same
      rw [if_pos rfl, List.mem_append, List.mem_singleton]
      constructor
      · rintro ⟨old | last, equal⟩
        · exact ⟨old, by simpa [known old] using equal⟩
        · exact absurd (by simpa [last] using equal) different
      · rintro ⟨old, equal⟩
        exact ⟨Or.inl old, by simpa [known old] using equal⟩
    · rw [if_neg same]
      exact and_congr_right fun child => by simp [known child]

theorem at_sprout (valid : t.WellFormed) {path : List Qualifier} (leads : t.at? path = some n)
    {q : Qualifier} (new : t.child? n q = none) (other : List Qualifier) :
    (t.sprout n q).at? other =
      if other = path ++ [q] then some t.nodes.size else t.at? other := by
  have bound := (chain_of_at valid leads).1
  have absent : t.at? (path ++ [q]) = none := by simp [at_append, leads, new]
  -- A path goes on by a child of what it led to before, so the induction is from its end.
  induction other using List.reverseRecOn with
  | nil => simp [at_nil]
  | append_singleton front r ih =>
      rw [at_append, ih, at_append]
      by_cases inner : front = path ++ [q]
      · -- Nothing goes on from the new node.
        have leaf : (t.sprout n q).child? t.nodes.size r = none := by
          apply (child_eq_none (sprout_wellformed valid bound new) _ r).mpr
          have childless : t.children t.nodes.size = [] := by simp [children, find_beyond]
          simp [children_sprout bound, Nat.ne_of_gt bound, childless]
        simp [inner, leaf, absent]
      · rw [if_neg inner]
        cases reached : t.at? front with
        | none =>
            have different : front ≠ path := by
              rintro rfl
              simp [leads] at reached
            simp [different]
        | some m =>
            have same : m = n ∧ r = q ↔ front ++ [r] = path ++ [q] := by
              constructor
              · rintro ⟨rfl, rfl⟩
                rw [at_inj valid reached leads]
              · intro equal
                obtain ⟨rfl, single⟩ := List.append_inj' equal rfl
                exact ⟨Option.some.inj (reached.symm.trans leads), by simpa using single⟩
            simp only [Option.bind_some, child_sprout valid bound new, same]

theorem outline_sprout (valid : t.WellFormed) {path : List Qualifier}
    (leads : t.at? path = some n) {q : Qualifier} (new : t.child? n q = none) :
    (t.sprout n q).outline = t.outline.grow path q := by
  have bound := (chain_of_at valid leads).1
  have fresh := (child_eq_none valid n q).mp new
  have absent : t.at? (path ++ [q]) = none := by simp [at_append, leads, new]
  have childless : t.children t.nodes.size = [] := by simp [children, find_beyond]
  have unheld : t.held t.nodes.size = .empty := by simp [held, find_beyond]
  have kept := qualifiers_sprout valid bound q
  have longer : path ++ [q] ≠ path := by simp
  ext1
  · -- The new path, the path it extends, and all others.
    funext other
    by_cases last : other = path ++ [q]
    · simp [outline, Outline.grow, at_sprout valid leads new, last, absent, longer,
        children_sprout bound, Nat.ne_of_gt bound, childless]
    · by_cases here : other = path
      · subst here
        simp [outline, Outline.grow, at_sprout valid leads new, leads, children_sprout bound,
          kept, qualifier_sprout bound, adjoin, fresh]
      · cases reached : t.at? other with
        | none => simp [outline, Outline.grow, at_sprout valid leads new, last, here, reached]
        | some m =>
            have different : m ≠ n := by
              rintro rfl
              exact here (at_inj valid reached leads)
            simp [outline, Outline.grow, at_sprout valid leads new, last, here, reached,
              children_sprout bound, different, kept]
  · funext other
    by_cases last : other = path ++ [q]
    · simp [outline, Outline.grow, at_sprout valid leads new, last, absent, held_sprout bound,
        unheld]
    · simp [outline, Outline.grow, at_sprout valid leads new, last, held_sprout bound]

end Sprout

variable {t : RuleTree V} {n : RuleNodeId} {path : List Qualifier}

theorem descend_of_child (bound : n < t.nodes.size) {q : Qualifier} {c : RuleNodeId}
    (found : t.child? n q = some c) : t.descend n q = (c, t) := by
  obtain ⟨node, present⟩ := find_of_lt bound
  simp [descend, present, found]

theorem descend_of_none (bound : n < t.nodes.size) {q : Qualifier} (new : t.child? n q = none) :
    t.descend n q = (t.nodes.size, t.sprout n q) := by
  obtain ⟨node, present⟩ := find_of_lt bound
  simp [descend, present, new, sprout, total]

/-- One step down a path is one qualifier more in the outline. -/
theorem descend_spec (valid : t.WellFormed) (leads : t.at? path = some n) (q : Qualifier) :
    (t.descend n q).2.WellFormed ∧ t.Keeps (t.descend n q).2 ∧
    (t.descend n q).2.at? (path ++ [q]) = some (t.descend n q).1 ∧
    (t.descend n q).2.outline = t.outline.grow path q := by
  have bound := (chain_of_at valid leads).1
  cases known : t.child? n q with
  | some c =>
      have member : q ∈ t.outline.children path := by
        have found := (child_eq_some valid n c q).mp known
        rw [outline_children leads]
        exact List.mem_map.mpr ⟨c, found⟩
      rw [descend_of_child bound known]
      refine ⟨valid, Keeps.refl t, by simp [at_append, leads, known], ?_⟩
      ext1
      · funext other
        by_cases here : other = path <;> simp [Outline.grow, here, adjoin, member]
      · rfl
  | none =>
      rw [descend_of_none bound known]
      refine ⟨sprout_wellformed valid bound known, ?_, ?_, outline_sprout valid leads known⟩
      · intro other m reached
        have different : other ≠ path ++ [q] := by
          rintro rfl
          simp [at_append, leads, known] at reached
        simpa [at_sprout valid leads known, different] using reached
      · simp [at_sprout valid leads known]

theorem descendAll_spec (valid : t.WellFormed) (leads : t.at? path = some n)
    (rest : List Qualifier) :
    (t.descendAll n rest).2.WellFormed ∧ t.Keeps (t.descendAll n rest).2 ∧
    (t.descendAll n rest).2.at? (path ++ rest) = some (t.descendAll n rest).1 ∧
    (t.descendAll n rest).2.outline = t.outline.growAll path rest := by
  -- Tree, node and path all move on with each qualifier.
  induction rest generalizing t n path with
  | nil => exact ⟨valid, Keeps.refl t, by simpa [descendAll] using leads, rfl⟩
  | cons q rest ih =>
      obtain ⟨after, keeps, reached, grown⟩ := descend_spec valid leads q
      obtain ⟨last, further, final, whole⟩ := ih after reached
      refine ⟨last, keeps.trans further, ?_, ?_⟩
      · simpa [descendAll] using final
      · rw [Outline.growAll, ← grown]
        exact whole

theorem edit_shape (t : RuleTree V) (n : RuleNodeId) (f : Dictionary V → Dictionary V) :
    t.SameShape (t.edit n f) := by
  constructor
  · simp [edit, modify]
  all_goals
    intro x
    by_cases same : x = n
    · cases found : t.find? x <;>
        simp_all [parent?, children, qualifier, total, find_edit]
    · simp [parent?, children, qualifier, total, find_edit, same]

theorem held_edit (bound : n < t.nodes.size) (f : Dictionary V → Dictionary V) (x : RuleNodeId) :
    (t.edit n f).held x = if x = n then f (t.held n) else t.held x := by
  by_cases same : x = n
  · obtain ⟨node, found⟩ := find_of_lt bound
    simp [held, find_edit, same, found]
  · simp [held, find_edit, same]

theorem edit_wellformed (valid : t.WellFormed) (bound : n < t.nodes.size) (inner : n ≠ root)
    (f : Dictionary V → Dictionary V) : (t.edit n f).WellFormed := by
  apply (edit_shape t n f).wellformed valid
  rw [held_edit bound, if_neg inner.symm, valid.bare]

theorem edit_spec (valid : t.WellFormed) (leads : t.at? path = some n) (inner : path ≠ [])
    (f : Dictionary V → Dictionary V) :
    (t.edit n f).WellFormed ∧ t.Keeps (t.edit n f) ∧
    (t.edit n f).outline.children = t.outline.children ∧
    ∀ other, (t.edit n f).outline.properties other =
      if other = path then f (t.outline.properties path) else t.outline.properties other := by
  have bound := (chain_of_at valid leads).1
  -- The root stays bare.
  have below : n ≠ root := by
    rintro rfl
    exact inner (at_inj valid leads (at_nil t))
  have shape := edit_shape t n f
  have after := edit_wellformed valid bound below f
  have same := shape.at
  refine ⟨after, fun other m reached => (same other).trans reached, ?_, ?_⟩
  · funext other
    have quals : (t.edit n f).qualifier = t.qualifier := funext shape.qualifiers
    simp [outline, same, shape.lists, quals]
  · intro other
    simp only [outline, same]
    by_cases here : other = path
    · simp [here, leads, held_edit bound]
    · cases reached : t.at? other with
      | none => simp [here]
      | some m =>
          have different : m ≠ n := by
            rintro rfl
            exact here (at_inj valid reached leads)
          simp [here, held_edit bound, different]

theorem pathOf_ne_nil (s : Selector) : pathOf s ≠ [] := by
  simp [pathOf, Selector.segments_eq]

/-- Inserting a selector into a tree inserts its path into the outline. -/
theorem insert_spec (valid : t.WellFormed) (s : Selector) (properties : Dictionary V) :
    (t.insert s properties).2.WellFormed ∧
    (t.insert s properties).2.outline = t.outline.insert (pathOf s) properties := by
  obtain ⟨grown, -, reached, outlined⟩ := descendAll_spec valid (at_nil t) (pathOf s)
  rw [List.nil_append] at reached
  obtain ⟨after, -, lists, offered⟩ :=
    edit_spec grown reached (pathOf_ne_nil s) fun held => held.merge properties
  refine ⟨after, ?_⟩
  ext1
  · rw [insert, lists, outlined]
    rfl
  · funext other
    rw [insert, offered, outlined]
    rfl

end RuleTree
end Cascade
