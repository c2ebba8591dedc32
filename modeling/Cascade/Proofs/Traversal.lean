import Mathlib.Data.Finset.Card
import Mathlib.Logic.Relation
/-!
Traversals of numbered forests with a list of nodes that are due.

Documents and rule trees are walked the same way: the first node that is due is visited and its
children become due before the rest. Children have greater numbers than their parents and belong
to one of them only, so the walk ends, and the number of nodes is fuel enough for it. It comes to
the nodes in the order in which a recursion over the children lists them.
-/
namespace Cascade.Traversal

def sweep (next : Nat → List Nat) : (fuel : Nat) → (due : List Nat) → List Nat
  | 0, _ => []
  | _, [] => []
  | fuel + 1, n :: due => n :: sweep next fuel (next n ++ due)

structure Forest (next : Nat → List Nat) (size : Nat) : Prop where
  older : ∀ {n c : Nat}, c ∈ next n → n < c
  bounded : ∀ {n c : Nat}, c ∈ next n → c < size
  distinct : ∀ n, (next n).Nodup
  single : ∀ {m n c : Nat}, c ∈ next m → c ∈ next n → m = n

/-- The pre-order by recursion: a node and then, child by child, everything below it. The recursion
ends because children have greater numbers. -/
def subtree {next : Nat → List Nat} {size : Nat} (forest : Forest next size) (n : Nat) : List Nat :=
  n :: (next n).attach.flatMap fun c => subtree forest c.1
termination_by size - n
decreasing_by
  have older := forest.older c.2
  have bounded := forest.bounded c.2
  omega

abbrev Below (next : Nat → List Nat) : Nat → Nat → Prop :=
  Relation.ReflTransGen fun n c => c ∈ next n

def Ahead (next : Nat → List Nat) (due : List Nat) (x : Nat) : Prop := ∃ n ∈ due, Below next n x

/-- No two of the nodes that are due have a node below both. -/
def Separate (next : Nat → List Nat) (due : List Nat) : Prop :=
  due.Pairwise fun a b => ¬ Below next a b ∧ ¬ Below next b a

-- Fuel that lasts until nothing is due. Proofs about a traversal go by induction on this.
inductive Enough (next : Nat → List Nat) : Nat → List Nat → Prop where
  | done {fuel : Nat} : Enough next fuel []
  | visit {fuel n : Nat} {due : List Nat} :
      Enough next fuel (next n ++ due) → Enough next (fuel + 1) (n :: due)

variable {next : Nat → List Nat} {size : Nat}

theorem below_cases {n x : Nat} : Below next n x ↔ x = n ∨ ∃ c ∈ next n, Below next c x := by
  constructor
  · intro below
    rcases Relation.ReflTransGen.cases_head below with same | ⟨c, child, rest⟩
    · exact Or.inl same.symm
    · exact Or.inr ⟨c, child, rest⟩
  · rintro (rfl | ⟨c, child, rest⟩)
    · exact Relation.ReflTransGen.refl
    · exact Relation.ReflTransGen.head child rest

-- One step of a walk: the first node is visited, and everything else that was ahead still is.
theorem ahead_cons {n x : Nat} {due : List Nat} :
    Ahead next (n :: due) x ↔ x = n ∨ Ahead next (next n ++ due) x := by
  constructor
  · rintro ⟨m, listed, below⟩
    rcases List.mem_cons.mp listed with rfl | later
    · rcases below_cases.mp below with same | ⟨c, child, rest⟩
      · exact Or.inl same
      · exact Or.inr ⟨c, List.mem_append_left due child, rest⟩
    · exact Or.inr ⟨m, List.mem_append_right (next n) later, below⟩
  · rintro (rfl | ⟨m, member, below⟩)
    · exact ⟨x, List.mem_cons_self, Relation.ReflTransGen.refl⟩
    · rcases List.mem_append.mp member with child | later
      · exact ⟨n, List.mem_cons_self, Relation.ReflTransGen.head child below⟩
      · exact ⟨m, List.mem_cons_of_mem n later, below⟩

theorem ahead_singleton {n x : Nat} : Ahead next [n] x ↔ Below next n x := by
  simp [Ahead]

theorem below_le (forest : Forest next size) {n x : Nat} (below : Below next n x) : n ≤ x := by
  induction below with
  | refl => exact Nat.le_refl n
  | tail _ child ih => exact Nat.le_trans ih (Nat.le_of_lt (forest.older child))

theorem below_lt_size (forest : Forest next size) {n x : Nat} (bound : n < size)
    (below : Below next n x) : x < size := by
  cases below with
  | refl => exact bound
  | tail _ child => exact forest.bounded child

theorem ahead_lt_size (forest : Forest next size) {due : List Nat} (bounded : ∀ n ∈ due, n < size)
    {x : Nat} (ahead : Ahead next due x) : x < size := by
  obtain ⟨n, member, below⟩ := ahead
  exact below_lt_size forest (bounded n member) below

-- What is above a child is the child itself or above its parent.
theorem below_child (forest : Forest next size) {m n c : Nat} (child : c ∈ next n)
    (below : Below next m c) : m = c ∨ Below next m n := by
  cases below with
  | refl => exact Or.inl rfl
  | tail rest last =>
      have parent := forest.single last child
      subst parent
      exact Or.inr rest

theorem not_below_of_child (forest : Forest next size) {n c : Nat} (child : c ∈ next n) :
    ¬ Below next c n := by
  intro below
  have up := below_le forest below
  have down := forest.older child
  omega

theorem children_separate (forest : Forest next size) (n : Nat) : Separate next (next n) := by
  have apart : ∀ a ∈ next n, ∀ b ∈ next n, a ≠ b → ¬ Below next a b := by
    intro a ha b hb different below
    rcases below_child forest hb below with same | above
    · exact different same
    · exact not_below_of_child forest ha above
  apply (forest.distinct n).imp_of_mem
  intro a b ha hb different
  exact ⟨apart a ha b hb different, apart b hb a ha different.symm⟩

theorem separate_step (forest : Forest next size) {n : Nat} {due : List Nat}
    (separate : Separate next (n :: due)) : Separate next (next n ++ due) := by
  obtain ⟨head, rest⟩ := List.pairwise_cons.mp separate
  refine List.pairwise_append.mpr ⟨children_separate forest n, rest, ?_⟩
  intro c child m member
  constructor
  · intro below
    exact (head m member).1 (Relation.ReflTransGen.head child below)
  · intro below
    rcases below_child forest child below with same | above
    · subst same
      exact (head m member).1 (Relation.ReflTransGen.single child)
    · exact (head m member).2 above

-- A walk comes to a node once.
theorem not_ahead_step (forest : Forest next size) {n : Nat} {due : List Nat}
    (separate : Separate next (n :: due)) : ¬ Ahead next (next n ++ due) n := by
  rintro ⟨m, member, below⟩
  rcases List.mem_append.mp member with child | later
  · exact not_below_of_child forest child below
  · exact ((List.pairwise_cons.mp separate).1 m later).2 below

-- A visit takes one node out of those that a walk comes to.
theorem covered_step (forest : Forest next size) {n : Nat} {due : List Nat}
    (separate : Separate next (n :: due)) {left : Finset Nat}
    (covered : ∀ x, Ahead next (n :: due) x → x ∈ left) :
    n ∈ left ∧ ∀ x, Ahead next (next n ++ due) x → x ∈ left.erase n := by
  refine ⟨covered n (ahead_cons.mpr (Or.inl rfl)), fun x ahead => Finset.mem_erase.mpr ⟨?_, ?_⟩⟩
  · rintro rfl
    exact not_ahead_step forest separate ahead
  · exact covered x (ahead_cons.mpr (Or.inr ahead))

theorem enough_of_card (forest : Forest next size) {fuel : Nat} {due : List Nat}
    (separate : Separate next due) (left : Finset Nat)
    (covered : ∀ x, Ahead next due x → x ∈ left) (room : left.card ≤ fuel) :
    Enough next fuel due := by
  induction fuel generalizing due left with
  | zero =>
      cases due with
      | nil => exact Enough.done
      | cons n due =>
          have member := (covered_step forest separate covered).1
          rw [Finset.card_eq_zero.mp (Nat.le_zero.mp room)] at member
          exact absurd member (Finset.notMem_empty n)
  | succ fuel ih =>
      cases due with
      | nil => exact Enough.done
      | cons n due =>
          obtain ⟨member, rest⟩ := covered_step forest separate covered
          apply Enough.visit
          apply ih (separate_step forest separate) (left.erase n) rest
          rw [Finset.card_erase_of_mem member]
          omega

/-- As much fuel as there are nodes lasts for any separate nodes. -/
theorem enough_of_size (forest : Forest next size) {fuel : Nat} {due : List Nat}
    (separate : Separate next due) (bounded : ∀ n ∈ due, n < size) (room : size ≤ fuel) :
    Enough next fuel due := by
  apply enough_of_card forest separate (Finset.range size)
  · intro x ahead
    exact Finset.mem_range.mpr (ahead_lt_size forest bounded ahead)
  · rwa [Finset.card_range]

theorem separate_singleton (n : Nat) : Separate next [n] :=
  List.pairwise_singleton _ n

/-! A forest that loses nodes while it is walked. -/

theorem Forest.sublist (forest : Forest next size) {other : Nat → List Nat}
    (fewer : ∀ n, (other n).Sublist (next n)) : Forest other size where
  older child := forest.older ((fewer _).subset child)
  bounded child := forest.bounded ((fewer _).subset child)
  distinct n := (forest.distinct n).sublist (fewer n)
  single one two := forest.single ((fewer _).subset one) ((fewer _).subset two)

theorem below_congr {other : Nat → List Nat} {n : Nat}
    (same : ∀ m, Below next n m → other m = next m) (x : Nat) :
    Below other n x ↔ Below next n x := by
  constructor
  · intro below
    induction below with
    | refl => exact Relation.ReflTransGen.refl
    | tail _ child ih => exact ih.tail (same _ ih ▸ child)
  · intro below
    induction below with
    | refl => exact Relation.ReflTransGen.refl
    | tail above child ih => exact ih.tail (same _ above ▸ child)

theorem ahead_congr {other : Nat → List Nat} {due : List Nat}
    (same : ∀ m, Ahead next due m → other m = next m) (x : Nat) :
    Ahead other due x ↔ Ahead next due x :=
  exists_congr fun n => and_congr_right fun member =>
    below_congr (fun m below => same m ⟨n, member, below⟩) x

theorem separate_congr {other : Nat → List Nat} {due : List Nat}
    (same : ∀ m, Ahead next due m → other m = next m) (separate : Separate next due) :
    Separate other due :=
  separate.imp_of_mem fun {a b} ha hb apart => by
    rwa [below_congr fun m below => same m ⟨a, ha, below⟩,
      below_congr fun m below => same m ⟨b, hb, below⟩]

-- A queue has its children due behind the rest, and the same nodes are ahead of it.
theorem ahead_queue {n x : Nat} {due : List Nat} :
    Ahead next (due ++ next n) x ↔ Ahead next (next n ++ due) x := by
  simp [Ahead, or_comm]

theorem separate_queue (forest : Forest next size) {n : Nat} {due : List Nat}
    (separate : Separate next (n :: due)) : Separate next (due ++ next n) :=
  (List.perm_append_comm.pairwise_iff fun apart => ⟨apart.2, apart.1⟩).mp
    (separate_step forest separate)

theorem subtree_eq (forest : Forest next size) (n : Nat) :
    subtree forest n = n :: (next n).flatMap (subtree forest) := by
  rw [subtree, ← List.flatMap_map, List.attach_map_subtype_val]

/-- A walk lists what is below the nodes that are due, one of them after the other. -/
theorem sweep_eq_subtrees (forest : Forest next size) {fuel : Nat} {due : List Nat}
    (enough : Enough next fuel due) : sweep next fuel due = due.flatMap (subtree forest) := by
  -- The children of the node visited are due first, so its subtree comes before the rest.
  induction enough with
  | @done fuel => cases fuel <;> rfl
  | @visit fuel n due _ ih =>
      rw [sweep, ih, List.flatMap_append, List.flatMap_cons, subtree_eq forest n, List.cons_append]

theorem mem_sweep {fuel : Nat} {due : List Nat} (enough : Enough next fuel due) (x : Nat) :
    x ∈ sweep next fuel due ↔ Ahead next due x := by
  induction enough with
  | @done fuel => cases fuel <;> simp [sweep, Ahead]
  | visit _ ih => rw [sweep, List.mem_cons, ih, ahead_cons]

/-- A walk from separate nodes comes to no node twice. -/
theorem sweep_nodup (forest : Forest next size) {fuel : Nat} {due : List Nat}
    (enough : Enough next fuel due) (separate : Separate next due) :
    (sweep next fuel due).Nodup := by
  induction enough with
  | @done fuel => cases fuel <;> exact List.nodup_nil
  | visit rest ih =>
      rw [sweep, List.nodup_cons, mem_sweep rest]
      exact ⟨not_ahead_step forest separate, ih (separate_step forest separate)⟩

end Cascade.Traversal
