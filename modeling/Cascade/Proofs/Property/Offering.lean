import Cascade.Proofs.Property.Ranking
import Mathlib.Data.List.Pairwise
/-!
Dictionaries as what is left of offers.

Setting a property, merging a dictionary and importing one all offer properties, and each slot is
left with the last of its greatest offers. What a dictionary offers that was put together itself can
be offered one by one in its place, raised layers included, unless the limit makes layers tie.
-/
namespace Cascade

namespace Property
variable {V : Type} {offers others : List (Property V)} {held : Option (Property V)}

/-- What is held is the last of the greatest offers; nothing is held if there are none. -/
def LastGreatest (offers : List (Property V)) : Option (Property V) → Prop
  | none => offers = []
  | some held => ∃ earlier later, offers = earlier ++ held :: later ∧
      (∀ p ∈ earlier, p.precedence.outranks held.precedence = false) ∧
      ∀ p ∈ later, held.precedence.outranks p.precedence = true

theorem outranks_iff_rank (p q : Property V) :
    p.precedence.outranks q.precedence = true ↔ q.rank < p.rank :=
  Precedence.outranks_iff p.precedence q.precedence

theorem not_outranks_iff_rank (p q : Property V) :
    p.precedence.outranks q.precedence = false ↔ p.rank ≤ q.rank := by
  rw [← Bool.not_eq_true, outranks_iff_rank, not_lt]

theorem lastGreatest_toList (offer : Option (Property V)) : LastGreatest offer.toList offer := by
  cases offer with
  | none => rfl
  | some p => exact ⟨[], [], rfl, by simp, by simp⟩

theorem LastGreatest.le {top : Property V} (last : LastGreatest offers (some top)) :
    ∀ p ∈ offers, p.rank ≤ top.rank := by
  obtain ⟨earlier, later, rfl, before, after⟩ := last
  intro p member
  rcases List.mem_append.mp member with early | late
  · exact (not_outranks_iff_rank p top).mp (before p early)
  · rcases List.mem_cons.mp late with rfl | rest
    · exact le_refl _
    · exact ((outranks_iff_rank top p).mp (after p rest)).le

theorem LastGreatest.mem {top : Property V} (last : LastGreatest offers (some top)) :
    top ∈ offers := by
  obtain ⟨earlier, later, rfl, -⟩ := last
  simp

theorem LastGreatest.greatest (last : LastGreatest offers held) :
    Greatest (fun p => p ∈ offers) held := by
  cases held with
  | none =>
      obtain rfl : offers = [] := last
      exact greatest_none.congr fun p => by simp
  | some top =>
      refine ⟨fun p known => ?_, fun p member => ⟨top, rfl, last.le p member⟩⟩
      obtain rfl := Option.some.inj known
      exact last.mem

/-- What is left of some offers meets what is left of later ones. -/
theorem LastGreatest.cascaded {a b : Option (Property V)} (first : LastGreatest offers a)
    (second : LastGreatest others b) : LastGreatest (offers ++ others) (cascaded a b) := by
  cases a with
  | none =>
      obtain rfl : offers = [] := first
      simpa using second
  | some x =>
      cases b with
      | none =>
          obtain rfl : others = [] := second
          simpa using first
      | some y =>
          rw [cascaded_some]
          by_cases less : y.rank < x.rank
          · rw [if_pos less]
            obtain ⟨earlier, later, rfl, before, after⟩ := first
            refine ⟨earlier, later ++ others, by simp, before, fun p member => ?_⟩
            rcases List.mem_append.mp member with here | there
            · exact after p here
            · exact (outranks_iff_rank x p).mpr ((second.le p there).trans_lt less)
          · rw [if_neg less]
            have below := first.le
            obtain ⟨earlier, later, rfl, before, after⟩ := second
            refine ⟨offers ++ earlier, later, by simp, fun p member => ?_, after⟩
            rcases List.mem_append.mp member with here | there
            · exact (not_outranks_iff_rank p y).mpr ((below p here).trans (not_lt.mp less))
            · exact before p there

/-- Where no two offers rank alike, their order does not matter. -/
theorem LastGreatest.perm {a b : Option (Property V)} (first : LastGreatest offers a)
    (second : LastGreatest others b) (same : offers.Perm others)
    (untied : offers.Pairwise fun p q => p.precedence ≠ q.precedence) : a = b := by
  apply first.greatest.unique (second.greatest.congr fun p => same.mem_iff.symm)
  intro p q here there tie
  by_contra different
  have symmetric : Std.Symm fun p q : Property V => p.precedence ≠ q.precedence :=
    ⟨fun _ _ other => other.symm⟩
  have apart : p.precedence ≠ q.precedence := untied.forall here there different
  exact apart (Precedence.rank_injective tie)

theorem shifted_shifted (offset more : Nat) (p : Property V) :
    (p.shifted offset).shifted more = p.shifted (offset + more) := by
  simp only [shifted, Precedence.shifted, saturatingAdd, mk.injEq, Precedence.mk.injEq, true_and,
    and_true]
  omega

end Property

namespace Dictionary
variable {V : Type}

inductive Operation (V : Type) where
  | set (p : Longhand) (property : Property V)
  | merge (other : Dictionary V)
  | importFrom (offset : Nat) (other : Dictionary V)

namespace Operation

def apply (d : Dictionary V) : Operation V → Dictionary V
  | .set p property => d.set p property
  | .merge other => d.merge other
  | .importFrom offset other => d.importFrom offset other

def offer? (p : Longhand) : Operation V → Option (Property V)
  | .set q property => if q = p then some property else none
  | .merge other => other.get? p
  | .importFrom offset other => (other.get? p).map (.shifted offset)

def raised (offset : Nat) : Operation V → Operation V
  | .set p property => .set p (property.shifted offset)
  | .merge other => .importFrom offset other
  | .importFrom first other => .importFrom (first + offset) other

theorem get_apply (d : Dictionary V) (operation : Operation V) (p : Longhand) :
    (operation.apply d).get? p = Property.cascaded (d.get? p) (operation.offer? p) := by
  cases operation with
  | set q property =>
      rw [apply, get?_set, offer?]
      split
      case isTrue same => rw [same]; rfl
      case isFalse => rfl
  | merge other => exact get_merge d other p
  | importFrom offset other => rw [apply, Dictionary.importFrom, get_merge, get?_shifted, offer?]

theorem offer_raised (offset : Nat) (operation : Operation V) (p : Longhand) :
    (operation.raised offset).offer? p = (operation.offer? p).map (.shifted offset) := by
  cases operation with
  | set q property =>
      rw [raised, offer?, offer?]
      split <;> rfl
  | merge other => rfl
  | importFrom first other =>
      rw [raised, offer?, offer?, Option.map_map]
      congr 1
      funext q
      exact (Property.shifted_shifted first offset q).symm

end Operation

def made (operations : List (Operation V)) : Dictionary V := operations.foldl Operation.apply empty

def offers (operations : List (Operation V)) (p : Longhand) : List (Property V) :=
  operations.filterMap (Operation.offer? p)

section Made
variable (operations others : List (Operation V))

theorem made_concat (operation : Operation V) :
    made (operations ++ [operation]) = operation.apply (made operations) := by
  simp [made]

theorem offers_concat (operation : Operation V) (p : Longhand) :
    offers (operations ++ [operation]) p = offers operations p ++ (operation.offer? p).toList := by
  cases offered : operation.offer? p <;> simp [offers, offered]

theorem made_lastGreatest (p : Longhand) :
    Property.LastGreatest (offers operations p) ((made operations).get? p) := by
  induction operations using List.reverseRecOn with
  | nil => simp [made, offers, Property.LastGreatest]
  | append_singleton front operation ih =>
      rw [made_concat, offers_concat, Operation.get_apply]
      exact ih.cascaded (Property.lastGreatest_toList _)

theorem made_append : made (operations ++ others) = (made operations).merge (made others) := by
  induction others using List.reverseRecOn with
  | nil => rw [List.append_nil, made, made, List.foldl_nil, merge_empty]
  | append_singleton front operation ih =>
      rw [← List.append_assoc, made_concat, made_concat, ih]
      apply ext_get
      intro p
      rw [Operation.get_apply, get_merge, get_merge, Operation.get_apply, Property.cascaded_assoc]

theorem made_cons (operation : Operation V) :
    made (operation :: others) = (made [operation]).merge (made others) :=
  made_append [operation] others

theorem made_merge (other : Dictionary V) : made [.merge other] = other := by
  apply ext_get
  intro p
  rw [made, List.foldl_cons, List.foldl_nil, Operation.get_apply, get?_empty,
    Property.none_cascaded, Operation.offer?]

theorem made_importFrom (offset : Nat) (other : Dictionary V) :
    made [.importFrom offset other] = other.shifted offset := by
  apply ext_get
  intro p
  rw [made, List.foldl_cons, List.foldl_nil, Operation.get_apply, get?_empty,
    Property.none_cascaded, Operation.offer?, get?_shifted]

/-- Every layer that operations offer can be raised without reaching past the limit. -/
def Room (offset : Nat) : Prop :=
  ∀ p, ∀ q ∈ offers operations p, q.precedence.layer + offset ≤ wordLimit

variable {operations}

theorem made_raised {offset : Nat} (room : Room operations offset) :
    made (operations.map (.raised offset)) = (made operations).shifted offset := by
  induction operations using List.reverseRecOn with
  | nil => simp [made]
  | append_singleton front operation ih =>
      have early : Room front offset := fun p q member =>
        room p q (by rw [offers_concat]; exact List.mem_append_left _ member)
      apply ext_get
      intro p
      rw [List.map_append, List.map_singleton, made_concat, made_concat, ih early,
        Operation.get_apply, get?_shifted, get?_shifted, Operation.get_apply,
        Operation.offer_raised]
      apply Property.cascaded_shifted
      · intro q held
        exact early p q ((made_lastGreatest front p).greatest.among q held)
      · intro q offered
        exact room p q (by rw [offers_concat]; simp [Option.mem_def.mp offered])

end Made

/-- Whatever is done to a dictionary, it holds for each id the last of the greatest offers. Where no
two offers rank alike, the order of the operations does not matter. Merging what operations made
does the same as these operations in that place, and so does importing it, with layers raised. -/
theorem made_settles (operations : List (Operation V)) :
    (∀ p, Property.LastGreatest (offers operations p) ((made operations).get? p)) ∧
    (∀ others, operations.Perm others → ∀ p,
      (offers operations p).Pairwise (fun a b => a.precedence ≠ b.precedence) →
        (made operations).get? p = (made others).get? p) ∧
    (∀ front back, made (front ++ .merge (made operations) :: back) =
      made (front ++ operations ++ back)) ∧
    ∀ offset, Room operations offset → ∀ front back,
      made (front ++ .importFrom offset (made operations) :: back) =
        made (front ++ operations.map (.raised offset) ++ back) := by
  have last := made_lastGreatest operations
  refine ⟨last, fun others same p untied => ?_, fun front back => ?_,
    fun offset room front back => ?_⟩
  · exact (last p).perm (made_lastGreatest others p) (same.filterMap _) untied
  · rw [made_append, made_cons, made_merge, ← merge_assoc, ← made_append, ← made_append]
  · rw [made_append, made_cons, made_importFrom, ← made_raised room, ← merge_assoc,
      ← made_append, ← made_append]

/-- An import that ranks above what was set before it ranks above what is set after it as well. -/
theorem made_settles_imported :
    let set : Operation Nat := .set .color ⟨1, ⟨false, ⟨0, 1, 0⟩, 1, 7⟩, ⟨"base.css", 1⟩⟩
    let later : Operation Nat := .set .color ⟨2, ⟨false, ⟨0, 1, 0⟩, 0, 3⟩, ⟨"overlay.css", 1⟩⟩
    (made [set, .importFrom 2 (made [later])]).get? .color =
        (made [.importFrom 2 (made [later]), set]).get? .color ∧
      (made [set, .importFrom 2 (made [later])]).value? .color = some 2 := by
  intro set later
  have settled := made_settles [set, .importFrom 2 (made [later])]
  exact ⟨settled.2.1 _ (.swap _ _ _) .color (by decide), by decide +kernel⟩

end Dictionary

/-! Layers that are raised.
Raising layers keeps their order, but all that reach the limit become one layer, and within one
layer the later place wins. So of two declarations that only their layers rank, the one of the lower
layer comes out on top exactly when both layers end at the limit and it stands later in its own. -/

theorem saturatingAdd_eq_limit {limit a b : Nat} (reached : limit ≤ a + b) :
    saturatingAdd limit a b = limit := Nat.min_eq_left reached

theorem saturatingAdd_eq_add {limit a b : Nat} (below : a + b ≤ limit) :
    saturatingAdd limit a b = a + b := Nat.min_eq_right below

theorem saturatingAdd_le {limit a b : Nat} (le : a ≤ b) (c : Nat) :
    saturatingAdd limit a c ≤ saturatingAdd limit b c := by
  simp only [saturatingAdd]
  omega

-- A sum that stays below the limit is still below a greater one.
theorem saturatingAdd_lt {limit a b c : Nat} (lt : a < b) (below : a + c < limit) :
    saturatingAdd limit a c < saturatingAdd limit b c := by
  rw [saturatingAdd_eq_add below.le, saturatingAdd]
  omega

namespace Precedence
variable {p q : Precedence}

/-- Between equals in importance and specificity the later layer wins, and in one layer the later
place. -/
theorem outranks_alike (important : p.important = q.important)
    (specific : p.specificity = q.specificity) :
    p.outranks q = true ↔ q.layer < p.layer ∨ q.layer = p.layer ∧ q.order < p.order := by
  simp [outranks_iff, rank, Prod.Lex.toLex_lt_toLex, important, specific]

/-- Of two declarations that only their layers rank, raising both puts the lower one on top exactly
when its layer reaches the limit and it has the later place. Their layers never change sides, and a
dictionary that imports first the one and then the other keeps the one that is on top. -/
theorem shifted_outranks_iff (important : p.important = q.important)
    (specific : p.specificity = q.specificity) (below : p.layer < q.layer) (offset : Nat) :
    ((p.shifted offset).outranks (q.shifted offset) = true ↔
      wordLimit ≤ p.layer + offset ∧ q.order < p.order) ∧
    (p.shifted offset).layer ≤ (q.shifted offset).layer ∧
    ∀ {V : Type} (d lower upper : Dictionary V) (id : Longhand) (a b : Property V),
      d.get? id = none → lower.get? id = some a → a.precedence = p →
      upper.get? id = some b → b.precedence = q →
      ((d.importFrom offset lower).importFrom offset upper).get? id =
        if wordLimit ≤ p.layer + offset ∧ q.order < p.order then some (a.shifted offset)
        else some (b.shifted offset) := by
  have inverted : (p.shifted offset).outranks (q.shifted offset) = true ↔
      wordLimit ≤ p.layer + offset ∧ q.order < p.order := by
    rw [outranks_alike (p := p.shifted offset) (q := q.shifted offset) important specific]
    by_cases reached : wordLimit ≤ p.layer + offset
    · have first : (p.shifted offset).layer = wordLimit := saturatingAdd_eq_limit reached
      have second : (q.shifted offset).layer = wordLimit := saturatingAdd_eq_limit (by omega)
      rw [first, second]
      simp [reached, shifted]
    · have apart : (p.shifted offset).layer < (q.shifted offset).layer :=
        saturatingAdd_lt below (by omega)
      simp [reached, apart.ne', apart.not_gt]
  refine ⟨inverted, saturatingAdd_le below.le offset, ?_⟩
  intro V d lower upper id a b absent low lowRank high highRank
  have kept : ((d.importFrom offset lower).importFrom offset upper).get? id =
      Property.offered (some (a.shifted offset)) (b.shifted offset) := by
    simp [Dictionary.importFrom, absent, low, high, Property.offered, Property.accepts]
  rw [kept, Property.offered_some]
  subst lowRank highRank
  exact if_congr ((outranks_iff _ _).symm.trans inverted) rfl rfl

/-- The last layer but one, raised by one, ends beside the last layer. -/
theorem shifted_outranks_limit :
    (shifted 1 ⟨false, .zero, 0xfffffffe, 1⟩).outranks (shifted 1 ⟨false, .zero, 0xffffffff, 0⟩) =
      true :=
  (shifted_outranks_iff (p := ⟨false, .zero, 0xfffffffe, 1⟩) (q := ⟨false, .zero, 0xffffffff, 0⟩)
    rfl rfl (by decide) 1).1.mpr ⟨by decide, by decide⟩

/-- Raising layers inverts some of them. -/
theorem not_shifted_keeps_layers : ¬ ∀ p q : Precedence, p.important = q.important →
    p.specificity = q.specificity → p.layer < q.layer → q.layer ≤ wordLimit →
      p.order ≤ wordLimit → q.order ≤ wordLimit → ∀ offset ≤ wordLimit,
        (p.shifted offset).outranks (q.shifted offset) = false := by
  intro kept
  have wrong := kept ⟨false, .zero, 0xfffffffe, 1⟩ ⟨false, .zero, 0xffffffff, 0⟩ rfl rfl
    (by decide) (by decide) (by decide) (by decide) 1 (by decide)
  exact absurd wrong (by decide)

end Precedence
end Cascade
