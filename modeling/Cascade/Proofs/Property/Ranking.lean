import Cascade.Property.Dictionary
import Mathlib.Data.Bool.Basic
import Mathlib.Data.List.Induction
import Mathlib.Data.Prod.Lex
/-!
The order of precedences, and dictionaries as what wins under it.

Precedences are ordered lexicographically. Offering everything of one dictionary to another is an
associative operation, which keeps for each property the greatest offer, and the last one of
several that are greatest.
-/
namespace Cascade

namespace Precedence

/-- Importance, ids, classes, tags, layer and order, compared in that order. -/
abbrev Rank := Bool ×ₗ Nat ×ₗ Nat ×ₗ Nat ×ₗ Nat ×ₗ Nat

def rank (p : Precedence) : Rank :=
  toLex (p.important, toLex (p.specificity.ids, toLex (p.specificity.classes,
    toLex (p.specificity.tags, toLex (p.layer, p.order)))))

theorem rank_injective : Function.Injective rank := by
  rintro ⟨i, ⟨x, y, z⟩, l, o⟩ ⟨i', ⟨x', y', z'⟩, l', o'⟩ same
  simp only [rank, EmbeddingLike.apply_eq_iff_eq, Prod.mk.injEq] at same
  obtain ⟨rfl, rfl, rfl, rfl, rfl, rfl⟩ := same
  rfl

theorem outranks_iff (a b : Precedence) : a.outranks b = true ↔ b.rank < a.rank := by
  have important : b.important.toNat < a.important.toNat ↔ b.important < a.important := by
    cases a.important <;> cases b.important <;> decide
  have same : a.important.toNat = b.important.toNat ↔ b.important = a.important := by
    cases a.important <;> cases b.important <;> decide
  simp only [outranks, compare, Specificity.compare, rank, Prod.Lex.toLex_lt_toLex, beq_iff_eq,
    Ordering.then_eq_gt, Ordering.then_eq_eq, Nat.compare_eq_gt, Nat.compare_eq_eq, important, same]
  grind

-- Layers that stay below the limit keep their order.
theorem shifted_rank_lt {offset : Nat} {a b : Precedence} (first : a.layer + offset ≤ wordLimit)
    (second : b.layer + offset ≤ wordLimit) :
    (a.shifted offset).rank < (b.shifted offset).rank ↔ a.rank < b.rank := by
  have left : saturatingAdd wordLimit a.layer offset = a.layer + offset := min_eq_right first
  have right : saturatingAdd wordLimit b.layer offset = b.layer + offset := min_eq_right second
  simp [rank, shifted, Prod.Lex.toLex_lt_toLex, left, right]

end Precedence

namespace Property
variable {V W : Type}

def rank (p : Property V) : Precedence.Rank := p.precedence.rank

theorem offered_some (held offer : Property V) :
    offered (some held) offer = if offer.rank < held.rank then some held else some offer := by
  have outranked := Precedence.outranks_iff held.precedence offer.precedence
  by_cases less : offer.rank < held.rank
  · simp [offered, accepts, outranked.mpr less, less]
  · have stays : held.precedence.outranks offer.precedence = false :=
      Bool.eq_false_iff.mpr fun wins => less (outranked.mp wins)
    simp [offered, accepts, stays, less]

def cascaded (held : Option (Property V)) : Option (Property V) → Option (Property V)
  | none => held
  | some offer => offered held offer

@[simp] theorem cascaded_none (held : Option (Property V)) : cascaded held none = held := rfl

@[simp] theorem none_cascaded (offer : Option (Property V)) : cascaded none offer = offer := by
  cases offer <;> rfl

theorem cascaded_some (held offer : Property V) : cascaded (some held) (some offer) =
    if offer.rank < held.rank then some held else some offer := offered_some held offer

theorem cascaded_assoc (a b c : Option (Property V)) :
    cascaded (cascaded a b) c = cascaded a (cascaded b c) := by
  cases a with
  | none => simp
  | some x =>
      cases b with
      | none => simp
      | some y =>
          cases c with
          | none => simp
          | some z =>
              by_cases yx : y.rank < x.rank <;> by_cases zy : z.rank < y.rank
              · simp [cascaded_some, yx, zy, zy.trans yx]
              · simp [cascaded_some, yx, zy]
              · simp [cascaded_some, yx, zy]
              · -- The last offer wins over both, also where it ties with one of them.
                have zx : ¬ z.rank < x.rank := by
                  intro less
                  exact zy (less.trans_le (not_lt.mp yx))
                simp [cascaded_some, yx, zy, zx]

theorem cascaded_withValue (f : Property V → W) (a b : Option (Property V)) :
    cascaded (a.map fun p => p.withValue (f p)) (b.map fun p => p.withValue (f p)) =
      (cascaded a b).map fun p => p.withValue (f p) := by
  cases a with
  | none => simp
  | some x =>
      cases b with
      | none => simp
      | some y =>
          have keeps (p : Property V) : (p.withValue (f p)).rank = p.rank := rfl
          by_cases less : y.rank < x.rank <;> simp [cascaded_some, keeps, less]

theorem cascaded_shifted {offset : Nat} {a b : Option (Property V)}
    (first : ∀ p ∈ a, p.precedence.layer + offset ≤ wordLimit)
    (second : ∀ p ∈ b, p.precedence.layer + offset ≤ wordLimit) :
    cascaded (a.map (shifted offset)) (b.map (shifted offset)) =
      (cascaded a b).map (shifted offset) := by
  cases a with
  | none => simp
  | some x =>
      cases b with
      | none => simp
      | some y =>
          have order : (y.shifted offset).rank < (x.shifted offset).rank ↔ y.rank < x.rank :=
            Precedence.shifted_rank_lt (second y rfl) (first x rfl)
          by_cases less : y.rank < x.rank <;> simp [cascaded_some, order, less]

/-- What is held is the greatest of some offers; nothing is held if there are none. -/
structure Greatest (offers : Property V → Prop) (held : Option (Property V)) : Prop where
  among : ∀ p, held = some p → offers p
  above : ∀ p, offers p → ∃ q, held = some q ∧ p.rank ≤ q.rank

theorem greatest_none : Greatest (fun _ : Property V => False) none :=
  ⟨fun _ known => (Option.some_ne_none _ known.symm).elim, fun _ absurd => absurd.elim⟩

theorem greatest_held (held : Option (Property V)) : Greatest (fun p => held = some p) held :=
  ⟨fun _ known => known, fun p known => ⟨p, known, le_refl _⟩⟩

theorem Greatest.congr {offers others : Property V → Prop} {held : Option (Property V)}
    (greatest : Greatest offers held) (same : ∀ p, offers p ↔ others p) : Greatest others held :=
  ⟨fun p known => (same p).mp (greatest.among p known),
    fun p offered => greatest.above p ((same p).mpr offered)⟩

theorem Greatest.cascaded {offers others : Property V → Prop} {a b : Option (Property V)}
    (first : Greatest offers a) (second : Greatest others b) :
    Greatest (fun p => offers p ∨ others p) (cascaded a b) := by
  cases a with
  | none =>
      refine ⟨fun p known => Or.inr (second.among p (by simpa using known)), ?_⟩
      rintro p (early | late)
      · obtain ⟨q, absurd, -⟩ := first.above p early
        simp at absurd
      · simpa using second.above p late
  | some x =>
      cases b with
      | none =>
          refine ⟨fun p known => Or.inl (first.among p known), ?_⟩
          rintro p (early | late)
          · exact first.above p early
          · obtain ⟨q, absurd, -⟩ := second.above p late
            simp at absurd
      | some y =>
          have below (p : Property V) (early : offers p) : p.rank ≤ x.rank := by
            obtain ⟨q, same, bound⟩ := first.above p early
            exact Option.some.inj same ▸ bound
          have under (p : Property V) (late : others p) : p.rank ≤ y.rank := by
            obtain ⟨q, same, bound⟩ := second.above p late
            exact Option.some.inj same ▸ bound
          rw [cascaded_some]
          by_cases less : y.rank < x.rank
          · rw [if_pos less]
            refine ⟨fun p known => Or.inl (first.among p known), ?_⟩
            rintro p (early | late)
            · exact ⟨x, rfl, below p early⟩
            · exact ⟨x, rfl, (under p late).trans (le_of_lt less)⟩
          · rw [if_neg less]
            refine ⟨fun p known => Or.inr (second.among p known), ?_⟩
            rintro p (early | late)
            · exact ⟨y, rfl, (below p early).trans (not_lt.mp less)⟩
            · exact ⟨y, rfl, under p late⟩

/-- What is left of offers made one after the other is the greatest of them. -/
theorem Greatest.folded {ι σ : Type} (get : σ → Option (Property V))
    (made : ι → Option (Property V)) {step : σ → ι → σ}
    (offer : ∀ s i, get (step s i) = Property.cascaded (get s) (made i)) {start : σ}
    (bare : get start = none) (items : List ι) :
    Greatest (fun p => ∃ i ∈ items, made i = some p) (get (items.foldl step start)) := by
  -- The last offer meets what the ones before it left.
  induction items using List.reverseRecOn with
  | nil =>
      rw [List.foldl_nil, bare]
      exact greatest_none.congr fun p => by simp
  | append_singleton front i ih =>
      rw [List.foldl_append, List.foldl_cons, List.foldl_nil, offer]
      apply (ih.cascaded (greatest_held (made i))).congr
      intro p
      simp [or_and_right, exists_or]

/-- The greatest of some that are each the greatest of others is the greatest of all these. -/
theorem Greatest.refine {ι : Type} {chosen : ι → Prop} {offers : ι → Property V → Prop}
    {held : ι → Option (Property V)} {top : Option (Property V)}
    (overall : Greatest (fun p => ∃ i, chosen i ∧ held i = some p) top)
    (each : ∀ i, Greatest (offers i) (held i)) :
    Greatest (fun p => ∃ i, chosen i ∧ offers i p) top := by
  constructor
  · intro p known
    obtain ⟨i, picked, here⟩ := overall.among p known
    exact ⟨i, picked, (each i).among p here⟩
  · rintro p ⟨i, picked, offered⟩
    obtain ⟨q, here, below⟩ := (each i).above p offered
    obtain ⟨r, known, under⟩ := overall.above q ⟨i, picked, here⟩
    exact ⟨r, known, below.trans under⟩

/-- Two that are greatest of the same offers have the same precedence. -/
theorem Greatest.precedence {offers : Property V → Prop} {a b : Option (Property V)}
    (first : Greatest offers a) (second : Greatest offers b) :
    a.map Property.precedence = b.map Property.precedence := by
  cases a with
  | none =>
      cases b with
      | none => rfl
      | some y =>
          obtain ⟨q, absurd, -⟩ := first.above y (second.among y rfl)
          simp at absurd
  | some x =>
      obtain ⟨y, rfl, up⟩ := second.above x (first.among x rfl)
      obtain ⟨z, same, down⟩ := first.above y (second.among y rfl)
      obtain rfl := Option.some.inj same
      exact congrArg some (Precedence.rank_injective (le_antisymm up down))

/-- Offers that are one if they tie leave no choice. -/
theorem Greatest.unique {offers : Property V → Prop} {a b : Option (Property V)}
    (first : Greatest offers a) (second : Greatest offers b)
    (untied : ∀ p q, offers p → offers q → p.rank = q.rank → p = q) : a = b := by
  have same := first.precedence second
  cases a with
  | none => exact (Option.map_eq_none_iff.mp same.symm).symm
  | some x =>
      obtain ⟨y, rfl, tie⟩ := Option.map_eq_some_iff.mp same.symm
      have ranks : x.rank = y.rank := congrArg Precedence.rank tie.symm
      exact congrArg some (untied x y (first.among x rfl) (second.among y rfl) ranks)

-- An offer that is not below what is there takes its place.
theorem cascaded_of_le {held : Option (Property V)} {offer : Property V}
    (below : ∀ p ∈ held, p.rank ≤ offer.rank) : cascaded held (some offer) = some offer := by
  cases held with
  | none => rfl
  | some p => rw [cascaded_some, if_neg (below p rfl).not_gt]

/-- What is left of offers whose ranks never fall is the last one. -/
theorem folded_last {ι σ : Type} (get : σ → Option (Property V)) (made : ι → Option (Property V))
    {step : σ → ι → σ} {start : σ} (bare : get start = none) {items : List ι}
    (offer : ∀ front i rest, items = front ++ i :: rest →
      get (step (front.foldl step start) i) = cascaded (get (front.foldl step start)) (made i))
    (rising : (items.filterMap made).Pairwise fun p q => p.rank ≤ q.rank) :
    get (items.foldl step start) = (items.filterMap made).getLast? := by
  induction items using List.reverseRecOn with
  | nil => exact bare
  | append_singleton front i ih =>
      rw [List.filterMap_append] at rising ⊢
      obtain ⟨early, -, across⟩ := List.pairwise_append.mp rising
      have before :=
        ih (fun first j rest same => offer first j (rest ++ [i]) (by simp [same])) early
      rw [List.foldl_append, List.foldl_cons, List.foldl_nil, offer front i [] rfl, before]
      cases given : made i with
      | none => simp [given]
      | some q =>
          have last : [i].filterMap made = [q] := by simp [given]
          rw [last] at across ⊢
          rw [List.getLast?_concat]
          apply cascaded_of_le
          intro p known
          exact across p (List.mem_of_getLast? known) q List.mem_cons_self

end Property

theorem Longhand.mem_all (p : Longhand) : p ∈ Longhand.all := by
  cases p <;> decide

namespace Dictionary
variable {V W : Type}

/-- A dictionary is what it holds for each property. -/
theorem ext_get {d other : Dictionary V} (same : ∀ p, d.get? p = other.get? p) : d = other := by
  obtain ⟨slots⟩ := d
  obtain ⟨others⟩ := other
  congr
  ext i bound : 1
  have every : ∀ i : Fin 51, (Longhand.ofNat i.val).index = i.val := by decide
  have here := same (Longhand.ofNat i)
  simpa only [get?, every ⟨i, bound⟩] using here

theorem get_merge (d other : Dictionary V) (p : Longhand) :
    (d.merge other).get? p = Property.cascaded (d.get? p) (other.get? p) := by
  rw [get?_merge]
  cases other.get? p <;> rfl

@[simp] theorem merge_empty (d : Dictionary V) : d.merge empty = d :=
  ext_get fun p => by rw [get_merge, get?_empty, Property.cascaded_none]

theorem merge_assoc (a b c : Dictionary V) : (a.merge b).merge c = a.merge (b.merge c) :=
  ext_get fun p => by simp only [get_merge, Property.cascaded_assoc]

theorem mapValues_empty (f : V → W) : (empty : Dictionary V).mapValues f = empty :=
  ext_get fun p => by simp

theorem mapValues_id (d : Dictionary V) : d.mapValues id = d :=
  ext_get fun p => by cases known : d.get? p <;> simp [known, Property.withValue]

theorem mapValues_eq_empty (f : V → W) (d : Dictionary V) : d.mapValues f = empty ↔ d = empty := by
  constructor
  · intro same
    apply ext_get
    intro p
    have gone := congrArg (fun d => d.get? p) same
    simpa using gone
  · rintro rfl
    exact mapValues_empty f

theorem mapValues_mapValues {U : Type} (f : V → W) (g : W → U) (d : Dictionary V) :
    (d.mapValues f).mapValues g = d.mapValues (g ∘ f) :=
  ext_get fun p => by cases known : d.get? p <;> simp [known, Property.withValue]

theorem isEmpty_mapValues (f : V → W) (d : Dictionary V) :
    (d.mapValues f).isEmpty = d.isEmpty := by
  simp [isEmpty, mapValues, Vector.toList_map, List.all_map, Function.comp_def]

@[simp] theorem isEmpty_empty : (empty : Dictionary V).isEmpty = true := by
  simp [isEmpty, empty]

theorem isEmpty_of_some {d : Dictionary V} {p : Longhand} {q : Property V}
    (known : d.get? p = some q) : d.isEmpty = false := by
  rw [isEmpty, List.all_eq_false]
  refine ⟨some q, ?_, by simp⟩
  rw [Vector.mem_toList_iff, ← known, get?]
  exact Vector.getElem_mem _

theorem mapValues_merge (f : V → W) (d other : Dictionary V) :
    (d.merge other).mapValues f = (d.mapValues f).merge (other.mapValues f) :=
  ext_get fun p => by
    simp only [get_merge, get?_mapValues]
    exact (Property.cascaded_withValue (fun q => f q.value) _ _).symm

theorem mapValues_set (f : V → W) (d : Dictionary V) (p : Longhand) (q : Property V) :
    (d.set p q).mapValues f = (d.mapValues f).set p (q.withValue (f q.value)) :=
  ext_get fun other => by
    simp only [get?_mapValues, get?_set]
    split
    · exact (Property.cascaded_withValue (fun q => f q.value) (d.get? p) (some q)).symm
    · rfl

theorem mapValues_shifted (f : V → W) (offset : Nat) (d : Dictionary V) :
    (d.shifted offset).mapValues f = (d.mapValues f).shifted offset :=
  ext_get fun p => by
    cases known : d.get? p <;> simp [known, Property.withValue, Property.shifted]

@[simp] theorem shifted_empty (offset : Nat) : (empty : Dictionary V).shifted offset = empty :=
  ext_get fun p => by simp

@[simp] theorem importFrom_empty (d : Dictionary V) (offset : Nat) :
    d.importFrom offset empty = d := by
  simp [importFrom]

def LayersBelow (d : Dictionary V) (bound : Nat) : Prop :=
  ∀ p q, d.get? p = some q → q.precedence.layer < bound

theorem LayersBelow.set {d : Dictionary V} {bound : Nat} (below : d.LayersBelow bound)
    {p : Longhand} {q : Property V} (under : q.precedence.layer < bound) :
    (d.set p q).LayersBelow bound := by
  intro other r known
  rw [get?_set] at known
  split at known
  case isTrue =>
    rw [Property.offered] at known
    split at known
    case isTrue => exact Option.some.inj known ▸ under
    case isFalse => exact below p r known
  case isFalse => exact below other r known

theorem shifted_set {offset bound : Nat} (room : bound + offset ≤ wordLimit + 1) {d : Dictionary V}
    (below : d.LayersBelow bound) {p : Longhand} {q : Property V}
    (under : q.precedence.layer < bound) :
    (d.set p q).shifted offset = (d.shifted offset).set p (q.shifted offset) :=
  ext_get fun other => by
    simp only [get?_shifted, get?_set]
    split
    · refine (Property.cascaded_shifted (b := some q) ?_ ?_).symm
      · intro r known
        have := below p r known
        omega
      · rintro r ⟨⟩
        omega
    · rfl

-- Layers that reach the limit would tie, and then the later offer would win.
theorem shifted_merge {offset bound : Nat} {d other : Dictionary V}
    (room : bound + offset ≤ wordLimit + 1) (first : d.LayersBelow bound)
    (second : other.LayersBelow bound) :
    (d.merge other).shifted offset = (d.shifted offset).merge (other.shifted offset) :=
  ext_get fun p => by
    simp only [get_merge, get?_shifted]
    refine (Property.cascaded_shifted ?_ ?_).symm
    · intro q known
      have := first p q known
      omega
    · intro q known
      have := second p q known
      omega

end Dictionary

/-! Dictionaries that differ in ranks and origins.
Ranks decide between offers only by their order. Offers of the same values, with ranks in the same
order, lead to the same values, whatever these ranks are and wherever the offers come from. -/

def Precedence.Faithful (R : Precedence → Precedence → Prop) : Prop :=
  ∀ ⦃a a' b b' : Precedence⦄, R a a' → R b b' → (a.rank < b.rank ↔ a'.rank < b'.rank)

theorem Precedence.faithful_eq : Faithful Eq := by
  rintro a _ b _ rfl rfl
  rfl

structure Property.Echoes {V : Type} (R : Precedence → Precedence → Prop) (p q : Property V) :
    Prop where
  value : p.value = q.value
  precedence : R p.precedence q.precedence

namespace Property
variable {V : Type} {R : Precedence → Precedence → Prop} {a a' b b' : Option (Property V)}

theorem cascaded_echoes (faithful : Precedence.Faithful R) (held : Option.Rel (Echoes R) a a')
    (offer : Option.Rel (Echoes R) b b') :
    Option.Rel (Echoes R) (cascaded a b) (cascaded a' b') := by
  cases offer with
  | none => exact held
  | @some x x' offered =>
      cases held with
      | none => exact .some offered
      | @some y y' kept =>
          have order : x.rank < y.rank ↔ x'.rank < y'.rank :=
            faithful offered.precedence kept.precedence
          rw [cascaded_some, cascaded_some]
          by_cases less : x.rank < y.rank
          · rw [if_pos less, if_pos (order.mp less)]
            exact .some kept
          · rw [if_neg less, if_neg (fun above => less (order.mpr above))]
            exact .some offered

end Property

namespace Dictionary
variable {V : Type} {R : Precedence → Precedence → Prop} {d d' e e' : Dictionary V}

def Echoes (R : Precedence → Precedence → Prop) (d e : Dictionary V) : Prop :=
  ∀ p, Option.Rel (Property.Echoes R) (d.get? p) (e.get? p)

theorem echoes_empty : (empty : Dictionary V).Echoes R empty := by
  intro p
  rw [get?_empty]
  exact .none

theorem Echoes.merge (faithful : Precedence.Faithful R) (first : d.Echoes R d')
    (second : e.Echoes R e') : (d.merge e).Echoes R (d'.merge e') := by
  intro p
  rw [get_merge, get_merge]
  exact Property.cascaded_echoes faithful (first p) (second p)

theorem Echoes.set (faithful : Precedence.Faithful R) (echoes : d.Echoes R e) {a b : Property V}
    (offer : a.Echoes R b) (p : Longhand) : (d.set p a).Echoes R (e.set p b) := by
  intro other
  rw [get?_set, get?_set]
  by_cases same : p = other
  · rw [if_pos same, if_pos same]
    exact Property.cascaded_echoes faithful (echoes p) (.some offer)
  · rw [if_neg same, if_neg same]
    exact echoes other

theorem Echoes.refl (kept : ∀ p q, d.get? p = some q → R q.precedence q.precedence) :
    d.Echoes R d := by
  intro p
  cases known : d.get? p with
  | none => exact .none
  | some q => exact .some ⟨rfl, kept p q known⟩

theorem Echoes.isEmpty (echoes : d.Echoes R e) : d.isEmpty = e.isEmpty := by
  by_cases held : ∃ p q, d.get? p = some q
  · obtain ⟨p, q, known⟩ := held
    have other := echoes p
    rw [known] at other
    cases found : e.get? p with
    | none => rw [found] at other; cases other
    | some q' => rw [isEmpty_of_some known, isEmpty_of_some found]
  · have bare (p : Longhand) : d.get? p = none :=
      Option.eq_none_iff_forall_ne_some.mpr fun q known => held ⟨p, q, known⟩
    have empty : d = e := by
      apply ext_get
      intro p
      have other := echoes p
      rw [bare p] at other ⊢
      cases found : e.get? p with
      | none => rfl
      | some q => rw [found] at other; cases other
    rw [empty]

end Dictionary
end Cascade
