import Cascade.Animation
import Cascade.Proofs.Binary32
import Cascade.Proofs.Source.Joining
import Mathlib.Data.List.Induction
import Mathlib.Data.List.Pairwise
/-!
The moments of keyframes.

Every block of an animation that was read is for some moments, all of them between 0 and 1. For each
of them a block is put among those that are there.
-/
namespace Cascade

structure KeyframeRule.Timed (b : KeyframeRule) : Prop where
  some : b.times ≠ []
  within : ∀ time ∈ b.times, time.inUnitInterval = true

namespace KeyframeRule

theorem time_within {t : Token} {time : Binary32} (found : time? t = some time) :
    time.inUnitInterval = true := (Option.filter_eq_some_iff.mp found).2

theorem readTimes_timed {ts rest : List Token} {times : List Binary32}
    (read : readTimes ts = .ok (times, rest)) :
    times ≠ [] ∧ ∀ time ∈ times, time.inUnitInterval = true := by
  fun_induction readTimes ts generalizing times rest with
  | case1 | case2 | case4 => cases read
  | case3 t time found | case6 t time found =>
      obtain ⟨rfl, -⟩ := Prod.mk.inj (Except.ok.inj read)
      exact ⟨List.cons_ne_nil _ _, by simpa using time_within found⟩
  | case5 t time found comma more separates others left success ih =>
      obtain ⟨rfl, -⟩ := Prod.mk.inj (Except.ok.inj read)
      exact ⟨List.cons_ne_nil _ _, List.forall_mem_cons.mpr ⟨time_within found, (ih success).2⟩⟩

theorem readList_timed {ts rest : List Token} {blocks : List KeyframeRule}
    (read : readList ts = .ok (blocks, rest)) : ∀ b ∈ blocks, b.Timed := by
  fun_induction readList ts generalizing blocks rest with
  | case1 => cases read
  | case2 t others closes =>
      obtain ⟨rfl, -⟩ := Prod.mk.inj (Except.ok.inj read)
      simp
  | case3 | case4 | case5 => cases read
  | case6 t others inner times left timed ds left' block shorter smaller more left'' found ih =>
      obtain ⟨rfl, -⟩ := Prod.mk.inj (Except.ok.inj read)
      obtain ⟨some, within⟩ := readTimes_timed timed
      exact List.forall_mem_cons.mpr ⟨⟨some, within⟩, ih found⟩

end KeyframeRule

theorem KeyframesRule.read_timed {line : Nat} {ts rest : List Token} {rule : KeyframesRule}
    (read : KeyframesRule.read line ts = .ok (rule, rest)) : ∀ b ∈ rule.blocks, b.Timed := by
  obtain ⟨_, _, _, _, _, _, -, -, found, -⟩ := read_parts read
  exact KeyframeRule.readList_timed found

namespace StyleSource

theorem readStatements_timed {ts : List Token} {statements : List Statement}
    (read : readStatements ts = .ok statements) {rule : KeyframesRule}
    (animates : .keyframes rule ∈ statements) : ∀ b ∈ rule.blocks, b.Timed := by
  obtain ⟨us, left, begins⟩ := begins_of_mem read animates
  cases begins with
  | keyframes found => exact KeyframesRule.read_timed found

theorem mem_keyframesRules {source : StyleSource} {rule : KeyframesRule} :
    rule ∈ source.keyframesRules ↔ .keyframes rule ∈ source.statements := by
  rw [keyframesRules, List.mem_filterMap]
  constructor
  · rintro ⟨_ | _ | _ | _, member, same⟩ <;> simp_all
  · intro member
    exact ⟨_, member, rfl⟩

theorem ofText_timed {text : String} {source : StyleSource} (read : ofText text = .ok source)
    {rule : KeyframesRule} (animates : rule ∈ source.keyframesRules) :
    ∀ b ∈ rule.blocks, b.Timed := by
  obtain ⟨statements, done, rfl⟩ := map_eq_ok.mp read
  exact readStatements_timed done (mem_keyframesRules.mp animates)

end StyleSource

/-! The moments that keyframes have blocks for.
A block finds its place in the total order but its equal as a number, and the two differ on zeros
alone. So blocks stand in the order of numbers, one for each, unless the first zero listed is a
negative one and a positive one follows: then there are two blocks for one moment. -/

namespace Binary32

def Below (x y : Binary32) : Prop := ∃ v w, x.value? = some v ∧ y.value? = some w ∧ v < w

variable {x y z : Binary32}

theorem ne_of_precedes (before : x.precedes y = true) : x ≠ y := by
  rintro rfl
  simp [precedes] at before

theorem precedes_trans (first : x.precedes y = true) (second : y.precedes z = true) :
    x.precedes z = true := by
  simp only [precedes, decide_eq_true_eq] at first second ⊢
  exact first.trans second

theorem place_injective : Function.Injective place := by
  intro x y same
  rcases x with ⟨_ | _, a⟩ | ⟨_ | _⟩ | _ <;> rcases y with ⟨_ | _, b⟩ | ⟨_ | _⟩ | _ <;>
    simp only [place] at same <;> grind

/-- Only the two zeros are equal as numbers and yet not the same. -/
theorem numEq_cases : x.numEq y = true ↔
    x ≠ .nan ∧ (x = y ∨ x = zero ∧ y = signedZero true ∨ x = signedZero true ∧ y = zero) := by
  rcases x with ⟨_ | _, a⟩ | _ | _ <;> rcases y with ⟨_ | _, b⟩ | _ | _ <;>
    simp [numEq, zero, signedZero] <;> grind

theorem number_ne_nan (number : x.inUnitInterval = true) : x ≠ .nan := by
  rintro rfl
  cases number

theorem numEq_self (number : x.inUnitInterval = true) : x.numEq x = true :=
  numEq_cases.mpr ⟨number_ne_nan number, .inl rfl⟩

theorem numEq_zero : x.numEq zero = true ↔ x = zero ∨ x = signedZero true := by
  have number : zero ≠ .nan := by decide
  have other : signedZero true ≠ .nan := by decide
  rw [numEq_cases]
  grind

-- What is neither before a number nor equal to it comes after it.
theorem precedes_of_not (number : y.inUnitInterval = true) (before : x.precedes y = false)
    (equal : x.numEq y = false) : y.precedes x = true := by
  have other : x.place ≠ y.place := by
    intro same
    obtain rfl := place_injective same
    rw [numEq_self number] at equal
    cases equal
  simp only [precedes, decide_eq_false_iff_not, decide_eq_true_eq] at before ⊢
  omega

-- Between two that are equal as numbers there is no third one.
theorem numEq_of_between (first : x.precedes y = true) (second : y.precedes z = true) :
    z.numEq x = false := by
  rw [Bool.eq_false_iff]
  intro equal
  have zeros : zero.place = (signedZero true).place + 1 := rfl
  simp only [precedes, decide_eq_true_eq] at first second
  rcases (numEq_cases.mp equal).2 with rfl | ⟨rfl, rfl⟩ | ⟨rfl, rfl⟩ <;> omega

end Binary32

namespace KeyframesRule

def times (rule : KeyframesRule) : List Binary32 := rule.blocks.flatMap KeyframeRule.times

theorem times_within (rule : KeyframesRule) (timed : ∀ b ∈ rule.blocks, b.Timed) :
    ∀ t ∈ rule.times, t.inUnitInterval = true := by
  intro t member
  obtain ⟨b, among, there⟩ := List.mem_flatMap.mp member
  exact (timed b among).within t there

end KeyframesRule

namespace Keyframes

open Binary32 (zero signedZero)

def times (blocks : List KeyframeBlock) : List Binary32 := blocks.map KeyframeBlock.time

def Ascending (blocks : List KeyframeBlock) : Prop :=
  blocks.Pairwise fun a b => a.time.precedes b.time = true

/-- All that putting a block among others can do. -/
inductive Puts (block : KeyframeBlock) : List KeyframeBlock → List KeyframeBlock → Prop where
  | placed (earlier later : List KeyframeBlock)
      (before : ∀ b ∈ earlier, b.time.precedes block.time = true)
      (after : ∀ b ∈ later, block.time.precedes b.time = true)
      (apart : ∀ b ∈ later, b.time.numEq block.time = false) :
      Puts block (earlier ++ later) (earlier ++ block :: later)
  | merged (earlier : List KeyframeBlock) (held : KeyframeBlock) (later : List KeyframeBlock)
      (before : ∀ b ∈ earlier, b.time.precedes block.time = true)
      (equal : held.time.numEq block.time = true)
      (reached : held.time.precedes block.time = false) :
      Puts block (earlier ++ held :: later)
        (earlier ++ ⟨held.time, held.properties.merge block.properties⟩ :: later)

variable {block : KeyframeBlock} {blocks after : List KeyframeBlock}

theorem Puts.cons {b : KeyframeBlock} (puts : Puts block blocks after)
    (earlier : b.time.precedes block.time = true) : Puts block (b :: blocks) (b :: after) := by
  cases puts with
  | placed first later before after apart =>
      exact .placed (b :: first) later (List.forall_mem_cons.mpr ⟨earlier, before⟩) after apart
  | merged first held later before equal reached =>
      exact .merged (b :: first) held later (List.forall_mem_cons.mpr ⟨earlier, before⟩) equal
        reached

theorem puts_put (ascending : Ascending blocks) (number : block.time.inUnitInterval = true) :
    Puts block blocks (put block blocks) := by
  induction blocks with
  | nil => exact .placed [] [] (by simp) (by simp) (by simp)
  | cons b rest ih =>
      obtain ⟨first, others⟩ := List.pairwise_cons.mp ascending
      rw [put]
      split
      case isTrue earlier => exact (ih others).cons earlier
      case isFalse reached =>
        have reached := Bool.eq_false_iff.mpr reached
        split
        case isTrue equal => exact .merged [] b rest (by simp) equal reached
        case isFalse other =>
          have other := Bool.eq_false_iff.mpr other
          have next := Binary32.precedes_of_not number reached other
          refine .placed [] (b :: rest) (by simp) ?_ ?_
          · refine List.forall_mem_cons.mpr ⟨next, fun c member => ?_⟩
            exact Binary32.precedes_trans next (first c member)
          · refine List.forall_mem_cons.mpr ⟨other, fun c member => ?_⟩
            exact Binary32.numEq_of_between next (first c member)

theorem Puts.ascending (puts : Puts block blocks after) (ascending : Ascending blocks) :
    Ascending after := by
  cases puts with
  | placed earlier later before after apart =>
      obtain ⟨first, second, across⟩ := List.pairwise_append.mp ascending
      refine List.pairwise_append.mpr ⟨first, List.pairwise_cons.mpr ⟨after, second⟩, ?_⟩
      intro a among
      exact List.forall_mem_cons.mpr ⟨before a among, across a among⟩
  | merged earlier held later before equal reached =>
      -- Only times count, and these are as they were.
      simpa [Ascending, List.pairwise_append] using ascending

/-- A moment is new exactly if no block there is equal to it as a number, but for a block that
comes before it. -/
theorem Puts.mem_times (puts : Puts block blocks after) (t : Binary32) :
    t ∈ times after ↔ t ∈ times blocks ∨ t = block.time ∧
      ∀ u ∈ times blocks, u.numEq block.time = true → u.precedes block.time = true := by
  cases puts with
  | placed earlier later before after apart =>
      have new : ∀ u ∈ times (earlier ++ later),
          u.numEq block.time = true → u.precedes block.time = true := by
        rintro u among equal
        obtain ⟨b, member, rfl⟩ := List.mem_map.mp among
        rcases List.mem_append.mp member with early | late
        · exact before b early
        · rw [apart b late] at equal
          cases equal
      have split : t ∈ times (earlier ++ block :: later) ↔
          t ∈ times (earlier ++ later) ∨ t = block.time := by
        simp only [times, List.map_append, List.map_cons, List.mem_append, List.mem_cons]
        tauto
      rw [split, and_iff_left new]
  | merged earlier held later before equal reached =>
      have same : times (earlier ++ ⟨held.time, held.properties.merge block.properties⟩ :: later) =
          times (earlier ++ held :: later) := by simp [times]
      rw [same, or_iff_left]
      rintro ⟨-, new⟩
      have there : held.time ∈ times (earlier ++ held :: later) := by simp [times]
      rw [new held.time there equal] at reached
      cases reached

/-- What blocks are after some moments were listed. -/
structure Gathers (listed : List Binary32) (blocks : List KeyframeBlock) : Prop where
  ascending : Ascending blocks
  among : ∀ t ∈ times blocks, t ∈ listed
  every : ∀ t ∈ listed, ∃ u ∈ times blocks, u.numEq t = true
  positive : zero ∈ times blocks ↔ zero ∈ listed
  /-- The negative zero comes in only if it is the first one listed. -/
  negative : signedZero true ∈ times blocks ↔
    listed.find? (·.numEq .zero) = some (signedZero true)

theorem gathers_nil : Gathers [] [] :=
  ⟨List.Pairwise.nil, by simp [times], by simp, by simp [times], by simp [times]⟩

variable {listed : List Binary32}

theorem Gathers.negative_listed (gathers : Gathers listed blocks)
    (negative : signedZero true ∈ listed) :
    zero ∈ times blocks ∨ signedZero true ∈ times blocks := by
  obtain ⟨u, there, equal⟩ := gathers.every _ negative
  rcases (Binary32.numEq_cases.mp equal).2 with rfl | ⟨rfl, -⟩ | ⟨rfl, -⟩
  · exact .inr there
  · exact .inl there
  · exact .inr there

-- No zero was listed exactly if there is none among the blocks.
theorem Gathers.no_zero (gathers : Gathers listed blocks) :
    listed.find? (·.numEq .zero) = none ↔
      zero ∉ times blocks ∧ signedZero true ∉ times blocks := by
  simp only [List.find?_eq_none, Binary32.numEq_zero, not_or]
  constructor
  · intro none
    exact ⟨fun there => (none _ (gathers.among _ there)).1 rfl,
      fun there => (none _ (gathers.among _ there)).2 rfl⟩
  · rintro ⟨positive, negative⟩ t member
    refine ⟨?_, ?_⟩
    · rintro rfl
      exact positive (gathers.positive.mpr member)
    · rintro rfl
      exact (gathers.negative_listed member).elim positive negative

-- Neither zero comes before the negative one.
theorem no_zero_iff : (zero ∉ times blocks ∧ signedZero true ∉ times blocks) ↔
    ∀ u ∈ times blocks, u.numEq (signedZero true) = true → u.precedes (signedZero true) = true := by
  constructor
  · rintro ⟨positive, negative⟩ u there equal
    rcases (Binary32.numEq_cases.mp equal).2 with rfl | ⟨rfl, -⟩ | ⟨rfl, -⟩
    · exact absurd there negative
    · exact absurd there positive
    · exact absurd there negative
  · intro new
    exact ⟨fun there => absurd (new _ there rfl) (by decide),
      fun there => absurd (new _ there rfl) (by decide)⟩

theorem Gathers.puts (gathers : Gathers listed blocks) (puts : Puts block blocks after)
    (number : block.time.inUnitInterval = true) :
    Gathers (listed ++ [block.time]) after where
  ascending := puts.ascending gathers.ascending
  among t there := by
    rcases (puts.mem_times t).mp there with held | ⟨rfl, -⟩
    · exact List.mem_append_left _ (gathers.among t held)
    · exact List.mem_append_right _ List.mem_cons_self
  every t member := by
    rcases List.mem_append.mp member with earlier | last
    · obtain ⟨u, there, equal⟩ := gathers.every t earlier
      exact ⟨u, (puts.mem_times u).mpr (.inl there), equal⟩
    · obtain rfl := List.mem_singleton.mp last
      by_cases new : ∀ u ∈ times blocks,
          u.numEq block.time = true → u.precedes block.time = true
      · exact ⟨block.time, (puts.mem_times _).mpr (.inr ⟨rfl, new⟩), Binary32.numEq_self number⟩
      · push Not at new
        obtain ⟨u, there, equal, -⟩ := new
        exact ⟨u, (puts.mem_times u).mpr (.inl there), equal⟩
  positive := by
    rw [puts.mem_times, List.mem_append, List.mem_singleton, gathers.positive]
    constructor
    · rintro (held | ⟨same, -⟩)
      · exact .inl held
      · exact .inr same
    · rintro (held | same)
      · exact .inl held
      · by_cases held : zero ∈ listed
        · exact .inl held
        · refine .inr ⟨same, fun u there equal => ?_⟩
          rw [← same] at equal ⊢
          rcases Binary32.numEq_zero.mp equal with rfl | rfl
          · exact absurd (gathers.positive.mp there) held
          · decide
  negative := by
    have last : [block.time].find? (·.numEq .zero) = some (signedZero true) ↔
        signedZero true = block.time := by
      rw [List.find?_singleton, Option.ite_none_right_eq_some, Option.some.injEq]
      constructor
      · rintro ⟨-, same⟩
        exact same.symm
      · intro same
        rw [← same]
        exact ⟨rfl, rfl⟩
    rw [puts.mem_times, gathers.negative, List.find?_append, Option.or_eq_some_iff, last,
      gathers.no_zero, and_comm]
    refine or_congr_right (and_congr_left ?_)
    intro same
    rw [← same]
    exact no_zero_iff.symm

/-- What a rule puts among the blocks: one block for each moment that it lists, in order. -/
def offered (file : String) (order : Nat) : List KeyframeRule → List KeyframeBlock
  | [] => []
  | rule :: rest =>
    rule.times.map (fun time => ⟨time, cascade file rule.declarations order⟩) ++
      offered file (order + rule.declarations.length) rest

theorem insertAll_eq (file : String) (order : Nat) (k : Keyframes) (rules : List KeyframeRule) :
    insertAll file order k rules = (offered file order rules).foldl insert k := by
  induction rules generalizing order k with
  | nil => rfl
  | cons rule rest ih => rw [insertAll, ih, offered, List.foldl_append, List.foldl_map]

theorem ofRule_eq (rule : KeyframesRule) (file : String) :
    ofRule rule file = (offered file 0 rule.blocks).foldl insert ⟨[], []⟩ :=
  insertAll_eq file 0 ⟨[], []⟩ rule.blocks

theorem times_offered (file : String) (order : Nat) (rules : List KeyframeRule) :
    times (offered file order rules) = rules.flatMap KeyframeRule.times := by
  induction rules generalizing order with
  | nil => rfl
  | cons rule rest ih =>
      rw [offered, times, List.map_append, List.map_map, List.flatMap_cons, ← ih]
      exact congrArg (· ++ _) (List.map_id' _)

theorem gathers_foldl (offers : List KeyframeBlock)
    (numbers : ∀ block ∈ offers, block.time.inUnitInterval = true) :
    Gathers (times offers) (offers.foldl insert ⟨[], []⟩).blocks := by
  induction offers using List.reverseRecOn with
  | nil => exact gathers_nil
  | append_singleton offers block ih =>
      have gathers := ih fun b member => numbers b (List.mem_append_left _ member)
      have number := numbers block (List.mem_append_right _ List.mem_cons_self)
      rw [List.foldl_append, times, List.map_append]
      exact gathers.puts (puts_put gathers.ascending number) number

theorem ofRule_gathers {rule : KeyframesRule}
    (timed : ∀ b ∈ rule.blocks, b.Timed) (file : String) :
    Gathers rule.times (ofRule rule file).blocks := by
  rw [ofRule_eq, KeyframesRule.times, ← times_offered file 0]
  apply gathers_foldl
  intro block member
  have listed : block.time ∈ times (offered file 0 rule.blocks) := List.mem_map_of_mem member
  rw [times_offered] at listed
  exact rule.times_within timed _ listed

/-- Blocks in the strict order of numbers, with one for each moment that is listed. -/
structure Ordered (listed : List Binary32) (blocks : List KeyframeBlock) : Prop where
  rising : blocks.Pairwise fun a b => a.time.Below b.time
  once : ∀ t ∈ listed, ∃! b, b ∈ blocks ∧ b.time.numEq t = true

-- Of two blocks one after the other not both are for one moment.
theorem below_apart {x y t : Binary32} (number : t.inUnitInterval = true) (less : x.Below y)
    (first : x.numEq t = true) (second : y.numEq t = true) : False := by
  obtain ⟨v, w, known, other, lower⟩ := less
  obtain ⟨u, value, -⟩ := Binary32.inUnitInterval_iff.mp number
  have left := (Binary32.numEq_iff known value).mp first
  have right := (Binary32.numEq_iff other value).mp second
  exact lower.ne (left.trans right.symm)

-- What is related neither way in a list of related things is one.
theorem eq_of_unrelated {α : Type} {R : α → α → Prop} {items : List α} (related : items.Pairwise R)
    {a b : α} (here : a ∈ items) (there : b ∈ items) (forward : ¬ R a b) (backward : ¬ R b a) :
    a = b := by
  by_contra differ
  have symm : Std.Symm fun a b => R a b ∨ R b a := ⟨fun _ _ => Or.symm⟩
  have either : items.Pairwise fun a b => R a b ∨ R b a := related.imp Or.inl
  exact (either.forall here there differ).elim forward backward

theorem unique_of_rising {t : Binary32} (number : t.inUnitInterval = true)
    (rising : blocks.Pairwise fun a b => a.time.Below b.time) {a b : KeyframeBlock}
    (there : a ∈ blocks) (equal : a.time.numEq t = true) (other : b ∈ blocks)
    (same : b.time.numEq t = true) : a = b :=
  eq_of_unrelated rising there other (fun less => below_apart number less equal same)
    fun less => below_apart number less same equal

theorem Gathers.number (gathers : Gathers listed blocks)
    (numbers : ∀ t ∈ listed, t.inUnitInterval = true) {b : KeyframeBlock} (there : b ∈ blocks) :
    b.time.inUnitInterval = true := numbers _ (gathers.among _ (List.mem_map_of_mem there))

theorem Gathers.rising (gathers : Gathers listed blocks)
    (numbers : ∀ t ∈ listed, t.inUnitInterval = true) : blocks.Pairwise fun a b =>
      a.time.Below b.time ∨ a.time = signedZero true ∧ b.time = zero := by
  refine List.Pairwise.imp_of_mem ?_ gathers.ascending
  intro a b first second before
  obtain ⟨v, known, -⟩ := Binary32.inUnitInterval_iff.mp (gathers.number numbers first)
  obtain ⟨w, other, -⟩ := Binary32.inUnitInterval_iff.mp (gathers.number numbers second)
  rcases (Binary32.precedes_iff known other).mp before with less | zeros
  · exact .inl ⟨v, w, known, other, less⟩
  · exact .inr zeros

theorem Gathers.ordered_iff (gathers : Gathers listed blocks)
    (numbers : ∀ t ∈ listed, t.inUnitInterval = true) : Ordered listed blocks ↔
      (zero ∈ listed → listed.find? (·.numEq .zero) = some zero) := by
  constructor
  · intro ordered member
    obtain ⟨b, -, once⟩ := ordered.once _ member
    cases first : listed.find? (·.numEq .zero) with
    | none => exact absurd (gathers.positive.mpr member) (gathers.no_zero.mp first).1
    | some t =>
        have equal : t.numEq zero = true := by simpa using List.find?_some first
        rcases Binary32.numEq_zero.mp equal with rfl | rfl
        · rfl
        · obtain ⟨c, there, positive⟩ := List.mem_map.mp (gathers.positive.mpr member)
          obtain ⟨d, other, negative⟩ := List.mem_map.mp (gathers.negative.mpr first)
          have same : c = d := (once c ⟨there, by rw [positive]; rfl⟩).trans
            (once d ⟨other, by rw [negative]; rfl⟩).symm
          rw [same, negative] at positive
          cases positive
  · intro single
    have rising : blocks.Pairwise fun a b => a.time.Below b.time := by
      refine List.Pairwise.imp_of_mem ?_ (gathers.rising numbers)
      rintro a b first second (less | ⟨negative, positive⟩)
      · exact less
      · have both := gathers.negative.mp (negative ▸ List.mem_map_of_mem first)
        rw [single (gathers.positive.mp (positive ▸ List.mem_map_of_mem second))] at both
        cases both
    refine ⟨rising, fun t member => ?_⟩
    obtain ⟨u, there, equal⟩ := gathers.every t member
    obtain ⟨b, held, rfl⟩ := List.mem_map.mp there
    exact ⟨b, ⟨held, equal⟩, fun c other =>
      unique_of_rising (numbers t member) rising other.1 other.2 held equal⟩

/-- The blocks of a rule that was read are for moments that it lists, numbers from 0 to 1, and they
rise as numbers, but that a block for the negative zero may stand before one for the other. Every
moment listed has a block. So blocks are in strict order, one for each moment, exactly if the
negative zero is not the first zero of a rule that lists the positive one. -/
theorem ofText_ordered {text : String} {source : StyleSource}
    (read : StyleSource.ofText text = .ok source) {rule : KeyframesRule}
    (animates : rule ∈ source.keyframesRules) (file : String) :
    (∀ b ∈ (ofRule rule file).blocks,
      b.time ∈ rule.times ∧ ∃ v, b.time.value? = some v ∧ 0 ≤ v ∧ v ≤ 1) ∧
    ((ofRule rule file).blocks.Pairwise fun a b =>
      a.time.Below b.time ∨ a.time = signedZero true ∧ b.time = zero) ∧
    (∀ t ∈ rule.times, ∃ b ∈ (ofRule rule file).blocks, b.time.numEq t = true) ∧
    (Ordered rule.times (ofRule rule file).blocks ↔
      (zero ∈ rule.times → rule.times.find? (·.numEq .zero) = some zero)) := by
  have timed := StyleSource.ofText_timed read animates
  have gathers := ofRule_gathers timed file
  have numbers := rule.times_within timed
  refine ⟨fun b there => ?_, gathers.rising numbers, fun t member => ?_,
    gathers.ordered_iff numbers⟩
  · exact ⟨gathers.among _ (List.mem_map_of_mem there),
      Binary32.inUnitInterval_iff.mp (gathers.number numbers there)⟩
  · obtain ⟨u, there, equal⟩ := gathers.every t member
    obtain ⟨b, held, rfl⟩ := List.mem_map.mp there
    exact ⟨b, held, equal⟩

def zeros : KeyframesRule := ⟨"k", [⟨[signedZero true, zero], [], 1⟩], 1⟩

theorem ofText_zeros : StyleSource.ofText "@keyframes k \x7b -0, from \x7b \x7d \x7d" =
    .ok ⟨[.keyframes zeros]⟩ := by
  decide +kernel

theorem ofText_ordered_zeros :
    (∀ b ∈ (ofRule zeros "a.css").blocks,
      b.time ∈ zeros.times ∧ ∃ v, b.time.value? = some v ∧ 0 ≤ v ∧ v ≤ 1) ∧
    ((ofRule zeros "a.css").blocks.Pairwise fun a b =>
      a.time.Below b.time ∨ a.time = signedZero true ∧ b.time = zero) ∧
    (∀ t ∈ zeros.times, ∃ b ∈ (ofRule zeros "a.css").blocks, b.time.numEq t = true) ∧
    (Ordered zeros.times (ofRule zeros "a.css").blocks ↔
      (zero ∈ zeros.times → zeros.times.find? (·.numEq .zero) = some zero)) :=
  ofText_ordered ofText_zeros List.mem_cons_self "a.css"

/-- Each zero has a block of its own then. -/
theorem not_ordered_zeros : StyleSource.ofText "@keyframes k \x7b -0, from \x7b \x7d \x7d" =
      .ok ⟨[.keyframes zeros]⟩ ∧
    ¬ Ordered zeros.times (ofRule zeros "a.css").blocks := by
  refine ⟨ofText_zeros, ?_⟩
  have timed := StyleSource.ofText_timed ofText_zeros List.mem_cons_self
  have single := (ofRule_gathers timed "a.css").ordered_iff (zeros.times_within timed)
  intro ordered
  have first := single.mp ordered (by decide)
  exact absurd first (by decide)

end Keyframes
end Cascade
