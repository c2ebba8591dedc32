import Cascade.Proofs.Animation.Moments
import Cascade.Proofs.Property.Expanding
/-!
What keyframes hold at a moment.

All copies of a source block have the ranks of its declarations, and these rise through the rule.
So at each moment the last declaration listed for it wins, as if there were no blocks. With a
negative zero among the moments this would have to be said of two blocks, so none is listed here.
-/
namespace Cascade

namespace Declaration

def setting? (p : Longhand) (d : Declaration) : Option DeclaredValue :=
  match d.settings with
  | .error _ => none
  | .ok settings => settings.lookup p

theorem setting?_eq_some {p : Longhand} {d : Declaration} {value : DeclaredValue} :
    d.setting? p = some value ↔ ∃ settings, d.settings = .ok settings ∧ (p, value) ∈ settings := by
  rw [setting?]
  cases expanded : d.settings with
  | error e => simp
  | ok settings =>
      constructor
      · intro found
        obtain ⟨early, late, split, -⟩ := List.lookup_eq_some_iff.mp found
        exact ⟨settings, rfl, by simp [split]⟩
      · rintro ⟨_, same, member⟩
        obtain rfl := Except.ok.inj same
        cases found : settings.lookup p with
        | none =>
            have other := List.lookup_eq_none_iff.mp found (p, value) member
            simp at other
        | some held =>
            obtain ⟨early, late, split, -⟩ := List.lookup_eq_some_iff.mp found
            have there : (p, held) ∈ settings := by simp [split]
            exact found.trans (congrArg some (settings_unique expanded there member))

end Declaration

theorem Precedence.ofOrder_rank {place later : Nat} (order : place ≤ later) :
    (ofOrder place).rank ≤ (ofOrder later).rank := by
  simpa [rank, ofOrder, Prod.Lex.toLex_le_toLex] using order

/-- Settings of different properties, offered with one rank. -/
theorem Dictionary.get?_settings {V : Type} (precedence : Precedence) (source : SourceLocation)
    {settings : List (Longhand × V)} (distinct : (settings.map Prod.fst).Nodup) (d : Dictionary V)
    (p : Longhand) :
    (settings.foldl (fun held (q, value) => held.set q ⟨value, precedence, source⟩) d).get? p =
      Property.cascaded (d.get? p)
        ((settings.lookup p).map fun value => ⟨value, precedence, source⟩) := by
  induction settings generalizing d with
  | nil => rfl
  | cons setting rest ih =>
      obtain ⟨q, value⟩ := setting
      obtain ⟨fresh, others⟩ := List.nodup_cons.mp distinct
      rw [List.foldl_cons, ih others, get?_set]
      by_cases same : q = p
      · subst same
        have none : rest.lookup q = none := by
          rw [List.lookup_eq_none_iff]
          intro setting member
          refine bne_iff_ne.mpr fun same => fresh ?_
          exact List.mem_map.mpr ⟨setting, member, same.symm⟩
        rw [if_pos rfl, none, List.lookup_cons_self, Option.map_none, Property.cascaded_none]
        rfl
      · have other : (p == q) = false := beq_eq_false_iff_ne.mpr (Ne.symm same)
        rw [if_neg same, List.lookup_cons, other]

namespace KeyframesRule

def declarationsAt (rule : KeyframesRule) (t : Binary32) : List Declaration :=
  (rule.blocks.filter fun b => b.times.contains t).flatMap KeyframeRule.declarations

theorem mem_declarationsAt {rule : KeyframesRule} {t : Binary32} {d : Declaration} :
    d ∈ rule.declarationsAt t ↔ ∃ b ∈ rule.blocks, t ∈ b.times ∧ d ∈ b.declarations := by
  simp [declarationsAt, and_assoc]

end KeyframesRule

theorem isSome_last {α β : Type} {f : α → Option β} {items : List α} :
    (items.filterMap f).getLast?.isSome ↔ ∃ a ∈ items, ∃ b, f a = some b := by
  simp [← Option.isSome_iff_exists]

namespace Keyframes

open Binary32 (zero signedZero)

variable {p : Longhand}

def made (file : String) (p : Longhand) : Declaration × Nat → Option (Property DeclaredValue)
  | (d, place) => (d.setting? p).map fun value => ⟨value, .ofOrder place, ⟨file, d.line⟩⟩

theorem made_rank {file : String} {numbered : Declaration × Nat} {q : Property DeclaredValue}
    (offer : made file p numbered = some q) : q.rank = (Precedence.ofOrder numbered.2).rank := by
  obtain ⟨value, -, rfl⟩ := Option.map_eq_some_iff.mp offer
  rfl

theorem made_rising (file : String) (declarations : List Declaration) (order : Nat) :
    ((declarations.zipIdx order).filterMap (made file p)).Pairwise fun a b => a.rank ≤ b.rank := by
  induction declarations generalizing order with
  | nil => exact .nil
  | cons d rest ih =>
      rw [List.zipIdx_cons, List.filterMap_cons]
      cases offer : made file p (d, order) with
      | none => exact ih (order + 1)
      | some q =>
          refine List.pairwise_cons.mpr ⟨fun later member => ?_, ih (order + 1)⟩
          obtain ⟨numbered, among, given⟩ := List.mem_filterMap.mp member
          have after := List.le_snd_of_mem_zipIdx among
          rw [made_rank offer, made_rank given]
          exact Precedence.ofOrder_rank (Nat.le_of_lt after)

/-- Of the declarations that set a property the last one stays. -/
theorem get?_cascade (file : String) (declarations : List Declaration) (order : Nat) :
    (cascade file declarations order).get? p =
      ((declarations.zipIdx order).filterMap (made file p)).getLast? := by
  rw [cascade]
  refine Property.folded_last (fun held : Dictionary DeclaredValue => held.get? p) (made file p)
    (Dictionary.get?_empty p) ?_ (made_rising file declarations order)
  rintro front ⟨d, place⟩ rest -
  simp only [made, Declaration.setting?]
  cases expanded : d.settings with
  | error e => rfl
  | ok settings => exact Dictionary.get?_settings _ _ (Declaration.settings_nodup expanded) _ p

theorem value?_cascade (file : String) (declarations : List Declaration) (order : Nat) :
    (cascade file declarations order).value? p =
      (declarations.filterMap (Declaration.setting? p)).getLast? := by
  have values : Option.map Property.value ∘ made file p = Declaration.setting? p ∘ Prod.fst := by
    funext ⟨d, place⟩
    simp only [Function.comp_apply, made, Option.map_map]
    cases d.setting? p <;> rfl
  have declared : (declarations.zipIdx order).map Prod.fst = declarations := by simp
  calc (cascade file declarations order).value? p
    _ = (((declarations.zipIdx order).filterMap (made file p)).map Property.value).getLast? := by
      rw [Dictionary.value?, get?_cascade, List.getLast?_map]
    _ = (declarations.filterMap (Declaration.setting? p)).getLast? := by
      rw [List.map_filterMap]
      change ((declarations.zipIdx order).filterMap
        (Option.map Property.value ∘ made file p)).getLast? = _
      rw [values, ← List.filterMap_map, declared]

variable {block : KeyframeBlock} {blocks after : List KeyframeBlock} {t : Binary32}

def held (t : Binary32) (blocks : List KeyframeBlock) : Dictionary DeclaredValue :=
  match blocks.find? (·.time == t) with
  | none => .empty
  | some b => b.properties

theorem Ascending.unique (ascending : Ascending blocks) {a b : KeyframeBlock} (here : a ∈ blocks)
    (there : b ∈ blocks) (same : a.time = b.time) : a = b :=
  eq_of_unrelated ascending here there (fun less => Binary32.ne_of_precedes less same)
    fun less => Binary32.ne_of_precedes less same.symm

theorem held_of_mem (ascending : Ascending blocks) {b : KeyframeBlock} (there : b ∈ blocks) :
    held b.time blocks = b.properties := by
  rw [held]
  cases found : blocks.find? (·.time == b.time) with
  | none =>
      have other := List.find?_eq_none.mp found b there
      simp at other
  | some c =>
      have same : c.time = b.time := by simpa using List.find?_some found
      exact congrArg KeyframeBlock.properties
        (ascending.unique (List.mem_of_find?_eq_some found) there same)

def madeAt (t : Binary32) (p : Longhand) (block : KeyframeBlock) :
    Option (Property DeclaredValue) :=
  if block.time = t then block.properties.get? p else none

theorem find?_apart (apart : ∀ b ∈ blocks, b.time ≠ t) :
    blocks.find? (·.time == t) = none := by simpa [List.find?_eq_none] using apart

theorem madeAt_eq_some {q : Property DeclaredValue} :
    madeAt t p block = some q ↔ block.time = t ∧ block.properties.get? p = some q := by
  rw [madeAt, Option.ite_none_right_eq_some]

/-- Without negative zeros a block is merged exactly into what is held at its moment. -/
theorem Puts.get?_held (puts : Puts block blocks after) (positive : block.time ≠ signedZero true)
    (others : signedZero true ∉ times blocks) (t : Binary32) :
    (held t after).get? p = Property.cascaded ((held t blocks).get? p) (madeAt t p block) := by
  cases puts with
  | placed earlier later before behind apart =>
      by_cases same : block.time = t
      · subst same
        have early := find?_apart fun b among => Binary32.ne_of_precedes (before b among)
        have late := find?_apart fun b among => (Binary32.ne_of_precedes (behind b among)).symm
        simp [held, madeAt, List.find?_append, early, late]
      · simp [held, madeAt, List.find?_append, same]
  | merged earlier there later before equal reached =>
      have known : there.time = block.time := by
        rcases (Binary32.numEq_cases.mp equal).2 with same | ⟨-, absurd⟩ | ⟨absurd, -⟩
        · exact same
        · exact (positive absurd).elim
        · exact (others (by simp [times, absurd])).elim
      by_cases same : block.time = t
      · subst same
        have early := find?_apart fun b among => Binary32.ne_of_precedes (before b among)
        simp [held, madeAt, List.find?_append, early, known, Dictionary.get_merge,
          -Dictionary.get?_merge]
      · simp [held, madeAt, List.find?_append, known, same]

variable {offers : List KeyframeBlock}

theorem get?_held_foldl (numbers : ∀ block ∈ offers, block.time.inUnitInterval = true)
    (positive : signedZero true ∉ times offers) (t : Binary32)
    (rising : (offers.filterMap (madeAt t p)).Pairwise fun a b => a.rank ≤ b.rank) :
    (held t (offers.foldl insert ⟨[], []⟩).blocks).get? p =
      (offers.filterMap (madeAt t p)).getLast? := by
  have bare : (held t (⟨[], []⟩ : Keyframes).blocks).get? p = none := Dictionary.get?_empty p
  refine Property.folded_last (fun k : Keyframes => (held t k.blocks).get? p) (madeAt t p) bare ?_
    rising
  rintro front block rest rfl
  have early := gathers_foldl front fun b member => numbers b (List.mem_append_left _ member)
  have number := numbers block (by simp)
  refine (puts_put early.ascending number).get?_held ?_ ?_ t
  · rintro same
    exact positive (by simp [times, same])
  · intro there
    have listed := early.among _ there
    rw [times, List.map_append] at positive
    exact positive (List.mem_append_left _ listed)

theorem cascade_rank {file : String} {declarations : List Declaration} {order : Nat}
    {q : Property DeclaredValue} (known : (cascade file declarations order).get? p = some q) :
    ∃ place, order ≤ place ∧ place < order + declarations.length ∧
      q.rank = (Precedence.ofOrder place).rank := by
  rw [get?_cascade] at known
  obtain ⟨numbered, among, given⟩ := List.mem_filterMap.mp (List.mem_of_getLast? known)
  exact ⟨numbered.2, List.le_snd_of_mem_zipIdx among, List.snd_lt_add_of_mem_zipIdx among,
    made_rank given⟩

theorem offered_rank {file : String} {order : Nat} {rules : List KeyframeRule}
    (member : block ∈ offered file order rules) {q : Property DeclaredValue}
    (known : block.properties.get? p = some q) :
    ∃ place, order ≤ place ∧ q.rank = (Precedence.ofOrder place).rank := by
  induction rules generalizing order with
  | nil => cases member
  | cons rule rest ih =>
      rcases List.mem_append.mp member with here | later
      · obtain ⟨time, -, rfl⟩ := List.mem_map.mp here
        obtain ⟨place, least, -, rank⟩ := cascade_rank known
        exact ⟨place, least, rank⟩
      · obtain ⟨place, after, rank⟩ := ih later
        exact ⟨place, Nat.le_of_add_right_le after, rank⟩

theorem offered_rising (file : String) (order : Nat) (rules : List KeyframeRule) :
    ((offered file order rules).filterMap (madeAt t p)).Pairwise fun a b => a.rank ≤ b.rank := by
  induction rules generalizing order with
  | nil => exact .nil
  | cons rule rest ih =>
      rw [offered, List.filterMap_append]
      refine List.pairwise_append.mpr ⟨?_, ih (order + rule.declarations.length), ?_⟩
      · -- Copies of one block hold the same.
        rw [List.pairwise_filterMap, List.pairwise_map]
        refine List.pairwise_of_forall fun _ _ a first b second => ?_
        have known := (madeAt_eq_some.mp first).2.symm.trans (madeAt_eq_some.mp second).2
        exact (congrArg Property.rank (Option.some.inj known)).le
      · intro a first b second
        obtain ⟨early, here, given⟩ := List.mem_filterMap.mp first
        obtain ⟨late, there, other⟩ := List.mem_filterMap.mp second
        obtain ⟨time, -, rfl⟩ := List.mem_map.mp here
        obtain ⟨place, -, below, rank⟩ := cascade_rank (madeAt_eq_some.mp given).2
        obtain ⟨next, above, after⟩ := offered_rank there (madeAt_eq_some.mp other).2
        rw [rank, after]
        exact Precedence.ofOrder_rank (by omega)

-- Of the copies of a block one is as good as all.
theorem getLast?_copies (properties : Dictionary DeclaredValue) (listed : List Binary32) :
    ((listed.map fun time => (⟨time, properties⟩ : KeyframeBlock)).filterMap
      (madeAt t p)).getLast? = if listed.contains t then properties.get? p else none := by
  induction listed using List.reverseRecOn with
  | nil => rfl
  | append_singleton front time ih =>
      rw [List.map_append, List.filterMap_append, List.getLast?_append, ih]
      by_cases same : time = t
      · subst same
        cases known : properties.get? p <;> simp [madeAt, known]
      · simp [madeAt, same, Ne.symm same]

/-- The last offer for a property at a moment is that of the last declaration. -/
theorem value_offered (file : String) (order : Nat) (rules : List KeyframeRule) :
    ((offered file order rules).filterMap (madeAt t p)).getLast?.map Property.value =
      (((rules.filter fun b => b.times.contains t).flatMap
        KeyframeRule.declarations).filterMap (Declaration.setting? p)).getLast? := by
  induction rules generalizing order with
  | nil => rfl
  | cons rule rest ih =>
      rw [offered, List.filterMap_append, List.getLast?_append, Option.map_or, ih, getLast?_copies,
        List.filter_cons]
      split
      case isTrue listed =>
        rw [List.flatMap_cons, List.filterMap_append, List.getLast?_append,
          ← value?_cascade file rule.declarations order]
        rfl
      case isFalse => rw [Option.map_none, Option.or_none]

theorem mem_properties_foldl (offers : List KeyframeBlock) :
    p ∈ (offers.foldl insert ⟨[], []⟩).properties ↔
      ∃ block ∈ offers, (block.properties.get? p).isSome := by
  induction offers using List.reverseRecOn with
  | nil => simp
  | append_singleton front block ih =>
      rw [List.foldl_append, List.foldl_cons, List.foldl_nil, insert, List.mem_filter,
        Bool.or_eq_true, List.contains_iff_mem, ih]
      simp [p.mem_all, or_and_right, exists_or]

theorem ofRule_filled {rule : KeyframesRule} (timed : ∀ b ∈ rule.blocks, b.Timed)
    (positive : signedZero true ∉ rule.times) (file : String) (t : Binary32) :
    (held t (ofRule rule file).blocks).get? p =
      ((offered file 0 rule.blocks).filterMap (madeAt t p)).getLast? := by
  have moments : times (offered file 0 rule.blocks) = rule.times := times_offered file 0 rule.blocks
  rw [ofRule_eq]
  refine get?_held_foldl (fun block member => ?_) (moments ▸ positive) t
    (offered_rising file 0 rule.blocks)
  exact rule.times_within timed _ (moments ▸ List.mem_map_of_mem member)

theorem ofRule_every {rule : KeyframesRule} (timed : ∀ b ∈ rule.blocks, b.Timed)
    (positive : signedZero true ∉ rule.times) (file : String) {t : Binary32}
    (listed : t ∈ rule.times) : ∃ b ∈ (ofRule rule file).blocks, b.time = t := by
  have gathers := ofRule_gathers timed file
  obtain ⟨u, there, equal⟩ := gathers.every t listed
  obtain ⟨b, member, rfl⟩ := List.mem_map.mp there
  refine ⟨b, member, ?_⟩
  rcases (Binary32.numEq_cases.mp equal).2 with same | ⟨-, absurd⟩ | ⟨absurd, -⟩
  · exact same
  · exact (positive (absurd ▸ listed)).elim
  · exact (positive (absurd ▸ gathers.among _ there)).elim

/-- In keyframes that were read without a negative zero, the block for a moment sets what some
declaration listed for this moment sets, to what the last of these declarations says. The properties
of the keyframes are those that blocks set. -/
theorem ofText_fills {text : String} {source : StyleSource}
    (read : StyleSource.ofText text = .ok source) {rule : KeyframesRule}
    (animates : rule ∈ source.keyframesRules) (positive : signedZero true ∉ rule.times)
    (file : String) :
    (∀ t ∈ rule.times, ∃ b ∈ (ofRule rule file).blocks, b.time = t ∧
      (∀ c ∈ (ofRule rule file).blocks, c.time = t → c = b) ∧
      ∀ p,
        ((b.properties.get? p).isSome ↔ ∃ listed ∈ rule.blocks, t ∈ listed.times ∧
          ∃ d ∈ listed.declarations, ∃ settings value,
            d.settings = .ok settings ∧ (p, value) ∈ settings) ∧
        b.properties.value? p =
          ((rule.declarationsAt t).filterMap (Declaration.setting? p)).getLast?) ∧
    ∀ p, p ∈ (ofRule rule file).properties ↔
      ∃ b ∈ (ofRule rule file).blocks, (b.properties.get? p).isSome := by
  have timed := StyleSource.ofText_timed read animates
  have ascending := (ofRule_gathers timed file).ascending
  constructor
  · intro t listed
    obtain ⟨b, there, rfl⟩ := ofRule_every timed positive file listed
    refine ⟨b, there, rfl, fun c other same => ascending.unique other there same, fun p => ?_⟩
    have filled := ofRule_filled (p := p) timed positive file b.time
    rw [held_of_mem ascending there] at filled
    have value : b.properties.value? p =
        ((rule.declarationsAt b.time).filterMap (Declaration.setting? p)).getLast? := by
      rw [Dictionary.value?, filled, value_offered]
      rfl
    refine ⟨?_, value⟩
    have sets : (b.properties.get? p).isSome ↔
        ∃ d ∈ rule.declarationsAt b.time, ∃ value, d.setting? p = some value := by
      rw [← isSome_last, ← value, Dictionary.value?, Option.isSome_map]
    rw [sets]
    constructor
    · rintro ⟨d, among, value, set⟩
      obtain ⟨source, member, timed, declared⟩ := KeyframesRule.mem_declarationsAt.mp among
      obtain ⟨settings, expanded, here⟩ := Declaration.setting?_eq_some.mp set
      exact ⟨source, member, timed, d, declared, settings, value, expanded, here⟩
    · rintro ⟨source, member, timed, d, declared, settings, value, expanded, here⟩
      exact ⟨d, KeyframesRule.mem_declarationsAt.mpr ⟨source, member, timed, declared⟩, value,
        Declaration.setting?_eq_some.mpr ⟨settings, expanded, here⟩⟩
  · intro p
    rw [ofRule_eq, mem_properties_foldl, ← ofRule_eq]
    constructor
    · rintro ⟨block, member, sets⟩
      have moment := List.mem_map_of_mem (f := KeyframeBlock.time) member
      rw [← times, times_offered] at moment
      obtain ⟨b, there, same⟩ := ofRule_every timed positive file moment
      have filled := ofRule_filled (p := p) timed positive file b.time
      refine ⟨b, there, ?_⟩
      rw [← held_of_mem ascending there, filled, isSome_last]
      obtain ⟨q, known⟩ := Option.isSome_iff_exists.mp sets
      exact ⟨block, member, q, madeAt_eq_some.mpr ⟨same.symm, known⟩⟩
    · rintro ⟨b, there, sets⟩
      have filled := ofRule_filled (p := p) timed positive file b.time
      rw [← held_of_mem ascending there, filled, isSome_last] at sets
      obtain ⟨block, member, q, given⟩ := sets
      exact ⟨block, member, Option.isSome_iff_exists.mpr ⟨q, (madeAt_eq_some.mp given).2⟩⟩

/-- Three source blocks. Two of them list the middle, two the start, and one declaration of the
first has no value. -/
def pulse : KeyframesRule :=
  let opacity (n : Binary32) (raw : String) (line : Nat) : Declaration :=
    ⟨"opacity", [.number n], raw, false, line⟩
  let half : Binary32 := .ofRatio false 1 2
  ⟨"pulse",
    [⟨[.zero, half], [opacity .zero "0" 1, ⟨"width", [.ident "wide"], "wide", false, 1⟩], 1⟩,
      ⟨[half, .one], [opacity .one "1" 2, ⟨"color", [.ident "red"], "red", false, 2⟩], 2⟩,
      ⟨[.zero], [opacity half "0.5" 2], 2⟩], 1⟩

theorem ofText_pulse : StyleSource.ofText
    "@keyframes pulse \x7b from, 50% \x7b opacity: 0; width: wide \x7d
      50%, to \x7b opacity: 1; color: red \x7d from \x7b opacity: 0.5 \x7d \x7d" =
    .ok ⟨[.keyframes pulse]⟩ := by
  rw [StyleSource.ofText, StyleSource.tokens, String.toList_ofList]
  decide +kernel

theorem ofText_fills_pulse :
    signedZero true ∉ pulse.times ∧
    ((ofRule pulse "a.css").blocks.map fun b => (b.time, b.properties.value? .opacity)) =
      [(.zero, some (.plain (.number (.ofRatio false 1 2)))),
        (.ofRatio false 1 2, some (.plain (.number .one))), (.one, some (.plain (.number .one)))] ∧
    (ofRule pulse "a.css").properties = [.color, .opacity] ∧
    (∀ t ∈ pulse.times, ∃ b ∈ (ofRule pulse "a.css").blocks, b.time = t ∧
      (∀ c ∈ (ofRule pulse "a.css").blocks, c.time = t → c = b) ∧
      ∀ p,
        ((b.properties.get? p).isSome ↔ ∃ listed ∈ pulse.blocks, t ∈ listed.times ∧
          ∃ d ∈ listed.declarations, ∃ settings value,
            d.settings = .ok settings ∧ (p, value) ∈ settings) ∧
        b.properties.value? p =
          ((pulse.declarationsAt t).filterMap (Declaration.setting? p)).getLast?) ∧
    ∀ p, p ∈ (ofRule pulse "a.css").properties ↔
      ∃ b ∈ (ofRule pulse "a.css").blocks, (b.properties.get? p).isSome := by
  have positive : signedZero true ∉ pulse.times := by decide +kernel
  exact ⟨positive, by decide +kernel, by decide +kernel,
    ofText_fills ofText_pulse List.mem_cons_self positive "a.css"⟩

end Keyframes
end Cascade
