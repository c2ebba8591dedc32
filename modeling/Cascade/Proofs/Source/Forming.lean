import Cascade.Proofs.Animation.Moments
import Cascade.Proofs.Source.Excerpting
import Cascade.Proofs.Source.Writing
/-!
Every source that was read is well formed.

A selector is a chain of parts, compounds and the combinators between them, and the chain is spelled
by consecutive tokens of the source: a descendant by nothing, any other combinator by its sign. What
such a chain looks like does not depend on the reader any more and follows by induction on it.
-/
namespace Cascade
open Token

inductive SimpleSelector.Spelled : SimpleSelector → List Token → Prop where
  | tag {t : Token} (kind : t.kind = .ident) : Spelled (.tag t.text) [t]
  | universal {t : Token} (kind : t.kind = .star) : Spelled .universal [t]
  | className {dot name : Token} (mark : dot.kind = .dot) (kind : name.kind = .ident) :
      Spelled (.className name.text) [dot, name]
  | id {hash name : Token} (mark : hash.kind = .hash) (kind : name.kind = .ident) :
      Spelled (.id name.text) [hash, name]
  | color {t : Token} (kind : t.kind = .hexColor) : Spelled (.id t.tail) [t]
  | pseudoClass {t : Token} (kind : t.kind = .pseudoClass) : Spelled (.pseudoClass t.tail) [t]

inductive SimpleSelector.Attached : List SimpleSelector → List Token → Prop where
  | nil : Attached [] []
  | cons {c : SimpleSelector} {more : List SimpleSelector} {t : Token} {us vs : List Token}
      (touches : t.touches = true) (qualifies : c.qualifies = true) (spelled : c.Spelled (t :: us))
      (others : Attached more vs) : Attached (c :: more) (t :: us ++ vs)

inductive Compound.Spelled : Compound → List Token → Prop where
  | mk {c : SimpleSelector} {more : List SimpleSelector} {us vs : List Token}
      (first : c.Spelled us) (others : SimpleSelector.Attached more vs) :
      Spelled ⟨c :: more⟩ (us ++ vs)

inductive Combinator.Spelled : Combinator → List Token → Prop where
  | descendant : Spelled .descendant []
  | child {t : Token} (kind : t.kind = .greaterThan) : Spelled .child [t]
  | nextSibling {t : Token} (kind : t.kind = .plus) : Spelled .nextSibling [t]
  | laterSibling {t : Token} (kind : t.kind = .tilde) : Spelled .laterSibling [t]

def SelectorPart.isCompound : SelectorPart → Bool
  | .compound _ => true
  | .combinator _ => false

inductive SelectorPart.Chain : List SelectorPart → List Token → Prop where
  | last {c : Compound} {us : List Token} (spelled : c.Spelled us) : Chain [.compound c] us
  | joined {c : Compound} {j : Combinator} {parts : List SelectorPart} {us vs ws : List Token}
      (spelled : c.Spelled us) (sign : j.Spelled vs) (others : Chain parts ws) :
      Chain (.compound c :: .combinator j :: parts) (us ++ (vs ++ ws))

theorem Selector.parts_cons (c d : Compound) (j : Combinator)
    (more : List (Combinator × Compound)) :
    parts ⟨c, (j, d) :: more⟩ = .compound c :: .combinator j :: parts ⟨d, more⟩ := rfl

section Spelling
variable {ts rest : List Token}

theorem Reading.require_kind {kind : Token.Kind} {needed : Needed} {t : Token}
    (read : require kind needed ts = .ok (t, rest)) : ts = t :: rest ∧ t.kind = kind := by
  obtain rfl := require_suffix read
  refine ⟨rfl, ?_⟩
  by_contra other
  simp [require, other] at read

theorem SimpleSelector.qualifier?_spelled {c : SimpleSelector} {t : Token} {us : List Token}
    (read : qualifier? (t :: us) = .ok (some (c, rest))) :
    c.qualifies = true ∧ ∃ vs, us = vs ++ rest ∧ c.Spelled (t :: vs) := by
  rw [qualifier?] at read
  split at read
  case h_1 mark =>
    obtain ⟨⟨n, more⟩, found, same⟩ := map_eq_ok.mp read
    obtain ⟨rfl, rfl⟩ := Prod.mk.inj (Option.some.inj same)
    obtain ⟨rfl, kind⟩ := Reading.require_kind found
    exact ⟨rfl, [n], rfl, .className mark kind⟩
  case h_2 mark =>
    obtain ⟨⟨n, more⟩, found, same⟩ := map_eq_ok.mp read
    obtain ⟨rfl, rfl⟩ := Prod.mk.inj (Option.some.inj same)
    obtain ⟨rfl, kind⟩ := Reading.require_kind found
    exact ⟨rfl, [n], rfl, .id mark kind⟩
  case h_3 kind =>
    obtain ⟨rfl, rfl⟩ := Prod.mk.inj (Option.some.inj (Except.ok.inj read))
    exact ⟨rfl, [], rfl, .color kind⟩
  case h_4 kind =>
    obtain ⟨rfl, rfl⟩ := Prod.mk.inj (Option.some.inj (Except.ok.inj read))
    exact ⟨rfl, [], rfl, .pseudoClass kind⟩
  case h_5 => cases read

theorem SimpleSelector.readQualifiers_spelled {cs : List SimpleSelector}
    (read : readQualifiers ts = .ok (cs, rest)) : ∃ us, ts = us ++ rest ∧ Attached cs us := by
  fun_induction readQualifiers ts generalizing cs rest with
  | case1 | case3 | case6 =>
      obtain ⟨rfl, rfl⟩ := Prod.mk.inj (Except.ok.inj read)
      exact ⟨[], rfl, .nil⟩
  | case2 | case4 => cases read
  | case5 t us touching c left success shorter more left' others ih =>
      obtain ⟨rfl, rfl⟩ := Prod.mk.inj (Except.ok.inj read)
      obtain ⟨qualifies, vs, rfl, spelled⟩ := qualifier?_spelled success
      obtain ⟨ws, rfl, attached⟩ := ih others
      exact ⟨t :: vs ++ ws, by simp, .cons touching qualifies spelled attached⟩

theorem Compound.read_spelled {c : Compound} (read : Compound.read ts = .ok (c, rest)) :
    ∃ us, ts = us ++ rest ∧ c.Spelled us := by
  cases ts with
  | nil => cases read
  | cons t us =>
      simp only [Compound.read] at read
      split at read
      case h_1 => cases read
      case h_2 => cases read
      case h_3 c left first =>
        obtain ⟨⟨more, left'⟩, found, same⟩ := map_eq_ok.mp read
        obtain ⟨rfl, rfl⟩ := Prod.mk.inj same
        have begun : ∃ vs, us = vs ++ left ∧ c.Spelled (t :: vs) := by
          split at first
          case h_1 kind =>
            obtain ⟨rfl, rfl⟩ := Prod.mk.inj (Option.some.inj (Except.ok.inj first))
            exact ⟨[], rfl, .tag kind⟩
          case h_2 kind =>
            obtain ⟨rfl, rfl⟩ := Prod.mk.inj (Option.some.inj (Except.ok.inj first))
            exact ⟨[], rfl, .universal kind⟩
          case h_3 => exact (SimpleSelector.qualifier?_spelled first).2
        obtain ⟨vs, rfl, spelled⟩ := begun
        obtain ⟨ws, rfl, attached⟩ := SimpleSelector.readQualifiers_spelled found
        exact ⟨t :: vs ++ ws, by simp, .mk spelled attached⟩

theorem Combinator.read?_spelled {j : Combinator} (read : read? ts = some (j, rest)) :
    ∃ us, ts = us ++ rest ∧ j.Spelled us := by
  cases ts with
  | nil => cases read
  | cons t us =>
      rw [read?] at read
      split at read
      case h_1 kind =>
        obtain ⟨rfl, rfl⟩ := Prod.mk.inj (Option.some.inj read)
        exact ⟨[t], rfl, .child kind⟩
      case h_2 kind =>
        obtain ⟨rfl, rfl⟩ := Prod.mk.inj (Option.some.inj read)
        exact ⟨[t], rfl, .nextSibling kind⟩
      case h_3 kind =>
        obtain ⟨rfl, rfl⟩ := Prod.mk.inj (Option.some.inj read)
        exact ⟨[t], rfl, .laterSibling kind⟩
      case h_4 =>
        split at read
        case isTrue =>
          obtain ⟨rfl, rfl⟩ := Prod.mk.inj (Option.some.inj read)
          exact ⟨[], rfl, .descendant⟩
        case isFalse => cases read

/-- The further compounds make a chain behind any first one. -/
theorem Selector.readRest_spelled {cs : List (Combinator × Compound)}
    (read : readRest ts = .ok (cs, rest)) : ∃ us, ts = us ++ rest ∧
      ∀ c vs, c.Spelled vs → SelectorPart.Chain (parts ⟨c, cs⟩) (vs ++ us) := by
  fun_induction readRest ts generalizing cs rest with
  | case1 ts nothing =>
      obtain ⟨rfl, rfl⟩ := Prod.mk.inj (Except.ok.inj read)
      refine ⟨[], rfl, fun c vs spelled => ?_⟩
      rw [List.append_nil]
      exact .last spelled
  | case2 | case3 => cases read
  | case4 ts j after sign d left success shorter smaller more left' others ih =>
      obtain ⟨rfl, rfl⟩ := Prod.mk.inj (Except.ok.inj read)
      obtain ⟨us, rfl, joins⟩ := Combinator.read?_spelled sign
      obtain ⟨vs, rfl, next⟩ := Compound.read_spelled success
      obtain ⟨ws, rfl, chain⟩ := ih others
      refine ⟨us ++ (vs ++ ws), by simp, fun c front spelled => ?_⟩
      rw [parts_cons]
      exact .joined spelled joins (chain d vs next)

theorem Selector.read_spelled {s : Selector} (read : Selector.read ts = .ok (s, rest)) :
    ∃ us, ts = us ++ rest ∧ SelectorPart.Chain s.parts us := by
  obtain ⟨left, begun, found⟩ := read_parts read
  obtain ⟨us, rfl, spelled⟩ := Compound.read_spelled begun
  obtain ⟨vs, rfl, chain⟩ := readRest_spelled found
  exact ⟨us ++ vs, by simp, chain s.first us spelled⟩

end Spelling

/-- Not empty, and a tag or `*` at most in the first place. -/
structure Compound.Formed (c : Compound) : Prop where
  some : c.components ≠ []
  behind : ∀ s ∈ c.components.tail, s.qualifies = true

theorem SimpleSelector.Attached.qualify {cs : List SimpleSelector} {us : List Token}
    (attached : Attached cs us) : ∀ c ∈ cs, c.qualifies = true := by
  induction attached with
  | nil => simp
  | cons _ qualifies _ _ ih => exact List.forall_mem_cons.mpr ⟨qualifies, ih⟩

theorem Compound.Spelled.formed {c : Compound} {us : List Token} (spelled : c.Spelled us) :
    c.Formed := by
  obtain ⟨first, others⟩ := spelled
  exact ⟨List.cons_ne_nil _ _, others.qualify⟩

namespace SelectorPart.Chain
variable {parts : List SelectorPart} {us : List Token}

theorem begins (chain : Chain parts us) : ∃ c, parts.head? = some (.compound c) := by
  cases chain with
  | last => exact ⟨_, rfl⟩
  | joined => exact ⟨_, rfl⟩

theorem ends (chain : Chain parts us) : ∃ c, parts.getLast? = some (.compound c) := by
  induction chain with
  | last => exact ⟨_, rfl⟩
  | joined _ _ others ih =>
      obtain ⟨c, last⟩ := ih
      exact ⟨c, by simp [List.getLast?_cons, last]⟩

theorem alternates (chain : Chain parts us) :
    parts.IsChain fun p q => p.isCompound = !q.isCompound := by
  induction chain with
  | last => exact .singleton _
  | joined _ _ others ih =>
      obtain ⟨c, first⟩ := others.begins
      obtain ⟨more, rfl⟩ := List.head?_eq_some_iff.mp first
      exact .cons_cons rfl (.cons_cons rfl ih)

theorem compounds (chain : Chain parts us) : ∀ c, .compound c ∈ parts → c.Formed := by
  induction chain with
  | last spelled =>
      intro c member
      obtain rfl := SelectorPart.compound.inj (List.mem_singleton.mp member)
      exact spelled.formed
  | joined spelled _ _ ih =>
      intro c member
      rcases List.mem_cons.mp member with first | later
      · obtain rfl := SelectorPart.compound.inj first
        exact spelled.formed
      · exact ih c (List.mem_of_ne_of_mem SelectorPart.noConfusion later)

end SelectorPart.Chain

namespace Selector

theorem parts_even (s : Selector) (i : Nat) :
    s.parts[2 * i]? = s.segments[i]?.map fun segment => .compound segment.2 := by
  rw [segments_eq]
  rcases s with ⟨c, more⟩
  induction more generalizing c i with
  | nil => cases i <;> rfl
  | cons next more ih =>
      cases i with
      | zero => rfl
      | succ i =>
          rw [parts_cons, Nat.mul_succ, List.getElem?_cons_succ, List.getElem?_cons_succ, ih]
          cases i <;> rfl

theorem parts_odd (s : Selector) (i : Nat) :
    s.parts[2 * i + 1]? = s.rest[i]?.map fun segment => .combinator segment.1 := by
  rcases s with ⟨c, more⟩
  induction more generalizing c i with
  | nil => cases i <;> rfl
  | cons next more ih =>
      cases i with
      | zero => rfl
      | succ i =>
          rw [parts_cons, Nat.mul_succ, List.getElem?_cons_succ, List.getElem?_cons_succ, ih,
            List.getElem?_cons_succ]

/-- Compounds and combinators alternate, compounds stand at both ends, and every segment is a
compound with the combinator on its left. -/
structure Formed (s : Selector) : Prop where
  begins : ∃ c, s.parts.head? = some (.compound c)
  ends : ∃ c, s.parts.getLast? = some (.compound c)
  alternates : s.parts.IsChain fun p q => p.isCompound = !q.isCompound
  compounds : ∀ c, .compound c ∈ s.parts → c.Formed
  /-- The segments are the compounds, all of them and in order. -/
  listed : ∀ n c, s.parts[n]? = some (.compound c) ↔
    ∃ i j, n = 2 * i ∧ s.segments[i]? = some (j, c)
  leftmost : ∀ j c, s.segments[0]? = some (j, c) → j = .descendant
  signed : ∀ i j c, s.segments[i + 1]? = some (j, c) → s.parts[2 * i + 1]? = some (.combinator j)

theorem formed_of_chain {s : Selector} {us : List Token} (chain : SelectorPart.Chain s.parts us) :
    s.Formed where
  begins := chain.begins
  ends := chain.ends
  alternates := chain.alternates
  compounds := chain.compounds
  listed n c := by
    constructor
    · intro found
      obtain ⟨i, rfl | rfl⟩ : ∃ i, n = 2 * i ∨ n = 2 * i + 1 := ⟨n / 2, by omega⟩
      · rw [parts_even] at found
        obtain ⟨⟨j, d⟩, known, same⟩ := Option.map_eq_some_iff.mp found
        obtain rfl := SelectorPart.compound.inj same
        exact ⟨i, j, rfl, known⟩
      · rw [parts_odd] at found
        obtain ⟨segment, -, same⟩ := Option.map_eq_some_iff.mp found
        cases same
    · rintro ⟨i, j, rfl, known⟩
      rw [parts_even, known]
      rfl
  leftmost j c known := by
    rw [segments_eq] at known
    exact (Prod.mk.inj (Option.some.inj known)).1.symm
  signed i j c known := by
    rw [segments_eq, List.getElem?_cons_succ] at known
    rw [parts_odd, known]
    rfl

end Selector

theorem Token.Commentless.part {cs others : List Char} (none : Commentless cs)
    (inside : others <:+: cs) : Commentless others := List.IsChain.infix none inside

theorem Token.Commentless.free {cs : List Char} (none : Commentless cs) : ¬ ['/', '*'] <:+: cs :=
  fun inside => absurd (none.part inside) (by decide)

theorem Token.excerpt_occurs {cs : List Char} {ts written : List Token} (inside : ts <:+ tokens cs)
    (front : written <+: ts) : excerpt written <:+: cs := by
  obtain ⟨n, m, -, -, same, -⟩ := tokens_excerpt inside front
  rw [same]
  exact (List.take_prefix m _).isInfix.trans (List.drop_suffix n cs).isInfix

/-- What touches the colon belongs to the raw text and is the first value, but the colon does
not. -/
theorem Declaration.read_attached {name next : Token} {ts left : List Token} {d : Declaration}
    (other : next.kind ≠ .colon) (read : Declaration.read (name :: next :: ts) = .ok (d, left)) :
    next.kind = .pseudoClass ∧
      d.raw.toList = next.tail.toList ++ spelling (ts.takeWhile ComponentValue.goesOn) ∧
      d.values.head? = some (.ident next.tail) := by
  rw [Declaration.read] at read
  split at read
  case h_1 => cases read
  case h_2 named =>
    obtain ⟨rfl, rfl⟩ := List.cons.inj (Reading.require_suffix named)
    split at read
    case h_1 t rest touching =>
      obtain ⟨kind, rfl, rfl⟩ : next.kind = .pseudoClass ∧ next = t ∧ ts = rest := by
        grind [attached?]
      obtain ⟨⟨values, after⟩, -, same⟩ := map_eq_ok.mp read
      obtain ⟨rfl, -⟩ := Prod.mk.inj same
      exact ⟨kind, by rw [String.toList_append, String.toList_ofList]; rfl, rfl⟩
    case h_2 => simp [Reading.expect, Reading.require, other] at read

/-- The raw text of a declaration is the source of some tokens, the values of which are its own, or
it is the source of some tokens less the colon of the first one. -/
theorem Declaration.raw_excerpt {cs : List Char} {d : Declaration}
    (found : Reading.Finds Declaration.read (tokens cs) d) :
    ∃ ts written, ts <:+ tokens cs ∧ written <+: ts ∧
      (excerpt written = d.raw.toList ∧ ComponentValue.readAll written = .ok (d.values, []) ∨
        excerpt written = ':' :: d.raw.toList ∧ (∃ t ∈ written.head?, t.kind = .pseudoClass) ∧
          ∃ name, d.values.head? = some (.ident name)) := by
  obtain ⟨name, next, rest, left, inside, read⟩ := stands_of_finds found
  have behind := (List.suffix_cons name (next :: rest)).trans inside
  have front : rest.takeWhile ComponentValue.goesOn <+: rest := List.takeWhile_prefix _
  by_cases colon : next.kind = .colon
  · obtain ⟨raw, values⟩ := read_colon colon read
    exact ⟨rest, _, (List.suffix_cons next rest).trans behind, front,
      .inl ⟨by rw [raw, String.toList_ofList], values⟩⟩
  · obtain ⟨kind, raw, first⟩ := read_attached colon read
    have word := tokensFrom_language [] 0 1 cs next (behind.subset List.mem_cons_self)
    rw [kind] at word
    obtain ⟨text, -, same⟩ := mem_exactly_mul.mp word
    refine ⟨_, next :: rest.takeWhile ComponentValue.goesOn, behind,
      (List.prefix_cons_inj next).mpr front, .inr ⟨?_, ⟨next, rfl, kind⟩, _, first⟩⟩
    -- The text of the token is the colon and the name.
    rw [excerpt, same, raw, tail, same, String.toList_ofList]
    rfl

/-- The raw text of a declaration stands in the text as it is. -/
theorem Declaration.raw_occurs {cs : List Char} {d : Declaration}
    (found : Reading.Finds Declaration.read (tokens cs) d) : d.raw.toList <:+: cs := by
  obtain ⟨ts, written, inside, front, ⟨whole, -⟩ | ⟨whole, -⟩⟩ := raw_excerpt found
  all_goals
    have source := excerpt_occurs inside front
    rw [whole] at source
  · exact source
  · exact (List.suffix_cons ':' _).isInfix.trans source

theorem Selector.readList_some {ts rest : List Token} {selectors : List Selector}
    (read : readList ts = .ok (selectors, rest)) : selectors ≠ [] := by
  fun_induction readList ts with
  | case1 | case3 => cases read
  | case2 | case4 | case5 =>
      obtain ⟨rfl, -⟩ := Prod.mk.inj (Except.ok.inj read)
      exact List.cons_ne_nil _ _

namespace StyleSource

theorem mem_styleRules {source : StyleSource} {rule : StyleRule} :
    rule ∈ source.styleRules ↔ .style rule ∈ source.statements := by
  rw [styleRules, List.mem_filterMap]
  constructor
  · rintro ⟨_ | _ | _ | _, member, same⟩ <;> simp_all
  · intro member
    exact ⟨_, member, rfl⟩

theorem readStatements_selectors {ts : List Token} {statements : List Statement}
    (read : readStatements ts = .ok statements) {rule : StyleRule}
    (styles : .style rule ∈ statements) : rule.selectors ≠ [] := by
  obtain ⟨us, left, begins⟩ := begins_of_mem read styles
  cases begins with
  | style found =>
      obtain ⟨_, selected, -⟩ := StyleRule.read_parts found
      exact Selector.readList_some selected

/-- What the source of a text promises of its selectors, its rules, its keyframes and its raw
texts. -/
structure Formed (text : String) (source : StyleSource) : Prop where
  selectors : ∀ rule ∈ source.styleRules, ∀ s ∈ rule.selectors, s.Formed
  /-- The parts of a selector stand in the text one behind the other. -/
  spelled : ∀ rule ∈ source.styleRules, ∀ s ∈ rule.selectors,
    ∃ us, us <:+: tokens text ∧ SelectorPart.Chain s.parts us
  selected : ∀ rule ∈ source.styleRules, rule.selectors ≠ []
  timed : ∀ rule ∈ source.keyframesRules, ∀ b ∈ rule.blocks,
    b.times ≠ [] ∧ ∀ time ∈ b.times, ∃ v, time.value? = some v ∧ 0 ≤ v ∧ v ≤ 1
  commentless : ∀ statement ∈ source.statements, ∀ d ∈ statement.declarations,
    ¬ ['/', '*'] <:+: d.raw.toList

theorem formed_of_ofText {text : String} {source : StyleSource} (read : ofText text = .ok source) :
    source.Formed text := by
  have timed (rule) (animates : rule ∈ source.keyframesRules) := ofText_timed read animates
  obtain ⟨statements, found, rfl⟩ := map_eq_ok.mp read
  have places := readStatements_finds found
  have spelled (rule) (styles : rule ∈ (mk statements).styleRules) (s)
      (among : s ∈ rule.selectors) : ∃ us, us <:+: tokens text ∧ SelectorPart.Chain s.parts us := by
    obtain ⟨ts, rest, inside, success⟩ := (places _ (mem_styleRules.mp styles)).2 s among
    obtain ⟨us, rfl, chain⟩ := Selector.read_spelled success
    exact ⟨us, (List.prefix_append us rest).isInfix.trans inside.isInfix, chain⟩
  refine ⟨fun rule styles s among => ?_, spelled,
    fun rule styles => readStatements_selectors found (mem_styleRules.mp styles),
    fun rule animates b block => ?_, fun statement member d inside mark => ?_⟩
  · obtain ⟨us, -, chain⟩ := spelled rule styles s among
    exact Selector.formed_of_chain chain
  · obtain ⟨some, within⟩ := timed rule animates b block
    exact ⟨some, fun time member => Binary32.inUnitInterval_iff.mp (within time member)⟩
  · have raw := Declaration.raw_occurs ((places statement member).1 d inside)
    exact (commentless_blankComments false text.toList).free (mark.trans raw)

end StyleSource
end Cascade
