import Cascade.Proofs.Source.Joining
import Cascade.Proofs.Source.Respelling
/-!
Identifiers as id selectors.

An id is a hash and a name. A name that begins with hexadecimal digits begins a colour behind the
hash, and a colour is an id by itself: so a name is the id when it begins no colour, or when the
colour takes up all of it.
-/
namespace Cascade
open Token Text

/-- A rule of an id has just that id for its selector. -/
def StyleSource.Identifies (x : String) : Prop :=
  ∃ declarations line, ofText ("#" ++ x ++ " \x7b \x7d") =
    .ok ⟨[.style ⟨[⟨⟨[.id x]⟩, []⟩], declarations, line⟩]⟩

/-- No colour begins behind a hash, or one that takes up the whole name. -/
def Token.IdWhole (name : List Char) : Prop :=
  runLength isHexDigit name < 3 ∨ name.length ≤ 8 ∧ name.all isHexDigit = true

instance (name : List Char) : Decidable (IdWhole name) := inferInstanceAs (Decidable (_ ∨ _))

section Reading
variable {t o c : Token} {rest left : List Token} {x : String}

theorem SimpleSelector.readQualifiers_brace (brace : o.kind = .braceOpen) (rest : List Token) :
    readQualifiers (o :: rest) = .ok ([], o :: rest) := by
  simp [readQualifiers_cons, qualifier?, brace]

theorem Selector.readRest_brace (brace : o.kind = .braceOpen) (rest : List Token) :
    readRest (o :: rest) = .ok ([], o :: rest) := by
  simp [readRest_eq, Combinator.read?, Compound.canBegin, brace]

-- A colour or a hash begins a compound with an id.
theorem Compound.read_id (begins : t.kind = .hexColor ∨ t.kind = .hash)
    (first : SimpleSelector.qualifier? (t :: rest) = .ok (some (.id x, left)))
    (alone : SimpleSelector.readQualifiers left = .ok ([], left)) :
    Compound.read (t :: rest) = .ok (⟨[.id x]⟩, left) := by
  rcases begins with kind | kind <;> simp [Compound.read, kind, first, alone, Except.map]

theorem StyleSource.readStatements_id (begins : t.kind = .hexColor ∨ t.kind = .hash)
    (opens : o.kind = .braceOpen) (closes : c.kind = .braceClose)
    (first : SimpleSelector.qualifier? (t :: rest) = .ok (some (.id x, [o, c]))) :
    readStatements (t :: rest) = .ok [.style ⟨[⟨⟨[.id x]⟩, []⟩], [], t.line⟩] := by
  have selector : Selector.read (t :: rest) = .ok (⟨⟨[.id x]⟩, []⟩, [o, c]) := by
    have alone := SimpleSelector.readQualifiers_brace opens [c]
    simp [Selector.read, Compound.read_id begins first alone, Selector.readRest_brace opens,
      Except.map]
  have selectors := Selector.readList_last selector (by simp [opens])
  have statement : Statement.read (t :: rest) =
      .ok (some (.style ⟨[⟨⟨[.id x]⟩, []⟩], [], t.line⟩), []) := by
    rcases begins with kind | kind <;>
      simp [Statement.read, StyleRule.read, kind, selectors, Declaration.readBlock,
        Declaration.readList_cons, Reading.expect, Reading.require, opens, closes, Except.map]
  have whole := readStatements_step statement (by rw [readStatements])
  exact whole

theorem Compound.read_color (color : t.kind = .hexColor) {compound : Compound}
    (read : Compound.read (t :: rest) = .ok (compound, left)) :
    compound.components.head? = some (.id t.tail) := by
  have first : SimpleSelector.qualifier? (t :: rest) = .ok (some (.id t.tail, rest)) := by
    simp [SimpleSelector.qualifier?, color]
  simp only [Compound.read, color, first] at read
  obtain ⟨_, -, same⟩ := map_eq_ok.mp read
  obtain ⟨rfl, -⟩ := Prod.mk.inj same
  rfl

theorem Selector.read_color (color : t.kind = .hexColor) {selector : Selector}
    (read : Selector.read (t :: rest) = .ok (selector, left)) :
    selector.first.components.head? = some (.id t.tail) := by
  obtain ⟨after, begun, -⟩ := read_parts read
  exact Compound.read_color color begun

theorem Selector.readList_color (color : t.kind = .hexColor) {selectors : List Selector}
    (read : readList (t :: rest) = .ok (selectors, left)) :
    ∃ first more, selectors = first :: more ∧
      first.first.components.head? = some (.id t.tail) := by
  rw [readList_eq] at read
  split at read
  case h_1 => cases read
  case h_2 first begun =>
    obtain ⟨rfl, -⟩ := Prod.mk.inj (Except.ok.inj read)
    exact ⟨first, [], rfl, read_color color begun⟩
  case h_3 first next after begun =>
    split at read
    · split at read
      · cases read
      · obtain ⟨rfl, -⟩ := Prod.mk.inj (Except.ok.inj read)
        exact ⟨first, _, rfl, read_color color begun⟩
    · obtain ⟨rfl, -⟩ := Prod.mk.inj (Except.ok.inj read)
      exact ⟨first, [], rfl, read_color color begun⟩

theorem StyleSource.readStatements_color (color : t.kind = .hexColor)
    {declarations : List Declaration} {line : Nat}
    (read : readStatements (t :: rest) =
      .ok [.style ⟨[⟨⟨[.id x]⟩, []⟩], declarations, line⟩]) : x = t.tail := by
  rw [readStatements_cons, Statement.read, if_neg (by simp [color]), StyleRule.read] at read
  cases selected : Selector.readList (t :: rest) with
  | error e => simp [selected, Except.map] at read
  | ok result =>
      obtain ⟨first, more, selectors, head⟩ := Selector.readList_color color selected
      cases block : Declaration.readBlock result.2 with
      | error e => simp [selected, block, Except.map] at read
      | ok inner =>
          simp only [selected, block, Except.map] at read
          split at read
          case h_1 => cases read
          case h_2 others done =>
            obtain ⟨same, -⟩ := List.cons.inj (Except.ok.inj read)
            have equal := congrArg StyleRule.selectors (Statement.style.inj same)
            obtain ⟨rfl, -⟩ := List.cons.inj (selectors.symm.trans equal)
            exact SimpleSelector.id.inj (Option.some.inj head)

end Reading

section Words
variable {xs : List Char}

theorem Token.slashless_ident (name : xs ∈ Kind.ident.language) : '/' ∉ xs :=
  fun member => nomatch sign_of_mem rfl name rfl member

theorem Token.closed_id (name : xs ∈ Kind.ident.language) : QuotesClosed ('#' :: xs) := by
  refine foldl_quoteStep (List.forall_mem_cons.mpr ⟨rfl, fun c member => ?_⟩)
  exact isPlain_quote (plain_word (k := .ident) rfl xs name c member)

/-- The tokens of an id and an empty block. -/
theorem StyleSource.tokens_id {x : String} (name : x.toList ∈ Kind.ident.language) :
    ∃ o c, o.kind = .braceOpen ∧ c.kind = .braceClose ∧
      tokens ("#" ++ x ++ " \x7b \x7d") = Token.tokens ('#' :: x.toList) ++ [o, c] := by
  have whole : withoutComments ("#" ++ x ++ " \x7b \x7d").toList =
      '#' :: x.toList ++ ' ' :: ['\x7b', ' ', '\x7d'] := by
    have slashless : '/' ∉ '#' :: x.toList ++ ' ' :: ['\x7b', ' ', '\x7d'] := by
      simpa using slashless_ident name
    rw [withoutComments, ← blankComments_commentless (commentless_slashless slashless)]
    simp
  obtain ⟨gap, -, split⟩ := tokens_break (b := ' ') rfl (closed_id name) ['\x7b', ' ', '\x7d']
  have block : Token.tokens ['\x7b', ' ', '\x7d'] =
      [⟨.braceOpen, "\x7b", [], 0, 1⟩, ⟨.braceClose, "\x7d", [' '], 1, 1⟩] := by
    cbv
  rw [block] at split
  exact ⟨_, _, rfl, rfl, by rw [tokens, whole, split]; rfl⟩

theorem Token.tokens_hash (name : xs ∈ Kind.ident.language)
    (short : runLength isHexDigit xs < 3) : Token.tokens ('#' :: xs) =
      [⟨.hash, "#", [], 0, 1⟩, ⟨.ident, String.ofList xs, [], 1, 1⟩] := by
  have hash : extent? '#' xs = some (.hash, 0) := by
    rw [extent_hash, if_neg]
    omega
  cases xs with
  | nil => exact absurd name nil_not_word
  | cons c v =>
      rw [Token.tokens, tokensFrom_token _ _ _ hash, List.drop_zero,
        tokensFrom_token _ _ _ (mem_language_iff.mp name), List.take_length, List.drop_length,
        tokensFrom]
      rfl

theorem Token.tokens_color (long : 3 ≤ runLength isHexDigit xs) : ∃ line, Token.tokens ('#' :: xs) =
    ⟨.hexColor, String.ofList ('#' :: xs.take (min 8 (runLength isHexDigit xs))), [], 0, 1⟩ ::
      tokensFrom [] 1 line (xs.drop (min 8 (runLength isHexDigit xs))) := by
  have color : extent? '#' xs = some (.hexColor, min 8 (runLength isHexDigit xs)) := by
    rw [extent_hash, if_pos]
    omega
  exact ⟨_, by rw [Token.tokens, tokensFrom_token _ _ _ color]; rfl⟩

theorem Token.run_all (all : xs.all isHexDigit = true) :
    runLength isHexDigit xs = xs.length := by
  have run : runLength isHexDigit (xs ++ []) = xs.length :=
    run_append (List.all_eq_true.mp all) (by simp)
  rwa [List.append_nil] at run

end Words

namespace StyleSource
variable {x : String}

theorem identifies_of_first {t o c : Token} {rest : List Token}
    (split : tokens ("#" ++ x ++ " \x7b \x7d") = t :: rest)
    (begins : t.kind = .hexColor ∨ t.kind = .hash) (opens : o.kind = .braceOpen)
    (closes : c.kind = .braceClose)
    (first : SimpleSelector.qualifier? (t :: rest) = .ok (some (.id x, [o, c]))) :
    Identifies x := by
  refine ⟨[], t.line, ?_⟩
  rw [ofText, split, readStatements_id begins opens closes first]
  rfl

theorem identifies_whole (name : x.toList ∈ Kind.ident.language) (whole : IdWhole x.toList) :
    Identifies x := by
  obtain ⟨o, c, opens, closes, split⟩ := tokens_id name
  by_cases short : runLength isHexDigit x.toList < 3
  · rw [tokens_hash name short, String.ofList_toList] at split
    exact identifies_of_first split (.inr rfl) opens closes rfl
  · obtain ⟨few, all⟩ := whole.resolve_left short
    obtain ⟨line, front⟩ := tokens_color (Nat.le_of_not_lt short)
    rw [run_all all, Nat.min_eq_right few, List.take_length, List.drop_length, tokensFrom] at front
    rw [front] at split
    refine identifies_of_first split (.inl rfl) opens closes ?_
    simp [SimpleSelector.qualifier?, Token.tail]

theorem whole_of_identifies (name : x.toList ∈ Kind.ident.language) (identifies : Identifies x) :
    IdWhole x.toList := by
  by_contra cut
  rw [IdWhole, not_or] at cut
  obtain ⟨o, c, -, -, split⟩ := tokens_id name
  obtain ⟨_, front⟩ := tokens_color (Nat.le_of_not_lt cut.1)
  obtain ⟨declarations, line, read⟩ := identifies
  obtain ⟨statements, done, same⟩ := map_eq_ok.mp read
  obtain rfl := StyleSource.mk.inj same
  rw [split, front] at done
  have equal := congrArg String.toList (readStatements_color rfl done)
  simp only [Token.tail, String.toList_ofList, List.drop_one, List.tail_cons] at equal
  have length := congrArg List.length equal
  rw [List.length_take] at length
  -- The colour took up all of the name.
  have all := mem_run.mp (Begins.run isHexDigit x.toList).word
  rw [List.take_of_length_le (by omega)] at all
  exact cut.2 ⟨by omega, List.all_eq_true.mpr all⟩

/-- An identifier is the id behind a hash exactly when it begins no colour or is one as a whole. -/
theorem identifies_iff (name : x.toList ∈ Kind.ident.language) :
    Identifies x ↔ IdWhole x.toList :=
  ⟨whole_of_identifies name, identifies_whole name⟩

/-- A name that is one colour, and two that begin with fewer than three hexadecimal digits. -/
theorem identifies_face : Identifies "face" ∧ Identifies "ad-box" ∧ Identifies "exit" :=
  ⟨(identifies_iff (by decide)).mpr (by decide),
    (identifies_iff (by decide)).mpr (by decide),
    (identifies_iff (by decide)).mpr (by decide)⟩

/-- The first four letters of this name are a colour. -/
theorem not_identifies_default :
    "default".toList ∈ Kind.ident.language ∧ ¬ Identifies "default" := by
  have name : "default".toList ∈ Kind.ident.language := by decide
  refine ⟨name, fun identifies => ?_⟩
  have cut : ¬ IdWhole "default".toList := by decide
  exact cut (whole_of_identifies name identifies)

end StyleSource
end Cascade
