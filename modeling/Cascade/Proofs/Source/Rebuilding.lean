import Cascade.Proofs.Source.Attaching
import Cascade.Proofs.Source.Fitting
import Cascade.Proofs.Source.Numbering
/-!
Values that are read again from their rebuilt text.

The texts of the values, set apart by spaces, are read one after the other: a space leaves nothing
that touches, so no name is called and no comment begins between two of them. A value that is one
word is read as it was. Of a function only the name is written, with two points in parentheses, and
these points are its arguments from then on.
-/
namespace Cascade
open Token Text

theorem Token.spaced_apart {gap : List Char} (some : gap ≠ []) (ts : List Token) :
    Apart (spaced gap ts) := by
  cases ts with
  | nil => simp [Apart, spaced]
  | cons t ts => exact .cons (by simp [touches, some]) ts

namespace ComponentValue

theorem readAll_append {ts more : List Token} {values others : List ComponentValue}
    (first : readAll ts = .ok (values, [])) (apart : Apart more)
    (second : readAll more = .ok (others, [])) :
    readAll (ts ++ more) = .ok (values ++ others, []) := by
  have untouched : ∀ t ∈ more.head?, t.kind = .parenOpen → t.touches = true →
      callable values.reverse = false := fun t next _ touching => by
    rw [apart t next] at touching
    cases touching
  rw [readAll, readFrom_follow ⟨[], []⟩ more first, readFrom_front _ untouched, second,
    List.reverse_reverse]
  rfl

/-- A text that is read as some values, with no quote and no comment open at its end. -/
structure Reads (cs : List Char) (values : List ComponentValue) : Prop where
  closed : QuotesClosed cs
  free : Commentless cs
  read : readAll (tokens cs) = .ok (values, [])

section Reads
variable {cs ds : List Char} {values others : List ComponentValue}

theorem Reads.nil : Reads [] [] := by
  refine ⟨rfl, .nil, ?_⟩
  rw [tokens, tokensFrom]
  rfl

theorem Reads.join (first : Reads cs values) (second : Reads ds others) :
    Reads (cs ++ ' ' :: ds) (values ++ others) where
  closed := by
    rw [QuotesClosed, List.foldl_append, first.closed]
    exact second.closed
  free := by
    have behind : Commentless (' ' :: ds) :=
      List.isChain_cons.mpr ⟨fun _ _ slash => absurd slash (by decide), second.free⟩
    exact first.free.append behind (.inr (by simp))
  read := by
    obtain ⟨gap, some, split⟩ := tokens_break (b := ' ') rfl first.closed ds
    rw [split]
    exact readAll_append first.read (spaced_apart some _)
      (readAll_spaced _ (readAll_moved _ _ second.read))

theorem Reads.ofText {text : String} (reads : Reads text.toList values) :
    ofText text = .ok values := by
  rw [ofText_eq_ok, StyleSource.tokens, withoutComments, blankComments_commentless reads.free]
  exact reads.read

end Reads

theorem readAll_single {t : Token} {value : ComponentValue}
    (found : ofToken? t = some value) : readAll [t] = .ok ([value], []) := by
  have inside : ¬ endsBefore t.kind = true := fun ends => by
    rw [ofToken_barred (endsBefore_barred ends)] at found
    cases found
  have step : (Nesting.mk [] []).Step t ⟨[], [value]⟩ :=
    .single found (fun _ called => nomatch called) fun _ => rfl
  rw [readAll, readFrom_cons ⟨[], []⟩, if_neg inside, Nesting.advance_eq_some.mpr step]
  rfl

/-- A text is one word, no comment begins in it, and its token is a value. -/
structure Word (k : Token.Kind) (text : String) (v : ComponentValue) : Prop where
  word : text.toList ∈ k.language
  free : Commentless text.toList
  found : ofToken? ⟨k, text, [], 0, 1⟩ = some v

section Word
variable {k : Token.Kind} {text : String} {v : ComponentValue}

theorem Word.reads (word : Word k text v) : Reads text.toList [v] where
  closed := word_closed word.word
  free := word.free
  read := by
    rw [tokens_word word.word, String.ofList_toList]
    exact readAll_single word.found

theorem Word.bare (quoteless : k.quote? = none) (slashless : '/' ∉ k.signs)
    (word : text.toList ∈ k.language) (found : ofToken? ⟨k, text, [], 0, 1⟩ = some v) :
    Word k text v where
  word := word
  free := commentless_slashless fun member => slashless (sign_of_mem quoteless word rfl member)
  found := found

theorem Word.number {n : Binary32} (finite : n.isFinite = true) :
    Word .number n.text (.number n) := by
  obtain ⟨word, value⟩ := Binary32.text_reads finite
  exact .bare rfl (by decide) word (by simp [ofToken?, value])

theorem Word.dimension {n : Binary32} {unit : String} (finite : n.isFinite = true)
    (letters : unit.toList ∈ units) : Word .dimension (n.text ++ unit) (.dimension n unit) := by
  obtain ⟨number, value⟩ := Binary32.text_reads finite
  have measured : measure ⟨.dimension, n.text ++ unit, [], 0, 1⟩ = (n.text.toList, unit.toList) :=
    measure_eq number letters String.toList_append
  refine .bare rfl (by decide) ?_ (by simp [ofToken?, measured, value])
  rw [String.toList_append, dimension_language]
  exact Language.append_mem_mul number letters

/-- Quotes go around a text that holds none. -/
theorem Word.string (free : Commentless text.toList) (plain : '"' ∉ text.toList) :
    Word .doubleQuoted ("\"" ++ text ++ "\"") (.string text) := by
  have quoted : ("\"" ++ text ++ "\"").toList = '"' :: (text.toList ++ ['"']) := by simp
  have closing : Commentless ['"'] := by decide
  refine ⟨?_, ?_, by simp [ofToken?, Token.inner, quoted]⟩
  · rw [quoted]
    exact mem_between.mpr ⟨_, rfl, plain⟩
  · rw [quoted]
    exact List.isChain_cons.mpr ⟨fun _ _ slash => absurd slash (by decide),
      free.append closing (.inr (by simp))⟩

end Word

def points : List ComponentValue := [.delimiter ".", .delimiter "."]

def abridged : ComponentValue → ComponentValue
  | .function name _ => .function name points
  | v => v

theorem abridged_eq_self {v : ComponentValue} : v.abridged = v ↔
    ∀ name arguments, v = .function name arguments → arguments = points := by
  cases v <;> simp [abridged, eq_comm]

/-- Numbers are finite, and quotes can go around a text. -/
def Writable : ComponentValue → Prop
  | .number n | .dimension n _ => n.isFinite = true
  | .string text => '"' ∉ text.toList
  | _ => True

section Single
variable {v : ComponentValue} {t : Token}

/-- A function is written as its name and two points in parentheses. -/
theorem Reads.call {name : String} (word : name.toList ∈ Kind.ident.language) :
    Reads (name ++ "(..)").toList [.function name points] where
  closed := by
    rw [String.toList_append, QuotesClosed, List.foldl_append, word_closed word]
    rfl
  free := by
    have named : Word .ident name (.ident name) := .bare rfl (by decide) word rfl
    have call : Commentless "(..)".toList := by decide
    rw [String.toList_append]
    exact named.free.append call (.inr (by decide))
  read := by
    have behind : tokensFrom [] 1 1 ['(', '.', '.', ')'] =
        [⟨.parenOpen, "(", [], 1, 1⟩, ⟨.dot, ".", [], 2, 1⟩, ⟨.dot, ".", [], 3, 1⟩,
          ⟨.parenClose, ")", [], 4, 1⟩] := by
      cbv
    have split : tokens (name ++ "(..)").toList = ⟨.ident, name, [], 0, 1⟩ ::
        tokensFrom [] 1 1 ['(', '.', '.', ')'] := by
      rw [String.toList_append, tokens]
      exact (tokensFrom_ident _ _ _ word (.cons rfl _)).trans (by rw [String.ofList_toList]; rfl)
    rw [split, behind]
    rfl

/-- A value that one token spells is read again from what is written for it. -/
theorem Spells.reads (spells : Spells v t) (word : t.text.toList ∈ t.kind.language)
    (free : Commentless t.text.toList) (writable : v.Writable) : Reads v.rebuilt.toList [v] := by
  cases v with
  | ident name =>
      obtain ⟨kind, rfl⟩ := spells
      exact Word.reads ⟨kind ▸ word, free, rfl⟩
  | number n => exact (Word.number writable).reads
  | dimension n unit => exact (Word.dimension writable spells.2.1).reads
  | color digits =>
      obtain ⟨kind, text⟩ := spells
      rw [text] at word free
      rw [kind] at word
      exact Word.reads ⟨word, free, by simp [ofToken?, Token.tail, rebuilt]⟩
  | string text =>
      have inside : text.toList <:+: t.text.toList := by
        rcases spells with ⟨-, same⟩ | ⟨-, same⟩ <;>
          exact ⟨_, _, by rw [same, String.toList_append, String.toList_append]⟩
      exact (Word.string (free.part inside) writable).reads
  | comma => exact Word.reads (k := .comma) ⟨rfl, by decide, rfl⟩
  | delimiter sign =>
      obtain ⟨kind, rfl⟩ := spells
      refine Word.reads ⟨word, free, ?_⟩
      cases same : t.kind <;> rw [same] at kind <;> first | rfl | cases kind
  | function name arguments => cases spells

end Single

theorem mem_flattenAll {values : List ComponentValue} {v : ComponentValue} (member : v ∈ values) :
    ∀ w ∈ v.flatten, w ∈ flattenAll values := by
  intro w inside
  induction member with
  | head => exact List.mem_append_left _ inside
  | tail _ _ ih => exact List.mem_append_right _ ih

section Text
variable {text : String} {values : List ComponentValue} (read : ofText text = .ok values)
include read

/-- Behind every value, token by token, is a token that spells it, and no comment begins in it. -/
theorem spelled_of_mem {w : ComponentValue} (member : w ∈ flattenAll values) :
    ∃ t, Spells w t ∧ t.text.toList ∈ t.kind.language ∧ Commentless t.text.toList := by
  have words := tokensFrom_language [] 0 1 (withoutComments text.toList)
  obtain ⟨used, spelled, whole, all, same⟩ := readFrom_spells ⟨[], []⟩ words (ofText_eq_ok.mp read)
  obtain rfl : flattenAll values = spelled := same
  obtain ⟨i, rfl⟩ := List.get_of_mem member
  have among : used.get ⟨i, all.length_eq ▸ i.isLt⟩ ∈ tokens (withoutComments text.toList) := by
    rw [tokens, whole, List.append_nil]
    exact List.get_mem _ _
  obtain ⟨before, after, split⟩ := List.append_of_mem among
  have front := token_prefix split
  have source : (used.get ⟨i, all.length_eq ▸ i.isLt⟩).text.toList <:+:
      withoutComments text.toList :=
    (List.suffix_append _ _).isInfix.trans front.isInfix
  exact ⟨_, all.get i.isLt _, words _ among,
    (commentless_blankComments false text.toList).part source⟩

/-- Every value of a text is read again, a function without its arguments. -/
theorem reads_of_mem {v : ComponentValue} (member : v ∈ values) (writable : v.Writable) :
    Reads v.rebuilt.toList [v.abridged] := by
  cases call : v with
  | function name arguments =>
      subst call
      have named : .ident name ∈ flattenAll values := mem_flattenAll member _ (.head _)
      obtain ⟨t, ⟨kind, rfl⟩, word, -⟩ := spelled_of_mem read named
      exact .call (kind ▸ word)
  | _ =>
      subst call
      obtain ⟨t, spells, word, free⟩ :=
        spelled_of_mem read (mem_flattenAll member _ (.head _))
      exact spells.reads word free writable

end Text

theorem Reads.intercalate {values : List ComponentValue}
    (each : ∀ v ∈ values, Reads v.rebuilt.toList [v.abridged]) :
    Reads (" ".intercalate (values.map rebuilt)).toList (values.map abridged) := by
  rw [String.toList_intercalate]
  induction values with
  | nil => exact .nil
  | cons v rest ih =>
      obtain ⟨here, others⟩ := List.forall_mem_cons.mp each
      cases rest with
      | nil => simpa using here
      | cons next rest =>
          have joined := here.join (ih others)
          simpa [List.intercalate_cons_cons] using joined

/-- The raw text of a declaration that is made from the values of a text is read as these values,
each function with two points for its arguments. So it is read as the values themselves just when
no function has other arguments than two points. -/
theorem ofText_rebuilt (text property : String) (important : Bool) {values : List ComponentValue}
    (read : ofText text = .ok values) (writable : ∀ v ∈ values, v.Writable) :
    ofText (Declaration.ofValues property values important).raw = .ok (values.map abridged) ∧
      (ofText (Declaration.ofValues property values important).raw = .ok values ↔
        ∀ name arguments, .function name arguments ∈ values → arguments = points) := by
  have again : ofText (Declaration.ofValues property values important).raw =
      .ok (values.map abridged) :=
    (Reads.intercalate fun v member => reads_of_mem read member (writable v member)).ofText
  refine ⟨again, ?_⟩
  have same : values.map abridged = values ↔ ∀ v ∈ values, v.abridged = v := by
    simpa using List.map_inj_left (l := values) (f := abridged) (g := id)
  rw [again, Except.ok.injEq, same]
  simp only [abridged_eq_self]
  exact ⟨fun each name arguments member => each _ member name arguments rfl,
    fun each v member name arguments call => each name arguments (call ▸ member)⟩

/-- A function, a single-quoted text and a parenthesis that calls nothing. -/
theorem ofText_rebuilt_mixed :
    let values := [.function "fade" [.ident "in"], .comma, .string "a b", .delimiter "(",
      .delimiter ":y"]
    ofText "fade(in),'a b' (:y" = .ok values ∧
      ofText (Declaration.ofValues "decorator" values false).raw =
        .ok [.function "fade" points, .comma, .string "a b", .delimiter "(", .delimiter ":y"] := by
  intro values
  have split : StyleSource.tokens "fade(in),'a b' (:y" =
      [⟨.ident, "fade", [], 0, 1⟩, ⟨.parenOpen, "(", [], 1, 1⟩, ⟨.ident, "in", [], 2, 1⟩,
        ⟨.parenClose, ")", [], 3, 1⟩, ⟨.comma, ",", [], 4, 1⟩, ⟨.singleQuoted, "'a b'", [], 5, 1⟩,
        ⟨.parenOpen, "(", [' '], 6, 1⟩, ⟨.pseudoClass, ":y", [], 7, 1⟩] := by
    cbv
  have read : ofText "fade(in),'a b' (:y" = .ok values := by
    rw [ofText_eq_ok, split]
    rfl
  refine ⟨read, (ofText_rebuilt _ "decorator" false read ?_).1⟩
  simp [values, Writable]

theorem ofText_blur : ∃ n, n.isFinite = true ∧
    ofText "blur(2px)" = .ok [.function "blur" [.dimension n "px"]] := by
  have split : StyleSource.tokens "blur(2px)" =
      [⟨.ident, "blur", [], 0, 1⟩, ⟨.parenOpen, "(", [], 1, 1⟩, ⟨.dimension, "2px", [], 2, 1⟩,
        ⟨.parenClose, ")", [], 3, 1⟩] := by
    cbv
  have measured : measure ⟨.dimension, "2px", [], 2, 1⟩ = (['2'], ['p', 'x']) := by decide
  have value : ∃ n, Binary32.ofText? ['2'] = some n ∧ n.isFinite = true := ⟨_, rfl, rfl⟩
  obtain ⟨n, two, finite⟩ := value
  refine ⟨n, finite, ?_⟩
  rw [ofText_eq_ok, split]
  simp [readAll, readFrom, ofToken?, endsBefore, touches, measured, two]

/-- The length in a function is not read again. -/
theorem not_rebuilt_blur : ¬ ∀ (text property : String) (important : Bool)
    (values : List ComponentValue), ofText text = .ok values →
      (∀ v ∈ flattenAll values, v.Writable) →
        ofText (Declaration.ofValues property values important).raw = .ok values := by
  intro every
  obtain ⟨n, finite, read⟩ := ofText_blur
  have same := every _ "decorator" false _ read (by simp [flattenAll, flatten, Writable, finite])
  have raw : (Declaration.ofValues "decorator" [.function "blur" [.dimension n "px"]] false).raw =
      "blur(..)" := rfl
  have word : "blur".toList ∈ Kind.ident.language := by decide
  have again := (Reads.call word).ofText
  rw [raw] at same
  cases same.symm.trans again

end ComponentValue
end Cascade
