import Cascade.Proofs.Source.Flattening
import Cascade.Proofs.Source.Locating
/-!
The raw text of a declaration and its values.

The source from one token to the end of another has the tokens between them again, and no comment
begins in it. Values do not depend on where they stand, on what was dropped before the first of
them or on what they end before. So the raw text of a declaration reads as its values.
-/
namespace Cascade
open Token

section Excerpts
variable {cs : List Char} {ts written : List Token}

def Token.flush : List Token → List Token
  | [] => []
  | t :: rest => { t with gap := [] } :: rest

theorem Token.spelling_flush (ts : List Token) : spelling (flush ts) = excerpt ts := by
  cases ts <;> simp [flush, spelling, excerpt]

theorem Token.length_flush (ts : List Token) : (flush ts).length = ts.length := by
  cases ts <;> rfl

theorem Token.take_flush (n : Nat) (ts : List Token) :
    (flush ts).take n = flush (ts.take n) := by
  cases ts <;> cases n <;> rfl

/-- From any of its tokens on a text has the tokens that it has by itself from there on. -/
theorem Token.tokensFrom_drop (gap : List Char) (position line : Nat) (cs : List Char) (n : Nat) :
    ∃ m places lines, tokensFrom [] (position + places) (line + lines) (cs.drop m) =
      flush ((tokensFrom gap position line cs).drop n) := by
  fun_induction tokensFrom gap position line cs generalizing n with
  | case1 => exact ⟨0, 0, 0, by simp [tokensFrom, flush]⟩
  | case2 gap position line c rest kind more found ih =>
      cases n with
      | zero => exact ⟨0, 0, 0, tokensFrom_token _ _ _ found⟩
      | succ n =>
          obtain ⟨m, places, lines, same⟩ := ih n
          refine ⟨more + m + 1, 1 + places, newlines (c :: rest.take more) + lines, ?_⟩
          rw [List.drop_succ_cons, List.drop_succ_cons, ← List.drop_drop, ← same, Nat.add_assoc,
            Nat.add_assoc]
  | case3 gap position line c rest => exact ⟨rest.length + 1, 0, 0, by simp [tokensFrom, flush]⟩
  | case4 gap position line c rest found plain ih =>
      obtain ⟨m, places, lines, same⟩ := ih n
      simp only [dite_eq_ite, ← newline_step] at same ⊢
      refine ⟨m + 1, places, newlines [c] + lines, ?_⟩
      rw [List.drop_succ_cons, ← same, Nat.add_assoc]

/-- An excerpt has the tokens that it was taken from, further to the front. -/
theorem Token.tokens_excerpt (inside : ts <:+ tokens cs) (front : written <+: ts) :
    ∃ n m places lines, excerpt written = (cs.drop n).take m ∧
      (tokens (excerpt written)).map (.moved places lines) = flush written := by
  obtain ⟨before, whole⟩ := inside
  obtain ⟨n, places, lines, same⟩ := tokensFrom_drop [] 0 1 cs before.length
  rw [← Token.tokens, ← whole, List.drop_left] at same
  rw [List.prefix_iff_eq_take] at front
  have few : written.length ≤ (flush ts).length := by
    rw [length_flush, front]
    exact List.length_take_le' _ _
  rw [← same] at few
  obtain ⟨m, text, again⟩ := tokensFrom_take [] _ _ (cs.drop n) (fun _ => rfl) few
  rw [same, take_flush, ← front] at text again
  rw [spelling_flush] at text
  refine ⟨n, m, places, lines, text.symm, ?_⟩
  have moved := tokensFrom_moved [] [] 0 1 places lines (excerpt written)
  rw [List.reverse_nil, spaced_nil] at moved
  rw [tokens, ← moved, ← again, ← text]
  rfl

end Excerpts

namespace ComponentValue
variable {ts left : List Token} {values : List ComponentValue}

def goesOn (t : Token) : Bool := !endsBefore t.kind

/-- What values end before is not needed to read them. -/
theorem readFrom_takeWhile (s : Nesting)
    (read : readFrom s.outer s.current ts = .ok (values, left)) :
    readFrom s.outer s.current (ts.takeWhile goesOn) = .ok (values, []) := by
  induction ts generalizing s with
  | nil =>
      rw [readFrom_nil] at read
      rw [List.takeWhile_nil, readFrom_nil]
      split at read
      case isTrue closed =>
        obtain ⟨rfl, -⟩ := Prod.mk.inj (Except.ok.inj read)
        rw [if_pos closed]
      case isFalse => cases read
  | cons t ts ih =>
      rw [readFrom_cons] at read
      split at read
      case isTrue ends =>
        split at read
        case isTrue closed =>
          obtain ⟨rfl, -⟩ := Prod.mk.inj (Except.ok.inj read)
          rw [List.takeWhile_cons_of_neg (by simp [goesOn, ends]), readFrom_nil, if_pos closed]
        case isFalse => cases read
      case isFalse inside =>
        split at read
        case h_1 next advanced =>
          rw [List.takeWhile_cons_of_pos (by simp [goesOn, inside]), readFrom_cons, if_neg inside,
            advanced]
          exact ih next read
        case h_2 => cases read

/-- What was dropped before the first value is not needed to read it. -/
theorem readAll_gap {t : Token} (gap : List Char)
    (read : readAll (t :: ts) = .ok (values, [])) :
    readAll ({ t with gap } :: ts) = .ok (values, []) := by
  have same : (Nesting.mk [] []).advance { t with gap } = (Nesting.mk [] []).advance t := by
    rcases t with ⟨kind, text, before, position, line⟩
    cases kind <;> rfl
  rw [readAll, readFrom_cons ⟨[], []⟩] at read
  rw [readAll, readFrom_cons ⟨[], []⟩, same]
  split at read
  case isTrue ends => cases read
  case isFalse inside =>
    rw [if_neg inside]
    split at read
    case h_1 next advanced => exact read
    case h_2 => cases read

theorem readAll_flush (read : readAll ts = .ok (values, [])) :
    readAll (flush ts) = .ok (values, []) := by
  cases ts with
  | nil => exact read
  | cons t ts => exact readAll_gap [] read

end ComponentValue

/-- In some tokens the declaration stands from a name on, with this token behind the name. -/
def Declaration.Stands (ts : List Token) (name next : Token) (d : Declaration) : Prop :=
  ∃ rest left, name :: next :: rest <:+ ts ∧ Declaration.read (name :: next :: rest) = .ok (d, left)

theorem Declaration.stands_of_finds {ts : List Token} {d : Declaration}
    (found : Reading.Finds Declaration.read ts d) : ∃ name next, Stands ts name next d := by
  obtain ⟨us, rest, inside, read⟩ := found
  have whole := read
  rw [Declaration.read] at read
  split at read
  case h_1 => cases read
  case h_2 name left named =>
    obtain rfl := Reading.require_suffix named
    cases left with
    | nil => cases read
    | cons next others => exact ⟨name, next, others, rest, inside, whole⟩

/-- Behind a colon the raw text is the source of the values. -/
theorem Declaration.read_colon {name colon : Token} {ts left : List Token} {d : Declaration}
    (kind : colon.kind = .colon) (read : Declaration.read (name :: colon :: ts) = .ok (d, left)) :
    d.raw = String.ofList (excerpt (ts.takeWhile ComponentValue.goesOn)) ∧
      ComponentValue.readAll (ts.takeWhile ComponentValue.goesOn) = .ok (d.values, []) := by
  rw [Declaration.read] at read
  split at read
  case h_1 => cases read
  case h_2 named =>
    obtain ⟨rfl, rfl⟩ := List.cons.inj (Reading.require_suffix named)
    simp only [attached?, kind, Reading.expect, Reading.require] at read
    obtain ⟨⟨values, after⟩, found, same⟩ := map_eq_ok.mp read
    obtain ⟨rfl, -⟩ := Prod.mk.inj same
    exact ⟨rfl, ComponentValue.readFrom_takeWhile ⟨[], []⟩ found⟩

/-- Values that were read from an excerpt are the values of its text. -/
theorem ComponentValue.ofText_excerpt {text : String} {ts written : List Token}
    {values : List ComponentValue} (inside : ts <:+ StyleSource.tokens text)
    (front : written <+: ts) (read : readAll written = .ok (values, [])) :
    ofText (String.ofList (excerpt written)) = .ok values := by
  obtain ⟨n, m, places, lines, part, same⟩ := tokens_excerpt inside front
  have commentless : Commentless (excerpt written) := by
    rw [part]
    exact ((commentless_blankComments false text.toList).drop n).take m
  have moved := readFrom_moved places lines [] [] (Token.tokens (excerpt written))
  have flushed := readAll_flush read
  rw [same, ← readAll, flushed] at moved
  rw [ofText_eq_ok, StyleSource.tokens, String.toList_ofList, withoutComments,
    blankComments_commentless commentless, readAll]
  cases result : readFrom [] [] (Token.tokens (excerpt written)) with
  | error e =>
      rw [result] at moved
      cases moved
  | ok found =>
      rw [result] at moved
      obtain ⟨rfl, none⟩ := Prod.mk.inj (Except.ok.inj moved)
      rw [← List.map_eq_nil_iff.mp none.symm]
      rfl

/-- Every declaration of a source stands somewhere in it, and wherever it stands behind a colon its
raw text reads as its values. -/
theorem StyleSource.ofText_raw {text : String} {source : StyleSource}
    (read : ofText text = .ok source) :
    ∀ statement ∈ source.statements, ∀ d ∈ statement.declarations,
      (∃ name next, Declaration.Stands (tokens text) name next d) ∧
      ∀ name next, Declaration.Stands (tokens text) name next d → next.kind = .colon →
        ComponentValue.ofText d.raw = .ok d.values := by
  obtain ⟨statements, found, rfl⟩ := map_eq_ok.mp read
  intro statement member d inside
  have place := (readStatements_finds found statement member).1 d inside
  refine ⟨Declaration.stands_of_finds place, ?_⟩
  rintro name next ⟨rest, left, behind, success⟩ colon
  obtain ⟨raw, values⟩ := Declaration.read_colon colon success
  have after : rest <:+ tokens text :=
    ((List.suffix_cons next rest).trans (List.suffix_cons name _)).trans behind
  rw [raw]
  exact ComponentValue.ofText_excerpt after (List.takeWhile_prefix _) values

/-- The values of a list of font effects again from their raw text. -/
theorem StyleSource.ofText_raw_effects :
    let text := "a:hover \x7b font-effect: shadow(1px, -2.5px), glow !important; top: 0 \x7d"
    let px (n : Binary32) : ComponentValue := .dimension n "px"
    let values : List ComponentValue :=
      [.function "shadow" [px .one, .comma, px (.ofRatio true 5 2)], .comma, .ident "glow"]
    let raw := "shadow(1px, -2.5px), glow"
    ofText text = .ok ⟨[.style ⟨[⟨⟨[.tag "a", .pseudoClass "hover"]⟩, []⟩],
      [⟨"font-effect", values, raw, true, 1⟩, ⟨"top", [.number .zero], "0", false, 1⟩], 1⟩]⟩ ∧
    ComponentValue.ofText raw = .ok values := by
  intro text px values raw
  have read : ofText text = .ok ⟨[.style ⟨[⟨⟨[.tag "a", .pseudoClass "hover"]⟩, []⟩],
      [⟨"font-effect", values, raw, true, 1⟩, ⟨"top", [.number .zero], "0", false, 1⟩], 1⟩]⟩ := by
    decide +kernel
  have places := ofText_raw read _ (.head _) _ (.head _)
  obtain ⟨name, next, rest, split, colon⟩ : ∃ name next rest,
      (tokens text).drop 3 = name :: next :: rest ∧ next.kind = .colon :=
    ⟨⟨.ident, "font-effect", [' '], 3, 1⟩, ⟨.colon, ":", [], 4, 1⟩, (tokens text).drop 5,
      by decide +kernel⟩
  have stands : Declaration.Stands (tokens text) name next
      ⟨"font-effect", values, raw, true, 1⟩ := by
    refine ⟨rest, (tokens text).drop 15, split ▸ List.drop_suffix 3 _, ?_⟩
    rw [← split]
    decide +kernel
  exact ⟨read, places.2 name next stands colon⟩

end Cascade
