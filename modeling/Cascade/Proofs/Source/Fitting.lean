import Cascade.Proofs.Source.Forming
import Cascade.Proofs.Text.Splitting
/-!
Texts that begin and end with a token.

Such a text is the excerpt of all its tokens. Every word is one, and so is the source from one token
to the end of another, also without the colon that a first value touched. So the raw text of every
declaration is one: no quote is open in it, and there is nothing to trim.
-/
namespace Cascade
open Token Text

namespace Token

/-- Nothing is dropped before the first token or behind the last one. -/
def Snug (cs : List Char) : Prop := excerpt (tokens cs) = cs

section Snug
variable {cs w : List Char} {k : Kind}

theorem snug_word (word : w ∈ k.language) : Snug w := by
  rw [Snug, tokens_word word, excerpt, spelling, List.flatMap_nil, List.append_nil,
    String.toList_ofList]

theorem excerpt_flush (ts : List Token) : excerpt (flush ts) = excerpt ts := by
  cases ts <;> rfl

theorem snug_excerpt {ts written : List Token} (inside : ts <:+ tokens cs)
    (front : written <+: ts) : Snug (excerpt written) := by
  obtain ⟨n, m, places, lines, -, same⟩ := tokens_excerpt inside front
  have again := congrArg excerpt same
  rwa [excerpt_moved, excerpt_flush] at again

theorem Words.flush {ts : List Token} (words : Words ts) : Words (flush ts) := by
  cases ts with
  | nil => exact words
  | cons t ts => exact List.forall_mem_cons.mpr (List.forall_mem_cons.mp words)

theorem Snug.closed (snug : Snug cs) : QuotesClosed cs := by
  have quoteless : ∀ c ∈ ([] : List Char), isQuote c = false := by simp
  have closed := tokensFrom_closed quoteless 0 1 cs
  have words := tokensFrom_language [] 0 1 cs
  rw [← tokens] at closed words
  rw [← snug, ← spelling_flush]
  refine spelling_closed ?_
  cases split : tokens cs with
  | nil => simp [Token.flush]
  | cons t ts =>
      rw [split, List.forall_mem_cons] at closed words
      exact List.forall_mem_cons.mpr ⟨word_closed words.1, closed.2⟩

theorem isBlank_continues {c : Char} (name : continuesName c = true) : isBlank c = false := by
  have place : isBlank c = true → c.toNat ≤ 32 ∨ 133 ≤ c.toNat := by
    simp only [isBlank, blankRanges, List.any_cons, List.any_nil, Bool.or_false, Bool.or_eq_true,
      Bool.and_eq_true, decide_eq_true_eq]
    omega
  have sign : c.toNat ≠ 45 → c.toNat ≠ 95 → isLetter c = true ∨ isDigit c = true := by
    intro minus underscore
    have apart {d : Char} (other : c.toNat ≠ d.toNat) : (c == d) = false :=
      beq_false_of_ne fun same => other (congrArg Char.toNat same)
    rw [continuesName, apart (d := '-') minus, apart (d := '_') underscore] at name
    simpa using name
  by_contra blank
  have := place (Bool.not_eq_false _ ▸ blank)
  rw [isLetter_iff, isDigit_iff] at sign
  omega

theorem word_trimmed (word : w ∈ k.language) : Trimmed w := by
  cases quoted : k.quote? with
  | none =>
      have plain : Within (fun c => !isBlank c) k.language :=
        bare_word quoted (fun c name => by simp [isBlank_continues name])
          (List.all_eq_true.mp (by cases k <;> rfl))
      have none (c : Char) (member : c ∈ w) : isBlank c = false := by
        simpa using plain w word c member
      exact ⟨fun c first => none c (List.mem_of_mem_head? first),
        fun c last => none c (List.mem_of_mem_getLast? last)⟩
  | some q =>
      have quote : isBlank q = false := by
        cases k <;> cases quoted <;> rfl
      rw [quoted_language quoted] at word
      obtain ⟨v, rfl, -⟩ := mem_between.mp word
      exact ⟨by simpa using quote, Trimmed.behind ⟨by simp, by simp⟩ quote (q :: v)⟩

theorem spelling_last {ts : List Token} (words : Words ts) :
    ∀ c ∈ (spelling ts).getLast?, isBlank c = false := by
  rcases List.eq_nil_or_concat ts with rfl | ⟨front, t, rfl⟩
  · simp [spelling]
  · have word := words t (by simp)
    have some : t.text.toList ≠ [] := fun none => nil_not_word (none ▸ word)
    rw [spelling, List.concat_eq_append, List.flatMap_append, List.flatMap_singleton,
      ← List.append_assoc, List.getLast?_append_of_ne_nil _ some]
    exact (word_trimmed word).last

theorem Snug.trimmed (snug : Snug cs) : Trimmed cs := by
  have words : Words (tokens cs) := tokensFrom_language [] 0 1 cs
  have last := spelling_last words.flush
  rw [spelling_flush, snug] at last
  refine ⟨?_, last⟩
  rw [← snug]
  cases split : tokens cs with
  | nil => simp [excerpt]
  | cons t ts =>
      have word := words t (split ▸ List.mem_cons_self)
      rw [excerpt, List.head?_append_of_ne_nil _ fun none => nil_not_word (none ▸ word)]
      exact (word_trimmed word).first

theorem Snug.trimmed_eq {text : String} (snug : Snug text.toList) : Text.trimmed text = text := by
  rw [Text.trimmed, trim_eq_self snug.trimmed, String.ofList_toList]

/-- Without the colon of a pseudo-class a text has the name in its place. -/
theorem Snug.behind_colon {t : Token} {ts : List Token} (split : tokens (':' :: cs) = t :: ts)
    (pseudo : t.kind = .pseudoClass) (snug : Snug (':' :: cs)) : Snug cs := by
  obtain ⟨n, found⟩ : ∃ n, extent? ':' cs = some (.pseudoClass, n) := by
    cases extent : extent? ':' cs with
    | none => simp [extent_colon] at extent
    | some token =>
        rw [tokens, tokensFrom_token _ _ _ extent] at split
        obtain ⟨rfl, -⟩ := List.cons.inj split
        exact ⟨token.2, by rw [← pseudo]⟩
  obtain ⟨d, more, rfl, letter, rfl⟩ : ∃ d more, cs = d :: more ∧ isLetter d = true ∧
      n = runLength continuesName more + 1 := by
    rw [extent_colon] at found
    cases cs with
    | nil => cases found
    | cons d more =>
        rw [markedName?] at found
        split at found
        case isTrue letter => exact ⟨d, more, rfl, letter, by cases found; rfl⟩
        case isFalse => cases found
  have name : extent? d more = some (.ident, runLength continuesName more) := by
    have starts : startsName d = true := by simp [startsName, letter]
    simp [extent?, not_digit_of_letter letter, starts]
  rw [Snug, tokens, tokensFrom_token _ _ _ found, excerpt, String.toList_ofList, List.cons_append,
    List.take_succ_cons, List.drop_succ_cons, newlines_cons, ← Nat.add_assoc] at snug
  rw [Snug, tokens, tokensFrom_token _ _ _ name, excerpt, String.toList_ofList]
  exact (List.cons.inj snug).2

end Snug
end Token

section Raw
variable {cs : List Char} {d : Declaration}

/-- The raw text of a declaration begins and ends with a token. -/
theorem Declaration.raw_snug (found : Reading.Finds Declaration.read (tokens cs) d) :
    Snug d.raw.toList := by
  obtain ⟨ts, written, inside, front, ⟨whole, -⟩ | ⟨whole, ⟨next, first, kind⟩, -⟩⟩ :=
    raw_excerpt found
  all_goals
    have snug := snug_excerpt inside front
    rw [whole] at snug
  · exact snug
  · obtain ⟨more, rfl⟩ := List.head?_eq_some_iff.mp first
    obtain ⟨n, m, places, lines, -, same⟩ := tokens_excerpt inside front
    rw [whole, flush, List.map_eq_cons_iff] at same
    obtain ⟨t, others, split, moved, -⟩ := same
    refine snug.behind_colon split ?_
    rw [← Token.moved_kind places lines, moved]
    exact kind

/-- A string by itself stands in the text as it is. -/
theorem Declaration.string_occurs {text : String}
    (found : Reading.Finds Declaration.read (tokens cs) d) (single : d.values = [.string text]) :
    text.toList <:+: cs := by
  obtain ⟨ts, written, inside, front, ⟨-, read⟩ | ⟨-, -, name, first⟩⟩ := raw_excerpt found
  · have words : Words written := fun t member =>
      tokensFrom_language [] 0 1 cs t (inside.subset (front.subset member))
    rw [single] at read
    obtain ⟨used, spelled, rfl, each, flat⟩ := ComponentValue.readFrom_spells ⟨[], []⟩ words read
    obtain rfl : [.string text] = spelled := flat
    obtain ⟨t, spells, rfl⟩ : ∃ t, ComponentValue.Spells (.string text) t ∧ used = [t] := by
      cases each with
      | cons spells none =>
          cases none
          exact ⟨_, spells, rfl⟩
    have quoted : text.toList <:+: t.text.toList := by
      rcases spells with ⟨-, same⟩ | ⟨-, same⟩ <;>
        exact ⟨_, _, by rw [same, String.toList_append, String.toList_append]⟩
    refine quoted.trans ?_
    have source := excerpt_occurs inside front
    rwa [List.append_nil, excerpt, spelling, List.flatMap_nil, List.append_nil] at source
  · rw [single] at first
    cases first

end Raw

/-! Declarations on lines of their own.
A name, a colon, values that begin and end with a token and a semicolon are read as a declaration,
whatever stands before and behind them. -/

namespace ComponentValue
variable {ts : List Token} {values : List ComponentValue}

/-- Values that were read to the end are the first values of whatever follows. -/
theorem readFrom_follow (s : Nesting) (more : List Token)
    (read : readFrom s.outer s.current ts = .ok (values, [])) :
    readFrom s.outer s.current (ts ++ more) = readFrom [] values.reverse more := by
  induction ts generalizing s with
  | nil =>
      rw [readFrom_nil] at read
      split at read
      case isTrue closed =>
        obtain ⟨rfl, -⟩ := Prod.mk.inj (Except.ok.inj read)
        rw [List.nil_append, List.reverse_reverse, List.isEmpty_iff.mp closed]
      case isFalse => cases read
  | cons t ts ih =>
      rw [readFrom_cons] at read
      rw [List.cons_append, readFrom_cons]
      split at read
      case isTrue => split at read <;> cases read
      case isFalse inside =>
        rw [if_neg inside]
        split at read
        case h_1 next advanced => exact ih next read
        case h_2 => cases read

-- Nothing in values that were read to the end ends them.
theorem readFrom_goesOn (s : Nesting)
    (read : readFrom s.outer s.current ts = .ok (values, [])) : ∀ t ∈ ts, goesOn t = true := by
  induction ts generalizing s with
  | nil => simp
  | cons t ts ih =>
      rw [readFrom_cons] at read
      split at read
      case isTrue => split at read <;> cases read
      case isFalse inside =>
        split at read
        case h_1 next advanced =>
          exact List.forall_mem_cons.mpr ⟨by simp [goesOn, inside], ih next read⟩
        case h_2 => cases read

/-- Values that were read to the end are read before a token that ends them. -/
theorem readFrom_before (s : Nesting) {t : Token} (ends : endsBefore t.kind = true)
    (more : List Token) (read : readFrom s.outer s.current ts = .ok (values, [])) :
    readFrom s.outer s.current (ts ++ t :: more) = .ok (values, t :: more) ∧
      (ts ++ t :: more).takeWhile goesOn = ts := by
  constructor
  · have last := readFrom_cons ⟨[], values.reverse⟩ t more
    rw [if_pos ends] at last
    rw [readFrom_follow s (t :: more) read, last, List.reverse_reverse]
    rfl
  · rw [List.takeWhile_append_of_pos (readFrom_goesOn s read),
      List.takeWhile_cons_of_neg (by simp [goesOn, ends]), List.append_nil]

theorem readAll_spaced (gap : List Char) (read : readAll ts = .ok (values, [])) :
    readAll (spaced gap ts) = .ok (values, []) := by
  cases ts with
  | nil => exact read
  | cons t ts => exact readAll_gap _ read

theorem readAll_moved (places lines : Nat) (read : readAll ts = .ok (values, [])) :
    readAll (ts.map (.moved places lines)) = .ok (values, []) := by
  rw [readAll, readFrom_moved, ← readAll, read]
  rfl

end ComponentValue

theorem Token.excerpt_spaced (gap : List Char) (ts : List Token) :
    excerpt (spaced gap ts) = excerpt ts := by
  cases ts <;> rfl

/-- The tokens of values between a blank and a semicolon. -/
theorem Token.tokensFrom_values {w : List Char} (snug : Snug w)
    {values : List ComponentValue} (read : ComponentValue.readAll (tokens w) = .ok (values, []))
    (position lines : Nat) (rest : List Char) : ∃ us t place further,
      tokensFrom [' '] position (1 + lines) (w ++ ';' :: rest) =
        us ++ t :: tokensFrom [] place (1 + further) rest ∧
      t.kind = .semicolon ∧ excerpt us = w ∧ ComponentValue.readAll us = .ok (values, []) := by
  obtain ⟨before, split⟩ :=
    tokensFrom_stop (b := ';') rfl rest snug.closed [' '] position (1 + lines)
  have semicolon : extent? ';' rest = some (.semicolon, 0) := rfl
  have moved := tokensFrom_moved [] [' '] 0 1 position lines w
  rw [List.nil_append, Nat.zero_add, ← tokens] at moved
  rw [split, tokensFrom_token _ _ _ semicolon, moved, Nat.add_assoc, Nat.add_assoc]
  refine ⟨_, _, _, _, rfl, rfl, ?_, ?_⟩
  · rw [excerpt_spaced, excerpt_moved, snug]
  · exact ComponentValue.readAll_spaced _ (ComponentValue.readAll_moved _ _ read)

theorem Declaration.readValues_before {us : List Token} {t : Token} {values : List ComponentValue}
    (read : ComponentValue.readAll us = .ok (values, [])) (semicolon : t.kind = .semicolon)
    (name : Token) (more : List Token) : readValues name none (us ++ t :: more) =
      .ok (⟨name.text, values, String.ofList (excerpt us), false, name.line⟩, more) := by
  have ends : ComponentValue.endsBefore t.kind = true := by rw [semicolon]; rfl
  obtain ⟨whole, front⟩ := ComponentValue.readFrom_before ⟨[], []⟩ ends more read
  change (us ++ t :: more).takeWhile (fun u => !ComponentValue.endsBefore u.kind) = us at front
  rw [readValues, ComponentValue.readAll, whole]
  simp [Except.map, front, readEnd, dropIf, semicolon]

/-- A declaration on a line of its own is read, and what follows it is left. -/
theorem Declaration.read_line {name w : String} (ident : name.toList ∈ Kind.ident.language)
    (snug : Snug w.toList) {values : List ComponentValue}
    (read : ComponentValue.readAll (tokens w.toList) = .ok (values, [])) (gap : List Char)
    (position lines : Nat) (rest : List Char) : ∃ place further,
      Declaration.read (tokensFrom gap position (1 + lines)
          (name.toList ++ ':' :: ' ' :: (w.toList ++ ';' :: rest))) =
        .ok (⟨name, values, w, false, 1 + lines⟩, tokensFrom [] place (1 + further) rest) := by
  obtain ⟨us, t, place, further, behind, semicolon, source, found⟩ :=
    tokensFrom_values snug read (position + 2) lines rest
  have colon : extent? ':' (' ' :: (w.toList ++ ';' :: rest)) = some (.colon, 0) := rfl
  have split : tokensFrom gap position (1 + lines)
      (name.toList ++ ':' :: ' ' :: (w.toList ++ ';' :: rest)) =
        ⟨.ident, name, gap.reverse, position, 1 + lines⟩ ::
          ⟨.colon, ":", [], position + 1, 1 + lines⟩ ::
            (us ++ t :: tokensFrom [] place (1 + further) rest) := by
    rw [tokensFrom_ident _ _ _ ident (.cons rfl _), tokensFrom_token _ _ _ colon, List.drop_zero,
      tokensFrom_dropped _ _ _ rfl rfl, String.ofList_toList, ← behind]
    rfl
  refine ⟨place, further, ?_⟩
  rw [split]
  refine (readValues_before found semicolon _ _).trans ?_
  rw [source, String.ofList_toList]

end Cascade
