import Cascade.Proofs.Source.Cutting
import Mathlib.Data.List.Chain
/-!
Comments and tokens on both sides of a break.

A text whose comments and quotes are all closed can be cut off at a space or a line break: its
comments are blanked out and its tokens are found as if nothing followed, and what follows has the
tokens that it has by itself, further on.
-/
namespace Cascade.Token
open Cascade.Text

/-- Whether a text ends within a comment; `inside` says whether it begins within one. -/
def commentAfter : (inside : Bool) → List Char → Bool
  | inside, [] => inside
  | false, '/' :: '*' :: rest => commentAfter true rest
  | false, _ :: rest => commentAfter false rest
  | true, '*' :: '/' :: rest => commentAfter false rest
  | true, _ :: rest => commentAfter true rest

def CommentsClosed (cs : List Char) : Prop := commentAfter false cs = false

instance (cs : List Char) : Decidable (CommentsClosed cs) := inferInstanceAs (Decidable (_ = _))

/-- One of the two characters that open a comment ends the first text, the other one begins the
second. -/
def SplitsMark (inside : Bool) (cs others : List Char) : Prop :=
  ∃ front back, cs = front ++ ['/'] ∧ others = '*' :: back ∧ commentAfter inside front = false

theorem not_splitsMark {inside : Bool} {cs others : List Char} (plain : others.head? ≠ some '*') :
    ¬ SplitsMark inside cs others := by
  rintro ⟨front, back, -, rfl, -⟩
  exact plain rfl

theorem blankComments_append {inside : Bool} {cs others : List Char}
    (closed : commentAfter inside cs = false) (whole : ¬ SplitsMark inside cs others) :
    blankComments inside (cs ++ others) =
      blankComments inside cs ++ blankComments false others := by
  fun_induction commentAfter inside cs with
  | case1 inside => subst closed; rfl
  | case2 rest ih =>
      have later : ¬ SplitsMark true rest others := by
        rintro ⟨front, back, rfl, starred, outside⟩
        exact whole ⟨'/' :: '*' :: front, back, rfl, starred, outside⟩
      simp only [List.cons_append, blankComments, ih closed later]
  | case3 c rest single ih =>
      have starts (more : List Char) : c = '/' → ¬ rest ++ others = '*' :: more := by
        rintro rfl opened
        cases rest with
        | nil => exact whole ⟨[], more, rfl, opened, rfl⟩
        | cons d rest => exact single rest rfl (by rw [(List.cons.inj opened).1])
      have later : ¬ SplitsMark false rest others := by
        rintro ⟨front, back, rfl, starred, outside⟩
        refine whole ⟨c :: front, back, rfl, starred, ?_⟩
        rw [commentAfter.eq_3 _ _ fun more slash star => ?_]
        · exact outside
        · exact single (more ++ ['/']) slash (by rw [star]; rfl)
      rw [List.cons_append, blankComments.eq_3 _ _ starts, blankComments.eq_3 _ _ single,
        ih closed later, List.cons_append]
  | case4 rest ih =>
      have later : ¬ SplitsMark false rest others := by
        rintro ⟨front, back, rfl, starred, outside⟩
        exact whole ⟨'*' :: '/' :: front, back, rfl, starred, outside⟩
      simp only [List.cons_append, blankComments, ih closed later]
  | case5 c rest single ih =>
      have ends (more : List Char) : c = '*' → ¬ rest ++ others = '/' :: more := by
        rintro rfl ended
        cases rest with
        | nil => simp [commentAfter] at closed
        | cons d rest => exact single rest rfl (by rw [(List.cons.inj ended).1])
      have later : ¬ SplitsMark true rest others := by
        rintro ⟨front, back, rfl, starred, outside⟩
        refine whole ⟨c :: front, back, rfl, starred, ?_⟩
        rw [commentAfter.eq_5 _ _ fun more star slash => ?_]
        · exact outside
        · exact single (more ++ ['/']) star (by rw [slash]; rfl)
      rw [List.cons_append, blankComments.eq_5 _ _ ends, blankComments.eq_5 _ _ single,
        ih closed later]
      split <;> rfl

theorem newlines_append (cs others : List Char) :
    newlines (cs ++ others) = newlines cs + newlines others := List.count_append

theorem newlines_blankComments (inside : Bool) (cs : List Char) :
    newlines (blankComments inside cs) = newlines cs := by
  fun_induction blankComments inside cs <;> simp_all [newlines, List.count_cons]

def Commentless (cs : List Char) : Prop := cs.IsChain fun c d => c = '/' → d ≠ '*'

instance (cs : List Char) : Decidable (Commentless cs) :=
  inferInstanceAs (Decidable (List.IsChain _ _))

theorem commentless_slashless {cs : List Char} (slashless : '/' ∉ cs) : Commentless cs := by
  induction cs with
  | nil => exact .nil
  | cons c rest ih =>
      rw [List.mem_cons, not_or] at slashless
      exact List.isChain_cons.mpr ⟨fun _ _ slash => absurd slash.symm slashless.1, ih slashless.2⟩

theorem Commentless.append {cs others : List Char} (first : Commentless cs)
    (second : Commentless others) (apart : cs.getLast? ≠ some '/' ∨ others.head? ≠ some '*') :
    Commentless (cs ++ others) := by
  refine List.isChain_append.mpr ⟨first, second, fun c ends d begins slash star => ?_⟩
  rw [slash] at ends
  rw [star] at begins
  exact apart.elim (· (Option.mem_def.mp ends)) (· (Option.mem_def.mp begins))

theorem blankComments_commentless {cs : List Char} (none : Commentless cs) :
    blankComments false cs = cs := by
  induction cs with
  | nil => rfl
  | cons c rest ih =>
      obtain ⟨apart, others⟩ := List.isChain_cons.mp none
      have single (more : List Char) : c = '/' → ¬ rest = '*' :: more := by
        rintro rfl rfl
        exact apart '*' rfl rfl rfl
      rw [blankComments.eq_3 _ _ single, ih others]

theorem head_blankComments {rest : List Char} (star : (blankComments false rest).head? = some '*') :
    ∃ more, rest = '*' :: more := by
  generalize outside : false = inside at star
  fun_cases blankComments inside rest with
  | case1 => simp [blankComments] at star
  | case2 rest => simp [blankComments] at star
  | case3 c more single =>
      rw [blankComments.eq_3 _ _ single] at star
      exact ⟨more, by rw [Option.some.inj star]⟩
  | _ => cases outside

-- A comment leaves a blank behind, so what stood on both sides of it makes no new one.
theorem commentless_blankComments (inside : Bool) (cs : List Char) :
    Commentless (blankComments inside cs) := by
  have apart {c : Char} (other : c ≠ '/') {rest : List Char} (none : Commentless rest) :
      Commentless (c :: rest) :=
    List.isChain_cons.mpr ⟨fun _ _ slash => absurd slash other, none⟩
  fun_induction blankComments inside cs with
  | case1 => exact .nil
  | case2 rest ih => exact apart (by decide) ih
  | case3 c rest single ih =>
      refine List.isChain_cons.mpr ⟨?_, ih⟩
      rintro d first rfl rfl
      obtain ⟨more, same⟩ := head_blankComments first
      exact single more rfl same
  | case4 rest ih => exact ih
  | case5 rest single ih => exact apart (by decide) ih
  | case6 c rest single other ih => exact ih

def quoteStep : Option Char → Char → Option Char
  | none, c => if isQuote c then some c else none
  | some quote, c => if c = quote then none else some quote

def QuotesClosed (cs : List Char) : Prop := cs.foldl quoteStep none = none

instance (cs : List Char) : Decidable (QuotesClosed cs) := inferInstanceAs (Decidable (_ = _))

theorem foldl_quoteStep {cs : List Char} (plain : ∀ c ∈ cs, isQuote c = false) :
    cs.foldl quoteStep none = none := by
  induction cs with
  | nil => rfl
  | cons c rest ih =>
      have here := plain c List.mem_cons_self
      rw [List.foldl_cons, quoteStep, here]
      exact ih fun d member => plain d (List.mem_cons_of_mem c member)

-- Up to the closing quote nothing else closes it.
theorem foldl_open {quote : Char} {cs : List Char}
    (closed : cs.foldl quoteStep (some quote) = none) :
    runLength (· != quote) cs < cs.length ∧
      QuotesClosed (cs.drop (runLength (· != quote) cs + 1)) := by
  induction cs with
  | nil => simp at closed
  | cons c rest ih =>
      by_cases same : c = quote
      · rw [List.foldl_cons, quoteStep, if_pos same] at closed
        have none : runLength (· != quote) (c :: rest) = 0 := by simp [runLength, same]
        rw [none]
        exact ⟨Nat.succ_pos _, closed⟩
      · rw [List.foldl_cons, quoteStep, if_neg same] at closed
        obtain ⟨bound, after⟩ := ih closed
        have more : runLength (· != quote) (c :: rest) = runLength (· != quote) rest + 1 := by
          simp [runLength, same]
        rw [more]
        exact ⟨Nat.succ_lt_succ bound, after⟩

-- A token that does not begin with a quote holds none.
theorem quoteless {c : Char} {rest : List Char} {kind : Kind} {more : Nat}
    (plain : isQuote c = false) (found : extent? c rest = some (kind, more)) :
    ∀ d ∈ rest.take more, isQuote d = false := by
  have word := (extent_begins found).word
  rw [List.take_succ_cons] at word
  cases quoted : kind.quote? with
  | none => exact fun d member =>
      isPlain_quote (plain_word quoted _ word d (List.mem_cons_of_mem c member))
  | some q =>
      have quote := isQuote_of_quote quoted
      rw [← quote_head word quoted, plain] at quote
      cases quote

/-- Where all quotes are closed a token begins or a character is dropped, and all quotes after it
are closed as well. -/
theorem QuotesClosed.extent {c : Char} {rest : List Char} (closed : QuotesClosed (c :: rest)) :
    match extent? c rest with
    | some (_, more) => more ≤ rest.length ∧ QuotesClosed (rest.drop more)
    | none => isQuote c = false ∧ QuotesClosed rest := by
  rw [QuotesClosed, List.foldl_cons, quoteStep] at closed
  by_cases quote : isQuote c = true
  · rw [if_pos quote] at closed
    obtain ⟨bound, after⟩ := foldl_open closed
    have found : ∃ kind, extent? c rest = some (kind, runLength (· != c) rest + 1) := by
      simp only [isQuote, Bool.or_eq_true, beq_iff_eq] at quote
      rcases quote with rfl | rfl
      · exact ⟨.doubleQuoted, if_pos bound⟩
      · exact ⟨.singleQuoted, if_pos bound⟩
    obtain ⟨kind, same⟩ := found
    rw [same]
    exact ⟨bound, after⟩
  · rw [if_neg quote] at closed
    rw [Bool.not_eq_true] at quote
    cases found : extent? c rest with
    | none => exact ⟨quote, closed⟩
    | some token =>
        refine ⟨Nat.le_of_succ_le_succ (extent_begins found).inside, ?_⟩
        rw [← List.take_append_drop token.2 rest, List.foldl_append,
          foldl_quoteStep (quoteless quote found)] at closed
        exact closed

def moved (places lines : Nat) (t : Token) : Token :=
  { t with position := t.position + places, line := t.line + lines }

def spaced (gap : List Char) : List Token → List Token
  | [] => []
  | t :: rest => { t with gap := gap ++ t.gap } :: rest

theorem spaced_nil (ts : List Token) : spaced [] ts = ts := by
  cases ts <;> rfl

theorem newline_step (c : Char) (line : Nat) :
    line + newlines [c] = if c = '\n' then line + 1 else line := by
  by_cases ends : c = '\n' <;> simp [ends, newlines]

section Walk
variable {c : Char} {rest : List Char} (gap : List Char) (position line : Nat)

theorem tokensFrom_token {kind : Kind} {more : Nat} (found : extent? c rest = some (kind, more)) :
    tokensFrom gap position line (c :: rest) =
      { kind, text := String.ofList (c :: rest.take more), gap := gap.reverse, position, line } ::
        tokensFrom [] (position + 1) (line + newlines (c :: rest.take more)) (rest.drop more) := by
  rw [tokensFrom, found]

theorem tokensFrom_dropped (found : extent? c rest = none) (plain : isQuote c = false) :
    tokensFrom gap position line (c :: rest) =
      tokensFrom (c :: gap) position (line + newlines [c]) rest := by
  rw [tokensFrom, found, newline_step]
  simp [plain]

end Walk

theorem newlines_cons (c : Char) (cs : List Char) :
    newlines (c :: cs) = newlines [c] + newlines cs := newlines_append [c] cs

-- Only the first token sees the gap collected so far.
theorem tokensFrom_moved (gap before : List Char) (position line places lines : Nat)
    (cs : List Char) : tokensFrom (gap ++ before) (position + places) (line + lines) cs =
      spaced before.reverse ((tokensFrom gap position line cs).map (moved places lines)) := by
  fun_induction tokensFrom gap position line cs generalizing before with
  | case1 => rw [tokensFrom]; rfl
  | case2 gap position line c rest kind more found ih =>
      have others := ih []
      rw [List.reverse_nil, spaced_nil, List.nil_append, Nat.add_right_comm,
        Nat.add_right_comm line] at others
      rw [tokensFrom_token _ _ _ found, others, List.map_cons, spaced, moved, List.reverse_append]
  | case3 gap position line c rest found quote =>
      rw [tokensFrom, found]
      simp only [quote, if_true]
      rfl
  | case4 gap position line c rest found plain ih =>
      rw [Bool.not_eq_true] at plain
      simp only [dite_eq_ite, ← newline_step] at ih ⊢
      rw [tokensFrom_dropped _ _ _ found plain, ← ih before, Nat.add_right_comm line]
      rfl

/-- Up to a stop a text has the tokens that it has by itself. -/
theorem tokensFrom_stop {b : Char} (stops : isStop b = true) (others : List Char)
    {cs : List Char} (closed : QuotesClosed cs) (gap : List Char) (position line : Nat) : ∃ before,
      tokensFrom gap position line (cs ++ b :: others) = tokensFrom gap position line cs ++
        tokensFrom before (position + (tokensFrom gap position line cs).length)
          (line + newlines cs) (b :: others) := by
  fun_induction tokensFrom gap position line cs with
  | case1 gap position line => exact ⟨gap, rfl⟩
  | case2 gap position line c rest kind more found ih =>
      have extent := closed.extent
      have begins : isQuote c = true → extent? c rest ≠ none := fun _ => by simp [found]
      have same := extent_stop stops others begins
      simp only [found] at extent same
      obtain ⟨bound, after⟩ := extent
      obtain ⟨before, split⟩ := ih after
      have lines : newlines (c :: rest.take more) + newlines (rest.drop more) =
          newlines (c :: rest) := by
        rw [← newlines_append, List.cons_append, List.take_append_drop]
      refine ⟨before, ?_⟩
      rw [List.cons_append, tokensFrom_token _ _ _ same, List.take_append_of_le_length bound,
        List.drop_append_of_le_length bound, split, ← lines, List.cons_append, List.length_cons]
      congr 3
      · omega
      · omega
  | case3 gap position line c rest found quote =>
      have extent := closed.extent
      simp [found, quote] at extent
  | case4 gap position line c rest found plain ih =>
      have extent := closed.extent
      have begins : isQuote c = true → extent? c rest ≠ none := fun quote => absurd quote plain
      have same := extent_stop stops others begins
      simp only [found] at extent same
      simp only [dite_eq_ite, ← newline_step] at ih ⊢
      obtain ⟨before, split⟩ := ih extent.2
      refine ⟨before, ?_⟩
      rw [List.cons_append, tokensFrom_dropped _ _ _ same extent.1, split, newlines_cons c rest,
        Nat.add_assoc line]

theorem tokensFrom_break {b : Char} (breaks : isBreak b = true) (others : List Char)
    {cs : List Char} (closed : QuotesClosed cs) (gap : List Char) (position line : Nat) : ∃ before,
      tokensFrom gap position line (cs ++ b :: others) = tokensFrom gap position line cs ++
        tokensFrom (b :: before) (position + (tokensFrom gap position line cs).length)
          (line + newlines cs + newlines [b]) others := by
  have stops : isStop b = true := by simp [isStop, breaks]
  obtain ⟨before, split⟩ := tokensFrom_stop stops others closed gap position line
  refine ⟨before, ?_⟩
  rw [split]
  rcases isBreak_cases breaks with rfl | rfl
  all_goals rw [tokensFrom_dropped _ _ _ rfl rfl]

/-- Behind a break a text has the tokens that it has by itself, further on, and the first of them
touches nothing. -/
theorem tokens_break {b : Char} (breaks : isBreak b = true) {cs : List Char}
    (closed : QuotesClosed cs) (others : List Char) : ∃ before, before ≠ [] ∧
      tokens (cs ++ b :: others) = tokens cs ++
        spaced before
          ((tokens others).map (moved (tokens cs).length (newlines cs + newlines [b]))) := by
  obtain ⟨before, split⟩ := tokensFrom_break breaks others closed [] 0 1
  refine ⟨(b :: before).reverse, by simp, ?_⟩
  have after :=
    tokensFrom_moved [] (b :: before) 0 1 (tokens cs).length (newlines cs + newlines [b]) others
  rw [List.nil_append, ← Nat.add_assoc] at after
  rw [tokens, split]
  exact congrArg _ after

end Cascade.Token
