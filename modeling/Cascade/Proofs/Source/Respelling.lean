import Cascade.Proofs.Source.Lexing
/-!
Spelling tokens again.

Words of any kinds, set apart by spaces, are the tokens of the text they make. The tokens of any
text are such words, and the text is their spelling but for what was dropped at its end.
-/
namespace Cascade.Token

def word (t : Token) : Kind × String := (t.kind, t.text)

section Words
variable {k : Kind} {c : Char} {v w : List Char}

theorem nil_not_word : [] ∉ k.language := by
  have numberless (kind : Kind) : [] ∉ optional (exactly ['-']) * numeral kind := by
    intro word
    rcases mem_signed.mp word with bare | ⟨_, -, same⟩
    · obtain ⟨_, _, same, -⟩ := numeral_head bare
      cases same
    · cases same
  intro word
  cases k
  case dimension => exact numberless _ word
  case number => exact numberless _ word
  case ident =>
    rcases mem_signed.mp word with bare | ⟨_, -, same⟩
    · obtain ⟨_, _, same, -⟩ := mem_headed.mp bare
      cases same
    · cases same
  case hexColor | pseudoClass | atKeyword =>
    obtain ⟨_, -, same⟩ := mem_exactly_mul.mp word
    cases same
  case doubleQuoted | singleQuoted =>
    obtain ⟨_, same, -⟩ := mem_between.mp word
    cases same
  all_goals cases mem_exactly.mp word

instance (k : Kind) (w : List Char) : Decidable (w ∈ k.language) :=
  match w with
  | [] => isFalse nil_not_word
  | _ :: _ => decidable_of_iff _ mem_language_iff.symm

theorem foldl_inside {quote : Char} (plain : quote ∉ v) :
    v.foldl quoteStep (some quote) = some quote := by
  induction v with
  | nil => rfl
  | cons c rest ih =>
      rw [List.mem_cons, not_or] at plain
      rw [List.foldl_cons, quoteStep, if_neg (Ne.symm plain.1)]
      exact ih plain.2

theorem word_closed (word : w ∈ k.language) : QuotesClosed w := by
  cases quoted : k.quote? with
  | none => exact foldl_quoteStep fun c member => isPlain_quote (plain_word quoted w word c member)
  | some quote =>
      rw [quoted_language quoted] at word
      obtain ⟨inside, rfl, plain⟩ := mem_between.mp word
      rw [QuotesClosed, List.foldl_cons, quoteStep, if_pos (isQuote_of_quote quoted),
        List.foldl_append, foldl_inside plain, List.foldl_cons, quoteStep, if_pos rfl]
      rfl

/-- A word is the one token of its text. -/
theorem tokens_word (word : w ∈ k.language) : tokens w = [⟨k, String.ofList w, [], 0, 1⟩] := by
  cases w with
  | nil => exact absurd word nil_not_word
  | cons c v =>
      rw [tokens, tokensFrom_token _ _ _ (mem_language_iff.mp word), List.take_length,
        List.drop_length, tokensFrom]
      rfl

end Words

theorem map_word_spaced (gap : List Char) (ts : List Token) :
    (spaced gap ts).map word = ts.map word := by
  cases ts <;> rfl

theorem map_word_moved (places lines : Nat) (ts : List Token) :
    (ts.map (moved places lines)).map word = ts.map word := by
  rw [List.map_map]
  rfl

theorem words_break {b : Char} (breaks : isBreak b = true) {cs : List Char}
    (closed : QuotesClosed cs) (others : List Char) :
    (tokens (cs ++ b :: others)).map word =
      (tokens cs).map word ++ (tokens others).map word := by
  obtain ⟨gap, -, split⟩ := tokens_break breaks closed others
  rw [split, List.map_append, map_word_spaced, map_word_moved]

theorem words_intercalate {words : List (Kind × String)}
    (lawful : ∀ w ∈ words, w.2.toList ∈ w.1.language) :
    (tokens (" ".intercalate (words.map Prod.snd)).toList).map word = words := by
  rw [String.toList_intercalate]
  induction words with
  | nil => simp [tokens, tokensFrom]
  | cons w rest ih =>
      have here := lawful w List.mem_cons_self
      have first : (tokens w.2.toList).map word = [w] := by
        rw [tokens_word here, String.ofList_toList]
        rfl
      cases rest with
      | nil => simpa using first
      | cons next rest =>
          have others := ih fun w member => lawful w (List.mem_cons_of_mem _ member)
          have joined := words_break (b := ' ') rfl (word_closed here)
          simp only [List.map_cons, List.intercalate_cons_cons, List.append_assoc] at others ⊢
          exact (joined _).trans (congrArg₂ _ first others)

def Words (ts : List Token) : Prop := ∀ t ∈ ts, t.text.toList ∈ t.kind.language

theorem tokensFrom_language (gap : List Char) (position line : Nat) (cs : List Char) :
    ∀ t ∈ tokensFrom gap position line cs, t.text.toList ∈ t.kind.language := by
  fun_induction tokensFrom gap position line cs with
  | case1 => simp
  | case2 gap position line c rest kind more found ih =>
      have here := (extent_begins found).word
      refine List.forall_mem_cons.mpr ⟨?_, ih⟩
      rwa [String.toList_ofList, ← List.take_succ_cons]
  | case3 => simp
  | case4 gap position line c rest found plain ih => exact ih

/-- Gaps and texts of the tokens, in order, are the text. -/
theorem tokensFrom_spelling (gap : List Char) (position line : Nat) (cs : List Char) :
    ∃ dropped, gap.reverse ++ cs = spelling (tokensFrom gap position line cs) ++ dropped := by
  fun_induction tokensFrom gap position line cs with
  | case1 gap => exact ⟨gap.reverse, by simp [spelling]⟩
  | case2 gap position line c rest kind more found ih =>
      obtain ⟨dropped, others⟩ := ih
      refine ⟨dropped, ?_⟩
      rw [List.reverse_nil, List.nil_append] at others
      rw [spelling, List.flatMap_cons, ← spelling, List.append_assoc, ← others]
      simp
  | case3 gap position line c rest found quote => exact ⟨_, rfl⟩
  | case4 gap position line c rest found plain ih =>
      obtain ⟨dropped, others⟩ := ih
      exact ⟨dropped, by simpa using others⟩

theorem tokensFrom_position (gap : List Char) (position line : Nat) (cs : List Char) {i : Nat}
    {t : Token} (here : (tokensFrom gap position line cs)[i]? = some t) :
    t.position = position + i := by
  fun_induction tokensFrom gap position line cs generalizing i with
  | case1 => simp at here
  | case2 gap position line c rest kind more found ih =>
      cases i with
      | zero =>
          obtain rfl := Option.some.inj here
          rfl
      | succ i =>
          rw [ih here]
          omega
  | case3 => simp at here
  | case4 gap position line c rest found plain ih => exact ih here

-- What was dropped before a token holds no quote.
theorem tokensFrom_closed {gap : List Char} (quoteless : ∀ c ∈ gap, isQuote c = false)
    (position line : Nat) (cs : List Char) :
    ∀ t ∈ tokensFrom gap position line cs, QuotesClosed (t.gap ++ t.text.toList) := by
  fun_induction tokensFrom gap position line cs with
  | case1 => simp
  | case2 gap position line c rest kind more found ih =>
      refine List.forall_mem_cons.mpr ⟨?_, ih (by simp)⟩
      have word := (extent_begins found).word
      rw [List.take_succ_cons] at word
      rw [QuotesClosed, List.foldl_append, foldl_quoteStep (by simpa using quoteless),
        String.toList_ofList]
      exact word_closed word
  | case3 => simp
  | case4 gap position line c rest found plain ih =>
      exact ih (List.forall_mem_cons.mpr ⟨by simpa using plain, quoteless⟩)

theorem spelling_closed {ts : List Token}
    (closed : ∀ t ∈ ts, QuotesClosed (t.gap ++ t.text.toList)) : QuotesClosed (spelling ts) := by
  induction ts with
  | nil => rfl
  | cons t rest ih =>
      have here := closed t List.mem_cons_self
      rw [QuotesClosed] at here
      rw [spelling, List.flatMap_cons, QuotesClosed, List.foldl_append, here]
      exact ih fun u member => closed u (List.mem_cons_of_mem t member)

-- The text up to a token has the tokens up to it; before the first one it is empty.
theorem tokensFrom_take (gap : List Char) (position line : Nat) (cs : List Char) {n : Nat}
    (start : n = 0 → gap = []) (few : n ≤ (tokensFrom gap position line cs).length) :
    ∃ m, gap.reverse ++ cs.take m = spelling ((tokensFrom gap position line cs).take n) ∧
      tokensFrom gap position line (cs.take m) = (tokensFrom gap position line cs).take n := by
  fun_induction tokensFrom gap position line cs generalizing n with
  | case1 gap =>
      obtain rfl := Nat.le_zero.mp few
      exact ⟨0, by simp [start rfl, spelling], by simp [tokensFrom]⟩
  | case2 gap position line c rest kind more found ih =>
      cases n with
      | zero => exact ⟨0, by simp [start rfl, spelling], by simp [tokensFrom]⟩
      | succ n =>
          obtain ⟨m, text, same⟩ := ih (fun _ => rfl) (Nat.le_of_succ_le_succ few)
          have whole := extent_take found (Nat.le_add_right more m)
          refine ⟨more + m + 1, ?_, ?_⟩
          · rw [List.take_succ_cons, List.take_succ_cons, spelling, List.flatMap_cons, ← spelling,
              ← text, List.take_add]
            simp
          · rw [List.take_succ_cons, tokensFrom_token _ _ _ whole, List.take_succ_cons, ← same,
              List.take_take, Nat.min_eq_left (Nat.le_add_right more m), List.drop_take,
              Nat.add_sub_cancel_left]
  | case3 gap =>
      obtain rfl := Nat.le_zero.mp few
      exact ⟨0, by simp [start rfl, spelling], by simp [tokensFrom]⟩
  | case4 gap position line c rest found plain ih =>
      cases n with
      | zero => exact ⟨0, by simp [start rfl, spelling], by simp [tokensFrom]⟩
      | succ n =>
          obtain ⟨m, text, same⟩ := ih (by simp) few
          simp only [dite_eq_ite, ← newline_step] at text same ⊢
          refine ⟨m + 1, by simpa using text, ?_⟩
          rw [List.take_succ_cons, tokensFrom_dropped _ _ _ (extent_take_none found m)
            (by simpa using plain), same]

/-- The text up to a token has the tokens up to that one. -/
theorem tokens_take (cs : List Char) (n : Nat) : ∃ m,
    cs.take m = spelling ((tokens cs).take n) ∧ tokens (cs.take m) = (tokens cs).take n := by
  by_cases few : n ≤ (tokens cs).length
  · exact tokensFrom_take [] 0 1 cs (fun _ => rfl) few
  · obtain ⟨m, all⟩ := tokensFrom_take [] 0 1 cs (fun _ => rfl) (Nat.le_refl _)
    rw [List.take_length] at all
    rw [List.take_of_length_le (by omega)]
    exact ⟨m, all⟩

/-- Words of any kinds, set apart by spaces, are the tokens of their text. The tokens of any text
are words of their kinds, follow one another in the text, and are the tokens of their own texts,
set apart by spaces. -/
theorem words_respelled (words : List (Kind × String)) (source : String) :
    ((∀ w ∈ words, w.2.toList ∈ w.1.language) →
      (tokens (" ".intercalate (words.map Prod.snd)).toList).map word = words) ∧
    (∀ t ∈ tokens source.toList, t.text.toList ∈ t.kind.language) ∧
    (∃ dropped, source.toList = spelling (tokens source.toList) ++ dropped) ∧
    (tokens (" ".intercalate ((tokens source.toList).map text)).toList).map word =
      (tokens source.toList).map word := by
  have lawful := tokensFrom_language [] 0 1 source.toList
  refine ⟨words_intercalate, lawful, tokensFrom_spelling [] 0 1 source.toList, ?_⟩
  have texts : (tokens source.toList).map text =
      ((tokens source.toList).map word).map Prod.snd := by
    rw [List.map_map]
    rfl
  rw [texts]
  refine words_intercalate fun w member => ?_
  obtain ⟨t, inside, rfl⟩ := List.mem_map.mp member
  exact lawful t inside

/-- A colour, a hash by itself, a quoted text with other words in it and a measure with its sign
are each recognised whole. -/
theorem words_respelled_mixed :
    (tokens (" ".intercalate ["#fab", "#", "\"a: #fff\"", "-1.5em"]).toList).map word =
      [(.hexColor, "#fab"), (.hash, "#"), (.doubleQuoted, "\"a: #fff\""),
        (.dimension, "-1.5em")] := by
  have lawful : ∀ w ∈ [(Kind.hexColor, "#fab"), (.hash, "#"), (.doubleQuoted, "\"a: #fff\""),
        (.dimension, "-1.5em")], w.2.toList ∈ w.1.language := by
    decide
  exact (words_respelled _ "").1 lawful

/-! Words with a boundary behind them.
A name, or a colon and a name, is the next token when what follows does not go on with the name. -/
open Text

def Bounded (belongs : Char → Bool) (rest : List Char) : Prop :=
  ∀ c ∈ rest.head?, belongs c = false

section Bounding
variable {c : Char} {v w rest : List Char} {k : Kind}

theorem Bounded.cons {belongs : Char → Bool} (other : belongs c = false) (rest : List Char) :
    Bounded belongs (c :: rest) := by
  rintro d first
  rwa [← Option.some.inj first]

theorem extent_name (word : c :: v ∈ headed startsName continuesName)
    (ends : Bounded continuesName rest) : extent? c (v ++ rest) = some (.ident, v.length) := by
  obtain ⟨_, _, same, begins, others⟩ := mem_headed.mp word
  obtain ⟨rfl, rfl⟩ := List.cons.inj same
  rw [extent_of_startsName begins, run_append others ends]

theorem extent_ident (word : c :: v ∈ Kind.ident.language) (ends : Bounded continuesName rest) :
    extent? c (v ++ rest) = some (.ident, v.length) := by
  rcases mem_signed.mp word with bare | ⟨u, name, same⟩
  · exact extent_name bare ends
  · obtain ⟨rfl, rfl⟩ := List.cons.inj same
    obtain ⟨d, more, rfl, begins, others⟩ := mem_headed.mp name
    have digit : isDigit d ≠ true := by simp [not_digit_of_startsName begins]
    rw [List.cons_append, extent_minus, if_neg digit, if_pos begins, run_append others ends,
      List.length_cons]

theorem extent_pseudoClass (word : v ∈ headed isLetter continuesName)
    (ends : Bounded continuesName rest) :
    extent? ':' (v ++ rest) = some (.pseudoClass, v.length) := by
  obtain ⟨d, more, rfl, letter, others⟩ := mem_headed.mp word
  simp [extent_colon, markedName?, letter, run_append others ends]

theorem ident_of_headed (name : w ∈ headed isLetter continuesName) : w ∈ Kind.ident.language := by
  obtain ⟨c, rest, rfl, letter, others⟩ := mem_headed.mp name
  exact mem_signed.mpr (.inl (mem_headed.mpr ⟨c, rest, rfl, by simp [startsName, letter], others⟩))

variable (gap : List Char) (position line : Nat)

/-- The token of a word, when the word is what is found at its place. -/
theorem tokensFrom_word (found : extent? c (v ++ rest) = some (k, v.length)) :
    tokensFrom gap position line (c :: v ++ rest) =
      ⟨k, String.ofList (c :: v), gap.reverse, position, line⟩ ::
        tokensFrom [] (position + 1) (line + newlines (c :: v)) rest := by
  rw [List.cons_append, tokensFrom_token _ _ _ found, List.take_left, List.drop_left]

theorem newlines_plain (quoteless : k.quote? = none) (word : w ∈ k.language) : newlines w = 0 := by
  refine List.count_eq_zero.mpr fun member => ?_
  have plain := plain_word quoteless w word _ member
  rw [not_plain rfl] at plain
  cases plain

theorem tokensFrom_ident (word : w ∈ Kind.ident.language) (ends : Bounded continuesName rest) :
    tokensFrom gap position line (w ++ rest) =
      ⟨.ident, String.ofList w, gap.reverse, position, line⟩ ::
        tokensFrom [] (position + 1) line rest := by
  cases w with
  | nil => exact absurd word nil_not_word
  | cons c v =>
      rw [tokensFrom_word _ _ _ (extent_ident word ends), newlines_plain rfl word]
      rfl

theorem tokensFrom_pseudoClass (word : w ∈ headed isLetter continuesName)
    (ends : Bounded continuesName rest) :
    tokensFrom gap position line (':' :: w ++ rest) =
      ⟨.pseudoClass, String.ofList (':' :: w), gap.reverse, position, line⟩ ::
        tokensFrom [] (position + 1) line rest := by
  have whole : ':' :: w ∈ Kind.pseudoClass.language := mem_exactly_mul.mpr ⟨w, word, rfl⟩
  rw [tokensFrom_word _ _ _ (extent_pseudoClass word ends), newlines_plain rfl whole]
  rfl

end Bounding
end Cascade.Token
