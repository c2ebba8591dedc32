import Cascade.Proofs.Source.Respelling
import Cascade.Source.StatementReading
/-!
Comments within quotes.

Comments are blanked out before the tokens are found, so the marks of a comment count within quotes
as well. A quoted text is read as itself just when no comment begins in it; with comments in it that
all end there it is read with blanks in their place, and one that ends nowhere takes the closing
quote with it and leaves no value at all.
-/
namespace Cascade

namespace Token

theorem not_comment_mark {quote : Char} (quotes : isQuote quote = true) :
    quote ≠ '/' ∧ quote ≠ '*' ∧ quote ≠ '\n' := by
  refine ⟨?_, ?_, ?_⟩ <;> rintro rfl <;> simp [isQuote] at quotes

theorem mem_blankComments {inside : Bool} {cs : List Char} {c : Char}
    (member : c ∈ blankComments inside cs) : c = ' ' ∨ c ∈ cs := by
  fun_induction blankComments inside cs <;> grind

/-- A comment that ends nowhere takes the character behind the text with it. -/
theorem blankComments_open {inside : Bool} {cs : List Char} {quote : Char}
    (quotes : isQuote quote = true) (runs : commentAfter inside cs = true) :
    blankComments inside (cs ++ [quote]) = blankComments inside cs := by
  obtain ⟨slash, star, line⟩ := not_comment_mark quotes
  fun_induction commentAfter inside cs with
  | case1 inside =>
      subst runs
      rw [List.nil_append, blankComments.eq_5 _ _ (by simp), if_neg line]
  | case2 rest ih => simp only [List.cons_append, blankComments, ih runs]
  | case3 c rest single ih =>
      have starts (more : List Char) : c = '/' → ¬ rest ++ [quote] = '*' :: more := by
        rintro rfl opened
        cases rest with
        | nil => exact star (List.cons.inj opened).1
        | cons d rest => exact single rest rfl (by rw [(List.cons.inj opened).1])
      rw [List.cons_append, blankComments.eq_3 _ _ starts, blankComments.eq_3 _ _ single, ih runs]
  | case4 rest ih => simp only [List.cons_append, blankComments, ih runs]
  | case5 c rest single ih =>
      have ends (more : List Char) : c = '*' → ¬ rest ++ [quote] = '/' :: more := by
        rintro rfl ended
        cases rest with
        | nil => exact slash (List.cons.inj ended).1
        | cons d rest => exact single rest rfl (by rw [(List.cons.inj ended).1])
      rw [List.cons_append, blankComments.eq_5 _ _ ends, blankComments.eq_5 _ _ single, ih runs]

theorem commentless_closed {cs : List Char} (none : Commentless cs) : CommentsClosed cs := by
  generalize outside : false = inside
  have runs : commentAfter inside cs = inside := by
    fun_induction commentAfter inside cs with
    | case1 => rfl
    | case2 rest => exact absurd rfl ((List.isChain_cons.mp none).1 '*' rfl rfl)
    | case3 c rest single ih => exact ih (List.isChain_cons.mp none).2 rfl
    | _ => cases outside
  rw [CommentsClosed, outside, runs]

/-- The text between quotes, without its comments: the closing quote is gone with a comment that
ends nowhere. -/
theorem withoutComments_quoted {quote : Char} (quotes : isQuote quote = true) (cs : List Char) :
    withoutComments (quote :: (cs ++ [quote])) =
      quote :: if CommentsClosed cs then withoutComments cs ++ [quote] else withoutComments cs := by
  obtain ⟨slash, star, -⟩ := not_comment_mark quotes
  rw [withoutComments, blankComments.eq_3 _ _ fun _ same => absurd same slash]
  congr 1
  split
  case isTrue closed =>
    have apart : ¬ SplitsMark false cs [quote] :=
      not_splitsMark fun same => star (Option.some.inj same)
    rw [blankComments_append closed apart, blankComments.eq_3 _ _ fun _ same => absurd same slash]
    rfl
  case isFalse runs => exact blankComments_open quotes (Bool.not_eq_false _ ▸ runs)

theorem kind_of_quote {quote : Char} (quotes : isQuote quote = true) :
    ∃ kind : Kind, kind.quote? = some quote := by
  simp only [isQuote, Bool.or_eq_true, beq_iff_eq] at quotes
  rcases quotes with rfl | rfl
  · exact ⟨.doubleQuoted, rfl⟩
  · exact ⟨.singleQuoted, rfl⟩

/-- A quote with none of its sort behind it takes the rest of the text with it. -/
theorem tokens_unclosed {quote : Char} (quotes : isQuote quote = true) {cs : List Char}
    (plain : quote ∉ cs) : tokens (quote :: cs) = [] := by
  have nothing : extent? quote cs = none := by
    refine extent_eq_none.mpr fun kind v word front => ?_
    have quoted := quote_of_loose word List.mem_cons_self (by simp [isPlain, quotes])
    rw [quoted_language quoted] at word
    obtain ⟨inside, same, -⟩ := mem_between.mp word
    obtain ⟨-, rfl⟩ := List.cons.inj same
    exact plain (front.subset (by simp))
  rw [tokens, tokensFrom, nothing]
  simp [quotes]

end Token

open Token

namespace ComponentValue

theorem readAll_quoted {t : Token} {quote : Char} (quoted : t.kind.quote? = some quote) :
    readAll [t] = .ok ([.string t.inner], []) := by
  obtain ⟨kind, text, gap, position, line⟩ := t
  cases kind <;> cases quoted <;> rfl

/-- A text between quotes is read as one string: as the text itself just when no comment begins in
it, else as the text with its comments blanked out. If one of them ends nowhere, nothing is read. -/
theorem ofText_quoted (quote : Char) (quotes : isQuote quote = true) (s : String)
    (plain : quote ∉ s.toList) :
    ofText (quote.toString ++ s ++ quote.toString) =
        .ok (if CommentsClosed s.toList then
          [.string (String.ofList (withoutComments s.toList))] else []) ∧
      (ofText (quote.toString ++ s ++ quote.toString) = .ok [.string s] ↔
        Commentless s.toList) := by
  have inside : quote ∉ withoutComments s.toList := fun member =>
    (mem_blankComments member).elim (fun same => by simp [same, isQuote] at quotes) plain
  have source : (quote.toString ++ s ++ quote.toString).toList =
      quote :: (s.toList ++ [quote]) := by
    simp
  have read : ofText (quote.toString ++ s ++ quote.toString) =
      .ok (if CommentsClosed s.toList then
        [.string (String.ofList (withoutComments s.toList))] else []) := by
    rw [ofText, StyleSource.tokens, source, withoutComments_quoted quotes]
    by_cases closed : CommentsClosed s.toList
    · obtain ⟨kind, quoted⟩ := kind_of_quote quotes
      have word : quote :: (withoutComments s.toList ++ [quote]) ∈ kind.language := by
        rw [quoted_language quoted]
        exact mem_between.mpr ⟨_, rfl, inside⟩
      rw [if_pos closed, if_pos closed, tokens_word word, readAll_quoted quoted]
      simp [Token.inner]
    · rw [if_neg closed, if_neg closed, tokens_unclosed quotes inside]
      rfl
  refine ⟨read, ?_⟩
  rw [read]
  constructor
  · intro same
    by_cases closed : CommentsClosed s.toList
    · rw [if_pos closed] at same
      injection same with same
      injection same with same
      injection same with same
      rw [← same, String.toList_ofList]
      exact commentless_blankComments false s.toList
    · rw [if_neg closed] at same
      injection same with same
      cases same
  · intro none
    rw [if_pos (commentless_closed none), withoutComments, blankComments_commentless none,
      String.ofList_toList]

/-- Slashes and stars that begin no comment stay. -/
theorem ofText_quoted_slashes :
    ofText "'ui//icons*/a\"b.png'" = .ok [.string "ui//icons*/a\"b.png"] :=
  (ofText_quoted '\'' (by decide) "ui//icons*/a\"b.png" (by decide)).2.mpr
    (by decide)

/-- A comment within quotes is blanked out like any other. -/
theorem not_quoted_comment :
    '"' ∉ "a/*b*/c".toList ∧ ofText "\"a/*b*/c\"" ≠ .ok [.string "a/*b*/c"] := by
  have plain : '"' ∉ "a/*b*/c".toList := by decide
  refine ⟨plain, fun same => ?_⟩
  have begins : ¬ Commentless "a/*b*/c".toList := by decide
  exact begins ((ofText_quoted '"' (by decide) "a/*b*/c" plain).2.mp same)

end ComponentValue
end Cascade
