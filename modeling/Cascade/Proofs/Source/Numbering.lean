import Cascade.Proofs.Source.Respelling
import Cascade.Source.StatementReading
/-!
Lines of the source.

A comment leaves its line breaks behind, and a text may be cut anywhere but within a comment or the
mark that opens one. So the line of a token is counted in the text as written, whatever comments
stand before it.
-/
namespace Cascade

namespace Token

theorem withoutComments_withoutComments (cs : List Char) :
    withoutComments (withoutComments cs) = withoutComments cs :=
  blankComments_commentless (commentless_blankComments false cs)

/-- A token is on the line that the text before it ends on. -/
theorem tokensFrom_line (gap : List Char) (position line : Nat) (cs : List Char)
    {before after : List Token} {t : Token}
    (split : tokensFrom gap position line cs = before ++ t :: after) :
    t.line + newlines gap = line + newlines (spelling before ++ t.gap) := by
  fun_induction tokensFrom gap position line cs generalizing before with
  | case1 | case3 => cases before <;> cases split
  | case2 gap position line c rest kind more found ih =>
      cases before with
      | nil =>
          obtain ⟨rfl, -⟩ := List.cons.inj split
          simp [spelling, newlines]
      | cons first before =>
          obtain ⟨rfl, others⟩ := List.cons.inj split
          have later := ih others
          simp only [spelling, List.flatMap_cons, newlines_append, String.toList_ofList] at later ⊢
          simp only [newlines, List.count_reverse, List.count_nil] at later ⊢
          omega
  | case4 gap position line c rest found plain ih =>
      simp only [dite_eq_ite, ← newline_step] at ih split
      have later := ih split
      rw [newlines_cons] at later
      omega

def byteLength : List Char → Nat
  | [] => 0
  | c :: rest => c.utf8Size + byteLength rest

/-- The number of bytes before a token, given the tokens before it. -/
def offset (before : List Token) (t : Token) : Nat := byteLength (spelling before ++ t.gap)

theorem byteLength_append (cs others : List Char) :
    byteLength (cs ++ others) = byteLength cs + byteLength others := by
  induction cs with
  | nil => rw [List.nil_append, byteLength, Nat.zero_add]
  | cons c rest ih => rw [List.cons_append, byteLength, ih, byteLength, Nat.add_assoc]

theorem byteLength_eq_zero {cs : List Char} (none : byteLength cs = 0) : cs = [] := by
  cases cs with
  | nil => rfl
  | cons c rest =>
      have some := c.utf8Size_pos
      rw [byteLength] at none
      omega

/-- A place in a text is known by the number of bytes before it. -/
theorem prefix_of_byteLength {u v cs : List Char} (front : u <+: cs) (other : v <+: cs)
    (same : byteLength u = byteLength v) : u = v := by
  have within {u v : List Char} (shorter : u <+: v) (same : byteLength u = byteLength v) :
      u = v := by
    obtain ⟨more, rfl⟩ := shorter
    rw [byteLength_append] at same
    have none : byteLength more = 0 := by omega
    rw [byteLength_eq_zero none, List.append_nil]
  rcases List.prefix_or_prefix_of_prefix front other with shorter | longer
  · exact within shorter same
  · exact (within longer same.symm).symm

/-- A token stands in its text behind the tokens before it and its gap. -/
theorem token_prefix {cs : List Char} {before after : List Token} {t : Token}
    (split : tokens cs = before ++ t :: after) :
    spelling before ++ t.gap ++ t.text.toList <+: cs := by
  obtain ⟨dropped, whole⟩ := tokensFrom_spelling [] 0 1 cs
  rw [← tokens, split] at whole
  refine ⟨spelling after ++ dropped, ?_⟩
  simpa [spelling] using whole.symm

end Token

open Token

namespace StyleSource

/-- A text cut outside of its comments and of the marks that open them has its comments blanked out
on both sides of the cut, without a change to its line breaks. A token that stands at the cut is on
the line that the source has there. Counted in 32 bits this is the same line up to `2 ^ 32`
lines. -/
theorem tokens_lined (source rest : String) (closed : CommentsClosed source.toList)
    (whole : ¬ SplitsMark false source.toList rest.toList) :
    withoutComments (source ++ rest).toList =
        withoutComments source.toList ++ withoutComments rest.toList ∧
      newlines (withoutComments source.toList) = newlines source.toList ∧
      (∀ before t after, tokens (source ++ rest) = before ++ t :: after →
        spelling before ++ t.gap ++ t.text.toList <+: withoutComments (source ++ rest).toList ∧
        (offset before t = byteLength (withoutComments source.toList) →
          t.line = 1 + newlines source.toList)) ∧
      ∀ cs, withoutComments (withoutComments cs) = withoutComments cs := by
  have joined : withoutComments (source ++ rest).toList =
      withoutComments source.toList ++ withoutComments rest.toList := by
    rw [String.toList_append]
    exact blankComments_append closed whole
  have kept : newlines (withoutComments source.toList) = newlines source.toList :=
    newlines_blankComments false source.toList
  refine ⟨joined, kept, fun before t after split => ?_, withoutComments_withoutComments⟩
  have here := token_prefix split
  refine ⟨here, fun cut => ?_⟩
  have line := tokensFrom_line [] 0 1 _ split
  have front : spelling before ++ t.gap <+: withoutComments (source ++ rest).toList :=
    (List.prefix_append _ t.text.toList).trans here
  have back : withoutComments source.toList <+: withoutComments (source ++ rest).toList := by
    rw [joined]
    exact List.prefix_append _ _
  rw [prefix_of_byteLength front back cut, kept] at line
  exact line

/-- A comment of two lines, another one that touches it, and a star that touches that. -/
theorem tokens_lined_comments : CommentsClosed "/* é\n*//**/".toList ∧
    ¬ SplitsMark false "/* é\n*//**/".toList "* \x7b \x7d".toList ∧
    ∀ before t after, tokens ("/* é\n*//**/" ++ "* \x7b \x7d") = before ++ t :: after →
      offset before t = 3 → t.line = 2 := by
  have closed : CommentsClosed "/* é\n*//**/".toList := by decide
  have whole : ¬ SplitsMark false "/* é\n*//**/".toList "* \x7b \x7d".toList := by
    rintro ⟨front, back, same, -, outside⟩
    have inside : front = "/* é\n*//**".toList := by
      simpa using (congrArg List.dropLast same).symm
    subst inside
    cases outside
  exact ⟨closed, whole, fun before t after split =>
    ((tokens_lined _ _ closed whole).2.2.1 before t after split).2⟩

end StyleSource
end Cascade
