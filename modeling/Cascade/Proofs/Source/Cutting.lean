import Cascade.Proofs.Source.Lexicon
/-!
Cutting a text between its tokens.

Only quoted words hold quotes, spaces and line breaks, and no quoted word begins another. So what is
found at a place stays found when the text is cut off behind it, and when a space or a line break
and more text follow.
-/
namespace Cascade.Token
open Cascade.Text Computability

def Kind.quote? : Kind → Option Char
  | .doubleQuoted => some '"'
  | .singleQuoted => some '\''
  | _ => none

def isBreak (c : Char) : Bool := c == ' ' || c == '\n'

def isPlain (c : Char) : Bool := !isQuote c && !isBreak c

theorem isPlain_quote {c : Char} (plain : isPlain c = true) : isQuote c = false := by
  simp only [isPlain, Bool.and_eq_true, Bool.not_eq_true'] at plain
  exact plain.1

theorem isBreak_cases {b : Char} (breaks : isBreak b = true) : b = ' ' ∨ b = '\n' := by
  simpa [isBreak] using breaks

theorem not_plain {b : Char} (breaks : isBreak b = true) : isPlain b = false := by
  simp [isPlain, breaks]

def Within (belongs : Char → Bool) (l : Language Char) : Prop :=
  ∀ w ∈ l, ∀ c ∈ w, belongs c = true

section Within
variable {belongs among : Char → Bool} {l m : Language Char}

theorem Within.mul (first : Within belongs l) (second : Within belongs m) :
    Within belongs (l * m) := by
  intro w word c member
  obtain ⟨u, front, v, back, rfl⟩ := Language.mem_mul.mp word
  exact (List.mem_append.mp member).elim (first u front c) (second v back c)

theorem Within.add (first : Within belongs l) (second : Within belongs m) :
    Within belongs (l + m) :=
  fun w word => ((Language.mem_add l m w).mp word).elim (first w) (second w)

theorem Within.nothing : Within belongs 1 := by
  rintro w rfl c member
  cases member

theorem Within.optional (some : Within belongs l) : Within belongs (optional l) :=
  Within.nothing.add some

theorem Within.power (each : Within belongs l) (n : Nat) : Within belongs (l ^ n) := by
  induction n with
  | zero => exact .nothing
  | succ n ih => exact pow_succ l n ▸ ih.mul each

theorem Within.exactly {word : List Char} (all : ∀ c ∈ word, belongs c = true) :
    Within belongs (exactly word) := by
  rintro w rfl
  exact all

theorem Within.single {c : Char} (inside : belongs c = true) :
    Within belongs (Token.exactly [c]) :=
  .exactly (List.forall_mem_singleton.mpr inside)

theorem Within.one (sub : ∀ c, among c = true → belongs c = true) :
    Within belongs (one among) := by
  rintro w ⟨c, inside, rfl⟩ d member
  rw [List.mem_singleton.mp member]
  exact sub c inside

theorem Within.run (sub : ∀ c, among c = true → belongs c = true) :
    Within belongs (Token.one among)∗ :=
  fun _ word c member => sub c (mem_run.mp word c member)

end Within

section Bare
variable {belongs : Char → Bool} {c : Char} {k : Kind}

theorem continues_of_letter (letter : isLetter c = true) : continuesName c = true := by
  simp [continuesName, letter]

theorem continues_of_digit (digit : isDigit c = true) : continuesName c = true := by
  simp [continuesName, digit]

theorem continues_of_starts (starts : startsName c = true) : continuesName c = true := by
  rcases Bool.or_eq_true_iff.mp starts with letter | underscore
  · exact continues_of_letter letter
  · simp [continuesName, underscore]

theorem continues_of_hex (hex : isHexDigit c = true) : continuesName c = true := by
  rw [isHexDigit, hexValue?] at hex
  split at hex
  case isTrue digit => exact continues_of_digit digit
  case isFalse =>
    have letter : isLetter c = true := by
      rw [isLetter_iff]
      simp only [Bool.and_eq_true, decide_eq_true_eq, Char.le_def, UInt32.le_iff_toNat_le] at hex
      split at hex
      case isTrue low =>
        have low : 97 ≤ c.toNat ∧ c.toNat ≤ 102 := low
        omega
      case isFalse =>
        split at hex
        case isTrue high =>
          have high : 65 ≤ c.toNat ∧ c.toNat ≤ 70 := high
          omega
        case isFalse => cases hex
    exact continues_of_letter letter

def Kind.signs : Kind → List Char
  | .important => ['!']
  | .hexColor | .hash => ['#']
  | .dimension => ['.', '%']
  | .number | .dot => ['.']
  | .pseudoClass | .colon => [':']
  | .atKeyword => ['@']
  | .doubleQuoted | .singleQuoted | .ident => []
  | .braceOpen => ['{']
  | .braceClose => ['}']
  | .parenOpen => ['(']
  | .parenClose => [')']
  | .semicolon => [';']
  | .comma => [',']
  | .star => ['*']
  | .greaterThan => ['>']
  | .plus => ['+']
  | .tilde => ['~']
  | .slash => ['/']

/-- A word that is not quoted is made of such signs and of what goes on a name. -/
theorem bare_word (bare : k.quote? = none) (names : ∀ c, continuesName c = true → belongs c = true)
    (signs : ∀ c ∈ k.signs, belongs c = true) : Within belongs k.language := by
  have headed {begins : Char → Bool} (sub : ∀ {c}, begins c = true → continuesName c = true) :
      Within belongs (headed begins continuesName) :=
    (Within.one fun c first => names c (sub first)).mul (.run names)
  have all {among : Char → Bool} (sub : ∀ {c}, among c = true → continuesName c = true) :
      Within belongs (several among) :=
    (Within.one fun c first => names c (sub first)).mul (.run fun c other => names c (sub other))
  have sign : Within belongs (optional (exactly ['-'])) := .optional (.single (names '-' rfl))
  have decimal (point : belongs '.' = true) : Within belongs decimal :=
    (all continues_of_digit).mul (.optional ((Within.single point).mul (all continues_of_digit)))
  cases k
  case doubleQuoted => cases bare
  case singleQuoted => cases bare
  case important =>
    refine .exactly ?_
    rw [important_toList, List.forall_mem_cons]
    have letters : "important".toList.all continuesName = true := by decide
    exact ⟨signs _ (by simp [Kind.signs]),
      fun c member => names c (List.all_eq_true.mp letters c member)⟩
  case hexColor =>
    have digit : Within belongs (one isHexDigit) := .one fun c hex => names c (continues_of_hex hex)
    exact (Within.single (signs _ (by simp [Kind.signs]))).mul
      ((digit.power 3).mul (digit.optional.power 5))
  case dimension =>
    have percent : Within belongs (exactly ['%']) := .single (signs _ (by simp [Kind.signs]))
    exact sign.mul ((decimal (signs _ (by simp [Kind.signs]))).mul
      ((all continues_of_letter).add percent))
  case pseudoClass | atKeyword =>
    exact (Within.single (signs _ (by simp [Kind.signs]))).mul (headed continues_of_letter)
  case number => exact sign.mul (decimal (signs _ (by simp [Kind.signs])))
  case ident => exact sign.mul (headed continues_of_starts)
  all_goals exact .single (signs _ (by simp [Kind.signs]))

/-- A word with a quote, a space or a line break in it is quoted. -/
theorem plain_word (bare : k.quote? = none) : Within isPlain k.language := by
  refine bare_word bare (fun c name => ?_) (List.all_eq_true.mp (by cases k <;> rfl))
  by_contra loose
  simp only [isPlain, isQuote, isBreak, Bool.and_eq_true, Bool.not_eq_true',
    Bool.or_eq_false_iff, beq_eq_false_iff_ne, not_and_or, not_not] at loose
  rcases loose with (rfl | rfl) | (rfl | rfl) <;> cases name

/-- A character that does not go on a name is in a word that is not quoted only as a sign. -/
theorem sign_of_mem {d : Char} {w : List Char} (bare : k.quote? = none) (word : w ∈ k.language)
    (other : continuesName d = false) (member : d ∈ w) : d ∈ k.signs := by
  by_contra absent
  have without : Within (· != d) k.language := by
    refine bare_word bare (fun c name => bne_iff_ne.mpr ?_) (fun c sign => bne_iff_ne.mpr ?_)
    · rintro rfl
      cases name.symm.trans other
    · rintro rfl
      exact absent sign
  simpa using without w word d member

end Bare

section Words
variable {c b : Char} {v w rest : List Char} {k kind : Kind} {n : Nat}

theorem quoted_language (quoted : k.quote? = some c) : k.language = between c := by
  cases k <;> cases quoted <;> rfl

theorem quote_unique (one : k.quote? = some c) (other : kind.quote? = some c) : k = kind := by
  cases k <;> cases one <;> cases kind <;> first | rfl | cases other

theorem quote_head (word : b :: v ∈ k.language) (quoted : k.quote? = some c) : b = c := by
  rw [quoted_language quoted] at word
  obtain ⟨inside, same, -⟩ := mem_between.mp word
  exact (List.cons.inj same).1

-- A word that begins with a quote is quoted, and so is one that holds a space or a line break.
theorem quote_of_loose (word : c :: v ∈ k.language) (member : b ∈ c :: v)
    (loose : isPlain b = false) : k.quote? = some c := by
  cases quoted : k.quote? with
  | none => simp [plain_word quoted _ word b member] at loose
  | some q => rw [quote_head word quoted]

/-- A character that ends every word that is not quoted, if it does not begin it: a space, a line
break or a semicolon. -/
def isStop (c : Char) : Bool := isBreak c || c == ';'

theorem quote_of_stop (stops : isStop b = true) (word : c :: v ∈ k.language) (member : b ∈ v) :
    k.quote? = some c := by
  have behind := List.mem_cons_of_mem c member
  rcases Bool.or_eq_true_iff.mp stops with breaks | semicolon
  · exact quote_of_loose word behind (not_plain breaks)
  · obtain rfl := beq_iff_eq.mp semicolon
    cases quoted : k.quote? with
    | some q => rw [quote_head word quoted]
    | none =>
        have sign := sign_of_mem quoted word rfl behind
        obtain rfl : k = .semicolon := by
          cases k <;> first | rfl | simp [Kind.signs] at sign
        obtain ⟨-, rfl⟩ := List.cons.inj (mem_exactly.mp word)
        cases member

theorem isQuote_of_quote (quoted : k.quote? = some c) : isQuote c = true := by
  cases k <;> cases quoted <;> rfl

theorem between_unique (word : w ∈ between c) (other : v ∈ between c) (front : v <+: w) :
    v = w := by
  obtain ⟨x, rfl, -⟩ := mem_between.mp other
  obtain ⟨y, rfl, plain⟩ := mem_between.mp word
  rcases List.prefix_concat_iff.mp ((List.prefix_cons_inj c).mp front) with same | inside
  · rw [same]
  · exact absurd (inside.subset (by simp)) plain

-- Quoted words that begin at one place are the same.
theorem quoted_unique (quoted : kind.quote? = some c) (word : c :: v ∈ kind.language)
    (other : c :: w ∈ k.language) {cs : List Char} (front : v <+: cs) (also : w <+: cs) :
    k = kind ∧ w = v := by
  have quote := isQuote_of_quote quoted
  have loose : isPlain c = false := by simp [isPlain, quote]
  obtain rfl := quote_unique (quote_of_loose other List.mem_cons_self loose) quoted
  rw [quoted_language quoted] at word other
  refine ⟨rfl, ?_⟩
  rcases List.prefix_or_prefix_of_prefix also front with shorter | longer
  · exact (List.cons.inj (between_unique word other ((List.prefix_cons_inj c).mpr shorter))).2
  · exact (List.cons.inj (between_unique other word ((List.prefix_cons_inj c).mpr longer))).2.symm

/-- A text that was cut off behind a token still begins with it. -/
theorem extent_take (found : extent? c rest = some (k, n)) {m : Nat} (behind : n ≤ m) :
    extent? c (rest.take m) = some (k, n) := by
  obtain ⟨⟨inside, word⟩, last⟩ := extent_eq_some.mp found
  rw [extent_eq_some, ← List.take_succ_cons]
  have front := List.take_prefix (m + 1) (c :: rest)
  refine ⟨⟨?_, ?_⟩, fun kind w here ahead => last kind w here (ahead.trans front)⟩
  · rw [List.length_take]
    exact Nat.le_min.mpr ⟨Nat.succ_le_succ behind, inside⟩
  · rwa [List.take_take, Nat.min_eq_left (Nat.succ_le_succ behind)]

theorem extent_take_none (nothing : extent? c rest = none) (m : Nat) :
    extent? c (rest.take m) = none := by
  rw [extent_eq_none] at nothing ⊢
  exact fun k v word front => nothing k v word (front.trans (List.take_prefix m rest))

-- What reaches over a character holds it.
theorem prefix_over {others : List Char} (front : v <+: rest ++ b :: others) :
    v <+: rest ∨ b ∈ v := by
  obtain ⟨tail, whole⟩ := front
  rcases List.append_eq_append_iff.mp whole with ⟨more, same, -⟩ | ⟨beyond, rfl, same⟩
  · exact .inl ⟨more, same.symm⟩
  · cases beyond with
    | nil => exact .inl (by simp)
    | cons d beyond =>
        obtain ⟨rfl, -⟩ := List.cons.inj same
        exact .inr (by simp)

/-- A stop ends every token that is not quoted, and a quoted one is whole before it. -/
theorem extent_stop (stops : isStop b = true) (others : List Char)
    (closed : isQuote c = true → extent? c rest ≠ none) :
    extent? c (rest ++ b :: others) = extent? c rest := by
  -- Only a word in the quotes that begin here could hold the stop.
  have reaches {kind : Kind} {v : List Char} (word : c :: v ∈ kind.language)
      (front : v <+: rest ++ b :: others) : v <+: rest ∨ kind.quote? = some c :=
    (prefix_over front).imp_right fun holds => quote_of_stop stops word holds
  cases found : extent? c rest with
  | none =>
      refine extent_eq_none.mpr fun kind v word front => ?_
      rcases reaches word front with inside | quoted
      · exact extent_eq_none.mp found kind v word inside
      · exact closed (isQuote_of_quote quoted) found
  | some token =>
      obtain ⟨k, n⟩ := token
      obtain ⟨⟨bound, here⟩, last⟩ := extent_eq_some.mp found
      rw [List.take_succ_cons] at here
      refine extent_eq_some.mpr ⟨⟨?_, ?_⟩, fun kind w word front => ?_⟩
      · rw [← List.cons_append, List.length_append]
        exact Nat.le_add_right_of_le bound
      · rwa [List.take_succ_cons, List.take_append_of_le_length (Nat.le_of_succ_le_succ bound)]
      · cases w with
        | nil => simp
        | cons d v =>
            obtain ⟨rfl, ahead⟩ := List.cons_prefix_cons.mp front
            have inside : v <+: rest := by
              rcases reaches word ahead with inside | quoted
              · exact inside
              · have cut := (List.take_prefix n rest).trans (List.prefix_append rest (b :: others))
                obtain ⟨-, rfl⟩ := quoted_unique quoted word here ahead cut
                exact List.take_prefix n rest
            exact last kind _ word ((List.prefix_cons_inj d).mpr inside)

end Words
end Cascade.Token
