import Cascade.Proofs.Source.Locating
import Cascade.Proofs.Source.Naming
/-!
Selectors written out and read again.

Every simple selector is written with a mark of its own before its name, so a name ends where the
next mark or a space stands. A compound is read up to the first space, and a selector up to the
brace behind it. So a selector is read back from its text when every one of its names is a word
behind its mark.
-/
namespace Cascade
open Token Text

def SimpleSelector.written : SimpleSelector → List Char
  | .tag name => name.toList
  | .universal => ['*']
  | .id name => '#' :: name.toList
  | .className name => '.' :: name.toList
  | .pseudoClass name => ':' :: name.toList

def Compound.written (c : Compound) : List Char := c.components.flatMap SimpleSelector.written

def Selector.written (s : Selector) : List Char :=
  s.first.written ++ s.rest.flatMap fun segment => segment.1.spaced.toList ++ segment.2.written

/-- A name that is an id as a whole behind a hash: hex digits that make a colour, or an identifier
that does not begin with three hex digits. -/
def Token.IdPlain (name : List Char) : Prop :=
  (3 ≤ name.length ∧ name.length ≤ 8 ∧ ∀ c ∈ name, isHexDigit c = true) ∨
    (name ∈ Kind.ident.language ∧ runLength isHexDigit name < 3)

namespace SimpleSelector

def Named : SimpleSelector → Prop
  | .tag name | .className name => name.toList ∈ Kind.ident.language
  | .pseudoClass name => name.toList ∈ headed isLetter continuesName
  | .universal | .id _ => True

def Legible : SimpleSelector → Prop
  | .id name => IdPlain name.toList
  | c => c.Named

def qualifies : SimpleSelector → Bool
  | .tag _ | .universal => false
  | _ => true

end SimpleSelector

structure Compound.Legible (c : Compound) : Prop where
  shape : ∃ first more, c.components = first :: more ∧ ∀ s ∈ more, s.qualifies = true
  names : ∀ s ∈ c.components, s.Legible

section Reading
variable {rest : List Char}

theorem Token.Bounded.hex (ends : Bounded continuesName rest) : Bounded isHexDigit rest := by
  intro c first
  by_contra hex
  rw [Bool.not_eq_false] at hex
  have other := ends c first
  rw [continues_of_hex hex] at other
  cases other

theorem Token.run_bounded {belongs : Char → Bool} (ends : Bounded belongs rest) (name : List Char) :
    runLength belongs (name ++ rest) = runLength belongs name := by
  have none : rest.takeWhile belongs = [] := by
    cases rest with
    | nil => rfl
    | cons c more => exact List.takeWhile_cons_of_neg (by simp [ends c rfl])
  rw [runLength, runLength, List.takeWhile_append, none]
  split
  case isTrue all => rw [List.append_nil, all]
  case isFalse => rfl

theorem SimpleSelector.bounded_written {c : SimpleSelector} (qualifies : c.qualifies = true)
    (rest : List Char) : Bounded continuesName (c.written ++ rest) := by
  cases c with
  | tag name | universal => cases qualifies
  | id name | className name | pseudoClass name => exact .cons rfl _

/-- What is written of a simple selector behind others is read as that. -/
theorem SimpleSelector.qualifier?_written {c : SimpleSelector} (legible : c.Legible)
    (qualifies : c.qualifies = true) (ends : Bounded continuesName rest) (gap : List Char)
    (position line : Nat) :
    ∃ t us next, tokensFrom gap position line (c.written ++ rest) =
        t :: us ++ tokensFrom [] next line rest ∧
      t.gap = gap.reverse ∧ t.line = line ∧ Compound.canBegin t.kind = true ∧
      ∀ more, qualifier? (t :: us ++ more) = .ok (some (c, more)) := by
  cases c with
  | tag name | universal => cases qualifies
  | className name =>
      have dot : extent? '.' ([] ++ (name.toList ++ rest)) = some (.dot, 0) := rfl
      refine ⟨⟨.dot, ".", gap.reverse, position, line⟩,
        [⟨.ident, name, [], position + 1, line⟩], position + 1 + 1, ?_, rfl, rfl, rfl, fun _ => rfl⟩
      have split := tokensFrom_word gap position line dot
      rw [tokensFrom_ident _ _ _ legible ends, String.ofList_toList] at split
      exact split
  | pseudoClass name =>
      refine ⟨⟨.pseudoClass, String.ofList (':' :: name.toList), gap.reverse, position, line⟩,
        [], position + 1, ?_, rfl, rfl, rfl, fun more => ?_⟩
      · exact tokensFrom_pseudoClass gap position line legible ends
      · simp [qualifier?, tail]
  | id name =>
      rcases legible with ⟨long, short, hex⟩ | ⟨ident, few⟩
      · have run : runLength isHexDigit (name.toList ++ rest) = name.toList.length :=
          run_append hex ends.hex
        have color : extent? '#' (name.toList ++ rest) = some (.hexColor, name.toList.length) := by
          rw [extent_hash, run, Nat.min_eq_right short, if_pos long]
        have word : '#' :: name.toList ∈ Kind.hexColor.language :=
          mem_exactly_mul.mpr ⟨_, mem_between_powers.mpr ⟨long, short, hex⟩, rfl⟩
        refine ⟨⟨.hexColor, String.ofList ('#' :: name.toList), gap.reverse, position, line⟩,
          [], position + 1, ?_, rfl, rfl, rfl, fun more => ?_⟩
        · have split := tokensFrom_word gap position line color
          rwa [newlines_plain rfl word] at split
        · simp [qualifier?, tail]
      · have hash : extent? '#' ([] ++ (name.toList ++ rest)) = some (.hash, 0) := by
          rw [List.nil_append, extent_hash, run_bounded ends.hex, if_neg (by omega)]
        refine ⟨⟨.hash, "#", gap.reverse, position, line⟩,
          [⟨.ident, name, [], position + 1, line⟩], position + 1 + 1, ?_, rfl, rfl, rfl,
          fun _ => rfl⟩
        have split := tokensFrom_word gap position line hash
        rw [tokensFrom_ident _ _ _ ident ends, String.ofList_toList] at split
        exact split

theorem SimpleSelector.bounded_all {cs : List SimpleSelector}
    (qualify : ∀ c ∈ cs, c.qualifies = true) (ends : Bounded continuesName rest) :
    Bounded continuesName (cs.flatMap written ++ rest) := by
  cases cs with
  | nil => exact ends
  | cons c more =>
      rw [List.flatMap_cons, List.append_assoc]
      exact bounded_written (qualify c List.mem_cons_self) _

/-- Nothing that follows touches what stands before it. -/
def Token.Apart (more : List Token) : Prop := ∀ t ∈ more.head?, t.touches = false

theorem Token.Apart.cons {t : Token} (apart : t.touches = false) (us : List Token) :
    Apart (t :: us) := by
  rintro u first
  rwa [← Option.some.inj first]

theorem SimpleSelector.readQualifiers_apart {more : List Token} (apart : Apart more) :
    readQualifiers more = .ok ([], more) := by
  cases more with
  | nil => simp [readQualifiers]
  | cons t rest => simp [readQualifiers_cons, apart t rfl]

theorem SimpleSelector.readQualifiers_written {cs : List SimpleSelector}
    (legible : ∀ c ∈ cs, c.Legible) (qualify : ∀ c ∈ cs, c.qualifies = true)
    (ends : Bounded continuesName rest) (position line : Nat) :
    ∃ us next, tokensFrom [] position line (cs.flatMap written ++ rest) =
        us ++ tokensFrom [] next line rest ∧
      ∀ more, Apart more → readQualifiers (us ++ more) = .ok (cs, more) := by
  induction cs generalizing position with
  | nil => exact ⟨[], position, rfl, fun more apart => readQualifiers_apart apart⟩
  | cons c cs ih =>
      obtain ⟨here, names⟩ := List.forall_mem_cons.mp legible
      obtain ⟨qualifies, others⟩ := List.forall_mem_cons.mp qualify
      obtain ⟨t, us, middle, first, touching, -, -, reads⟩ :=
        qualifier?_written here qualifies (bounded_all others ends) [] position line
      obtain ⟨vs, next, split, more⟩ := ih names others middle
      refine ⟨t :: us ++ vs, next, ?_, fun after apart => ?_⟩
      · rw [List.flatMap_cons, List.append_assoc, first, split, List.append_assoc]
      · rw [List.append_assoc, List.cons_append, readQualifiers_cons,
          if_pos (by simp [touches, touching]), ← List.cons_append, reads]
        simp only [more after apart]

theorem Compound.read_qualifier {t : Token} {us left : List Token} {c : SimpleSelector}
    (found : SimpleSelector.qualifier? (t :: us) = .ok (some (c, left))) :
    Compound.read (t :: us) =
      (SimpleSelector.readQualifiers left).map fun (cs, after) => (⟨c :: cs⟩, after) := by
  cases kind : t.kind
  case ident | star => simp [SimpleSelector.qualifier?, kind] at found
  all_goals simp only [Compound.read, kind, found]

/-- What is written of a simple selector begins a compound. -/
theorem Compound.read_first {c : SimpleSelector} (legible : c.Legible)
    (ends : Bounded continuesName rest) (gap : List Char) (position line : Nat) :
    ∃ t us next, tokensFrom gap position line (c.written ++ rest) =
        t :: us ++ tokensFrom [] next line rest ∧
      t.gap = gap.reverse ∧ t.line = line ∧ canBegin t.kind = true ∧
      ∀ more, Compound.read (t :: us ++ more) =
        (SimpleSelector.readQualifiers more).map fun (cs, left) => (⟨c :: cs⟩, left) := by
  cases c with
  | tag name =>
      have split := tokensFrom_ident gap position line legible ends
      rw [String.ofList_toList] at split
      exact ⟨_, [], _, split, rfl, rfl, rfl, fun more => rfl⟩
  | universal =>
      have star : extent? '*' ([] ++ rest) = some (.star, 0) := rfl
      exact ⟨_, [], _, tokensFrom_word gap position line star, rfl, rfl, rfl, fun more => rfl⟩
  | id name | className name | pseudoClass name =>
      obtain ⟨t, us, next, split, spaced, lined, begins, reads⟩ :=
        SimpleSelector.qualifier?_written legible rfl ends gap position line
      exact ⟨t, us, next, split, spaced, lined, begins, fun more => read_qualifier (reads more)⟩

/-- What is written of a compound is read as that. -/
theorem Compound.read_written {c : Compound} (legible : c.Legible)
    (ends : Bounded continuesName rest) (gap : List Char) (position line : Nat) :
    ∃ t us next, tokensFrom gap position line (c.written ++ rest) =
        t :: us ++ tokensFrom [] next line rest ∧
      t.gap = gap.reverse ∧ t.line = line ∧ canBegin t.kind = true ∧
      ∀ more, Apart more → Compound.read (t :: us ++ more) = .ok (c, more) := by
  obtain ⟨first, others, same, qualify⟩ := legible.shape
  have names := legible.names
  rw [same] at names
  obtain ⟨here, names⟩ := List.forall_mem_cons.mp names
  obtain ⟨t, us, middle, front, spaced, lined, begins, reads⟩ :=
    read_first here (SimpleSelector.bounded_all qualify ends) gap position line
  obtain ⟨vs, next, back, more⟩ :=
    SimpleSelector.readQualifiers_written names qualify ends middle line
  refine ⟨t, us ++ vs, next, ?_, spaced, lined, begins, fun left apart => ?_⟩
  · rw [written, same, List.flatMap_cons, List.append_assoc, front, back]
    simp
  · have read := reads (vs ++ left)
    rw [more left apart] at read
    obtain ⟨components⟩ := c
    obtain rfl : components = first :: others := same
    simpa [Except.map] using read

theorem Combinator.read?_descendant {t : Token} (begins : Compound.canBegin t.kind = true)
    (us : List Token) : read? (t :: us) = some (.descendant, t :: us) := by
  rw [read?]
  split
  case h_1 kind | h_2 kind | h_3 kind =>
    rw [kind] at begins
    cases begins
  case h_4 => rw [if_pos begins]

/-- The sign of a combinator leaves a space before the compound behind it. -/
theorem Combinator.read?_spaced (c : Combinator) (position line : Nat) (cs : List Char) :
    ∃ before next, tokensFrom [] position line (c.spaced.toList ++ cs) =
        before ++ tokensFrom [' '] next line cs ∧
      ∀ t us, Compound.canBegin t.kind = true → t.touches = false →
        Apart (before ++ t :: us) ∧ read? (before ++ t :: us) = some (c, t :: us) := by
  have space (position : Nat) (cs : List Char) :
      tokensFrom [] position line (' ' :: cs) = tokensFrom [' '] position line cs :=
    tokensFrom_dropped _ _ _ rfl rfl
  -- A sign stands between two spaces.
  have sign (mark : Char) (kind : Kind) (found : ∀ rest, extent? mark rest = some (kind, 0))
      (plain : newlines [mark] = 0) :
      tokensFrom [] position line (' ' :: mark :: ' ' :: cs) =
        ⟨kind, String.ofList [mark], [' '], position, line⟩ ::
          tokensFrom [' '] (position + 1) line cs := by
    have split := tokensFrom_word (v := []) [' '] position line (found (' ' :: cs))
    rw [plain] at split
    rw [space, ← space (position + 1)]
    exact split
  cases c with
  | descendant =>
      exact ⟨[], position, space position cs, fun t us begins apart =>
        ⟨.cons apart us, read?_descendant begins us⟩⟩
  | child =>
      exact ⟨[_], _, sign '>' .greaterThan (fun _ => rfl) rfl, fun t us _ _ => ⟨.cons rfl _, rfl⟩⟩
  | nextSibling =>
      exact ⟨[_], _, sign '+' .plus (fun _ => rfl) rfl, fun t us _ _ => ⟨.cons rfl _, rfl⟩⟩
  | laterSibling =>
      exact ⟨[_], _, sign '~' .tilde (fun _ => rfl) rfl, fun t us _ _ => ⟨.cons rfl _, rfl⟩⟩

theorem Combinator.bounded_spaced (c : Combinator) (rest : List Char) :
    Bounded continuesName (c.spaced.toList ++ rest) := by
  cases c <;> exact .cons rfl _

theorem Selector.bounded_rest {cs : List (Combinator × Compound)}
    (ends : Bounded continuesName rest) :
    Bounded continuesName
      ((cs.flatMap fun segment => segment.1.spaced.toList ++ segment.2.written) ++ rest) := by
  cases cs with
  | nil => exact ends
  | cons c more =>
      rw [List.flatMap_cons, List.append_assoc, List.append_assoc]
      exact c.1.bounded_spaced _

/-- What is written behind the first compound is read as that, up to a brace. -/
theorem Selector.readRest_written {cs : List (Combinator × Compound)}
    (legible : ∀ c ∈ cs, c.2.Legible) (ends : Bounded continuesName rest) (position line : Nat) :
    ∃ us next, tokensFrom [] position line
        ((cs.flatMap fun segment => segment.1.spaced.toList ++ segment.2.written) ++ rest) =
          us ++ tokensFrom [] next line rest ∧
      ∀ o more, o.kind = .braceOpen → o.touches = false →
        Apart (us ++ o :: more) ∧ readRest (us ++ o :: more) = .ok (cs, o :: more) := by
  induction cs generalizing position with
  | nil =>
      exact ⟨[], position, rfl, fun o more opens apart =>
        ⟨.cons apart more, readRest_brace opens more⟩⟩
  | cons c cs ih =>
      obtain ⟨here, others⟩ := List.forall_mem_cons.mp legible
      obtain ⟨before, middle, sign, begun⟩ := c.1.read?_spaced position line
        (c.2.written ++ ((cs.flatMap fun segment =>
          segment.1.spaced.toList ++ segment.2.written) ++ rest))
      obtain ⟨t, us, after, compound, spaced, -, begins, reads⟩ :=
        Compound.read_written here (bounded_rest ends) [' '] middle line
      obtain ⟨vs, next, last, more⟩ := ih others after
      refine ⟨before ++ (t :: us ++ vs), next, ?_, fun o left opens apart => ?_⟩
      · rw [List.flatMap_cons, List.append_assoc, List.append_assoc, sign, compound, last]
        simp
      · obtain ⟨behind, read⟩ := more o left opens apart
        have split : before ++ (t :: us ++ vs) ++ o :: left =
            before ++ t :: (us ++ (vs ++ o :: left)) := by simp
        obtain ⟨front, combinator⟩ := begun t (us ++ (vs ++ o :: left)) begins
          (by simp [touches, spaced])
        have first := reads (vs ++ o :: left) behind
        rw [List.cons_append] at first
        rw [split]
        refine ⟨front, ?_⟩
        rw [readRest_eq, combinator]
        simp only [first, read]

def Selector.Legible (s : Selector) : Prop := ∀ segment ∈ s.segments, segment.2.Legible

theorem Selector.legible_iff {s : Selector} :
    s.Legible ↔ s.first.Legible ∧ ∀ segment ∈ s.rest, segment.2.Legible := by
  rw [Legible, segments_eq, List.forall_mem_cons]

/-- What is written of a selector is read as that, up to a brace. -/
theorem Selector.read_written {s : Selector} (legible : s.Legible)
    (ends : Bounded continuesName rest) (position line : Nat) :
    ∃ t us next, tokensFrom [] position line (s.written ++ rest) =
        t :: us ++ tokensFrom [] next line rest ∧
      t.line = line ∧ Compound.canBegin t.kind = true ∧
      ∀ o more, o.kind = .braceOpen → o.touches = false →
        Selector.read (t :: us ++ o :: more) = .ok (s, o :: more) := by
  obtain ⟨here, others⟩ := legible_iff.mp legible
  obtain ⟨t, us, middle, first, -, lined, begins, reads⟩ :=
    Compound.read_written here (bounded_rest ends) [] position line
  obtain ⟨vs, next, last, more⟩ := readRest_written others ends middle line
  refine ⟨t, us ++ vs, next, ?_, lined, begins, fun o left opens apart => ?_⟩
  · rw [written, List.append_assoc, first, last]
    simp
  · obtain ⟨behind, read⟩ := more o left opens apart
    have compound := reads (vs ++ o :: left) behind
    have split : t :: (us ++ vs) ++ o :: left = t :: us ++ (vs ++ o :: left) := by simp
    rw [split, Selector.read, compound]
    simp [read, Except.map]

end Reading

theorem SimpleSelector.slashless_written {c : SimpleSelector} (legible : c.Legible) :
    '/' ∉ c.written := by
  cases c with
  | tag name => exact slashless_ident legible
  | universal => decide
  | className name =>
      exact List.not_mem_cons_of_ne_of_not_mem (by decide) (slashless_ident legible)
  | pseudoClass name =>
      have ident := ident_of_headed legible
      exact List.not_mem_cons_of_ne_of_not_mem (by decide) (slashless_ident ident)
  | id name =>
      refine List.not_mem_cons_of_ne_of_not_mem (by decide) ?_
      rcases legible with ⟨-, -, hex⟩ | ⟨ident, -⟩
      · exact fun member => absurd (hex '/' member) (by decide)
      · exact slashless_ident ident

theorem Compound.slashless_written {c : Compound} (legible : c.Legible) : '/' ∉ c.written := by
  intro member
  obtain ⟨s, inside, slash⟩ := List.mem_flatMap.mp member
  exact SimpleSelector.slashless_written (legible.names s inside) slash

theorem Selector.slashless_written {s : Selector} (legible : s.Legible) : '/' ∉ s.written := by
  obtain ⟨here, others⟩ := legible_iff.mp legible
  rw [written, List.mem_append, not_or]
  refine ⟨Compound.slashless_written here, fun member => ?_⟩
  obtain ⟨⟨combinator, compound⟩, inside, slash⟩ := List.mem_flatMap.mp member
  rcases List.mem_append.mp slash with sign | later
  · cases combinator <;> simp [Combinator.spaced] at sign
  · exact Compound.slashless_written (others _ inside) later

/-- A selector and an empty block are a rule. -/
theorem StyleSource.readStatements_selector {t o c : Token} {us : List Token} {s : Selector}
    (begins : Compound.canBegin t.kind = true) (opens : o.kind = .braceOpen)
    (closes : c.kind = .braceClose)
    (read : Selector.read (t :: (us ++ [o, c])) = .ok (s, [o, c])) :
    readStatements (t :: (us ++ [o, c])) = .ok [.style ⟨[s], [], t.line⟩] := by
  have other : t.kind ≠ .atKeyword := by
    intro kind
    simp [kind, Compound.canBegin] at begins
  have selectors := Selector.readList_last read (by simp [opens])
  have block : Declaration.readBlock [o, c] = .ok ([], []) := by
    simp [Declaration.readBlock, Reading.expect, Reading.require, Declaration.readList_cons, opens,
      closes, Except.map]
  have statement : Statement.read (t :: (us ++ [o, c])) =
      .ok (some (.style ⟨[s], [], t.line⟩), []) := by
    simp [Statement.read, other, StyleRule.read, selectors, block, Except.map]
  have whole := readStatements_step statement (by rw [readStatements])
  exact whole

/-- A legible selector is the selector of the rule that begins with its text. -/
theorem Selector.ofText_written {s : Selector} (legible : s.Legible) :
    StyleSource.ofText (String.ofList s.written ++ " \x7b \x7d") =
      .ok ⟨[.style ⟨[s], [], 1⟩]⟩ := by
  obtain ⟨t, us, next, split, lined, begins, reads⟩ :=
    read_written legible (.cons (c := ' ') rfl ['\x7b', ' ', '\x7d']) 0 1
  have braces : tokensFrom [] next 1 [' ', '\x7b', ' ', '\x7d'] =
      [⟨.braceOpen, "\x7b", [' '], next, 1⟩, ⟨.braceClose, "\x7d", [' '], next + 1, 1⟩] := by
    rw [tokensFrom_dropped _ _ _ rfl rfl, tokensFrom_token _ _ _ rfl, List.drop_zero,
      tokensFrom_dropped _ _ _ rfl rfl, tokensFrom_token _ _ _ rfl, List.drop_zero, tokensFrom]
    rfl
  have slashless : '/' ∉ s.written ++ [' ', '\x7b', ' ', '\x7d'] := by
    simpa using slashless_written legible
  have whole : (String.ofList s.written ++ " \x7b \x7d").toList =
      s.written ++ [' ', '\x7b', ' ', '\x7d'] := by simp
  have read := reads ⟨.braceOpen, "\x7b", [' '], next, 1⟩
    [⟨.braceClose, "\x7d", [' '], next + 1, 1⟩] rfl rfl
  rw [StyleSource.ofText, StyleSource.tokens, whole, withoutComments,
    blankComments_commentless (commentless_slashless slashless), Token.tokens, split, braces,
    List.cons_append, StyleSource.readStatements_selector begins rfl rfl read, lined]
  rfl

section Names
variable {ts rest : List Token}

theorem Token.Words.behind (words : Words ts) (suffix : rest <:+ ts) : Words rest :=
  fun t member => words t (suffix.subset member)

theorem Reading.name_word {needed : Needed} {t : Token} (words : Words ts)
    (read : Reading.name needed ts = .ok (t, rest)) : t.text.toList ∈ Kind.ident.language := by
  obtain rfl := Reading.require_suffix read
  have kind : t.kind = .ident := by
    by_contra other
    simp [Reading.name, Reading.require, other] at read
  rw [← kind]
  exact words t List.mem_cons_self

theorem SimpleSelector.qualifier?_named {c : SimpleSelector} (words : Words ts)
    (read : qualifier? ts = .ok (some (c, rest))) : c.Named := by
  cases ts with
  | nil => cases read
  | cons t us =>
      have others := words.behind (List.suffix_cons t us)
      rw [qualifier?] at read
      split at read
      case h_1 =>
        obtain ⟨⟨n, more⟩, found, same⟩ := map_eq_ok.mp read
        obtain ⟨rfl, -⟩ := Prod.mk.inj (Option.some.inj same)
        exact Reading.name_word others found
      case h_2 =>
        obtain ⟨⟨n, more⟩, found, same⟩ := map_eq_ok.mp read
        obtain ⟨rfl, -⟩ := Prod.mk.inj (Option.some.inj same)
        trivial
      case h_3 =>
        obtain ⟨rfl, -⟩ := Prod.mk.inj (Option.some.inj (Except.ok.inj read))
        trivial
      case h_4 kind =>
        obtain ⟨rfl, -⟩ := Prod.mk.inj (Option.some.inj (Except.ok.inj read))
        have word := words t List.mem_cons_self
        rw [kind] at word
        obtain ⟨name, headed, same⟩ := mem_exactly_mul.mp word
        simpa [Named, Token.tail, same] using headed
      case h_5 => cases read

theorem SimpleSelector.readQualifiers_named {cs : List SimpleSelector} (words : Words ts)
    (read : readQualifiers ts = .ok (cs, rest)) : ∀ c ∈ cs, c.Named := by
  fun_induction readQualifiers ts generalizing cs rest with
  | case1 | case3 | case6 =>
      obtain ⟨rfl, -⟩ := Prod.mk.inj (Except.ok.inj read)
      simp
  | case2 | case4 => cases read
  | case5 t us touching c left success shorter more left' others ih =>
      obtain ⟨rfl, -⟩ := Prod.mk.inj (Except.ok.inj read)
      have behind := words.behind (qualifier?_suffix success)
      exact List.forall_mem_cons.mpr ⟨qualifier?_named words success, ih behind others⟩

theorem Compound.read_named {c : Compound} (words : Words ts)
    (read : Compound.read ts = .ok (c, rest)) : ∀ s ∈ c.components, s.Named := by
  cases ts with
  | nil => cases read
  | cons t us =>
      have behind := words.behind (List.suffix_cons t us)
      simp only [Compound.read] at read
      split at read
      case h_1 => cases read
      case h_2 => cases read
      case h_3 c left first =>
        obtain ⟨⟨more, left'⟩, found, same⟩ := map_eq_ok.mp read
        obtain ⟨rfl, -⟩ := Prod.mk.inj same
        refine List.forall_mem_cons.mpr ?_
        split at first
        case h_1 kind =>
          obtain ⟨rfl, rfl⟩ := Prod.mk.inj (Option.some.inj (Except.ok.inj first))
          refine ⟨?_, SimpleSelector.readQualifiers_named behind found⟩
          have word := words t List.mem_cons_self
          rwa [kind] at word
        case h_2 =>
          obtain ⟨rfl, rfl⟩ := Prod.mk.inj (Option.some.inj (Except.ok.inj first))
          exact ⟨trivial, SimpleSelector.readQualifiers_named behind found⟩
        case h_3 =>
          have after := words.behind (SimpleSelector.qualifier?_suffix first)
          exact ⟨SimpleSelector.qualifier?_named words first,
            SimpleSelector.readQualifiers_named after found⟩

theorem Selector.readRest_named {cs : List (Combinator × Compound)} (words : Words ts)
    (read : readRest ts = .ok (cs, rest)) : ∀ c ∈ cs, ∀ s ∈ c.2.components, s.Named := by
  fun_induction readRest ts generalizing cs rest with
  | case1 ts nothing =>
      obtain ⟨rfl, -⟩ := Prod.mk.inj (Except.ok.inj read)
      simp
  | case2 | case3 => cases read
  | case4 ts c after sign compound left success shorter smaller more left' others ih =>
      obtain ⟨rfl, -⟩ := Prod.mk.inj (Except.ok.inj read)
      have behind := words.behind (Combinator.read?_suffix sign)
      have further := behind.behind (Compound.read_suffix success)
      exact List.forall_mem_cons.mpr ⟨Compound.read_named behind success, ih further others⟩

/-- The names in a selector that was read are words of their sorts. -/
theorem Selector.read_named {s : Selector} (words : Words ts)
    (read : Selector.read ts = .ok (s, rest)) :
    ∀ segment ∈ s.segments, ∀ c ∈ segment.2.components, c.Named := by
  obtain ⟨left, begun, found⟩ := read_parts read
  have behind := words.behind (Compound.read_suffix begun)
  rw [segments_eq]
  exact List.forall_mem_cons.mpr ⟨Compound.read_named words begun, readRest_named behind found⟩

def Selector.Parsed (s : Selector) : Prop :=
  ∃ text source, StyleSource.ofText text = .ok source ∧
    ∃ rule ∈ source.styleRules, s ∈ rule.selectors

theorem Selector.Parsed.named {s : Selector} (parsed : s.Parsed) :
    ∀ segment ∈ s.segments, ∀ c ∈ segment.2.components, c.Named := by
  obtain ⟨text, source, read, rule, inside, member⟩ := parsed
  obtain ⟨statements, found, rfl⟩ := map_eq_ok.mp read
  obtain ⟨statement, listed, same⟩ := List.mem_filterMap.mp inside
  cases statement with
  | style other =>
      obtain rfl := Option.some.inj same
      have places := (StyleSource.readStatements_finds found _ listed).2 s member
      obtain ⟨us, rest, behind, read⟩ := places
      have words : Words (StyleSource.tokens text) := tokensFrom_language [] 0 1 _
      exact read_named (words.behind behind) read
  | keyframes other | decorator other | spriteSheet other => cases same

end Names
end Cascade
