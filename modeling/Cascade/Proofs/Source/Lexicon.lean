import Cascade.Token
import Mathlib.Computability.Language
import Mathlib.Data.List.TakeWhile
/-!
The words of each kind of token, and the longest of them.

The kinds are regular languages. A token is found where some word begins, and it is the longest
word that begins there; no two kinds share a word.
-/
namespace Cascade.Token
open Cascade.Text Computability

def one (belongs : Char → Bool) : Language Char := {w | ∃ c, belongs c = true ∧ w = [c]}

def exactly (word : List Char) : Language Char := {word}

def optional (l : Language Char) : Language Char := 1 + l

def several (belongs : Char → Bool) : Language Char := one belongs * (one belongs)∗

def headed (begins continues : Char → Bool) : Language Char := one begins * (one continues)∗

def decimal : Language Char := several isDigit * optional (exactly ['.'] * several isDigit)

/-- What follows the sign of a number or a dimension. -/
def numeral : Kind → Language Char
  | .number => decimal
  | .dimension => decimal * (several isLetter + exactly ['%'])
  | _ => 0

def between (quote : Char) : Language Char :=
  one (· == quote) * ((one (· != quote))∗ * one (· == quote))

def Kind.language : Kind → Language Char
  | .important => exactly "!important".toList
  | .hexColor => exactly ['#'] * (one isHexDigit ^ 3 * optional (one isHexDigit) ^ 5)
  | .dimension => optional (exactly ['-']) * numeral .dimension
  | .pseudoClass => exactly [':'] * headed isLetter continuesName
  | .atKeyword => exactly ['@'] * headed isLetter continuesName
  | .doubleQuoted => between '"'
  | .singleQuoted => between '\''
  | .number => optional (exactly ['-']) * numeral .number
  | .ident => optional (exactly ['-']) * headed startsName continuesName
  | .braceOpen => exactly ['{']
  | .braceClose => exactly ['}']
  | .parenOpen => exactly ['(']
  | .parenClose => exactly [')']
  | .colon => exactly [':']
  | .semicolon => exactly [';']
  | .comma => exactly [',']
  | .dot => exactly ['.']
  | .hash => exactly ['#']
  | .star => exactly ['*']
  | .greaterThan => exactly ['>']
  | .plus => exactly ['+']
  | .tilde => exactly ['~']
  | .slash => exactly ['/']

theorem important_toList : "!important".toList = '!' :: "important".toList := by
  simp

section Shapes
variable {belongs begins continues : Char → Bool} {l : Language Char} {w : List Char}

theorem mem_exactly {word : List Char} : w ∈ exactly word ↔ w = word := Iff.rfl

theorem mem_run : w ∈ (one belongs)∗ ↔ ∀ c ∈ w, belongs c = true := by
  constructor
  · intro repeated c member
    obtain ⟨parts, rfl, all⟩ := Language.mem_kstar.mp repeated
    obtain ⟨part, inside, here⟩ := List.mem_flatten.mp member
    obtain ⟨d, belonging, rfl⟩ := all part inside
    rwa [List.mem_singleton.mp here]
  · intro all
    refine Language.mem_kstar.mpr ⟨w.map fun c => [c], ?_, fun part inside => ?_⟩
    · exact (List.flatMap_singleton' w).symm
    · obtain ⟨c, member, rfl⟩ := List.mem_map.mp inside
      exact ⟨c, all c member, rfl⟩

theorem mem_one {c : Char} : [c] ∈ one belongs ↔ belongs c = true := by
  constructor
  · rintro ⟨d, belonging, same⟩
    rwa [List.singleton_inj.mp same]
  · exact fun belonging => ⟨c, belonging, rfl⟩

theorem mem_one_mul : w ∈ one begins * l ↔ ∃ c v, w = c :: v ∧ begins c = true ∧ v ∈ l := by
  constructor
  · intro member
    obtain ⟨u, ⟨c, first, rfl⟩, v, rest, rfl⟩ := Language.mem_mul.mp member
    exact ⟨c, v, rfl, first, rest⟩
  · rintro ⟨c, v, rfl, first, rest⟩
    exact Language.append_mem_mul (mem_one.mpr first) rest

theorem mem_headed :
    w ∈ headed begins continues ↔
      ∃ c v, w = c :: v ∧ begins c = true ∧ ∀ d ∈ v, continues d = true := by
  simp only [headed, mem_one_mul, mem_run]

theorem mem_several :
    w ∈ several belongs ↔ ∃ c v, w = c :: v ∧ belongs c = true ∧ ∀ d ∈ v, belongs d = true :=
  mem_headed

theorem mem_exactly_mul {word : List Char} :
    w ∈ exactly word * l ↔ ∃ v ∈ l, w = word ++ v := by
  constructor
  · intro member
    obtain ⟨u, rfl, v, rest, rfl⟩ := Language.mem_mul.mp member
    exact ⟨v, rest, rfl⟩
  · rintro ⟨v, rest, rfl⟩
    exact Language.append_mem_mul rfl rest

theorem mem_optional : w ∈ optional l ↔ w = [] ∨ w ∈ l := Language.mem_add _ _ _

theorem mem_signed : w ∈ optional (exactly ['-']) * l ↔ w ∈ l ∨ ∃ v ∈ l, w = '-' :: v := by
  rw [optional, add_mul, one_mul, Language.mem_add, mem_exactly_mul]
  rfl

theorem mem_between {quote : Char} :
    w ∈ between quote ↔ ∃ v, w = quote :: (v ++ [quote]) ∧ quote ∉ v := by
  rw [between, mem_one_mul]
  constructor
  · rintro ⟨c, rest, rfl, opens, inside⟩
    obtain ⟨v, plain, _, ⟨d, closes, rfl⟩, rfl⟩ := Language.mem_mul.mp inside
    obtain rfl := beq_iff_eq.mp opens
    obtain rfl := beq_iff_eq.mp closes
    exact ⟨v, rfl, fun member => by simpa using mem_run.mp plain _ member⟩
  · rintro ⟨v, rfl, plain⟩
    refine ⟨quote, _, rfl, beq_self_eq_true _, Language.append_mem_mul ?_ (mem_one.mpr (by simp))⟩
    refine mem_run.mpr fun c member => bne_iff_ne.mpr ?_
    rintro rfl
    exact plain member

theorem mem_power {n : Nat} :
    w ∈ one belongs ^ n ↔ w.length = n ∧ ∀ c ∈ w, belongs c = true := by
  induction n generalizing w with
  | zero => simp +contextual [Language.mem_one]
  | succ n ih =>
      rw [pow_succ', mem_one_mul]
      constructor
      · rintro ⟨c, v, rfl, first, rest⟩
        obtain ⟨length, all⟩ := ih.mp rest
        simpa [length, first] using all
      · rintro ⟨length, all⟩
        cases w with
        | nil => simp at length
        | cons c v =>
            rw [List.forall_mem_cons] at all
            exact ⟨c, v, rfl, all.1, ih.mpr ⟨Nat.succ.inj length, all.2⟩⟩

theorem mem_optional_power {n : Nat} :
    w ∈ optional (one belongs) ^ n ↔ w.length ≤ n ∧ ∀ c ∈ w, belongs c = true := by
  induction n generalizing w with
  | zero => simp +contextual [Language.mem_one]
  | succ n ih =>
      rw [pow_succ', optional, add_mul, one_mul, Language.mem_add, mem_one_mul]
      constructor
      · rintro (fewer | ⟨c, v, rfl, first, rest⟩)
        · exact ⟨Nat.le_succ_of_le (ih.mp fewer).1, (ih.mp fewer).2⟩
        · obtain ⟨length, all⟩ := ih.mp rest
          simpa [length, first] using all
      · rintro ⟨length, all⟩
        cases w with
        | nil => exact .inl (ih.mpr ⟨Nat.zero_le n, all⟩)
        | cons c v =>
            rw [List.forall_mem_cons] at all
            exact .inr ⟨c, v, rfl, all.1, ih.mpr ⟨Nat.le_of_succ_le_succ length, all.2⟩⟩

/-- A number of characters of a class, between two bounds. -/
theorem mem_between_powers {least extra : Nat} :
    w ∈ one belongs ^ least * optional (one belongs) ^ extra ↔
      least ≤ w.length ∧ w.length ≤ least + extra ∧ ∀ c ∈ w, belongs c = true := by
  rw [Language.mem_mul]
  constructor
  · rintro ⟨u, first, v, rest, rfl⟩
    obtain ⟨exact, front⟩ := mem_power.mp first
    obtain ⟨few, back⟩ := mem_optional_power.mp rest
    rw [List.length_append, List.forall_mem_append]
    exact ⟨by omega, by omega, front, back⟩
  · rintro ⟨enough, few, all⟩
    refine ⟨w.take least, mem_power.mpr ⟨?_, ?_⟩, w.drop least,
      mem_optional_power.mpr ⟨?_, ?_⟩, List.take_append_drop least w⟩
    · rw [List.length_take, Nat.min_eq_left enough]
    · exact fun c member => all c (List.mem_of_mem_take member)
    · rw [List.length_drop]
      omega
    · exact fun c member => all c (List.mem_of_mem_drop member)

end Shapes

/-- The first `n` characters are there, and are a word. -/
structure Begins (l : Language Char) (n : Nat) (cs : List Char) : Prop where
  inside : n ≤ cs.length
  word : cs.take n ∈ l

section Beginning
variable {belongs continues : Char → Bool} {l other : Language Char} {m n : Nat} {c : Char}
  {v rest cs : List Char}

theorem Begins.append (first : Begins l m cs) (second : Begins other n (cs.drop m)) :
    Begins (l * other) (m + n) cs := by
  have bound := second.inside
  have start := first.inside
  rw [List.length_drop] at bound
  refine ⟨by omega, ?_⟩
  rw [List.take_add]
  exact Language.append_mem_mul first.word second.word

theorem Begins.mono (begins : Begins l n cs) (among : ∀ w ∈ l, w ∈ other) : Begins other n cs :=
  ⟨begins.inside, among _ begins.word⟩

theorem Begins.exactly {word : List Char} (front : word <+: cs) :
    Begins (exactly word) word.length cs :=
  ⟨front.length_le, (List.prefix_iff_eq_take.mp front).symm⟩

theorem Begins.nothing : Begins (optional l) 0 cs :=
  ⟨Nat.zero_le _, mem_optional.mpr (.inl List.take_zero)⟩

theorem Begins.something (begins : Begins l n cs) : Begins (optional l) n cs :=
  begins.mono fun _ word => mem_optional.mpr (.inr word)

theorem Begins.one (first : belongs c = true) : Begins (one belongs) 1 (c :: rest) :=
  ⟨Nat.succ_le_succ (Nat.zero_le _), mem_one.mpr first⟩

theorem Begins.run (belongs : Char → Bool) (cs : List Char) :
    Begins (Token.one belongs)∗ (runLength belongs cs) cs := by
  have front := List.takeWhile_prefix belongs (l := cs)
  refine ⟨front.length_le, mem_run.mpr fun c member => ?_⟩
  rw [runLength, ← List.prefix_iff_eq_take.mp front] at member
  exact List.mem_takeWhile_imp member

theorem Begins.headed (first : belongs c = true) (continues : Char → Bool) (rest : List Char) :
    Begins (headed belongs continues) (runLength continues rest + 1) (c :: rest) := by
  rw [Nat.add_comm]
  exact (Begins.one first).append (.run continues rest)

theorem Begins.several (some : runLength belongs cs ≠ 0) :
    Begins (several belongs) (runLength belongs cs) cs := by
  cases cs with
  | nil => exact absurd rfl some
  | cons c rest =>
      cases first : belongs c with
      | false => simp [runLength, first] at some
      | true =>
          have run : runLength belongs (c :: rest) = runLength belongs rest + 1 := by
            simp [runLength, first]
          rw [run]
          exact .headed first belongs rest

theorem Begins.powers {least extra : Nat} (enough : least ≤ n) (few : n ≤ least + extra)
    (inside : n ≤ runLength belongs cs) :
    Begins (Token.one belongs ^ least * optional (Token.one belongs) ^ extra) n cs := by
  obtain ⟨bound, all⟩ := Begins.run belongs cs
  have length : (cs.take n).length = n := List.length_take_of_le (Nat.le_trans inside bound)
  refine ⟨Nat.le_trans inside bound, mem_between_powers.mpr ?_⟩
  rw [length]
  exact ⟨enough, few, fun c member =>
    mem_run.mp all c (List.take_subset_take_left cs inside member)⟩

theorem Begins.signed (begins : Begins l n cs) : Begins (optional (Token.exactly ['-']) * l) n cs :=
  begins.mono fun _ word => mem_signed.mpr (.inl word)

theorem Begins.minus (begins : Begins l n cs) :
    Begins (optional (Token.exactly ['-']) * l) (n + 1) ('-' :: cs) :=
  ⟨Nat.succ_le_succ begins.inside, mem_signed.mpr (.inr ⟨_, begins.word, rfl⟩)⟩

theorem le_run (all : ∀ c ∈ v, belongs c = true) (front : v <+: cs) :
    v.length ≤ runLength belongs cs := by
  obtain ⟨rest, rfl⟩ := front
  rw [runLength, List.takeWhile_append_of_pos all, List.length_append]
  exact Nat.le_add_right _ _

theorem run_append (all : ∀ c ∈ v, belongs c = true)
    (ends : ∀ c ∈ rest.head?, belongs c = false) :
    runLength belongs (v ++ rest) = v.length := by
  rw [runLength, List.takeWhile_append_of_pos all]
  cases rest with
  | nil => simp
  | cons c more =>
      have last := ends c rfl
      simp [last]

-- A run ends at a character of another class.
theorem not_run (more : runLength belongs cs < cs.length) :
    belongs cs[runLength belongs cs] = false := by
  induction cs with
  | nil => simp at more
  | cons c rest ih =>
      cases first : belongs c with
      | false => simp [runLength, first]
      | true =>
          have longer : runLength belongs (c :: rest) = runLength belongs rest + 1 := by
            simp [runLength, first]
          rw [longer, List.length_cons] at more
          simp only [longer, List.getElem_cons_succ]
          exact ih (Nat.lt_of_succ_lt_succ more)

theorem several_length (member : v ∈ several belongs) : v.length ≠ 0 := by
  obtain ⟨c, more, rfl, -, -⟩ := mem_several.mp member
  simp

theorem several_all (member : v ∈ several belongs) : ∀ c ∈ v, belongs c = true := by
  obtain ⟨c, more, rfl, first, others⟩ := mem_several.mp member
  exact List.forall_mem_cons.mpr ⟨first, others⟩

end Beginning

theorem isDigit_iff {c : Char} : isDigit c = true ↔ 48 ≤ c.toNat ∧ c.toNat ≤ 57 := by
  simp [isDigit, Char.le_def, UInt32.le_iff_toNat_le]

theorem isLetter_iff {c : Char} : isLetter c = true ↔
    (97 ≤ c.toNat ∧ c.toNat ≤ 122) ∨ (65 ≤ c.toNat ∧ c.toNat ≤ 90) := by
  simp [isLetter, Char.le_def, UInt32.le_iff_toNat_le]

theorem not_digit_of_letter {c : Char} (letter : isLetter c = true) : isDigit c = false := by
  rw [isLetter_iff] at letter
  rw [← Bool.not_eq_true, isDigit_iff]
  omega

theorem not_digit_of_startsName {c : Char} (starts : startsName c = true) : isDigit c = false := by
  rcases Bool.or_eq_true_iff.mp starts with letter | underscore
  · exact not_digit_of_letter letter
  · rw [beq_iff_eq.mp underscore]
    rfl

section Numbers
variable {w rest cs : List Char}

theorem run_le_decimal (cs : List Char) : runLength isDigit cs ≤ decimalLength cs := by
  simp only [decimalLength]
  split
  · split <;> omega
  · exact Nat.le_refl _

theorem decimal_begins (some : runLength isDigit cs ≠ 0) :
    Begins decimal (decimalLength cs) cs := by
  have whole := Begins.several some
  simp only [decimalLength]
  split
  case h_1 more point =>
    split
    case isTrue => exact whole.append .nothing
    case isFalse digits =>
      have fraction : Begins (exactly ['.'] * several isDigit) (1 + runLength isDigit more)
          (cs.drop (runLength isDigit cs)) := by
        rw [point]
        exact (Begins.exactly ⟨more, rfl⟩).append (.several digits)
      rw [Nat.add_assoc]
      exact whole.append fraction.something
  case h_2 => exact whole.append .nothing

theorem decimal_cases (word : w ∈ decimal) :
    w ∈ several isDigit ∨ ∃ u ∈ several isDigit, ∃ v ∈ several isDigit, w = u ++ '.' :: v := by
  obtain ⟨u, whole, v, fraction, rfl⟩ := Language.mem_mul.mp word
  rcases mem_optional.mp fraction with rfl | pointed
  · exact .inl (by rwa [List.append_nil])
  · obtain ⟨x, digits, rfl⟩ := mem_exactly_mul.mp pointed
    exact .inr ⟨u, whole, x, digits, rfl⟩

-- A word of a decimal determines where the point is.
theorem decimal_pointed {u v : List Char} (whole : u ∈ several isDigit)
    (fraction : v ∈ several isDigit) :
    decimalLength (u ++ '.' :: (v ++ rest)) = u.length + 1 + runLength isDigit (v ++ rest) := by
  have digits : runLength isDigit (u ++ '.' :: (v ++ rest)) = u.length :=
    run_append (several_all whole) (by simp; decide)
  have more := le_run (several_all fraction) (List.prefix_append v rest)
  have some := several_length fraction
  simp only [decimalLength, digits, List.drop_left]
  rw [if_neg (by omega)]

theorem decimal_le (word : w ∈ decimal) (front : w <+: cs) : w.length ≤ decimalLength cs := by
  rcases decimal_cases word with digits | ⟨u, whole, v, fraction, rfl⟩
  · exact Nat.le_trans (le_run (several_all digits) front) (run_le_decimal cs)
  · obtain ⟨rest, rfl⟩ := front
    have more := le_run (several_all fraction) (List.prefix_append v rest)
    rw [List.append_assoc, List.cons_append, decimal_pointed whole fraction, List.length_append,
      List.length_cons]
    omega

theorem decimal_append (word : w ∈ decimal)
    (ends : ∀ c ∈ rest.head?, isDigit c = false ∧ c ≠ '.') :
    decimalLength (w ++ rest) = w.length := by
  have stops : ∀ c ∈ rest.head?, isDigit c = false := fun c first => (ends c first).1
  rcases decimal_cases word with digits | ⟨u, whole, v, fraction, rfl⟩
  · have run := run_append (several_all digits) stops
    simp only [decimalLength, run, List.drop_left]
    split
    case h_1 more point => exact absurd rfl (ends '.' rfl).2
    case h_2 => rfl
  · have run := run_append (several_all fraction) stops
    rw [List.append_assoc, List.cons_append, decimal_pointed whole fraction, run]
    simp
    omega

theorem decimal_le_numeric (cs : List Char) : decimalLength cs ≤ (numeric cs).2 := by
  simp only [numeric]
  split
  · exact Nat.le_add_right _ _
  · split
    · exact Nat.le_add_right _ _
    · exact Nat.le_refl _

theorem numeral_begins (some : runLength isDigit cs ≠ 0) :
    Begins (numeral (numeric cs).1) (numeric cs).2 cs := by
  have number := decimal_begins some
  simp only [numeric]
  split
  case isTrue letters =>
    exact number.append ((Begins.several letters).mono fun _ => .inl)
  case isFalse =>
    split
    case h_1 more percent =>
      have suffix : Begins (exactly ['%']) 1 (cs.drop (decimalLength cs)) := by
        rw [percent]
        exact .exactly ⟨more, rfl⟩
      exact number.append (suffix.mono fun _ => .inr)
    case h_2 => exact number

theorem numeral_longest {k : Kind} (word : w ∈ numeral k) (front : w <+: cs) :
    w.length ≤ (numeric cs).2 ∧ (w.length = (numeric cs).2 → (numeric cs).1 = k) := by
  cases k
  case number =>
    have long := decimal_le word front
    simp only [numeric]
    split
    case isTrue => exact ⟨by omega, fun same => by omega⟩
    case isFalse =>
      split
      · exact ⟨by simp only; omega, fun same => by simp only at same; omega⟩
      · exact ⟨long, fun _ => rfl⟩
  case dimension =>
    obtain ⟨u, number, v, suffix, rfl⟩ := Language.mem_mul.mp word
    obtain ⟨rest, rfl⟩ := front
    rw [List.append_assoc, List.length_append]
    rcases suffix with letters | rfl
    · obtain ⟨c, more, rfl, first, others⟩ := mem_several.mp letters
      have point : c ≠ '.' := by
        rintro rfl
        cases first
      have length : decimalLength (u ++ (c :: more ++ rest)) = u.length :=
        decimal_append number (by simpa using ⟨not_digit_of_letter first, point⟩)
      have run := le_run (several_all letters) (List.prefix_append (c :: more) rest)
      have some : runLength isLetter (c :: more ++ rest) ≠ 0 := by
        rw [List.length_cons] at run
        omega
      simp only [numeric, length, List.drop_left, if_pos some]
      exact ⟨Nat.add_le_add_left run _, fun _ => trivial⟩
    · have length : decimalLength (u ++ ('%' :: rest)) = u.length :=
        decimal_append number (by simp; decide)
      have none : runLength isLetter ('%' :: rest) = 0 := rfl
      simp only [numeric, List.cons_append, List.nil_append, length, List.drop_left, none]
      exact ⟨Nat.le_refl _, fun _ => rfl⟩
  all_goals cases word

theorem numeral_head {k : Kind} (word : w ∈ numeral k) :
    ∃ c v, w = c :: v ∧ isDigit c = true := by
  have starts {u : List Char} (number : u ∈ decimal) : ∃ c v, u = c :: v ∧ isDigit c = true := by
    obtain ⟨x, whole, y, -, rfl⟩ := Language.mem_mul.mp number
    obtain ⟨c, more, rfl, digit, -⟩ := mem_several.mp whole
    exact ⟨c, more ++ y, rfl, digit⟩
  cases k
  case number => exact starts word
  case dimension =>
    obtain ⟨u, number, v, -, rfl⟩ := Language.mem_mul.mp word
    obtain ⟨c, more, rfl, digit⟩ := starts number
    exact ⟨c, more ++ v, rfl, digit⟩
  all_goals cases word

theorem run_digit {c : Char} (rest : List Char) (digit : isDigit c = true) :
    runLength isDigit (c :: rest) ≠ 0 := by
  simp [runLength, digit]

theorem numeral_language (cs : List Char) :
    (numeric cs).1.language = optional (exactly ['-']) * numeral (numeric cs).1 := by
  simp only [numeric]
  split
  · rfl
  · split <;> rfl

end Numbers

theorem extent_of_digit {c : Char} (digit : isDigit c = true) (rest : List Char) :
    extent? c rest = some ((numeric (c :: rest)).1, (numeric (c :: rest)).2 - 1) := by
  simp [extent?, digit]

theorem extent_of_startsName {c : Char} (begins : startsName c = true) (rest : List Char) :
    extent? c rest = some (.ident, runLength continuesName rest) := by
  simp [extent?, not_digit_of_startsName begins, begins]

theorem extent_minus (d : Char) (more : List Char) : extent? '-' (d :: more) =
    if isDigit d then some (numeric (d :: more))
    else if startsName d then some (.ident, runLength continuesName more + 1) else none := rfl

theorem extent_bang (rest : List Char) : extent? '!' rest =
    if "important".toList.isPrefixOf rest then some (.important, "important".length)
    else none := rfl

theorem extent_hash (rest : List Char) : extent? '#' rest =
    if 3 ≤ min 8 (runLength isHexDigit rest) then
      some (.hexColor, min 8 (runLength isHexDigit rest))
    else some (.hash, 0) := rfl

theorem extent_colon (rest : List Char) :
    extent? ':' rest = (markedName? .pseudoClass rest).or (some (.colon, 0)) := rfl

/-! What is found at a place is a word. -/

section Found
variable {c : Char} {rest v w : List Char} {k : Kind} {n : Nat}

theorem markedName_begins {mark kind : Kind} (found : markedName? mark rest = some (kind, n)) :
    kind = mark ∧ Begins (headed isLetter continuesName) n rest := by
  cases rest with
  | nil => simp [markedName?] at found
  | cons d more =>
      rw [markedName?] at found
      split at found
      case isTrue letter =>
        obtain ⟨rfl, rfl⟩ := Prod.mk.inj (Option.some.inj found)
        exact ⟨rfl, .headed letter continuesName more⟩
      case isFalse => simp at found

theorem markedName_ne_zero {mark kind : Kind} (found : markedName? mark rest = some (kind, n)) :
    n ≠ 0 := by
  rintro rfl
  obtain ⟨_, _, same, -⟩ := mem_headed.mp (markedName_begins found).2.word
  cases same

theorem quoted_begins {mark kind : Kind} {quote : Char}
    (found : quoted? mark quote rest = some (kind, n)) :
    kind = mark ∧ Begins (between quote) (n + 1) (quote :: rest) := by
  simp only [quoted?] at found
  split at found
  case isTrue closed =>
    obtain ⟨rfl, rfl⟩ := Prod.mk.inj (Option.some.inj found)
    have last : Begins (one (· == quote)) 1 (rest.drop (runLength (· != quote) rest)) := by
      rw [List.drop_eq_getElem_cons closed]
      exact .one (by simpa using not_run closed)
    rw [Nat.add_comm]
    exact ⟨rfl, (Begins.one (by simp)).append ((Begins.run _ _).append last)⟩
  case isFalse => simp at found

theorem punctuation_begins (found : punctuation? c = some k) : Begins k.language 1 (c :: rest) := by
  unfold punctuation? at found
  split at found
  all_goals first
    | cases found
      exact .exactly ⟨rest, rfl⟩
    | simp at found

theorem digit_begins (digit : isDigit c = true) (found : extent? c rest = some (k, n)) :
    Begins k.language (n + 1) (c :: rest) := by
  rw [extent_of_digit digit] at found
  obtain ⟨rfl, rfl⟩ := Prod.mk.inj (Option.some.inj found)
  have some := run_digit rest digit
  have long := Nat.le_trans (run_le_decimal (c :: rest)) (decimal_le_numeric (c :: rest))
  have length : (numeric (c :: rest)).2 - 1 + 1 = (numeric (c :: rest)).2 := by omega
  rw [numeral_language, length]
  exact (numeral_begins some).signed

theorem name_begins (begins : startsName c = true) (found : extent? c rest = some (k, n)) :
    Begins k.language (n + 1) (c :: rest) := by
  rw [extent_of_startsName begins] at found
  obtain ⟨rfl, rfl⟩ := Prod.mk.inj (Option.some.inj found)
  exact (Begins.headed begins continuesName rest).signed

theorem minus_begins (found : extent? '-' rest = some (k, n)) :
    Begins k.language (n + 1) ('-' :: rest) := by
  cases rest with
  | nil => simp [extent?, isDigit, startsName, isLetter] at found
  | cons d more =>
      rw [extent_minus] at found
      split at found
      case isTrue digit =>
        have word := (numeral_begins (run_digit more digit)).minus
        rw [← numeral_language, Option.some.inj found] at word
        exact word
      split at found
      case isTrue begins =>
        obtain ⟨rfl, rfl⟩ := Prod.mk.inj (Option.some.inj found)
        exact (Begins.headed begins continuesName more).minus
      case isFalse => simp at found

theorem bang_begins (found : extent? '!' rest = some (k, n)) :
    Begins k.language (n + 1) ('!' :: rest) := by
  rw [extent_bang] at found
  split at found
  case isTrue word =>
    obtain ⟨rfl, rfl⟩ := Prod.mk.inj (Option.some.inj found)
    have front := List.isPrefixOf_iff_prefix.mp word
    rw [Kind.language, important_toList]
    exact .exactly ((List.prefix_cons_inj '!').mpr front)
  case isFalse => simp at found

theorem hash_begins (found : extent? '#' rest = some (k, n)) :
    Begins k.language (n + 1) ('#' :: rest) := by
  rw [extent_hash] at found
  split at found
  case isTrue enough =>
    obtain ⟨rfl, rfl⟩ := Prod.mk.inj (Option.some.inj found)
    rw [Nat.add_comm]
    exact (Begins.exactly ⟨rest, rfl⟩).append
      (.powers enough (Nat.min_le_left _ _) (Nat.min_le_right _ _))
  case isFalse =>
    obtain ⟨rfl, rfl⟩ := Prod.mk.inj (Option.some.inj found)
    exact .exactly ⟨rest, rfl⟩

theorem colon_begins (found : extent? ':' rest = some (k, n)) :
    Begins k.language (n + 1) (':' :: rest) := by
  rw [extent_colon] at found
  rcases Option.or_eq_some_iff.mp found with named | ⟨-, alone⟩
  · obtain ⟨rfl, name⟩ := markedName_begins named
    rw [Nat.add_comm]
    exact (Begins.exactly ⟨rest, rfl⟩).append name
  · obtain ⟨rfl, rfl⟩ := Prod.mk.inj (Option.some.inj alone)
    exact .exactly ⟨rest, rfl⟩

theorem at_begins (found : extent? '@' rest = some (k, n)) :
    Begins k.language (n + 1) ('@' :: rest) := by
  obtain ⟨rfl, name⟩ := markedName_begins found
  rw [Nat.add_comm]
  exact (Begins.exactly ⟨rest, rfl⟩).append name

/-- A token that is found is a word of its kind. -/
theorem extent_begins (found : extent? c rest = some (k, n)) :
    Begins k.language (n + 1) (c :: rest) := by
  by_cases digit : isDigit c = true
  · exact digit_begins digit found
  by_cases begins : startsName c = true
  · exact name_begins begins found
  by_cases minus : c = '-'
  · exact minus ▸ minus_begins (minus ▸ found)
  by_cases bang : c = '!'
  · exact bang ▸ bang_begins (bang ▸ found)
  by_cases hash : c = '#'
  · exact hash ▸ hash_begins (hash ▸ found)
  by_cases colon : c = ':'
  · exact colon ▸ colon_begins (colon ▸ found)
  by_cases at' : c = '@'
  · exact at' ▸ at_begins (at' ▸ found)
  simp only [extent?, if_neg digit, if_neg begins, if_neg minus, if_neg bang, if_neg hash,
    if_neg colon, if_neg at'] at found
  split at found
  case isTrue double =>
    subst double
    obtain ⟨rfl, word⟩ := quoted_begins found
    exact word
  split at found
  case isTrue single =>
    subst single
    obtain ⟨rfl, word⟩ := quoted_begins found
    exact word
  obtain ⟨mark, punctuation, same⟩ := Option.map_eq_some_iff.mp found
  obtain ⟨rfl, rfl⟩ := Prod.mk.inj same
  exact punctuation_begins punctuation

end Found

/-! What is found at a place is the longest word there. -/

/-- The token that was found is at least so long, and of that kind if it is no longer. -/
def Outruns (found : Option (Kind × Nat)) (k : Kind) (n : Nat) : Prop :=
  ∃ kind length, found = some (kind, length) ∧ n ≤ length ∧ (n = length → kind = k)

section Longest
variable {c : Char} {rest v w : List Char} {k : Kind} {n : Nat}

theorem Outruns.same (n : Nat) {k : Kind} {length : Nat} (long : n ≤ length) :
    Outruns (some (k, length)) k n := ⟨k, length, rfl, long, fun _ => rfl⟩

theorem numeral_outruns (word : c :: v ∈ numeral k) (front : v <+: rest) :
    Outruns (extent? c rest) k v.length := by
  obtain ⟨_, _, same, digit⟩ := numeral_head word
  obtain ⟨rfl, rfl⟩ := List.cons.inj same
  obtain ⟨long, kind⟩ := numeral_longest word ((List.prefix_cons_inj c).mpr front)
  rw [List.length_cons] at long kind
  exact ⟨_, _, extent_of_digit digit rest, by omega, fun equal => kind (by omega)⟩

theorem name_outruns (word : c :: v ∈ headed startsName continuesName) (front : v <+: rest) :
    Outruns (extent? c rest) .ident v.length := by
  obtain ⟨_, _, same, begins, others⟩ := mem_headed.mp word
  obtain ⟨rfl, rfl⟩ := List.cons.inj same
  rw [extent_of_startsName begins]
  exact .same _ (le_run others front)

theorem marked_outruns (word : v ∈ headed isLetter continuesName) (front : v <+: rest) (k : Kind) :
    ∃ n, markedName? k rest = some (k, n) ∧ v.length ≤ n := by
  obtain ⟨d, more, rfl, letter, others⟩ := mem_headed.mp word
  obtain ⟨tail, rfl⟩ := front
  have run := le_run others (List.prefix_append more tail)
  exact ⟨_, by simp only [List.cons_append, markedName?, letter, if_true], Nat.succ_le_succ run⟩

theorem quoted_outruns {quote : Char} (word : quote :: v ∈ between quote) (front : v <+: rest)
    (k : Kind) : Outruns (quoted? k quote rest) k v.length := by
  obtain ⟨inside, same, plain⟩ := mem_between.mp word
  obtain ⟨-, rfl⟩ := List.cons.inj same
  obtain ⟨tail, rfl⟩ := front
  have run : runLength (· != quote) (inside ++ quote :: tail) = inside.length := by
    refine run_append (fun d member => bne_iff_ne.mpr ?_) (by simp)
    rintro rfl
    exact plain member
  simp only [quoted?, List.append_assoc, List.singleton_append, run]
  rw [if_pos (by simp)]
  exact .same _ (by simp)

theorem number_outruns (word : c :: v ∈ optional (exactly ['-']) * numeral k) (front : v <+: rest) :
    Outruns (extent? c rest) k v.length := by
  rcases mem_signed.mp word with bare | ⟨u, numeral, same⟩
  · exact numeral_outruns bare front
  · obtain ⟨rfl, rfl⟩ := List.cons.inj same
    obtain ⟨d, more, rfl, digit⟩ := numeral_head numeral
    obtain ⟨long, kind⟩ := numeral_longest numeral front
    obtain ⟨tail, rfl⟩ := front
    rw [List.cons_append, extent_minus, if_pos digit]
    exact ⟨_, _, rfl, long, kind⟩

theorem ident_outruns (word : c :: v ∈ Kind.ident.language) (front : v <+: rest) :
    Outruns (extent? c rest) .ident v.length := by
  rcases mem_signed.mp word with bare | ⟨u, name, same⟩
  · exact name_outruns bare front
  · obtain ⟨rfl, rfl⟩ := List.cons.inj same
    obtain ⟨d, more, rfl, begins, others⟩ := mem_headed.mp name
    obtain ⟨tail, rfl⟩ := front
    have digit : isDigit d ≠ true := by simp [not_digit_of_startsName begins]
    rw [List.cons_append, extent_minus, if_neg digit, if_pos begins]
    exact .same _ (Nat.succ_le_succ (le_run others (List.prefix_append more tail)))

/-- A word that begins at a place is no longer than the token there, and of its kind if it is as
long. -/
theorem extent_outruns (word : c :: v ∈ k.language) (front : v <+: rest) :
    Outruns (extent? c rest) k v.length := by
  cases k
  case important =>
    obtain ⟨rfl, rfl⟩ := List.cons.inj ((mem_exactly.mp word).trans important_toList)
    rw [extent_bang, if_pos (List.isPrefixOf_iff_prefix.mpr front)]
    exact .same _ (Nat.le_of_eq String.length_toList)
  case hexColor =>
    obtain ⟨digits, powers, same⟩ := mem_exactly_mul.mp word
    obtain ⟨rfl, rfl⟩ := List.cons.inj same
    obtain ⟨enough, few, all⟩ := mem_between_powers.mp powers
    have run := Nat.le_min.mpr ⟨few, le_run all front⟩
    rw [extent_hash, if_pos (Nat.le_trans enough run)]
    exact .same _ run
  case hash =>
    obtain ⟨rfl, rfl⟩ := List.cons.inj (mem_exactly.mp word)
    rw [extent_hash]
    split
    case isTrue enough =>
      refine ⟨_, _, rfl, Nat.zero_le _, fun none => ?_⟩
      rw [← none] at enough
      simp at enough
    case isFalse => exact .same 0 (Nat.le_refl 0)
  case dimension => exact number_outruns word front
  case number => exact number_outruns word front
  case ident => exact ident_outruns word front
  case pseudoClass =>
    obtain ⟨name, headed, same⟩ := mem_exactly_mul.mp word
    obtain ⟨rfl, rfl⟩ := List.cons.inj same
    obtain ⟨n, named, long⟩ := marked_outruns headed front .pseudoClass
    have found : extent? ':' rest = some (.pseudoClass, n) := by
      rw [extent_colon, named]
      rfl
    exact found ▸ .same _ long
  case colon =>
    obtain ⟨rfl, rfl⟩ := List.cons.inj (mem_exactly.mp word)
    rw [extent_colon]
    cases named : markedName? .pseudoClass rest with
    | none => exact .same 0 (Nat.le_refl 0)
    | some token =>
        exact ⟨_, _, rfl, Nat.zero_le _, fun none => absurd none.symm (markedName_ne_zero named)⟩
  case atKeyword =>
    obtain ⟨name, headed, same⟩ := mem_exactly_mul.mp word
    obtain ⟨rfl, rfl⟩ := List.cons.inj same
    obtain ⟨n, named, long⟩ := marked_outruns headed front .atKeyword
    have found : extent? '@' rest = some (.atKeyword, n) := named
    exact found ▸ .same _ long
  case doubleQuoted =>
    obtain ⟨inside, same, -⟩ := mem_between.mp word
    obtain ⟨rfl, -⟩ := List.cons.inj same
    exact quoted_outruns word front .doubleQuoted
  case singleQuoted =>
    obtain ⟨inside, same, -⟩ := mem_between.mp word
    obtain ⟨rfl, -⟩ := List.cons.inj same
    exact quoted_outruns word front .singleQuoted
  all_goals
    obtain ⟨rfl, rfl⟩ := List.cons.inj (mem_exactly.mp word)
    exact .same 0 (Nat.le_refl 0)

/-- The longest word at the front of a text, which no other kind shares. -/
structure Longest (k : Kind) (n : Nat) (cs : List Char) : Prop where
  begins : Begins k.language n cs
  last : ∀ kind w, w ∈ kind.language → w <+: cs → w.length ≤ n ∧ (w.length = n → k = kind)

theorem extent_eq_some : extent? c rest = some (k, n) ↔ Longest k (n + 1) (c :: rest) := by
  constructor
  · refine fun found => ⟨extent_begins found, fun kind w word front => ?_⟩
    cases w with
    | nil => simp
    | cons d v =>
        obtain ⟨rfl, ahead⟩ := List.cons_prefix_cons.mp front
        obtain ⟨_, _, also, long, same⟩ := extent_outruns word ahead
        obtain ⟨rfl, rfl⟩ := Prod.mk.inj (Option.some.inj (also.symm.trans found))
        exact ⟨Nat.succ_le_succ long, fun equal => same (Nat.succ.inj equal)⟩
  · intro longest
    have word := longest.begins.word
    have inside := Nat.le_of_succ_le_succ longest.begins.inside
    rw [List.take_succ_cons] at word
    obtain ⟨kind, length, found, long, -⟩ := extent_outruns word (List.take_prefix n rest)
    rw [List.length_take_of_le inside] at long
    obtain ⟨bound, also⟩ := extent_begins found
    obtain ⟨short, same⟩ := longest.last kind _ also (List.take_prefix _ _)
    rw [List.length_take_of_le bound] at short same
    obtain rfl : length = n := Nat.le_antisymm (Nat.le_of_succ_le_succ short) long
    rw [found, same rfl]

theorem extent_eq_none :
    extent? c rest = none ↔ ∀ (k : Kind) (v : List Char), c :: v ∈ k.language → ¬ v <+: rest := by
  constructor
  · intro nothing k v word front
    obtain ⟨_, _, found, -⟩ := extent_outruns word front
    simp [nothing] at found
  · intro nothing
    cases found : extent? c rest with
    | none => rfl
    | some token =>
        have word := (extent_begins found).word
        rw [List.take_succ_cons] at word
        exact absurd (List.take_prefix _ rest) (nothing _ _ word)

/-- A word is the token that its own text begins with. -/
theorem mem_language_iff : c :: v ∈ k.language ↔ extent? c v = some (k, v.length) := by
  constructor
  · intro word
    obtain ⟨kind, n, found, long, same⟩ := extent_outruns word (List.prefix_refl v)
    have inside := Nat.le_of_succ_le_succ (extent_begins found).inside
    obtain rfl := Nat.le_antisymm long inside
    rw [found, same rfl]
  · intro found
    have word := (extent_begins found).word
    rwa [← List.length_cons (a := c), List.take_length] at word

end Longest
end Cascade.Token
