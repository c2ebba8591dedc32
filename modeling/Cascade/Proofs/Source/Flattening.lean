import Cascade.Proofs.Binary32
import Cascade.Proofs.Source.Recognizing
import Cascade.Proofs.Source.Respelling
/-!
Values and the tokens they were read from.

Reading values goes on a token at a time: a token opens a function, closes one or is a value by
itself, and what has been read so far always spells the tokens that were used up. So a list of
values is read exactly when nothing in it ends values and every function is closed, and flattened
again it has a value for every token.
-/
namespace Cascade
open Token Text

def Token.units : Language Char := several isLetter + exactly ['%']

theorem Token.dimension_language : Kind.dimension.language = Kind.number.language * units :=
  (mul_assoc _ _ _).symm

theorem Token.number_within :
    Within (fun c => !(isLetter c || c == '%')) Kind.number.language := by
  have digit : ∀ c, isDigit c = true → (!(isLetter c || c == '%')) = true := by
    intro c digit
    have letter : isLetter c = false := by
      rw [← Bool.not_eq_true]
      intro letter
      rw [not_digit_of_letter letter] at digit
      cases digit
    have percent : c ≠ '%' := by
      rintro rfl
      cases digit
    simp [letter, percent]
  have digits : Within (fun c => !(isLetter c || c == '%')) (several isDigit) :=
    (Within.one digit).mul (.run digit)
  exact (Within.optional (.single rfl)).mul
    (digits.mul (.optional ((Within.single rfl).mul digits)))

theorem Token.units_head {unit : List Char} (word : unit ∈ units) :
    ∃ c more, unit = c :: more ∧ (isLetter c || c == '%') = true := by
  rcases (Language.mem_add _ _ _).mp word with letters | percent
  · obtain ⟨c, more, rfl, letter, -⟩ := mem_several.mp letters
    exact ⟨c, more, rfl, by simp [letter]⟩
  · exact ⟨'%', [], mem_exactly.mp percent, rfl⟩

theorem Token.measure_eq {t : Token} {number unit : List Char}
    (digits : number ∈ Kind.number.language) (letters : unit ∈ units)
    (same : t.text.toList = number ++ unit) : t.measure = (number, unit) := by
  obtain ⟨c, more, rfl, first⟩ := units_head letters
  have front := number_within number digits
  rw [measure, List.span_eq_takeWhile_dropWhile, same, List.takeWhile_append_of_pos front,
    List.dropWhile_append_of_pos front, List.takeWhile_cons, List.dropWhile_cons, first]
  simp

/-- A dimension is measured in a number and a unit. -/
theorem Token.measure_dimension {t : Token} (word : t.text.toList ∈ Kind.dimension.language) :
    t.measure.1 ∈ Kind.number.language ∧ t.measure.2 ∈ units ∧
      t.text.toList = t.measure.1 ++ t.measure.2 := by
  rw [dimension_language] at word
  obtain ⟨number, digits, unit, letters, same⟩ := Language.mem_mul.mp word
  rw [measure_eq digits letters same.symm]
  exact ⟨digits, letters, same.symm⟩

def Token.Kind.barred : Kind → Bool
  | .important | .atKeyword | .braceOpen | .braceClose | .semicolon => true
  | _ => false

def Token.Kind.isSign : Kind → Bool
  | .dot | .hash | .star | .greaterThan | .plus | .tilde | .slash | .colon | .pseudoClass
  | .parenOpen | .parenClose => true
  | _ => false

/-- A value is what a token says, a number up to the way it is written. -/
def ComponentValue.Spells (v : ComponentValue) (t : Token) : Prop :=
  match v with
  | .ident name => t.kind = .ident ∧ t.text = name
  | .number n => t.kind = .number ∧ Binary32.ofText? t.text.toList = some n
  | .dimension n unit => t.kind = .dimension ∧ unit.toList ∈ units ∧
      ∃ number ∈ Kind.number.language,
        t.text.toList = number ++ unit.toList ∧ Binary32.ofText? number = some n
  | .color digits => t.kind = .hexColor ∧ t.text = "#" ++ digits
  | .string text => t.kind = .doubleQuoted ∧ t.text = "\"" ++ text ++ "\"" ∨
      t.kind = .singleQuoted ∧ t.text = "'" ++ text ++ "'"
  | .comma => t.kind = .comma
  | .delimiter sign => t.kind.isSign = true ∧ t.text = sign
  | .function .. => False

theorem Token.endsBefore_barred {k : Kind} (ends : ComponentValue.endsBefore k = true) :
    k.barred = true := by
  cases k <;> first | rfl | cases ends

section Single
variable {t : Token}

theorem Token.text_of_single {cs : List Char} (word : t.text.toList ∈ t.kind.language)
    (single : t.kind.language = exactly cs) : t.text = String.ofList cs := by
  rw [single, mem_exactly] at word
  rw [← word, String.ofList_toList]

theorem Token.quoted_inner {quote : Char} {mark : String} (word : t.text.toList ∈ between quote)
    (single : mark.toList = [quote]) : t.text = mark ++ t.inner ++ mark := by
  obtain ⟨v, same, -⟩ := mem_between.mp word
  apply String.toList_injective
  simp [Token.inner, same, single]

theorem ComponentValue.spells_ofToken (word : t.text.toList ∈ t.kind.language)
    (lawful : t.kind.barred = false) : ∃ v, ofToken? t = some v ∧ Spells v t := by
  cases kind : t.kind <;> rw [kind] at word lawful
  case number =>
    obtain ⟨n, value⟩ := Binary32.ofText_number word
    exact ⟨.number n, by simp [ofToken?, kind, value], kind, value⟩
  case dimension =>
    obtain ⟨number, unit, whole⟩ := measure_dimension word
    obtain ⟨n, value⟩ := Binary32.ofText_number number
    refine ⟨.dimension n (String.ofList t.measure.2), by simp [ofToken?, kind, value], kind, ?_⟩
    rw [String.toList_ofList]
    exact ⟨unit, _, number, whole, value⟩
  case hexColor =>
    obtain ⟨digits, -, same⟩ := mem_exactly_mul.mp word
    refine ⟨.color t.tail, by simp [ofToken?, kind], kind, String.toList_injective ?_⟩
    simp [Token.tail, same]
  case doubleQuoted =>
    exact ⟨.string t.inner, by simp [ofToken?, kind], .inl ⟨kind, quoted_inner word (by simp)⟩⟩
  case singleQuoted =>
    exact ⟨.string t.inner, by simp [ofToken?, kind], .inr ⟨kind, quoted_inner word (by simp)⟩⟩
  case important | atKeyword | braceOpen | braceClose | semicolon => cases lawful
  all_goals simp [ofToken?, Spells, kind, Kind.isSign]

theorem ComponentValue.ofToken_barred (barred : t.kind.barred = true) : ofToken? t = none := by
  cases kind : t.kind <;> rw [kind] at barred
  case important | atKeyword | braceOpen | braceClose | semicolon => simp [ofToken?, kind]
  all_goals cases barred

end Single

mutual
def ComponentValue.flatten : ComponentValue → List ComponentValue
  | .function name arguments =>
    .ident name :: .delimiter "(" :: flattenAll arguments ++ [.delimiter ")"]
  | v => [v]

def ComponentValue.flattenAll : List ComponentValue → List ComponentValue
  | [] => []
  | v :: more => flatten v ++ flattenAll more
end

/-- Open functions, each with its name and the values before it, and the values so far of the
innermost one, last first. -/
structure ComponentValue.Nesting where
  outer : List (String × List ComponentValue)
  current : List ComponentValue

namespace ComponentValue

def Nesting.advance (s : Nesting) (t : Token) : Option Nesting :=
  match t.kind, s.current, s.outer with
  | .parenOpen, .ident name :: before, _ =>
    if t.touches then some ⟨(name, before) :: s.outer, []⟩
    else some ⟨s.outer, .delimiter t.text :: s.current⟩
  | .parenClose, _, (name, before) :: outer =>
    some ⟨outer, .function name s.current.reverse :: before⟩
  | _, _, _ => (ofToken? t).map fun v => ⟨s.outer, v :: s.current⟩

theorem readFrom_nil (s : Nesting) : readFrom s.outer s.current [] =
    if s.outer.isEmpty then .ok (s.current.reverse, []) else .error (.ended .functionEnd) := by
  rw [readFrom]

theorem readFrom_cons (s : Nesting) (t : Token) (rest : List Token) :
    readFrom s.outer s.current (t :: rest) =
      if endsBefore t.kind then
        if s.outer.isEmpty then .ok (s.current.reverse, t :: rest)
        else .error (.unexpected t (if t.kind = .important then .value else .functionEnd))
      else match s.advance t with
        | some next => readFrom next.outer next.current rest
        | none => .error (.unexpected t .value) := by
  rcases s with ⟨outer, current⟩
  generalize whole : t :: rest = ts
  fun_cases readFrom outer current ts
  case case1 | case2 => cases whole
  all_goals
    cases whole
    simp_all [Nesting.advance]

/-- What one token does: it calls the name before it, closes the innermost function or is a value
by itself. -/
inductive Nesting.Step (s : Nesting) (t : Token) : Nesting → Prop where
  | opens {name : String} {before : List ComponentValue} : t.kind = .parenOpen →
      t.touches = true → s.current = .ident name :: before →
        Step s t ⟨(name, before) :: s.outer, []⟩
  | closes {name : String} {before : List ComponentValue}
      {outer : List (String × List ComponentValue)} : t.kind = .parenClose →
      s.outer = (name, before) :: outer →
        Step s t ⟨outer, .function name s.current.reverse :: before⟩
  | single {v : ComponentValue} : ofToken? t = some v →
      (t.kind = .parenOpen → callable s.current = true → t.touches = false) →
      (t.kind = .parenClose → s.outer = []) → Step s t ⟨s.outer, v :: s.current⟩

theorem Nesting.advance_eq_some {s next : Nesting} {t : Token} :
    s.advance t = some next ↔ s.Step t next := by
  constructor
  · intro advanced
    unfold advance at advanced
    split at advanced
    case h_1 name before paren named =>
      split at advanced
      case isTrue touching =>
        obtain rfl := Option.some.inj advanced
        exact .opens paren touching named
      case isFalse apart =>
        obtain rfl := Option.some.inj advanced
        exact .single (by simp [ofToken?, paren]) (fun _ _ => Bool.not_eq_true _ ▸ apart)
          (by simp [paren])
    case h_2 name before outer paren opened =>
      obtain rfl := Option.some.inj advanced
      exact .closes paren opened
    case h_3 uncalled unclosed =>
      obtain ⟨v, found, rfl⟩ := Option.map_eq_some_iff.mp advanced
      refine .single found (fun paren called => ?_) (fun paren => ?_)
      · obtain ⟨name, before, named⟩ := callable_iff.mp called
        exact (uncalled name before paren named).elim
      · cases opened : s.outer with
        | nil => rfl
        | cons first others => exact (unclosed first.1 first.2 others paren opened).elim
  · rintro (⟨paren, touching, named⟩ | ⟨paren, opened⟩ | ⟨found, uncalled, unopened⟩)
    · simp [advance, paren, touching, named]
    · simp [advance, paren, opened]
    · unfold advance
      split
      case h_1 name before paren named =>
        have apart := uncalled paren (callable_iff.mpr ⟨name, before, named⟩)
        simp only [ofToken?, paren, Option.some.injEq] at found
        simp [apart, found]
      case h_2 name before outer paren opened => simp [unopened paren] at opened
      case h_3 => simp [found]

theorem Nesting.advance_eq_none {s : Nesting} {t : Token} :
    s.advance t = none ↔ ofToken? t = none := by
  unfold advance
  split
  case h_1 paren named => split <;> simp [ofToken?, paren]
  case h_2 paren opened => simp [ofToken?, paren]
  case h_3 => simp

theorem flattenAll_append (values others : List ComponentValue) :
    flattenAll (values ++ others) = flattenAll values ++ flattenAll others := by
  induction values with
  | nil => rfl
  | cons v rest ih => rw [List.cons_append, flattenAll, ih, flattenAll, List.append_assoc]

def flattenOuter : List (String × List ComponentValue) → List ComponentValue
  | [] => []
  | (name, before) :: outer =>
    flattenOuter outer ++ flattenAll before.reverse ++ [.ident name, .delimiter "("]

def Nesting.flatten (s : Nesting) : List ComponentValue :=
  flattenOuter s.outer ++ flattenAll s.current.reverse

theorem Nesting.flatten_push (outer : List (String × List ComponentValue))
    (current : List ComponentValue) (v : ComponentValue) :
    (Nesting.mk outer (v :: current)).flatten =
      (Nesting.mk outer current).flatten ++ v.flatten := by
  simp [Nesting.flatten, flattenAll_append, flattenAll]

theorem Spells.flatten {v : ComponentValue} {t : Token} (spells : Spells v t) :
    v.flatten = [v] := by
  cases v <;> first | rfl | cases spells

theorem Nesting.Step.spells {s next : Nesting} {t : Token} (step : s.Step t next)
    (word : t.text.toList ∈ t.kind.language) :
    ∃ v, Spells v t ∧ next.flatten = s.flatten ++ [v] := by
  rcases s with ⟨outer, current⟩
  cases step with
  | opens paren touching named =>
      obtain rfl : current = _ := named
      have text : t.text = "(" := text_of_single word (by rw [paren]; rfl)
      refine ⟨.delimiter "(", ⟨by rw [paren]; rfl, text⟩, ?_⟩
      simp [Nesting.flatten, flattenOuter, flattenAll_append, flattenAll, ComponentValue.flatten]
  | closes paren opened =>
      obtain rfl : outer = _ := opened
      have text : t.text = ")" := text_of_single word (by rw [paren]; rfl)
      refine ⟨.delimiter ")", ⟨by rw [paren]; rfl, text⟩, ?_⟩
      simp [Nesting.flatten, flattenOuter, flattenAll_append, flattenAll, ComponentValue.flatten]
  | @single v found uncalled unclosed =>
      have spells : Spells v t := by
        cases barred : t.kind.barred with
        | true => simp [ofToken_barred barred] at found
        | false =>
            obtain ⟨w, also, spells⟩ := spells_ofToken word barred
            rwa [Option.some.inj (found.symm.trans also)]
      exact ⟨v, spells, by rw [flatten_push, spells.flatten]⟩

theorem Nesting.flatten_closed {s : Nesting} (closed : s.outer.isEmpty = true) :
    flattenAll s.current.reverse = s.flatten := by
  rw [List.isEmpty_iff] at closed
  rw [Nesting.flatten, closed]
  rfl

/-- Values that were read have a value for every token that was used up. -/
theorem readFrom_spells (s : Nesting) {ts rest : List Token} {values : List ComponentValue}
    (words : Words ts)
    (read : readFrom s.outer s.current ts = .ok (values, rest)) :
    ∃ used spelled, ts = used ++ rest ∧ List.Forall₂ Spells spelled used ∧
      flattenAll values = s.flatten ++ spelled := by
  induction ts generalizing s with
  | nil =>
      rw [readFrom_nil] at read
      split at read
      case isTrue closed =>
        obtain ⟨rfl, rfl⟩ := Prod.mk.inj (Except.ok.inj read)
        exact ⟨[], [], rfl, .nil, by rw [s.flatten_closed closed, List.append_nil]⟩
      case isFalse => cases read
  | cons t ts ih =>
      obtain ⟨word, others⟩ := List.forall_mem_cons.mp words
      rw [readFrom_cons] at read
      split at read
      case isTrue ends =>
        split at read
        case isTrue closed =>
          obtain ⟨rfl, rfl⟩ := Prod.mk.inj (Except.ok.inj read)
          exact ⟨[], [], rfl, .nil, by rw [s.flatten_closed closed, List.append_nil]⟩
        case isFalse => cases read
      case isFalse inside =>
        split at read
        case h_1 next advanced =>
          obtain ⟨v, here, whole⟩ := (Nesting.advance_eq_some.mp advanced).spells word
          obtain ⟨used, spelled, rfl, all, same⟩ := ih next others read
          refine ⟨t :: used, v :: spelled, rfl, .cons here all, ?_⟩
          rw [same, whole, List.append_assoc, List.singleton_append]
        case h_2 => cases read

/-- The number of functions that are open behind some tokens, given the kind of the token before
them and the number that is open there. -/
def openFunctions (before : Option Token.Kind) (count : Nat) : List Token → Nat
  | [] => count
  | t :: rest =>
    let next := match t.kind with
      | .parenOpen => if before = some .ident ∧ t.touches = true then count + 1 else count
      | .parenClose => count - 1
      | _ => count
    openFunctions (some t.kind) next rest

theorem Nesting.Step.counts {s next : Nesting} {t : Token} (step : s.Step t next)
    {before : Option Token.Kind} (named : callable s.current = decide (before = some .ident))
    (rest : List Token) :
    openFunctions before s.outer.length (t :: rest) =
        openFunctions (some t.kind) next.outer.length rest ∧
      callable next.current = decide (some t.kind = some .ident) := by
  cases step with
  | opens paren touching call =>
      have called : before = some .ident := by simpa [call, callable] using named.symm
      simp [openFunctions, paren, touching, called, callable]
  | closes paren opened => simp [openFunctions, paren, opened, callable]
  | @single v found uncalled unclosed =>
      refine ⟨?_, by simpa using callable_ofToken found s.current⟩
      rw [openFunctions]
      congr 1
      split
      case h_1 paren =>
        refine if_neg fun both => ?_
        have apart := uncalled paren (by simp [named, both.1])
        simp [apart] at both
      case h_2 paren => simp [unclosed paren]
      case h_3 => rfl

theorem Nesting.advance_lawful (s : Nesting) {t : Token} (word : t.text.toList ∈ t.kind.language)
    (lawful : t.kind.barred = false) : ∃ next, s.advance t = some next := by
  obtain ⟨v, found, -⟩ := spells_ofToken word lawful
  refine Option.ne_none_iff_exists'.mp fun nothing => ?_
  rw [advance_eq_none.mp nothing] at found
  cases found

/-- Tokens are read to the end exactly when none of them is barred and every function is closed. -/
theorem readFrom_iff {s : Nesting} {before : Option Token.Kind} {ts : List Token}
    (words : Words ts)
    (named : callable s.current = decide (before = some .ident)) :
    (∃ values, readFrom s.outer s.current ts = .ok (values, [])) ↔
      (∀ t ∈ ts, t.kind.barred = false) ∧ openFunctions before s.outer.length ts = 0 := by
  induction ts generalizing s before with
  | nil =>
      simp only [readFrom_nil]
      by_cases closed : s.outer = [] <;> simp [openFunctions, closed]
  | cons t ts ih =>
      obtain ⟨word, others⟩ := List.forall_mem_cons.mp words
      rw [readFrom_cons, List.forall_mem_cons]
      cases barred : t.kind.barred with
      | true =>
          rw [Nesting.advance_eq_none.mpr (ofToken_barred barred)]
          by_cases ends : endsBefore t.kind = true <;>
            by_cases closed : s.outer.isEmpty = true <;> simp [ends, closed]
      | false =>
          have inside : ¬ endsBefore t.kind = true := fun ends => by
            rw [endsBefore_barred ends] at barred
            cases barred
          obtain ⟨next, advanced⟩ := s.advance_lawful word barred
          obtain ⟨count, after⟩ := (Nesting.advance_eq_some.mp advanced).counts named ts
          rw [if_neg inside, advanced, count]
          simp only [ih others after, true_and]

/-- Only a barred token or an open function at the end is an error. -/
theorem readFrom_blames {s : Nesting} {ts : List Token} {e : ParseError}
    (words : Words ts)
    (failed : readFrom s.outer s.current ts = .error e) :
    e = .ended .functionEnd ∨
      ∃ t ∈ ts, ∃ needed, e = .unexpected t needed ∧ t.kind.barred = true := by
  induction ts generalizing s with
  | nil =>
      rw [readFrom_nil] at failed
      split at failed
      · cases failed
      · exact .inl (Except.error.inj failed).symm
  | cons t ts ih =>
      obtain ⟨word, others⟩ := List.forall_mem_cons.mp words
      have here {needed : Needed} (barred : t.kind.barred = true)
          (same : .unexpected t needed = e) : e = .ended .functionEnd ∨
          ∃ u ∈ t :: ts, ∃ needed, e = .unexpected u needed ∧ u.kind.barred = true :=
        .inr ⟨t, List.mem_cons_self, needed, same.symm, barred⟩
      rw [readFrom_cons] at failed
      split at failed
      case isTrue ends =>
        split at failed
        · cases failed
        · exact here (endsBefore_barred ends) (Except.error.inj failed)
      case isFalse =>
        split at failed
        case h_1 =>
          refine (ih others failed).imp_right ?_
          rintro ⟨u, member, blamed⟩
          exact ⟨u, List.mem_cons_of_mem t member, blamed⟩
        case h_2 nothing =>
          refine here ?_ (Except.error.inj failed)
          by_contra lawful
          obtain ⟨next, advanced⟩ := s.advance_lawful word (Bool.not_eq_true _ ▸ lawful)
          simp [nothing] at advanced

theorem ofText_eq_ok {text : String} {values : List ComponentValue} :
    ofText text = .ok values ↔ readAll (StyleSource.tokens text) = .ok (values, []) := by
  rw [ofText]
  split
  case h_1 e failed => simp [failed]
  case h_2 read => simp [read]
  case h_3 read => simp [read]

/-- A text is a list of values exactly when nothing in it ends values or begins a block or an
at-rule, and every function is closed. The values have each token of the text in turn. Nothing else
than such a token or an open function is an error, so no number is. -/
theorem ofText_accepts (text : String) :
    ((∃ values, ofText text = .ok values) ↔
      (∀ t ∈ StyleSource.tokens text, t.kind.barred = false) ∧
        openFunctions none 0 (StyleSource.tokens text) = 0) ∧
    (∀ values, ofText text = .ok values →
      List.Forall₂ Spells (flattenAll values) (StyleSource.tokens text)) ∧
    ∀ e, ofText text = .error e → e = .ended .functionEnd ∨
      ∃ t ∈ StyleSource.tokens text, ∃ needed,
        e = .unexpected t needed ∧ t.kind.barred = true := by
  have words := tokensFrom_language [] 0 1 (withoutComments text.toList)
  refine ⟨?_, fun values read => ?_, fun e failed => ?_⟩
  · simp only [ofText_eq_ok]
    exact readFrom_iff (s := ⟨[], []⟩) words rfl
  · obtain ⟨used, spelled, whole, all, same⟩ :=
      readFrom_spells ⟨[], []⟩ words (ofText_eq_ok.mp read)
    rw [List.append_nil] at whole
    rw [StyleSource.tokens, Token.tokens, whole, same]
    exact all
  · rw [ofText] at failed
    split at failed
    case h_1 wrong =>
      obtain rfl := Except.error.inj failed
      exact readFrom_blames (s := ⟨[], []⟩) words wrong
    case h_2 => cases failed
    case h_3 values t rest read =>
      obtain rfl := Except.error.inj failed
      have ends := readFrom_ends read t rfl
      obtain ⟨used, -, whole, -⟩ := readFrom_spells ⟨[], []⟩ words read
      have member : t ∈ StyleSource.tokens text := by
        rw [StyleSource.tokens, Token.tokens, whole]
        simp
      exact .inr ⟨t, member, _, rfl, endsBefore_barred ends⟩

/-- A function within a function, beside a parenthesis that calls nothing. -/
theorem ofText_accepts_nested : ∃ values, ofText "f(g(1px), 'x') (/ 2" = .ok values ∧
    List.Forall₂ Spells (flattenAll values) (StyleSource.tokens "f(g(1px), 'x') (/ 2") := by
  obtain ⟨accepts, spells, -⟩ := ofText_accepts "f(g(1px), 'x') (/ 2"
  obtain ⟨values, read⟩ := accepts.mpr ⟨by decide +kernel, by decide +kernel⟩
  exact ⟨values, read, spells values read⟩

end ComponentValue
end Cascade
