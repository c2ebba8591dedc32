import Cascade.Proofs.Source.Flattening
import Cascade.Proofs.Source.Naming
/-!
Values that touch the colon.

A name that touches the colon before it lexes as a pseudo-class and is taken for the first value.
What follows is read as if no name stood before it, so a parenthesis that touches the name calls
nothing: where a function was, there are its name, its arguments and two parentheses instead.
Everything else of the declaration and of the source around it is the same.
-/
namespace Cascade
open Token Text

namespace ComponentValue

def opened : List ComponentValue → List ComponentValue
  | .function name arguments :: more =>
    .ident name :: .delimiter "(" :: (arguments ++ .delimiter ")" :: more)
  | values => values

def Nesting.raise (base : List ComponentValue) :
    List (String × List ComponentValue) → List ComponentValue → Nesting
  | [], current => ⟨[], current ++ base⟩
  | (name, before) :: outer, current =>
    ⟨(name, (raise base outer before).current) :: (raise base outer before).outer, current⟩

def Nesting.over (base : List ComponentValue) (s : Nesting) : Nesting :=
  raise base s.outer s.current

section Over
variable (base : List ComponentValue)

theorem Nesting.over_push (outer : List (String × List ComponentValue))
    (current : List ComponentValue) (v : ComponentValue) :
    (Nesting.mk outer (v :: current)).over base =
      ⟨((Nesting.mk outer current).over base).outer,
        v :: ((Nesting.mk outer current).over base).current⟩ := by
  cases outer <;> rfl

theorem Nesting.over_isEmpty (s : Nesting) :
    (s.over base).outer.isEmpty = s.outer.isEmpty := by
  rcases s with ⟨_ | _, _⟩ <;> rfl

theorem Nesting.over_closed {s : Nesting} (closed : s.outer.isEmpty = true) :
    (s.over base).current = s.current ++ base := by
  rcases s with ⟨_ | _, _⟩
  · rfl
  · cases closed

variable {base}

/-- A token does the same over more values, unless it calls the last of them. -/
theorem Nesting.Step.over {s next : Nesting} {t : Token} (step : s.Step t next)
    (free : t.kind = .parenOpen → t.touches = true →
      callable (s.over base).current = callable s.current) :
    (s.over base).Step t (next.over base) := by
  rcases s with ⟨outer, current⟩
  cases step with
  | @opens name before paren touching named =>
      obtain rfl : current = _ := named
      rw [over_push]
      exact .opens paren touching rfl
  | @closes name before outer paren opened =>
      obtain rfl := opened
      rw [over_push]
      exact .closes paren rfl
  | @single v found uncalled unclosed =>
      rw [over_push base outer current v]
      refine .single found (fun paren called => ?_) fun paren => ?_
      · by_contra touching
        rw [Bool.not_eq_false] at touching
        rw [free paren touching] at called
        exact absurd (uncalled paren called) (by simp [touching])
      · obtain rfl : outer = [] := unclosed paren
        rfl

theorem Nesting.advance_over {s : Nesting} {t : Token}
    (free : t.kind = .parenOpen → t.touches = true →
      callable (s.over base).current = callable s.current) :
    (s.over base).advance t = (s.advance t).map (Nesting.over base) := by
  cases advanced : s.advance t with
  | none => exact advance_eq_none.mpr (advance_eq_none.mp advanced)
  | some next => exact advance_eq_some.mpr ((advance_eq_some.mp advanced).over free)

theorem Nesting.Step.callable_over {s next : Nesting} {t : Token} (step : s.Step t next) :
    callable (next.over base).current = callable next.current := by
  cases step with
  | opens paren touching named => rfl
  | closes paren opened =>
      rw [over_push]
      rfl
  | @single v found uncalled unclosed =>
      rw [over_push]
      cases v <;> rfl

/-- Tokens are read over more values as they are without them, and give the more values first. -/
theorem readFrom_over {s : Nesting} {ts : List Token}
    (free : ∀ t ∈ ts.head?, t.kind = .parenOpen → t.touches = true →
      callable (s.over base).current = callable s.current) :
    readFrom (s.over base).outer (s.over base).current ts =
      (readFrom s.outer s.current ts).map fun (values, left) => (base.reverse ++ values, left) := by
  induction ts generalizing s with
  | nil =>
      rw [readFrom_nil, readFrom_nil, Nesting.over_isEmpty]
      split
      case isTrue closed => simp [Nesting.over_closed base closed, Except.map]
      case isFalse => rfl
  | cons t ts ih =>
      rw [readFrom_cons, readFrom_cons, Nesting.over_isEmpty, Nesting.advance_over (free t rfl)]
      split
      case isTrue ends =>
        split
        case isTrue closed => simp [Nesting.over_closed base closed, Except.map]
        case isFalse => rfl
      case isFalse inside =>
        cases advanced : s.advance t with
        | none => rfl
        | some next =>
            have step := Nesting.advance_eq_some.mp advanced
            exact ih fun _ _ _ _ => step.callable_over

theorem readFrom_front (base : List ComponentValue) {ts : List Token}
    (free : ∀ t ∈ ts.head?, t.kind = .parenOpen → t.touches = true → callable base = false) :
    readFrom [] base ts = (readAll ts).map fun (values, left) => (base.reverse ++ values, left) :=
  readFrom_over (s := ⟨[], []⟩) free

end Over

def Nesting.within (name : String) (s : Nesting) : Nesting := ⟨s.outer ++ [(name, [])], s.current⟩

theorem Nesting.Step.within {s next : Nesting} {t : Token} (step : s.Step t next) (name : String)
    (inside : t.kind = .parenClose → s.outer ≠ []) :
    (s.within name).Step t (next.within name) := by
  rcases s with ⟨outer, current⟩
  cases step with
  | opens paren touching named => exact .opens paren touching named
  | closes paren opened =>
      obtain rfl : outer = _ := opened
      exact .closes paren rfl
  | single found uncalled unclosed =>
      exact .single found uncalled fun paren => absurd (unclosed paren) (inside paren)

theorem Nesting.callable_parenthesis (s : Nesting) :
    callable (s.over [.delimiter "("]).current = callable s.current := by
  rcases s with ⟨_ | _, _ | ⟨v, _⟩⟩
  · rfl
  · cases v <;> rfl
  · rfl
  · rfl

-- The parenthesis that closes the call.
theorem readFrom_closes {s : Nesting} {name : String} {t : Token} {ts left : List Token}
    {values : List ComponentValue} (paren : t.kind = .parenClose) (closed : s.outer = [])
    (text : t.text = ")")
    (read : readFrom (s.within name).outer (s.within name).current (t :: ts) = .ok (values, left)) :
    ∃ arguments more, values = .function name arguments :: more ∧
      readFrom (s.over [.delimiter "("]).outer (s.over [.delimiter "("]).current (t :: ts) =
        .ok (.delimiter "(" :: (arguments ++ .delimiter ")" :: more), left) := by
  rcases s with ⟨outer, current⟩
  obtain rfl : outer = [] := closed
  have inside : endsBefore t.kind ≠ true := by simp [paren, endsBefore]
  have call : ((Nesting.mk [] current).within name).Step t ⟨[], [.function name current.reverse]⟩ :=
    .closes paren rfl
  have sign : ((Nesting.mk [] current).over [.delimiter "("]).Step t
      ⟨[], .delimiter ")" :: (current ++ [.delimiter "("])⟩ :=
    .single (by simp [ofToken?, paren, text]) (by simp [paren]) fun _ => rfl
  have bare (base : List ComponentValue) (uncalled : callable base = false) :
      readFrom [] base ts = (readAll ts).map fun (values, left) => (base.reverse ++ values, left) :=
    readFrom_front base fun _ _ _ _ => uncalled
  rw [readFrom_cons, if_neg inside, Nesting.advance_eq_some.mpr call] at read
  obtain ⟨⟨more, rest⟩, others, same⟩ :=
    map_eq_ok.mp ((bare [.function name current.reverse] rfl).symm.trans read)
  obtain ⟨rfl, rfl⟩ := Prod.mk.inj same
  refine ⟨current.reverse, more, rfl, ?_⟩
  rw [readFrom_cons, if_neg inside, Nesting.advance_eq_some.mpr sign]
  refine (bare (.delimiter ")" :: (current ++ [.delimiter "("])) rfl).trans ?_
  simp [others, Except.map]

/-- Where a call of a name is read, its arguments are read without the call, between two
parentheses. -/
theorem readFrom_within {s : Nesting} {name : String} {ts left : List Token}
    {values : List ComponentValue} (words : Words ts)
    (read : readFrom (s.within name).outer (s.within name).current ts = .ok (values, left)) :
    ∃ arguments more, values = .function name arguments :: more ∧
      readFrom (s.over [.delimiter "("]).outer (s.over [.delimiter "("]).current ts =
        .ok (.delimiter "(" :: (arguments ++ .delimiter ")" :: more), left) := by
  induction ts generalizing s with
  | nil =>
      rw [readFrom_nil] at read
      simp [Nesting.within] at read
  | cons t ts ih =>
      obtain ⟨word, others⟩ := List.forall_mem_cons.mp words
      by_cases last : t.kind = .parenClose ∧ s.outer = []
      · have text : t.text = ")" := text_of_single word (by rw [last.1]; rfl)
        exact readFrom_closes last.1 last.2 text read
      have within (paren : t.kind = .parenClose) : s.outer ≠ [] := fun closed =>
        last ⟨paren, closed⟩
      rw [readFrom_cons] at read ⊢
      split at read
      case isTrue => simp [Nesting.within] at read
      case isFalse inside =>
        rw [if_neg inside, Nesting.advance_over fun _ _ => s.callable_parenthesis]
        cases advanced : s.advance t with
        | none =>
            rw [Nesting.advance_eq_none.mpr (Nesting.advance_eq_none.mp advanced)] at read
            cases read
        | some next =>
            have step := (Nesting.advance_eq_some.mp advanced).within name within
            rw [Nesting.advance_eq_some.mpr step] at read
            exact ih others read

/-- A name followed by what is read without it gives the same values as the name and the rest, but
for a function, which is taken apart. -/
theorem readFrom_named {name : String} {ts left : List Token} {values : List ComponentValue}
    (words : Words ts)
    (read : readFrom [] [.ident name] ts = .ok (values, left)) :
    ∃ others, readAll ts = .ok (others, left) ∧ opened values = .ident name :: others := by
  by_cases calls : ∃ t rest, ts = t :: rest ∧ t.kind = .parenOpen ∧ t.touches = true
  · obtain ⟨t, rest, rfl, paren, touching⟩ := calls
    obtain ⟨word, others⟩ := List.forall_mem_cons.mp words
    have text : t.text = "(" := text_of_single word (by rw [paren]; rfl)
    have inside : endsBefore t.kind ≠ true := by simp [paren, endsBefore]
    have call : (Nesting.mk [] [.ident name]).Step t ((Nesting.mk [] []).within name) :=
      .opens paren touching rfl
    have sign : (Nesting.mk [] []).Step t ((Nesting.mk [] []).over [.delimiter "("]) :=
      .single (by simp [ofToken?, paren, text]) (fun _ called => nomatch called) (by simp [paren])
    rw [readFrom_cons ⟨[], [.ident name]⟩, if_neg inside, Nesting.advance_eq_some.mpr call] at read
    obtain ⟨arguments, more, rfl, apart⟩ := readFrom_within others read
    refine ⟨_, ?_, rfl⟩
    rw [readAll, readFrom_cons ⟨[], []⟩, if_neg inside, Nesting.advance_eq_some.mpr sign]
    exact apart
  · have free : ∀ t ∈ ts.head?, t.kind = .parenOpen → t.touches = true →
        callable [.ident name] = false := by
      intro t first paren touching
      cases ts with
      | nil => cases first
      | cons u rest =>
          obtain rfl := Option.some.inj first
          exact (calls ⟨_, _, rfl, paren, touching⟩).elim
    rw [readFrom_front _ free] at read
    obtain ⟨⟨others, rest⟩, found, same⟩ := map_eq_ok.mp read
    obtain ⟨rfl, rfl⟩ := Prod.mk.inj same
    exact ⟨others, found, rfl⟩

theorem opened_eq_self {values : List ComponentValue} :
    opened values = values ↔
      ∀ name arguments more, values ≠ .function name arguments :: more := by
  cases values with
  | nil => simp [opened]
  | cons v more => cases v <;> simp [opened]

end ComponentValue

/-- The declaration that is read when the first value touches the colon. -/
def Declaration.attached (d : Declaration) : Declaration :=
  { d with values := ComponentValue.opened d.values }

section Reading
variable {p o n c w a : Token} {ts left : List Token}

theorem Declaration.readValues_attached {d : Declaration} (value : w.kind = .ident)
    (same : a.tail = w.text) (words : Words ts)
    (read : readValues n none (w :: ts) = .ok (d, left)) (places : Nat) :
    readValues (n.moved places 0) (some a) ts = .ok (d.attached, left) := by
  have inside : ComponentValue.endsBefore w.kind ≠ true := by
    simp [value, ComponentValue.endsBefore]
  obtain ⟨⟨values, after⟩, found, whole⟩ := map_eq_ok.mp read
  obtain ⟨rfl, rfl⟩ := Prod.mk.inj whole
  have single : (ComponentValue.Nesting.mk [] []).Step w ⟨[], [.ident w.text]⟩ :=
    .single (by simp [ComponentValue.ofToken?, value]) (by simp [value]) (by simp [value])
  rw [ComponentValue.readAll, ComponentValue.readFrom_cons ⟨[], []⟩, if_neg inside,
    ComponentValue.Nesting.advance_eq_some.mpr single] at found
  obtain ⟨others, apart, opened⟩ := ComponentValue.readFrom_named words found
  simp [readValues, apart, Except.map, attached, opened, same, inside, Token.excerpt, readEnd,
    String.ofList_append]

theorem Declaration.readList_attached {ds : List Declaration} (name : n.kind = .ident)
    (colon : c.kind = .colon) (value : w.kind = .ident) (pseudo : a.kind = .pseudoClass)
    (touching : a.touches = true) (same : a.tail = w.text)
    (words : Words ts)
    (read : readList (n :: c :: w :: ts) = .ok (ds, left)) (places : Nat) :
    ∃ d more, ds = d :: more ∧
      readList (n.moved places 0 :: a :: ts) = .ok (d.attached :: more, left) := by
  have spaced : Declaration.read (n :: c :: w :: ts) = readValues n none (w :: ts) := by
    simp [Declaration.read, Reading.name, Reading.expect, Reading.require, attached?, name, colon]
  have unspaced : Declaration.read (n.moved places 0 :: a :: ts) =
      readValues (n.moved places 0) (some a) ts := by
    simp [Declaration.read, Reading.name, Reading.require, attached?, name, pseudo, touching]
  rw [readList_cons, if_neg (by simp [name]), if_neg (by simp [name]), spaced] at read
  rw [readList_cons, if_neg (by simp [name]), if_neg (by simp [name]), unspaced]
  split at read
  case h_1 => cases read
  case h_2 d after first =>
    rw [readValues_attached value same words first places]
    split at read
    case h_1 => cases read
    case h_2 more rest others =>
      obtain ⟨rfl, rfl⟩ := Prod.mk.inj (Except.ok.inj read)
      exact ⟨d, more, rfl, by simp [others]⟩

theorem Statement.read_tag (tag : p.kind = .ident) (opens : o.kind = .braceOpen)
    (ts : List Token) : Statement.read (p :: o :: ts) =
      match Declaration.readList ts with
      | .error e => .error e
      | .ok (ds, left) => (Reading.expect .braceClose left).map fun (_, rest) =>
          (some (.style ⟨[⟨⟨[.tag p.text]⟩, []⟩], ds, p.line⟩), rest) := by
  have compound := SimpleSelector.readQualifiers_brace opens ts
  have nothing := Selector.readRest_brace opens ts
  have selector : Selector.read (p :: o :: ts) = .ok (⟨⟨[.tag p.text]⟩, []⟩, o :: ts) := by
    simp [Selector.read, Compound.read, tag, compound, nothing, Except.map]
  have selectors := Selector.readList_last selector (by simp [opens])
  have opened : Reading.expect .braceOpen (o :: ts) = .ok (o, ts) := by
    simp [Reading.expect, Reading.require, opens]
  rw [Statement.read, if_neg (by simp [tag]), StyleRule.read]
  simp only [selectors, Declaration.readBlock, opened]
  cases Declaration.readList ts with
  | error e => rfl
  | ok inner =>
      simp only
      cases Reading.expect .braceClose inner.2 <;> rfl

/-- The rule of a tag that was read, and what is read in its place when its block holds other
declarations. -/
theorem StyleSource.readStatements_tag {statements : List Statement} (tag : p.kind = .ident)
    (opens : o.kind = .braceOpen) (read : readStatements (p :: o :: ts) = .ok statements) :
    ∃ ds left others, Declaration.readList ts = .ok (ds, left) ∧
      statements = .style ⟨[⟨⟨[.tag p.text]⟩, []⟩], ds, p.line⟩ :: others ∧
      ∀ (places : Nat) {us : List Token} {ds' : List Declaration},
        Declaration.readList us = .ok (ds', left) →
          readStatements (p.moved places 0 :: o.moved places 0 :: us) =
            .ok (.style ⟨[⟨⟨[.tag p.text]⟩, []⟩], ds', p.line⟩ :: others) := by
  rw [readStatements_cons, Statement.read_tag tag opens] at read
  cases block : Declaration.readList ts with
  | error e => simp [block] at read
  | ok inner =>
      cases closes : Reading.expect .braceClose inner.2 with
      | error e => simp [block, closes, Except.map] at read
      | ok after =>
          cases behind : readStatements after.2 with
          | error e => simp [block, closes, behind, Except.map] at read
          | ok others =>
              simp only [block, closes, behind, Except.map] at read
              obtain rfl := Except.ok.inj read
              refine ⟨inner.1, inner.2, others, rfl, rfl, fun places us ds' same => ?_⟩
              rw [readStatements_cons, Statement.read_tag (p := p.moved places 0)
                (o := o.moved places 0) tag opens, same]
              simp [closes, behind, Except.map]

end Reading

section Words
variable {cs others : List Char}

theorem Token.blankComments_front (slashless : '/' ∉ cs) (others : List Char) :
    blankComments false (cs ++ others) = cs ++ blankComments false others := by
  induction cs with
  | nil => rfl
  | cons c rest ih =>
      rw [List.mem_cons, not_or] at slashless
      have single (more : List Char) : c = '/' → ¬ rest ++ others = '*' :: more :=
        fun slash => absurd slash.symm slashless.1
      rw [List.cons_append, blankComments.eq_3 _ _ single, ih slashless.2, List.cons_append]

/-- A text that begins with a letter begins with a name. -/
theorem Token.name_front {c : Char} (letter : isLetter c = true) (rest : List Char) :
    ∃ name more, c :: rest = name ++ more ∧ name ∈ headed isLetter continuesName ∧
      Bounded continuesName more := by
  refine ⟨c :: rest.takeWhile continuesName, rest.dropWhile continuesName, ?_, ?_, ?_⟩
  · rw [List.cons_append, List.takeWhile_append_dropWhile]
  · exact mem_headed.mpr ⟨c, _, rfl, letter, fun d member => List.mem_takeWhile_imp member⟩
  · intro d first
    have other := List.head?_dropWhile_not continuesName rest
    rw [Option.mem_def.mp first] at other
    simpa using other

end Words

namespace StyleSource
variable {n v : String}

def front (n : String) : List Token :=
  [⟨.ident, "p", [], 0, 1⟩, ⟨.braceOpen, "\x7b", [' '], 1, 1⟩, ⟨.ident, n, [' '], 2, 1⟩]

theorem tokensFrom_front (name : n.toList ∈ Kind.ident.language) (rest : List Char) :
    Token.tokens ("p \x7b ".toList ++ n.toList ++ ':' :: rest) =
      front n ++ tokensFrom [] 3 1 (':' :: rest) := by
  have tag : ['p'] ∈ Kind.ident.language := by decide
  have whole : "p \x7b ".toList ++ n.toList ++ ':' :: rest =
      ['p'] ++ ' ' :: '\x7b' :: ' ' :: (n.toList ++ ':' :: rest) := by simp
  rw [Token.tokens, whole, tokensFrom_ident _ _ _ tag (.cons rfl _),
    tokensFrom_dropped _ _ _ rfl rfl,
    ← List.nil_append (' ' :: (n.toList ++ _)), ← List.cons_append, tokensFrom_word _ _ _ rfl,
    tokensFrom_dropped _ _ _ rfl rfl, tokensFrom_ident _ _ _ name (.cons rfl _),
    String.ofList_toList]
  rfl

theorem tokensFrom_apart {w rest : List Char} (word : w ∈ headed isLetter continuesName)
    (ends : Bounded continuesName rest) : tokensFrom [] 3 1 (':' :: ' ' :: (w ++ rest)) =
      ⟨.colon, ":", [], 3, 1⟩ :: ⟨.ident, String.ofList w, [' '], 4, 1⟩ ::
        tokensFrom [] 5 1 rest := by
  have colon : extent? ':' ([] ++ ' ' :: (w ++ rest)) = some (.colon, 0) := rfl
  rw [← List.nil_append (' ' :: (w ++ rest)), ← List.cons_append, tokensFrom_word _ _ _ colon,
    tokensFrom_dropped _ _ _ rfl rfl, tokensFrom_ident _ _ _ (ident_of_headed word) ends]
  rfl

theorem tokensFrom_touching {w rest : List Char} (word : w ∈ headed isLetter continuesName)
    (ends : Bounded continuesName rest) : tokensFrom [] 3 1 (':' :: (w ++ rest)) =
      ⟨.pseudoClass, ":" ++ String.ofList w, [], 3, 1⟩ :: tokensFrom [] 4 1 rest := by
  have text : String.ofList (':' :: w) = ":" ++ String.ofList w :=
    String.toList_injective (by simp)
  rw [← List.cons_append, tokensFrom_pseudoClass _ _ _ word ends, text]
  rfl

/-- The tokens of a declaration with its first value apart from the colon, and of the same one with
that value touching the colon. -/
theorem tokens_attached (name : n.toList ∈ Kind.ident.language)
    (letter : ∃ c ∈ v.toList.head?, isLetter c = true) :
    ∃ (w : String) (rest : List Char), w.toList ∈ headed isLetter continuesName ∧
      tokens ("p \x7b " ++ n ++ ": " ++ v ++ " \x7d") =
        front n ++ ⟨.colon, ":", [], 3, 1⟩ :: ⟨.ident, w, [' '], 4, 1⟩ :: tokensFrom [] 5 1 rest ∧
      tokens ("p \x7b " ++ n ++ ":" ++ v ++ " \x7d") =
        front n ++ ⟨.pseudoClass, ":" ++ w, [], 3, 1⟩ :: tokensFrom [] 4 1 rest := by
  obtain ⟨c, first, letter⟩ := letter
  obtain ⟨vs, begins⟩ : ∃ vs, v.toList = c :: vs := ⟨_, List.eq_cons_of_mem_head? first⟩
  have slash : c ≠ '/' := by
    rintro rfl
    cases letter
  have slashless : '/' ∉ "p \x7b ".toList ++ n.toList := by simpa using slashless_ident name
  obtain ⟨w, rest, split, word, ends⟩ :=
    name_front letter (blankComments false (vs ++ " \x7d".toList))
  -- No comment begins before the first letter of the value.
  have blank (cs : String) (plain : '/' ∉ cs.toList) :
      tokens ("p \x7b " ++ n ++ cs ++ v ++ " \x7d") =
        Token.tokens ("p \x7b ".toList ++ n.toList ++ (cs.toList ++ (w ++ rest))) := by
    have front : '/' ∉ "p \x7b ".toList ++ n.toList ++ cs.toList ++ [c] := by
      simp only [List.mem_append, not_or, List.mem_singleton] at slashless ⊢
      exact ⟨⟨slashless, plain⟩, slash.symm⟩
    have parts : ("p \x7b " ++ n ++ cs ++ v ++ " \x7d").toList =
        ("p \x7b ".toList ++ n.toList ++ cs.toList ++ [c]) ++ (vs ++ " \x7d".toList) := by
      simp [begins]
    rw [tokens, withoutComments, parts, blankComments_front front, ← split]
    simp
  refine ⟨String.ofList w, rest, by rwa [String.toList_ofList], ?_, ?_⟩
  · have sign : ": ".toList = [':', ' '] := by simp
    rw [blank ": " (by simp), sign, ← tokensFrom_apart word ends]
    exact tokensFrom_front name _
  · have sign : ":".toList = [':'] := by simp
    rw [blank ":" (by simp), sign, ← tokensFrom_touching word ends]
    exact tokensFrom_front name _

/-- Without the space behind the colon a source is read as well, and its first declaration is the
same but for a function that its values begin with. -/
theorem ofText_touching (name : n.toList ∈ Kind.ident.language)
    (letter : ∃ c ∈ v.toList.head?, isLetter c = true) {source : StyleSource}
    (read : ofText ("p \x7b " ++ n ++ ": " ++ v ++ " \x7d") = .ok source) :
    ∃ d more others,
      source = ⟨.style ⟨[⟨⟨[.tag "p"]⟩, []⟩], d :: more, 1⟩ :: others⟩ ∧
      ofText ("p \x7b " ++ n ++ ":" ++ v ++ " \x7d") =
        .ok ⟨.style ⟨[⟨⟨[.tag "p"]⟩, []⟩], d.attached :: more, 1⟩ :: others⟩ := by
  obtain ⟨w, rest, word, spaced, touching⟩ := tokens_attached name letter
  obtain ⟨statements, found, rfl⟩ := map_eq_ok.mp read
  have words := tokensFrom_language [] 5 1 rest
  rw [spaced] at found
  obtain ⟨ds, left, others, block, rfl, again⟩ := readStatements_tag rfl rfl found
  obtain ⟨d, more, rfl, attached⟩ := Declaration.readList_attached
    (a := ⟨.pseudoClass, ":" ++ w, [], 4, 1⟩) rfl rfl rfl rfl rfl (by simp [tail]) words block 1
  refine ⟨d, more, others, rfl, ?_⟩
  -- All the tokens stand one place further on than without the space.
  have further : (tokens ("p \x7b " ++ n ++ ":" ++ v ++ " \x7d")).map (.moved 1 0) =
      (front n).map (.moved 1 0) ++
        ⟨.pseudoClass, ":" ++ w, [], 4, 1⟩ :: tokensFrom [] 5 1 rest := by
    have moved := (tokensFrom_moved [] [] 4 1 1 0 rest).trans (spaced_nil _)
    rw [touching, List.map_append, List.map_cons, ← moved]
    rfl
  have whole := again 1 attached
  have same := readStatements_moved 1 0 (tokens ("p \x7b " ++ n ++ ":" ++ v ++ " \x7d"))
  rw [further, Statement.moved_zero] at same
  rw [ofText]
  cases result : readStatements (tokens ("p \x7b " ++ n ++ ":" ++ v ++ " \x7d")) with
  | error e =>
      rw [result] at same
      cases same.symm.trans whole
  | ok statements =>
      simp only [result, List.map_id] at same
      obtain rfl := Except.ok.inj (same.symm.trans whole)
      rfl

/-- A rule of a tag whose block was read. -/
theorem ofText_tag {text : String} {p o c : Token} {ts : List Token} {ds : List Declaration}
    (split : tokens text = p :: o :: ts) (tag : p.kind = .ident) (opens : o.kind = .braceOpen)
    (block : Declaration.readList ts = .ok (ds, [c])) (closes : c.kind = .braceClose) :
    ofText text = .ok ⟨[.style ⟨[⟨⟨[.tag p.text]⟩, []⟩], ds, p.line⟩]⟩ := by
  have statement := Statement.read_tag tag opens ts
  rw [block] at statement
  simp only [Reading.expect, Reading.require, closes] at statement
  rw [ofText, split, readStatements_step statement (by rw [readStatements])]
  rfl

/-- A source of one rule with one declaration is read without the space behind the colon as well.
The declaration has the same name, raw text, mark and line, and its values are the same but for a
function that they begin with: the source is the same exactly when they begin with none. -/
theorem ofText_attached (name : n.toList ∈ Kind.ident.language)
    (letter : ∃ c ∈ v.toList.head?, isLetter c = true) {source : StyleSource} {rule : StyleRule}
    {d : Declaration} (read : ofText ("p \x7b " ++ n ++ ": " ++ v ++ " \x7d") = .ok source)
    (one : source.styleRules = [rule]) (single : rule.declarations = [d]) :
    ∃ other, ofText ("p \x7b " ++ n ++ ":" ++ v ++ " \x7d") = .ok other ∧
      other.styleRules = [{ rule with
        declarations := [{ d with values := ComponentValue.opened d.values }] }] ∧
      (other = source ↔ ∀ f arguments more, d.values ≠ .function f arguments :: more) := by
  obtain ⟨first, more, others, rfl, touching⟩ := ofText_touching name letter read
  obtain ⟨rfl, rest⟩ := List.cons.inj one
  obtain ⟨rfl, rfl⟩ := List.cons.inj single
  refine ⟨_, touching, congrArg (_ :: ·) rest, ?_⟩
  rw [← ComponentValue.opened_eq_self]
  constructor
  · intro same
    have rules := (List.cons.inj (StyleSource.mk.inj same)).1
    have equal := (List.cons.inj (StyleRule.mk.inj (Statement.style.inj rules)).2.1).1
    exact congrArg Declaration.values equal
  · intro same
    rw [Declaration.attached, same]

/-- A name touches the colon. -/
theorem ofText_attached_block : ∃ other, ofText "p \x7b display:block \x7d" = .ok other ∧
    other.styleRules = [⟨[⟨⟨[.tag "p"]⟩, []⟩],
      [⟨"display", [.ident "block"], "block", false, 1⟩], 1⟩] := by
  have read : ofText "p \x7b display: block \x7d" =
      .ok ⟨[.style ⟨[⟨⟨[.tag "p"]⟩, []⟩],
        [⟨"display", [.ident "block"], "block", false, 1⟩], 1⟩]⟩ := by
    have split : tokens "p \x7b display: block \x7d" =
        [⟨.ident, "p", [], 0, 1⟩, ⟨.braceOpen, "\x7b", [' '], 1, 1⟩,
          ⟨.ident, "display", [' '], 2, 1⟩, ⟨.colon, ":", [], 3, 1⟩, ⟨.ident, "block", [' '], 4, 1⟩,
          ⟨.braceClose, "\x7d", [' '], 5, 1⟩] := by
      cbv
    exact ofText_tag split rfl rfl
      (Declaration.readList_step rfl (Declaration.readList_cons _ _)) rfl
  obtain ⟨other, touching, rules, -⟩ :=
    ofText_attached (n := "display") (v := "block") (by decide) ⟨'b', rfl, rfl⟩ read rfl rfl
  exact ⟨other, touching, rules⟩

/-- A function touches the colon: it is a name, a value and two parentheses. -/
theorem not_attached_function : "decorator".toList ∈ Kind.ident.language ∧
    ∃ d other : Declaration,
      ofText "p \x7b decorator: gradient(vertical) \x7d" =
        .ok ⟨[.style ⟨[⟨⟨[.tag "p"]⟩, []⟩], [d], 1⟩]⟩ ∧
      ofText "p \x7b decorator:gradient(vertical) \x7d" =
        .ok ⟨[.style ⟨[⟨⟨[.tag "p"]⟩, []⟩], [other], 1⟩]⟩ ∧
      d.values = [.function "gradient" [.ident "vertical"]] ∧
      other.values = [.ident "gradient", .delimiter "(", .ident "vertical", .delimiter ")"] ∧
      other.values ≠ d.values := by
  have name : "decorator".toList ∈ Kind.ident.language := by decide
  have split : tokens "p \x7b decorator: gradient(vertical) \x7d" =
      [⟨.ident, "p", [], 0, 1⟩, ⟨.braceOpen, "\x7b", [' '], 1, 1⟩,
        ⟨.ident, "decorator", [' '], 2, 1⟩, ⟨.colon, ":", [], 3, 1⟩,
        ⟨.ident, "gradient", [' '], 4, 1⟩, ⟨.parenOpen, "(", [], 5, 1⟩,
        ⟨.ident, "vertical", [], 6, 1⟩, ⟨.parenClose, ")", [], 7, 1⟩,
        ⟨.braceClose, "\x7d", [' '], 8, 1⟩] := by
    cbv
  have read := ofText_tag split rfl rfl
    (Declaration.readList_step rfl (Declaration.readList_cons _ _)) rfl
  obtain ⟨d, more, others, same, touching⟩ :=
    ofText_touching (n := "decorator") (v := "gradient(vertical)") name ⟨'g', rfl, rfl⟩ read
  obtain ⟨rule, rfl⟩ := List.cons.inj (StyleSource.mk.inj same)
  obtain ⟨rfl, rfl⟩ := List.cons.inj (StyleRule.mk.inj (Statement.style.inj rule)).2.1
  refine ⟨name, _, _, read, touching, rfl, rfl, ?_⟩
  simp [Declaration.attached, ComponentValue.opened]

end StyleSource
end Cascade
