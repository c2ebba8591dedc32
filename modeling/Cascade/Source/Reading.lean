import Cascade.Source.Basic
import Cascade.Token
/-!
Reading selectors and declarations from tokens.

An error says what was needed at some place, and the token found there instead, if the source had
not ended.
-/
namespace Cascade

inductive Needed where
  | token (kind : Token.Kind)
  | propertyName
  | className
  | idName
  | keyframesName
  | decoratorName
  | decoratorType
  | spriteSheetName
  | selector
  | value
  | functionEnd
  | keyframeTime
  | atRuleEnd
  deriving DecidableEq, Inhabited

inductive ParseError where
  | unexpected (found : Token) (needed : Needed)
  | ended (needed : Needed)
  deriving DecidableEq, Inhabited

namespace Needed

def phrase : Needed → String
  | .token kind => kind.name
  | .propertyName => "property name"
  | .className => "class name after '.'"
  | .idName => "id name after '#'"
  | .keyframesName => "keyframes name"
  | .decoratorName => "decorator name"
  | .decoratorType => "decorator type"
  | .spriteSheetName => "spritesheet name"
  | .selector => "selector part"
  | .value => "declaration value"
  | .functionEnd => "end of function arguments"
  | .keyframeTime => "keyframe selector"
  | .atRuleEnd => "end of at-rule"

def messageAt (needed : Needed) (found : Token) : String :=
  match needed with
  | .selector => "expected selector part"
  | .value =>
    "unexpected token in declaration value: " ++ found.kind.name ++ " '" ++ found.text ++ "'"
  | .functionEnd => "unterminated function arguments"
  | .keyframeTime => "invalid keyframe selector '" ++ found.text ++ "'"
  | .atRuleEnd => "unterminated at-rule"
  | _ => "expected " ++ needed.phrase ++ ", got " ++ found.kind.name ++ " '" ++ found.text ++ "'"

def messageAtEnd (needed : Needed) : String :=
  match needed with
  | .functionEnd => "unterminated function arguments"
  | .atRuleEnd => "unterminated at-rule"
  | _ => "expected " ++ needed.phrase

end Needed

def ParseError.message : ParseError → String
  | .unexpected found needed =>
    "unexpected token at line " ++ toString found.line ++ " (token " ++ toString found.position ++
      "): " ++ needed.messageAt found
  | .ended needed => "unexpected end of input: " ++ needed.messageAtEnd

/-! Reading from the front of a list of tokens.
A reading gives a result and the tokens left over. A reading that succeeds uses up tokens, which the
lemmas on lengths record and on which the loops of the grammar end. -/

abbrev Reading (α : Type) := Except ParseError (α × List Token)

instance Reading.decideEq {E A : Type} [DecidableEq E] [DecidableEq A] : DecidableEq (Except E A)
  | .ok a, .ok b => decidable_of_iff (a = b) ⟨congrArg _, Except.ok.inj⟩
  | .error e, .error f => decidable_of_iff (e = f) ⟨congrArg _, Except.error.inj⟩
  | .ok _, .error _ => .isFalse nofun
  | .error _, .ok _ => .isFalse nofun

def Reading.require (kind : Token.Kind) (needed : Needed) : List Token → Reading Token
  | [] => .error (.ended needed)
  | t :: rest => if t.kind = kind then .ok (t, rest) else .error (.unexpected t needed)

def Reading.expect (kind : Token.Kind) (ts : List Token) : Reading Token :=
  Reading.require kind (.token kind) ts

def Reading.name (needed : Needed) (ts : List Token) : Reading Token :=
  Reading.require .ident needed ts

@[grind →]
theorem Reading.require_length {kind : Token.Kind} {needed : Needed} {ts rest : List Token}
    {t : Token} (h : Reading.require kind needed ts = .ok (t, rest)) : rest.length < ts.length := by
  cases ts <;> grind [require]

@[grind →]
theorem Reading.expect_length {kind : Token.Kind} {ts rest : List Token} {t : Token}
    (h : Reading.expect kind ts = .ok (t, rest)) : rest.length < ts.length := require_length h

@[grind →]
theorem Reading.name_length {needed : Needed} {ts rest : List Token} {t : Token}
    (h : Reading.name needed ts = .ok (t, rest)) : rest.length < ts.length := require_length h

/-! Selectors from tokens.
A compound holds what touches: a class, an id or a pseudo-class after a gap begins a new compound,
joined to the one before as its descendant. A colour such as `#add` is an id here. -/

def SimpleSelector.qualifier? :
    List Token → Except ParseError (Option (SimpleSelector × List Token))
  | [] => .ok none
  | t :: rest =>
    match t.kind with
    | .dot => (Reading.name .className rest).map fun (n, more) => some (.className n.text, more)
    | .hash => (Reading.name .idName rest).map fun (n, more) => some (.id n.text, more)
    | .hexColor => .ok (some (.id t.tail, rest))
    | .pseudoClass => .ok (some (.pseudoClass t.tail, rest))
    | _ => .ok none

@[grind →]
theorem SimpleSelector.qualifier?_length {ts rest : List Token} {c : SimpleSelector}
    (h : qualifier? ts = .ok (some (c, rest))) : rest.length < ts.length := by
  cases ts <;> simp only [qualifier?, Except.map] at h <;> grind

/-- The classes, ids and pseudo-classes that touch what stands before them. -/
def SimpleSelector.readQualifiers (ts : List Token) : Reading (List SimpleSelector) :=
  match ts with
  | [] => .ok ([], [])
  | t :: rest =>
    if t.touches then
      match h : qualifier? (t :: rest) with
      | .error e => .error e
      | .ok none => .ok ([], t :: rest)
      | .ok (some (c, left)) =>
        have := qualifier?_length h
        match readQualifiers left with
        | .error e => .error e
        | .ok (more, left') => .ok (c :: more, left')
    else .ok ([], t :: rest)
termination_by ts.length
decreasing_by all_goals grind

theorem SimpleSelector.readQualifiers_cons (t : Token) (rest : List Token) :
    readQualifiers (t :: rest) =
      if t.touches then match qualifier? (t :: rest) with
        | .error e => .error e
        | .ok none => .ok ([], t :: rest)
        | .ok (some (c, left)) => match readQualifiers left with
          | .error e => .error e
          | .ok (more, left') => .ok (c :: more, left')
      else .ok ([], t :: rest) := by
  rw [readQualifiers]
  congr 1
  split
  case h_1 e failed => simp only [failed]
  case h_2 nothing => simp only [nothing]
  case h_3 c left success => simp only [success]

@[grind →]
theorem SimpleSelector.readQualifiers_length {ts rest : List Token} {cs : List SimpleSelector}
    (h : readQualifiers ts = .ok (cs, rest)) : rest.length ≤ ts.length := by
  fun_induction readQualifiers ts generalizing cs rest <;> grind

def Compound.read (ts : List Token) : Reading Compound :=
  match ts with
  | [] => .error (.ended .selector)
  | t :: rest =>
    let first : Except ParseError (Option (SimpleSelector × List Token)) :=
      match t.kind with
      | .ident => .ok (some (.tag t.text, rest))
      | .star => .ok (some (.universal, rest))
      | _ => SimpleSelector.qualifier? (t :: rest)
    match first with
    | .error e => .error e
    | .ok none => .error (.unexpected t .selector)
    | .ok (some (c, left)) =>
      (SimpleSelector.readQualifiers left).map fun (more, left') => (⟨c :: more⟩, left')

@[grind →]
theorem Compound.read_length {ts rest : List Token} {c : Compound}
    (h : Compound.read ts = .ok (c, rest)) : rest.length < ts.length := by
  cases ts <;> simp only [read, Except.map] at h <;> grind

def Compound.canBegin : Token.Kind → Bool
  | .ident | .hash | .hexColor | .dot | .star | .pseudoClass => true
  | _ => false

/-- The combinator at the front and the tokens after its sign. A compound with no sign before it
is a descendant. -/
def Combinator.read? : List Token → Option (Combinator × List Token)
  | [] => none
  | t :: rest =>
    match t.kind with
    | .greaterThan => some (.child, rest)
    | .plus => some (.nextSibling, rest)
    | .tilde => some (.laterSibling, rest)
    | kind => if Compound.canBegin kind then some (.descendant, t :: rest) else none

@[grind →]
theorem Combinator.read?_length {ts rest : List Token} {c : Combinator}
    (h : read? ts = some (c, rest)) : rest.length ≤ ts.length := by
  cases ts with
  | nil => simp [read?] at h
  | cons t more => grind [read?]

def Selector.readRest (ts : List Token) : Reading (List (Combinator × Compound)) :=
  match hc : Combinator.read? ts with
  | none => .ok ([], ts)
  | some (combinator, after) =>
    match h : Compound.read after with
    | .error e => .error e
    | .ok (compound, left) =>
      have := Combinator.read?_length hc
      have := Compound.read_length h
      match readRest left with
      | .error e => .error e
      | .ok (more, left') => .ok ((combinator, compound) :: more, left')
termination_by ts.length
decreasing_by all_goals grind

theorem Selector.readRest_eq (ts : List Token) : readRest ts =
    match Combinator.read? ts with
    | none => .ok ([], ts)
    | some (combinator, after) => match Compound.read after with
      | .error e => .error e
      | .ok (compound, left) => match readRest left with
        | .error e => .error e
        | .ok (more, left') => .ok ((combinator, compound) :: more, left') := by
  rw [readRest]
  split
  case h_1 nothing => simp only [nothing]
  case h_2 combinator after sign =>
    simp only [sign]
    split
    case h_1 e failed => simp only [failed]
    case h_2 compound left success => simp only [success]

@[grind →]
theorem Selector.readRest_length {ts rest : List Token} {cs : List (Combinator × Compound)}
    (h : readRest ts = .ok (cs, rest)) : rest.length ≤ ts.length := by
  fun_induction readRest ts generalizing cs rest <;> grind

def Selector.read (ts : List Token) : Reading Selector :=
  match Compound.read ts with
  | .error e => .error e
  | .ok (first, left) => (readRest left).map fun (rest, left') => (⟨first, rest⟩, left')

@[grind →]
theorem Selector.read_length {ts rest : List Token} {s : Selector}
    (h : Selector.read ts = .ok (s, rest)) : rest.length < ts.length := by
  simp only [read, Except.map] at h
  grind

def Selector.readList (ts : List Token) : Reading (List Selector) :=
  match h : Selector.read ts with
  | .error e => .error e
  | .ok (selector, []) => .ok ([selector], [])
  | .ok (selector, t :: rest) =>
    if t.kind = .comma then
      have := Selector.read_length h
      match readList rest with
      | .error e => .error e
      | .ok (more, left) => .ok (selector :: more, left)
    else .ok ([selector], t :: rest)
termination_by ts.length
decreasing_by grind

theorem Selector.readList_eq (ts : List Token) : readList ts =
    match Selector.read ts with
    | .error e => .error e
    | .ok (selector, []) => .ok ([selector], [])
    | .ok (selector, t :: rest) =>
      if t.kind = .comma then match readList rest with
        | .error e => .error e
        | .ok (more, left) => .ok (selector :: more, left)
      else .ok ([selector], t :: rest) := by
  rw [readList]
  split
  case h_1 e failed => simp only [failed]
  case h_2 selector last => simp only [last]
  case h_3 selector t rest success => simp only [success]

@[grind →]
theorem Selector.readList_length {ts rest : List Token} {selectors : List Selector}
    (h : readList ts = .ok (selectors, rest)) : rest.length < ts.length := by
  fun_induction readList ts generalizing selectors rest <;> grind

/-! Declarations from tokens.
Values run up to a semicolon, a closing brace, an `!important` mark or the end of the source; none
of these can stand inside the arguments of a function. The values of a name that touches an opening
parenthesis are a function's arguments, up to the parenthesis that closes it; any other
parenthesis is a sign by itself. -/

/-- The number of a dimension token and its unit: letters or a percent sign. -/
def Token.measure (t : Token) : List Char × List Char :=
  t.text.toList.span fun c => !(Text.isLetter c || c == '%')

def ComponentValue.ofToken? (t : Token) : Option ComponentValue :=
  match t.kind with
  | .number => (Binary32.ofText? t.text.toList).map .number
  | .dimension =>
    (Binary32.ofText? t.measure.1).map fun n => .dimension n (String.ofList t.measure.2)
  | .ident => some (.ident t.text)
  | .hexColor => some (.color t.tail)
  | .doubleQuoted | .singleQuoted => some (.string t.inner)
  | .comma => some .comma
  | .dot | .hash | .star | .greaterThan | .plus | .tilde | .slash | .colon | .pseudoClass
  | .parenOpen | .parenClose => some (.delimiter t.text)
  | .important | .atKeyword | .braceOpen | .braceClose | .semicolon => none

def ComponentValue.endsBefore : Token.Kind → Bool
  | .semicolon | .braceClose | .important => true
  | _ => false

/-- Values from the front. `current` holds the values so far, last first, of the innermost open
function; `outer` holds each open function's name and the values before it. The last value is the
last token's, so a name is a function's when the next token is a parenthesis that touches it. -/
def ComponentValue.readFrom (outer : List (String × List ComponentValue))
    (current : List ComponentValue) : List Token → Reading (List ComponentValue)
  | [] => if outer.isEmpty then .ok (current.reverse, []) else .error (.ended .functionEnd)
  | t :: rest =>
    if endsBefore t.kind then
      if outer.isEmpty then .ok (current.reverse, t :: rest)
      else .error (.unexpected t (if t.kind = .important then .value else .functionEnd))
    else match t.kind, current, outer with
      | .parenOpen, .ident name :: before, _ =>
        if t.touches then readFrom ((name, before) :: outer) [] rest
        else readFrom outer (.delimiter t.text :: current) rest
      | .parenClose, _, (name, before) :: outer' =>
        readFrom outer' (.function name current.reverse :: before) rest
      | _, _, _ =>
        match ofToken? t with
        | some value => readFrom outer (value :: current) rest
        | none => .error (.unexpected t .value)

def ComponentValue.readAll (ts : List Token) : Reading (List ComponentValue) := readFrom [] [] ts

@[grind →]
theorem ComponentValue.readFrom_length {outer : List (String × List ComponentValue)}
    {current values : List ComponentValue} {ts rest : List Token}
    (h : readFrom outer current ts = .ok (values, rest)) : rest.length ≤ ts.length := by
  fun_induction readFrom outer current ts generalizing values rest <;> grind

/-- The value that a name after the colon has when no gap sets it apart: `color:red` lexes as a
name and a pseudo-class. -/
def Declaration.attached? (ts : List Token) : Option (Token × List Token) :=
  match ts with
  | [] => none
  | t :: rest => if t.kind = .pseudoClass ∧ t.touches then some (t, rest) else none

def Token.dropIf (kind : Token.Kind) : List Token → Bool × List Token
  | [] => (false, [])
  | t :: rest => if t.kind = kind then (true, rest) else (false, t :: rest)

theorem Token.dropIf_length (kind : Token.Kind) (ts : List Token) :
    (Token.dropIf kind ts).2.length ≤ ts.length := by
  cases ts <;> grind [Token.dropIf]

/-- An `!important` mark, if it comes next, and the semicolon after the values, if it comes next
then. -/
def Declaration.readEnd (ts : List Token) : Bool × List Token :=
  let mark := Token.dropIf .important ts
  (mark.1, (Token.dropIf .semicolon mark.2).2)

theorem Declaration.readEnd_length (ts : List Token) : (readEnd ts).2.length ≤ ts.length :=
  Nat.le_trans (Token.dropIf_length _ _) (Token.dropIf_length _ _)

def Declaration.readValues (name : Token) (attached : Option Token) (ts : List Token) :
    Reading Declaration :=
  (ComponentValue.readAll ts).map fun (values, left) =>
    let written := ts.takeWhile fun t => !ComponentValue.endsBefore t.kind
    let (important, left') := readEnd left
    let declaration := match attached with
      | none =>
        { property := name.text, values, raw := String.ofList (Token.excerpt written), important,
          line := name.line : Declaration }
      | some t =>
        { property := name.text, values := .ident t.tail :: values,
          raw := t.tail ++ String.ofList (Token.spelling written), important, line := name.line }
    (declaration, left')

def Declaration.read (ts : List Token) : Reading Declaration :=
  match Reading.name .propertyName ts with
  | .error e => .error e
  | .ok (name, left) =>
    match attached? left with
    | some (t, left') => readValues name (some t) left'
    | none =>
      match Reading.expect .colon left with
      | .error e => .error e
      | .ok (_, left') => readValues name none left'

@[grind →]
theorem Declaration.readValues_length {name : Token} {attached : Option Token}
    {ts rest : List Token} {d : Declaration} (h : readValues name attached ts = .ok (d, rest)) :
    rest.length ≤ ts.length := by
  unfold readValues at h
  cases hv : ComponentValue.readAll ts with
  | error e => simp [hv, Except.map] at h
  | ok p =>
    have := ComponentValue.readFrom_length hv
    have := readEnd_length p.2
    simp only [hv, Except.map] at h
    grind

@[grind →]
theorem Declaration.attached?_length {ts rest : List Token} {t : Token}
    (h : attached? ts = some (t, rest)) : rest.length < ts.length := by
  cases ts <;> grind [attached?]

@[grind →]
theorem Declaration.read_length {ts rest : List Token} {d : Declaration}
    (h : Declaration.read ts = .ok (d, rest)) : rest.length < ts.length := by
  simp only [read] at h
  grind

def Declaration.readList (ts : List Token) : Reading (List Declaration) :=
  match ts with
  | [] => .ok ([], [])
  | t :: rest =>
    if t.kind = .braceClose then .ok ([], t :: rest)
    else if t.kind = .semicolon then readList rest
    else match h : Declaration.read (t :: rest) with
      | .error e => .error e
      | .ok (declaration, left) =>
        have := Declaration.read_length h
        match readList left with
        | .error e => .error e
        | .ok (more, left') => .ok (declaration :: more, left')
termination_by ts.length
decreasing_by all_goals grind

theorem Declaration.readList_cons (t : Token) (rest : List Token) : readList (t :: rest) =
    if t.kind = .braceClose then .ok ([], t :: rest)
    else if t.kind = .semicolon then readList rest
    else match Declaration.read (t :: rest) with
      | .error e => .error e
      | .ok (d, left) => match readList left with
        | .error e => .error e
        | .ok (more, left') => .ok (d :: more, left') := by
  rw [readList]
  congr 2
  split
  case h_1 e failed => simp only [failed]
  case h_2 d left success => simp only [success]

@[grind →]
theorem Declaration.readList_length {ts rest : List Token} {ds : List Declaration}
    (h : readList ts = .ok (ds, rest)) : rest.length ≤ ts.length := by
  fun_induction readList ts generalizing ds rest <;> grind

def Declaration.readBlock (ts : List Token) : Reading (List Declaration) :=
  match Reading.expect .braceOpen ts with
  | .error e => .error e
  | .ok (_, left) =>
    match readList left with
    | .error e => .error e
    | .ok (declarations, left') =>
      (Reading.expect .braceClose left').map fun (_, rest) => (declarations, rest)

@[grind →]
theorem Declaration.readBlock_length {ts rest : List Token} {ds : List Declaration}
    (h : Declaration.readBlock ts = .ok (ds, rest)) : rest.length < ts.length := by
  simp only [readBlock, Except.map] at h
  grind

end Cascade
