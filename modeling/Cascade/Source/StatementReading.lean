import Cascade.Source.Reading
/-!
Statements and whole sources from tokens.

The at-rules `@keyframes`, `@decorator` and `@spritesheet` have a grammar of their own; any other
at-rule is passed over, up to a semicolon outside braces or through its block.
-/
namespace Cascade

/-- A rule: selectors and a block. Its line is that of its first token. -/
def StyleRule.read (ts : List Token) : Reading StyleRule :=
  match Selector.readList ts with
  | .error e => .error e
  | .ok (selectors, left) =>
    (Declaration.readBlock left).map fun (declarations, rest) =>
      (⟨selectors, declarations, (ts.head?.map Token.line).getD 1⟩, rest)

@[grind →]
theorem StyleRule.read_length {ts rest : List Token} {rule : StyleRule}
    (h : StyleRule.read ts = .ok (rule, rest)) : rest.length < ts.length := by
  simp only [read, Except.map] at h
  grind

/-- The moment that a token stands for, as a part of the whole duration: `from`, `to`, a percentage
or a plain zero. -/
def KeyframeRule.time? (t : Token) : Option Binary32 :=
  let time : Option Binary32 :=
    match t.kind with
    | .ident =>
      if t.text = "from" then some .zero else if t.text = "to" then some .one else none
    | .dimension =>
      if t.measure.2 = ['%'] then (Binary32.ofText? t.measure.1).map (·.div .hundred) else none
    | .number => (Binary32.ofText? t.text.toList).filter (·.numEq .zero)
    | _ => none
  time.filter Binary32.inUnitInterval

def KeyframeRule.readTimes : List Token → Reading (List Binary32)
  | [] => .error (.ended .keyframeTime)
  | t :: rest =>
    match time? t with
    | none => .error (.unexpected t .keyframeTime)
    | some time =>
      match rest with
      | [] => .ok ([time], [])
      | comma :: more =>
        if comma.kind = .comma then
          match readTimes more with
          | .error e => .error e
          | .ok (times, left) => .ok (time :: times, left)
        else .ok ([time], comma :: more)

@[grind →]
theorem KeyframeRule.readTimes_length {ts rest : List Token} {times : List Binary32}
    (h : readTimes ts = .ok (times, rest)) : rest.length < ts.length := by
  fun_induction readTimes ts generalizing times rest <;> grind

def KeyframeRule.readList (ts : List Token) : Reading (List KeyframeRule) :=
  match ts with
  | [] => .error (.ended .keyframeTime)
  | t :: rest =>
    if t.kind = .braceClose then .ok ([], t :: rest)
    else match ht : readTimes (t :: rest) with
      | .error e => .error e
      | .ok (times, left) =>
        match hb : Declaration.readBlock left with
        | .error e => .error e
        | .ok (declarations, left') =>
          have := readTimes_length ht
          have := Declaration.readBlock_length hb
          match readList left' with
          | .error e => .error e
          | .ok (more, left'') => .ok (⟨times, declarations, t.line⟩ :: more, left'')
termination_by ts.length
decreasing_by grind

theorem KeyframeRule.readList_cons (t : Token) (rest : List Token) : readList (t :: rest) =
    if t.kind = .braceClose then .ok ([], t :: rest)
    else match readTimes (t :: rest) with
      | .error e => .error e
      | .ok (times, left) => match Declaration.readBlock left with
        | .error e => .error e
        | .ok (declarations, left') => match readList left' with
          | .error e => .error e
          | .ok (more, left'') => .ok (⟨times, declarations, t.line⟩ :: more, left'') := by
  rw [readList]
  congr 1
  split
  case h_1 e failed => simp only [failed]
  case h_2 times left success =>
    simp only [success]
    split
    case h_1 e failed => simp only [failed]
    case h_2 declarations left' block => simp only [block]

@[grind →]
theorem KeyframeRule.readList_length {ts rest : List Token} {blocks : List KeyframeRule}
    (h : readList ts = .ok (blocks, rest)) : rest.length ≤ ts.length := by
  fun_induction readList ts generalizing blocks rest <;> grind

def KeyframesRule.read (line : Nat) (ts : List Token) : Reading KeyframesRule :=
  match Reading.name .keyframesName ts with
  | .error e => .error e
  | .ok (name, left) =>
    match Reading.expect .braceOpen left with
    | .error e => .error e
    | .ok (_, left) =>
      match KeyframeRule.readList left with
      | .error e => .error e
      | .ok (blocks, left) =>
        (Reading.expect .braceClose left).map fun (_, rest) => (⟨name.text, blocks, line⟩, rest)

/-- The type of a decorator after its name. A type that touches the colon lexes as a
pseudo-class. -/
def DecoratorRule.readType (ts : List Token) : Reading String :=
  match ts with
  | [] => .error (.ended (.token .colon))
  | t :: rest =>
    if t.kind = .pseudoClass then .ok (t.tail, rest)
    else match Reading.expect .colon (t :: rest) with
      | .error e => .error e
      | .ok (_, left) => (Reading.name .decoratorType left).map fun (n, rest) => (n.text, rest)

def DecoratorRule.read (line : Nat) (ts : List Token) : Reading DecoratorRule :=
  match Reading.name .decoratorName ts with
  | .error e => .error e
  | .ok (name, left) =>
    match readType left with
    | .error e => .error e
    | .ok (type, left) =>
      (Declaration.readBlock left).map fun (declarations, rest) =>
        (⟨name.text, type, declarations, line⟩, rest)

def SpriteSheetRule.read (line : Nat) (ts : List Token) : Reading SpriteSheetRule :=
  match Reading.name .spriteSheetName ts with
  | .error e => .error e
  | .ok (name, left) =>
    (Declaration.readBlock left).map fun (declarations, rest) =>
      (⟨name.text, declarations, line⟩, rest)

/-- What is left after an at-rule with no meaning here. `depth` counts the open braces. -/
def Statement.skip (depth : Nat) : List Token → Except ParseError (List Token)
  | [] => .error (.ended .atRuleEnd)
  | t :: rest =>
    match t.kind with
    | .semicolon => if depth = 0 then .ok rest else skip depth rest
    | .braceOpen => skip (depth + 1) rest
    | .braceClose => if depth ≤ 1 then .ok rest else skip (depth - 1) rest
    | _ => skip depth rest

def Statement.readAtRule (t : Token) (rest : List Token) : Reading (Option Statement) :=
  match t.tail with
  | "keyframes" => (KeyframesRule.read t.line rest).map fun (r, left) => (some (.keyframes r), left)
  | "decorator" => (DecoratorRule.read t.line rest).map fun (r, left) => (some (.decorator r), left)
  | "spritesheet" =>
    (SpriteSheetRule.read t.line rest).map fun (r, left) => (some (.spriteSheet r), left)
  | _ => (skip 0 rest).map fun left => (none, left)

/-- One statement; none for an at-rule that is passed over. -/
def Statement.read : List Token → Reading (Option Statement)
  | [] => .error (.ended .selector)
  | t :: rest =>
    if t.kind = .atKeyword then readAtRule t rest
    else (StyleRule.read (t :: rest)).map fun (r, left) => (some (.style r), left)

@[grind →]
theorem KeyframesRule.read_length {line : Nat} {ts rest : List Token} {rule : KeyframesRule}
    (h : KeyframesRule.read line ts = .ok (rule, rest)) : rest.length < ts.length := by
  simp only [read, Except.map] at h
  grind

@[grind →]
theorem DecoratorRule.readType_length {ts rest : List Token} {type : String}
    (h : readType ts = .ok (type, rest)) : rest.length < ts.length := by
  cases ts <;> simp only [readType, Except.map] at h <;> grind

@[grind →]
theorem DecoratorRule.read_length {line : Nat} {ts rest : List Token} {rule : DecoratorRule}
    (h : DecoratorRule.read line ts = .ok (rule, rest)) : rest.length < ts.length := by
  simp only [read, Except.map] at h
  grind

@[grind →]
theorem SpriteSheetRule.read_length {line : Nat} {ts rest : List Token} {rule : SpriteSheetRule}
    (h : SpriteSheetRule.read line ts = .ok (rule, rest)) : rest.length < ts.length := by
  simp only [read, Except.map] at h
  grind

@[grind →]
theorem Statement.skip_length {depth : Nat} {ts rest : List Token} (h : skip depth ts = .ok rest) :
    rest.length < ts.length := by
  fun_induction skip depth ts generalizing rest <;> grind

@[grind →]
theorem Statement.readAtRule_length {t : Token} {ts rest : List Token} {s : Option Statement}
    (h : readAtRule t ts = .ok (s, rest)) : rest.length < ts.length := by
  simp only [readAtRule, Except.map] at h
  split at h <;> grind

@[grind →]
theorem Statement.read_length {ts rest : List Token} {s : Option Statement}
    (h : Statement.read ts = .ok (s, rest)) : rest.length < ts.length := by
  cases ts <;> simp only [read, Except.map] at h <;> grind

namespace StyleSource

def readStatements (ts : List Token) : Except ParseError (List Statement) :=
  match ts with
  | [] => .ok []
  | t :: rest =>
    match h : Statement.read (t :: rest) with
    | .error e => .error e
    | .ok (statement, left) =>
      have := Statement.read_length h
      match readStatements left with
      | .error e => .error e
      | .ok more => .ok (statement.toList ++ more)
termination_by ts.length
decreasing_by all_goals grind

theorem readStatements_cons (t : Token) (rest : List Token) :
    readStatements (t :: rest) =
      match Statement.read (t :: rest) with
      | .error e => .error e
      | .ok (statement, left) => match readStatements left with
        | .error e => .error e
        | .ok more => .ok (statement.toList ++ more) := by
  rw [readStatements]
  split
  case h_1 e failed => simp only [failed]
  case h_2 statement left success => simp only [success]

def tokens (text : String) : List Token := Token.tokens (Token.withoutComments text.toList)

def ofText (text : String) : Except ParseError StyleSource :=
  (readStatements (tokens text)).map fun statements => ⟨statements⟩

end StyleSource

/-- Reads a text as a list of values, which must take up all of it. -/
def ComponentValue.ofText (text : String) : Except ParseError (List ComponentValue) :=
  match ComponentValue.readAll (StyleSource.tokens text) with
  | .error e => .error e
  | .ok (values, []) => .ok values
  | .ok (_, t :: _) => .error (.unexpected t .value)

end Cascade
