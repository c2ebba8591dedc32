import Cascade.Proofs.Source.Lexing
import Cascade.Proofs.Source.Succeeding
/-!
Reading is independent of place.

Tokens that stand further on in a source are read as the same values, with their lines further on,
and fail with the same errors, at tokens further on. Only lines are ever taken from a token; its
number shows in messages alone.
-/
namespace Cascade

def ParseError.moved (places lines : Nat) : ParseError → ParseError
  | .unexpected found needed => .unexpected (found.moved places lines) needed
  | .ended needed => .ended needed

def Declaration.moved (lines : Nat) (d : Declaration) : Declaration :=
  { d with line := d.line + lines }

def StyleRule.moved (lines : Nat) (r : StyleRule) : StyleRule :=
  ⟨r.selectors, r.declarations.map (.moved lines), r.line + lines⟩

def KeyframeRule.moved (lines : Nat) (r : KeyframeRule) : KeyframeRule :=
  ⟨r.times, r.declarations.map (.moved lines), r.line + lines⟩

def KeyframesRule.moved (lines : Nat) (r : KeyframesRule) : KeyframesRule :=
  ⟨r.name, r.blocks.map (.moved lines), r.line + lines⟩

def DecoratorRule.moved (lines : Nat) (r : DecoratorRule) : DecoratorRule :=
  ⟨r.name, r.type, r.declarations.map (.moved lines), r.line + lines⟩

def SpriteSheetRule.moved (lines : Nat) (r : SpriteSheetRule) : SpriteSheetRule :=
  ⟨r.name, r.declarations.map (.moved lines), r.line + lines⟩

def Statement.moved (lines : Nat) : Statement → Statement
  | .style rule => .style (rule.moved lines)
  | .keyframes rule => .keyframes (rule.moved lines)
  | .decorator rule => .decorator (rule.moved lines)
  | .spriteSheet rule => .spriteSheet (rule.moved lines)

def Reading.moved {α : Type} (places lines : Nat) (change : α → α) : Reading α → Reading α
  | .error e => .error (e.moved places lines)
  | .ok result => .ok (change result.1, result.2.map (.moved places lines))

section Moving
variable (places lines : Nat)

@[simp] theorem Token.moved_kind (t : Token) : (t.moved places lines).kind = t.kind := rfl
@[simp] theorem Token.moved_text (t : Token) : (t.moved places lines).text = t.text := rfl
@[simp] theorem Token.moved_gap (t : Token) : (t.moved places lines).gap = t.gap := rfl
@[simp] theorem Token.moved_line (t : Token) : (t.moved places lines).line = t.line + lines := rfl
@[simp] theorem Token.moved_touches (t : Token) : (t.moved places lines).touches = t.touches := rfl
@[simp] theorem Token.moved_tail (t : Token) : (t.moved places lines).tail = t.tail := rfl

@[simp] theorem ParseError.moved_unexpected (t : Token) (needed : Needed) :
    moved places lines (.unexpected t needed) = .unexpected (t.moved places lines) needed := rfl

@[simp] theorem ParseError.moved_ended (needed : Needed) :
    moved places lines (.ended needed) = .ended needed := rfl

@[simp] theorem ComponentValue.ofToken_moved (t : Token) :
    ofToken? (t.moved places lines) = ofToken? t := rfl

@[simp] theorem KeyframeRule.time_moved (t : Token) : time? (t.moved places lines) = time? t := rfl

@[simp] theorem Token.spelling_moved (ts : List Token) :
    spelling (ts.map (.moved places lines)) = spelling ts := by
  simp [spelling, List.flatMap_map]

@[simp] theorem Token.excerpt_moved (ts : List Token) :
    excerpt (ts.map (.moved places lines)) = excerpt ts := by
  cases ts <;> simp [excerpt]

@[simp] theorem Reading.moved_error {α : Type} (change : α → α) (e : ParseError) :
    moved places lines change (.error e) = .error (e.moved places lines) := rfl

@[simp] theorem Reading.moved_ok {α : Type} (change : α → α) (result : α × List Token) :
    moved places lines change (.ok result) =
      .ok (change result.1, result.2.map (.moved places lines)) := rfl

theorem Reading.require_moved (kind : Token.Kind) (needed : Needed) (ts : List Token) :
    require kind needed (ts.map (.moved places lines)) =
      moved places lines (.moved places lines) (require kind needed ts) := by
  cases ts with
  | nil => rfl
  | cons t rest => by_cases same : t.kind = kind <;> simp [require, same]

theorem Reading.expect_moved (kind : Token.Kind) (ts : List Token) :
    expect kind (ts.map (.moved places lines)) =
      moved places lines (.moved places lines) (expect kind ts) := require_moved ..

theorem Reading.name_moved (needed : Needed) (ts : List Token) :
    name needed (ts.map (.moved places lines)) =
      moved places lines (.moved places lines) (name needed ts) := require_moved ..

theorem ComponentValue.readFrom_moved (outer : List (String × List ComponentValue))
    (current : List ComponentValue) (ts : List Token) :
    readFrom outer current (ts.map (.moved places lines)) =
      Reading.moved places lines id (readFrom outer current ts) := by
  fun_induction readFrom outer current ts
  case case4 t rest ends inside =>
    simp only [List.map_cons, readFrom, Token.moved_kind, ends, inside]
    rfl
  all_goals simp_all [readFrom]

theorem Declaration.attached_moved (ts : List Token) :
    attached? (ts.map (.moved places lines)) =
      (attached? ts).map fun (t, rest) =>
        (t.moved places lines, rest.map (.moved places lines)) := by
  cases ts with
  | nil => rfl
  | cons t rest =>
      by_cases touching : t.kind = .pseudoClass ∧ t.touches = true <;> simp [attached?, touching]

theorem Token.dropIf_moved (kind : Token.Kind) (ts : List Token) :
    dropIf kind (ts.map (.moved places lines)) =
      ((dropIf kind ts).1, (dropIf kind ts).2.map (.moved places lines)) := by
  cases ts with
  | nil => rfl
  | cons t rest => by_cases same : t.kind = kind <;> simp [dropIf, same]

theorem Declaration.readEnd_moved (ts : List Token) :
    readEnd (ts.map (.moved places lines)) =
      ((readEnd ts).1, (readEnd ts).2.map (.moved places lines)) := by
  simp only [readEnd, Token.dropIf_moved]

theorem Declaration.readValues_moved (name : Token) (attached : Option Token) (ts : List Token) :
    readValues (name.moved places lines) (attached.map (.moved places lines))
        (ts.map (.moved places lines)) =
      Reading.moved places lines (.moved lines) (readValues name attached ts) := by
  have written : (ts.map (.moved places lines)).takeWhile
      (fun t : Token => !ComponentValue.endsBefore t.kind) =
      (ts.takeWhile fun t => !ComponentValue.endsBefore t.kind).map (.moved places lines) :=
    List.takeWhile_map
  simp only [readValues, ComponentValue.readAll, ComponentValue.readFrom_moved]
  cases ComponentValue.readFrom [] [] ts with
  | error e => rfl
  | ok result =>
    simp only [Reading.moved_ok, Except.map, written, readEnd_moved]
    cases attached <;> simp [moved]

theorem Declaration.read_moved (ts : List Token) :
    Declaration.read (ts.map (.moved places lines)) =
      Reading.moved places lines (.moved lines) (Declaration.read ts) := by
  simp only [Declaration.read, Reading.name_moved]
  cases Reading.name .propertyName ts with
  | error e => rfl
  | ok result =>
      simp only [Reading.moved_ok, attached_moved]
      cases attached? result.2 with
      | some touching => exact readValues_moved places lines result.1 (some touching.1) touching.2
      | none =>
          simp only [Option.map_none, Reading.expect_moved]
          cases Reading.expect .colon result.2 with
          | error e => rfl
          | ok after => exact readValues_moved places lines result.1 none after.2

theorem Declaration.readList_moved (ts : List Token) :
    readList (ts.map (.moved places lines)) =
      Reading.moved places lines (List.map (.moved lines)) (readList ts) := by
  fun_induction readList ts with
  | case1 => simp [readList]
  | case2 t rest closes => simp [readList_cons, closes]
  | case3 t rest inner separates ih => simp [readList_cons, separates, ih]
  | case4 t rest inner other e failed =>
      have first := read_moved places lines (t :: rest)
      simp_all [readList_cons]
  | case5 t rest inner other d left success shorter e failed ih =>
      have first := read_moved places lines (t :: rest)
      simp_all [readList_cons]
  | case6 t rest inner other d left success shorter more left' others ih =>
      have first := read_moved places lines (t :: rest)
      simp_all [readList_cons]

theorem Declaration.readBlock_moved (ts : List Token) :
    readBlock (ts.map (.moved places lines)) =
      Reading.moved places lines (List.map (.moved lines)) (readBlock ts) := by
  simp only [readBlock, Reading.expect_moved]
  cases Reading.expect .braceOpen ts with
  | error e => rfl
  | ok opened =>
      simp only [Reading.moved_ok, readList_moved]
      cases readList opened.2 with
      | error e => rfl
      | ok inner =>
          simp only [Reading.moved_ok, Reading.expect_moved]
          cases Reading.expect .braceClose inner.2 <;> rfl

theorem SimpleSelector.qualifier_moved (ts : List Token) :
    qualifier? (ts.map (.moved places lines)) =
      match qualifier? ts with
      | .error e => .error (e.moved places lines)
      | .ok found => .ok (found.map fun (c, rest) => (c, rest.map (.moved places lines))) := by
  cases ts with
  | nil => rfl
  | cons t rest =>
      have names (needed : Needed) := Reading.name_moved places lines needed rest
      simp only [List.map_cons, qualifier?, Token.moved_kind, Token.moved_tail, names]
      cases t.kind
      case dot => cases Reading.name .className rest <;> rfl
      case hash => cases Reading.name .idName rest <;> rfl
      all_goals rfl

theorem Compound.readQualifiers_moved (ts : List Token) :
    SimpleSelector.readQualifiers (ts.map (.moved places lines)) =
      Reading.moved places lines id (SimpleSelector.readQualifiers ts) := by
  fun_induction SimpleSelector.readQualifiers ts with
  | case1 => simp [SimpleSelector.readQualifiers]
  | case2 t rest touching e failed =>
      have first := SimpleSelector.qualifier_moved places lines (t :: rest)
      simp_all [SimpleSelector.readQualifiers_cons]
  | case3 t rest touching nothing =>
      have first := SimpleSelector.qualifier_moved places lines (t :: rest)
      simp_all [SimpleSelector.readQualifiers_cons]
  | case4 t rest touching c left success shorter e failed ih =>
      have first := SimpleSelector.qualifier_moved places lines (t :: rest)
      simp_all [SimpleSelector.readQualifiers_cons]
  | case5 t rest touching c left success shorter more left' others ih =>
      have first := SimpleSelector.qualifier_moved places lines (t :: rest)
      simp_all [SimpleSelector.readQualifiers_cons]
  | case6 t rest apart => simp_all [SimpleSelector.readQualifiers_cons]

theorem Compound.read_moved (ts : List Token) :
    Compound.read (ts.map (.moved places lines)) =
      Reading.moved places lines id (Compound.read ts) := by
  cases ts with
  | nil => rfl
  | cons t rest =>
      have qualified := SimpleSelector.qualifier_moved places lines (t :: rest)
      have more (left : List Token) := readQualifiers_moved places lines left
      rw [List.map_cons] at qualified
      cases kind : t.kind
      case ident =>
        simp only [List.map_cons, Compound.read, Token.moved_kind, Token.moved_text, kind, more]
        cases SimpleSelector.readQualifiers rest <;> rfl
      case star =>
        simp only [List.map_cons, Compound.read, Token.moved_kind, kind, more]
        cases SimpleSelector.readQualifiers rest <;> rfl
      all_goals
        simp only [List.map_cons, Compound.read, Token.moved_kind, kind, qualified]
        rcases SimpleSelector.qualifier? (t :: rest) with e | _ | ⟨c, left⟩
        · rfl
        · rfl
        · simp only [Option.map_some, more]
          cases SimpleSelector.readQualifiers left <;> rfl

theorem Combinator.read_moved (ts : List Token) :
    read? (ts.map (.moved places lines)) =
      (read? ts).map fun (c, rest) => (c, rest.map (.moved places lines)) := by
  cases ts with
  | nil => rfl
  | cons t rest =>
      simp only [List.map_cons, read?, Token.moved_kind]
      cases t.kind <;> rfl

theorem Selector.readRest_moved (ts : List Token) :
    readRest (ts.map (.moved places lines)) = Reading.moved places lines id (readRest ts) := by
  fun_induction readRest ts with
  | case1 ts nothing =>
      have sign := Combinator.read_moved places lines ts
      simp_all [readRest_eq (ts.map _)]
  | case2 ts c after found e failed =>
      have sign := Combinator.read_moved places lines ts
      have first := Compound.read_moved places lines after
      simp_all [readRest_eq (ts.map _)]
  | case3 ts c after found compound left success shorter smaller e failed ih =>
      have sign := Combinator.read_moved places lines ts
      have first := Compound.read_moved places lines after
      simp_all [readRest_eq (ts.map _)]
  | case4 ts c after found compound left success shorter smaller more left' others ih =>
      have sign := Combinator.read_moved places lines ts
      have first := Compound.read_moved places lines after
      simp_all [readRest_eq (ts.map _)]

theorem Selector.read_moved (ts : List Token) :
    Selector.read (ts.map (.moved places lines)) =
      Reading.moved places lines id (Selector.read ts) := by
  simp only [Selector.read, Compound.read_moved]
  cases Compound.read ts with
  | error e => rfl
  | ok first =>
      simp only [Reading.moved_ok, readRest_moved]
      cases readRest first.2 <;> rfl

theorem Selector.readList_moved (ts : List Token) :
    readList (ts.map (.moved places lines)) = Reading.moved places lines id (readList ts) := by
  fun_induction readList ts with
  | case1 ts e failed =>
      have first := read_moved places lines ts
      simp_all [readList_eq (ts.map _)]
  | case2 ts selector last =>
      have first := read_moved places lines ts
      simp_all [readList_eq (ts.map _)]
  | case3 ts selector t rest success comma shorter e failed ih =>
      have first := read_moved places lines ts
      simp_all [readList_eq (ts.map _)]
  | case4 ts selector t rest success comma shorter more left others ih =>
      have first := read_moved places lines ts
      simp_all [readList_eq (ts.map _)]
  | case5 ts selector t rest success other =>
      have first := read_moved places lines ts
      simp_all [readList_eq (ts.map _)]

theorem StyleRule.read_moved {ts : List Token} (some : ts ≠ []) :
    StyleRule.read (ts.map (.moved places lines)) =
      Reading.moved places lines (.moved lines) (StyleRule.read ts) := by
  have line : ((ts.map (.moved places lines)).head?.map Token.line).getD 1 =
      (ts.head?.map Token.line).getD 1 + lines := by
    cases ts with
    | nil => contradiction
    | cons t rest => rfl
  simp only [StyleRule.read, Selector.readList_moved, line]
  cases Selector.readList ts with
  | error e => rfl
  | ok found =>
      simp only [Reading.moved_ok, Declaration.readBlock_moved]
      cases Declaration.readBlock found.2 <;> rfl

theorem KeyframeRule.readTimes_moved (ts : List Token) :
    readTimes (ts.map (.moved places lines)) = Reading.moved places lines id (readTimes ts) := by
  fun_induction readTimes ts <;> simp_all [readTimes]

theorem KeyframeRule.readList_moved (ts : List Token) :
    readList (ts.map (.moved places lines)) =
      Reading.moved places lines (List.map (.moved lines)) (readList ts) := by
  fun_induction readList ts with
  | case1 => simp [readList]
  | case2 t rest closes => simp [readList_cons, closes]
  | case3 t rest inner e failed =>
      have first := readTimes_moved places lines (t :: rest)
      simp_all [readList_cons]
  | case4 t rest inner times left success e failed =>
      have first := readTimes_moved places lines (t :: rest)
      have block := Declaration.readBlock_moved places lines left
      simp_all [readList_cons]
  | case5 t rest inner times left success declarations left' body shorter smaller e failed ih =>
      have first := readTimes_moved places lines (t :: rest)
      have block := Declaration.readBlock_moved places lines left
      simp_all [readList_cons]
  | case6 t rest inner times left success declarations left' body shorter smaller more left''
      others ih =>
      have first := readTimes_moved places lines (t :: rest)
      have block := Declaration.readBlock_moved places lines left
      simp_all [readList_cons, moved]

theorem KeyframesRule.read_moved (line : Nat) (ts : List Token) :
    KeyframesRule.read (line + lines) (ts.map (.moved places lines)) =
      Reading.moved places lines (.moved lines) (KeyframesRule.read line ts) := by
  simp only [KeyframesRule.read, Reading.name_moved]
  cases Reading.name .keyframesName ts with
  | error e => rfl
  | ok name =>
      simp only [Reading.moved_ok, Reading.expect_moved]
      cases Reading.expect .braceOpen name.2 with
      | error e => rfl
      | ok opened =>
          simp only [Reading.moved_ok, KeyframeRule.readList_moved]
          cases KeyframeRule.readList opened.2 with
          | error e => rfl
          | ok blocks =>
              simp only [Reading.moved_ok, Reading.expect_moved]
              cases Reading.expect .braceClose blocks.2 <;> rfl

theorem DecoratorRule.readType_moved (ts : List Token) :
    readType (ts.map (.moved places lines)) = Reading.moved places lines id (readType ts) := by
  cases ts with
  | nil => rfl
  | cons t rest =>
      have colon := Reading.expect_moved places lines .colon (t :: rest)
      rw [List.map_cons] at colon
      by_cases touching : t.kind = .pseudoClass
      · simp [readType, touching]
      · simp only [List.map_cons, readType, Token.moved_kind, touching, if_false, colon]
        cases Reading.expect .colon (t :: rest) with
        | error e => rfl
        | ok after =>
            simp only [Reading.moved_ok, Reading.name_moved]
            cases Reading.name .decoratorType after.2 <;> rfl

theorem DecoratorRule.read_moved (line : Nat) (ts : List Token) :
    DecoratorRule.read (line + lines) (ts.map (.moved places lines)) =
      Reading.moved places lines (.moved lines) (DecoratorRule.read line ts) := by
  simp only [DecoratorRule.read, Reading.name_moved]
  cases Reading.name .decoratorName ts with
  | error e => rfl
  | ok name =>
      simp only [Reading.moved_ok, readType_moved]
      cases readType name.2 with
      | error e => rfl
      | ok type =>
          simp only [Reading.moved_ok, Declaration.readBlock_moved]
          cases Declaration.readBlock type.2 <;> rfl

theorem SpriteSheetRule.read_moved (line : Nat) (ts : List Token) :
    SpriteSheetRule.read (line + lines) (ts.map (.moved places lines)) =
      Reading.moved places lines (.moved lines) (SpriteSheetRule.read line ts) := by
  simp only [SpriteSheetRule.read, Reading.name_moved]
  cases Reading.name .spriteSheetName ts with
  | error e => rfl
  | ok name =>
      simp only [Reading.moved_ok, Declaration.readBlock_moved]
      cases Declaration.readBlock name.2 <;> rfl

theorem Statement.skip_moved (depth : Nat) (ts : List Token) :
    skip depth (ts.map (.moved places lines)) =
      match skip depth ts with
      | .error e => .error (e.moved places lines)
      | .ok rest => .ok (rest.map (.moved places lines)) := by
  fun_induction skip depth ts
  case case6 depth t rest closes deep ih =>
    simp only [List.map_cons, skip, Token.moved_kind, closes, deep, if_false, ih]
  all_goals simp_all [skip]

theorem Statement.readAtRule_moved (t : Token) (ts : List Token) :
    readAtRule (t.moved places lines) (ts.map (.moved places lines)) =
      Reading.moved places lines (Option.map (.moved lines)) (readAtRule t ts) := by
  simp only [readAtRule, Token.moved_tail, Token.moved_line, KeyframesRule.read_moved,
    DecoratorRule.read_moved, SpriteSheetRule.read_moved, skip_moved]
  split
  case h_1 => cases KeyframesRule.read t.line ts <;> rfl
  case h_2 => cases DecoratorRule.read t.line ts <;> rfl
  case h_3 => cases SpriteSheetRule.read t.line ts <;> rfl
  case h_4 => cases skip 0 ts <;> rfl

theorem Statement.read_moved (ts : List Token) :
    Statement.read (ts.map (.moved places lines)) =
      Reading.moved places lines (Option.map (.moved lines)) (Statement.read ts) := by
  cases ts with
  | nil => rfl
  | cons t rest =>
      by_cases keyword : t.kind = .atKeyword
      · simp [Statement.read, keyword, readAtRule_moved]
      · have rule := StyleRule.read_moved places lines (List.cons_ne_nil t rest)
        rw [List.map_cons] at rule
        simp only [List.map_cons, Statement.read, Token.moved_kind, keyword, if_false, rule]
        cases StyleRule.read (t :: rest) <;> rfl

/-- Tokens further on are read as the same statements or with the same error, further on. -/
theorem StyleSource.readStatements_moved (ts : List Token) :
    readStatements (ts.map (.moved places lines)) =
      match readStatements ts with
      | .error e => .error (e.moved places lines)
      | .ok statements => .ok (statements.map (.moved lines)) := by
  fun_induction readStatements ts with
  | case1 => simp [readStatements]
  | case2 t rest e failed =>
      have first := Statement.read_moved places lines (t :: rest)
      simp_all [readStatements_cons]
  | case3 t rest statement left success shorter e failed ih =>
      have first := Statement.read_moved places lines (t :: rest)
      simp_all [readStatements_cons]
  | case4 t rest statement left success shorter more others ih =>
      have first := Statement.read_moved places lines (t :: rest)
      cases statement <;> simp_all [readStatements_cons]

end Moving

theorem Declaration.moved_zero : Declaration.moved 0 = id := rfl

theorem KeyframeRule.moved_zero : KeyframeRule.moved 0 = id := by
  funext rule
  simp [moved, Declaration.moved_zero]

theorem Statement.moved_zero : Statement.moved 0 = id := by
  funext statement
  cases statement <;>
    simp [moved, StyleRule.moved, KeyframesRule.moved, DecoratorRule.moved, SpriteSheetRule.moved,
      KeyframeRule.moved_zero, Declaration.moved_zero]

namespace StyleSource

def moved (lines : Nat) (source : StyleSource) : StyleSource :=
  ⟨source.statements.map (.moved lines)⟩

theorem moved_zero (source : StyleSource) : source.moved 0 = source := by
  rw [moved, Statement.moved_zero, List.map_id]

variable (source : StyleSource) (lines : Nat)

theorem rules_moved {α : Type} (select : Statement → Option α) (change : α → α)
    (moves : ∀ s, select (.moved lines s) = (select s).map change) :
    (source.moved lines).statements.filterMap select =
      (source.statements.filterMap select).map change := by
  rw [moved, List.filterMap_map, List.map_filterMap]
  exact congrArg (source.statements.filterMap ·) (funext moves)

theorem styleRules_moved :
    (source.moved lines).styleRules = source.styleRules.map (.moved lines) :=
  rules_moved source lines _ _ fun s => by cases s <;> rfl

theorem keyframesRules_moved :
    (source.moved lines).keyframesRules = source.keyframesRules.map (.moved lines) :=
  rules_moved source lines _ _ fun s => by cases s <;> rfl

theorem decoratorRules_moved :
    (source.moved lines).decoratorRules = source.decoratorRules.map (.moved lines) :=
  rules_moved source lines _ _ fun s => by cases s <;> rfl

theorem spriteSheetRules_moved :
    (source.moved lines).spriteSheetRules = source.spriteSheetRules.map (.moved lines) :=
  rules_moved source lines _ _ fun s => by cases s <;> rfl

end StyleSource
end Cascade
