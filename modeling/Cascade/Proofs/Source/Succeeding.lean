import Cascade.Source.StatementReading
/-!
What a reading that succeeds consists of.

A reader that runs others in turn has succeeded only if all of them have, each on what the one
before it left. The other way round, a list is read by its first item and then the rest.
-/
namespace Cascade

theorem map_eq_error {ε α β : Type} {f : α → β} {r : Except ε α} {e : ε} :
    r.map f = .error e ↔ r = .error e := by
  cases r <;> simp [Except.map]

theorem map_eq_ok {ε α β : Type} {f : α → β} {r : Except ε α} {b : β} :
    r.map f = .ok b ↔ ∃ a, r = .ok a ∧ f a = b := by
  cases r <;> simp [Except.map]

section Succeeding
variable {ts rest : List Token}

theorem Declaration.readBlock_parts {ds : List Declaration} (read : readBlock ts = .ok (ds, rest)) :
    ∃ brace inner left closing, Reading.expect .braceOpen ts = .ok (brace, inner) ∧
      readList inner = .ok (ds, left) ∧
      Reading.expect .braceClose left = .ok (closing, rest) := by
  rw [readBlock] at read
  split at read
  case h_1 => cases read
  case h_2 brace inner opened =>
    split at read
    case h_1 => cases read
    case h_2 declarations left found =>
      obtain ⟨⟨closing, after⟩, closed, same⟩ := map_eq_ok.mp read
      obtain ⟨rfl, rfl⟩ := Prod.mk.inj same
      exact ⟨brace, inner, left, closing, opened, found, closed⟩

theorem Selector.read_parts {s : Selector} (read : Selector.read ts = .ok (s, rest)) :
    ∃ left, Compound.read ts = .ok (s.first, left) ∧ readRest left = .ok (s.rest, rest) := by
  rw [Selector.read] at read
  split at read
  case h_1 => cases read
  case h_2 first left begun =>
    obtain ⟨⟨more, after⟩, found, same⟩ := map_eq_ok.mp read
    obtain ⟨rfl, rfl⟩ := Prod.mk.inj same
    exact ⟨left, begun, found⟩

theorem StyleRule.read_parts {rule : StyleRule} (read : StyleRule.read ts = .ok (rule, rest)) :
    ∃ left, Selector.readList ts = .ok (rule.selectors, left) ∧
      Declaration.readBlock left = .ok (rule.declarations, rest) ∧
      rule.line = (ts.head?.map Token.line).getD 1 := by
  rw [StyleRule.read] at read
  split at read
  case h_1 => cases read
  case h_2 selectors left selected =>
    obtain ⟨⟨declarations, after⟩, block, same⟩ := map_eq_ok.mp read
    obtain ⟨rfl, rfl⟩ := Prod.mk.inj same
    exact ⟨left, selected, block, rfl⟩

variable {line : Nat}

theorem KeyframesRule.read_parts {rule : KeyframesRule}
    (read : KeyframesRule.read line ts = .ok (rule, rest)) :
    ∃ name opening brace inner left closing, Reading.name .keyframesName ts = .ok (name, opening) ∧
      Reading.expect .braceOpen opening = .ok (brace, inner) ∧
      KeyframeRule.readList inner = .ok (rule.blocks, left) ∧
      Reading.expect .braceClose left = .ok (closing, rest) ∧
      rule.name = name.text ∧ rule.line = line := by
  rw [KeyframesRule.read] at read
  split at read
  case h_1 => cases read
  case h_2 name opening named =>
    split at read
    case h_1 => cases read
    case h_2 brace inner opened =>
      split at read
      case h_1 => cases read
      case h_2 blocks left found =>
        obtain ⟨⟨closing, after⟩, closed, same⟩ := map_eq_ok.mp read
        obtain ⟨rfl, rfl⟩ := Prod.mk.inj same
        exact ⟨name, opening, brace, inner, left, closing, named, opened, found, closed, rfl, rfl⟩

theorem DecoratorRule.read_parts {rule : DecoratorRule}
    (read : DecoratorRule.read line ts = .ok (rule, rest)) :
    ∃ name typing left, Reading.name .decoratorName ts = .ok (name, typing) ∧
      readType typing = .ok (rule.type, left) ∧
      Declaration.readBlock left = .ok (rule.declarations, rest) ∧
      rule.name = name.text ∧ rule.line = line := by
  rw [DecoratorRule.read] at read
  split at read
  case h_1 => cases read
  case h_2 name typing named =>
    split at read
    case h_1 => cases read
    case h_2 type left typed =>
      obtain ⟨⟨declarations, after⟩, block, same⟩ := map_eq_ok.mp read
      obtain ⟨rfl, rfl⟩ := Prod.mk.inj same
      exact ⟨name, typing, left, named, typed, block, rfl, rfl⟩

theorem SpriteSheetRule.read_parts {rule : SpriteSheetRule}
    (read : SpriteSheetRule.read line ts = .ok (rule, rest)) :
    ∃ name left, Reading.name .spriteSheetName ts = .ok (name, left) ∧
      Declaration.readBlock left = .ok (rule.declarations, rest) ∧
      rule.name = name.text ∧ rule.line = line := by
  rw [SpriteSheetRule.read] at read
  split at read
  case h_1 => cases read
  case h_2 name left named =>
    obtain ⟨⟨declarations, after⟩, block, same⟩ := map_eq_ok.mp read
    obtain ⟨rfl, rfl⟩ := Prod.mk.inj same
    exact ⟨name, left, named, block, rfl, rfl⟩

/-- What the tokens at the front of a list are as a statement, and what they leave. -/
inductive Statement.Begins : List Token → Option Statement → List Token → Prop where
  | style {ts rest : List Token} {rule : StyleRule} :
      StyleRule.read ts = .ok (rule, rest) → Begins ts (some (.style rule)) rest
  | keyframes {t : Token} {ts rest : List Token} {rule : KeyframesRule} :
      KeyframesRule.read t.line ts = .ok (rule, rest) →
        Begins (t :: ts) (some (.keyframes rule)) rest
  | decorator {t : Token} {ts rest : List Token} {rule : DecoratorRule} :
      DecoratorRule.read t.line ts = .ok (rule, rest) →
        Begins (t :: ts) (some (.decorator rule)) rest
  | spriteSheet {t : Token} {ts rest : List Token} {rule : SpriteSheetRule} :
      SpriteSheetRule.read t.line ts = .ok (rule, rest) →
        Begins (t :: ts) (some (.spriteSheet rule)) rest
  | skipped {t : Token} {ts rest : List Token} :
      skip 0 ts = .ok rest → Begins (t :: ts) none rest

theorem Statement.begins_of_read {s : Option Statement}
    (read : Statement.read ts = .ok (s, rest)) : Begins ts s rest := by
  cases ts with
  | nil => cases read
  | cons t us =>
      rw [Statement.read] at read
      split at read
      case isFalse =>
        obtain ⟨⟨rule, left⟩, found, same⟩ := map_eq_ok.mp read
        obtain ⟨rfl, rfl⟩ := Prod.mk.inj same
        exact .style found
      case isTrue =>
        rw [readAtRule] at read
        split at read
        case h_1 =>
          obtain ⟨⟨rule, left⟩, found, same⟩ := map_eq_ok.mp read
          obtain ⟨rfl, rfl⟩ := Prod.mk.inj same
          exact .keyframes found
        case h_2 =>
          obtain ⟨⟨rule, left⟩, found, same⟩ := map_eq_ok.mp read
          obtain ⟨rfl, rfl⟩ := Prod.mk.inj same
          exact .decorator found
        case h_3 =>
          obtain ⟨⟨rule, left⟩, found, same⟩ := map_eq_ok.mp read
          obtain ⟨rfl, rfl⟩ := Prod.mk.inj same
          exact .spriteSheet found
        case h_4 =>
          obtain ⟨left, found, same⟩ := map_eq_ok.mp read
          obtain ⟨rfl, rfl⟩ := Prod.mk.inj same
          exact .skipped found

/-- A statement of a source was read from some token on. -/
theorem StyleSource.begins_of_mem {statements : List Statement}
    (read : readStatements ts = .ok statements) {s : Statement} (member : s ∈ statements) :
    ∃ us left, Statement.Begins us (some s) left := by
  fun_induction readStatements ts generalizing statements with
  | case1 =>
      obtain rfl := Except.ok.inj read
      cases member
  | case2 | case3 => cases read
  | case4 t others first left success shorter more found ih =>
      obtain rfl := Except.ok.inj read
      rcases List.mem_append.mp member with here | later
      · rw [Option.mem_toList.mp here] at success
        exact ⟨_, _, Statement.begins_of_read success⟩
      · exact ih found later

end Succeeding

theorem Selector.readList_last {ts rest : List Token} {t : Token} {s : Selector}
    (only : Selector.read ts = .ok (s, t :: rest)) (last : t.kind ≠ .comma) :
    readList ts = .ok ([s], t :: rest) := by
  simp [readList_eq, only, last]

theorem Declaration.readList_step {ts left after : List Token} {d : Declaration}
    {more : List Declaration} (first : Declaration.read ts = .ok (d, left))
    (others : readList left = .ok (more, after)) : readList ts = .ok (d :: more, after) := by
  cases ts with
  | nil => cases first
  | cons t rest =>
      have named : t.kind = .ident := by
        apply Decidable.byContradiction
        intro other
        simp [Declaration.read, Reading.name, Reading.require, other] at first
      simp [readList_cons, named, first, others]

theorem StyleSource.readStatements_step {t : Token} {rest left : List Token}
    {statement : Option Statement} {more : List Statement}
    (first : Statement.read (t :: rest) = .ok (statement, left))
    (others : readStatements left = .ok more) :
    readStatements (t :: rest) = .ok (statement.toList ++ more) := by
  simp [readStatements_cons, first, others]

/-! Two sources. The second one goes over the first. -/

def StyleSource.menuText : String :=
  "ul > li, #nav \x7b display: block \x7d
  li.open ~ li:hover \x7b width: 10px; height: 5px !important \x7d
  @decorator panel: gradient \x7b direction: vertical \x7d
  @keyframes fade \x7b from, 50% \x7b opacity: 0 \x7d to \x7b opacity: 1 \x7d \x7d"

def StyleSource.menu : StyleSource :=
  let list : Compound := ⟨[.tag "ul"]⟩
  let item : Compound := ⟨[.tag "li"]⟩
  let opened : Compound := ⟨[.tag "li", .className "open"]⟩
  let hovered : Compound := ⟨[.tag "li", .pseudoClass "hover"]⟩
  ⟨[.style ⟨[⟨list, [(.child, item)]⟩, ⟨⟨[.id "nav"]⟩, []⟩],
      [⟨"display", [.ident "block"], "block", false, 1⟩], 1⟩,
    .style ⟨[⟨opened, [(.laterSibling, hovered)]⟩],
      [⟨"width", [.dimension (.ofRatio false 10 1) "px"], "10px", false, 2⟩,
        ⟨"height", [.dimension (.ofRatio false 5 1) "px"], "5px", true, 2⟩], 2⟩,
    .decorator ⟨"panel", "gradient",
      [⟨"direction", [.ident "vertical"], "vertical", false, 3⟩], 3⟩,
    .keyframes ⟨"fade",
      [⟨[.zero, .ofRatio false 1 2], [⟨"opacity", [.number .zero], "0", false, 4⟩], 4⟩,
        ⟨[.one], [⟨"opacity", [.number .one], "1", false, 4⟩], 4⟩], 4⟩]⟩

theorem StyleSource.ofText_menu : ofText menuText = .ok menu := by
  rw [ofText, tokens, menuText, String.toList_ofList]
  decide +kernel

def StyleSource.overlayText : String :=
  "ul > li \x7b display: inline \x7d
  #nav > li \x7b width: 20px; height: 8px \x7d"

def StyleSource.overlay : StyleSource :=
  let item : Compound := ⟨[.tag "li"]⟩
  ⟨[.style ⟨[⟨⟨[.tag "ul"]⟩, [(.child, item)]⟩],
      [⟨"display", [.ident "inline"], "inline", false, 1⟩], 1⟩,
    .style ⟨[⟨⟨[.id "nav"]⟩, [(.child, item)]⟩],
      [⟨"width", [.dimension (.ofRatio false 20 1) "px"], "20px", false, 2⟩,
        ⟨"height", [.dimension (.ofRatio false 8 1) "px"], "8px", false, 2⟩], 2⟩]⟩

theorem StyleSource.ofText_overlay : ofText overlayText = .ok overlay := by
  rw [ofText, tokens, overlayText, String.toList_ofList]
  decide +kernel

end Cascade
