import Cascade.Binary32
import Cascade.Selector
/-!
What a source is read as: statements, their declarations, and the component values that stand to the
right of the colon in a declaration, before they are given a meaning.
-/
namespace Cascade

inductive ComponentValue where
  | ident (name : String)
  | number (value : Binary32)
  | dimension (value : Binary32) (unit : String)
  | color (digits : String)
  | string (text : String)
  | function (name : String) (arguments : List ComponentValue)
  | comma
  | delimiter (sign : String)
  deriving Inhabited

namespace ComponentValue

/-- The text of a value in a rebuilt declaration. The arguments of a function are left out. -/
def rebuilt : ComponentValue → String
  | .ident name => name
  | .number n => n.text
  | .dimension n unit => n.text ++ unit
  | .color digits => "#" ++ digits
  | .string text => "\"" ++ text ++ "\""
  | .function name _ => name ++ "(..)"
  | .comma => ","
  | .delimiter sign => sign

mutual
def inspect : ComponentValue → String
  | .ident name => "Ident(" ++ Text.quoted name ++ ")"
  | .number n => "Number(" ++ n.inspect ++ ")"
  | .dimension n unit => "Dimension(" ++ n.inspect ++ ", " ++ Text.quoted unit ++ ")"
  | .color digits => "Color(" ++ Text.quoted digits ++ ")"
  | .string text => "String(" ++ Text.quoted text ++ ")"
  | .function name arguments =>
    "Function(" ++ Text.quoted name ++ ", [" ++ inspectAll arguments ++ "])"
  | .comma => "Comma"
  | .delimiter sign => "Delim(" ++ Text.quoted sign ++ ")"

def inspectAll : List ComponentValue → String
  | [] => ""
  | [v] => inspect v
  | v :: w :: more => inspect v ++ ", " ++ inspectAll (w :: more)
end

mutual
def isSame : ComponentValue → ComponentValue → Bool
  | .ident a, .ident b => a = b
  | .number m, .number n => m = n
  | .dimension m a, .dimension n b => m = n && a = b
  | .color a, .color b => a = b
  | .string a, .string b => a = b
  | .function a vs, .function b ws => a = b && areSame vs ws
  | .comma, .comma => true
  | .delimiter a, .delimiter b => a = b
  | _, _ => false

def areSame : List ComponentValue → List ComponentValue → Bool
  | [], [] => true
  | v :: vs, w :: ws => isSame v w && areSame vs ws
  | _, _ => false
end

mutual
theorem isSame_iff : (v w : ComponentValue) → (isSame v w = true ↔ v = w)
  | .function a vs, w => by cases w <;> simp [isSame, areSame_iff vs]
  | .ident _, w | .number _, w | .dimension _ _, w | .color _, w | .string _, w | .comma, w
  | .delimiter _, w => by cases w <;> simp [isSame]

theorem areSame_iff : (vs ws : List ComponentValue) → (areSame vs ws = true ↔ vs = ws)
  | [], ws => by cases ws <;> simp [areSame]
  | v :: vs, ws => by cases ws <;> simp [areSame, isSame_iff v, areSame_iff vs]
end

-- No instance is derived for a type whose values stand in lists of its own fields.
instance : DecidableEq ComponentValue := fun v w => decidable_of_iff _ (isSame_iff v w)

end ComponentValue

/-- A declaration: the values as tokens and as written, without the `!important` mark. -/
structure Declaration where
  property : String
  values : List ComponentValue
  raw : String
  important : Bool
  line : Nat
  deriving DecidableEq, Inhabited

/-- A declaration that was not read from a source; its raw text is put together from its values. -/
def Declaration.ofValues (property : String) (values : List ComponentValue) (important : Bool) :
    Declaration :=
  { property, values, important, line := 0,
    raw := " ".intercalate (values.map ComponentValue.rebuilt) }

/-! The statements of a style sheet source, in order. -/

structure StyleRule where
  selectors : List Selector
  declarations : List Declaration
  line : Nat
  deriving DecidableEq, Inhabited

/-- Declarations for some moments of an animation, in parts of its duration. -/
structure KeyframeRule where
  times : List Binary32
  declarations : List Declaration
  line : Nat
  deriving DecidableEq, Inhabited

structure KeyframesRule where
  name : String
  blocks : List KeyframeRule
  line : Nat
  deriving DecidableEq, Inhabited

structure DecoratorRule where
  name : String
  type : String
  declarations : List Declaration
  line : Nat
  deriving DecidableEq, Inhabited

structure SpriteSheetRule where
  name : String
  declarations : List Declaration
  line : Nat
  deriving DecidableEq, Inhabited

inductive Statement where
  | style (rule : StyleRule)
  | keyframes (rule : KeyframesRule)
  | decorator (rule : DecoratorRule)
  | spriteSheet (rule : SpriteSheetRule)
  deriving DecidableEq, Inhabited

/-- A source that was read: its statements, less the at-rules that mean nothing here. -/
structure StyleSource where
  statements : List Statement
  deriving DecidableEq, Inhabited

namespace StyleSource

def styleRules (s : StyleSource) : List StyleRule :=
  s.statements.filterMap fun | .style rule => some rule | _ => none

def keyframesRules (s : StyleSource) : List KeyframesRule :=
  s.statements.filterMap fun | .keyframes rule => some rule | _ => none

def decoratorRules (s : StyleSource) : List DecoratorRule :=
  s.statements.filterMap fun | .decorator rule => some rule | _ => none

def spriteSheetRules (s : StyleSource) : List SpriteSheetRule :=
  s.statements.filterMap fun | .spriteSheet rule => some rule | _ => none

def isEmpty (s : StyleSource) : Bool := s.statements.isEmpty

end StyleSource
end Cascade
