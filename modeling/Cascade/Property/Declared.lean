import Cascade.Property.Dictionary
import Cascade.Source.StatementReading
/-!
From the values of a declaration to the typed values of properties.

A scalar is a number with a unit. The values of a box are given for its four sides.
-/
namespace Cascade

/-- What a scalar counts. A dp is a pixel at a fixed density; em, rem and percent refer to
something else's size. -/
inductive LengthUnit where
  | number
  | px
  | dp
  | em
  | rem
  | percent
  deriving DecidableEq, Inhabited

namespace LengthUnit

/-- The unit that a suffix names, in any case. Only a bare number has no suffix. -/
def ofSuffix? (suffix : String) : Option LengthUnit :=
  match Text.lowered suffix with
  | "px" => some .px
  | "dp" => some .dp
  | "em" => some .em
  | "rem" => some .rem
  | "%" => some .percent
  | _ => none

def suffix : LengthUnit → String
  | .number => ""
  | .px => "px"
  | .dp => "dp"
  | .em => "em"
  | .rem => "rem"
  | .percent => "%"

def isRelative : LengthUnit → Bool
  | .em | .rem | .percent => true
  | .number | .px | .dp => false

end LengthUnit

structure Scalar where
  value : Binary32
  unit : LengthUnit
  deriving DecidableEq, Inhabited

namespace Scalar

def ofValue? : ComponentValue → Option Scalar
  | .number n => some ⟨n, .number⟩
  | .dimension n suffix => (LengthUnit.ofSuffix? suffix).map fun unit => ⟨n, unit⟩
  | _ => none

def text (s : Scalar) : String := s.value.text ++ s.unit.suffix

end Scalar

structure BoxSides (α : Type) where
  top : α
  right : α
  bottom : α
  left : α
  deriving DecidableEq, Inhabited

namespace BoxSides

/-- One thing serves all sides; two serve the vertical and the horizontal ones; of three the second
serves both horizontal ones; four go around from the top. -/
def ofShorthand? {α : Type} : List α → Option (BoxSides α)
  | [all] => some ⟨all, all, all, all⟩
  | [vertical, horizontal] => some ⟨vertical, horizontal, vertical, horizontal⟩
  | [top, horizontal, bottom] => some ⟨top, horizontal, bottom, horizontal⟩
  | [top, right, bottom, left] => some ⟨top, right, bottom, left⟩
  | _ => none

def toList {α : Type} (b : BoxSides α) : List α := [b.top, b.right, b.bottom, b.left]

end BoxSides

/-! Colours of four channels: hexadecimal digits, names, and the functions `rgb` and `rgba`. -/

structure Color where
  red : UInt8
  green : UInt8
  blue : UInt8
  alpha : UInt8
  deriving DecidableEq, Inhabited

namespace Color

def solid (red green blue : UInt8) : Color := ⟨red, green, blue, 255⟩

def white : Color := solid 255 255 255

def table : List (String × Color) :=
  [("transparent", ⟨0, 0, 0, 0⟩),
   ("black", solid 0 0 0),
   ("white", white),
   ("red", solid 255 0 0),
   ("green", solid 0 128 0),
   ("blue", solid 0 0 255),
   ("yellow", solid 255 255 0),
   ("orange", solid 255 165 0),
   ("gray", solid 128 128 128),
   ("grey", solid 128 128 128),
   ("silver", solid 192 192 192),
   ("maroon", solid 128 0 0),
   ("purple", solid 128 0 128),
   ("fuchsia", solid 255 0 255),
   ("lime", solid 0 255 0),
   ("olive", solid 128 128 0),
   ("navy", solid 0 0 128),
   ("teal", solid 0 128 128),
   ("aqua", solid 0 255 255)]

def named? (name : String) : Option Color :=
  (table.find? fun entry => Text.sameIgnoringCase entry.1 name).map Prod.snd

/-- The colour of 3, 4, 6 or 8 hexadecimal digits: one or two for each channel, the opacity last
and full if it is not given. A single digit counts twice. -/
def ofHex? (digits : String) : Option Color :=
  match digits.toList.mapM Text.hexValue? with
  | some [r, g, b] => some (solid (twice r) (twice g) (twice b))
  | some [r, g, b, a] => some ⟨twice r, twice g, twice b, twice a⟩
  | some [r, r', g, g', b, b'] => some (solid (pair r r') (pair g g') (pair b b'))
  | some [r, r', g, g', b, b', a, a'] => some ⟨pair r r', pair g g', pair b b', pair a a'⟩
  | _ => none
where
  pair (high low : Nat) : UInt8 := UInt8.ofNat (16 * high + low)
  twice (digit : Nat) : UInt8 := pair digit digit

/-- The channels that the arguments of a function give: numbers, with commas where they please. -/
def channels? (arguments : List ComponentValue) : Option (List UInt8) :=
  (arguments.filter fun | .comma => false | _ => true).mapM fun
    | .number n => some n.toByte
    | _ => none

def ofValue? : ComponentValue → Option Color
  | .color digits => ofHex? digits
  | .ident name => named? name
  | .function name arguments =>
    match name, channels? arguments with
    | "rgb", some [r, g, b] => some (solid r g b)
    | "rgba", some [r, g, b, a] => some ⟨r, g, b, a⟩
    | _, _ => none
  | _ => none

def ofText? (text : String) : Option Color :=
  match ComponentValue.ofText text with
  | .ok [value] => ofValue? value
  | _ => none

def channelText (channel : UInt8) : List Char :=
  [Nat.digitChar (channel.toNat / 16), Nat.digitChar (channel.toNat % 16)]

/-- `#rrggbb`, with two digits more unless the colour is opaque. -/
def text (c : Color) : String :=
  String.ofList ('#' :: channelText c.red ++ channelText c.green ++ channelText c.blue ++
    if c.alpha = 255 then [] else channelText c.alpha)

end Color

/-! The typed value that a declaration gives to each property it sets.
A single value is typed by the kind of its property. Text is kept as written, and so is a list,
which cannot be built before its style sheet is complete. Shorthands spread their values over the
properties they stand for. -/

/-- A value that means the same in every style sheet. -/
inductive PlainValue where
  | keyword (word : String)
  | number (n : Binary32)
  | scalar (s : Scalar)
  | color (c : Color)
  | text (t : String)
  deriving DecidableEq, Inhabited

def PlainValue.written : PlainValue → String
  | .keyword word => word
  | .number n => n.text
  | .scalar s => s.text
  | .color c => c.text
  | .text t => "\"" ++ t ++ "\""

/-- The value of a declaration: plain, or the text of a list. -/
inductive DeclaredValue where
  | plain (value : PlainValue)
  | list (kind : ListKind) (raw : String)
  deriving DecidableEq, Inhabited

def DeclaredValue.written : DeclaredValue → String
  | .plain value => value.written
  | .list _ raw => raw

def DeclaredValue.isList : DeclaredValue → Bool
  | .plain _ => false
  | .list _ _ => true

inductive ValueFault where
  | count (allowed : String) (given : Nat)
  | missing
  | keyword (allowed : List String) (given : String)
  | notIdentifier (given : ComponentValue)
  | notLength (given : ComponentValue)
  | notNumber (given : ComponentValue)
  | notColor (given : ComponentValue)
  | leftover (given : ComponentValue)
  deriving Inhabited

def ValueFault.message : ValueFault → String
  | .count allowed given => "expected " ++ allowed ++ ", got " ++ toString given
  | .missing => "missing value"
  | .keyword allowed given => "expected " ++ "|".intercalate allowed ++ ", got: " ++ given
  | .notIdentifier given => "expected identifier, got: " ++ given.inspect
  | .notLength given => "expected length, got: " ++ given.inspect
  | .notNumber given => "expected number, got: " ++ given.inspect
  | .notColor given => "expected color, got: " ++ given.inspect
  | .leftover given => "unexpected value: " ++ given.inspect

inductive PropertyError where
  | unknownProperty (name : String)
  | invalidValue (property : String) (fault : ValueFault)
  deriving Inhabited

def PropertyError.message : PropertyError → String
  | .unknownProperty name => "unknown property: " ++ name
  | .invalidValue property fault => "invalid value for " ++ property ++ ": " ++ fault.message

/-- The values that a declaration gives to properties, in the order it sets them. -/
abbrev Settings := List (Longhand × DeclaredValue)

def ComponentValue.isAuto : ComponentValue → Bool
  | .ident name => Text.sameIgnoringCase name "auto"
  | _ => false

def SingleKind.typed (kind : SingleKind) (value : ComponentValue) :
    Except ValueFault PlainValue :=
  match kind with
  | .keyword allowed =>
    match value with
    | .ident name =>
      match allowed.find? fun word => Text.sameIgnoringCase word name with
      | some word => .ok (.keyword word)
      | none => .error (.keyword allowed name)
    | _ => .error (.notIdentifier value)
  | .length auto =>
    if auto && value.isAuto then .ok (.keyword "auto")
    else match Scalar.ofValue? value with
      | some s => .ok (.scalar s)
      | none => .error (.notLength value)
  | .number auto =>
    if auto && value.isAuto then .ok (.keyword "auto")
    else match value with
      | .number n => .ok (.number n)
      | _ => .error (.notNumber value)
  | .color =>
    match Color.ofValue? value with
    | some c => .ok (.color c)
    | none => .error (.notColor value)

def Declaration.requireText (d : Declaration) : Except ValueFault String :=
  let raw := Text.trimmed d.raw
  if raw.isEmpty then .error .missing else .ok raw

def Longhand.typed (p : Longhand) (d : Declaration) : Except ValueFault DeclaredValue :=
  match p.kind with
  | .single kind =>
    match d.values with
    | [value] => (kind.typed value).map .plain
    | values => .error (.count "1 value" values.length)
  | .text =>
    match d.values with
    | [.string text] => .ok (.plain (.text text))
    | _ => d.requireText.map fun raw => .plain (.text raw)
  | .list kind => d.requireText.map (.list kind)

/-- A property given a single value on behalf of a shorthand. Errors name the property. -/
def Longhand.given (p : Longhand) (kind : SingleKind) (value : ComponentValue) :
    Except PropertyError (Longhand × DeclaredValue) :=
  match kind.typed value with
  | .ok v => .ok (p, .plain v)
  | .error fault => .error (.invalidValue p.name fault)

structure BoxShorthand where
  name : String
  kind : SingleKind
  sides : List Longhand

namespace BoxShorthand

def margin : BoxShorthand :=
  ⟨"margin", .length true, [.marginTop, .marginRight, .marginBottom, .marginLeft]⟩

def padding : BoxShorthand :=
  ⟨"padding", .length false, [.paddingTop, .paddingRight, .paddingBottom, .paddingLeft]⟩

def borderWidth : BoxShorthand :=
  ⟨"border-width", .length false,
   [.borderTopWidth, .borderRightWidth, .borderBottomWidth, .borderLeftWidth]⟩

def borderColor : BoxShorthand :=
  ⟨"border-color", .color,
   [.borderTopColor, .borderRightColor, .borderBottomColor, .borderLeftColor]⟩

def expand (s : BoxShorthand) (values : List ComponentValue) : Except PropertyError Settings :=
  match BoxSides.ofShorthand? values with
  | none => .error (.invalidValue s.name (.count "1-4 values" values.length))
  | some box => (s.sides.zip box.toList).mapM fun (p, value) => p.given s.kind value

end BoxShorthand

def Settings.ofOverflow (values : List ComponentValue) : Except PropertyError Settings :=
  let kind := .keyword Longhand.overflowKeywords
  match values with
  | [both] => [Longhand.overflowX, .overflowY].mapM fun p => p.given kind both
  | [x, y] => [(Longhand.overflowX, x), (.overflowY, y)].mapM fun (p, value) => p.given kind value
  | _ => .error (.invalidValue "overflow" (.count "1-2 values" values.length))

/-- The width and the colour among the values of `border`, each at most once and in any order. -/
def Settings.borderParts (width : Option Scalar) (color : Option Color) :
    List ComponentValue → Except PropertyError (Option Scalar × Option Color)
  | [] => .ok (width, color)
  | value :: rest =>
    match width, color, Scalar.ofValue? value, Color.ofValue? value with
    | none, _, some s, _ => borderParts (some s) color rest
    | _, none, _, some c => borderParts width (some c) rest
    | _, _, _, _ => .error (.invalidValue "border" (.leftover value))

def Settings.ofBorder (values : List ComponentValue) : Except PropertyError Settings :=
  if values.isEmpty || 2 < values.length then
    .error (.invalidValue "border" (.count "1-2 values" values.length))
  else match borderParts none none values with
    | .error e => .error e
    | .ok (width, color) =>
      let widths : Settings := match width with
        | some s => BoxShorthand.borderWidth.sides.map fun p => (p, .plain (.scalar s))
        | none => []
      let colors : Settings := match color with
        | some c => BoxShorthand.borderColor.sides.map fun p => (p, .plain (.color c))
        | none => []
      .ok (widths ++ colors)

/-- What a declaration sets. Names are taken in any case. -/
def Declaration.settings (d : Declaration) : Except PropertyError Settings :=
  match Text.lowered d.property with
  | "margin" => BoxShorthand.margin.expand d.values
  | "padding" => BoxShorthand.padding.expand d.values
  | "border-width" => BoxShorthand.borderWidth.expand d.values
  | "border-color" => BoxShorthand.borderColor.expand d.values
  | "border" => Settings.ofBorder d.values
  | "overflow" => Settings.ofOverflow d.values
  | name =>
    match Longhand.ofName? name with
    | none => .error (.unknownProperty d.property)
    | some p =>
      match p.typed d with
      | .ok value => .ok [(p, value)]
      | .error fault => .error (.invalidValue p.name fault)

end Cascade
