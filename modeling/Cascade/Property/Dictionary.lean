import Cascade.Selector
import Cascade.Text
/-!
The properties a style can have, and dictionaries of their values.

Properties have names and take one sort of value each. Shorthands, which set several properties at
once, are not among them.
-/
namespace Cascade

/-- A list value that is built from its text once its style sheet is complete. -/
inductive ListKind where
  | decorators
  | fontEffects
  | animations
  deriving DecidableEq, Inhabited

inductive SingleKind where
  | keyword (allowed : List String)
  | length (auto : Bool)
  | number (auto : Bool)
  | color
  deriving DecidableEq, Inhabited

inductive ValueKind where
  | single (kind : SingleKind)
  | text
  | list (kind : ListKind)
  deriving DecidableEq, Inhabited

inductive Longhand where
  | display | visibility | position | float | overflowX | overflowY | zIndex | width | height
  | minWidth | maxWidth | minHeight | maxHeight | top | right | bottom | left | marginTop
  | marginRight | marginBottom | marginLeft | paddingTop | paddingRight | paddingBottom
  | paddingLeft | borderTopWidth | borderRightWidth | borderBottomWidth | borderLeftWidth
  | borderTopColor | borderRightColor | borderBottomColor | borderLeftColor | color
  | backgroundColor | imageColor | opacity | fontFamily | fontSize | fontWeight | fontStyle
  | lineHeight | textAlign | textDecoration | textTransform | whiteSpace | cursor | pointerEvents
  | decorator | fontEffect | animation
  deriving DecidableEq, Inhabited

namespace Longhand

def all : List Longhand :=
  [.display, .visibility, .position, .float, .overflowX, .overflowY, .zIndex, .width, .height,
   .minWidth, .maxWidth, .minHeight, .maxHeight, .top, .right, .bottom, .left, .marginTop,
   .marginRight, .marginBottom, .marginLeft, .paddingTop, .paddingRight, .paddingBottom,
   .paddingLeft, .borderTopWidth, .borderRightWidth, .borderBottomWidth, .borderLeftWidth,
   .borderTopColor, .borderRightColor, .borderBottomColor, .borderLeftColor, .color,
   .backgroundColor, .imageColor, .opacity, .fontFamily, .fontSize, .fontWeight, .fontStyle,
   .lineHeight, .textAlign, .textDecoration, .textTransform, .whiteSpace, .cursor, .pointerEvents,
   .decorator, .fontEffect, .animation]

def name : Longhand → String
  | .display => "display"
  | .visibility => "visibility"
  | .position => "position"
  | .float => "float"
  | .overflowX => "overflow-x"
  | .overflowY => "overflow-y"
  | .zIndex => "z-index"
  | .width => "width"
  | .height => "height"
  | .minWidth => "min-width"
  | .maxWidth => "max-width"
  | .minHeight => "min-height"
  | .maxHeight => "max-height"
  | .top => "top"
  | .right => "right"
  | .bottom => "bottom"
  | .left => "left"
  | .marginTop => "margin-top"
  | .marginRight => "margin-right"
  | .marginBottom => "margin-bottom"
  | .marginLeft => "margin-left"
  | .paddingTop => "padding-top"
  | .paddingRight => "padding-right"
  | .paddingBottom => "padding-bottom"
  | .paddingLeft => "padding-left"
  | .borderTopWidth => "border-top-width"
  | .borderRightWidth => "border-right-width"
  | .borderBottomWidth => "border-bottom-width"
  | .borderLeftWidth => "border-left-width"
  | .borderTopColor => "border-top-color"
  | .borderRightColor => "border-right-color"
  | .borderBottomColor => "border-bottom-color"
  | .borderLeftColor => "border-left-color"
  | .color => "color"
  | .backgroundColor => "background-color"
  | .imageColor => "image-color"
  | .opacity => "opacity"
  | .fontFamily => "font-family"
  | .fontSize => "font-size"
  | .fontWeight => "font-weight"
  | .fontStyle => "font-style"
  | .lineHeight => "line-height"
  | .textAlign => "text-align"
  | .textDecoration => "text-decoration"
  | .textTransform => "text-transform"
  | .whiteSpace => "white-space"
  | .cursor => "cursor"
  | .pointerEvents => "pointer-events"
  | .decorator => "decorator"
  | .fontEffect => "font-effect"
  | .animation => "animation"

def overflowKeywords : List String := ["visible", "hidden", "auto", "scroll"]

def kind : Longhand → ValueKind
  | .display => .single (.keyword ["none", "block", "inline", "inline-block", "flex", "table"])
  | .visibility => .single (.keyword ["visible", "hidden"])
  | .position => .single (.keyword ["static", "relative", "absolute", "fixed"])
  | .float => .single (.keyword ["none", "left", "right"])
  | .overflowX => .single (.keyword overflowKeywords)
  | .overflowY => .single (.keyword overflowKeywords)
  | .zIndex => .single (.number true)
  | .width => .single (.length true)
  | .height => .single (.length true)
  | .minWidth => .single (.length false)
  | .maxWidth => .single (.length false)
  | .minHeight => .single (.length false)
  | .maxHeight => .single (.length false)
  | .top => .single (.length true)
  | .right => .single (.length true)
  | .bottom => .single (.length true)
  | .left => .single (.length true)
  | .marginTop => .single (.length true)
  | .marginRight => .single (.length true)
  | .marginBottom => .single (.length true)
  | .marginLeft => .single (.length true)
  | .paddingTop => .single (.length false)
  | .paddingRight => .single (.length false)
  | .paddingBottom => .single (.length false)
  | .paddingLeft => .single (.length false)
  | .borderTopWidth => .single (.length false)
  | .borderRightWidth => .single (.length false)
  | .borderBottomWidth => .single (.length false)
  | .borderLeftWidth => .single (.length false)
  | .borderTopColor => .single .color
  | .borderRightColor => .single .color
  | .borderBottomColor => .single .color
  | .borderLeftColor => .single .color
  | .color => .single .color
  | .backgroundColor => .single .color
  | .imageColor => .single .color
  | .opacity => .single (.number false)
  | .fontFamily => .text
  | .fontSize => .single (.length false)
  | .fontWeight => .single (.keyword ["normal", "bold"])
  | .fontStyle => .single (.keyword ["normal", "italic"])
  | .lineHeight => .single (.length false)
  | .textAlign => .single (.keyword ["left", "right", "center", "justify"])
  | .textDecoration => .single (.keyword ["none", "underline", "overline", "line-through"])
  | .textTransform => .single (.keyword ["none", "capitalize", "uppercase", "lowercase"])
  | .whiteSpace => .single (.keyword ["normal", "pre", "nowrap", "pre-wrap", "pre-line"])
  | .cursor => .text
  | .pointerEvents => .single (.keyword ["auto", "none"])
  | .decorator => .list .decorators
  | .fontEffect => .list .fontEffects
  | .animation => .list .animations

def index (p : Longhand) : Nat := p.ctorIdx

def ofName? (name : String) : Option Longhand :=
  all.find? fun p => Text.sameIgnoringCase p.name name

end Longhand

/-! Dictionaries: for each property the declaration that won so far.
A property is offered to a dictionary, which keeps the one it has only if that one outranks the
offer; of two equal ranks the later offer stays. All operations are stated on the slot of a
property, so a dictionary is determined by `get?`. -/

structure SourceLocation where
  file : String
  line : Nat
  deriving DecidableEq, Inhabited

def SourceLocation.text (l : SourceLocation) : String := l.file ++ ":" ++ toString l.line

structure Property (V : Type) where
  value : V
  precedence : Precedence
  source : SourceLocation
  deriving DecidableEq, Inhabited

namespace Property

def withValue {V W : Type} (p : Property V) (value : W) : Property W :=
  ⟨value, p.precedence, p.source⟩

def shifted {V : Type} (offset : Nat) (p : Property V) : Property V :=
  { p with precedence := p.precedence.shifted offset }

/-- Whether an offer takes the place of what is there. -/
def accepts {V : Type} (held : Option (Property V)) (offer : Property V) : Bool :=
  match held with
  | none => true
  | some p => !p.precedence.outranks offer.precedence

def offered {V : Type} (held : Option (Property V)) (offer : Property V) : Option (Property V) :=
  if accepts held offer then some offer else held

end Property

theorem Longhand.index_lt (p : Longhand) : p.index < 51 := by
  cases p <;> decide

theorem Longhand.index_inj {p q : Longhand} : p.index = q.index ↔ p = q := by
  constructor
  · intro same
    rw [← ofNat_ctorIdx p, ← ofNat_ctorIdx q]
    exact congrArg ofNat same
  · exact congrArg index

structure Dictionary (V : Type) where
  slots : Vector (Option (Property V)) 51

namespace Dictionary
variable {V W : Type}

def empty : Dictionary V := ⟨Vector.replicate 51 none⟩

instance : Inhabited (Dictionary V) := ⟨empty⟩

def get? (d : Dictionary V) (p : Longhand) : Option (Property V) :=
  getElem d.slots p.index p.index_lt

def value? (d : Dictionary V) (p : Longhand) : Option V := (d.get? p).map Property.value

def toList (d : Dictionary V) : List (Longhand × Property V) :=
  Longhand.all.filterMap fun p => (d.get? p).map fun property => (p, property)

def keys (d : Dictionary V) : List Longhand := d.toList.map Prod.fst

def size (d : Dictionary V) : Nat := d.toList.length

def isEmpty (d : Dictionary V) : Bool := d.slots.toList.all Option.isNone

def accepts (d : Dictionary V) (p : Longhand) (property : Property V) : Bool :=
  Property.accepts (d.get? p) property

def set (d : Dictionary V) (p : Longhand) (property : Property V) : Dictionary V :=
  ⟨d.slots.set p.index (Property.offered (d.get? p) property) p.index_lt⟩

/-- The dictionary with a property put in the place of whatever is there. -/
def replace (d : Dictionary V) (p : Longhand) (property : Property V) : Dictionary V :=
  ⟨d.slots.set p.index (some property) p.index_lt⟩

def merge (d other : Dictionary V) : Dictionary V :=
  ⟨d.slots.zipWith (fun held offer => match offer with
    | none => held
    | some property => Property.offered held property) other.slots⟩

def shifted (offset : Nat) (d : Dictionary V) : Dictionary V :=
  ⟨d.slots.map (Option.map (Property.shifted offset))⟩

/-- The dictionary after an offer of everything another one holds, some layers further up. -/
def importFrom (d : Dictionary V) (offset : Nat) (other : Dictionary V) : Dictionary V :=
  d.merge (other.shifted offset)

def mapValues (f : V → W) (d : Dictionary V) : Dictionary W :=
  ⟨d.slots.map (Option.map fun property => property.withValue (f property.value))⟩

def agrees (same : V → V → Bool) (d other : Dictionary V) : Bool :=
  Longhand.all.all fun p =>
    match d.get? p, other.get? p with
    | none, none => true
    | some a, some b =>
      same a.value b.value && a.precedence == b.precedence && a.source == b.source
    | _, _ => false

@[simp] theorem get?_empty (p : Longhand) : (empty : Dictionary V).get? p = none := by
  simp [get?, empty]

theorem get?_set (d : Dictionary V) (p q : Longhand) (property : Property V) :
    (d.set p property).get? q =
      if p = q then Property.offered (d.get? p) property else d.get? q := by
  simp only [get?, set, Vector.getElem_set, Longhand.index_inj]

theorem get?_replace (d : Dictionary V) (p q : Longhand) (property : Property V) :
    (d.replace p property).get? q = if p = q then some property else d.get? q := by
  simp only [get?, replace, Vector.getElem_set, Longhand.index_inj]

@[simp] theorem get?_merge (d other : Dictionary V) (p : Longhand) :
    (d.merge other).get? p = match other.get? p with
      | none => d.get? p
      | some property => Property.offered (d.get? p) property := by
  simp only [get?, merge, Vector.getElem_zipWith]

@[simp] theorem get?_shifted (offset : Nat) (d : Dictionary V) (p : Longhand) :
    (d.shifted offset).get? p = (d.get? p).map (Property.shifted offset) := by
  simp only [get?, shifted, Vector.getElem_map]

@[simp] theorem get?_mapValues (f : V → W) (d : Dictionary V) (p : Longhand) :
    (d.mapValues f).get? p =
      (d.get? p).map fun property => property.withValue (f property.value) := by
  simp only [get?, mapValues, Vector.getElem_map]

end Dictionary
end Cascade
