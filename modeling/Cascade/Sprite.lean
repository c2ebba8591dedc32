import Cascade.Collections
import Cascade.Property.Declared
/-!
Sprites: named rectangles of images.

A sprite sheet rule names an image and cuts sprites out of it. A sprite that is defined again, in
the same rule or in a later one, replaces the one before.
-/
namespace Cascade

structure Rectangle where
  x : Binary32
  y : Binary32
  width : Binary32
  height : Binary32
  deriving DecidableEq, Inhabited

structure SpriteSheet where
  name : String
  image : String
  source : SourceLocation
  /-- How many display pixels a pixel of the image takes. -/
  scale : Binary32
  deriving DecidableEq, Inhabited

structure Sprite where
  rectangle : Rectangle
  sheet : SpriteSheet
  deriving DecidableEq, Inhabited

def Rectangle.ofValues? (values : List ComponentValue) : Option Rectangle :=
  match values.mapM pixels? with
  | some [x, y, width, height] => some ⟨x, y, width, height⟩
  | _ => none
where
  pixels? (value : ComponentValue) : Option Binary32 :=
    match Scalar.ofValue? value with
    | some ⟨n, .px⟩ | some ⟨n, .number⟩ => some n
    | _ => none

namespace SpriteSheetRule

def image? (rule : SpriteSheetRule) : Option String :=
  (rule.declarations.filterMap fun d =>
    if d.property = "src" then some (String.ofList (Text.unquoted (Text.trim d.raw.toList)))
    else none).getLast?

/-- A resolution above zero, plain or with the unit `x`. -/
def resolutionOf? (d : Declaration) : Option Binary32 :=
  if d.property = "resolution" then
    match d.values with
    | [.dimension n unit] => if unit = "x" ∧ n.isPositive then some n else none
    | [.number n] => if n.isPositive then some n else none
    | _ => none
  else none

/-- The resolution that the rule gives last, or 1. -/
def resolution (rule : SpriteSheetRule) : Binary32 :=
  ((rule.declarations.filterMap resolutionOf?).getLast?).getD .one

def rectangles (rule : SpriteSheetRule) : List (String × Rectangle) :=
  rule.declarations.filterMap fun d =>
    if d.property = "src" ∨ d.property = "resolution" then none
    else (Rectangle.ofValues? d.values).map fun r => (d.property, r)

end SpriteSheetRule

structure SpriteTable where
  sheets : List SpriteSheet
  sprites : Table String Sprite
  deriving DecidableEq, Inhabited

namespace SpriteTable

def empty : SpriteTable := ⟨[], .empty⟩

def add? (t : SpriteTable) (rule : SpriteSheetRule) (file : String) : Option SpriteTable :=
  rule.image?.map fun image =>
    let sheet : SpriteSheet := ⟨rule.name, image, ⟨file, rule.line⟩, .div .one rule.resolution⟩
    ⟨t.sheets ++ [sheet], rule.rectangles.foldl (fun sprites entry =>
      sprites.insert entry.1 ⟨entry.2, sheet⟩) t.sprites⟩

def add (t : SpriteTable) (rule : SpriteSheetRule) (file : String) : SpriteTable :=
  (t.add? rule file).getD t

def merge (t other : SpriteTable) : SpriteTable :=
  ⟨t.sheets ++ other.sheets, t.sprites.merge other.sprites⟩

def get? (t : SpriteTable) (name : String) : Option Sprite := t.sprites.get? name

def size (t : SpriteTable) : Nat := t.sprites.size

end SpriteTable
end Cascade
