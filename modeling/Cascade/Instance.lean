import Cascade.Animation
import Cascade.Sprite
/-!
Decorators and font effects: the items that call for them, the types that build them, and the
instances that are shared between all uses.
-/
namespace Cascade

inductive InstanceKind where
  | decorator
  | fontEffect
  deriving DecidableEq, Inhabited

def InstanceKind.phrase : InstanceKind → String
  | .decorator => "decorator"
  | .fontEffect => "font effect"

inductive InstanceError where
  | unknownType (kind : InstanceKind) (name : String)
  | unknownName (name : String)
  | malformed (item : String)
  | tooManyArguments (type : String) (expected given : Nat)
  | missingProperty (type property : String)
  | invalidProperty (type property value : String)
  deriving DecidableEq, Inhabited

def InstanceError.message : InstanceError → String
  | .unknownType kind name => "unknown " ++ kind.phrase ++ " type '" ++ name ++ "'"
  | .unknownName name => "unknown decorator '" ++ name ++ "'"
  | .malformed item => "malformed list item '" ++ item ++ "'"
  | .tooManyArguments type expected given =>
    "too many arguments for '" ++ type ++ "': expected at most " ++ toString expected ++ ", got " ++
      toString given
  | .missingProperty type property => "'" ++ type ++ "' requires property '" ++ property ++ "'"
  | .invalidProperty type property value =>
    "invalid value '" ++ value ++ "' for '" ++ type ++ "' property '" ++ property ++ "'"

/-! Items of list values: a name, or a type with arguments in parentheses. -/

inductive ListItem where
  | name (name : String)
  | call (type : String) (arguments : List String)
  deriving DecidableEq, Inhabited

/-- Classifies an item. A call reaches from the first parenthesis to the end of the item. -/
def ListItem.ofText (text : String) : Except InstanceError ListItem :=
  let item := Text.trim text.toList
  match item.dropWhile (· != '(') with
  | [] =>
    if item.any Text.isBlank then .error (.malformed (String.ofList item))
    else .ok (.name (String.ofList item))
  | _ :: inner =>
    let type := Text.trim (item.takeWhile (· != '('))
    if inner.getLast? ≠ some ')' ∨ type.isEmpty then .error (.malformed (String.ofList item))
    else .ok (.call (String.ofList type) (Text.splitArguments (String.ofList inner.dropLast)))

/-- Arguments bound to the names of a type's parameters, in order. Arguments may be missing. -/
def bindArguments (type : String) (parameters arguments : List String) :
    Except InstanceError (Table String String) :=
  if parameters.length < arguments.length then
    .error (.tooManyArguments type parameters.length arguments.length)
  else .ok (.ofList (parameters.zip arguments))

/-! What a decorator or a font effect is built from: properties as texts, and readings of them.
A reading gives the property's meaning, a default if the property is absent, and an error if the
text has no such meaning. -/

inductive ImageSource where
  | sprite (sprite : Sprite)
  | file (path : String)
  deriving DecidableEq, Inhabited

structure InstanceArguments where
  type : String
  properties : Table String String
  sprites : SpriteTable
  deriving Inhabited

namespace InstanceArguments

def get? (a : InstanceArguments) (name : String) : Option String :=
  (a.properties.get? name).map Text.trimmed

def require (a : InstanceArguments) (name : String) : Except InstanceError String :=
  match a.get? name with
  | some value => .ok value
  | none => .error (.missingProperty a.type name)

def invalid (a : InstanceArguments) (name value : String) : InstanceError :=
  .invalidProperty a.type name value

def imageOf (a : InstanceArguments) (value : String) : ImageSource :=
  let name := Text.withoutQuotes value
  match a.sprites.get? name with
  | some sprite => .sprite sprite
  | none => .file name

def image? (a : InstanceArguments) (name : String) : Option ImageSource :=
  (a.get? name).map a.imageOf

def requireImage (a : InstanceArguments) (name : String) : Except InstanceError ImageSource :=
  (a.require name).map a.imageOf

def color (a : InstanceArguments) (name : String) (default : Color) : Except InstanceError Color :=
  match a.get? name with
  | none => .ok default
  | some value =>
    match Color.ofText? value with
    | some c => .ok c
    | none => .error (a.invalid name value)

def lengthOf? (text : String) : Option Binary32 :=
  match ComponentValue.ofText text with
  | .ok [value] =>
    match Scalar.ofValue? value with
    | some ⟨n, .px⟩ | some ⟨n, .dp⟩ | some ⟨n, .number⟩ => some n
    | _ => none
  | _ => none

def length (a : InstanceArguments) (name : String) (default : Binary32) :
    Except InstanceError Binary32 :=
  match a.get? name with
  | none => .ok default
  | some value =>
    match lengthOf? value with
    | some n => .ok n
    | none => .error (a.invalid name value)

def keyword (a : InstanceArguments) (name : String) (allowed : List String) :
    Except InstanceError (Option String) :=
  match a.get? name with
  | none => .ok none
  | some value =>
    match allowed.find? fun word => Text.sameIgnoringCase word value with
    | some word => .ok (some word)
    | none => .error (a.invalid name value)

end InstanceArguments

/-! The types of decorators and font effects, and the building of instances.
A host may register types of its own beside the ones defined here; what such a type builds is a
text that only the host can read. -/

inductive GradientDirection where
  | horizontal
  | vertical
  deriving DecidableEq, Inhabited

/-- The tiles of a box, from the top left corner row by row. -/
structure BoxTiles where
  topLeft : Option ImageSource
  top : Option ImageSource
  topRight : Option ImageSource
  left : Option ImageSource
  center : Option ImageSource
  right : Option ImageSource
  bottomLeft : Option ImageSource
  bottom : Option ImageSource
  bottomRight : Option ImageSource
  deriving DecidableEq, Inhabited

def BoxTiles.toList (t : BoxTiles) : List (Option ImageSource) :=
  [t.topLeft, t.top, t.topRight, t.left, t.center, t.right, t.bottomLeft, t.bottom, t.bottomRight]

inductive DecoratorKind where
  | image (source : ImageSource)
  | tiledHorizontal (left : Option ImageSource) (center : ImageSource) (right : Option ImageSource)
  | tiledVertical (top : Option ImageSource) (center : ImageSource) (bottom : Option ImageSource)
  | tiledBox (tiles : BoxTiles)
  | gradient (direction : GradientDirection) (start stop : Color)
  | custom (payload : String)
  deriving DecidableEq, Inhabited

structure Decorator where
  type : String
  kind : DecoratorKind
  deriving DecidableEq, Inhabited

/-- What a font effect renders; lengths are in pixels. -/
inductive FontEffectKind where
  | shadow (offsetX offsetY : Binary32) (color : Color)
  | outline (width : Binary32) (color : Color)
  | glow (outline blur offsetX offsetY : Binary32) (color : Color)
  | blur (width : Binary32) (color : Color)
  | custom (payload : String)
  deriving DecidableEq, Inhabited

structure FontEffect where
  type : String
  kind : FontEffectKind
  deriving DecidableEq, Inhabited

/-- A registered type: the names of its parameters, in the order of arguments, and its builder. -/
structure InstanceType (K : Type) where
  parameters : List String
  build : InstanceArguments → Except InstanceError K

structure Registry where
  decorators : Table String (InstanceType DecoratorKind)
  fontEffects : Table String (InstanceType FontEffectKind)

namespace Registry

def empty : Registry := ⟨.empty, .empty⟩

/-- The registry with a decorator type more; it replaces one of the same name. -/
def addDecorator (r : Registry) (name : String) (type : InstanceType DecoratorKind) : Registry :=
  { r with decorators := r.decorators.insert name type }

def addFontEffect (r : Registry) (name : String) (type : InstanceType FontEffectKind) : Registry :=
  { r with fontEffects := r.fontEffects.insert name type }

def imageType : InstanceType DecoratorKind :=
  ⟨["image"], fun a => (a.requireImage "image").map .image⟩

def tiledHorizontalType : InstanceType DecoratorKind :=
  ⟨["left-image", "center-image", "right-image"], fun a =>
    (a.requireImage "center-image").map fun center =>
      .tiledHorizontal (a.image? "left-image") center (a.image? "right-image")⟩

def tiledVerticalType : InstanceType DecoratorKind :=
  ⟨["top-image", "center-image", "bottom-image"], fun a =>
    (a.requireImage "center-image").map fun center =>
      .tiledVertical (a.image? "top-image") center (a.image? "bottom-image")⟩

def tiledBoxType : InstanceType DecoratorKind :=
  ⟨["top-left-image", "top-image", "top-right-image", "left-image", "center-image", "right-image",
    "bottom-left-image", "bottom-image", "bottom-right-image"], fun a =>
    let tiles : BoxTiles :=
      ⟨a.image? "top-left-image", a.image? "top-image", a.image? "top-right-image",
       a.image? "left-image", a.image? "center-image", a.image? "right-image",
       a.image? "bottom-left-image", a.image? "bottom-image", a.image? "bottom-right-image"⟩
    if tiles.toList.all Option.isNone then .error (.missingProperty a.type "center-image")
    else .ok (.tiledBox tiles)⟩

def gradientType : InstanceType DecoratorKind :=
  ⟨["direction", "start-color", "stop-color"], fun a => do
    let word ← a.keyword "direction" ["horizontal", "vertical"]
    let start ← a.color "start-color" .white
    let stop ← a.color "stop-color" .white
    return .gradient (if word = some "horizontal" then .horizontal else .vertical) start stop⟩

def shadowType : InstanceType FontEffectKind :=
  ⟨["offset-x", "offset-y", "color"], fun a => do
    let x ← a.length "offset-x" .zero
    let y ← a.length "offset-y" .zero
    return .shadow x y (← a.color "color" .white)⟩

def outlineType : InstanceType FontEffectKind :=
  ⟨["width", "color"], fun a => do
    let _ ← a.require "width"
    let width ← a.length "width" .zero
    return .outline width (← a.color "color" .white)⟩

def glowType : InstanceType FontEffectKind :=
  ⟨["width-outline", "width-blur", "offset-x", "offset-y", "color"], fun a => do
    let outline ← a.length "width-outline" .zero
    let blur ← a.length "width-blur" .zero
    let x ← a.length "offset-x" .zero
    let y ← a.length "offset-y" .zero
    return .glow outline blur x y (← a.color "color" .white)⟩

def blurType : InstanceType FontEffectKind :=
  ⟨["width", "color"], fun a => do
    let _ ← a.require "width"
    let width ← a.length "width" .zero
    return .blur width (← a.color "color" .white)⟩

def builtin : Registry where
  decorators := .ofList [("image", imageType), ("tiled-horizontal", tiledHorizontalType),
    ("tiled-vertical", tiledVerticalType), ("tiled-box", tiledBoxType), ("gradient", gradientType)]
  fontEffects := .ofList [("shadow", shadowType), ("outline", outlineType), ("glow", glowType),
    ("blur", blurType)]

def decorator (r : Registry) (type : String) (properties : Table String String)
    (sprites : SpriteTable) : Except InstanceError Decorator :=
  match r.decorators.get? type with
  | none => .error (.unknownType .decorator type)
  | some t => (t.build ⟨type, properties, sprites⟩).map fun kind => ⟨type, kind⟩

def fontEffect (r : Registry) (type : String) (properties : Table String String)
    (sprites : SpriteTable) : Except InstanceError FontEffect :=
  match r.fontEffects.get? type with
  | none => .error (.unknownType .fontEffect type)
  | some t => (t.build ⟨type, properties, sprites⟩).map fun kind => ⟨type, kind⟩

end Registry

structure DecoratorSpecification where
  name : String
  type : String
  properties : Table String String
  source : SourceLocation
  deriving DecidableEq, Inhabited

/-- Property names are taken in lower case, and of equal ones the last counts. -/
def DecoratorSpecification.ofRule (rule : DecoratorRule) (file : String) :
    DecoratorSpecification where
  name := rule.name
  type := rule.type
  properties := .ofList (rule.declarations.map fun d => (Text.lowered d.property, d.raw))
  source := ⟨file, rule.line⟩

/-! Shared instances.
An instance has an identity besides its value: all uses of one name, or of one call with equal
arguments, share one instance until the tables it was built from change. A store keeps the
instances built so far under what they were built for, and never issues an identity twice. -/

/-- The identity of an instance: who issued it, and the how manieth it was. -/
structure InstanceId where
  owner : Nat
  serial : Nat
  deriving DecidableEq, Inhabited

structure Shared (α : Type) where
  id : InstanceId
  value : α
  deriving DecidableEq, Inhabited

def Shared.sameAll {α : Type} (xs ys : List (Shared α)) : Bool :=
  xs.map Shared.id == ys.map Shared.id

/-- What an instance of a call is kept under: the type and its arguments by name. -/
abbrev CallKey := String × Table String String

structure InstanceStore where
  owner : Nat
  issued : Nat
  /-- By the name of a specification; `none` for one that could not be built. -/
  named : Table String (Option (Shared Decorator))
  decorators : Table CallKey (Shared Decorator)
  fontEffects : Table CallKey (Shared FontEffect)
  deriving Inhabited

namespace InstanceStore

def new (owner : Nat) : InstanceStore := ⟨owner, 0, .empty, .empty, .empty⟩

/-- The store without its instances; the identities it has issued stay issued. -/
def cleared (s : InstanceStore) : InstanceStore :=
  { s with named := .empty, decorators := .empty, fontEffects := .empty }

def share {α : Type} (s : InstanceStore) (value : α) : Shared α × InstanceStore :=
  (⟨⟨s.owner, s.issued⟩, value⟩, { s with issued := s.issued + 1 })

end InstanceStore

structure InstanceTables where
  registry : Registry
  specifications : Table String DecoratorSpecification
  sprites : SpriteTable

namespace InstanceTables

/-- The instance of a specification, built at the first request. One that cannot be built stays
unbuilt. -/
def named (t : InstanceTables) (specification : DecoratorSpecification) (key : String)
    (store : InstanceStore) : Option (Shared Decorator) × InstanceStore :=
  match store.named.get? key with
  | some known => (known, store)
  | none =>
    match t.registry.decorator specification.type specification.properties t.sprites with
    | .ok decorator =>
      let (shared, store) := store.share decorator
      (some shared, { store with named := store.named.insert key (some shared) })
    | .error _ => (none, { store with named := store.named.insert key none })

def calledDecorator (t : InstanceTables) (type : String) (arguments : List String)
    (store : InstanceStore) : Except InstanceError (Shared Decorator × InstanceStore) :=
  match t.registry.decorators.get? type with
  | none => .error (.unknownType .decorator type)
  | some registered =>
    match bindArguments type registered.parameters arguments with
    | .error e => .error e
    | .ok properties =>
      match store.decorators.get? (type, properties) with
      | some shared => .ok (shared, store)
      | none =>
        match t.registry.decorator type properties t.sprites with
        | .error e => .error e
        | .ok decorator =>
          let (shared, store) := store.share decorator
          .ok (shared,
            { store with decorators := store.decorators.insert (type, properties) shared })

def calledFontEffect (t : InstanceTables) (type : String) (arguments : List String)
    (store : InstanceStore) : Except InstanceError (Shared FontEffect × InstanceStore) :=
  match t.registry.fontEffects.get? type with
  | none => .error (.unknownType .fontEffect type)
  | some registered =>
    match bindArguments type registered.parameters arguments with
    | .error e => .error e
    | .ok properties =>
      match store.fontEffects.get? (type, properties) with
      | some shared => .ok (shared, store)
      | none =>
        match t.registry.fontEffect type properties t.sprites with
        | .error e => .error e
        | .ok effect =>
          let (shared, store) := store.share effect
          .ok (shared,
            { store with fontEffects := store.fontEffects.insert (type, properties) shared })

/-- The decorator of one list item. A named one that could not be built is none, without an
error. -/
def decoratorItem (t : InstanceTables) (item : String) (store : InstanceStore) :
    Except InstanceError (Option (Shared Decorator) × InstanceStore) :=
  match ListItem.ofText item with
  | .error e => .error e
  | .ok (.name name) =>
    match t.specifications.get? name with
    | none => .error (.unknownName name)
    | some specification => .ok (t.named specification name store)
  | .ok (.call type arguments) =>
    (t.calledDecorator type arguments store).map fun (shared, store) => (some shared, store)

/-- The font effect of one list item. A name is a call without arguments. -/
def fontEffectItem (t : InstanceTables) (item : String) (store : InstanceStore) :
    Except InstanceError (Shared FontEffect × InstanceStore) :=
  match ListItem.ofText item with
  | .error e => .error e
  | .ok (.name name) => t.calledFontEffect name [] store
  | .ok (.call type arguments) => t.calledFontEffect type arguments store

/-- The decorators of items in order; an item that fails is left out. -/
def decoratorItems (t : InstanceTables) (store : InstanceStore) :
    List String → List (Shared Decorator) × InstanceStore
  | [] => ([], store)
  | item :: rest =>
    match t.decoratorItem item store with
    | .error _ => t.decoratorItems store rest
    | .ok (built, store) =>
      let (more, store) := t.decoratorItems store rest
      (built.toList ++ more, store)

def fontEffectItems (t : InstanceTables) (store : InstanceStore) :
    List String → List (Shared FontEffect) × InstanceStore
  | [] => ([], store)
  | item :: rest =>
    match t.fontEffectItem item store with
    | .error _ => t.fontEffectItems store rest
    | .ok (built, store) =>
      let (more, store) := t.fontEffectItems store rest
      (built :: more, store)

end InstanceTables

def listItems (raw : String) : List String :=
  if Text.sameIgnoringCase (Text.trimmed raw) "none" then [] else Text.splitItems raw

namespace InstanceTables

def decorators (t : InstanceTables) (raw : String) (store : InstanceStore) :
    List (Shared Decorator) × InstanceStore := t.decoratorItems store (listItems raw)

def fontEffects (t : InstanceTables) (raw : String) (store : InstanceStore) :
    List (Shared FontEffect) × InstanceStore := t.fontEffectItems store (listItems raw)

end InstanceTables

def animationsOf (keyframes : Table String Keyframes) (raw : String) : List Animation :=
  (listItems raw).filterMap fun item => (Animation.ofText item keyframes).toOption

end Cascade
