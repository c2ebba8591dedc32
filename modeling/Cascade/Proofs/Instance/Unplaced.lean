import Cascade.Proofs.Collections
import Cascade.Proofs.Instance.Content
import Cascade.Proofs.Property.Ranking
import Cascade.Proofs.Source.Moving
/-!
Content without places.

Sprites, specifications and properties remember where they were written, and properties how they
ranked. Without that, what is built from a source does not depend on where the source stands in a
longer one.
-/
namespace Cascade

def SourceLocation.nowhere : SourceLocation := ⟨"", 0⟩

def Property.unplaced {V : Type} (p : Property V) : Property V :=
  ⟨p.value, .ofOrder 0, .nowhere⟩

def Dictionary.unplaced {V : Type} (d : Dictionary V) : Dictionary V :=
  ⟨d.slots.map (Option.map Property.unplaced)⟩

def Keyframes.unplaced (k : Keyframes) : Keyframes :=
  ⟨k.properties, k.blocks.map fun b => ⟨b.time, b.properties.unplaced⟩⟩

def Animation.unplaced (a : Animation) : Animation := { a with keyframes := a.keyframes.unplaced }

def SpriteSheet.unplaced (s : SpriteSheet) : SpriteSheet := { s with source := .nowhere }

def Sprite.unplaced (s : Sprite) : Sprite := { s with sheet := s.sheet.unplaced }

def ImageSource.unplaced : ImageSource → ImageSource
  | .sprite s => .sprite s.unplaced
  | .file path => .file path

def BoxTiles.unplaced (t : BoxTiles) : BoxTiles where
  topLeft := t.topLeft.map .unplaced
  top := t.top.map .unplaced
  topRight := t.topRight.map .unplaced
  left := t.left.map .unplaced
  center := t.center.map .unplaced
  right := t.right.map .unplaced
  bottomLeft := t.bottomLeft.map .unplaced
  bottom := t.bottom.map .unplaced
  bottomRight := t.bottomRight.map .unplaced

def DecoratorKind.unplaced : DecoratorKind → DecoratorKind
  | .image source => .image source.unplaced
  | .tiledHorizontal left center right =>
    .tiledHorizontal (left.map .unplaced) center.unplaced (right.map .unplaced)
  | .tiledVertical top center bottom =>
    .tiledVertical (top.map .unplaced) center.unplaced (bottom.map .unplaced)
  | .tiledBox tiles => .tiledBox tiles.unplaced
  | .gradient direction start stop => .gradient direction start stop
  | .custom payload => .custom payload

def Decorator.unplaced (d : Decorator) : Decorator := ⟨d.type, d.kind.unplaced⟩

def DecoratorSpecification.unplaced (s : DecoratorSpecification) : DecoratorSpecification :=
  { s with source := .nowhere }

def ValueContent.unplaced : ValueContent → ValueContent
  | .plain value => .plain value
  | .decorators raw items => .decorators raw (items.map (List.map .unplaced))
  | .fontEffects raw items => .fontEffects raw items
  | .animations raw items => .animations raw (items.map (List.map .unplaced))

def SpriteTable.unplaced (t : SpriteTable) : SpriteTable :=
  ⟨t.sheets.map .unplaced, t.sprites.mapValues .unplaced⟩

/-- What the registered types build has the same content, and fails alike, with sprites that differ
in places only. -/
structure Registry.Blind (r : Registry) : Prop where
  decorators : ∀ name type, r.decorators.get? name = some type →
    ∀ called properties (sprites others : SpriteTable), sprites.unplaced = others.unplaced →
      (type.build ⟨called, properties, sprites⟩).toOption.map DecoratorKind.unplaced =
        (type.build ⟨called, properties, others⟩).toOption.map DecoratorKind.unplaced
  fontEffects : ∀ name type, r.fontEffects.get? name = some type →
    ∀ called properties (sprites others : SpriteTable), sprites.unplaced = others.unplaced →
      (type.build ⟨called, properties, sprites⟩).toOption =
        (type.build ⟨called, properties, others⟩).toOption

theorem Dictionary.get_unplaced {V : Type} (d : Dictionary V) (p : Longhand) :
    d.unplaced.get? p = (d.get? p).map Property.unplaced := by
  simp only [get?, unplaced, Vector.getElem_map]

theorem Dictionary.unplaced_mapValues {V W : Type} (f : V → W) (d : Dictionary V) :
    (d.mapValues f).unplaced = d.unplaced.mapValues f := by
  apply ext_get
  intro p
  rw [get_unplaced, get?_mapValues, get?_mapValues, get_unplaced]
  cases d.get? p <;> rfl

theorem Dictionary.Echoes.unplaced {V : Type} {R : Precedence → Precedence → Prop}
    {d e : Dictionary V} (echoes : d.Echoes R e) : d.unplaced = e.unplaced := by
  apply ext_get
  intro p
  have here := echoes p
  rw [get_unplaced, get_unplaced]
  generalize d.get? p = held, e.get? p = other at here ⊢
  cases here with
  | none => rfl
  | some same => simp [Property.unplaced, same.value]

namespace Keyframes

structure BlockEchoes (a b : KeyframeBlock) : Prop where
  time : a.time = b.time
  properties : a.properties.Echoes Eq b.properties

theorem put_echoes {block other : KeyframeBlock} (new : BlockEchoes block other)
    {blocks others : List KeyframeBlock} (echoes : List.Forall₂ BlockEchoes blocks others) :
    List.Forall₂ BlockEchoes (put block blocks) (put other others) := by
  induction echoes with
  | nil => exact .cons new .nil
  | @cons a b rest more same others ih =>
      rw [put, put, same.time, new.time]
      split
      case isTrue => exact .cons same ih
      case isFalse =>
        split
        case isTrue =>
          have merged := same.properties.merge Precedence.faithful_eq new.properties
          exact .cons ⟨rfl, merged⟩ others
        case isFalse => exact .cons new (.cons same others)

theorem cascade_moved (file other : String) (lines : Nat) (declarations : List Declaration)
    (order : Nat) : (cascade file declarations order).Echoes Eq
      (cascade other (declarations.map (.moved lines)) order) := by
  rw [cascade, cascade, List.zipIdx_map, List.foldl_map]
  refine List.foldl_rel Dictionary.echoes_empty fun (d, place) _ held others same => ?_
  have settings : (d.moved lines).settings = d.settings := rfl
  simp only [Prod.map_apply, id_eq, settings]
  cases d.settings with
  | error e => exact same
  | ok settings =>
      have offer (value : DeclaredValue) : Property.Echoes Eq
          (⟨value, .ofOrder place, ⟨file, d.line⟩⟩ : Property DeclaredValue)
          ⟨value, .ofOrder place, ⟨other, d.line + lines⟩⟩ := ⟨rfl, rfl⟩
      exact List.foldl_rel same fun (p, value) _ _ _ known =>
        known.set Precedence.faithful_eq (offer value) p

structure Echoes (a b : Keyframes) : Prop where
  properties : a.properties = b.properties
  blocks : List.Forall₂ BlockEchoes a.blocks b.blocks

theorem Echoes.insert {k other : Keyframes} (echoes : k.Echoes other) {a b : KeyframeBlock}
    (new : BlockEchoes a b) : (k.insert a).Echoes (other.insert b) := by
  have sets (p : Longhand) : (a.properties.get? p).isSome = (b.properties.get? p).isSome := by
    have here := new.properties p
    generalize a.properties.get? p = held, b.properties.get? p = other at here ⊢
    cases here <;> rfl
  refine ⟨?_, put_echoes new echoes.blocks⟩
  simp only [Keyframes.insert, echoes.properties, sets]

theorem insertAll_moved (file other : String) (lines : Nat) (rules : List KeyframeRule)
    (order : Nat) {k l : Keyframes} (echoes : k.Echoes l) :
    (insertAll file order k rules).Echoes
      (insertAll other order l (rules.map (.moved lines))) := by
  induction rules generalizing order k l with
  | nil => exact echoes
  | cons rule rest ih =>
      have same := cascade_moved file other lines rule.declarations order
      have block (time : Binary32) : BlockEchoes ⟨time, cascade file rule.declarations order⟩
          ⟨time, cascade other (rule.declarations.map (.moved lines)) order⟩ := ⟨rfl, same⟩
      have times : (rule.times.foldl (fun k time =>
            k.insert ⟨time, cascade file rule.declarations order⟩) k).Echoes
          (rule.times.foldl (fun k time =>
            k.insert ⟨time, cascade other (rule.declarations.map (.moved lines)) order⟩) l) :=
        List.foldl_rel echoes fun time _ _ _ known => known.insert (block time)
      have next := ih (order + rule.declarations.length) times
      simpa only [List.map_cons, insertAll, KeyframeRule.moved, List.length_map] using next

theorem Echoes.unplaced {k other : Keyframes} (echoes : k.Echoes other) :
    k.unplaced = other.unplaced := by
  obtain ⟨properties, blocks⟩ := echoes
  rw [Keyframes.unplaced, Keyframes.unplaced, properties, mk.injEq]
  refine ⟨rfl, ?_⟩
  generalize k.blocks = ours, other.blocks = theirs at blocks ⊢
  induction blocks with
  | nil => rfl
  | cons same _ ih => rw [List.map_cons, List.map_cons, same.time, same.properties.unplaced, ih]

theorem ofRule_moved (rule : KeyframesRule) (file other : String) (lines : Nat) :
    (ofRule rule file).unplaced = (ofRule (rule.moved lines) other).unplaced :=
  (insertAll_moved file other lines rule.blocks 0 ⟨rfl, .nil⟩).unplaced

end Keyframes

theorem Animation.ofText_unplaced {keyframes others : Table String Keyframes}
    (same : keyframes.mapValues Keyframes.unplaced = others.mapValues Keyframes.unplaced)
    (item : String) : (ofText item keyframes).toOption.map unplaced =
      (ofText item others).toOption.map unplaced := by
  simp only [ofText]
  split
  case h_1 => rfl
  case h_2 draft _ =>
    split
    case h_1 => rfl
    case h_2 => rfl
    case h_3 duration name _ _ =>
      have found := Table.get_related same name
      generalize keyframes.get? name = here, others.get? name = there at found ⊢
      cases found with
      | none => rfl
      | some equal => simp only [Except.toOption, Option.map_some, unplaced, equal]

theorem animationsOf_unplaced {keyframes others : Table String Keyframes}
    (same : keyframes.mapValues Keyframes.unplaced = others.mapValues Keyframes.unplaced)
    (raw : String) : (animationsOf keyframes raw).map Animation.unplaced =
      (animationsOf others raw).map Animation.unplaced := by
  simp only [animationsOf, List.map_filterMap, Animation.ofText_unplaced same]

theorem DecoratorSpecification.ofRule_moved (rule : DecoratorRule) (file other : String)
    (lines : Nat) :
    (ofRule rule file).unplaced = (ofRule (rule.moved lines) other).unplaced := by
  simp [ofRule, unplaced, DecoratorRule.moved, Declaration.moved, Function.comp_def]

namespace SpriteSheetRule

theorem image_moved (rule : SpriteSheetRule) (lines : Nat) :
    (rule.moved lines).image? = rule.image? := by
  simp only [image?, moved, List.filterMap_map]
  rfl

theorem resolution_moved (rule : SpriteSheetRule) (lines : Nat) :
    (rule.moved lines).resolution = rule.resolution := by
  simp only [resolution, moved, List.filterMap_map]
  rfl

theorem rectangles_moved (rule : SpriteSheetRule) (lines : Nat) :
    (rule.moved lines).rectangles = rule.rectangles := by
  simp only [rectangles, moved, List.filterMap_map]
  rfl

end SpriteSheetRule

namespace SpriteTable
variable {t u : SpriteTable}

theorem add_moved (same : t.unplaced = u.unplaced) (rule : SpriteSheetRule) (file other : String)
    (lines : Nat) : (t.add rule file).unplaced = (u.add (rule.moved lines) other).unplaced := by
  obtain ⟨sheets, sprites⟩ := mk.inj same
  rw [add, add, add?, add?, rule.image_moved, rule.resolution_moved, rule.rectangles_moved]
  cases rule.image? with
  | none => exact same
  | some image =>
      simp only [Option.map_some, Option.getD_some, unplaced, mk.injEq]
      constructor
      · rw [List.map_append, List.map_append, sheets]
        rfl
      · exact Table.foldl_insert_agree sprites _ _ fun _ => rfl

theorem get_related (same : t.unplaced = u.unplaced) (name : String) :
    Option.Rel (fun a b => a.unplaced = b.unplaced) (t.get? name) (u.get? name) :=
  Table.get_related (mk.inj same).2 name

end SpriteTable

namespace InstanceArguments
variable {type : String} {properties : Table String String} {sprites others : SpriteTable}

theorem imageOf_unplaced (same : sprites.unplaced = others.unplaced) (value : String) :
    (imageOf ⟨type, properties, sprites⟩ value).unplaced =
      (imageOf ⟨type, properties, others⟩ value).unplaced := by
  have found := SpriteTable.get_related same (Text.withoutQuotes value)
  simp only [imageOf]
  generalize sprites.get? _ = here, others.get? _ = there at found ⊢
  cases found with
  | none => rfl
  | some equal => simp only [ImageSource.unplaced, equal]

theorem image_unplaced (same : sprites.unplaced = others.unplaced) (name : String) :
    (image? ⟨type, properties, sprites⟩ name).map ImageSource.unplaced =
      (image? ⟨type, properties, others⟩ name).map ImageSource.unplaced := by
  rw [image?, image?, get?, get?]
  cases properties.get? name with
  | none => rfl
  | some value => exact congrArg some (imageOf_unplaced same (Text.trimmed value))

/-- What is made of a required image knows no place if the making asks for none. -/
theorem requireImage_unplaced (same : sprites.unplaced = others.unplaced) (name : String)
    {make remake : ImageSource → DecoratorKind}
    (made : ∀ a b, a.unplaced = b.unplaced → (make a).unplaced = (remake b).unplaced) :
    ((requireImage ⟨type, properties, sprites⟩ name).map make).toOption.map
        DecoratorKind.unplaced =
      ((requireImage ⟨type, properties, others⟩ name).map remake).toOption.map
        DecoratorKind.unplaced := by
  have required : require ⟨type, properties, others⟩ name =
      require ⟨type, properties, sprites⟩ name := rfl
  rw [requireImage, requireImage, required]
  cases require ⟨type, properties, sprites⟩ name with
  | error e => rfl
  | ok value =>
      have kinds := made _ _ (@imageOf_unplaced type properties sprites others same value)
      simp only [Except.map, Except.toOption, Option.map_some, kinds]

end InstanceArguments

theorem BoxTiles.bare_unplaced (t : BoxTiles) :
    t.unplaced.toList.all Option.isNone = t.toList.all Option.isNone := by
  simp [toList, unplaced]

namespace Registry

section Builtin
variable {type : String} {properties : Table String String} {sprites others : SpriteTable}

theorem tiledBox_unplaced (same : sprites.unplaced = others.unplaced) :
    (tiledBoxType.build ⟨type, properties, sprites⟩).toOption.map DecoratorKind.unplaced =
      (tiledBoxType.build ⟨type, properties, others⟩).toOption.map DecoratorKind.unplaced := by
  have image := @InstanceArguments.image_unplaced type properties sprites others same
  simp only [tiledBoxType]
  generalize here : BoxTiles.mk _ _ _ _ _ _ _ _ _ = tiles
  generalize there : BoxTiles.mk _ _ _ _ _ _ _ _ _ = rest
  have equal : tiles.unplaced = rest.unplaced := by
    simp only [← here, ← there, BoxTiles.unplaced, image]
  rw [← tiles.bare_unplaced, ← rest.bare_unplaced, equal]
  split
  case isTrue => rfl
  case isFalse =>
    simp only [Except.toOption, Option.map_some, DecoratorKind.unplaced, equal]

/-- The built-in types only hand on the sprites that they find. -/
theorem builtin_blind : builtin.Blind where
  decorators name type known called properties sprites others same := by
    have image := @InstanceArguments.image_unplaced called properties sprites others same
    have listed := Table.mem_ofList (Table.mem_of_get known)
    simp only [List.mem_cons, List.not_mem_nil, or_false, Prod.mk.injEq] at listed
    rcases listed with ⟨-, rfl⟩ | ⟨-, rfl⟩ | ⟨-, rfl⟩ | ⟨-, rfl⟩ | ⟨-, rfl⟩
    · exact InstanceArguments.requireImage_unplaced same _ fun a b equal => by
        simp only [DecoratorKind.unplaced, equal]
    · exact InstanceArguments.requireImage_unplaced same _ fun a b equal => by
        simp only [DecoratorKind.unplaced, equal, image]
    · exact InstanceArguments.requireImage_unplaced same _ fun a b equal => by
        simp only [DecoratorKind.unplaced, equal, image]
    · exact tiledBox_unplaced same
    · rfl
  fontEffects name type known called properties sprites others same := by
    have listed := Table.mem_ofList (Table.mem_of_get known)
    simp only [List.mem_cons, List.not_mem_nil, or_false, Prod.mk.injEq] at listed
    rcases listed with ⟨-, rfl⟩ | ⟨-, rfl⟩ | ⟨-, rfl⟩ | ⟨-, rfl⟩ <;> rfl

end Builtin

variable {r : Registry} {sprites others : SpriteTable}

theorem decorator_unplaced (blind : r.Blind) (type : String) (properties : Table String String)
    (same : sprites.unplaced = others.unplaced) :
    (r.decorator type properties sprites).toOption.map Decorator.unplaced =
      (r.decorator type properties others).toOption.map Decorator.unplaced := by
  rw [decorator, decorator]
  cases known : r.decorators.get? type with
  | none => rfl
  | some found =>
      have kinds := blind.decorators type found known type properties sprites others same
      have outside (built : Except InstanceError DecoratorKind) :
          (built.map fun kind => Decorator.mk type kind).toOption.map Decorator.unplaced =
            (built.toOption.map DecoratorKind.unplaced).map fun kind => ⟨type, kind⟩ := by
        cases built <;> rfl
      simp only [outside, kinds]

theorem fontEffect_unplaced (blind : r.Blind) (type : String) (properties : Table String String)
    (same : sprites.unplaced = others.unplaced) :
    (r.fontEffect type properties sprites).toOption =
      (r.fontEffect type properties others).toOption := by
  rw [fontEffect, fontEffect]
  cases known : r.fontEffects.get? type with
  | none => rfl
  | some found =>
      have kinds := blind.fontEffects type found known type properties sprites others same
      have outside (built : Except InstanceError FontEffectKind) :
          (built.map fun kind => FontEffect.mk type kind).toOption =
            built.toOption.map fun kind => ⟨type, kind⟩ := by
        cases built <;> rfl
      simp only [outside, kinds]

end Registry

namespace InstanceTables

/-- Tables that differ in places only. -/
structure Agrees (t u : InstanceTables) : Prop where
  registry : t.registry = u.registry
  specifications : t.specifications.mapValues DecoratorSpecification.unplaced =
    u.specifications.mapValues DecoratorSpecification.unplaced
  sprites : t.sprites.unplaced = u.sprites.unplaced

variable {t u : InstanceTables}

theorem Agrees.decorator (agrees : t.Agrees u) (blind : t.registry.Blind) (type : String)
    (properties : Table String String) :
    (t.registry.decorator type properties t.sprites).toOption.map Decorator.unplaced =
      (u.registry.decorator type properties u.sprites).toOption.map Decorator.unplaced := by
  rw [← agrees.registry]
  exact Registry.decorator_unplaced blind type properties agrees.sprites

theorem Agrees.namedValue (agrees : t.Agrees u) (blind : t.registry.Blind) (name : String) :
    (t.namedValue? name).map Decorator.unplaced = (u.namedValue? name).map Decorator.unplaced := by
  have found := Table.get_related agrees.specifications name
  rw [namedValue?, namedValue?]
  generalize t.specifications.get? name = here, u.specifications.get? name = there at found ⊢
  cases found with
  | none => rfl
  | @some known other same =>
      obtain ⟨-, type, properties, -⟩ := DecoratorSpecification.mk.inj same
      rw [Option.bind_some, Option.bind_some, type, properties]
      exact agrees.decorator blind other.type other.properties

theorem Agrees.calledDecoratorValue (agrees : t.Agrees u) (blind : t.registry.Blind)
    (type : String) (arguments : List String) :
    (t.calledDecoratorValue? type arguments).map Decorator.unplaced =
      (u.calledDecoratorValue? type arguments).map Decorator.unplaced := by
  rw [calledDecoratorValue?, calledDecoratorValue?, ← agrees.registry]
  split
  case h_1 => rfl
  case h_2 =>
    split
    case h_1 => rfl
    case h_2 properties _ =>
      exact Registry.decorator_unplaced blind type properties agrees.sprites

theorem Agrees.calledFontEffectValue (agrees : t.Agrees u) (blind : t.registry.Blind)
    (type : String) (arguments : List String) :
    t.calledFontEffectValue? type arguments = u.calledFontEffectValue? type arguments := by
  rw [calledFontEffectValue?, calledFontEffectValue?, ← agrees.registry]
  split
  case h_1 => rfl
  case h_2 =>
    split
    case h_1 => rfl
    case h_2 properties _ =>
      exact Registry.fontEffect_unplaced blind type properties agrees.sprites

theorem Agrees.decoratorValues (agrees : t.Agrees u) (blind : t.registry.Blind) (raw : String) :
    (t.decoratorValues raw).map Decorator.unplaced =
      (u.decoratorValues raw).map Decorator.unplaced := by
  have item (text : String) : (t.decoratorItemValue? text).map Decorator.unplaced =
      (u.decoratorItemValue? text).map Decorator.unplaced := by
    rw [decoratorItemValue?, decoratorItemValue?]
    split
    case h_1 => rfl
    case h_2 name _ => exact agrees.namedValue blind name
    case h_3 type arguments _ => exact agrees.calledDecoratorValue blind type arguments
  simp only [InstanceTables.decoratorValues, List.map_filterMap, item]

theorem Agrees.fontEffectValues (agrees : t.Agrees u) (blind : t.registry.Blind) (raw : String) :
    t.fontEffectValues raw = u.fontEffectValues raw := by
  have item (text : String) : t.fontEffectItemValue? text = u.fontEffectItemValue? text := by
    rw [fontEffectItemValue?, fontEffectItemValue?]
    split
    case h_1 => rfl
    case h_2 name _ => exact agrees.calledFontEffectValue blind name []
    case h_3 type arguments _ => exact agrees.calledFontEffectValue blind type arguments
  simp only [InstanceTables.fontEffectValues, funext item]

end InstanceTables

/-- What a declaration stands for depends on no place in the tables. -/
theorem DeclaredValue.resolved_unplaced {t u : InstanceTables}
    {keyframes others : Table String Keyframes} (agrees : t.Agrees u) (blind : t.registry.Blind)
    (same : keyframes.mapValues Keyframes.unplaced = others.mapValues Keyframes.unplaced)
    (v : DeclaredValue) : (v.resolved t keyframes).unplaced = (v.resolved u others).unplaced := by
  cases v with
  | plain value => rfl
  | list kind raw =>
      cases kind with
      | decorators =>
          have items := agrees.decoratorValues blind raw
          simp only [resolved, ValueContent.unplaced, Option.map_some, items]
      | fontEffects =>
          have items := agrees.fontEffectValues blind raw
          simp only [resolved, ValueContent.unplaced, items]
      | animations =>
          have items := animationsOf_unplaced same raw
          simp only [resolved, ValueContent.unplaced, Option.map_some, items]

end Cascade
