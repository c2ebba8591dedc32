import Cascade.Proofs.Collections
import Mathlib.Data.List.Forall2
/-!
Sprite tables over whole runs.

However rules are added and tables merged, the table depends on the rules in order alone. The rules
that name an image give its sheets, and a sprite is the last one that such a rule cuts out under its
name, from the sheet of that rule.
-/
namespace Cascade

/-- The last item that something holds of. -/
def Latest {α : Type} (holds : α → Prop) (items : List α) (a : α) : Prop :=
  ∃ earlier later, items = earlier ++ a :: later ∧ holds a ∧ ∀ b ∈ later, ¬ holds b

section Last
variable {α β : Type} {items : List α}

/-- The last result of a list is that of the last item that has one. -/
theorem getLast_filterMap_iff {f : α → Option β} {holds : α → Prop}
    (given : ∀ a, (f a).isSome = true ↔ holds a) {b : β} :
    (items.filterMap f).getLast? = some b ↔ ∃ a, Latest holds items a ∧ f a = some b := by
  have absent (a : α) : f a = none ↔ ¬ holds a := by rw [← given, Option.not_isSome_iff_eq_none]
  rw [List.getLast?_filterMap, List.findSome?_eq_some_iff]
  constructor
  · rintro ⟨later, a, earlier, same, found, none⟩
    refine ⟨a, ⟨earlier.reverse, later.reverse, ?_, (given a).mp (by simp [found]), ?_⟩, found⟩
    · rw [← items.reverse_reverse, same]
      simp
    · exact fun c member => (absent c).mp (none c (List.mem_reverse.mp member))
  · rintro ⟨a, ⟨earlier, later, rfl, -, none⟩, found⟩
    refine ⟨later.reverse, a, earlier.reverse, by simp, found, fun c member => ?_⟩
    exact (absent c).mpr (none c (List.mem_reverse.mp member))

theorem mapM_eq_some_iff {f : α → Option β} {results : List β} :
    items.mapM f = some results ↔ List.Forall₂ (fun a b => f a = some b) items results := by
  induction items generalizing results with
  | nil => simp [eq_comm]
  | cons a rest ih =>
      rw [List.mapM_cons, List.forall₂_cons_left_iff]
      simp only [Option.bind_eq_bind, Option.bind_eq_some_iff, ih, Option.pure_def,
        Option.some.injEq]
      constructor
      · rintro ⟨b, here, more, there, rfl⟩
        exact ⟨b, more, here, there, rfl⟩
      · rintro ⟨b, more, here, there, rfl⟩
        exact ⟨b, here, more, there, rfl⟩

end Last

inductive ComponentValue.Pixels : ComponentValue → Binary32 → Prop where
  | number (n : Binary32) : Pixels (.number n) n
  | dimension (n : Binary32) {unit : String} (px : Text.lowered unit = "px") :
      Pixels (.dimension n unit) n

theorem LengthUnit.ofSuffix_px {suffix : String} :
    ofSuffix? suffix = some .px ↔ Text.lowered suffix = "px" := by
  rw [ofSuffix?]
  split <;> simp_all

theorem LengthUnit.ofSuffix_ne_number (suffix : String) : ofSuffix? suffix ≠ some .number := by
  rw [ofSuffix?]
  split <;> simp

theorem ComponentValue.pixels_iff {v : ComponentValue} {n : Binary32} :
    Rectangle.ofValues?.pixels? v = some n ↔ v.Pixels n := by
  constructor
  · intro found
    cases v with
    | number m =>
        obtain rfl : m = n := Option.some.inj found
        exact .number m
    | dimension m unit =>
        cases known : LengthUnit.ofSuffix? unit with
        | none => simp [Rectangle.ofValues?.pixels?, Scalar.ofValue?, known] at found
        | some u =>
            cases u <;> simp [Rectangle.ofValues?.pixels?, Scalar.ofValue?, known] at found
            case number => exact absurd known (LengthUnit.ofSuffix_ne_number unit)
            case px => exact found ▸ .dimension m (LengthUnit.ofSuffix_px.mp known)
    | _ => cases found
  · rintro (_ | ⟨_, px⟩)
    · rfl
    · simp [Rectangle.ofValues?.pixels?, Scalar.ofValue?, LengthUnit.ofSuffix_px.mpr px]

theorem Rectangle.ofValues_iff {values : List ComponentValue} {r : Rectangle} :
    ofValues? values = some r ↔
      List.Forall₂ ComponentValue.Pixels values [r.x, r.y, r.width, r.height] := by
  constructor
  · intro found
    rw [ofValues?] at found
    split at found
    case h_1 x y width height mapped =>
      obtain rfl := Option.some.inj found
      exact (mapM_eq_some_iff.mp mapped).imp fun _ _ => ComponentValue.pixels_iff.mp
    case h_2 => cases found
  · intro pixels
    have mapped : values.mapM ofValues?.pixels? = some [r.x, r.y, r.width, r.height] :=
      mapM_eq_some_iff.mpr (pixels.imp fun _ _ => ComponentValue.pixels_iff.mpr)
    simp [ofValues?, mapped]

namespace Declaration
variable {d : Declaration}

structure Cuts (d : Declaration) (name : String) (r : Rectangle) : Prop where
  named : d.property = name
  image : name ≠ "src"
  resolution : name ≠ "resolution"
  pixels : List.Forall₂ ComponentValue.Pixels d.values [r.x, r.y, r.width, r.height]

inductive Resolves (d : Declaration) (n : Binary32) : Prop where
  | plain (named : d.property = "resolution") (number : d.values = [.number n])
      (positive : n.isPositive = true)
  | times (named : d.property = "resolution") (dimension : d.values = [.dimension n "x"])
      (positive : n.isPositive = true)

def cut? (d : Declaration) : Option (String × Rectangle) :=
  if d.property = "src" ∨ d.property = "resolution" then none
  else (Rectangle.ofValues? d.values).map fun r => (d.property, r)

theorem cut_iff {name : String} {r : Rectangle} : d.cut? = some (name, r) ↔ d.Cuts name r := by
  rw [cut?]
  constructor
  · intro found
    split at found
    case isTrue => cases found
    case isFalse other =>
      obtain ⟨r, rectangle, same⟩ := Option.map_eq_some_iff.mp found
      obtain ⟨rfl, rfl⟩ := Prod.mk.inj same
      rw [not_or] at other
      exact ⟨rfl, other.1, other.2, Rectangle.ofValues_iff.mp rectangle⟩
  · rintro ⟨rfl, image, resolution, pixels⟩
    rw [if_neg (not_or.mpr ⟨image, resolution⟩), Rectangle.ofValues_iff.mpr pixels, Option.map_some]

theorem resolves_iff {n : Binary32} : SpriteSheetRule.resolutionOf? d = some n ↔ d.Resolves n := by
  rw [SpriteSheetRule.resolutionOf?]
  constructor
  · intro found
    split at found
    case isTrue named =>
      split at found
      case h_1 m unit values =>
        split at found
        case isTrue times =>
          obtain rfl := Option.some.inj found
          exact .times named (times.1 ▸ values) times.2
        case isFalse => cases found
      case h_2 m values =>
        split at found
        case isTrue positive =>
          obtain rfl := Option.some.inj found
          exact .plain named values positive
        case isFalse => cases found
      case h_3 => cases found
    case isFalse => cases found
  · rintro (⟨named, values, positive⟩ | ⟨named, values, positive⟩) <;>
      simp [named, values, positive]

end Declaration

structure SpriteDeclaration where
  rule : SpriteSheetRule
  file : String
  declaration : Declaration

namespace SpriteSheetRule
variable {rule : SpriteSheetRule} {file : String} {sheet : SpriteSheet}

def namesImage (rule : SpriteSheetRule) : Bool :=
  rule.declarations.any fun d => d.property = "src"

/-- The sheet of a rule: the last image it names, and one over its last resolution. -/
structure Describes (rule : SpriteSheetRule) (file : String) (sheet : SpriteSheet) : Prop where
  name : sheet.name = rule.name
  source : sheet.source = ⟨file, rule.line⟩
  image : ∃ d, Latest (fun d => d.property = "src") rule.declarations d ∧
    sheet.image = String.ofList (Text.unquoted (Text.trim d.raw.toList))
  scale : (∃ d n, Latest (fun d => ∃ m, d.Resolves m) rule.declarations d ∧ d.Resolves n ∧
      sheet.scale = .div .one n) ∨
    (∀ d ∈ rule.declarations, ∀ n, ¬ d.Resolves n) ∧ sheet.scale = .one

theorem image_eq_some {image : String} : rule.image? = some image ↔
    ∃ d, Latest (fun d => d.property = "src") rule.declarations d ∧
      image = String.ofList (Text.unquoted (Text.trim d.raw.toList)) := by
  have given (d : Declaration) : (if d.property = "src" then
      some (String.ofList (Text.unquoted (Text.trim d.raw.toList))) else none).isSome = true ↔
      d.property = "src" := by
    simp
  rw [image?, getLast_filterMap_iff given]
  refine exists_congr fun d => and_congr_right ?_
  rintro ⟨earlier, later, same, named, none⟩
  rw [if_pos named, Option.some.injEq, eq_comm]

theorem image_eq_none : rule.image? = none ↔ rule.namesImage = false := by
  simp [image?, namesImage]

theorem one_div_one : Binary32.div .one .one = .one := by decide

theorem scale_iff {scale : Binary32} : scale = .div .one rule.resolution ↔
    (∃ d n, Latest (fun d => ∃ m, d.Resolves m) rule.declarations d ∧ d.Resolves n ∧
        scale = .div .one n) ∨
      (∀ d ∈ rule.declarations, ∀ n, ¬ d.Resolves n) ∧ scale = .one := by
  have given (d : Declaration) : (resolutionOf? d).isSome = true ↔ ∃ m, d.Resolves m := by
    simp [Option.isSome_iff_exists, Declaration.resolves_iff]
  have last (n : Binary32) : (rule.declarations.filterMap resolutionOf?).getLast? = some n ↔
      ∃ d, Latest (fun d => ∃ m, d.Resolves m) rule.declarations d ∧ resolutionOf? d = some n :=
    getLast_filterMap_iff given
  have nowhere : (rule.declarations.filterMap resolutionOf?).getLast? = none ↔
      ∀ d ∈ rule.declarations, ∀ n, ¬ d.Resolves n := by
    rw [List.getLast?_eq_none_iff, List.filterMap_eq_nil_iff]
    simp [Option.eq_none_iff_forall_ne_some, Declaration.resolves_iff]
  rw [resolution]
  cases found : (rule.declarations.filterMap resolutionOf?).getLast? with
  | none =>
      have none := nowhere.mp found
      rw [Option.getD_none, one_div_one]
      refine ⟨fun same => .inr ⟨none, same⟩, ?_⟩
      rintro (⟨d, n, ⟨earlier, later, same, -⟩, resolves, -⟩ | ⟨-, same⟩)
      · exact absurd resolves (none d (by simp [same]) n)
      · exact same
  | some n =>
      rw [Option.getD_some]
      constructor
      · rintro rfl
        obtain ⟨d, latest, resolves⟩ := (last n).mp found
        exact .inl ⟨d, n, latest, Declaration.resolves_iff.mp resolves, rfl⟩
      · rintro (⟨d, m, latest, resolves, rfl⟩ | ⟨none, -⟩)
        · have also := (last m).mpr ⟨d, latest, Declaration.resolves_iff.mpr resolves⟩
          rw [Option.some.inj (found.symm.trans also)]
        · rw [nowhere.mpr none] at found
          cases found

/-- What describes the sheet of a rule is the sheet that the rule has. -/
theorem describes_iff : rule.Describes file sheet ↔ rule.sheets file = [sheet] := by
  have listed : rule.sheets file = [sheet] ↔ ∃ image, rule.image? = some image ∧
      ⟨rule.name, image, ⟨file, rule.line⟩, .div .one rule.resolution⟩ = sheet := by
    cases named : rule.image? <;> simp [sheets, named]
  rw [listed]
  constructor
  · rintro ⟨name, source, image, scale⟩
    refine ⟨sheet.image, image_eq_some.mpr image, ?_⟩
    rw [← name, ← source, ← scale_iff.mpr scale]
  · rintro ⟨image, named, rfl⟩
    exact ⟨rfl, rfl, image_eq_some.mp named, scale_iff.mp rfl⟩

theorem sheets_eq_nil : rule.sheets file = [] ↔ rule.namesImage = false := by
  simp [sheets, ← image_eq_none]

theorem exists_sheet (names : rule.namesImage = true) (file : String) :
    ∃ sheet, rule.sheets file = [sheet] := by
  cases named : rule.image? with
  | none => simp [image_eq_none.mp named] at names
  | some image => exact ⟨_, by simp [sheets, named]; rfl⟩

/-- The rules that name an image have a sheet each, and the others have none. -/
theorem sheets_describe (entries : List (SpriteSheetRule × String)) :
    List.Forall₂ (fun entry sheet => entry.1.Describes entry.2 sheet)
      (entries.filter fun entry => entry.1.namesImage)
      (entries.flatMap fun entry => entry.1.sheets entry.2) := by
  induction entries with
  | nil => exact .nil
  | cons entry rest ih =>
      rw [List.flatMap_cons]
      cases names : entry.1.namesImage with
      | false =>
          rw [List.filter_cons_of_neg (by simp [names]), sheets_eq_nil.mpr names]
          exact ih
      | true =>
          obtain ⟨sheet, listed⟩ := exists_sheet names entry.2
          rw [List.filter_cons_of_pos (by simpa using names), listed]
          exact .cons (describes_iff.mpr listed) ih

theorem Describes.namesImage (describes : rule.Describes file sheet) : rule.namesImage = true := by
  have listed := describes_iff.mp describes
  cases names : rule.namesImage with
  | true => rfl
  | false =>
      rw [sheets_eq_nil.mpr names] at listed
      cases listed

def sprite? (item : SpriteDeclaration) : Option (String × Sprite) :=
  (item.rule.sheets item.file).head?.bind fun sheet =>
    item.declaration.cut?.map fun cut => (cut.1, ⟨cut.2, sheet⟩)

theorem sprites_eq (rule : SpriteSheetRule) (file : String) : rule.sprites file =
    (rule.declarations.map fun d => ⟨rule, file, d⟩).filterMap sprite? := by
  have cuts : rule.rectangles = rule.declarations.filterMap Declaration.cut? := rfl
  have each (d : Declaration) : sprite? ⟨rule, file, d⟩ =
      (rule.sheets file).head?.bind fun sheet =>
        d.cut?.map fun cut => (cut.1, ⟨cut.2, sheet⟩) := rfl
  rw [sprites, cuts, List.filterMap_map]
  cases named : rule.image? with
  | none => simp [sheets, named, each]
  | some image => simp [sheets, named, each, List.map_filterMap]

theorem sprite_iff {item : SpriteDeclaration} {name : String}
    {sprite : Sprite} : sprite? item = some (name, sprite) ↔
      item.rule.Describes item.file sprite.sheet ∧ item.declaration.Cuts name sprite.rectangle := by
  obtain ⟨rule, file, d⟩ := item
  rw [describes_iff, ← Declaration.cut_iff, sprite?]
  constructor
  · intro found
    obtain ⟨sheet, first, cut⟩ := Option.bind_eq_some_iff.mp found
    obtain ⟨entry, here, same⟩ := Option.map_eq_some_iff.mp cut
    obtain ⟨rfl, rfl⟩ := Prod.mk.inj same
    refine ⟨?_, here⟩
    cases named : rule.image? with
    | none => simp [sheets, named] at first
    | some image => simpa [sheets, named] using first
  · rintro ⟨sheet, cut⟩
    simp [sheet, cut]

end SpriteSheetRule

namespace SpriteTable

/-- How a table came about: rules were added one after the other, and tables were merged. -/
inductive Gathering where
  | nothing
  | add (before : Gathering) (rule : SpriteSheetRule) (file : String)
  | merge (before other : Gathering)

namespace Gathering

def table : Gathering → SpriteTable
  | nothing => .empty
  | add before rule file => before.table.add rule file
  | merge before other => before.table.merge other.table

def rules : Gathering → List (SpriteSheetRule × String)
  | nothing => []
  | add before rule file => before.rules ++ [(rule, file)]
  | merge before other => before.rules ++ other.rules

def declarations (g : Gathering) : List SpriteDeclaration :=
  g.rules.flatMap fun entry => entry.1.declarations.map fun d => ⟨entry.1, entry.2, d⟩

/-- A declaration of a sprite in a rule that names an image. -/
def Serves (name : String) (item : SpriteDeclaration) : Prop :=
  item.rule.namesImage = true ∧ ∃ r, item.declaration.Cuts name r

/-- Adding a rule to a table appends to its lists, and so does merging. -/
theorem table_eq (g : Gathering) : g.table =
    .ofLists (g.rules.flatMap fun entry => entry.1.sheets entry.2)
      (g.rules.flatMap fun entry => entry.1.sprites entry.2) := by
  induction g with
  | nothing => rfl
  | add before rule file ih => rw [table, ih, add_ofLists, rules]; simp
  | merge before other first second => rw [table, first, second, merge_ofLists, rules]; simp

theorem sprites_table (g : Gathering) :
    (g.rules.flatMap fun entry => entry.1.sprites entry.2) =
      g.declarations.filterMap SpriteSheetRule.sprite? := by
  rw [declarations, List.filterMap_flatMap]
  simp only [SpriteSheetRule.sprites_eq]

def served? (name : String) (item : SpriteDeclaration) : Option Sprite :=
  (SpriteSheetRule.sprite? item).bind fun entry => if entry.1 = name then some entry.2 else none

theorem served_iff {name : String} {item : SpriteDeclaration}
    {sprite : Sprite} : served? name item = some sprite ↔
      item.rule.Describes item.file sprite.sheet ∧ item.declaration.Cuts name sprite.rectangle := by
  simp [served?, ← SpriteSheetRule.sprite_iff, Option.bind_eq_some_iff]

theorem served_isSome (name : String) (item : SpriteDeclaration) :
    (served? name item).isSome = true ↔ Serves name item := by
  rw [Option.isSome_iff_exists, Serves]
  constructor
  · rintro ⟨sprite, served⟩
    obtain ⟨sheet, cuts⟩ := served_iff.mp served
    exact ⟨sheet.namesImage, _, cuts⟩
  · rintro ⟨names, r, cuts⟩
    obtain ⟨sheet, listed⟩ := SpriteSheetRule.exists_sheet names item.file
    exact ⟨⟨r, sheet⟩, served_iff.mpr ⟨SpriteSheetRule.describes_iff.mpr listed, cuts⟩⟩

theorem get_table (g : Gathering) (name : String) :
    g.table.get? name = (g.declarations.filterMap (served? name)).getLast? := by
  rw [SpriteTable.get?, table_eq, ofLists, Table.get_ofList, sprites_table,
    List.filterMap_filterMap]
  rfl

/-- The sheets of a table are those of the rules that name an image, in order. A sprite is the last
one of its name among the declarations of these rules, with the sheet of its rule. Tables that were
given the same rules are the same, and a rule that names no image is refused and changes nothing. -/
theorem table_gathers (g : Gathering) :
    List.Forall₂ (fun entry sheet => entry.1.Describes entry.2 sheet)
      (g.rules.filter fun entry => entry.1.namesImage) g.table.sheets ∧
    (∀ name sprite, g.table.get? name = some sprite ↔
      ∃ item, Latest (Serves name) g.declarations item ∧
        item.rule.Describes item.file sprite.sheet ∧ item.declaration.Cuts name sprite.rectangle) ∧
    (∀ other : Gathering, other.rules = g.rules → other.table = g.table) ∧
    ∀ rule file, (rule.namesImage = true →
        g.table.add? rule file = some (g.add rule file).table) ∧
      (rule.namesImage = false →
        g.table.add? rule file = none ∧ (g.add rule file).table = g.table) := by
  refine ⟨?_, fun name sprite => ?_, fun other same => ?_, fun rule file => ⟨?_, ?_⟩⟩
  · rw [table_eq]
    exact SpriteSheetRule.sheets_describe g.rules
  · rw [get_table, getLast_filterMap_iff (served_isSome name)]
    simp only [served_iff]
  · rw [table_eq, table_eq, same]
  · intro names
    cases named : rule.image? with
    | none => simp [SpriteSheetRule.image_eq_none.mp named] at names
    | some image => simp [table, SpriteTable.add, add?, named]
  · intro nameless
    simp [table, SpriteTable.add, add?, SpriteSheetRule.image_eq_none.mpr nameless]

end Gathering
end SpriteTable
end Cascade
