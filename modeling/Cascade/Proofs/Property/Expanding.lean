import Cascade.Proofs.Property.Ranking
import Cascade.Property.Declared
import Mathlib.Data.List.Nodup
/-!
What declarations set.

A declaration sets each property at most once, be it for one property or for several. A shorthand
sets what declarations of its longhands would.
-/
namespace Cascade

/-- A run over a list that succeeds gives a result for each item. -/
theorem forall₂_of_mapM {α β ε : Type} {f : α → Except ε β} {items : List α} {results : List β}
    (success : items.mapM f = .ok results) :
    List.Forall₂ (fun a b => f a = .ok b) items results := by
  induction items generalizing results with
  | nil =>
      obtain rfl : [] = results := by simpa [pure, Except.pure] using success
      exact .nil
  | cons a rest ih =>
      rw [List.mapM_cons] at success
      cases first : f a with
      | error e => simp [first, bind, Except.bind] at success
      | ok r =>
          cases others : rest.mapM f with
          | error e => simp [first, others, bind, Except.bind] at success
          | ok more =>
              obtain rfl : r :: more = results := by
                simpa [first, others, bind, Except.bind, pure, Except.pure] using success
              exact .cons first (ih others)

theorem mapM_keys {α κ β ε : Type} {f : α → Except ε (κ × β)} (key : α → κ)
    (keeps : ∀ a r, f a = .ok r → r.1 = key a) {items : List α} {results : List (κ × β)}
    (success : items.mapM f = .ok results) : results.map Prod.fst = items.map key := by
  have related := forall₂_of_mapM success
  clear success
  induction related with
  | nil => rfl
  | cons first _ ih => rw [List.map_cons, List.map_cons, keeps _ _ first, ih]

theorem exists_of_mem_mapM {α β ε : Type} {f : α → Except ε β} {items : List α} {results : List β}
    (success : items.mapM f = .ok results) {b : β} (member : b ∈ results) :
    ∃ a ∈ items, f a = .ok b := by
  have related := forall₂_of_mapM success
  clear success
  induction related with
  | nil => cases member
  | cons first _ ih =>
      rcases List.mem_cons.mp member with rfl | later
      · exact ⟨_, List.mem_cons_self, first⟩
      · obtain ⟨a, among, same⟩ := ih later
        exact ⟨a, List.mem_cons_of_mem _ among, same⟩

theorem Longhand.given_fst {p : Longhand} {kind : SingleKind} {value : ComponentValue}
    {r : Longhand × DeclaredValue} (success : p.given kind value = .ok r) : r.1 = p := by
  rw [given] at success
  cases typed : kind.typed value with
  | error fault => simp [typed] at success
  | ok v =>
      obtain rfl : (p, DeclaredValue.plain v) = r := by simpa [typed] using success
      rfl

theorem BoxShorthand.expand_keys {b : BoxShorthand} {values : List ComponentValue}
    {settings : Settings} (four : b.sides.length = 4) (success : b.expand values = .ok settings) :
    settings.map Prod.fst = b.sides := by
  rw [expand] at success
  cases sides : BoxSides.ofShorthand? values with
  | none => simp [sides] at success
  | some box =>
      rw [sides] at success
      have keys := mapM_keys Prod.fst (fun a r known => Longhand.given_fst known) success
      rw [keys, List.map_fst_zip]
      simp [four, BoxSides.toList]

/-- The properties of `border` are those of the widths, of the colours, or both. -/
theorem Settings.border_nodup {values : List ComponentValue} {settings : Settings}
    (success : Settings.ofBorder values = .ok settings) : (settings.map Prod.fst).Nodup := by
  rw [ofBorder] at success
  split at success
  case isTrue => simp at success
  case isFalse =>
    cases parts : borderParts none none values with
    | error e => simp [parts] at success
    | ok found =>
        obtain ⟨width, color⟩ := found
        rw [parts] at success
        obtain rfl := Except.ok.inj success
        cases width <;> cases color <;> simp [BoxShorthand.borderWidth, BoxShorthand.borderColor]

theorem Settings.overflow_nodup {values : List ComponentValue} {settings : Settings}
    (success : Settings.ofOverflow values = .ok settings) : (settings.map Prod.fst).Nodup := by
  unfold ofOverflow at success
  split at success
  case h_1 both =>
    rw [mapM_keys id (fun a r known => Longhand.given_fst known) success]
    decide
  case h_2 x y =>
    rw [mapM_keys Prod.fst (fun a r known => Longhand.given_fst known) success]
    simp
  case h_3 => simp at success

theorem Declaration.settings_nodup {d : Declaration} {settings : Settings}
    (success : d.settings = .ok settings) : (settings.map Prod.fst).Nodup := by
  -- The four shorthands of sides differ in the sides they name alone.
  have box {b : BoxShorthand} (four : b.sides.length = 4) (distinct : b.sides.Nodup)
      (expanded : b.expand d.values = .ok settings) : (settings.map Prod.fst).Nodup := by
    rw [BoxShorthand.expand_keys four expanded]
    exact distinct
  rw [Declaration.settings] at success
  split at success
  case h_1 => exact box rfl (by decide) success
  case h_2 => exact box rfl (by decide) success
  case h_3 => exact box rfl (by decide) success
  case h_4 => exact box rfl (by decide) success
  case h_5 => exact Settings.border_nodup success
  case h_6 => exact Settings.overflow_nodup success
  case h_7 =>
    split at success
    case h_1 => simp at success
    case h_2 p named =>
      cases typed : p.typed d with
      | error fault => simp [typed] at success
      | ok value =>
          obtain rfl : [(p, value)] = settings := by simpa [typed] using success
          exact List.nodup_singleton p

/-- What a declaration sets a property to is one value. -/
theorem Declaration.settings_unique {d : Declaration} {settings : Settings}
    (success : d.settings = .ok settings) {p : Longhand} {v w : DeclaredValue}
    (first : (p, v) ∈ settings) (second : (p, w) ∈ settings) : v = w := by
  have same := List.inj_on_of_nodup_map (settings_nodup success) first second rfl
  exact (Prod.mk.inj same).2

/-! Shorthands as declarations of the properties they stand for.
The sides of a box, the axes of an overflow, and the width and the colour of a border are set as by
one declaration for each of them, in order and up to the first that fails. -/

def Settings.shorthands : List String :=
  ["margin", "padding", "border-width", "border-color", "border", "overflow"]

/-- Names are in lower case, differ in more than case, and none is that of a shorthand. -/
theorem Longhand.name_spec (p : Longhand) :
    Text.lowered p.name = p.name ∧ ofName? p.name = some p ∧ p.name ∉ Settings.shorthands := by
  have every : ∀ q ∈ all, Text.lowered q.name = q.name ∧ ofName? q.name = some q ∧
      q.name ∉ Settings.shorthands := by
    decide +kernel
  exact every p p.mem_all

/-- A declaration under the name of a property sets that property, or nothing. -/
theorem Declaration.settings_longhand {d : Declaration} {p : Longhand}
    (named : d.property = p.name) :
    d.settings = match p.typed d with
      | .ok value => .ok [(p, value)]
      | .error fault => .error (.invalidValue p.name fault) := by
  obtain ⟨low, known, apart⟩ := p.name_spec
  rw [settings, named, low]
  split
  case h_7 =>
    cases typed : p.typed d <;> simp [known, typed]
  all_goals
    rename_i same
    simp [Settings.shorthands, same] at apart

/-- A property of single values is set by one value as on behalf of a shorthand. -/
theorem Declaration.settings_single {p : Longhand} {kind : SingleKind}
    (single : p.kind = .single kind) (value : ComponentValue) (important : Bool) :
    (Declaration.ofValues p.name [value] important).settings =
      (p.given kind value).map fun setting => [setting] := by
  rw [settings_longhand rfl, Longhand.typed, single, Longhand.given]
  change (match (kind.typed value).map DeclaredValue.plain with
    | .ok value => _
    | .error fault => _) = _
  cases kind.typed value <;> rfl

/-- What several declarations set, or the first error among them. -/
def Settings.inTurn : List (Except PropertyError Settings) → Except PropertyError Settings
  | [] => .ok []
  | .error e :: _ => .error e
  | .ok settings :: rest => (inTurn rest).map fun more => settings ++ more

theorem Settings.inTurn_given {α : Type} (f : α → Except PropertyError (Longhand × DeclaredValue))
    (items : List α) :
    inTurn (items.map fun a => (f a).map fun setting => [setting]) = items.mapM f := by
  induction items with
  | nil => rfl
  | cons a rest ih =>
      rw [List.mapM_cons, List.map_cons]
      cases f a with
      | error e => rfl
      | ok setting =>
          change (inTurn _).map _ = (rest.mapM f).bind _
          rw [ih]
          cases rest.mapM f <;> rfl

def Declaration.part (d : Declaration) (name : String) (value : ComponentValue) :
    Except PropertyError Settings :=
  (Declaration.ofValues name [value] d.important).settings

theorem Declaration.inTurn_parts (d : Declaration) {k : SingleKind}
    (parts : List (Longhand × ComponentValue)) (single : ∀ part ∈ parts, part.1.kind = .single k) :
    Settings.inTurn (parts.map fun part => d.part part.1.name part.2) =
      parts.mapM fun part => part.1.given k part.2 := by
  rw [← Settings.inTurn_given]
  congr 1
  exact List.map_congr_left fun part member =>
    settings_single (single part member) part.2 d.important

/-- What the sides of a box get, from the top around: a side that is given nothing is like the
opposite one, and the right one like the top. -/
def BoxSides.around {α : Type} (top : α) (rest : List α) : List α :=
  let right := rest[0]?.getD top
  [top, right, rest[1]?.getD top, rest[2]?.getD right]

theorem BoxSides.ofShorthand_around {α : Type} (top : α) {rest : List α} (few : rest.length ≤ 3) :
    ∃ box, ofShorthand? (top :: rest) = some box ∧ box.toList = around top rest := by
  match rest, few with
  | [], _ => exact ⟨_, rfl, rfl⟩
  | [_], _ => exact ⟨_, rfl, rfl⟩
  | [_, _], _ => exact ⟨_, rfl, rfl⟩
  | [_, _, _], _ => exact ⟨_, rfl, rfl⟩
  | _ :: _ :: _ :: _ :: _, few =>
      simp only [List.length_cons] at few
      omega

theorem BoxSides.ofShorthand_none {α : Type} {values : List α}
    (count : values = [] ∨ 4 < values.length) : ofShorthand? values = none := by
  match values, count with
  | [], _ => rfl
  | [_], count | [_, _], count | [_, _, _], count | [_, _, _, _], count => simp at count
  | _ :: _ :: _ :: _ :: _ :: _, _ => rfl

def Settings.boxes : List (String × List String) :=
  [("margin", ["margin-top", "margin-right", "margin-bottom", "margin-left"]),
   ("padding", ["padding-top", "padding-right", "padding-bottom", "padding-left"]),
   ("border-width",
    ["border-top-width", "border-right-width", "border-bottom-width", "border-left-width"]),
   ("border-color",
    ["border-top-color", "border-right-color", "border-bottom-color", "border-left-color"])]

/-- Each of them is a shorthand for four properties of one kind. -/
theorem Declaration.settings_box {d : Declaration} {name : String} {sides : List String}
    (member : (name, sides) ∈ Settings.boxes) (named : Text.lowered d.property = name) :
    ∃ b : BoxShorthand, b.name = name ∧ b.sides.map Longhand.name = sides ∧
      (∀ p ∈ b.sides, p.kind = .single b.kind) ∧ d.settings = b.expand d.values := by
  simp only [Settings.boxes, List.mem_cons, List.not_mem_nil, or_false] at member
  rcases member with same | same | same | same
  all_goals obtain ⟨rfl, rfl⟩ := Prod.mk.inj same
  · exact ⟨.margin, rfl, rfl, by decide, by simp only [settings, named]⟩
  · exact ⟨.padding, rfl, rfl, by decide, by simp only [settings, named]⟩
  · exact ⟨.borderWidth, rfl, rfl, by decide, by simp only [settings, named]⟩
  · exact ⟨.borderColor, rfl, rfl, by decide, by simp only [settings, named]⟩

theorem Declaration.settings_around {d : Declaration} {b : BoxShorthand} {top : ComponentValue}
    {rest : List ComponentValue} (single : ∀ p ∈ b.sides, p.kind = .single b.kind)
    (few : rest.length ≤ 3) :
    b.expand (top :: rest) = Settings.inTurn
      (List.zipWith d.part (b.sides.map Longhand.name) (BoxSides.around top rest)) := by
  obtain ⟨box, spread, sides⟩ := BoxSides.ofShorthand_around top few
  have parts := inTurn_parts (k := b.kind) d (b.sides.zip box.toList)
    fun part member => single part.1 (List.of_mem_zip member).1
  rw [BoxShorthand.expand, spread, ← sides, List.zipWith_map_left]
  rw [List.map_zip_eq_zipWith] at parts
  exact parts.symm

/-- The values of a border and what they stand for: one scalar, one colour, or one of each in either
order. -/
inductive Settings.Bordered : List ComponentValue → List (String × ComponentValue) → Prop where
  | width {w : ComponentValue} : (Scalar.ofValue? w).isSome →
      Bordered [w] [("border-width", w)]
  | color {c : ComponentValue} : (Color.ofValue? c).isSome →
      Bordered [c] [("border-color", c)]
  | widthColor {w c : ComponentValue} : (Scalar.ofValue? w).isSome → (Color.ofValue? c).isSome →
      Bordered [w, c] [("border-width", w), ("border-color", c)]
  | colorWidth {w c : ComponentValue} : (Scalar.ofValue? w).isSome → (Color.ofValue? c).isSome →
      Bordered [c, w] [("border-width", w), ("border-color", c)]

section Border
variable {d : Declaration} {v w c : ComponentValue} {s : Scalar} {k : Color}

/-- No value is both a scalar and a colour. -/
theorem Scalar.ofValue_color (color : Color.ofValue? v = some k) : Scalar.ofValue? v = none := by
  cases v <;> first | rfl | simp [Color.ofValue?] at color

theorem BoxShorthand.expand_one {b : BoxShorthand} {value : PlainValue}
    (four : b.sides.length = 4) (typed : b.kind.typed v = .ok value) :
    b.expand [v] = .ok (b.sides.map fun p => (p, .plain value)) := by
  obtain ⟨p, q, r, l, sides⟩ : ∃ p q r l, b.sides = [p, q, r, l] := by
    simpa [List.length_eq_four] using four
  simp [expand, BoxSides.ofShorthand?, BoxSides.toList, sides, Longhand.given, typed, pure,
    Except.pure, bind, Except.bind]

theorem Declaration.part_width (scalar : Scalar.ofValue? w = some s) :
    d.part "border-width" w =
      .ok (BoxShorthand.borderWidth.sides.map fun p => (p, .plain (.scalar s))) := by
  have low : Text.lowered "border-width" = "border-width" := by decide
  have typed : BoxShorthand.borderWidth.kind.typed w = .ok (.scalar s) := by
    simp [BoxShorthand.borderWidth, SingleKind.typed, scalar]
  simp only [part, settings, ofValues, low]
  exact BoxShorthand.expand_one rfl typed

theorem Declaration.part_color (color : Color.ofValue? c = some k) :
    d.part "border-color" c =
      .ok (BoxShorthand.borderColor.sides.map fun p => (p, .plain (.color k))) := by
  have low : Text.lowered "border-color" = "border-color" := by decide
  have typed : BoxShorthand.borderColor.kind.typed c = .ok (.color k) := by
    simp [BoxShorthand.borderColor, SingleKind.typed, color]
  simp only [part, settings, ofValues, low]
  exact BoxShorthand.expand_one rfl typed

/-- A border is set as by a declaration of its width and one of its colour, and neither fails. -/
theorem Settings.ofBorder_parts {values : List ComponentValue}
    {parts : List (String × ComponentValue)} (bordered : Bordered values parts) (d : Declaration) :
    ∃ settings, ofBorder values = .ok settings ∧
      inTurn (parts.map fun part => d.part part.1 part.2) = .ok settings := by
  cases bordered with
  | width scalar =>
      obtain ⟨s, scalar⟩ := Option.isSome_iff_exists.mp scalar
      refine ⟨BoxShorthand.borderWidth.sides.map fun p => (p, .plain (.scalar s)), ?_, ?_⟩
      · simp [ofBorder, borderParts, scalar]
      · simp [inTurn, Declaration.part_width scalar, Except.map]
  | color color =>
      obtain ⟨k, color⟩ := Option.isSome_iff_exists.mp color
      have scalar := Scalar.ofValue_color color
      refine ⟨BoxShorthand.borderColor.sides.map fun p => (p, .plain (.color k)), ?_, ?_⟩
      · simp [ofBorder, borderParts, scalar, color]
      · simp [inTurn, Declaration.part_color color, Except.map]
  | widthColor scalar color =>
      obtain ⟨s, scalar⟩ := Option.isSome_iff_exists.mp scalar
      obtain ⟨k, color⟩ := Option.isSome_iff_exists.mp color
      have other := Scalar.ofValue_color color
      refine ⟨(BoxShorthand.borderWidth.sides.map fun p => (p, .plain (.scalar s))) ++
        BoxShorthand.borderColor.sides.map fun p => (p, .plain (.color k)), ?_, ?_⟩
      · simp [ofBorder, borderParts, scalar, color, other]
      · simp [inTurn, Declaration.part_width scalar, Declaration.part_color color, Except.map]
  | colorWidth scalar color =>
      obtain ⟨s, scalar⟩ := Option.isSome_iff_exists.mp scalar
      obtain ⟨k, color⟩ := Option.isSome_iff_exists.mp color
      have other := Scalar.ofValue_color color
      refine ⟨(BoxShorthand.borderWidth.sides.map fun p => (p, .plain (.scalar s))) ++
        BoxShorthand.borderColor.sides.map fun p => (p, .plain (.color k)), ?_, ?_⟩
      · simp [ofBorder, borderParts, scalar, color, other]
      · simp [inTurn, Declaration.part_width scalar, Declaration.part_color color, Except.map]

/-- Only these values are a border. -/
theorem Settings.bordered_of_ok {values : List ComponentValue} {settings : Settings}
    (success : ofBorder values = .ok settings) : ∃ parts, Bordered values parts := by
  match values with
  | [] => simp [ofBorder] at success
  | _ :: _ :: _ :: _ => simp [ofBorder] at success
  | [v] =>
    cases scalar : Scalar.ofValue? v with
    | some s => exact ⟨_, .width (by simp [scalar])⟩
    | none =>
        cases color : Color.ofValue? v with
        | some k => exact ⟨_, .color (by simp [color])⟩
        | none => simp [ofBorder, borderParts, scalar, color] at success
  | [v, w] =>
    cases scalar : Scalar.ofValue? v with
    | some s =>
        -- There is a width now, so only a colour may follow.
        cases color : Color.ofValue? w with
        | some k => exact ⟨_, .widthColor (by simp [scalar]) (by simp [color])⟩
        | none =>
            cases other : Scalar.ofValue? w <;>
              simp [ofBorder, borderParts, scalar, color, other] at success
    | none =>
        cases color : Color.ofValue? v with
        | none => simp [ofBorder, borderParts, scalar, color] at success
        | some k =>
            cases width : Scalar.ofValue? w with
            | some s => exact ⟨_, .colorWidth (by simp [width]) (by simp [color])⟩
            | none => simp [ofBorder, borderParts, scalar, color, width] at success

end Border

theorem Settings.ofOverflow_none {values : List ComponentValue}
    (count : values = [] ∨ 2 < values.length) : ∃ e, ofOverflow values = .error e := by
  rcases values with _ | ⟨x, _ | ⟨y, _ | ⟨z, more⟩⟩⟩
  · exact ⟨_, rfl⟩
  · simp at count
  · simp at count
  · exact ⟨_, rfl⟩

/-- What the declarations of a shorthand mean, and that no property is set twice. -/
structure Declaration.Expands (d : Declaration) : Prop where
  /-- One to four values go around the box. -/
  box : ∀ name sides, (name, sides) ∈ Settings.boxes → Text.lowered d.property = name →
    ∀ top rest, d.values = top :: rest → rest.length ≤ 3 →
      d.settings = Settings.inTurn (List.zipWith d.part sides (BoxSides.around top rest))
  noBox : ∀ name sides, (name, sides) ∈ Settings.boxes → Text.lowered d.property = name →
    d.values = [] ∨ 4 < d.values.length → ∃ e, d.settings = .error e
  /-- A single value serves both axes. -/
  overflow : Text.lowered d.property = "overflow" →
    ∀ x y, d.values = [x, y] ∨ d.values = [x] ∧ y = x →
    d.settings = Settings.inTurn [d.part "overflow-x" x, d.part "overflow-y" y]
  noOverflow : Text.lowered d.property = "overflow" → d.values = [] ∨ 2 < d.values.length →
    ∃ e, d.settings = .error e
  border : Text.lowered d.property = "border" → ∀ parts, Settings.Bordered d.values parts →
    ∃ settings, d.settings = .ok settings ∧
      Settings.inTurn (parts.map fun part => d.part part.1 part.2) = .ok settings
  noBorder : Text.lowered d.property = "border" → (∀ parts, ¬ Settings.Bordered d.values parts) →
    ∃ e, d.settings = .error e
  distinct : ∀ settings, d.settings = .ok settings → (settings.map Prod.fst).Nodup

/-- Every shorthand means its longhands, whatever its values are. -/
theorem Declaration.expands (d : Declaration) : d.Expands where
  box name sides member named top rest values few := by
    obtain ⟨b, -, names, single, expanded⟩ := settings_box member named
    rw [expanded, values, settings_around single few, names]
  noBox name sides member named count := by
    obtain ⟨b, -, -, -, expanded⟩ := settings_box member named
    rw [expanded, BoxShorthand.expand, BoxSides.ofShorthand_none count]
    exact ⟨_, rfl⟩
  overflow named x y values := by
    have parts := d.inTurn_parts (k := .keyword Longhand.overflowKeywords)
      [(.overflowX, x), (.overflowY, y)] (by simp [Longhand.kind])
    simp only [settings, named]
    rcases values with values | ⟨values, rfl⟩
    · rw [values, Settings.ofOverflow]
      exact parts.symm
    · rw [values, Settings.ofOverflow]
      exact parts.symm
  noOverflow named count := by
    simp only [settings, named]
    exact Settings.ofOverflow_none count
  border named parts bordered := by
    simp only [settings, named]
    exact Settings.ofBorder_parts bordered d
  noBorder named other := by
    simp only [settings, named]
    cases result : Settings.ofBorder d.values with
    | error e => exact ⟨e, rfl⟩
    | ok settings =>
        obtain ⟨parts, bordered⟩ := Settings.bordered_of_ok result
        exact absurd bordered (other parts)
  distinct settings success := settings_nodup success

end Cascade
