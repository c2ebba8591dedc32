import Cascade.Proofs.Property.Rereading
import Cascade.Proofs.Sheet.Combining
/-!
Definitions as sources.

Offers move and rise when they are merged, and lists are built from their texts, but no operation
makes up a value. So whatever a sheet went through, everything that its definitions hold was set by
a declaration in a rule of one of the texts it was assembled from.
-/
namespace Cascade

/-- What a cascade leaves was held or offered. -/
theorem Property.cascaded_cases {V : Type} {held offer : Option (Property V)} {q : Property V}
    (known : cascaded held offer = some q) : held = some q ∨ offer = some q := by
  cases offer with
  | none => exact .inl (by simpa using known)
  | some x =>
      cases held with
      | none => exact .inr (by simpa using known)
      | some y =>
          rw [cascaded_some] at known
          split at known
          case isTrue => exact .inl known
          case isFalse => exact .inr known

namespace Outline
variable {V : Type} {P : Longhand → V → Prop} {o other : Outline V}

def Every (P : Longhand → V → Prop) (o : Outline V) : Prop :=
  ∀ path p q, (o.properties path).get? p = some q → P p q.value

theorem every_empty (P : Longhand → V → Prop) : (empty : Outline V).Every P := by
  intro path p q known
  cases (Dictionary.get?_empty p).symm.trans known

theorem Every.insert (every : o.Every P) (path : List Qualifier) {d : Dictionary V}
    (new : ∀ p q, d.get? p = some q → P p q.value) : (o.insert path d).Every P := by
  intro place p q known
  rw [insert_properties] at known
  split at known
  case isTrue =>
    rw [Dictionary.get_merge] at known
    exact (Property.cascaded_cases known).elim (every path p q) (new p q)
  case isFalse => exact every place p q known

theorem Every.merge (every : o.Every P) (also : other.Every P) (offset : Nat) :
    (o.merge other offset).Every P := by
  intro path p q known
  simp only [Outline.merge, Dictionary.importFrom, Dictionary.get_merge,
    Dictionary.get?_shifted] at known
  rcases Property.cascaded_cases known with held | raised
  · exact every path p q held
  · obtain ⟨q, offered, rfl⟩ := Option.map_eq_some_iff.mp raised
    exact also path p q offered

end Outline

namespace Sheet

/-- A declaration in a rule of one of the texts sets the property to the value. -/
def SetIn (texts : List (String × String)) (p : Longhand) (v : DeclaredValue) : Prop :=
  ∃ entry ∈ texts, ∃ source, StyleSource.ofText entry.1 = .ok source ∧
    ∃ rule ∈ source.styleRules, ∃ d ∈ rule.declarations,
      ∃ settings, d.settings = .ok settings ∧ (p, v) ∈ settings

theorem SetIn.mono {texts more : List (String × String)} {p : Longhand} {v : DeclaredValue}
    (set : SetIn texts p v) (among : texts ⊆ more) : SetIn more p v := by
  obtain ⟨entry, member, rest⟩ := set
  exact ⟨entry, among member, rest⟩

variable {s : Sheet} {texts : List (String × String)}

/-- What the rules of a text post was set by its declarations. -/
theorem posting_setIn {text name file : String} {source : StyleSource}
    (read : StyleSource.ofText text = .ok source) {layer order : Nat} {i : Posting}
    (member : i ∈ Posting.ofRules file layer order source.styleRules) {p : Longhand}
    {q : Property DeclaredValue} (known : i.properties.get? p = some q) :
    SetIn [(text, name)] p q.value := by
  obtain ⟨o, offered, rfl, rfl⟩ := (i.properties_greatest p).among q known
  have posted : Posting.Offered (Posting.ofRules file layer order source.styleRules) i.selector
      fun _ other => other = o := ⟨i, member, rfl, o, offered, rfl⟩
  obtain ⟨place, ⟨rule, d⟩, found, -, _, made, rfl⟩ := (Posting.offered_ofRules _ _ _ _ _).mp posted
  obtain ⟨settings, success, set⟩ := made.setting
  obtain ⟨rule, styles, inside⟩ := List.mem_flatMap.mp (List.mem_of_getElem? found)
  obtain ⟨d, among, same⟩ := List.mem_map.mp inside
  obtain ⟨rfl, rfl⟩ := Prod.mk.inj same
  exact ⟨_, List.mem_singleton_self _, source, read, rule, styles, d, among, settings, success, set⟩

/-- Every value in the tree of an assembled sheet was set in one of its texts. -/
theorem Assembled.every_setIn (assembled : s.Assembled texts) :
    s.skeleton.outline.Every (SetIn texts) := by
  induction assembled with
  | new owner config =>
      rw [(new_holds owner config).outline]
      exact Outline.every_empty _
  | @load s loaded texts text name earlier success ih =>
      obtain ⟨source, read, rfl⟩ := load_eq_ok.mp success
      rw [add_posted, RuleTree.posted_outline earlier.sound.skeleton]
      have before : s.skeleton.outline.Every (SetIn (texts ++ [(text, name)])) :=
        fun path p q known => (ih path p q known).mono (List.subset_append_left _ _)
      have posted : ∀ i ∈ Posting.ofRules name s.layers 0 source.styleRules,
          ∀ p q, i.properties.get? p = some q → SetIn (texts ++ [(text, name)]) p q.value :=
        fun i member p q known =>
          (posting_setIn read member known).mono (List.subset_append_right _ _)
      generalize Posting.ofRules name s.layers 0 source.styleRules = postings at posted
      generalize s.skeleton.outline = o at before
      induction postings generalizing o with
      | nil => exact before
      | cons i rest later =>
          obtain ⟨here, others⟩ := List.forall_mem_cons.mp posted
          exact later others _ (before.insert i.path here)
  | build earlier ih =>
      rw [(build_spec earlier.sound).2.2.skeleton]
      exact ih
  | lookup asked earlier ih =>
      rw [← (asked_spec earlier.sound asked).2.alike.skeleton]
      exact ih
  | @combine base overlay below above owner first second lower upper =>
      have skeleton : (base.combine overlay owner).skeleton =
          (base.tree.merge overlay.tree base.layers).mapValues PropertyValue.declared :=
        mapValues_reset_declared _
      rw [skeleton, RuleTree.outline_mapValues,
        (RuleTree.merge_spec first.sound.valid second.sound.valid _).2, Outline.mapValues_merge,
        ← RuleTree.outline_mapValues, ← RuleTree.outline_mapValues]
      exact Outline.Every.merge
        (fun path p q known => (lower path p q known).mono (List.subset_append_left _ _))
        (fun path p q known => (upper path p q known).mono (List.subset_append_right _ _)) _

/-- So was everything that a definition holds. -/
theorem Assembled.definition_setIn (assembled : s.Assembled texts) (held : InstanceId → Bool)
    (d : Document) (e : ElementId) (p : Longhand) (q : Property PropertyValue)
    (known : (s.definition held d e).1.value.get? p = some q) : SetIn texts p q.value.declared := by
  have sound := assembled.sound
  have declared := congrArg (Dictionary.get? · p) (definition_declared sound held d e)
  simp only [Dictionary.get?_mapValues] at declared
  rw [Definition.get?] at known
  rw [known] at declared
  obtain ⟨n, -, there⟩ := (RuleTree.gathered_greatest _ _ p).among _ declared.symm
  rcases RuleTree.held_cases sound.skeleton n with bare | ⟨path, stands⟩
  · rw [bare] at there
    cases (Dictionary.get?_empty p).symm.trans there
  · rw [← stands] at there
    exact assembled.every_setIn path p _ there

end Sheet

/-! Definitions that are read again.
A definition is written as a declaration a line. Between braces behind a tag that is a source with
one rule, and each of its declarations sets the one property of its line to the value that the
definition holds. -/
open Token

def Longhand.line (p : Longhand) (v : DeclaredValue) : List Char :=
  p.name.toList ++ ':' :: ' ' :: (v.written.toList ++ [';', '\n'])

def Settings.lines (settings : Settings) : List Char := settings.flatMap fun s => s.1.line s.2

theorem Longhand.name_ident (p : Longhand) : p.name.toList ∈ Kind.ident.language := by
  have every : ∀ q ∈ all, q.name.toList ∈ Kind.ident.language := by
    decide
  exact every p p.mem_all

theorem Longhand.getLast?_line (p : Longhand) (v : DeclaredValue) :
    (p.line v).getLast? = some '\n' := by
  rw [line, List.getLast?_append_of_ne_nil _ (List.cons_ne_nil _ _), ← List.cons_append,
    ← List.cons_append, List.getLast?_append_of_ne_nil _ (List.cons_ne_nil _ _)]
  rfl

theorem Longhand.commentless_line {p : Longhand} {v : DeclaredValue}
    (free : Commentless v.written.toList) : Commentless (p.line v) := by
  have name := commentless_slashless (slashless_ident p.name_ident)
  have colon : Commentless [':', ' '] := by decide
  have ending : Commentless [';', '\n'] := by decide
  exact name.append (colon.append (free.append ending (.inr (by decide))) (.inl (by decide)))
    (.inr (by simp))

namespace Settings
variable {settings : Settings}

theorem commentless_lines (each : ∀ s ∈ settings, Commentless s.2.written.toList)
    {rest : List Char} (ending : Commentless rest) : Commentless (settings.lines ++ rest) := by
  induction settings with
  | nil => exact ending
  | cons s more ih =>
      obtain ⟨here, others⟩ := List.forall_mem_cons.mp each
      have last : (s.1.line s.2).getLast? ≠ some '/' := by simp [Longhand.getLast?_line]
      rw [lines, List.flatMap_cons, List.append_assoc]
      exact (Longhand.commentless_line here).append (ih others) (.inl last)

/-- What reading some lines gives: a declaration for each of them that makes its setting. -/
theorem readList_lines (each : ∀ s ∈ settings, s.1.Rereads s.2) (gap : List Char)
    (position lines : Nat) : ∃ declarations last,
      Declaration.readList (tokensFrom gap position (1 + lines) (settings.lines ++ ['\x7d'])) =
        .ok (declarations, [last]) ∧ last.kind = .braceClose ∧
      List.Forall₂ (fun s d => d.property = s.1.name ∧ d.settings = .ok [s])
        settings declarations := by
  induction settings generalizing gap position lines with
  | nil =>
      have closing : tokensFrom gap position (1 + lines) ['\x7d'] =
          [⟨.braceClose, "\x7d", gap.reverse, position, 1 + lines⟩] := by
        have brace : extent? '\x7d' [] = some (.braceClose, 0) := rfl
        rw [tokensFrom_token _ _ _ brace, List.drop_nil, tokensFrom]
        rfl
      refine ⟨[], ⟨.braceClose, "\x7d", gap.reverse, position, 1 + lines⟩, ?_, rfl, .nil⟩
      rw [Settings.lines, List.flatMap_nil, List.nil_append, closing, Declaration.readList_cons]
      rfl
  | cons s more ih =>
      obtain ⟨here, others⟩ := List.forall_mem_cons.mp each
      obtain ⟨values, found, typed⟩ := here.typed
      obtain ⟨place, further, first⟩ := Declaration.read_line s.1.name_ident here.snug found gap
        position lines ('\n' :: (Settings.lines more ++ ['\x7d']))
      obtain ⟨declarations, last, rest, closes, related⟩ := ih others ['\n'] place (further + 1)
      have behind : tokensFrom [] place (1 + further) ('\n' :: (Settings.lines more ++ ['\x7d'])) =
          tokensFrom ['\n'] place (1 + (further + 1)) (Settings.lines more ++ ['\x7d']) := by
        rw [tokensFrom_dropped _ _ _ rfl rfl]
        rfl
      rw [behind] at first
      refine ⟨⟨s.1.name, values, s.2.written, false, 1 + lines⟩ :: declarations, last, ?_, closes,
        .cons ⟨rfl, ?_⟩ related⟩
      · rw [← Declaration.readList_step first rest]
        simp [Settings.lines, Longhand.line]
      · rw [Declaration.settings_longhand rfl, typed _ rfl rfl]

end Settings

theorem Dictionary.mem_toList {V : Type} {d : Dictionary V} {p : Longhand} {q : Property V} :
    (p, q) ∈ d.toList ↔ d.get? p = some q := by
  simp [toList, List.mem_filterMap, Longhand.mem_all]

theorem Dictionary.keys_eq {V : Type} (d : Dictionary V) :
    d.toList.map Prod.fst = Longhand.all.filter fun p => (d.get? p).isSome := by
  rw [toList, List.map_filterMap]
  induction Longhand.all with
  | nil => rfl
  | cons p rest ih =>
      rw [List.filterMap_cons, List.filter_cons, ih]
      cases d.get? p <;> rfl

theorem Dictionary.toList_mapValues {V W : Type} (f : V → W) (d : Dictionary V) :
    (d.mapValues f).toList =
      d.toList.map fun entry => (entry.1, entry.2.withValue (f entry.2.value)) := by
  rw [toList, toList, List.map_filterMap]
  congr 1
  funext p
  rw [get?_mapValues]
  cases d.get? p <;> rfl

def Definition.settings (d : Definition) : Settings :=
  d.properties.toList.map fun entry => (entry.1, entry.2.value.declared)

theorem Definition.settings_eq (d : Definition) :
    d.settings = (d.properties.mapValues PropertyValue.declared).toList.map
      fun entry => (entry.1, entry.2.value) := by
  rw [settings, Dictionary.toList_mapValues, List.map_map]
  rfl

theorem Definition.text_lines (d : Definition) : d.text.toList = d.settings.lines := by
  rw [text, settings, Settings.lines, String.toList_join, List.flatMap_map, List.flatMap_map]
  congr 1
  funext entry
  simp [Longhand.line, PropertyValue.written]

/-- Some settings between braces behind a tag. -/
theorem StyleSource.ofText_lines {settings : Settings}
    (each : ∀ s ∈ settings, s.1.Rereads s.2) {text : String}
    (written : text.toList = "p \x7b".toList ++ (settings.lines ++ ['\x7d'])) :
    ∃ declarations, ofText text = .ok ⟨[.style ⟨[⟨⟨[.tag "p"]⟩, []⟩], declarations, 1⟩]⟩ ∧
      List.Forall₂ (fun s d => d.property = s.1.name ∧ d.settings = .ok [s])
        settings declarations := by
  obtain ⟨declarations, last, found, closes, related⟩ := Settings.readList_lines each [] 2 0
  refine ⟨declarations, ?_, related⟩
  have tag : ['p'] ∈ Kind.ident.language := by decide
  have opening : extent? '\x7b' (settings.lines ++ ['\x7d']) = some (.braceOpen, 0) := rfl
  have commentless : Commentless text.toList := by
    have front : Commentless "p \x7b".toList := by decide
    have lines : Commentless (settings.lines ++ ['\x7d']) :=
      Settings.commentless_lines (fun s member => (each s member).free) (by decide)
    rw [written]
    exact front.append lines (.inl (by decide))
  have split : tokens text = ⟨.ident, "p", [], 0, 1⟩ :: ⟨.braceOpen, "\x7b", [' '], 1, 1⟩ ::
      tokensFrom [] 2 1 (settings.lines ++ ['\x7d']) := by
    rw [tokens, withoutComments, blankComments_commentless commentless, written, Token.tokens]
    have front : "p \x7b".toList ++ (settings.lines ++ ['\x7d']) =
        ['p'] ++ ' ' :: '\x7b' :: (settings.lines ++ ['\x7d']) := by simp
    rw [front, tokensFrom_ident _ _ _ tag (.cons rfl _), tokensFrom_dropped _ _ _ rfl rfl,
      tokensFrom_token _ _ _ opening]
    rfl
  exact ofText_tag split rfl rfl found closes

namespace Sheet

theorem SetIn.takes {texts : List (String × String)} {p : Longhand} {v : DeclaredValue}
    (set : SetIn texts p v) : p.Takes v := by
  obtain ⟨entry, -, source, read, rule, styles, d, inside, settings, success, member⟩ := set
  obtain ⟨statements, found, rfl⟩ := map_eq_ok.mp read
  have places := StyleSource.readStatements_finds found _ (StyleSource.mem_styleRules.mp styles)
  exact (Declaration.settings_gives success member).taken (places.1 d inside)

/-- A definition whose numbers are finite, whose texts hold no quote and whose lists are read as
values is read again from what it is written as: the rule has one declaration for each property that
is set, in the order of dictionaries, and each of them sets that property alone, to the same
value. -/
theorem definition_rereads {s : Sheet} {texts : List (String × String)}
    (assembled : s.Assembled texts) (held : InstanceId → Bool) (d : Document) (e : ElementId)
    (printable : ∀ p q, (s.definition held d e).1.value.get? p = some q →
      q.value.declared.Printable) :
    ∃ declarations,
      StyleSource.ofText ("p \x7b" ++ (s.definition held d e).1.value.text ++ "\x7d") =
        .ok ⟨[.style ⟨[⟨⟨[.tag "p"]⟩, []⟩], declarations, 1⟩]⟩ ∧
      List.Forall₂
        (fun p declaration => ∃ q, (s.definition held d e).1.value.get? p = some q ∧
          declaration.property = p.name ∧ declaration.settings = .ok [(p, q.value.declared)])
        (Longhand.all.filter fun p => ((s.definition held d e).1.value.get? p).isSome)
        declarations := by
  have set := assembled.definition_setIn held d e
  generalize (s.definition held d e).1.value = definition at printable set ⊢
  have each : ∀ setting ∈ definition.settings, setting.1.Rereads setting.2 := by
    intro setting member
    obtain ⟨⟨p, q⟩, inside, rfl⟩ := List.mem_map.mp member
    have known := Dictionary.mem_toList.mp inside
    exact (set p q known).takes.rereads (printable p q known)
  have written : ("p \x7b" ++ definition.text ++ "\x7d").toList =
      "p \x7b".toList ++ (definition.settings.lines ++ ['\x7d']) := by
    simp [definition.text_lines]
  obtain ⟨declarations, read, related⟩ := StyleSource.ofText_lines each written
  refine ⟨declarations, read, ?_⟩
  change List.Forall₂ _ (Longhand.all.filter fun p => (definition.properties.get? p).isSome) _
  rw [← Dictionary.keys_eq, List.forall₂_map_left_iff]
  rw [Definition.settings, List.forall₂_map_left_iff] at related
  have known : ∀ entry ∈ definition.properties.toList,
      definition.get? entry.1 = some entry.2 := fun entry => Dictionary.mem_toList.mp
  refine ((List.forall₂_and_left _ _).mpr ⟨known, related⟩).imp ?_
  rintro entry declaration ⟨here, named, settings⟩
  exact ⟨entry.2, here, named, settings⟩

def panelText : String :=
  "ul \x7b display: block; width: 12.5px; opacity: 0.25; color: #ff8000;
  font-family: \"Noto Sans\"; font-effect: glow(2px), shadow \x7d"

def effects : List ComponentValue :=
  [.function "glow" [.dimension (.ofRatio false 2 1) "px"], .comma, .ident "shadow"]

def panel : StyleSource :=
  ⟨[.style ⟨[⟨⟨[.tag "ul"]⟩, []⟩],
    [⟨"display", [.ident "block"], "block", false, 1⟩,
      ⟨"width", [.dimension (.ofRatio false 25 2) "px"], "12.5px", false, 1⟩,
      ⟨"opacity", [.number (.ofRatio false 1 4)], "0.25", false, 1⟩,
      ⟨"color", [.color "ff8000"], "#ff8000", false, 1⟩,
      ⟨"font-family", [.string "Noto Sans"], "\"Noto Sans\"", false, 2⟩,
      ⟨"font-effect", effects, "glow(2px), shadow", false, 2⟩], 1⟩]⟩

theorem ofText_panel : StyleSource.ofText panelText = .ok panel := by
  rw [StyleSource.ofText, StyleSource.tokens, panelText, String.toList_ofList]
  decide +kernel

def panelSettings : Settings :=
  [(.display, .plain (.keyword "block")),
    (.width, .plain (.scalar ⟨.ofRatio false 25 2, .px⟩)),
    (.color, .plain (.color ⟨255, 128, 0, 255⟩)),
    (.opacity, .plain (.number (.ofRatio false 1 4))),
    (.fontFamily, .plain (.text "Noto Sans")),
    (.fontEffect, .list .fontEffects "glow(2px), shadow")]

theorem panelSettings_printable {definition : Definition}
    (settings : definition.settings = panelSettings) (p : Longhand) (q : Property PropertyValue)
    (there : definition.get? p = some q) : q.value.declared.Printable := by
  have width : (Binary32.ofRatio false 25 2).isFinite = true := by decide
  have opacity : (Binary32.ofRatio false 1 4).isFinite = true := by decide
  have family : '"' ∉ "Noto Sans".toList := by decide
  have listed : ComponentValue.ofText "glow(2px), shadow" = .ok effects := by decide +kernel
  have every : ∀ setting ∈ panelSettings, setting.2.Printable := by
    simp only [panelSettings, List.forall_mem_cons]
    exact ⟨trivial, width, trivial, opacity, family, ⟨effects, listed⟩, by simp⟩
  have member : (p, q.value.declared) ∈ definition.settings :=
    List.mem_map.mpr ⟨(p, q), Dictionary.mem_toList.mpr there, rfl⟩
  rw [settings] at member
  exact every _ member

theorem panel_settings :
    let s := ((new 0 .default).add panel "panel.css").build
    (s.definition (fun _ => false) .nav 0).1.value.settings = panelSettings := by
  intro s
  have sound := add_sound (new_sound 0 .default) panel "panel.css"
  rw [Definition.settings_eq, declared_build sound]
  decide +kernel

theorem definition_rereads_panel :
    let s := ((new 0 .default).add panel "panel.css").build
    let definition := (s.definition (fun _ => false) .nav 0).1.value
    definition.settings = panelSettings ∧
    definition.text = "display: block;\nwidth: 12.5px;\ncolor: #ff8000;\nopacity: 0.25;\n" ++
      "font-family: \"Noto Sans\";\nfont-effect: glow(2px), shadow;\n" ∧
    ∃ declarations,
      StyleSource.ofText ("p \x7b" ++ definition.text ++ "\x7d") =
        .ok ⟨[.style ⟨[⟨⟨[.tag "p"]⟩, []⟩], declarations, 1⟩]⟩ ∧
      List.Forall₂
        (fun p declaration => ∃ q, definition.get? p = some q ∧
          declaration.property = p.name ∧ declaration.settings = .ok [(p, q.value.declared)])
        (Longhand.all.filter fun p => (definition.get? p).isSome) declarations := by
  intro s definition
  have settings : definition.settings = panelSettings := panel_settings
  have text : definition.text =
      "display: block;\nwidth: 12.5px;\ncolor: #ff8000;\nopacity: 0.25;\n" ++
        "font-family: \"Noto Sans\";\nfont-effect: glow(2px), shadow;\n" := by
    rw [← String.toList_inj, definition.text_lines, settings, String.toList_append,
      String.toList_ofList, String.toList_ofList]
    decide
  have assembled : s.Assembled [(panelText, "panel.css")] :=
    .build (.load (.new 0 .default) (load_eq_ok.mpr ⟨panel, ofText_panel, rfl⟩))
  exact ⟨settings, text, definition_rereads assembled (fun _ => false) .nav 0
    (panelSettings_printable settings)⟩

end Sheet
end Cascade
