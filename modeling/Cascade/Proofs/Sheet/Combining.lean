import Cascade.Proofs.Sheet.Cascading
/-!
Combining sheets is loading their sources in sequence.

A combined sheet sees only what won at each node of the sheets it is made of. Still it holds what
one sheet holds into which the sources of both were loaded, the lower ones first.
-/
namespace Cascade.Sheet
open PropertyValue

def loadAll (s : Sheet) : List (String × String) → Except LoadError Sheet
  | [] => .ok s
  | (text, name) :: rest =>
    match s.load text name with
    | .error e => .error e
    | .ok loaded => loaded.loadAll rest

/-- The sheets that loads, builds, lookups and combinations lead to, with the sources behind each,
the lowest first. -/
inductive Assembled : Sheet → List (String × String) → Prop where
  | new (owner : Nat) (config : SheetConfig) : Assembled (new owner config) []
  | load {s loaded : Sheet} {texts : List (String × String)} {text name : String} :
      Assembled s texts → s.load text name = .ok loaded → Assembled loaded (texts ++ [(text, name)])
  | build {s : Sheet} {texts : List (String × String)} : Assembled s texts → Assembled s.build texts
  | lookup {s : Sheet} {texts : List (String × String)} (asked : Lookup) :
      Assembled s texts → Assembled (s.asked asked) texts
  | combine {base overlay : Sheet} {below above : List (String × String)} (owner : Nat) :
      Assembled base below → Assembled overlay above →
        Assembled (base.combine overlay owner) (below ++ above)

/-- The same layers, the same tree of qualifiers with the same declared values, and the same
tables. -/
structure Agrees (s t : Sheet) : Prop where
  config : s.config = t.config
  layers : s.layers = t.layers
  outline : s.skeleton.outline = t.skeleton.outline
  keyframes : s.keyframes = t.keyframes
  specifications : s.specifications = t.specifications
  sprites : s.sprites = t.sprites

/-- Built, and whatever is asked of them then, the sheets define every element alike but for the
identities of instances. -/
def DefinesAlike (s t : Sheet) : Prop :=
  ∀ (lookups others : List Lookup) (held holds : InstanceId → Bool) (d : Document) (e : ElementId),
    d.Reached →
      ((s.build.askedAll lookups).definition held d e).1.value.properties.mapValues content =
        ((t.build.askedAll others).definition holds d e).1.value.properties.mapValues content

/-- So built and asked, they give every element the same properties with the same precedences. -/
def RanksAlike (s t : Sheet) : Prop :=
  ∀ (lookups others : List Lookup) (held holds : InstanceId → Bool) (d : Document) (e : ElementId),
    d.Reached → ∀ p,
      (((s.build.askedAll lookups).definition held d e).1.value.get? p).map Property.precedence =
        (((t.build.askedAll others).definition holds d e).1.value.get? p).map Property.precedence

/-- No place of a declaration in its source reaches the limit of such counts. -/
def Counted (texts : List (String × String)) : Prop :=
  ∀ source ∈ readable texts, source.1.declarations.length ≤ wordLimit + 1

theorem readable_append (texts others : List (String × String)) :
    readable (texts ++ others) = readable texts ++ readable others :=
  List.filterMap_append

theorem readable_length (texts : List (String × String)) :
    (readable texts).length ≤ texts.length := List.length_filterMap_le _ _

theorem combine_holds {base overlay : Sheet} {sources others : List (StyleSource × String)}
    (first : base.Sound) (second : overlay.Sound) (below : base.Holds sources)
    (above : overlay.Holds others) (room : sources.length + others.length ≤ wordLimit)
    (owner : Nat) : (base.combine overlay owner).Holds (sources ++ others) := by
  have skeleton : (base.combine overlay owner).skeleton =
      (base.tree.merge overlay.tree base.layers).mapValues declared := mapValues_reset_declared _
  refine ⟨?_, ?_, ?_, ?_, ?_⟩
  · rw [List.length_append, ← below.layers, ← above.layers]
    rw [← below.layers, ← above.layers] at room
    exact min_eq_right room
  · rw [skeleton, RuleTree.outline_mapValues, (RuleTree.merge_spec first.valid second.valid _).2,
      Outline.mapValues_merge, ← RuleTree.outline_mapValues, ← RuleTree.outline_mapValues]
    change base.skeleton.outline.merge overlay.skeleton.outline base.layers = _
    have under : ∀ i ∈ Posting.ofSources 0 others, i.layer < others.length := by
      intro i member
      simpa using Posting.ofSources_layers member
    have space : others.length + sources.length ≤ wordLimit + 1 := by omega
    -- Raised by the layers below, the postings of the overlay are those of later sources.
    rw [above.outline, below.layers, Outline.merge_posted _ under space, below.outline,
      ← Outline.posted_append, Posting.ofSources_raised, Posting.ofSources_append]
  · simp only [combine, below.keyframes, above.keyframes, Table.ofList_merge, keyframesOf,
      List.flatMap_append]
  · simp only [combine, below.specifications, above.specifications, Table.ofList_merge,
      specificationsOf, List.flatMap_append]
  · simp only [combine, below.sprites, above.sprites, SpriteTable.merge_ofLists, spriteSheetsOf,
      spritesOf, List.flatMap_append]

theorem Assembled.readable {s : Sheet} {texts : List (String × String)}
    (built : s.Assembled texts) :
    ∀ entry ∈ texts, ∃ source, StyleSource.ofText entry.1 = .ok source := by
  induction built with
  | new => simp
  | load _ success ih =>
      intro entry member
      rcases List.mem_append.mp member with early | last
      · exact ih entry early
      · obtain ⟨source, read, -⟩ := load_eq_ok.mp success
        rw [List.mem_singleton.mp last]
        exact ⟨source, read⟩
  | build _ ih => exact ih
  | lookup _ _ ih => exact ih
  | combine _ _ _ first second =>
      intro entry member
      exact (List.mem_append.mp member).elim (first entry) (second entry)

theorem Assembled.sound {s : Sheet} {texts : List (String × String)}
    (built : s.Assembled texts) : s.Sound := by
  induction built with
  | new owner config => exact new_sound owner config
  | load _ success ih => exact load_sound ih success
  | build _ ih => exact (build_spec ih).1
  | lookup asked _ ih => exact (asked_spec ih asked).1
  | combine owner _ _ first second => exact combine_sound first second owner

theorem Assembled.spec {s : Sheet} {texts : List (String × String)} (built : s.Assembled texts)
    (few : texts.length ≤ wordLimit) : s.Sound ∧ s.Holds (Sheet.readable texts) := by
  induction built with
  | new owner config => exact ⟨new_sound owner config, new_holds owner config⟩
  | @load s loaded texts text name _ success ih =>
      rw [List.length_append, List.length_singleton] at few
      obtain ⟨sound, holds⟩ := ih (Nat.le_of_succ_le few)
      obtain ⟨source, read, rfl⟩ := load_eq_ok.mp success
      have last : Sheet.readable [(text, name)] = [(source, name)] := by
        simp [Sheet.readable, read, Except.toOption]
      have room := Nat.lt_of_le_of_lt (readable_length texts) few
      rw [readable_append, last]
      exact ⟨add_sound sound source name, add_holds sound holds room source name⟩
  | build _ ih =>
      obtain ⟨sound, holds⟩ := ih few
      obtain ⟨kept, -, alike⟩ := build_spec sound
      exact ⟨kept, alike.symm.holds holds⟩
  | lookup asked _ ih =>
      obtain ⟨sound, holds⟩ := ih few
      obtain ⟨kept, serves⟩ := asked_spec sound asked
      exact ⟨kept, serves.alike.holds holds⟩
  | @combine base overlay below above owner _ _ first second =>
      -- The bound on both together bounds each of them.
      rw [List.length_append] at few
      obtain ⟨sound, holds⟩ := first (by omega)
      obtain ⟨soundly, held⟩ := second (by omega)
      have room := Nat.le_trans (Nat.add_le_add (readable_length below) (readable_length above)) few
      rw [readable_append]
      exact ⟨combine_sound sound soundly owner, combine_holds sound soundly holds held room owner⟩

theorem Assembled.layers {s : Sheet} {texts : List (String × String)}
    (assembled : s.Assembled texts) : s.layers = min wordLimit texts.length := by
  induction assembled with
  | new => rfl
  | load _ success ih =>
      obtain ⟨source, -, rfl⟩ := load_eq_ok.mp success
      simp only [add, saturatingAdd, ih, List.length_append, List.length_singleton]
      omega
  | build _ ih => exact ih
  | lookup asked earlier ih =>
      rw [← (asked_spec earlier.sound asked).2.alike.layers, ih]
  | combine owner _ _ first second =>
      simp only [Sheet.combine, saturatingAdd, first, second, List.length_append]
      omega

/-- What an assembled sheet holds ranks below its next layer. -/
theorem Assembled.layersBelow {s : Sheet} {texts : List (String × String)}
    (assembled : s.Assembled texts) (room : s.layers < wordLimit) (n : RuleNodeId) :
    (s.skeleton.held n).LayersBelow s.layers := by
  have few : texts.length ≤ wordLimit := by
    have := assembled.layers
    omega
  obtain ⟨sound, holds⟩ := assembled.spec few
  rcases RuleTree.held_cases sound.skeleton n with bare | ⟨path, stands⟩
  · intro p q known
    simp [bare] at known
  · have under : ∀ i ∈ Posting.ofSources 0 (Sheet.readable texts), i.layer < s.layers := by
      intro i member
      rw [holds.layers]
      simpa using Posting.ofSources_layers member
    rw [← stands, holds.outline]
    exact Outline.posted_layers under path

theorem loadAll_spec {s : Sheet} (sound : s.Sound) {sources : List (StyleSource × String)}
    (holds : s.Holds sources) {texts : List (String × String)}
    (every : ∀ entry ∈ texts, ∃ source, StyleSource.ofText entry.1 = .ok source)
    (room : sources.length + texts.length ≤ wordLimit) :
    ∃ loaded, s.loadAll texts = .ok loaded ∧ loaded.config = s.config ∧ loaded.Sound ∧
      loaded.Holds (sources ++ readable texts) := by
  induction texts generalizing s sources with
  | nil => exact ⟨s, rfl, rfl, sound, by simpa [readable] using holds⟩
  | cons first rest ih =>
      obtain ⟨text, name⟩ := first
      rw [List.length_cons] at room
      obtain ⟨source, read⟩ := every (text, name) List.mem_cons_self
      have success : s.load text name = .ok (s.add source name) :=
        load_eq_ok.mpr ⟨source, read, rfl⟩
      have grown := add_holds sound holds (by omega) source name
      have left : (sources ++ [(source, name)]).length + rest.length ≤ wordLimit := by
        rw [List.length_append, List.length_singleton]
        omega
      obtain ⟨loaded, done, config, kept, whole⟩ := ih (add_sound sound source name) grown
        (fun entry member => every entry (List.mem_cons_of_mem _ member)) left
      have kind : readable ((text, name) :: rest) = (source, name) :: readable rest := by
        simp [readable, read, Except.toOption]
      refine ⟨loaded, ?_, config, kept, ?_⟩
      · rw [loadAll, success]
        exact done
      · rw [kind, List.append_cons]
        exact whole

theorem Holds.agrees {s t : Sheet} {sources : List (StyleSource × String)} (first : s.Holds sources)
    (second : t.Holds sources) (config : s.config = t.config) : s.Agrees t :=
  ⟨config, first.layers.trans second.layers.symm, first.outline.trans second.outline.symm,
    first.keyframes.trans second.keyframes.symm,
    first.specifications.trans second.specifications.symm, first.sprites.trans second.sprites.symm⟩

theorem Agrees.ranksAlike {s t : Sheet} (sound : s.Sound) (soundly : t.Sound) (same : s.Agrees t) :
    s.RanksAlike t := by
  intro lookups others held holds d e reached p
  obtain ⟨last, built, ours⟩ := built_spec sound lookups
  obtain ⟨final, ready, theirs⟩ := built_spec soundly others
  have outline : (s.build.askedAll lookups).skeleton.outline =
      (t.build.askedAll others).skeleton.outline := by
    rw [← ours.skeleton, same.outline, theirs.skeleton]
  have one := definition_greatest last built held reached.wellformed e p
  have other := definition_greatest final ready holds reached.wellformed e p
  rw [outline] at one
  have ranks := one.precedence other
  rw [Option.map_map, Option.map_map] at ranks
  exact ranks

-- Nodes may be numbered differently, so a tie between two of them is decided differently; but what
-- ties is one declaration.
theorem Holds.definesAlike {s t : Sheet} {texts : List (String × String)}
    (first : s.Holds (readable texts)) (sound : s.Sound) (soundly : t.Sound)
    (second : t.Holds (readable texts)) (config : s.config = t.config) (counted : Counted texts) :
    s.DefinesAlike t := by
  intro lookups others held holds d e reached
  obtain ⟨last, built, ours⟩ := built_spec sound lookups
  obtain ⟨final, ready, theirs⟩ := built_spec soundly others
  have tables : s.tables = t.tables := by
    rw [Sheet.tables, Sheet.tables, config, first.specifications, second.specifications,
      first.sprites, second.sprites]
  have same : (s.build.askedAll lookups).skeleton.gathered
        ((s.build.askedAll lookups).signature d e) =
      (t.build.askedAll others).skeleton.gathered ((t.build.askedAll others).signature d e) := by
    apply Dictionary.ext_get
    intro p
    have one := (ours.holds first).definition last built counted held reached.wellformed e p
    have other := (theirs.holds second).definition final ready counted holds
      reached.wellformed e p
    rw [Definition.get?, ← Dictionary.get?_mapValues, definition_declared last] at one
    rw [Definition.get?, ← Dictionary.get?_mapValues, definition_declared final] at other
    apply one.unique other
    rintro a b ⟨_, candidate, -⟩ ⟨_, rival, -⟩ tie
    exact candidate.untied rival tie
  rw [(definition_spec last held d e).1, (definition_spec final holds d e).1, meaning, meaning,
    same, ← ours.tables, ← theirs.tables, ← ours.keyframes, ← theirs.keyframes, tables,
    first.keyframes, second.keyframes]

/-- A combined sheet agrees with one sheet that loads all sources, the lower ones first, and it does
not matter which of three sheets are combined first. Places count up to a limit; where they reach
it, two declarations of one source may tie at different nodes. -/
theorem combine_agrees {base overlay : Sheet} {below above : List (String × String)}
    (first : base.Assembled below) (second : overlay.Assembled above)
    (few : below.length + above.length ≤ wordLimit) (owner other : Nat) :
    (∃ fresh, (new other base.config).loadAll (below ++ above) = .ok fresh ∧
      (base.combine overlay owner).Agrees fresh ∧ (base.combine overlay owner).RanksAlike fresh ∧
      (Counted (below ++ above) → (base.combine overlay owner).DefinesAlike fresh)) ∧
    ∀ {top : Sheet} {highest : List (String × String)}, top.Assembled highest →
      below.length + above.length + highest.length ≤ wordLimit → ∀ a b c : Nat,
      ((base.combine overlay owner).combine top a).Agrees
        (base.combine (overlay.combine top b) c) ∧
      ((base.combine overlay owner).combine top a).RanksAlike
        (base.combine (overlay.combine top b) c) ∧
      (Counted (below ++ above ++ highest) →
        ((base.combine overlay owner).combine top a).DefinesAlike
          (base.combine (overlay.combine top b) c)) := by
  constructor
  · have whole := Assembled.combine owner first second
    have bound : (below ++ above).length ≤ wordLimit := by rwa [List.length_append]
    obtain ⟨sound, holds⟩ := whole.spec bound
    have room :
        ([] : List (StyleSource × String)).length + (below ++ above).length ≤ wordLimit := by
      simpa using bound
    obtain ⟨fresh, done, config, kept, held⟩ := loadAll_spec (new_sound other base.config)
      (new_holds other base.config) whole.readable room
    have same := holds.agrees held config.symm
    exact ⟨fresh, done, same, same.ranksAlike sound kept,
      holds.definesAlike sound kept held config.symm⟩
  · intro top highest third all a b c
    -- Both ways the same texts are behind the result, in the same order.
    have left := Assembled.combine a (.combine owner first second) third
    have right := Assembled.combine c first (.combine b second third)
    rw [← List.append_assoc] at right
    have bound : (below ++ above ++ highest).length ≤ wordLimit := by
      rwa [List.length_append, List.length_append]
    obtain ⟨sound, holds⟩ := left.spec bound
    obtain ⟨soundly, held⟩ := right.spec bound
    have same := holds.agrees held rfl
    exact ⟨same, same.ranksAlike sound soundly, holds.definesAlike sound soundly held rfl⟩

theorem menu_assembled :
    ((new 0 .default).add .menu "menu.css").Assembled [(StyleSource.menuText, "menu.css")] :=
  .load (.new 0 .default) (load_eq_ok.mpr ⟨.menu, StyleSource.ofText_menu, rfl⟩)

theorem menu_index :
    NodeIndex.ofTree ((new 0 .default).add .menu "menu.css").tree RuleNode.isStyled =
      ⟨⟨[(.tag "li", [2, 5]), (.id "nav", [3])]⟩⟩ := by
  decide +kernel

theorem menus_assembled : menus.Assembled
    [(StyleSource.menuText, "menu.css"), (StyleSource.overlayText, "overlay.css")] :=
  .load menu_assembled (load_eq_ok.mpr ⟨.overlay, StyleSource.ofText_overlay, rfl⟩)

/-- The layers of the menu from two sheets. -/
theorem combine_agrees_menu :
    let lower := (StyleSource.menuText, "menu.css")
    let upper := (StyleSource.overlayText, "overlay.css")
    let base := (new 0 .default).add .menu "menu.css"
    let overlay := (new 1 .default).add .overlay "overlay.css"
    (∃ fresh, (new 3 base.config).loadAll [lower, upper] = .ok fresh ∧
      (base.combine overlay 2).Agrees fresh ∧ (base.combine overlay 2).RanksAlike fresh ∧
      (base.combine overlay 2).DefinesAlike fresh) ∧
    ∀ {top : Sheet} {highest : List (String × String)}, top.Assembled highest →
      1 + 1 + highest.length ≤ wordLimit → ∀ a b c : Nat,
      ((base.combine overlay 2).combine top a).Agrees (base.combine (overlay.combine top b) c) ∧
      ((base.combine overlay 2).combine top a).RanksAlike
        (base.combine (overlay.combine top b) c) ∧
      (Counted ([lower, upper] ++ highest) → ((base.combine overlay 2).combine top a).DefinesAlike
        (base.combine (overlay.combine top b) c)) := by
  intro lower upper base overlay
  have second : overlay.Assembled [upper] :=
    .load (.new 1 .default) (load_eq_ok.mpr ⟨.overlay, StyleSource.ofText_overlay, rfl⟩)
  have counted : Counted [lower, upper] := by
    rw [Counted, readable_read StyleSource.ofText_menu, readable_read StyleSource.ofText_overlay]
    decide
  obtain ⟨⟨fresh, loaded, agrees, ranks, defines⟩, associative⟩ :=
    combine_agrees menu_assembled second (by decide) 2 3
  exact ⟨⟨fresh, loaded, agrees, ranks, defines counted⟩, associative⟩

end Cascade.Sheet

/-! No list that is handed out is pending, and what was built stays as it is.
What a definition holds has the content that its signature means, and no such content is pending.
A build leaves nothing pending in the tree, so the next build finds nothing to do. -/
namespace Cascade

namespace PropertyValue
variable {t : InstanceTables} {keyframes : Table String Keyframes} {v : PropertyValue}

def Resolved (v : PropertyValue) : Prop := v.isPending = false

theorem resolved_of_content {declared : DeclaredValue}
    (same : v.content = declared.resolved t keyframes) : v.Resolved := by
  rcases v with value | ⟨raw, _ | items⟩ | ⟨raw, _ | items⟩ | ⟨raw, _ | items⟩ <;>
    rcases declared with value | ⟨_ | _ | _, raw'⟩ <;>
    first | rfl | simp [content, DeclaredValue.resolved] at same

theorem build_resolved (resolved : v.Resolved) (store : InstanceStore) :
    v.build t keyframes store = (v, store) := by
  rcases v with value | ⟨raw, _ | items⟩ | ⟨raw, _ | items⟩ | ⟨raw, _ | items⟩ <;>
    first | rfl | cases resolved

end PropertyValue

namespace Sheet
open PropertyValue

section Values
variable {t : InstanceTables} {keyframes : Table String Keyframes}

/-- What has the content of declared values is resolved. -/
theorem every_resolved {d : Dictionary PropertyValue} {declared : Dictionary DeclaredValue}
    (same : d.mapValues content = declared.mapValues (DeclaredValue.resolved t keyframes)) :
    d.Every Resolved := by
  intro p q known
  have slot := congrArg (Dictionary.get? · p) same
  simp only [Dictionary.get?_mapValues, known, Option.map_some] at slot
  obtain ⟨original, -, equal⟩ := Option.map_eq_some_iff.mp slot.symm
  exact resolved_of_content (congrArg Property.value equal).symm

theorem buildProperties_resolved {d : Dictionary PropertyValue} (resolved : d.Every Resolved)
    (store : InstanceStore) (places : List Longhand) :
    buildProperties t keyframes store d places = (d, store) := by
  induction places with
  | nil => rfl
  | cons first rest ih =>
      cases known : d.get? first with
      | none => rw [buildProperties, known, ih]
      | some property =>
          have same : d.replace first (property.withValue property.value) = d :=
            Dictionary.replace_self known
          simp only [buildProperties, known, build_resolved (resolved first property known), same,
            ih]

theorem buildNodes_resolved {nodes : List (RuleNode PropertyValue)}
    (resolved : ∀ node ∈ nodes, node.properties.Every Resolved) (store : InstanceStore) :
    buildNodes t keyframes store nodes = (nodes, store) := by
  induction nodes with
  | nil => rfl
  | cons node rest ih =>
      obtain ⟨here, others⟩ := List.forall_mem_cons.mp resolved
      simp only [buildNodes, buildProperties_resolved here, ih others]

end Values

variable {s : Sheet}

theorem definition_resolved (sound : s.Sound) (held : InstanceId → Bool) (d : Document)
    (e : ElementId) : (s.definition held d e).1.value.properties.Every Resolved :=
  every_resolved (definition_spec sound held d e).1

theorem Built.resolved (built : s.Built) :
    ∀ node ∈ s.tree.nodes.toList, node.properties.Every Resolved := by
  refine nodes_every fun n p q known => ?_
  exact resolved_of_content (built.settled n p q known)

/-- A sheet that was just built is built as it is. -/
theorem build_build (sound : s.Sound) : s.build.build = s.build := by
  obtain ⟨-, built, -⟩ := build_spec sound
  rw [build_eq s.build, buildNodes_resolved built.resolved, ← built.styled_eq, ← built.complete_eq]
  rfl

/-- Every definition of an assembled sheet is resolved, as is every dictionary of its tree once it
is built, and a second build right after the first one changes nothing. -/
theorem assembled_settles {texts : List (String × String)} (assembled : s.Assembled texts) :
    (∀ held d e, (s.definition held d e).1.value.properties.Every Resolved) ∧
    (∀ node ∈ s.build.tree.nodes.toList, node.properties.Every Resolved) ∧
    s.build.build = s.build := by
  have sound := assembled.sound
  exact ⟨definition_resolved sound, (build_spec sound).2.1.resolved, build_build sound⟩

/-- One source over a sheet that was built and asked for a font effect. Its list is pending. -/
theorem assembled_settles_effects :
    let text := "a \x7b font-effect: glow(2px), shadow \x7d"
    let asked := (new 0 .default).build.asked (.fontEffects "glow")
    ∃ s, asked.load text "effects.css" = .ok s ∧
      (∀ held d e, (s.definition held d e).1.value.properties.Every Resolved) ∧
      (∀ node ∈ s.build.tree.nodes.toList, node.properties.Every Resolved) ∧
      s.build.build = s.build := by
  intro text asked
  have readable : (StyleSource.ofText text).toOption.isSome = true := by decide +kernel
  obtain ⟨source, read⟩ : ∃ source, StyleSource.ofText text = .ok source := by
    cases read : StyleSource.ofText text with
    | error e => simp [read, Except.toOption] at readable
    | ok source => exact ⟨source, rfl⟩
  have loaded : asked.load text "effects.css" = .ok (asked.add source "effects.css") :=
    load_eq_ok.mpr ⟨source, read, rfl⟩
  exact ⟨_, loaded, assembled_settles (.load (.lookup _ (.build (.new 0 .default))) loaded)⟩

end Sheet
end Cascade
