import Cascade.Proofs.Sheet.Events
import Cascade.Proofs.Source.Succeeding
/-!
The cascade over a list of sources.

A declaration that competes for a property is known by its layer, by its place among all
declarations of its source, and by a selector of its rule. Candidates of equal precedence come from
one declaration, so they are equal.
-/
namespace Cascade

def StyleSource.declarations (source : StyleSource) : List (StyleRule × Declaration) :=
  source.styleRules.flatMap fun rule => rule.declarations.map fun d => (rule, d)

theorem StyleSource.declarations_length (source : StyleSource) : source.declarations.length =
    (source.styleRules.flatMap StyleRule.declarations).length := by
  simp [declarations, List.length_flatMap]

/-- A declaration of one of the sources sets the property to the value. Its rule has the selector,
which ranks it, and its layer and place count from 0 on. -/
inductive Declares (sources : List (StyleSource × String)) (p : Longhand) (s : Selector) :
    Property DeclaredValue → Prop where
  | intro {layer place : Nat} {source : StyleSource} {file : String} {rule : StyleRule}
      {d : Declaration} {settings : Settings} {value : DeclaredValue} :
      sources[layer]? = some (source, file) → source.declarations[place]? = some (rule, d) →
      s ∈ rule.selectors → d.settings = .ok settings → (p, value) ∈ settings →
      Declares sources p s ⟨value, ⟨d.important, .ofSelector s, layer, place⟩, ⟨file, d.line⟩⟩

/-- Candidates that tie are copies of one declaration. -/
theorem Declares.untied {sources : List (StyleSource × String)} {p : Longhand} {s t : Selector}
    {a b : Property DeclaredValue} (first : Declares sources p s a)
    (second : Declares sources p t b) (tie : a.rank = b.rank) : a = b := by
  have same := Precedence.rank_injective tie
  cases first with
  | @intro layer place source file rule d settings v here found _ success member =>
      cases second with
      | @intro layer' place' source' file' rule' d' settings' w there met _ also set =>
          obtain ⟨-, -, rfl, rfl⟩ := Precedence.mk.inj same
          obtain ⟨rfl, rfl⟩ := Prod.mk.inj (Option.some.inj (here.symm.trans there))
          obtain ⟨rfl, rfl⟩ := Prod.mk.inj (Option.some.inj (found.symm.trans met))
          obtain rfl := Except.ok.inj (success.symm.trans also)
          obtain rfl := Declaration.settings_unique success member set
          rw [Property.mk.injEq]
          exact ⟨rfl, same, rfl⟩

theorem exists_getElem_append {α : Type} (xs ys : List α) (P : Nat → α → Prop) :
    (∃ n a, (xs ++ ys)[n]? = some a ∧ P n a) ↔
      (∃ n a, xs[n]? = some a ∧ P n a) ∨ ∃ n a, ys[n]? = some a ∧ P (xs.length + n) a := by
  constructor
  · rintro ⟨n, a, found, holds⟩
    by_cases early : n < xs.length
    · exact Or.inl ⟨n, a, by rwa [List.getElem?_append_left early] at found, holds⟩
    · have late : xs.length ≤ n := Nat.le_of_not_lt early
      rw [List.getElem?_append_right late] at found
      exact Or.inr ⟨n - xs.length, a, found, by rwa [Nat.add_sub_cancel' late]⟩
  · rintro (⟨n, a, found, holds⟩ | ⟨n, a, found, holds⟩)
    · have bound := (List.getElem?_eq_some_iff.mp found).1
      exact ⟨n, a, by rwa [List.getElem?_append_left bound], holds⟩
    · refine ⟨xs.length + n, a, ?_, holds⟩
      rw [List.getElem?_append_right (Nat.le_add_right _ _), Nat.add_sub_cancel_left, found]

namespace Sheet

structure Offer.Of (o : Offer) (file : String) (place : Nat) (d : Declaration) : Prop where
  setting : ∃ settings, d.settings = .ok settings ∧ (o.property, o.value) ∈ settings
  important : o.important = d.important
  order : o.order = min wordLimit place
  source : o.source = ⟨file, d.line⟩

theorem mem_offers {file : String} {order : Nat} {declarations : List Declaration} {o : Offer} :
    o ∈ offers file order declarations ↔
      ∃ place d, declarations[place]? = some d ∧ o.Of file (order + place) d := by
  rw [offers, List.mem_flatMap]
  constructor
  · rintro ⟨⟨d, number⟩, numbered, member⟩
    obtain ⟨least, found⟩ := List.mk_mem_zipIdx_iff_le_and_getElem?_sub.mp numbered
    refine ⟨number - order, d, found, ?_⟩
    rw [Nat.add_sub_cancel' least]
    cases success : d.settings with
    | error e => simp [success] at member
    | ok settings =>
        simp only [success] at member
        obtain ⟨⟨property, value⟩, set, rfl⟩ := List.mem_map.mp member
        exact ⟨⟨settings, success, set⟩, rfl, rfl, rfl⟩
  · rintro ⟨place, d, found, ⟨settings, success, set⟩, important, count, source⟩
    refine ⟨(d, order + place), ?_, ?_⟩
    · rw [List.mk_mem_zipIdx_iff_le_and_getElem?_sub]
      simpa using found
    · simp only [success]
      exact List.mem_map.mpr ⟨(o.property, o.value), set, by rw [← important, ← count, ← source]⟩

end Sheet

namespace Posting
variable {s : Selector}

def Offered (postings : List Posting) (s : Selector) (P : Nat → Sheet.Offer → Prop) : Prop :=
  ∃ i ∈ postings, i.selector = s ∧ ∃ o ∈ i.offers, P i.layer o

/-- Some declaration under the selector makes an offer with what is asked of it. The declarations
of a file are counted from `order` on. -/
def Made (file : String) (order : Nat) (declarations : List (StyleRule × Declaration))
    (s : Selector) (P : Sheet.Offer → Prop) : Prop :=
  ∃ place a, declarations[place]? = some a ∧ s ∈ a.1.selectors ∧
    ∃ o : Sheet.Offer, o.Of file (order + place) a.2 ∧ P o

theorem offered_append (postings others : List Posting) (P : Nat → Sheet.Offer → Prop) :
    Offered (postings ++ others) s P ↔ Offered postings s P ∨ Offered others s P := by
  simp only [Offered, List.mem_append, or_and_right, exists_or]

theorem made_append {file : String} {order : Nat}
    (declarations others : List (StyleRule × Declaration)) (P : Sheet.Offer → Prop) :
    Made file order (declarations ++ others) s P ↔
      Made file order declarations s P ∨ Made file (order + declarations.length) others s P := by
  simp only [Made, Nat.add_assoc]
  exact exists_getElem_append declarations others _

theorem offered_ofRule (P : Nat → Sheet.Offer → Prop) (file : String) (layer order : Nat)
    (rule : StyleRule) : Offered (ofRule file layer order rule) s P ↔
      Made file order (rule.declarations.map fun d => (rule, d)) s (P layer) := by
  constructor
  · rintro ⟨i, member, same, o, offered, holds⟩
    obtain ⟨t, listed, rfl⟩ := List.mem_map.mp member
    obtain ⟨place, d, found, known⟩ := Sheet.mem_offers.mp offered
    exact ⟨place, (rule, d), by simp [found], same ▸ listed, o, known, holds⟩
  · rintro ⟨place, a, found, listed, o, known, holds⟩
    rw [List.getElem?_map] at found
    obtain ⟨d, there, rfl⟩ := Option.map_eq_some_iff.mp found
    exact ⟨_, List.mem_map.mpr ⟨s, listed, rfl⟩, rfl, o,
      Sheet.mem_offers.mpr ⟨place, d, there, known⟩, holds⟩

-- The induction is on the rules, with the count of the declarations before them left open.
theorem offered_ofRules (P : Nat → Sheet.Offer → Prop) (file : String) (layer order : Nat)
    (rules : List StyleRule) : Offered (ofRules file layer order rules) s P ↔
      Made file order (rules.flatMap fun rule => rule.declarations.map fun d => (rule, d)) s
        (P layer) := by
  induction rules generalizing order with
  | nil => simp [Offered, Made, ofRules]
  | cons rule rest ih =>
      rw [ofRules, offered_append, offered_ofRule, ih, List.flatMap_cons, made_append,
        List.length_map]

theorem offered_ofSources (P : Nat → Sheet.Offer → Prop) (layer : Nat)
    (sources : List (StyleSource × String)) : Offered (ofSources layer sources) s P ↔
      ∃ n source, sources[n]? = some source ∧
        Made source.2 0 source.1.declarations s (P (layer + n)) := by
  induction sources generalizing layer with
  | nil => simp [Offered, ofSources]
  | cons source rest ih =>
      have first : Made source.2 0 source.1.declarations s (P layer) ↔
          ∃ n other, [source][n]? = some other ∧
            Made other.2 0 other.1.declarations s (P (layer + n)) := by
        constructor
        · intro known
          exact ⟨0, source, rfl, known⟩
        · rintro ⟨_ | n, other, found, known⟩
          · obtain rfl := Option.some.inj found
            exact known
          · simp at found
      have split := exists_getElem_append [source] rest
        fun n other => Made other.2 0 other.1.declarations s (P (layer + n))
      rw [ofSources, offered_append, offered_ofRules, ih]
      refine Iff.trans (or_congr first ?_) split.symm
      simp only [List.length_singleton, Nat.add_assoc]

/-- Where no count of declarations reaches its limit, the postings offer the candidates. -/
theorem declares_iff {sources : List (StyleSource × String)}
    (short : ∀ source ∈ sources, source.1.declarations.length ≤ wordLimit + 1) {p : Longhand}
    {q : Property DeclaredValue} : Declares sources p s q ↔
      Offered (ofSources 0 sources) s fun layer o => o.property = p ∧ o.ranked s layer = q := by
  have counted {layer place : Nat} {source : StyleSource × String} {a : StyleRule × Declaration}
      (here : sources[layer]? = some source) (found : source.1.declarations[place]? = some a) :
      min wordLimit place = place := by
    have few := short source (List.mem_of_getElem? here)
    have bound := (List.getElem?_eq_some_iff.mp found).1
    exact min_eq_right (Nat.lt_succ_iff.mp (Nat.lt_of_lt_of_le bound few))
  rw [offered_ofSources]
  constructor
  · intro declares
    cases declares with
    | @intro layer place source file rule d settings value here found listed success member =>
        let o : Sheet.Offer := ⟨p, value, d.important, min wordLimit place, ⟨file, d.line⟩⟩
        have made : o.Of file (0 + place) d :=
          ⟨⟨settings, success, member⟩, rfl, by rw [Nat.zero_add], rfl⟩
        have ranks : o.ranked s (0 + layer) =
            ⟨value, ⟨d.important, .ofSelector s, layer, place⟩, ⟨file, d.line⟩⟩ := by
          simp only [Sheet.Offer.ranked, o, counted here found, Nat.zero_add]
        exact ⟨layer, (source, file), here, place, (rule, d), found, listed, o, made, rfl, ranks⟩
  · rintro ⟨layer, ⟨source, file⟩, here, place, ⟨rule, d⟩, found, listed, o, made, rfl, rfl⟩
    obtain ⟨settings, success, member⟩ := made.setting
    have order := made.order
    rw [Nat.zero_add, counted here found] at order
    rw [Sheet.Offer.ranked, made.important, order, made.source, Nat.zero_add]
    exact .intro here found listed success member

end Posting
end Cascade

/-! The cascade from texts to definitions.
Main statement: after loads and a build, the definition of an element has a property exactly if
some declaration of a matching rule sets it, and then it is the greatest of these declarations. -/
namespace Cascade.Sheet
open PropertyValue

def readable (texts : List (String × String)) : List (StyleSource × String) :=
  texts.filterMap fun (text, name) =>
    (StyleSource.ofText text).toOption.map fun source => (source, name)

def loads (texts : List (String × String)) : List SheetEvent :=
  texts.map fun (text, name) => .load text name

theorem readable_read {text : String} {source : StyleSource}
    (read : StyleSource.ofText text = .ok source) (name : String) (rest : List (String × String)) :
    readable ((text, name) :: rest) = (source, name) :: readable rest := by
  simp [readable, read, Except.toOption]

theorem readable_refused {text : String} {e : ParseError}
    (refused : StyleSource.ofText text = .error e) (name : String) (rest : List (String × String)) :
    readable ((text, name) :: rest) = readable rest := by
  simp [readable, refused, Except.toOption]

theorem loads_hold {s : Sheet} (sound : s.Sound) {sources : List (StyleSource × String)}
    (holds : s.Holds sources) (texts : List (String × String))
    (few : sources.length + (readable texts).length ≤ wordLimit) :
    (s.run (loads texts)).Holds (sources ++ readable texts) := by
  -- A text that cannot be read takes no layer, so the room is counted in sources.
  induction texts generalizing s sources with
  | nil => simpa [readable, loads, run] using holds
  | cons first rest ih =>
      obtain ⟨text, name⟩ := first
      have next := after_sound sound (.load text name)
      rw [loads, List.map_cons, run_cons]
      cases read : StyleSource.ofText text with
      | error e =>
          rw [readable_refused read] at few ⊢
          rw [after_refused read]
          exact ih sound holds few
      | ok source =>
          rw [readable_read read, List.length_cons] at few
          rw [after_read read] at next ⊢
          have room : sources.length < wordLimit := by omega
          have grown := add_holds sound holds room source name
          have left :
              (sources ++ [(source, name)]).length + (readable rest).length ≤ wordLimit := by
            rw [List.length_append, List.length_singleton]
            omega
          rw [readable_read read, List.append_cons]
          exact ih next grown left

/-- The declared values of a definition are those that the nodes of its signature hold. -/
theorem definition_declared {s : Sheet} (sound : s.Sound) (held : InstanceId → Bool) (d : Document)
    (e : ElementId) : (s.definition held d e).1.value.properties.mapValues declared =
      s.skeleton.gathered (s.signature d e) := by
  have forgets : declared = ValueContent.declared ∘ content :=
    funext fun v => v.declared_content.symm
  have back : ValueContent.declared ∘ DeclaredValue.resolved s.tables s.keyframes = id :=
    funext fun v => v.declared_resolved s.tables s.keyframes
  rw [forgets, ← Dictionary.mapValues_mapValues, (definition_spec sound held d e).1, meaning,
    Dictionary.mapValues_mapValues, back, Dictionary.mapValues_id]

theorem declared_build {s : Sheet} (sound : s.Sound) (held : InstanceId → Bool) (d : Document)
    (e : ElementId) :
    let styled := NodeIndex.ofTree s.tree RuleNode.isStyled
    (s.build.definition held d e).1.value.properties.mapValues declared =
      (s.tree.gathered (styled.applicable s.tree d e)).mapValues declared := by
  obtain ⟨kept, -, alike⟩ := build_spec sound
  rw [definition_declared kept, alike.skeleton, signature_build sound, skeleton,
    RuleTree.gathered_mapValues]

/-- In a built sheet a property of a definition is the greatest that a path selecting the element
holds. -/
theorem definition_greatest {s : Sheet} (sound : s.Sound) (built : s.Built)
    (held : InstanceId → Bool) {d : Document} (valid : d.WellFormed) (e : ElementId)
    (p : Longhand) : Property.Greatest
      (fun q => ∃ path, d.Selected path e ∧ (s.skeleton.outline.properties path).get? p = some q)
      (((s.definition held d e).1.value.get? p).map fun q => q.withValue q.value.declared) := by
  have styled := NodeIndex.styled_greatest sound.skeleton valid e p
  rw [Definition.get?, ← Dictionary.get?_mapValues, definition_declared sound,
    signature_eq sound built]
  exact styled

theorem Holds.definition {s : Sheet} {sources : List (StyleSource × String)}
    (holds : s.Holds sources) (sound : s.Sound) (built : s.Built)
    (short : ∀ source ∈ sources, source.1.declarations.length ≤ wordLimit + 1)
    (held : InstanceId → Bool) {d : Document} (valid : d.WellFormed) (e : ElementId)
    (p : Longhand) : Property.Greatest
      (fun q => ∃ selector, Declares sources p selector q ∧
        d.Selected (RuleTree.pathOf selector) e)
      (((s.definition held d e).1.value.get? p).map fun q => q.withValue q.value.declared) := by
  have paths := definition_greatest sound built held valid e p
  rw [holds.outline] at paths
  -- The winner of a path is one of its postings, and that of a posting one of its offers.
  have postings := paths.refine fun path =>
    (Outline.posted_greatest _ path p).refine fun i => i.properties_greatest p
  apply postings.congr
  intro q
  simp only [Posting.declares_iff short]
  constructor
  · rintro ⟨path, selected, i, ⟨member, rfl⟩, offered⟩
    exact ⟨i.selector, ⟨i, member, rfl, offered⟩, selected⟩
  · rintro ⟨selector, ⟨i, member, rfl, offered⟩, selected⟩
    exact ⟨i.path, selected, i, ⟨member, rfl⟩, offered⟩

/-- A property of an element is the greatest of the declarations that select it, and two that tie
are copies of one. -/
theorem definition_cascades (owner : Nat) (config : SheetConfig) (texts : List (String × String))
    (lookups : List Lookup) (few : (readable texts).length ≤ wordLimit)
    (short : ∀ source ∈ readable texts, source.1.declarations.length ≤ wordLimit) {d : Document}
    (reached : d.Reached) (held : InstanceId → Bool) (e : ElementId) (p : Longhand) :
    let s := ((new owner config).run (loads texts ++ [.build])).askedAll lookups
    Property.Greatest
      (fun q => ∃ selector, Declares (readable texts) p selector q ∧
        d.Selected (RuleTree.pathOf selector) e)
      (((s.definition held d e).1.value.get? p).map fun q => q.withValue q.value.declared) ∧
    ∀ selector other a b, Declares (readable texts) p selector a →
      Declares (readable texts) p other b → a.rank = b.rank → a = b := by
  intro s
  have sound := run_sound (new_sound owner config) (loads texts)
  have limited :
      ([] : List (StyleSource × String)).length + (readable texts).length ≤ wordLimit := by
    rwa [List.length_nil, Nat.zero_add]
  have loaded := loads_hold (new_sound owner config) (new_holds owner config) texts limited
  have split : s = ((new owner config).run (loads texts)).build.askedAll lookups := by
    simp only [s, run_build]
  obtain ⟨final, built, alike⟩ := built_spec sound lookups
  have holds := alike.holds loaded
  rw [← split] at final built holds
  refine ⟨holds.definition final built ?_ held reached.wellformed e p, ?_⟩
  · exact fun source member => Nat.le_succ_of_le (short source member)
  · exact fun selector other a b first second tie => first.untied second tie

def menus : Sheet := ((new 0 .default).add .menu "menu.css").add .overlay "overlay.css"

theorem menus_definition :
    ([Longhand.display, .width, .height].map fun p =>
      ((menus.build.definition (fun _ => false) .nav 2).1.value.get? p).map
        fun q => q.value.declared) =
      [some (.plain (.keyword "inline")),
        some (.plain (.scalar ⟨.ofRatio false 20 1, .px⟩)),
        some (.plain (.scalar ⟨.ofRatio false 5 1, .px⟩))] := by
  have sound : menus.Sound := add_sound (add_sound (new_sound 0 .default) _ _) _ _
  have values (p : Longhand) :
      ((menus.build.definition (fun _ => false) .nav 2).1.value.get? p).map
          (fun q => q.value.declared) =
        ((menus.tree.gathered ((NodeIndex.ofTree menus.tree RuleNode.isStyled).applicable
          menus.tree .nav 2)).get? p).map fun q => q.value.declared := by
    have known := congrArg (fun d => (d.get? p).map Property.value)
      (declared_build sound (fun _ => false) .nav 2)
    simpa [Definition.get?, Property.withValue, Function.comp_def] using known
  simp only [values]
  decide +kernel

/-- Two layers around a source that cannot be read. The second item is displayed as the later layer
says, its width is that of the more specific selector and its height the important one. -/
theorem definition_cascades_menu :
    let texts := [(StyleSource.menuText, "menu.css"), ("p \x7b", "broken.css"),
      (StyleSource.overlayText, "overlay.css")]
    let s := ((new 0 .default).run (loads texts ++ [.build])).askedAll []
    readable texts = [(.menu, "menu.css"), (.overlay, "overlay.css")] ∧
    ([Longhand.display, .width, .height].map fun p =>
      ((s.definition (fun _ => false) .nav 2).1.value.get? p).map fun q => q.value.declared) =
      [some (.plain (.keyword "inline")),
        some (.plain (.scalar ⟨.ofRatio false 20 1, .px⟩)),
        some (.plain (.scalar ⟨.ofRatio false 5 1, .px⟩))] ∧
    ∀ p, Property.Greatest
      (fun q => ∃ selector, Declares (readable texts) p selector q ∧
        Document.nav.Selected (RuleTree.pathOf selector) 2)
      (((s.definition (fun _ => false) .nav 2).1.value.get? p).map
        fun q => q.withValue q.value.declared) ∧
    ∀ selector other a b, Declares (readable texts) p selector a →
      Declares (readable texts) p other b → a.rank = b.rank → a = b := by
  intro texts s
  have broken : StyleSource.ofText "p \x7b" = .error (.ended (.token .braceClose)) := by
    decide +kernel
  have read : readable texts = [(.menu, "menu.css"), (.overlay, "overlay.css")] := by
    rw [readable_read StyleSource.ofText_menu, readable_refused broken,
      readable_read StyleSource.ofText_overlay]
    rfl
  have layered : s = menus.build := by
    change ((new 0 .default).run (loads texts ++ [.build])).askedAll [] = menus.build
    rw [askedAll_nil, run_build, loads, List.map_cons, run_cons, after_read StyleSource.ofText_menu,
      List.map_cons, run_cons, after_refused broken, List.map_cons, run_cons,
      after_read StyleSource.ofText_overlay, List.map_nil, run_nil, menus]
  refine ⟨read, by rw [layered, menus_definition], fun p => ?_⟩
  refine definition_cascades 0 .default texts [] ?_ ?_ Document.nav_reached (fun _ => false) 2 p
  · rw [read]
    decide
  · rw [read]
    decide

end Cascade.Sheet
