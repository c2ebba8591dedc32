import Cascade.Proofs.Instance.Unplaced
import Cascade.Proofs.Sheet.Combining
import Cascade.Proofs.Source.Joining
/-!
Sources in one file and in two.

Rules that stand further down post the same at later places, and in whatever layer they are loaded.
Trees that echo each other still do after postings of corresponding ranks.
-/
namespace Cascade

namespace Sheet

def Offer.moved (file : String) (places lines : Nat) (o : Offer) : Offer :=
  { o with order := o.order + places, source := ⟨file, o.source.line + lines⟩ }

theorem settings_moved (lines : Nat) (d : Declaration) :
    (d.moved lines).settings = d.settings := rfl

theorem offers_cons (file : String) (order : Nat) (d : Declaration) (rest : List Declaration) :
    offers file order (d :: rest) = offers file order [d] ++ offers file (order + 1) rest := by
  simp [offers]

-- A count that stays below its limit can be moved.
theorem offers_moved (file other : String) (places lines order : Nat)
    {declarations : List Declaration} (room : order + places + declarations.length ≤ wordLimit) :
    offers other (order + places) (declarations.map (.moved lines)) =
      (offers file order declarations).map (.moved other places lines) := by
  induction declarations generalizing order with
  | nil => rfl
  | cons d rest ih =>
      rw [List.length_cons] at room
      have next := ih (order + 1) (by omega)
      have here : offers other (order + places) [d.moved lines] =
          (offers file order [d]).map (.moved other places lines) := by
        have count : min wordLimit (order + places) = min wordLimit order + places := by omega
        simp only [offers, List.zipIdx_cons, List.zipIdx_nil, List.flatMap_cons, List.flatMap_nil,
          settings_moved]
        cases d.settings with
        | error e => rfl
        | ok settings => simp [Offer.moved, Declaration.moved, count]
      rw [List.map_cons, offers_cons, offers_cons file, List.map_append, here, ← next,
        Nat.add_right_comm]

end Sheet

namespace Posting

def moved (file : String) (layer places lines : Nat) (i : Posting) : Posting :=
  ⟨i.selector, layer, i.offers.map (.moved file places lines)⟩

theorem ofRules_append (file : String) (layer order : Nat) (rules others : List StyleRule) :
    ofRules file layer order (rules ++ others) = ofRules file layer order rules ++
      ofRules file layer (order + (rules.flatMap StyleRule.declarations).length) others := by
  induction rules generalizing order with
  | nil => rfl
  | cons rule rest ih =>
      rw [List.cons_append, ofRules, ih, ofRules, List.append_assoc, List.flatMap_cons,
        List.length_append, Nat.add_assoc]

theorem ofRules_moved (file other : String) (layer upper places lines order : Nat)
    {rules : List StyleRule}
    (room : order + places + (rules.flatMap StyleRule.declarations).length ≤ wordLimit) :
    ofRules other upper (order + places) (rules.map (.moved lines)) =
      (ofRules file layer order rules).map (moved other upper places lines) := by
  induction rules generalizing order with
  | nil => rfl
  | cons rule rest ih =>
      rw [List.flatMap_cons, List.length_append] at room
      have next := ih (order + rule.declarations.length) (by omega)
      have here : order + places + rule.declarations.length ≤ wordLimit := by omega
      have offers := Sheet.offers_moved file other places lines order here
      have first : ofRule other upper (order + places) (rule.moved lines) =
          (ofRule file layer order rule).map (moved other upper places lines) := by
        simp [ofRule, StyleRule.moved, offers, moved]
      rw [List.map_cons, ofRules, ofRules, List.map_append, first, ← next, Nat.add_right_comm]
      simp [StyleRule.moved]

theorem mem_ofRules {file : String} {layer order : Nat} {rules : List StyleRule} {i : Posting}
    (member : i ∈ ofRules file layer order rules) : i.layer = layer ∧
      ∀ o ∈ i.offers, o.order < order + (rules.flatMap StyleRule.declarations).length := by
  induction rules generalizing order with
  | nil => simp [ofRules] at member
  | cons rule rest ih =>
      rw [List.flatMap_cons, List.length_append]
      rcases List.mem_append.mp member with here | later
      · obtain ⟨s, -, rfl⟩ := List.mem_map.mp here
        refine ⟨rfl, fun o offered => ?_⟩
        obtain ⟨place, d, found, made⟩ := Sheet.mem_offers.mp offered
        have bound := (List.getElem?_eq_some_iff.mp found).1
        have count := made.order
        omega
      · obtain ⟨same, below⟩ := ih later
        refine ⟨same, fun o offered => ?_⟩
        have bound := below o offered
        omega

/-- Offers of corresponding ranks come to the same values at a selector. -/
theorem moved_echoes {R : Precedence → Precedence → Prop} (faithful : Precedence.Faithful R)
    {i : Posting} {file : String} {layer places lines : Nat}
    (ranks : ∀ o ∈ i.offers, R ⟨o.important, .ofSelector i.selector, i.layer, o.order⟩
      ⟨o.important, .ofSelector i.selector, layer, o.order + places⟩) :
    i.properties.Echoes R (i.moved file layer places lines).properties := by
  have offer (o : Sheet.Offer) (member : o ∈ i.offers) : (i.ranked o).Echoes R
      ((i.moved file layer places lines).ranked (o.moved file places lines)) :=
    ⟨rfl, ranks o member⟩
  rw [properties_eq, properties_eq, moved, List.foldl_map]
  exact List.foldl_rel Dictionary.echoes_empty fun o member _ _ same =>
    same.set faithful (offer o member) o.property

end Posting

theorem RuleTree.posted_echoes {R : Precedence → Precedence → Prop}
    (faithful : Precedence.Faithful R) {file : String} {layer places lines : Nat}
    {postings : List Posting}
    (ranks : ∀ i ∈ postings, ∀ o ∈ i.offers,
      R ⟨o.important, .ofSelector i.selector, i.layer, o.order⟩
        ⟨o.important, .ofSelector i.selector, layer, o.order + places⟩)
    {t u : RuleTree DeclaredValue} (echoes : t.Echoes R u) :
    (t.posted postings).Echoes R (u.posted (postings.map (.moved file layer places lines))) := by
  rw [posted, posted, List.foldl_map]
  exact List.foldl_rel echoes fun i member _ _ same =>
    same.insert faithful i.selector (Posting.moved_echoes faithful (ranks i member))

theorem RuleTree.Echoes.ofRules {R : Precedence → Precedence → Prop}
    (faithful : Precedence.Faithful R) {t u : RuleTree DeclaredValue} (echoes : t.Echoes R u)
    (layer upper places : Nat) {rules : List StyleRule}
    (room : places + (rules.flatMap StyleRule.declarations).length ≤ wordLimit)
    (ranks : ∀ important s order, order < (rules.flatMap StyleRule.declarations).length →
      R ⟨important, s, layer, order⟩ ⟨important, s, upper, order + places⟩)
    (file other : String) (lines : Nat) :
    (t.posted (Posting.ofRules file layer 0 rules)).Echoes R
      (u.posted (Posting.ofRules other upper places (rules.map (.moved lines)))) := by
  have space : 0 + places + (rules.flatMap StyleRule.declarations).length ≤ wordLimit := by
    rwa [Nat.zero_add]
  have moved := Posting.ofRules_moved file other layer upper places lines 0 space
  rw [Nat.zero_add] at moved
  rw [moved]
  refine posted_echoes faithful (fun i member o offered => ?_) echoes
  obtain ⟨rfl, below⟩ := Posting.mem_ofRules member
  apply ranks
  have := below o offered
  omega

/-! Splitting a source.
A source styles elements as its two parts do, loaded one over the other. What the second part
declares is later in the one case and in a later layer in the other, and nothing else is ever
compared. -/

/-- The precedences of two layers, the lower one with `count` places, and of one layer that has the
declarations of both. What is below keeps its precedence. -/
inductive Precedence.Spliced (layer count : Nat) : Precedence → Precedence → Prop where
  | below {p : Precedence} : p.layer < layer → Spliced layer count p p
  | lower (important : Bool) (s : Specificity) {order : Nat} : order < count →
      Spliced layer count ⟨important, s, layer, order⟩ ⟨important, s, layer, order⟩
  | upper (important : Bool) (s : Specificity) (order : Nat) :
      Spliced layer count ⟨important, s, layer + 1, order⟩ ⟨important, s, layer, order + count⟩

theorem Precedence.spliced_faithful (layer count : Nat) : Faithful (Spliced layer count) := by
  intro a a' b b' first second
  cases first <;> cases second <;> simp only [rank, Prod.Lex.toLex_lt_toLex] <;> grind

namespace Sheet
open PropertyValue

structure TablesAgree (s t : Sheet) : Prop where
  tables : s.tables.Agrees t.tables
  keyframes : s.keyframes.mapValues Keyframes.unplaced = t.keyframes.mapValues Keyframes.unplaced

theorem TablesAgree.refl (s : Sheet) : s.TablesAgree s := ⟨⟨rfl, rfl, rfl⟩, rfl⟩

theorem TablesAgree.add {s t : Sheet} (agree : s.TablesAgree t) (source : StyleSource)
    (file other : String) (lines : Nat) :
    (s.add source file).TablesAgree (t.add (source.moved lines) other) := by
  refine ⟨⟨agree.tables.registry, ?_, ?_⟩, ?_⟩
  · simp only [Sheet.add, StyleSource.decoratorRules_moved, List.foldl_map]
    exact Table.foldl_insert_agree agree.tables.specifications _ _ fun rule =>
      DecoratorSpecification.ofRule_moved rule file other lines
  · simp only [Sheet.add, StyleSource.spriteSheetRules_moved, List.foldl_map]
    exact List.foldl_rel (r := fun a b : SpriteTable => a.unplaced = b.unplaced)
      agree.tables.sprites fun rule _ _ _ known => SpriteTable.add_moved known rule file other lines
  · simp only [Sheet.add, StyleSource.keyframesRules_moved, List.foldl_map]
    exact Table.foldl_insert_agree agree.keyframes _ _ fun rule =>
      Keyframes.ofRule_moved rule file other lines

theorem add_followedBy_tables (s : Sheet) (source other : StyleSource) (file : String) :
    (s.add (source.followedBy other) file).tables = ((s.add source file).add other file).tables ∧
    (s.add (source.followedBy other) file).keyframes =
      ((s.add source file).add other file).keyframes := by
  simp only [tables, add, StyleSource.decoratorRules_followedBy,
    StyleSource.spriteSheetRules_followedBy, StyleSource.keyframesRules_followedBy,
    List.foldl_append, and_self]

theorem add_followedBy_agrees (s : Sheet) (source other : StyleSource)
    (lowest highest name : String) (lines : Nat) :
    ((s.add source lowest).add other highest).TablesAgree
      (s.add (source.followedBy (other.moved lines)) name) := by
  obtain ⟨tables, keyframes⟩ := add_followedBy_tables s source (other.moved lines) name
  have below := (TablesAgree.refl s).add source lowest name 0
  rw [source.moved_zero] at below
  obtain ⟨agrees, frames⟩ := below.add other highest name lines
  rw [← tables] at agrees
  rw [← keyframes] at frames
  exact ⟨agrees, frames⟩

theorem Assembled.skeleton_echoes {s : Sheet} {texts : List (String × String)}
    (assembled : s.Assembled texts) (room : s.layers < wordLimit) (count : Nat) :
    s.skeleton.Echoes (Precedence.Spliced s.layers count) s.skeleton := by
  apply RuleTree.Echoes.refl assembled.sound.skeleton
  intro n p q known
  exact .below (assembled.layersBelow room n p q known)

theorem Assembled.add_echoes {s : Sheet} {texts : List (String × String)}
    (assembled : s.Assembled texts) (room : s.layers + 1 < wordLimit) {source other : StyleSource}
    (short : source.declarations.length + other.declarations.length ≤ wordLimit)
    (lowest highest name : String) (lines : Nat) :
    ((s.add source lowest).add other highest).skeleton.Echoes
      (Precedence.Spliced s.layers source.declarations.length)
      (s.add (source.followedBy (other.moved lines)) name).skeleton := by
  have next : (s.add source lowest).layers = s.layers + 1 := min_eq_right room.le
  rw [add_posted, add_posted, add_posted, next, StyleSource.styleRules_followedBy,
    Posting.ofRules_append, RuleTree.posted_append, other.styleRules_moved, Nat.zero_add]
  rw [source.declarations_length, other.declarations_length] at short
  rw [source.declarations_length]
  generalize size : (source.styleRules.flatMap StyleRule.declarations).length = count at short ⊢
  have faithful := Precedence.spliced_faithful s.layers count
  have kept := assembled.skeleton_echoes (Nat.lt_of_succ_lt room) count
  -- The first source keeps its layer and its places; the second one comes after it in both.
  have early : 0 + (source.styleRules.flatMap StyleRule.declarations).length ≤ wordLimit := by
    omega
  have lower := kept.ofRules faithful s.layers s.layers 0 early
    (fun important specificity order bound => .lower important specificity (size ▸ bound))
    lowest name 0
  rw [← source.styleRules_moved, source.moved_zero] at lower
  exact lower.ofRules faithful (s.layers + 1) s.layers count short
    (fun important specificity order _ => .upper important specificity order) highest name lines

/-- What the sheets define and have by name differs in ranks and places at most. Lists come to the
same as well, unless a registered type looks at the places of sprites. -/
structure StylesAlike (s t : Sheet) : Prop where
  declared : ∀ held holds d e,
    ((s.definition held d e).1.value.properties.mapValues PropertyValue.declared).unplaced =
      ((t.definition holds d e).1.value.properties.mapValues PropertyValue.declared).unplaced
  content : s.config.registry.Blind → ∀ held holds d e,
    ((s.definition held d e).1.value.properties.mapValues fun v => v.content.unplaced).unplaced =
      ((t.definition holds d e).1.value.properties.mapValues fun v => v.content.unplaced).unplaced
  keyframes : ∀ name, (s.keyframes.get? name).map Keyframes.unplaced =
    (t.keyframes.get? name).map Keyframes.unplaced
  specifications : ∀ name, (s.specifications.get? name).map DecoratorSpecification.unplaced =
    (t.specifications.get? name).map DecoratorSpecification.unplaced
  sprites : ∀ name, (s.sprites.get? name).map Sprite.unplaced =
    (t.sprites.get? name).map Sprite.unplaced

theorem TablesAgree.alike {s t u v : Sheet} (agree : s.TablesAgree t) (first : s.Alike u)
    (second : t.Alike v) : u.TablesAgree v := by
  obtain ⟨tables, keyframes⟩ := agree
  rw [first.tables, second.tables] at tables
  rw [first.keyframes, second.keyframes] at keyframes
  exact ⟨tables, keyframes⟩

theorem TablesAgree.stylesAlike {R : Precedence → Precedence → Prop}
    (faithful : Precedence.Faithful R) {s t : Sheet} (agree : s.TablesAgree t)
    (echoes : s.skeleton.Echoes R t.skeleton) (sound : s.Sound) (built : s.Built)
    (soundly : t.Sound) (ready : t.Built) : s.StylesAlike t := by
  have gathered (d : Document) (e : ElementId) :
      (s.skeleton.gathered (s.signature d e)).unplaced =
        (t.skeleton.gathered (t.signature d e)).unplaced := by
    rw [signature_eq sound built, signature_eq soundly ready, echoes.styled]
    exact (echoes.gathered faithful _).unplaced
  refine ⟨?_, ?_, ?_, ?_, ?_⟩
  · intro held holds d e
    rw [definition_declared sound, definition_declared soundly, gathered]
  · intro blind held holds d e
    have values : ValueContent.unplaced ∘ DeclaredValue.resolved s.tables s.keyframes =
        ValueContent.unplaced ∘ DeclaredValue.resolved t.tables t.keyframes :=
      funext (DeclaredValue.resolved_unplaced agree.tables blind agree.keyframes)
    have split : (fun v : PropertyValue => v.content.unplaced) =
      ValueContent.unplaced ∘ PropertyValue.content := rfl
    rw [split, ← Dictionary.mapValues_mapValues, ← Dictionary.mapValues_mapValues,
      (definition_spec sound held d e).1, (definition_spec soundly holds d e).1, meaning, meaning,
      Dictionary.mapValues_mapValues, Dictionary.mapValues_mapValues,
      Dictionary.unplaced_mapValues, Dictionary.unplaced_mapValues, gathered, values]
  · exact Table.get_agree agree.keyframes
  · exact Table.get_agree agree.tables.specifications
  · exact Table.get_agree (SpriteTable.mk.inj agree.tables.sprites).2

/-- A source and its two parts, loaded one over the other, lead to sheets that style alike. -/
theorem load_split {s : Sheet} {texts : List (String × String)} (assembled : s.Assembled texts)
    (room : s.layers + 1 < wordLimit) {a b : String} (closed : StyleSource.Closed a)
    {first second : StyleSource} (one : StyleSource.ofText a = .ok first)
    (two : StyleSource.ofText b = .ok second)
    (short : first.declarations.length + second.declarations.length ≤ wordLimit)
    (lowest highest name : String) :
    ∃ lower upper whole, s.load a lowest = .ok lower ∧ lower.load b highest = .ok upper ∧
      s.load (a ++ "\n" ++ b) name = .ok whole ∧ ∀ lookups others,
        (upper.build.askedAll lookups).StylesAlike (whole.build.askedAll others) := by
  have joined := StyleSource.ofText_join closed one two
  have below : s.load a lowest = .ok (s.add first lowest) := load_eq_ok.mpr ⟨first, one, rfl⟩
  have above : (s.add first lowest).load b highest =
      .ok ((s.add first lowest).add second highest) := load_eq_ok.mpr ⟨second, two, rfl⟩
  have single : s.load (a ++ "\n" ++ b) name =
      .ok (s.add (first.followedBy (second.moved (1 + Token.newlines a.toList))) name) :=
    load_eq_ok.mpr ⟨_, joined, rfl⟩
  refine ⟨_, _, _, below, above, single, fun lookups others => ?_⟩
  have sound := load_sound (load_sound assembled.sound below) above
  have soundly := load_sound assembled.sound single
  obtain ⟨last, built, ours⟩ := built_spec sound lookups
  obtain ⟨final, ready, theirs⟩ := built_spec soundly others
  have agree := add_followedBy_agrees s first second lowest highest name
    (1 + Token.newlines a.toList)
  have echoes := assembled.add_echoes room short lowest highest name
    (1 + Token.newlines a.toList)
  rw [ours.skeleton, theirs.skeleton] at echoes
  exact (agree.alike ours theirs).stylesAlike (Precedence.spliced_faithful _ _) echoes last built
    final ready

/-- The layers of the menu in one source, with the built-in types, which look at no places. -/
theorem load_split_menu :
    let s := new 0 .default
    s.config.registry.Blind ∧ s.layers + 1 < wordLimit ∧
    StyleSource.Closed StyleSource.menuText ∧
    ∃ lower upper whole, s.load StyleSource.menuText "first.css" = .ok lower ∧
      lower.load StyleSource.overlayText "second.css" = .ok upper ∧
      s.load (StyleSource.menuText ++ "\n" ++ StyleSource.overlayText) "both.css" = .ok whole ∧
      ∀ lookups others,
        (upper.build.askedAll lookups).StylesAlike (whole.build.askedAll others) := by
  intro s
  have split := load_split (.new 0 .default) (by decide) StyleSource.closed_menu
    StyleSource.ofText_menu StyleSource.ofText_overlay (by decide) "first.css" "second.css"
    "both.css"
  exact ⟨Registry.builtin_blind, by decide, StyleSource.closed_menu, split⟩

end Sheet
end Cascade
