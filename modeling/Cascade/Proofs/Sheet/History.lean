import Cascade.Proofs.Property.Expanding
import Cascade.Proofs.Sheet.Building
/-!
Sheets as what their sources say, one after the other.

Each rule of each source posts its declarations at each of its selectors. All postings in order
give the outline of the tree, and all at-rules in order give the tables.
-/
namespace Cascade

def Sheet.Offer.ranked (o : Sheet.Offer) (s : Selector) (layer : Nat) : Property DeclaredValue :=
  ⟨o.value, ⟨o.important, .ofSelector s, layer, o.order⟩, o.source⟩

/-- What a rule of some layer offers at one of its selectors. -/
structure Posting where
  selector : Selector
  layer : Nat
  offers : List Sheet.Offer

namespace Posting

def path (i : Posting) : List Qualifier := RuleTree.pathOf i.selector

def ranked (i : Posting) (o : Sheet.Offer) : Property DeclaredValue := o.ranked i.selector i.layer

def properties (i : Posting) : Dictionary DeclaredValue :=
  (Sheet.cascade (.ofSelector i.selector) i.layer i.offers).mapValues PropertyValue.declared

def raised (i : Posting) (offset : Nat) : Posting := { i with layer := i.layer + offset }

def ofRule (file : String) (layer order : Nat) (rule : StyleRule) : List Posting :=
  rule.selectors.map fun s => ⟨s, layer, Sheet.offers file order rule.declarations⟩

def ofRules (file : String) (layer order : Nat) : List StyleRule → List Posting
  | [] => []
  | rule :: rest =>
    ofRule file layer order rule ++ ofRules file layer (order + rule.declarations.length) rest

def ofSources (layer : Nat) : List (StyleSource × String) → List Posting
  | [] => []
  | (source, file) :: rest => ofRules file layer 0 source.styleRules ++ ofSources (layer + 1) rest

theorem ofSources_append (layer : Nat) (sources others : List (StyleSource × String)) :
    ofSources layer (sources ++ others) =
      ofSources layer sources ++ ofSources (layer + sources.length) others := by
  induction sources generalizing layer with
  | nil => rfl
  | cons source rest ih =>
      have next : layer + 1 + rest.length = layer + (source :: rest).length := by
        rw [List.length_cons, Nat.add_assoc, Nat.add_comm 1]
      rw [List.cons_append, ofSources, ofSources, ih, next, List.append_assoc]

theorem properties_eq (i : Posting) : i.properties =
    i.offers.foldl (fun held o => held.set o.property (i.ranked o)) .empty := by
  have step (offers : List Sheet.Offer) (held : Dictionary PropertyValue) :
      (offers.foldl (fun held o => held.set o.property
        ⟨o.value.pending, ⟨o.important, .ofSelector i.selector, i.layer, o.order⟩, o.source⟩)
        held).mapValues PropertyValue.declared =
      offers.foldl (fun held o => held.set o.property (i.ranked o))
        (held.mapValues PropertyValue.declared) := by
    induction offers generalizing held with
    | nil => rfl
    | cons o rest ih =>
        rw [List.foldl_cons, List.foldl_cons, ih, Dictionary.mapValues_set]
        simp only [Property.withValue, PropertyValue.declared_pending, ranked,
          Sheet.Offer.ranked]
  rw [properties, Sheet.cascade, step, Dictionary.mapValues_empty]

theorem properties_greatest (i : Posting) (p : Longhand) :
    Property.Greatest (fun q => ∃ o ∈ i.offers, o.property = p ∧ i.ranked o = q)
      (i.properties.get? p) := by
  let made (o : Sheet.Offer) := if o.property = p then some (i.ranked o) else none
  have offer (d : Dictionary DeclaredValue) (o : Sheet.Offer) :
      (d.set o.property (i.ranked o)).get? p = Property.cascaded (d.get? p) (made o) := by
    rw [Dictionary.get?_set]
    by_cases same : o.property = p
    · have here : made o = some (i.ranked o) := if_pos same
      rw [if_pos same, same, here]
      rfl
    · have elsewhere : made o = none := if_neg same
      rw [if_neg same, elsewhere, Property.cascaded_none]
  have folded := Property.Greatest.folded (fun d : Dictionary DeclaredValue => d.get? p) made offer
    (Dictionary.get?_empty p) i.offers
  rw [properties_eq]
  apply folded.congr
  intro q
  simp [made]

end Posting

namespace Outline

def posted (o : Outline DeclaredValue) (postings : List Posting) : Outline DeclaredValue :=
  postings.foldl (fun o i => o.insert i.path i.properties) o

theorem posted_append (o : Outline DeclaredValue) (postings others : List Posting) :
    o.posted (postings ++ others) = (o.posted postings).posted others := by
  rw [posted, List.foldl_append]
  rfl

theorem posted_concat (o : Outline DeclaredValue) (front : List Posting) (i : Posting) :
    o.posted (front ++ [i]) = (o.posted front).insert i.path i.properties := by
  rw [posted_append]
  rfl

theorem growAll_properties {V : Type} (o : Outline V) (front path : List Qualifier) :
    (o.growAll front path).properties = o.properties := by
  induction path generalizing o front with
  | nil => rfl
  | cons q rest ih => exact ih (o.grow front q) (front ++ [q])

theorem insert_properties {V : Type} (o : Outline V) (path other : List Qualifier)
    (d : Dictionary V) : (o.insert path d).properties other =
      if other = path then (o.properties path).merge d else o.properties other := by
  simp only [insert, offer, growAll_properties]

/-- What stands at a path is the greatest of what the postings at that path put first. -/
theorem posted_greatest (postings : List Posting) (path : List Qualifier) (p : Longhand) :
    Property.Greatest
      (fun q => ∃ i, (i ∈ postings ∧ i.path = path) ∧ i.properties.get? p = some q)
      (((empty.posted postings).properties path).get? p) := by
  let made (i : Posting) := if i.path = path then i.properties.get? p else none
  have offer (o : Outline DeclaredValue) (i : Posting) :
      ((o.insert i.path i.properties).properties path).get? p =
        Property.cascaded ((o.properties path).get? p) (made i) := by
    rw [insert_properties]
    by_cases same : i.path = path
    · have here : made i = i.properties.get? p := if_pos same
      rw [if_pos same.symm, same, Dictionary.get_merge, here]
    · have elsewhere : made i = none := if_neg same
      rw [if_neg (Ne.symm same), elsewhere, Property.cascaded_none]
  have bare : ((empty : Outline DeclaredValue).properties path).get? p = none :=
    Dictionary.get?_empty p
  have folded := Property.Greatest.folded
    (fun o : Outline DeclaredValue => (o.properties path).get? p) made offer bare postings
  apply folded.congr
  intro q
  simp [made, and_assoc]

end Outline

namespace RuleTree

def posted (t : RuleTree DeclaredValue) (postings : List Posting) : RuleTree DeclaredValue :=
  postings.foldl (fun t i => (t.insert i.selector i.properties).2) t

theorem posted_append (t : RuleTree DeclaredValue) (postings others : List Posting) :
    t.posted (postings ++ others) = (t.posted postings).posted others := by
  rw [posted, List.foldl_append]
  rfl

theorem posted_outline {t : RuleTree DeclaredValue} (valid : t.WellFormed)
    (postings : List Posting) : (t.posted postings).outline = t.outline.posted postings := by
  induction postings generalizing t with
  | nil => rfl
  | cons i rest ih =>
      obtain ⟨kept, outline⟩ := insert_spec valid i.selector i.properties
      have others := ih kept
      rw [outline] at others
      exact others

end RuleTree

namespace Sheet
open PropertyValue

theorem addRule_posted (file : String) (layer order : Nat) (t : RuleTree PropertyValue)
    (rule : StyleRule) : (addRule file layer order t rule).mapValues declared =
      (t.mapValues declared).posted (Posting.ofRule file layer order rule) := by
  rw [addRule, Posting.ofRule]
  induction rule.selectors generalizing t with
  | nil => rfl
  | cons s rest ih =>
      rw [List.foldl_cons, ih, RuleTree.insert_mapValues]
      rfl

theorem addRules_posted (file : String) (layer order : Nat) (t : RuleTree PropertyValue)
    (rules : List StyleRule) : (addRules file layer order t rules).mapValues declared =
      (t.mapValues declared).posted (Posting.ofRules file layer order rules) := by
  induction rules generalizing t order with
  | nil => rfl
  | cons rule rest ih =>
      rw [addRules, ih, addRule_posted, Posting.ofRules, RuleTree.posted_append]

/-- What a source adds to the tree are its postings, in order. -/
theorem add_posted (s : Sheet) (source : StyleSource) (file : String) :
    (s.add source file).skeleton =
      s.skeleton.posted (Posting.ofRules file s.layers 0 source.styleRules) := by
  rw [add_skeleton, addRules_posted]
  rfl

def keyframesOf (sources : List (StyleSource × String)) : List (String × Keyframes) :=
  sources.flatMap fun (source, file) =>
    source.keyframesRules.map fun rule => (rule.name, .ofRule rule file)

def specificationsOf (sources : List (StyleSource × String)) :
    List (String × DecoratorSpecification) :=
  sources.flatMap fun (source, file) =>
    source.decoratorRules.map fun rule => (rule.name, .ofRule rule file)

def spriteSheetsOf (sources : List (StyleSource × String)) : List SpriteSheet :=
  sources.flatMap fun (source, file) =>
    source.spriteSheetRules.flatMap fun rule => rule.sheets file

def spritesOf (sources : List (StyleSource × String)) : List (String × Sprite) :=
  sources.flatMap fun (source, file) =>
    source.spriteSheetRules.flatMap fun rule => rule.sprites file

/-- The sheet has everything that the sources say, in layers from 0 on, and nothing else. -/
structure Holds (s : Sheet) (sources : List (StyleSource × String)) : Prop where
  layers : s.layers = sources.length
  outline : s.skeleton.outline = Outline.empty.posted (Posting.ofSources 0 sources)
  keyframes : s.keyframes = .ofList (keyframesOf sources)
  specifications : s.specifications = .ofList (specificationsOf sources)
  sprites : s.sprites = .ofLists (spriteSheetsOf sources) (spritesOf sources)

theorem Alike.holds {s t : Sheet} (same : s.Alike t) {sources : List (StyleSource × String)}
    (holds : s.Holds sources) : t.Holds sources :=
  ⟨same.layers ▸ holds.layers, same.skeleton ▸ holds.outline, same.keyframes ▸ holds.keyframes,
    same.specifications ▸ holds.specifications, same.sprites ▸ holds.sprites⟩

theorem outline_empty {V : Type} : (RuleTree.empty : RuleTree V).outline = Outline.empty := by
  have leaf (n : RuleNodeId) : (RuleTree.empty : RuleTree V).children n = [] := by
    by_cases first : n = RuleTree.root <;> simp [RuleTree.children, RuleTree.find_empty, first]
  have bare (n : RuleNodeId) : (RuleTree.empty : RuleTree V).held n = .empty := by
    by_cases first : n = RuleTree.root <;> simp [RuleTree.held, RuleTree.find_empty, first]
  ext1
  · funext path
    cases leads : (RuleTree.empty : RuleTree V).at? path <;>
      simp [RuleTree.outline, Outline.empty, leads, leaf]
  · funext path
    cases leads : (RuleTree.empty : RuleTree V).at? path <;>
      simp [RuleTree.outline, Outline.empty, leads, bare]

theorem new_holds (owner : Nat) (config : SheetConfig) : (new owner config).Holds [] := by
  refine ⟨rfl, ?_, rfl, rfl, rfl⟩
  rw [skeleton, RuleTree.outline_mapValues]
  simp only [new, outline_empty]
  simp [Outline.mapValues, Outline.empty, Outline.posted, Posting.ofSources,
    Dictionary.mapValues_empty]

theorem addSprites_eq (file : String) (rules : List SpriteSheetRule) (sheets : List SpriteSheet)
    (sprites : List (String × Sprite)) :
    rules.foldl (fun table rule => table.add rule file) (SpriteTable.ofLists sheets sprites) =
      .ofLists (sheets ++ rules.flatMap fun rule => rule.sheets file)
        (sprites ++ rules.flatMap fun rule => rule.sprites file) := by
  induction rules generalizing sheets sprites with
  | nil => simp
  | cons rule rest ih => simp [SpriteTable.add_ofLists, ih]

theorem add_holds {s : Sheet} (sound : s.Sound) {sources : List (StyleSource × String)}
    (holds : s.Holds sources) (room : sources.length < wordLimit) (source : StyleSource)
    (file : String) : (s.add source file).Holds (sources ++ [(source, file)]) := by
  refine ⟨?_, ?_, ?_, ?_, ?_⟩
  · rw [List.length_append, List.length_singleton, add, holds.layers]
    exact min_eq_right room
  · rw [add_posted, RuleTree.posted_outline sound.skeleton, holds.outline,
      ← Outline.posted_append, Posting.ofSources_append, holds.layers, Nat.zero_add]
    simp [Posting.ofSources]
  · simp [add, holds.keyframes, keyframesOf, ← Table.foldl_insert_ofList, List.foldl_map]
  · simp [add, holds.specifications, specificationsOf, ← Table.foldl_insert_ofList, List.foldl_map]
  · simp [add, holds.sprites, spriteSheetsOf, spritesOf, addSprites_eq]

end Sheet

/-! Layers over layers.
Merging an outline that postings built raises the postings by the number of layers below and
repeats them. This needs room: a layer that reaches its limit would no longer be above another
one. -/

theorem foldl_adjoin_adjoin {α : Type} [DecidableEq α] (xs ys : List α) (x : α) :
    (adjoin ys x).foldl adjoin xs = adjoin (ys.foldl adjoin xs) x := by
  by_cases known : x ∈ ys
  · have there := (mem_foldl_adjoin xs ys x).mpr (Or.inr known)
    simp [adjoin, known, there]
  · rw [adjoin, if_neg known, List.foldl_append, List.foldl_cons, List.foldl_nil]

namespace Outline
variable {V W : Type}

theorem mapValues_merge (f : V → W) (o other : Outline V) (offset : Nat) :
    (o.merge other offset).mapValues f = (o.mapValues f).merge (other.mapValues f) offset := by
  ext1
  · rfl
  · funext path
    simp only [mapValues, merge, Dictionary.importFrom, Dictionary.mapValues_merge,
      Dictionary.mapValues_shifted]

theorem merge_empty (o : Outline V) (offset : Nat) : o.merge empty offset = o := by
  ext1
  · rfl
  · funext path
    simp only [merge, empty, Dictionary.importFrom_empty]

/-- The last insertion into the outline above may as well come after the merge. -/
theorem merge_insert (o other : Outline V) {offset bound : Nat}
    (room : bound + offset ≤ wordLimit + 1) (path : List Qualifier) {d : Dictionary V}
    (below : (other.properties path).LayersBelow bound) (under : d.LayersBelow bound) :
    o.merge (other.insert path d) offset =
      (o.merge other offset).insert path (d.shifted offset) := by
  have grown (front rest : List Qualifier) (u : Outline V) :
      o.merge (u.growAll front rest) offset = (o.merge u offset).growAll front rest := by
    induction rest generalizing front u with
    | nil => rfl
    | cons q rest ih =>
        have step : o.merge (u.grow front q) offset = (o.merge u offset).grow front q := by
          ext1
          · funext place
            by_cases here : place = front <;> simp [merge, grow, here, foldl_adjoin_adjoin]
          · rfl
        rw [growAll, ih, step]
        rfl
  ext1
  · have lists := congrArg children (grown [] path other)
    exact lists
  · funext place
    simp only [merge, insert_properties]
    by_cases here : place = path
    · subst here
      simp only [↓reduceIte, Dictionary.importFrom, Dictionary.merge_assoc,
        Dictionary.shifted_merge room below under]
    · simp only [if_neg here]

end Outline

namespace Posting

theorem properties_layers (i : Posting) {bound : Nat} (under : i.layer < bound) :
    i.properties.LayersBelow bound := by
  intro p q known
  obtain ⟨o, -, -, rfl⟩ := (i.properties_greatest p).among q known
  exact under

theorem properties_raised (i : Posting) {offset : Nat} (room : i.layer + offset ≤ wordLimit) :
    i.properties.shifted offset = (i.raised offset).properties := by
  have ranks (o : Sheet.Offer) : (i.ranked o).shifted offset = (i.raised offset).ranked o := by
    have sum : saturatingAdd wordLimit i.layer offset = i.layer + offset := min_eq_right room
    simp only [Property.shifted, Precedence.shifted, ranked, Sheet.Offer.ranked, raised, sum]
  have step (offers : List Sheet.Offer) (held : Dictionary DeclaredValue)
      (under : held.LayersBelow (i.layer + 1)) :
      (offers.foldl (fun held o => held.set o.property (i.ranked o)) held).shifted offset =
        offers.foldl (fun held o => held.set o.property ((i.raised offset).ranked o))
          (held.shifted offset) := by
    induction offers generalizing held with
    | nil => rfl
    | cons o rest ih =>
        have same : (i.ranked o).precedence.layer < i.layer + 1 := Nat.lt_succ_self i.layer
        have space : i.layer + 1 + offset ≤ wordLimit + 1 := by omega
        have kept := under.set (p := o.property) same
        have moved := Dictionary.shifted_set space under (p := o.property) same
        rw [List.foldl_cons, List.foldl_cons, ih _ kept, moved, ranks]
  have bare : (Dictionary.empty : Dictionary DeclaredValue).LayersBelow (i.layer + 1) := by
    intro p q known
    simp at known
  rw [properties_eq, properties_eq, step i.offers .empty bare, Dictionary.shifted_empty]
  rfl

theorem ofSources_layers {layer : Nat} {sources : List (StyleSource × String)} {i : Posting}
    (member : i ∈ ofSources layer sources) : i.layer < layer + sources.length := by
  have ruled {file : String} {n order : Nat} {rules : List StyleRule}
      (listed : i ∈ ofRules file n order rules) : i.layer = n := by
    induction rules generalizing order with
    | nil => simp [ofRules] at listed
    | cons rule rest ih =>
        rcases List.mem_append.mp listed with here | later
        · obtain ⟨s, -, rfl⟩ := List.mem_map.mp here
          rfl
        · exact ih later
  induction sources generalizing layer with
  | nil => simp [ofSources] at member
  | cons source rest ih =>
      rw [List.length_cons]
      rcases List.mem_append.mp member with here | later
      · rw [ruled here]
        omega
      · have := ih later
        omega

-- Counting from a later layer on raises every posting.
theorem ofSources_raised (layer offset : Nat) (sources : List (StyleSource × String)) :
    (ofSources layer sources).map (fun i => i.raised offset) =
      ofSources (layer + offset) sources := by
  have ruled (file : String) (order : Nat) (rules : List StyleRule) (n : Nat) :
      (ofRules file n order rules).map (fun i => i.raised offset) =
        ofRules file (n + offset) order rules := by
    induction rules generalizing order with
    | nil => rfl
    | cons rule rest ih =>
        rw [ofRules, List.map_append, ih, ofRules, ofRule, ofRule, List.map_map]
        rfl
  induction sources generalizing layer with
  | nil => rfl
  | cons source rest ih =>
      rw [ofSources, List.map_append, ruled, ih, ofSources, Nat.add_right_comm]

end Posting

namespace Outline

theorem posted_layers {postings : List Posting} {bound : Nat}
    (under : ∀ i ∈ postings, i.layer < bound) (path : List Qualifier) :
    ((empty.posted postings).properties path).LayersBelow bound := by
  intro p q known
  obtain ⟨i, ⟨member, -⟩, held⟩ := (posted_greatest postings path p).among q known
  exact i.properties_layers (under i member) p q held

/-- Merging what postings built repeats them, raised. -/
theorem merge_posted (o : Outline DeclaredValue) {postings : List Posting} {offset bound : Nat}
    (under : ∀ i ∈ postings, i.layer < bound) (room : bound + offset ≤ wordLimit + 1) :
    o.merge (empty.posted postings) offset =
      o.posted (postings.map fun i => i.raised offset) := by
  -- The last posting moves out of the merge, and the others are as far below the limit.
  induction postings using List.reverseRecOn with
  | nil => exact merge_empty o offset
  | append_singleton front i ih =>
      have early : ∀ j ∈ front, j.layer < bound := fun j member =>
        under j (List.mem_append_left _ member)
      have last : i.layer < bound := under i (by simp)
      have fits : i.layer + offset ≤ wordLimit := by omega
      rw [posted_concat, List.map_append, List.map_cons, List.map_nil, posted_concat, ← ih early,
        merge_insert o _ room i.path (posted_layers early i.path) (i.properties_layers last),
        i.properties_raised fits]
      rfl

end Outline
end Cascade
