import Cascade.Proofs.Instance.Content
import Cascade.Proofs.Rule.Indexing
import Cascade.Sheet.Basic
/-!
What a sheet keeps besides its sources is what its sources say.

A sheet keeps instances, built values and definitions. It is sound if all of these have the content
that its tables and the declared values of its tree give now. Loading, building, combining and
looking up keep a sheet sound, so nothing that was built for earlier tables is ever seen again.
-/
namespace Cascade

namespace Dictionary
variable {V W : Type}

def Every (P : V → Prop) (d : Dictionary V) : Prop := ∀ p q, d.get? p = some q → P q.value

theorem every_empty (P : V → Prop) : (empty : Dictionary V).Every P := by
  intro p q known
  simp at known

theorem Every.imp {P Q : V → Prop} {d : Dictionary V} (every : d.Every P)
    (imp : ∀ v, P v → Q v) : d.Every Q := fun p q known => imp q.value (every p q known)

theorem Every.replace {P : V → Prop} {d : Dictionary V} (every : d.Every P) (p : Longhand)
    {q : Property V} (new : P q.value) : (d.replace p q).Every P := by
  intro other r known
  rw [get?_replace] at known
  split at known
  case isTrue => exact Option.some.inj known ▸ new
  case isFalse => exact every other r known

theorem mapValues_congr {f g : V → W} {d : Dictionary V} (same : d.Every fun v => f v = g v) :
    d.mapValues f = d.mapValues g := by
  apply ext_get
  intro p
  rw [get?_mapValues, get?_mapValues]
  cases known : d.get? p with
  | none => rfl
  | some q => simp only [Option.map_some, same p q known]

theorem mapValues_replace (f : V → W) (d : Dictionary V) (p : Longhand) (q : Property V) :
    (d.replace p q).mapValues f = (d.mapValues f).replace p (q.withValue (f q.value)) := by
  apply ext_get
  intro other
  simp only [get?_mapValues, get?_replace]
  by_cases same : p = other <;> simp [same]

theorem replace_self {d : Dictionary V} {p : Longhand} {q : Property V}
    (known : d.get? p = some q) : d.replace p q = d := by
  apply ext_get
  intro other
  rw [get?_replace]
  split
  case isTrue same => rw [← same, known]
  case isFalse => rfl

end Dictionary

theorem RuleTree.gathered_every {V : Type} {P : V → Prop} {t : RuleTree V}
    (all : ∀ n, (t.held n).Every P) (nodes : List RuleNodeId) : (t.gathered nodes).Every P := by
  intro p q known
  obtain ⟨n, -, here⟩ := (gathered_greatest t nodes p).among q known
  exact all n p q here

namespace Sheet
open PropertyValue

/-- The tree with values as they were declared. -/
def skeleton (s : Sheet) : RuleTree DeclaredValue := s.tree.mapValues declared

/-- What the nodes of a signature come to under the tables of the sheet. -/
def meaning (s : Sheet) (signature : Signature) : Dictionary ValueContent :=
  (s.skeleton.gathered signature).mapValues (DeclaredValue.resolved s.tables s.keyframes)

structure Sound (s : Sheet) : Prop where
  valid : s.tree.WellFormed
  instances : s.instances.Sound s.tables
  current : ∀ n, (s.tree.held n).Every (Current s.tables s.keyframes)
  cached : ∀ entry ∈ s.definitions.entries.entries,
    entry.2.value.properties.mapValues content = s.meaning entry.1

theorem Sound.skeleton {s : Sheet} (sound : s.Sound) : s.skeleton.WellFormed :=
  (RuleTree.mapValues_wellformed declared s.tree).mpr sound.valid

structure Built (s : Sheet) : Prop where
  styled : s.styled = .ofTree s.skeleton RuleNode.isStyled
  complete : s.complete = .ofTree s.skeleton fun _ => true
  settled : ∀ n, (s.tree.held n).Every (Settled s.tables s.keyframes)

/-- Two sheets that the same sources could have led to. -/
structure Alike (s t : Sheet) : Prop where
  config : s.config = t.config
  skeleton : s.skeleton = t.skeleton
  layers : s.layers = t.layers
  keyframes : s.keyframes = t.keyframes
  specifications : s.specifications = t.specifications
  sprites : s.sprites = t.sprites

theorem Alike.refl (s : Sheet) : s.Alike s := ⟨rfl, rfl, rfl, rfl, rfl, rfl⟩

theorem Alike.trans {s t u : Sheet} (first : s.Alike t) (second : t.Alike u) : s.Alike u :=
  ⟨first.config.trans second.config, first.skeleton.trans second.skeleton,
    first.layers.trans second.layers, first.keyframes.trans second.keyframes,
    first.specifications.trans second.specifications, first.sprites.trans second.sprites⟩

theorem Alike.symm {s t : Sheet} (same : s.Alike t) : t.Alike s :=
  ⟨same.config.symm, same.skeleton.symm, same.layers.symm, same.keyframes.symm,
    same.specifications.symm, same.sprites.symm⟩

theorem Alike.tables {s t : Sheet} (same : s.Alike t) : s.tables = t.tables := by
  rw [Sheet.tables, Sheet.tables, same.config, same.specifications, same.sprites]

theorem Alike.meaning {s t : Sheet} (same : s.Alike t) : s.meaning = t.meaning := by
  funext signature
  rw [Sheet.meaning, Sheet.meaning, same.skeleton, same.tables, same.keyframes]

section Values
variable {t : InstanceTables} {keyframes : Table String Keyframes} {store : InstanceStore}

theorem settled_content {d : Dictionary PropertyValue} (settled : d.Every (Settled t keyframes)) :
    d.mapValues content =
      (d.mapValues declared).mapValues (DeclaredValue.resolved t keyframes) := by
  rw [Dictionary.mapValues_mapValues]
  exact Dictionary.mapValues_congr settled

/-- Building the lists of a dictionary keeps what was declared and settles every property asked
for. -/
theorem buildProperties_spec (sound : store.Sound t) {d : Dictionary PropertyValue}
    (current : d.Every (Current t keyframes)) (places : List Longhand) :
    (buildProperties t keyframes store d places).1.mapValues declared = d.mapValues declared ∧
    (buildProperties t keyframes store d places).1.Every (Current t keyframes) ∧
    (buildProperties t keyframes store d places).2.Sound t ∧
    ∀ p, (p ∈ places ∨ ∀ q, d.get? p = some q → q.value.Settled t keyframes) →
      ∀ q, (buildProperties t keyframes store d places).1.get? p = some q →
        q.value.Settled t keyframes := by
  -- A property built once stays settled, as building it again changes nothing.
  induction places generalizing d store with
  | nil =>
      refine ⟨rfl, current, sound, fun p asked => ?_⟩
      exact asked.resolve_left List.not_mem_nil
  | cons first rest ih =>
      cases known : d.get? first with
      | none =>
          simp only [buildProperties, known]
          obtain ⟨same, still, after, settled⟩ := ih sound current
          refine ⟨same, still, after, fun p asked => settled p ?_⟩
          rcases asked with member | before
          · rcases List.mem_cons.mp member with rfl | later
            · exact Or.inr fun q absurd => by simp [known] at absurd
            · exact Or.inl later
          · exact Or.inr before
      | some property =>
          simp only [buildProperties, known]
          obtain ⟨ready, kept⟩ := build_spec sound (current first property known)
          have unchanged := @build_declared t keyframes store property.value
          generalize property.value.build t keyframes store = built at ready kept unchanged ⊢
          have now := current.replace first (q := property.withValue built.1) (Or.inr ready)
          obtain ⟨same, still, after, settled⟩ := ih kept now
          refine ⟨?_, still, after, fun p asked => settled p ?_⟩
          · rw [same, Dictionary.mapValues_replace]
            apply Dictionary.replace_self
            simp [known, Property.withValue, unchanged]
          · by_cases here : first = p
            · apply Or.inr
              intro q known
              rw [Dictionary.get?_replace, if_pos here] at known
              exact Option.some.inj known ▸ ready
            · refine asked.imp (fun member => ?_) fun before q known => ?_
              · exact (List.mem_cons.mp member).resolve_left (Ne.symm here)
              · rw [Dictionary.get?_replace, if_neg here] at known
                exact before q known

theorem buildProperties_settled (sound : store.Sound t) {d : Dictionary PropertyValue}
    (current : d.Every (Current t keyframes)) :
    (buildProperties t keyframes store d Longhand.all).1.Every (Settled t keyframes) := by
  intro p
  exact (buildProperties_spec sound current Longhand.all).2.2.2 p (Or.inl p.mem_all)

theorem buildProperties_content (sound : store.Sound t) {d : Dictionary PropertyValue}
    (current : d.Every (Current t keyframes)) :
    (buildProperties t keyframes store d Longhand.all).1.mapValues content =
      (d.mapValues declared).mapValues (DeclaredValue.resolved t keyframes) := by
  rw [settled_content (buildProperties_settled sound current),
    (buildProperties_spec sound current Longhand.all).1]

theorem buildNodes_spec (sound : store.Sound t) {nodes : List (RuleNode PropertyValue)}
    (current : ∀ node ∈ nodes, node.properties.Every (Current t keyframes)) :
    (buildNodes t keyframes store nodes).1.map (RuleNode.mapValues declared) =
      nodes.map (RuleNode.mapValues declared) ∧
    (∀ node ∈ (buildNodes t keyframes store nodes).1,
      node.properties.Every (Settled t keyframes)) ∧
    (buildNodes t keyframes store nodes).2.Sound t := by
  induction nodes generalizing store with
  | nil => exact ⟨rfl, by simp [buildNodes], sound⟩
  | cons node rest ih =>
      have here := current node List.mem_cons_self
      obtain ⟨same, -, kept, -⟩ := buildProperties_spec sound here Longhand.all
      have ready := buildProperties_settled sound here
      obtain ⟨others, settled, after⟩ :=
        ih kept fun other member => current other (List.mem_cons_of_mem _ member)
      refine ⟨?_, ?_, after⟩
      · simp only [buildNodes, List.map_cons, others, RuleNode.mapValues, same]
      · intro other member
        rcases List.mem_cons.mp member with rfl | later
        · exact ready
        · exact settled other later

end Values
end Sheet

/-! Every operation keeps a sheet sound.
Loading and combining start over with pending lists and empty stores, building settles everything
the tree holds, and a lookup adds only what the tables give. -/

/-- Adding a definition leaves it and some of the entries that were there. -/
theorem DefinitionCache.mem_add {c : DefinitionCache} {held : InstanceId → Bool}
    {signature : Signature} {definition : Definition} {entry : Signature × Shared Definition}
    (member : entry ∈ (c.add held signature definition).2.entries.entries) :
    entry = (signature, (c.add held signature definition).1) ∨ entry ∈ c.entries.entries := by
  apply Table.mem_insert
  simp only [add, pruned] at member
  split at member
  case isTrue => exact (List.mem_filter.mp member).1
  case isFalse => exact member

namespace Sheet
open PropertyValue
variable {s : Sheet}

theorem build_eq (s : Sheet) : s.build =
    { s with
      tree := ⟨(buildNodes s.tables s.keyframes s.instances s.tree.nodes.toList).1.toArray⟩
      styled := .ofTree s.tree RuleNode.isStyled
      complete := .ofTree s.tree fun _ => true
      definitions := s.definitions.cleared
      instances := (buildNodes s.tables s.keyframes s.instances s.tree.nodes.toList).2 } := rfl

theorem held_every {P : PropertyValue → Prop} {nodes : List (RuleNode PropertyValue)}
    (all : ∀ node ∈ nodes, node.properties.Every P) (n : RuleNodeId) :
    (RuleTree.held ⟨nodes.toArray⟩ n).Every P := by
  cases found : RuleTree.find? ⟨nodes.toArray⟩ n with
  | none =>
      simp only [RuleTree.held, found]
      exact Dictionary.every_empty P
  | some node =>
      simp only [RuleTree.held, found]
      apply all node
      simpa using Array.mem_of_getElem? found

theorem nodes_every {P : PropertyValue → Prop} {t : RuleTree PropertyValue}
    (all : ∀ n, (t.held n).Every P) (node : RuleNode PropertyValue)
    (member : node ∈ t.nodes.toList) : node.properties.Every P := by
  obtain ⟨n, found⟩ := Array.getElem?_of_mem (Array.mem_toList_iff.mp member)
  have here := all n
  rwa [RuleTree.held, RuleTree.find?, found] at here

theorem build_spec (sound : s.Sound) : s.build.Sound ∧ s.build.Built ∧ s.build.Alike s := by
  obtain ⟨declarations, settled, store⟩ :=
    buildNodes_spec sound.instances (nodes_every sound.current)
  have skeleton : s.build.skeleton = s.skeleton := by
    rw [Sheet.skeleton, build_eq, RuleTree.mapValues, List.map_toArray, declarations,
      ← List.map_toArray]
    rfl
  -- Values decide nothing about the shape, so the built tree is as well formed as its skeleton.
  have valid : s.build.tree.WellFormed := by
    rw [← RuleTree.mapValues_wellformed declared]
    change s.build.skeleton.WellFormed
    rw [skeleton]
    exact (RuleTree.mapValues_wellformed declared s.tree).mpr sound.valid
  have ready := held_every settled
  refine ⟨⟨valid, store, ?_, ?_⟩, ⟨?_, ?_, ready⟩, rfl, skeleton, rfl, rfl, rfl, rfl⟩
  · exact fun n p q known => Or.inr (ready n p q known)
  · exact fun entry absurd => by simp [build_eq, DefinitionCache.cleared, Table.empty] at absurd
  · rw [skeleton]
    exact (NodeIndex.ofTree_mapValues declared _ _ (RuleNode.isStyled_mapValues declared)).symm
  · rw [skeleton]
    exact (NodeIndex.ofTree_mapValues declared (fun _ => true) (fun _ => true) fun _ => rfl).symm

/-- A tree with every list pending, an empty store and no definition are sound. -/
theorem pending_sound {t : RuleTree PropertyValue} (valid : t.WellFormed)
    (tree : s.tree = t.mapValues reset) (instances : s.instances.Sound s.tables)
    (definitions : s.definitions.entries = .empty) : s.Sound := by
  refine ⟨?_, instances, ?_, ?_⟩
  · rw [tree]
    exact (RuleTree.mapValues_wellformed reset t).mpr valid
  · intro n
    rw [tree, RuleTree.held_mapValues]
    intro p q known
    rw [Dictionary.get?_mapValues] at known
    obtain ⟨old, -, rfl⟩ := Option.map_eq_some_iff.mp known
    exact pending_current s.tables s.keyframes old.value.declared
  · simp [definitions, Table.empty]

theorem addRule_wellformed (file : String) (layer order : Nat) {t : RuleTree PropertyValue}
    (valid : t.WellFormed) (rule : StyleRule) : (addRule file layer order t rule).WellFormed := by
  rw [addRule]
  induction rule.selectors generalizing t with
  | nil => exact valid
  | cons s rest ih => exact ih (RuleTree.insert_spec valid s _).1

theorem addRules_wellformed (file : String) (layer order : Nat) {t : RuleTree PropertyValue}
    (valid : t.WellFormed) (rules : List StyleRule) :
    (addRules file layer order t rules).WellFormed := by
  induction rules generalizing t order with
  | nil => exact valid
  | cons rule rest ih => exact ih _ (addRule_wellformed file layer order valid rule)

theorem new_sound (owner : Nat) (config : SheetConfig) : (new owner config).Sound := by
  have tree : (RuleTree.empty : RuleTree PropertyValue) = RuleTree.empty.mapValues reset := by
    simp [RuleTree.empty, RuleTree.mapValues, RuleNode.mapValues, Dictionary.mapValues_empty]
  exact pending_sound RuleTree.empty_wellformed tree (Cascade.new_sound _ owner) rfl

theorem add_sound (sound : s.Sound) (source : StyleSource) (file : String) :
    (s.add source file).Sound := by
  have valid := addRules_wellformed file s.layers 0 sound.valid source.styleRules
  exact pending_sound valid rfl (cleared_sound _ s.instances) rfl

theorem mapValues_reset_declared (t : RuleTree PropertyValue) :
    (t.mapValues reset).mapValues declared = t.mapValues declared := by
  have back : declared ∘ reset = declared := funext fun v => declared_pending v.declared
  rw [RuleTree.mapValues_mapValues, back]

theorem add_skeleton (s : Sheet) (source : StyleSource) (file : String) :
    (s.add source file).skeleton =
      (addRules file s.layers 0 s.tree source.styleRules).mapValues declared :=
  mapValues_reset_declared _

theorem combine_sound {base overlay : Sheet} (below : base.Sound) (above : overlay.Sound)
    (owner : Nat) : (base.combine overlay owner).Sound := by
  have valid := (RuleTree.merge_spec below.valid above.valid base.layers).1
  exact pending_sound valid rfl (Cascade.new_sound _ owner) rfl

/-- The second sheet has more built for others, or less, but is otherwise the first. -/
def Serves (s t : Sheet) : Prop :=
  t = { s with definitions := t.definitions, instances := t.instances }

theorem Serves.alike {t : Sheet} (serves : s.Serves t) : s.Alike t := by
  rw [serves]
  exact ⟨rfl, rfl, rfl, rfl, rfl, rfl⟩

theorem Serves.built {t : Sheet} (serves : s.Serves t) (built : s.Built) : t.Built := by
  rw [serves]
  exact ⟨built.styled, built.complete, built.settled⟩

theorem Serves.sound {t : Sheet} (serves : s.Serves t) (sound : s.Sound)
    (instances : t.instances.Sound s.tables)
    (cached : ∀ entry ∈ t.definitions.entries.entries,
      entry.2.value.properties.mapValues content = s.meaning entry.1) : t.Sound := by
  rw [serves]
  exact ⟨sound.valid, instances, sound.current, cached⟩

theorem merged_eq_gathered (t : RuleTree PropertyValue) (signature : Signature) :
    signature.foldl (fun held n =>
      match t.find? n with
      | some node => held.merge node.properties
      | none => held) .empty = t.gathered signature := by
  rw [RuleTree.gathered]
  congr 1
  funext held n
  cases found : t.find? n <;> simp [RuleTree.held, found]

theorem compile_spec (sound : s.Sound) (signature : Signature) :
    (s.compile signature).1.properties.mapValues content = s.meaning signature ∧
    (s.compile signature).2.Sound s.tables := by
  have current := RuleTree.gathered_every sound.current signature
  simp only [compile]
  generalize same : List.foldl _ _ signature = merged
  obtain rfl : s.tree.gathered signature = merged :=
    (merged_eq_gathered s.tree signature).symm.trans same
  refine ⟨?_, (buildProperties_spec sound.instances current Longhand.all).2.2.1⟩
  rw [buildProperties_content sound.instances current, meaning, skeleton,
    RuleTree.gathered_mapValues]

-- What a node declares decides whether it is filed, so the indices are those of the tree as well.
theorem Built.styled_eq (built : s.Built) : s.styled = .ofTree s.tree RuleNode.isStyled := by
  rw [built.styled, skeleton]
  exact NodeIndex.ofTree_mapValues _ _ _ (RuleNode.isStyled_mapValues _)

theorem Built.complete_eq (built : s.Built) : s.complete = .ofTree s.tree fun _ => true := by
  rw [built.complete, skeleton]
  exact NodeIndex.ofTree_mapValues _ _ _ fun _ => rfl

/-- Once the sheet is built, a signature is that of the skeleton. -/
theorem signature_eq {s : Sheet} (sound : s.Sound) (built : s.Built) (d : Document)
    (e : ElementId) : s.signature d e =
      (NodeIndex.ofTree s.skeleton RuleNode.isStyled).applicable s.skeleton d e := by
  rw [signature, built.styled, skeleton, NodeIndex.applicable_mapValues sound.valid]

/-- A build files what the tree held before. -/
theorem signature_build (sound : s.Sound) (d : Document) (e : ElementId) :
    s.build.signature d e = (NodeIndex.ofTree s.tree RuleNode.isStyled).applicable s.tree d e := by
  obtain ⟨kept, built, alike⟩ := build_spec sound
  rw [signature_eq kept built, alike.skeleton, skeleton,
    NodeIndex.ofTree_mapValues _ _ _ (RuleNode.isStyled_mapValues _),
    NodeIndex.applicable_mapValues sound.valid]

/-- A definition has the content that its signature means. -/
theorem definition_spec (sound : s.Sound) (held : InstanceId → Bool) (d : Document)
    (e : ElementId) :
    (s.definition held d e).1.value.properties.mapValues content = s.meaning (s.signature d e) ∧
    (s.definition held d e).2.Sound ∧ s.Serves (s.definition held d e).2 := by
  rw [definition]
  cases kept : s.definitions.live? held (s.signature d e) with
  | some shared =>
      dsimp only
      rw [DefinitionCache.live?, Option.filter_eq_some_iff] at kept
      exact ⟨sound.cached _ (Table.mem_of_get kept.1), sound, rfl⟩
  | none =>
      dsimp only
      obtain ⟨means, store⟩ := compile_spec sound (s.signature d e)
      refine ⟨means, Serves.sound (s := s) rfl sound store ?_, rfl⟩
      intro entry member
      rcases DefinitionCache.mem_add member with rfl | old
      · exact means
      · exact sound.cached entry old

theorem decorator_spec (sound : s.Sound) (name : String) :
    (s.decorator? name).1.map Shared.value = s.tables.namedValue? name ∧
    (s.decorator? name).2.Sound ∧ s.Serves (s.decorator? name).2 := by
  rw [decorator?]
  cases known : s.specifications.get? name with
  | none => exact ⟨by simp [InstanceTables.namedValue?, tables, known], sound, rfl⟩
  | some specification =>
      obtain ⟨means, store⟩ := InstanceTables.named_spec sound.instances known
      exact ⟨means, Serves.sound (s := s) rfl sound store sound.cached, rfl⟩

theorem decorators_spec (sound : s.Sound) (raw : String) :
    (s.decorators raw).1.map Shared.value = s.tables.decoratorValues raw ∧
    (s.decorators raw).2.Sound ∧ s.Serves (s.decorators raw).2 := by
  obtain ⟨means, store⟩ := InstanceTables.decorators_spec sound.instances raw
  rw [decorators]
  generalize s.tables.decorators raw s.instances = built at means store ⊢
  exact ⟨means, Serves.sound (s := s) rfl sound store sound.cached, rfl⟩

theorem fontEffects_spec (sound : s.Sound) (raw : String) :
    (s.fontEffects raw).1.map Shared.value = s.tables.fontEffectValues raw ∧
    (s.fontEffects raw).2.Sound ∧ s.Serves (s.fontEffects raw).2 := by
  obtain ⟨means, store⟩ := InstanceTables.fontEffects_spec sound.instances raw
  rw [fontEffects]
  generalize s.tables.fontEffects raw s.instances = built at means store ⊢
  exact ⟨means, Serves.sound (s := s) rfl sound store sound.cached, rfl⟩

end Sheet
end Cascade
