import Cascade.Proofs.Instance.Keying
import Cascade.Proofs.Sheet.Sharing
/-!
Instances from one load to the next.

Builds, definitions and direct questions fill one store, in any order. Whatever they show has the
content that its text gives without a store, and its instances are found in the store that there is
in the end. So what was shown at different times is compared by its keys.
-/
namespace Cascade

/-- What a sheet shows: a value whose list is built, or the decorator of a name. -/
inductive Seen where
  | value (v : PropertyValue)
  | named (name : String) (answer : Option (Shared Decorator))

namespace Seen

/-- Content that is built anew from the tables, item by item. -/
def Transparent (t : InstanceTables) (keyframes : Table String Keyframes) : Seen → Prop
  | .value v => v.content = v.declared.resolved t keyframes
  | .named name answer => answer.map Shared.value = t.namedValue? name

def decorators (t : InstanceTables) : Seen → List (ListItem × Shared Decorator)
  | .value (.decorators raw (some items)) => (t.decoratorUses raw).zip items
  | .named name (some shared) => [(.name name, shared)]
  | _ => []

def fontEffects (t : InstanceTables) : Seen → List ((String × List String) × Shared FontEffect)
  | .value (.fontEffects raw (some items)) => (t.fontEffectUses raw).zip items
  | _ => []

structure Kept (t : InstanceTables) (keyframes : Table String Keyframes) (store : InstanceStore)
    (seen : Seen) : Prop where
  transparent : seen.Transparent t keyframes
  decorators : ∀ item ∈ seen.decorators t, store.Keeps t.decoratorKey? item.1 item.2
  fontEffects : ∀ item ∈ seen.fontEffects t, store.Keeps t.fontEffectKey? item.1 item.2

variable {t : InstanceTables} {keyframes : Table String Keyframes} {store later : InstanceStore}

theorem Kept.mono {seen : Seen} (kept : seen.Kept t keyframes store) (more : store.Extends later) :
    seen.Kept t keyframes later :=
  ⟨kept.transparent, fun item among => (kept.decorators item among).mono more,
    fun item among => (kept.fontEffects item among).mono more⟩

theorem kept_value {v : PropertyValue} (settled : v.Settled t keyframes)
    (filed : v.Filed t store) : (Seen.value v).Kept t keyframes store := by
  refine ⟨settled, ?_, ?_⟩
  · rcases v with value | ⟨raw, _ | items⟩ | ⟨raw, items⟩ | ⟨raw, items⟩
    case decorators.some => exact fun item among => List.forall₂_zip filed among
    all_goals exact fun item none => absurd none List.not_mem_nil
  · rcases v with value | ⟨raw, items⟩ | ⟨raw, _ | items⟩ | ⟨raw, items⟩
    case fontEffects.some => exact fun item among => List.forall₂_zip filed among
    all_goals exact fun item none => absurd none List.not_mem_nil

end Seen

namespace Sheet
open PropertyValue
variable {s : Sheet}

section Values
variable {t : InstanceTables} {keyframes : Table String Keyframes} {store : InstanceStore}

theorem buildProperties_files (sound : store.Sound t) (distinct : store.Distinct)
    {d : Dictionary PropertyValue} (current : d.Every (Current t keyframes))
    (filed : d.Every (Filed t store)) (places : List Longhand) :
    (buildProperties t keyframes store d places).2.Distinct ∧
    (buildProperties t keyframes store d places).1.Every
      (Filed t (buildProperties t keyframes store d places).2) := by
  induction places generalizing d store with
  | nil => exact ⟨distinct, filed⟩
  | cons first rest ih =>
      cases known : d.get? first with
      | none =>
          simp only [buildProperties, known]
          exact ih sound distinct current filed
      | some property =>
          simp only [buildProperties, known]
          obtain ⟨ready, kept⟩ := PropertyValue.build_spec sound (current first property known)
          obtain ⟨still, here⟩ := @build_files t keyframes store property.value sound distinct
            (filed first property known)
          have grows := (property.value.build_stays t keyframes store).grows
          generalize property.value.build t keyframes store = built at ready kept still here grows ⊢
          have others := filed.imp fun v filed => filed.mono grows
          exact ih kept still (current.replace first (Or.inr ready)) (others.replace first here)

theorem buildNodes_grows (t : InstanceTables) (keyframes : Table String Keyframes)
    (nodes : List (RuleNode PropertyValue)) (store : InstanceStore) :
    store.Extends (buildNodes t keyframes store nodes).2 := by
  induction nodes generalizing store with
  | nil => exact .refl store
  | cons node rest ih =>
      have first := (buildProperties_stays t keyframes node.properties Longhand.all store).grows
      exact first.trans (ih _)

theorem buildNodes_files (sound : store.Sound t) (distinct : store.Distinct)
    {nodes : List (RuleNode PropertyValue)}
    (current : ∀ node ∈ nodes, node.properties.Every (Current t keyframes))
    (filed : ∀ node ∈ nodes, node.properties.Every (Filed t store)) :
    (buildNodes t keyframes store nodes).2.Distinct ∧
    ∀ node ∈ (buildNodes t keyframes store nodes).1,
      node.properties.Every (Filed t (buildNodes t keyframes store nodes).2) := by
  induction nodes generalizing store with
  | nil => exact ⟨distinct, by simp [buildNodes]⟩
  | cons node rest ih =>
      obtain ⟨now, others⟩ := List.forall_mem_cons.mp current
      obtain ⟨here, after⟩ := List.forall_mem_cons.mp filed
      obtain ⟨-, -, kept, -⟩ := buildProperties_spec sound now Longhand.all
      obtain ⟨still, first⟩ := buildProperties_files sound distinct now here Longhand.all
      have grows := (buildProperties_stays t keyframes node.properties Longhand.all store).grows
      have onward := buildNodes_grows t keyframes rest
        (buildProperties t keyframes store node.properties Longhand.all).2
      obtain ⟨last, rest_filed⟩ := ih kept still others fun other member =>
        (after other member).imp fun v filed => filed.mono grows
      exact ⟨last, List.forall_mem_cons.mpr ⟨first.imp fun v filed => filed.mono onward,
        rest_filed⟩⟩

end Values

/-- Every instance that a sheet holds is in its store, under a key of its own. -/
structure Keyed (s : Sheet) : Prop where
  sound : s.Sound
  distinct : s.instances.Distinct
  tree : ∀ n, (s.tree.held n).Every (Filed s.tables s.instances)
  cached : ∀ entry ∈ s.definitions.entries.entries,
    entry.2.value.properties.Every (Filed s.tables s.instances)

structure Follows (s after : Sheet) : Prop where
  keyed : after.Keyed
  tables : after.tables = s.tables
  keyframes : after.keyframes = s.keyframes
  grows : s.instances.Extends after.instances

/-- After a load everything is pending and nothing is kept. -/
theorem add_keyed (sound : s.Sound) (source : StyleSource) (file : String) :
    (s.add source file).Keyed where
  sound := add_sound sound source file
  distinct := InstanceStore.distinct_of_bare rfl rfl rfl
  tree n := by
    have held : (s.add source file).tree.held n =
        ((addRules file s.layers 0 s.tree source.styleRules).held n).mapValues reset :=
      RuleTree.held_mapValues reset _ n
    rw [held]
    intro p q known
    rw [Dictionary.get?_mapValues] at known
    obtain ⟨old, -, rfl⟩ := Option.map_eq_some_iff.mp known
    exact pending_filed _ _ old.value.declared
  cached := by simp [add, DefinitionCache.cleared, Table.empty]

theorem build_follows (keyed : s.Keyed) : s.Follows s.build := by
  obtain ⟨sound, -, alike⟩ := build_spec keyed.sound
  obtain ⟨distinct, filed⟩ := buildNodes_files keyed.sound.instances keyed.distinct
    (nodes_every keyed.sound.current) (nodes_every keyed.tree)
  refine ⟨⟨sound, distinct, held_every filed, ?_⟩, alike.tables, alike.keyframes,
    buildNodes_grows s.tables s.keyframes s.tree.nodes.toList s.instances⟩
  simp [build_eq, DefinitionCache.cleared, Table.empty]

-- A lookup only puts more into the store and definitions into the cache.
theorem Serves.follows {t : Sheet} (serves : s.Serves t) (keyed : s.Keyed) (sound : t.Sound)
    (distinct : t.instances.Distinct) (grows : s.instances.Extends t.instances)
    (cached : ∀ entry ∈ t.definitions.entries.entries,
      entry ∈ s.definitions.entries.entries ∨
        entry.2.value.properties.Every (Filed s.tables t.instances)) : s.Follows t := by
  have tables := serves.alike.tables.symm
  have tree : t.tree = s.tree := by rw [serves]
  refine ⟨⟨sound, distinct, ?_, ?_⟩, tables, serves.alike.keyframes.symm, grows⟩
  · rw [tree, tables]
    exact fun n => (keyed.tree n).imp fun v filed => filed.mono grows
  · rw [tables]
    intro entry member
    rcases cached entry member with old | new
    · exact (keyed.cached entry old).imp fun v filed => filed.mono grows
    · exact new

theorem compile_files (keyed : s.Keyed) (signature : Signature) :
    (s.compile signature).2.Distinct ∧
    (s.compile signature).1.properties.Every (Filed s.tables (s.compile signature).2) := by
  rw [compile_eq]
  exact buildProperties_files keyed.sound.instances keyed.distinct
    (RuleTree.gathered_every keyed.sound.current signature)
    (RuleTree.gathered_every keyed.tree signature) Longhand.all

theorem definition_follows (keyed : s.Keyed) (held : InstanceId → Bool) (d : Document)
    (e : ElementId) : s.Follows (s.definition held d e).2 ∧
      (s.definition held d e).1.value.properties.Every
        (Filed s.tables (s.definition held d e).2.instances) := by
  obtain ⟨-, sound, serves⟩ := definition_spec keyed.sound held d e
  rw [definition] at sound serves ⊢
  cases kept : s.definitions.live? held (s.signature d e) with
  | some shared =>
      rw [kept] at sound serves
      rw [DefinitionCache.live?, Option.filter_eq_some_iff] at kept
      exact ⟨serves.follows keyed sound keyed.distinct (.refl _) fun entry old => .inl old,
        keyed.cached _ (Table.mem_of_get kept.1)⟩
  | none =>
      rw [kept] at sound serves
      obtain ⟨distinct, filed⟩ := compile_files keyed (s.signature d e)
      refine ⟨serves.follows keyed sound distinct (s.compile_stays _).grows ?_, filed⟩
      intro entry member
      rcases DefinitionCache.mem_add member with rfl | old
      · exact .inr filed
      · exact .inl old

theorem decorator_follows (keyed : s.Keyed) (name : String) :
    s.Follows (s.decorator? name).2 ∧
      ∀ shared, (s.decorator? name).1 = some shared →
        (s.decorator? name).2.instances.Keeps s.tables.decoratorKey? (.name name) shared := by
  obtain ⟨-, sound, serves⟩ := decorator_spec keyed.sound name
  rw [decorator?] at sound serves ⊢
  cases known : s.specifications.get? name with
  | none =>
      rw [known] at sound serves
      exact ⟨serves.follows keyed sound keyed.distinct (.refl _) fun entry old => .inl old,
        fun shared absurd => by cases absurd⟩
  | some specification =>
      rw [known] at sound serves
      obtain ⟨distinct, kept⟩ :=
        InstanceTables.named_keeps (t := s.tables) keyed.distinct specification name
      have grows :=
        (InstanceTables.named_stays s.tables specification name s.instances).grows
      exact ⟨serves.follows keyed sound distinct grows fun entry old => .inl old, kept⟩

theorem decorators_follows (keyed : s.Keyed) (raw : String) :
    s.Follows (s.decorators raw).2 ∧ Filed s.tables (s.decorators raw).2.instances
      (.decorators raw (some (s.decorators raw).1)) := by
  obtain ⟨-, sound, serves⟩ := decorators_spec keyed.sound raw
  have files := InstanceTables.decorators_files keyed.sound.instances keyed.distinct raw
  have grows := (InstanceTables.decorators_stays s.tables raw s.instances).grows
  rw [decorators] at sound serves ⊢
  generalize s.tables.decorators raw s.instances = built at sound serves files grows ⊢
  exact ⟨serves.follows keyed sound files.distinct grows fun entry old => .inl old, files.kept⟩

theorem fontEffects_follows (keyed : s.Keyed) (raw : String) :
    s.Follows (s.fontEffects raw).2 ∧ Filed s.tables (s.fontEffects raw).2.instances
      (.fontEffects raw (some (s.fontEffects raw).1)) := by
  obtain ⟨-, sound, serves⟩ := fontEffects_spec keyed.sound raw
  have files := InstanceTables.fontEffects_files keyed.sound.instances keyed.distinct raw
  have grows := (InstanceTables.fontEffects_stays s.tables raw s.instances).grows
  rw [fontEffects] at sound serves ⊢
  generalize s.tables.fontEffects raw s.instances = built at sound serves files grows ⊢
  exact ⟨serves.follows keyed sound files.distinct grows fun entry old => .inl old, files.kept⟩

/-- What an event shows: the values of the tree once it is built, those of a definition, and the
answers to direct questions. -/
inductive Shows (s : Sheet) : SheetEvent → Seen → Prop where
  | built {n : RuleNodeId} {p : Longhand} {q : Property PropertyValue} :
      (s.build.tree.held n).get? p = some q → Shows s .build (.value q.value)
  | definition {held : InstanceId → Bool} {d : Document} {e : ElementId} {p : Longhand}
      {q : Property PropertyValue} : (s.definition held d e).1.value.get? p = some q →
        Shows s (.lookup (.definition held d e)) (.value q.value)
  | decorator {name : String} :
      Shows s (.lookup (.decorator name)) (.named name (s.decorator? name).1)
  | decorators {raw : String} :
      Shows s (.lookup (.decorators raw)) (.value (.decorators raw (some (s.decorators raw).1)))
  | fontEffects {raw : String} :
      Shows s (.lookup (.fontEffects raw)) (.value (.fontEffects raw (some (s.fontEffects raw).1)))

def Sees (s : Sheet) : List SheetEvent → Seen → Prop
  | [], _ => False
  | event :: rest, seen => s.Shows event seen ∨ (s.after event).Sees rest seen

theorem Follows.refl (keyed : s.Keyed) : s.Follows s := ⟨keyed, rfl, rfl, .refl _⟩

theorem Follows.trans {t u : Sheet} (first : s.Follows t) (second : t.Follows u) : s.Follows u :=
  ⟨second.keyed, second.tables.trans first.tables, second.keyframes.trans first.keyframes,
    first.grows.trans second.grows⟩

/-- What has the content that declared values mean has that of what it was declared as. -/
theorem settled_of_meaning {t : InstanceTables} {keyframes : Table String Keyframes}
    {d : Dictionary PropertyValue} {declared : Dictionary DeclaredValue}
    (same : d.mapValues content = declared.mapValues (DeclaredValue.resolved t keyframes)) :
    d.Every (Settled t keyframes) := by
  intro p q known
  have slot := congrArg (Dictionary.get? · p) same
  simp only [Dictionary.get?_mapValues, known, Option.map_some] at slot
  obtain ⟨original, -, equal⟩ := Option.map_eq_some_iff.mp slot.symm
  have means : q.value.content = original.value.resolved t keyframes :=
    (congrArg Property.value equal).symm
  have back := congrArg ValueContent.declared means
  rw [declared_content, DeclaredValue.declared_resolved] at back
  rw [Settled, means, back]

theorem build_shows (keyed : s.Keyed) {seen : Seen} (shows : s.Shows .build seen) :
    seen.Kept s.tables s.keyframes s.build.instances := by
  obtain ⟨sound, built, alike⟩ := build_spec keyed.sound
  have follows := build_follows keyed
  cases shows with
  | @built n p q known =>
      have settled := built.settled n p q known
      have filed := follows.keyed.tree n p q known
      rw [follows.tables] at settled filed
      rw [follows.keyframes] at settled
      exact Seen.kept_value settled filed

theorem asked_follows (keyed : s.Keyed) (asked : Lookup) : s.Follows (s.asked asked) ∧
    ∀ seen, s.Shows (.lookup asked) seen →
      seen.Kept s.tables s.keyframes (s.asked asked).instances := by
  cases asked with
  | definition held d e =>
      rw [Sheet.asked]
      obtain ⟨follows, filed⟩ := definition_follows keyed held d e
      refine ⟨follows, fun seen shows => ?_⟩
      cases shows with
      | @definition _ _ _ p q known =>
          have settled := settled_of_meaning (definition_spec keyed.sound held d e).1
          exact Seen.kept_value (settled p q known) (filed p q known)
  | decorator name =>
      rw [Sheet.asked]
      obtain ⟨follows, kept⟩ := decorator_follows keyed name
      refine ⟨follows, fun seen shows => ?_⟩
      cases shows
      refine ⟨(decorator_spec keyed.sound name).1, ?_,
        fun item none => absurd none List.not_mem_nil⟩
      intro item among
      cases answer : (s.decorator? name).1 with
      | none =>
          rw [answer] at among
          cases among
      | some shared =>
          rw [answer] at among
          obtain rfl := List.mem_singleton.mp among
          exact kept shared answer
  | decorators raw =>
      rw [Sheet.asked]
      obtain ⟨follows, filed⟩ := decorators_follows keyed raw
      refine ⟨follows, fun seen shows => ?_⟩
      cases shows
      refine Seen.kept_value ?_ filed
      simp only [Settled, content, declared, DeclaredValue.resolved, Option.map_some,
        (decorators_spec keyed.sound raw).1]
  | fontEffects raw =>
      rw [Sheet.asked]
      obtain ⟨follows, filed⟩ := fontEffects_follows keyed raw
      refine ⟨follows, fun seen shows => ?_⟩
      cases shows
      refine Seen.kept_value ?_ filed
      simp only [Settled, content, declared, DeclaredValue.resolved, Option.map_some,
        (fontEffects_spec keyed.sound raw).1]

/-- As long as no source is loaded, what is seen stays in the store. -/
theorem run_follows (keyed : s.Keyed) {events : List SheetEvent}
    (unloaded : s.loadsOf events = []) : s.Follows (s.run events) ∧
      ∀ seen, s.Sees events seen →
        seen.Kept s.tables s.keyframes (s.run events).instances := by
  induction events generalizing s with
  | nil => exact ⟨.refl keyed, fun seen none => none.elim⟩
  | cons event rest ih =>
      -- The first event shows some, and the others what they show over the same tables.
      have joined (first : s.Follows (s.after event))
          (shown : ∀ seen, s.Shows event seen →
            seen.Kept s.tables s.keyframes (s.after event).instances)
          (others : (s.after event).loadsOf rest = []) :
          s.Follows (s.run (event :: rest)) ∧ ∀ seen, s.Sees (event :: rest) seen →
            seen.Kept s.tables s.keyframes (s.run (event :: rest)).instances := by
        obtain ⟨onward, later⟩ := ih first.keyed others
        refine ⟨first.trans onward, fun seen sees => ?_⟩
        rcases sees with now | then_
        · exact (shown seen now).mono onward.grows
        · have kept := later seen then_
          rwa [first.tables, first.keyframes] at kept
      cases event with
      | load text name =>
          rw [loadsOf] at unloaded
          cases success : s.load text name with
          | ok loaded => simp [success] at unloaded
          | error e =>
              rw [success] at unloaded
              have stays : s.after (.load text name) = s := by rw [after, success]
              refine joined ?_ (fun seen shows => by cases shows) ?_
              · rw [stays]
                exact .refl keyed
              · rw [stays]
                exact unloaded
      | build => exact joined (build_follows keyed) (fun seen => build_shows keyed) unloaded
      | lookup asked =>
          obtain ⟨follows, shown⟩ := asked_follows keyed asked
          exact joined follows shown unloaded

/-- Whatever is built and asked from one load to the next, every list that is seen has the content
that its items give without a store. Decorators that are seen are one instance exactly if they are
for the same name or for the same call, and font effects exactly if type and arguments agree. -/
theorem loaded_shares {loaded : Sheet} {texts : List (String × String)}
    (assembled : s.Assembled texts) {text name : String} (success : s.load text name = .ok loaded)
    (unambiguous : loaded.config.registry.Unambiguous) {events : List SheetEvent}
    (unloaded : loaded.loadsOf events = []) :
    (∀ seen, loaded.Sees events seen → seen.Transparent loaded.tables loaded.keyframes) ∧
    ∀ first second, loaded.Sees events first → loaded.Sees events second →
      (∀ x ∈ first.decorators loaded.tables, ∀ y ∈ second.decorators loaded.tables,
        x.2.id = y.2.id ↔ x.1 = y.1) ∧
      ∀ x ∈ first.fontEffects loaded.tables, ∀ y ∈ second.fontEffects loaded.tables,
        x.2.id = y.2.id ↔ x.1 = y.1 := by
  have keyed : loaded.Keyed := by
    obtain ⟨source, -, rfl⟩ := load_eq_ok.mp success
    exact add_keyed assembled.sound source name
  obtain ⟨follows, kept⟩ := run_follows keyed unloaded
  have distinct := follows.keyed.distinct
  refine ⟨fun seen sees => (kept seen sees).transparent, ?_⟩
  intro first second here there
  constructor
  · intro x among y also
    exact ((kept first here).decorators x among).same_iff distinct
      (fun _ _ _ => InstanceTables.decoratorKey?_injective unambiguous)
      ((kept second there).decorators y also)
  · intro x among y also
    exact ((kept first here).fontEffects x among).same_iff distinct
      (fun _ _ _ => InstanceTables.fontEffectKey?_injective unambiguous)
      ((kept second there).fontEffects y also)

/-- A font effect by its name and by a call, before and after a build. -/
theorem loaded_shares_shadow :
    let s := (new 0 .default).add .menu "menu.css"
    let events : List SheetEvent :=
      [.lookup (.fontEffects "shadow"), .build, .lookup (.fontEffects "shadow(), shadow(1px)"),
        .lookup (.decorators "gradient(), gradient(vertical)"), .lookup (.decorator "panel")]
    (∀ seen, s.Sees events seen → seen.Transparent s.tables s.keyframes) ∧
    ∀ first second, s.Sees events first → s.Sees events second →
      (∀ x ∈ first.decorators s.tables, ∀ y ∈ second.decorators s.tables,
        x.2.id = y.2.id ↔ x.1 = y.1) ∧
      ∀ x ∈ first.fontEffects s.tables, ∀ y ∈ second.fontEffects s.tables,
        x.2.id = y.2.id ↔ x.1 = y.1 := by
  intro s events
  have loaded : (new 0 .default).load StyleSource.menuText "menu.css" = .ok s :=
    load_eq_ok.mpr ⟨.menu, StyleSource.ofText_menu, rfl⟩
  exact loaded_shares (.new 0 .default) loaded Registry.builtin_unambiguous rfl

end Sheet
end Cascade
