import Cascade.Proofs.Sheet.History
/-!
Runs: a sheet loads sources, is built and is asked in any order.

Every event keeps a sheet sound. Questions leave everything in place that answers depend on.
-/
namespace Cascade

/-- What can be asked of a sheet. Who asks for a definition tells which ones are still held. -/
inductive Lookup where
  | definition (held : InstanceId → Bool) (d : Document) (e : ElementId)
  | decorator (name : String)
  | decorators (raw : String)
  | fontEffects (raw : String)

inductive SheetEvent where
  | load (text name : String)
  | build
  | lookup (asked : Lookup)

namespace Sheet
open PropertyValue

def asked (s : Sheet) : Lookup → Sheet
  | .definition held d e => (s.definition held d e).2
  | .decorator name => (s.decorator? name).2
  | .decorators raw => (s.decorators raw).2
  | .fontEffects raw => (s.fontEffects raw).2

def askedAll (s : Sheet) (lookups : List Lookup) : Sheet := lookups.foldl asked s

/-- The sheet after an event. A load that fails leaves it as it is. -/
def after (s : Sheet) : SheetEvent → Sheet
  | .load text name =>
    match s.load text name with
    | .ok loaded => loaded
    | .error _ => s
  | .build => s.build
  | .lookup asked => s.asked asked

def run (s : Sheet) (events : List SheetEvent) : Sheet := events.foldl after s

theorem asked_spec {s : Sheet} (sound : s.Sound) (lookup : Lookup) :
    (s.asked lookup).Sound ∧ s.Serves (s.asked lookup) := by
  cases lookup with
  | definition held d e => exact (definition_spec sound held d e).2
  | decorator name => exact (decorator_spec sound name).2
  | decorators raw => exact (decorators_spec sound raw).2
  | fontEffects raw => exact (fontEffects_spec sound raw).2

-- A question may build instances or a definition, but what it changes is only kept for later.
theorem askedAll_spec {s : Sheet} (sound : s.Sound) (lookups : List Lookup) :
    (s.askedAll lookups).Sound ∧ s.Alike (s.askedAll lookups) ∧
    (s.Built → (s.askedAll lookups).Built) := by
  induction lookups generalizing s with
  | nil => exact ⟨sound, Alike.refl s, id⟩
  | cons lookup rest ih =>
      obtain ⟨kept, serves⟩ := asked_spec sound lookup
      obtain ⟨last, alike, built⟩ := ih kept
      exact ⟨last, serves.alike.trans alike, fun ready => built (serves.built ready)⟩

theorem askedAll_nil (s : Sheet) : s.askedAll [] = s := by rw [askedAll, List.foldl_nil]

/-- What a sheet was built for stays, whatever is asked of it then. -/
theorem built_spec {s : Sheet} (sound : s.Sound) (lookups : List Lookup) :
    (s.build.askedAll lookups).Sound ∧ (s.build.askedAll lookups).Built ∧
    s.Alike (s.build.askedAll lookups) := by
  obtain ⟨kept, built, alike⟩ := build_spec sound
  obtain ⟨last, served, still⟩ := askedAll_spec kept lookups
  exact ⟨last, still built, alike.symm.trans served⟩

theorem load_eq_ok {s loaded : Sheet} {text name : String} :
    s.load text name = .ok loaded ↔
      ∃ source, StyleSource.ofText text = .ok source ∧ loaded = s.add source name := by
  rw [load]
  cases StyleSource.ofText text with
  | error e => simp
  | ok source => simp [eq_comm]

theorem after_read {text : String} {source : StyleSource}
    (read : StyleSource.ofText text = .ok source) (s : Sheet) (name : String) :
    s.after (.load text name) = s.add source name := by
  simp [after, load, read]

theorem after_refused {text : String} {e : ParseError}
    (refused : StyleSource.ofText text = .error e) (s : Sheet) (name : String) :
    s.after (.load text name) = s := by
  simp [after, load, refused]

theorem load_sound {s loaded : Sheet} (sound : s.Sound) {text name : String}
    (success : s.load text name = .ok loaded) : loaded.Sound := by
  obtain ⟨source, -, rfl⟩ := load_eq_ok.mp success
  exact add_sound sound source name

theorem after_sound {s : Sheet} (sound : s.Sound) (event : SheetEvent) :
    (s.after event).Sound := by
  cases event with
  | load text name =>
      rw [after]
      cases success : s.load text name with
      | ok loaded => exact load_sound sound success
      | error e => exact sound
  | build => exact (build_spec sound).1
  | lookup asked => exact (asked_spec sound asked).1

theorem run_nil (s : Sheet) : s.run [] = s := rfl

theorem run_cons (s : Sheet) (event : SheetEvent) (rest : List SheetEvent) :
    s.run (event :: rest) = (s.after event).run rest := rfl

theorem run_build (s : Sheet) (events : List SheetEvent) :
    s.run (events ++ [.build]) = (s.run events).build := by
  simp [run, after]

theorem run_sound {s : Sheet} (sound : s.Sound) (events : List SheetEvent) :
    (s.run events).Sound := by
  induction events generalizing s with
  | nil => exact sound
  | cons event rest ih => exact ih (after_sound sound event)

end Sheet
end Cascade

/-! Nothing that was built for an earlier source survives a load.
After its last build a sheet answers as a new one does that was given only the sources that could
be read, and was built once. -/
namespace Cascade.Sheet
open PropertyValue

def loadsOf (s : Sheet) : List SheetEvent → List SheetEvent
  | [] => []
  | .load text name :: rest =>
    match s.load text name with
    | .ok loaded => .load text name :: loaded.loadsOf rest
    | .error _ => s.loadsOf rest
  | .build :: rest => s.build.loadsOf rest
  | .lookup asked :: rest => (s.asked asked).loadsOf rest

/-- Two sheets that agree in everything but the identities of instances. -/
structure Answers (s t : Sheet) : Prop where
  layers : s.layers = t.layers
  tree : s.tree.mapValues content = t.tree.mapValues content
  styled : s.styled = t.styled
  complete : s.complete = t.complete
  keyframes : ∀ name, s.keyframes.get? name = t.keyframes.get? name
  sprites : ∀ name, s.sprites.get? name = t.sprites.get? name
  decorator : ∀ name,
    (s.decorator? name).1.map Shared.value = (t.decorator? name).1.map Shared.value
  decorators : ∀ raw,
    (s.decorators raw).1.map Shared.value = (t.decorators raw).1.map Shared.value
  fontEffects : ∀ raw,
    (s.fontEffects raw).1.map Shared.value = (t.fontEffects raw).1.map Shared.value
  definition : ∀ held others d e,
    (s.definition held d e).1.value.properties.mapValues content =
      (t.definition others d e).1.value.properties.mapValues content

/-! Loading depends on nothing that a lookup or a build changes. -/

theorem Alike.add {s t : Sheet} (same : s.Alike t) (source : StyleSource) (file : String) :
    (s.add source file).Alike (t.add source file) := by
  refine ⟨same.config, ?_, ?_, ?_, ?_, ?_⟩
  · rw [add_posted, add_posted, same.layers, same.skeleton]
  · simp only [Sheet.add, same.layers]
  · simp only [Sheet.add, same.keyframes]
  · simp only [Sheet.add, same.specifications]
  · simp only [Sheet.add, same.sprites]

theorem Alike.load {s t loaded : Sheet} (same : s.Alike t) {text name : String}
    (success : s.load text name = .ok loaded) :
    ∃ other, t.load text name = .ok other ∧ loaded.Alike other := by
  obtain ⟨source, read, rfl⟩ := load_eq_ok.mp success
  exact ⟨t.add source name, load_eq_ok.mpr ⟨source, read, rfl⟩, same.add source name⟩

/-- A run leads to what its successful loads alone lead to, apart from what is built. -/
theorem run_loadsOf {s t : Sheet} (sound : s.Sound) (same : s.Alike t) (events : List SheetEvent) :
    (s.run events).Alike (t.run (s.loadsOf events)) := by
  -- Only a load that succeeds moves the second sheet; both stay alike at every event.
  induction events generalizing s t with
  | nil => exact same
  | cons event rest ih =>
      cases event with
      | load text name =>
          rw [run_cons, loadsOf]
          cases success : s.load text name with
          | error e =>
              have stays : s.after (.load text name) = s := by rw [after, success]
              rw [stays]
              exact ih sound same
          | ok loaded =>
              obtain ⟨other, also, alike⟩ := same.load success
              have grows : s.after (.load text name) = loaded := by rw [after, success]
              have grown : t.after (.load text name) = other := by rw [after, also]
              rw [grows, run_cons, grown]
              exact ih (load_sound sound success) alike
      | build =>
          obtain ⟨kept, -, alike⟩ := build_spec sound
          exact ih kept (alike.trans same)
      | lookup asked =>
          obtain ⟨kept, serves⟩ := asked_spec sound asked
          exact ih kept (serves.alike.symm.trans same)

theorem tree_content {s : Sheet} (built : s.Built) : s.tree.mapValues content =
    s.skeleton.mapValues (DeclaredValue.resolved s.tables s.keyframes) := by
  rw [skeleton, RuleTree.mapValues_mapValues]
  apply RuleTree.ext_find
  intro n
  rw [RuleTree.find_mapValues, RuleTree.find_mapValues]
  cases found : s.tree.find? n with
  | none => rfl
  | some node =>
      have here : s.tree.held n = node.properties := by simp [RuleTree.held, found]
      have settled := here ▸ built.settled n
      simp only [Option.map_some, RuleNode.mapValues, Dictionary.mapValues_congr settled]
      rfl

theorem Alike.answers {s t : Sheet} (same : s.Alike t) (sound : s.Sound) (built : s.Built)
    (soundly : t.Sound) (ready : t.Built) : s.Answers t where
  layers := same.layers
  tree := by rw [tree_content built, tree_content ready, same.skeleton, same.tables, same.keyframes]
  styled := by rw [built.styled, ready.styled, same.skeleton]
  complete := by rw [built.complete, ready.complete, same.skeleton]
  keyframes name := by rw [same.keyframes]
  sprites name := by rw [same.sprites]
  decorator name := by
    rw [(decorator_spec sound name).1, (decorator_spec soundly name).1, same.tables]
  decorators raw := by
    rw [(decorators_spec sound raw).1, (decorators_spec soundly raw).1, same.tables]
  fontEffects raw := by
    rw [(fontEffects_spec sound raw).1, (fontEffects_spec soundly raw).1, same.tables]
  definition held others d e := by
    rw [(definition_spec sound held d e).1, (definition_spec soundly others d e).1, same.meaning,
      signature_eq sound built, signature_eq soundly ready, same.skeleton]

/-- After a last build nothing tells a run from its successful loads, whatever is looked up then. -/
theorem run_forgets (owner other : Nat) (config : SheetConfig) (events : List SheetEvent)
    (lookups others : List Lookup) :
    (((new owner config).run (events ++ [.build])).askedAll lookups).Answers
      (((new other config).run ((new owner config).loadsOf events ++ [.build])).askedAll
        others) := by
  have fresh : (new owner config).Alike (new other config) := ⟨rfl, rfl, rfl, rfl, rfl, rfl⟩
  have sound := run_sound (new_sound owner config) events
  have soundly := run_sound (new_sound other config) ((new owner config).loadsOf events)
  have same := run_loadsOf (new_sound owner config) fresh events
  rw [run_build, run_build]
  obtain ⟨last, built, ours⟩ := built_spec sound lookups
  obtain ⟨final, ready, theirs⟩ := built_spec soundly others
  have whole := (ours.symm.trans same).trans theirs
  exact whole.answers last built final ready

end Cascade.Sheet
