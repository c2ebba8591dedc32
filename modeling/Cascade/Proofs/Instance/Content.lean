import Cascade.Definition
/-!
What is built has the content that its text gives without a store.

Calls of decorators and of font effects are answered in one way. The type is looked up and the
arguments are bound to its parameters; what the store keeps for them is the instance, or else it is
built and kept. The sorts differ in what is registered, what is built, and where it is kept.
-/
namespace Cascade

structure CallSort (K α : Type) where
  kind : InstanceKind
  types : Table String (InstanceType K)
  build : CallKey → Except InstanceError α
  kept : InstanceStore → Table CallKey (Shared α)
  keep : InstanceStore → Table CallKey (Shared α) → InstanceStore
  kept_keep : ∀ store table, kept (keep store table) = table

namespace CallSort
variable {K α : Type}

def key (s : CallSort K α) (type : String) (arguments : List String) :
    Except InstanceError CallKey :=
  match s.types.get? type with
  | none => .error (.unknownType s.kind type)
  | some registered =>
    match bindArguments type registered.parameters arguments with
    | .error e => .error e
    | .ok properties => .ok (type, properties)

def added (s : CallSort K α) (store : InstanceStore) (key : CallKey) (value : α) :
    InstanceStore :=
  s.keep (store.share value).2 ((s.kept store).insert key (store.share value).1)

def request (s : CallSort K α) (key : CallKey) (store : InstanceStore) :
    Except InstanceError (Shared α × InstanceStore) :=
  match (s.kept store).get? key with
  | some shared => .ok (shared, store)
  | none =>
    match s.build key with
    | .error e => .error e
    | .ok value => .ok ((store.share value).1, s.added store key value)

def call (s : CallSort K α) (type : String) (arguments : List String) (store : InstanceStore) :
    Except InstanceError (Shared α × InstanceStore) :=
  match s.key type arguments with
  | .error e => .error e
  | .ok key => s.request key store

def value? (s : CallSort K α) (type : String) (arguments : List String) : Option α :=
  match s.key type arguments with
  | .error _ => none
  | .ok key => (s.build key).toOption

variable {s : CallSort K α} {store left : InstanceStore} {key : CallKey} {shared : Shared α}

theorem request_of_kept (known : (s.kept store).get? key = some shared) :
    s.request key store = .ok (shared, store) := by
  rw [request, known]

theorem request_of_missing (missing : (s.kept store).get? key = none) : s.request key store =
    (s.build key).map fun value => ((store.share value).1, s.added store key value) := by
  rw [request, missing]
  cases s.build key <;> rfl

theorem kept_added (store : InstanceStore) (key : CallKey) (value : α) :
    (s.kept (s.added store key value)).get? key = some (store.share value).1 := by
  simp [added, s.kept_keep]

end CallSort

namespace InstanceTables

def decoratorCalls (t : InstanceTables) : CallSort DecoratorKind Decorator where
  kind := .decorator
  types := t.registry.decorators
  build key := t.registry.decorator key.1 key.2 t.sprites
  kept := InstanceStore.decorators
  keep store table := { store with decorators := table }
  kept_keep _ _ := rfl

def fontEffectCalls (t : InstanceTables) : CallSort FontEffectKind FontEffect where
  kind := .fontEffect
  types := t.registry.fontEffects
  build key := t.registry.fontEffect key.1 key.2 t.sprites
  kept := InstanceStore.fontEffects
  keep store table := { store with fontEffects := table }
  kept_keep _ _ := rfl

theorem calledDecorator_eq (t : InstanceTables) :
    t.calledDecorator = t.decoratorCalls.call := by
  funext type arguments store
  cases registered : t.registry.decorators.get? type with
  | none => simp [calledDecorator, CallSort.call, CallSort.key, decoratorCalls, registered]
  | some entry =>
      cases bound : bindArguments type entry.parameters arguments with
      | error e =>
          simp [calledDecorator, CallSort.call, CallSort.key, decoratorCalls, registered, bound]
      | ok properties =>
          simp only [calledDecorator, CallSort.call, CallSort.key, CallSort.request,
            decoratorCalls, registered, bound]
          cases store.decorators.get? (type, properties) with
          | some shared => rfl
          | none => cases t.registry.decorator type properties t.sprites <;> rfl

theorem calledFontEffect_eq (t : InstanceTables) :
    t.calledFontEffect = t.fontEffectCalls.call := by
  funext type arguments store
  cases registered : t.registry.fontEffects.get? type with
  | none => simp [calledFontEffect, CallSort.call, CallSort.key, fontEffectCalls, registered]
  | some entry =>
      cases bound : bindArguments type entry.parameters arguments with
      | error e =>
          simp [calledFontEffect, CallSort.call, CallSort.key, fontEffectCalls, registered, bound]
      | ok properties =>
          simp only [calledFontEffect, CallSort.call, CallSort.key, CallSort.request,
            fontEffectCalls, registered, bound]
          cases store.fontEffects.get? (type, properties) with
          | some shared => rfl
          | none => cases t.registry.fontEffect type properties t.sprites <;> rfl

end InstanceTables

/-! What instances are worth, apart from their identities.
A list value stands for the decorators, font effects or animations that its text gives under some
tables. A store of shared instances is sound if it holds nothing else, and building with a sound
store gives just these, whatever was built before. -/

/-- A value whose instances have no identity. -/
inductive ValueContent where
  | plain (value : PlainValue)
  | decorators (raw : String) (items : Option (List Decorator))
  | fontEffects (raw : String) (items : Option (List FontEffect))
  | animations (raw : String) (items : Option (List Animation))

namespace PropertyValue

def content : PropertyValue → ValueContent
  | .plain value => .plain value
  | .decorators raw items => .decorators raw (items.map (List.map Shared.value))
  | .fontEffects raw items => .fontEffects raw (items.map (List.map Shared.value))
  | .animations raw items => .animations raw items

end PropertyValue

namespace ValueContent

def declared : ValueContent → DeclaredValue
  | .plain value => .plain value
  | .decorators raw _ => .list .decorators raw
  | .fontEffects raw _ => .list .fontEffects raw
  | .animations raw _ => .list .animations raw

end ValueContent

theorem PropertyValue.declared_content (v : PropertyValue) : v.content.declared = v.declared := by
  cases v <;> rfl

namespace InstanceTables

def namedValue? (t : InstanceTables) (name : String) : Option Decorator :=
  (t.specifications.get? name).bind fun s =>
    (t.registry.decorator s.type s.properties t.sprites).toOption

def calledDecoratorValue? (t : InstanceTables) (type : String) (arguments : List String) :
    Option Decorator :=
  match t.registry.decorators.get? type with
  | none => none
  | some registered =>
    match bindArguments type registered.parameters arguments with
    | .error _ => none
    | .ok properties => (t.registry.decorator type properties t.sprites).toOption

def calledFontEffectValue? (t : InstanceTables) (type : String) (arguments : List String) :
    Option FontEffect :=
  match t.registry.fontEffects.get? type with
  | none => none
  | some registered =>
    match bindArguments type registered.parameters arguments with
    | .error _ => none
    | .ok properties => (t.registry.fontEffect type properties t.sprites).toOption

def decoratorItemValue? (t : InstanceTables) (item : String) : Option Decorator :=
  match ListItem.ofText item with
  | .error _ => none
  | .ok (.name name) => t.namedValue? name
  | .ok (.call type arguments) => t.calledDecoratorValue? type arguments

def fontEffectItemValue? (t : InstanceTables) (item : String) : Option FontEffect :=
  match ListItem.ofText item with
  | .error _ => none
  | .ok (.name name) => t.calledFontEffectValue? name []
  | .ok (.call type arguments) => t.calledFontEffectValue? type arguments

def decoratorValues (t : InstanceTables) (raw : String) : List Decorator :=
  (listItems raw).filterMap t.decoratorItemValue?

def fontEffectValues (t : InstanceTables) (raw : String) : List FontEffect :=
  (listItems raw).filterMap t.fontEffectItemValue?

end InstanceTables

def DeclaredValue.resolved (t : InstanceTables) (keyframes : Table String Keyframes) :
    DeclaredValue → ValueContent
  | .plain value => .plain value
  | .list .decorators raw => .decorators raw (some (t.decoratorValues raw))
  | .list .fontEffects raw => .fontEffects raw (some (t.fontEffectValues raw))
  | .list .animations raw => .animations raw (some (animationsOf keyframes raw))

theorem DeclaredValue.declared_resolved (t : InstanceTables) (keyframes : Table String Keyframes)
    (v : DeclaredValue) : (v.resolved t keyframes).declared = v := by
  cases v with
  | plain value => rfl
  | list kind raw => cases kind <;> rfl

/-- Everything a store holds is what it would be built as. -/
structure InstanceStore.Sound (t : InstanceTables) (store : InstanceStore) : Prop where
  named : ∀ name known, store.named.get? name = some known →
    known.map Shared.value = t.namedValue? name
  decorators : ∀ type properties shared, store.decorators.get? (type, properties) = some shared →
    t.registry.decorator type properties t.sprites = .ok shared.value
  fontEffects : ∀ type properties shared, store.fontEffects.get? (type, properties) = some shared →
    t.registry.fontEffect type properties t.sprites = .ok shared.value

@[simp] theorem Table.get_empty {κ α : Type} [DecidableEq κ] (key : κ) :
    (Table.empty : Table κ α).get? key = none := rfl

/-- What holds of all entries and of a new one holds after its insertion. -/
theorem Table.all_insert {κ α : Type} [DecidableEq κ] {P : κ → α → Prop} {table : Table κ α}
    (all : ∀ key value, table.get? key = some value → P key value) {k : κ} {v : α} (new : P k v) :
    ∀ key value, (table.insert k v).get? key = some value → P key value := by
  intro key value known
  rw [get?_insert] at known
  split at known
  case isTrue same =>
    obtain rfl := Option.some.inj known
    exact same ▸ new
  case isFalse => exact all key value known

theorem cleared_sound (t : InstanceTables) (store : InstanceStore) : store.cleared.Sound t := by
  constructor <;> simp [InstanceStore.cleared]

theorem new_sound (t : InstanceTables) (owner : Nat) : (InstanceStore.new owner).Sound t := by
  constructor <;> simp [InstanceStore.new]

namespace InstanceTables
variable {t : InstanceTables} {store : InstanceStore}

theorem named_spec (sound : store.Sound t) {name : String} {specification : DecoratorSpecification}
    (known : t.specifications.get? name = some specification) :
    (t.named specification name store).1.map Shared.value = t.namedValue? name ∧
    (t.named specification name store).2.Sound t := by
  have stands : t.namedValue? name =
      (t.registry.decorator specification.type specification.properties t.sprites).toOption := by
    simp [namedValue?, known]
  rw [named]
  split
  case h_1 kept found => exact ⟨sound.named name kept found, sound⟩
  case h_2 =>
    split
    case h_1 decorator built =>
      have worth : (some (store.share decorator).1).map Shared.value = t.namedValue? name := by
        rw [stands, built]
        rfl
      exact ⟨worth, Table.all_insert sound.named worth, sound.decorators, sound.fontEffects⟩
    case h_2 error failed =>
      have worth : (none : Option (Shared Decorator)).map Shared.value = t.namedValue? name := by
        rw [stands, failed]
        rfl
      exact ⟨worth, Table.all_insert sound.named worth, sound.decorators, sound.fontEffects⟩

/-- A result that carries a store is worth a value, and the store stays sound. -/
def Worth {α β : Type} (t : InstanceTables) (value : α → Option β) (expected : Option β) :
    Except InstanceError (α × InstanceStore) → Prop
  -- An error carries no store: the one from before is still in use.
  | .error _ => expected = none
  | .ok (built, store) => value built = expected ∧ store.Sound t

end InstanceTables

structure CallSort.Sound {K α : Type} (s : CallSort K α) (t : InstanceTables) : Prop where
  kept : ∀ {store : InstanceStore} {key : CallKey} {shared : Shared α}, store.Sound t →
    (s.kept store).get? key = some shared → s.build key = .ok shared.value
  added : ∀ {store : InstanceStore} {key : CallKey} {value : α}, store.Sound t →
    s.build key = .ok value → (s.added store key value).Sound t

theorem CallSort.Sound.call {K α : Type} {s : CallSort K α} {t : InstanceTables}
    {store : InstanceStore} (sorted : s.Sound t) (sound : store.Sound t) (type : String)
    (arguments : List String) :
    t.Worth (fun shared => some shared.value) (s.value? type arguments)
      (s.call type arguments store) := by
  rw [CallSort.call, CallSort.value?]
  cases s.key type arguments with
  | error e => rfl
  | ok key =>
      dsimp only
      cases known : (s.kept store).get? key with
      | some shared =>
          rw [CallSort.request_of_kept known, sorted.kept sound known]
          exact ⟨rfl, sound⟩
      | none =>
          rw [CallSort.request_of_missing known]
          cases built : s.build key with
          | error e => rfl
          | ok value => exact ⟨rfl, sorted.added sound built⟩

namespace InstanceTables
variable {t : InstanceTables} {store : InstanceStore}

theorem decoratorCalls_sound (t : InstanceTables) : t.decoratorCalls.Sound t where
  kept sound known := sound.decorators _ _ _ known
  added {store key value} sound built := by
    have all := Table.all_insert
      (P := fun (key : CallKey) (shared : Shared Decorator) =>
        t.registry.decorator key.1 key.2 t.sprites = .ok shared.value)
      (fun key => sound.decorators key.1 key.2) (k := key) (v := (store.share value).1) built
    exact ⟨sound.named, fun type properties => all (type, properties), sound.fontEffects⟩

theorem fontEffectCalls_sound (t : InstanceTables) : t.fontEffectCalls.Sound t where
  kept sound known := sound.fontEffects _ _ _ known
  added {store key value} sound built := by
    have all := Table.all_insert
      (P := fun (key : CallKey) (shared : Shared FontEffect) =>
        t.registry.fontEffect key.1 key.2 t.sprites = .ok shared.value)
      (fun key => sound.fontEffects key.1 key.2) (k := key) (v := (store.share value).1) built
    exact ⟨sound.named, sound.decorators, fun type properties => all (type, properties)⟩

theorem calledDecoratorValue?_eq (t : InstanceTables) (type : String) (arguments : List String) :
    t.calledDecoratorValue? type arguments = t.decoratorCalls.value? type arguments := by
  simp only [calledDecoratorValue?, CallSort.value?, CallSort.key, decoratorCalls]
  cases t.registry.decorators.get? type with
  | none => rfl
  | some registered =>
      cases bound : bindArguments type registered.parameters arguments <;> simp only [bound]

theorem calledFontEffectValue?_eq (t : InstanceTables) (type : String) (arguments : List String) :
    t.calledFontEffectValue? type arguments = t.fontEffectCalls.value? type arguments := by
  simp only [calledFontEffectValue?, CallSort.value?, CallSort.key, fontEffectCalls]
  cases t.registry.fontEffects.get? type with
  | none => rfl
  | some registered =>
      cases bound : bindArguments type registered.parameters arguments <;> simp only [bound]

theorem calledDecorator_spec (sound : store.Sound t) (type : String) (arguments : List String) :
    t.Worth (fun shared => some shared.value) (t.calledDecoratorValue? type arguments)
      (t.calledDecorator type arguments store) := by
  rw [calledDecoratorValue?_eq, calledDecorator_eq]
  exact (decoratorCalls_sound t).call sound type arguments

theorem calledFontEffect_spec (sound : store.Sound t) (type : String) (arguments : List String) :
    t.Worth (fun shared => some shared.value) (t.calledFontEffectValue? type arguments)
      (t.calledFontEffect type arguments store) := by
  rw [calledFontEffectValue?_eq, calledFontEffect_eq]
  exact (fontEffectCalls_sound t).call sound type arguments

theorem decoratorItem_spec (sound : store.Sound t) (item : String) :
    t.Worth (Option.map Shared.value) (t.decoratorItemValue? item)
      (t.decoratorItem item store) := by
  unfold decoratorItem decoratorItemValue?
  rcases ListItem.ofText item with e | name | ⟨type, arguments⟩
  · rfl
  · dsimp only
    cases known : t.specifications.get? name with
    | none => simp [Worth, namedValue?, known]
    | some specification => exact named_spec sound known
  · have called := calledDecorator_spec sound type arguments
    dsimp only
    cases result : t.calledDecorator type arguments store with
    | error e => rwa [result] at called
    | ok built => rwa [result] at called

theorem fontEffectItem_spec (sound : store.Sound t) (item : String) :
    t.Worth (fun shared => some shared.value) (t.fontEffectItemValue? item)
      (t.fontEffectItem item store) := by
  unfold fontEffectItem fontEffectItemValue?
  rcases ListItem.ofText item with e | name | ⟨type, arguments⟩
  · rfl
  · exact calledFontEffect_spec sound name []
  · exact calledFontEffect_spec sound type arguments

theorem decoratorItems_spec (sound : store.Sound t) (items : List String) :
    (t.decoratorItems store items).1.map Shared.value = items.filterMap t.decoratorItemValue? ∧
    (t.decoratorItems store items).2.Sound t := by
  -- An item that cannot be built, or names nothing, is left out on both sides.
  induction items generalizing store with
  | nil => exact ⟨rfl, sound⟩
  | cons item rest ih =>
      have first := decoratorItem_spec sound item
      rw [decoratorItems]
      cases result : t.decoratorItem item store with
      | error e =>
          rw [result] at first
          obtain ⟨values, after⟩ := ih sound
          exact ⟨by rw [List.filterMap_cons_none first]; exact values, after⟩
      | ok built =>
          rw [result] at first
          obtain ⟨values, after⟩ := ih first.2
          refine ⟨?_, after⟩
          simp only [List.map_append, values]
          cases known : built.1 with
          | none =>
              have absent : t.decoratorItemValue? item = none := by simp [← first.1, known]
              rw [List.filterMap_cons_none absent]
              rfl
          | some shared =>
              have present : t.decoratorItemValue? item = some shared.value := by
                simp [← first.1, known]
              rw [List.filterMap_cons_some present]
              rfl

theorem fontEffectItems_spec (sound : store.Sound t) (items : List String) :
    (t.fontEffectItems store items).1.map Shared.value = items.filterMap t.fontEffectItemValue? ∧
    (t.fontEffectItems store items).2.Sound t := by
  induction items generalizing store with
  | nil => exact ⟨rfl, sound⟩
  | cons item rest ih =>
      have first := fontEffectItem_spec sound item
      rw [fontEffectItems]
      cases result : t.fontEffectItem item store with
      | error e =>
          rw [result] at first
          obtain ⟨values, after⟩ := ih sound
          exact ⟨by rw [List.filterMap_cons_none first]; exact values, after⟩
      | ok built =>
          rw [result] at first
          obtain ⟨values, after⟩ := ih first.2
          exact ⟨by rw [List.filterMap_cons_some first.1.symm]; simp [values], after⟩

theorem decorators_spec (sound : store.Sound t) (raw : String) :
    (t.decorators raw store).1.map Shared.value = t.decoratorValues raw ∧
    (t.decorators raw store).2.Sound t := decoratorItems_spec sound (listItems raw)

theorem fontEffects_spec (sound : store.Sound t) (raw : String) :
    (t.fontEffects raw store).1.map Shared.value = t.fontEffectValues raw ∧
    (t.fontEffects raw store).2.Sound t := fontEffectItems_spec sound (listItems raw)

end InstanceTables

namespace PropertyValue
variable {t : InstanceTables} {keyframes : Table String Keyframes} {store : InstanceStore}

def Settled (t : InstanceTables) (keyframes : Table String Keyframes) (v : PropertyValue) : Prop :=
  v.content = v.declared.resolved t keyframes

def Current (t : InstanceTables) (keyframes : Table String Keyframes) (v : PropertyValue) : Prop :=
  v.isPending = true ∨ v.Settled t keyframes

theorem pending_current (t : InstanceTables) (keyframes : Table String Keyframes)
    (v : DeclaredValue) : v.pending.Current t keyframes := by
  cases v with
  | plain value => exact Or.inr rfl
  | list kind raw => cases kind <;> exact Or.inl rfl

theorem declared_pending (v : DeclaredValue) : v.pending.declared = v := by
  cases v with
  | plain value => rfl
  | list kind raw => cases kind <;> rfl

theorem build_declared (v : PropertyValue) :
    (v.build t keyframes store).1.declared = v.declared := by
  rcases v with value | ⟨raw, _ | items⟩ | ⟨raw, _ | items⟩ | ⟨raw, _ | items⟩ <;>
    simp only [build, declared]

theorem build_spec (sound : store.Sound t) {v : PropertyValue} (current : v.Current t keyframes) :
    (v.build t keyframes store).1.Settled t keyframes ∧
    (v.build t keyframes store).2.Sound t := by
  rcases v with value | ⟨raw, _ | items⟩ | ⟨raw, _ | items⟩ | ⟨raw, _ | items⟩
  · exact ⟨rfl, sound⟩
  · obtain ⟨values, after⟩ := InstanceTables.decorators_spec sound raw
    simp only [build, Settled, content, declared, DeclaredValue.resolved, Option.map_some, values]
    exact ⟨trivial, after⟩
  · exact ⟨current.resolve_left (by simp [isPending]), sound⟩
  · obtain ⟨values, after⟩ := InstanceTables.fontEffects_spec sound raw
    simp only [build, Settled, content, declared, DeclaredValue.resolved, Option.map_some, values]
    exact ⟨trivial, after⟩
  · exact ⟨current.resolve_left (by simp [isPending]), sound⟩
  · refine ⟨?_, sound⟩
    simp only [Settled, build, content, declared, DeclaredValue.resolved]
  · exact ⟨current.resolve_left (by simp [isPending]), sound⟩

end PropertyValue
end Cascade
