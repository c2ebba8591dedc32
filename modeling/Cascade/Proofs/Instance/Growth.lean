import Cascade.Proofs.Instance.Content
/-!
Stores only grow, and what was built once is found again.

Building adds to a store and changes nothing in it. Done again with a sound store that still has
what it left, it comes to the same instances and adds nothing, also where it failed.
-/
namespace Cascade

structure InstanceStore.Extends (store later : InstanceStore) : Prop where
  named : ∀ name known, store.named.get? name = some known → later.named.get? name = some known
  decorators : ∀ key shared, store.decorators.get? key = some shared →
    later.decorators.get? key = some shared
  fontEffects : ∀ key shared, store.fontEffects.get? key = some shared →
    later.fontEffects.get? key = some shared

namespace InstanceStore.Extends
variable {store later last : InstanceStore}

theorem refl (store : InstanceStore) : store.Extends store :=
  ⟨fun _ _ known => known, fun _ _ known => known, fun _ _ known => known⟩

theorem trans (first : store.Extends later) (second : later.Extends last) : store.Extends last where
  named name known here := second.named name known (first.named name known here)
  decorators key shared here := second.decorators key shared (first.decorators key shared here)
  fontEffects key shared here := second.fontEffects key shared (first.fontEffects key shared here)

end InstanceStore.Extends

-- A key that was not there takes nothing away.
theorem Table.get_insert_of_none {κ α : Type} [DecidableEq κ] {table : Table κ α} {key other : κ}
    {value known : α} (missing : table.get? key = none) (here : table.get? other = some known) :
    (table.insert key value).get? other = some known := by
  have different : key ≠ other := by
    rintro rfl
    simp [missing] at here
  rw [get?_insert, if_neg different, here]

namespace InstanceTables
variable {t : InstanceTables} {store : InstanceStore} {α : Type}

/-- A computation adds to the store, and again it gives the same and adds nothing. -/
structure Stays (t : InstanceTables) (build : InstanceStore → α × InstanceStore)
    (store : InstanceStore) : Prop where
  grows : store.Extends (build store).2
  again : ∀ later, (build store).2.Extends later → later.Sound t →
    build later = ((build store).1, later)

def StaysOk (t : InstanceTables) (build : InstanceStore → Except InstanceError (α × InstanceStore))
    (store : InstanceStore) : Prop :=
  match build store with
  | .error e => ∀ later, store.Extends later → later.Sound t → build later = .error e
  | .ok (built, left) => store.Extends left ∧
      ∀ later, left.Extends later → later.Sound t → build later = .ok (built, later)

theorem named_stays (t : InstanceTables) (specification : DecoratorSpecification) (name : String)
    (store : InstanceStore) : t.Stays (t.named specification name) store := by
  have found {known : Option (Shared Decorator)} {later : InstanceStore}
      (kept : later.named.get? name = some known) :
      t.named specification name later = (known, later) := by
    simp [named, kept]
  cases kept : store.named.get? name with
  | some known =>
      refine ⟨?_, fun later more _ => ?_⟩ <;> rw [found kept] at *
      · exact .refl store
      · exact found (more.named name known kept)
  | none =>
      -- Whether it can be built or not, the outcome is put under the name.
      have stays {known : Option (Shared Decorator)} {issued : Nat}
          (built : t.named specification name store =
            (known, { store with issued, named := store.named.insert name known })) :
          t.Stays (t.named specification name) store := by
        refine ⟨?_, fun later more _ => ?_⟩ <;> rw [built] at *
        · exact ⟨fun _ _ => Table.get_insert_of_none kept, fun _ _ here => here,
            fun _ _ here => here⟩
        · exact found (more.named name known (by simp))
      cases built : t.registry.decorator specification.type specification.properties t.sprites with
      | ok decorator =>
          apply stays
          simp only [named, kept, built]
          rfl
      | error e =>
          apply stays
          simp only [named, kept, built]
          rfl

end InstanceTables

structure CallSort.Grows {K α : Type} (s : CallSort K α) : Prop where
  kept : ∀ {store later : InstanceStore} {key : CallKey} {shared : Shared α},
    store.Extends later → (s.kept store).get? key = some shared →
      (s.kept later).get? key = some shared
  added : ∀ {store : InstanceStore} {key : CallKey} (value : α),
    (s.kept store).get? key = none → store.Extends (s.added store key value)

-- The store is asked first; what is built, or that nothing is, the tables alone decide.
theorem CallSort.Grows.call {K α : Type} {s : CallSort K α} {t : InstanceTables}
    (grows : s.Grows) (sorted : s.Sound t) (type : String) (arguments : List String)
    (store : InstanceStore) : t.StaysOk (s.call type arguments) store := by
  rw [InstanceTables.StaysOk]
  simp only [CallSort.call]
  cases s.key type arguments with
  | error e => exact fun later _ _ => rfl
  | ok key =>
      dsimp only
      cases known : (s.kept store).get? key with
      | some shared =>
          rw [CallSort.request_of_kept known]
          exact ⟨.refl store, fun later more _ => CallSort.request_of_kept (grows.kept more known)⟩
      | none =>
          rw [CallSort.request_of_missing known]
          cases built : s.build key with
          | error e =>
              intro later more sound
              -- A sound store holds nothing that cannot be built.
              have missing : (s.kept later).get? key = none := by
                cases there : (s.kept later).get? key with
                | none => rfl
                | some shared => cases built.symm.trans (sorted.kept sound there)
              rw [CallSort.request_of_missing missing, built]
              rfl
          | ok value =>
              refine ⟨grows.added value known, fun later more _ => ?_⟩
              exact CallSort.request_of_kept (grows.kept more (CallSort.kept_added store key value))

namespace InstanceTables
variable {t : InstanceTables} {store : InstanceStore} {α : Type}

theorem decoratorCalls_grows (t : InstanceTables) : t.decoratorCalls.Grows where
  kept more known := more.decorators _ _ known
  added _ missing := ⟨fun _ _ here => here, fun _ _ => Table.get_insert_of_none missing,
    fun _ _ here => here⟩

theorem fontEffectCalls_grows (t : InstanceTables) : t.fontEffectCalls.Grows where
  kept more known := more.fontEffects _ _ known
  added _ missing := ⟨fun _ _ here => here, fun _ _ here => here,
    fun _ _ => Table.get_insert_of_none missing⟩

theorem calledDecorator_stays (t : InstanceTables) (type : String) (arguments : List String)
    (store : InstanceStore) : t.StaysOk (t.calledDecorator type arguments) store := by
  rw [calledDecorator_eq]
  exact (decoratorCalls_grows t).call (decoratorCalls_sound t) type arguments store

theorem calledFontEffect_stays (t : InstanceTables) (type : String) (arguments : List String)
    (store : InstanceStore) : t.StaysOk (t.calledFontEffect type arguments) store := by
  rw [calledFontEffect_eq]
  exact (fontEffectCalls_grows t).call (fontEffectCalls_sound t) type arguments store

theorem decoratorItem_stays (t : InstanceTables) (item : String) (store : InstanceStore) :
    t.StaysOk (t.decoratorItem item) store := by
  unfold decoratorItem
  rcases ListItem.ofText item with e | name | ⟨type, arguments⟩
  · simp [StaysOk]
  · dsimp only
    cases t.specifications.get? name with
    | none => simp [StaysOk]
    | some specification =>
        have stays := named_stays t specification name store
        exact ⟨stays.grows, fun later more sound =>
          congrArg Except.ok (stays.again later more sound)⟩
  · have stays := calledDecorator_stays t type arguments store
    rw [StaysOk] at stays ⊢
    dsimp only
    cases result : t.calledDecorator type arguments store with
    | error e =>
        rw [result] at stays
        intro later more sound
        rw [stays later more sound]
        rfl
    | ok built =>
        rw [result] at stays
        refine ⟨stays.1, fun later more sound => ?_⟩
        rw [stays.2 later more sound]
        rfl

theorem fontEffectItem_stays (t : InstanceTables) (item : String) (store : InstanceStore) :
    t.StaysOk (t.fontEffectItem item) store := by
  unfold fontEffectItem
  rcases ListItem.ofText item with e | name | ⟨type, arguments⟩
  · simp [StaysOk]
  · exact calledFontEffect_stays t name [] store
  · exact calledFontEffect_stays t type arguments store

theorem Stays.map {β : Type} {build : InstanceStore → α × InstanceStore}
    (stays : t.Stays build store) (f : α → β) :
    t.Stays (fun store => (f (build store).1, (build store).2)) store :=
  ⟨stays.grows, fun later more sound => by rw [stays.again later more sound]⟩

theorem Stays.bind {β : Type} {build : InstanceStore → α × InstanceStore}
    (first : t.Stays build store) (onward : α → InstanceStore → β × InstanceStore)
    (second : t.Stays (onward (build store).1) (build store).2) :
    t.Stays (fun store => onward (build store).1 (build store).2) store := by
  refine ⟨first.grows.trans second.grows, fun later more sound => ?_⟩
  rw [first.again later (second.grows.trans more) sound]
  exact second.again later more sound

-- One item, left out if it fails, before the others.
theorem stays_cons {β : Type} {all others : InstanceStore → β × InstanceStore}
    {item : InstanceStore → Except InstanceError (α × InstanceStore)} (join : α → β → β)
    (without : ∀ {store e}, item store = .error e → all store = others store)
    (joined : ∀ {store built left}, item store = .ok (built, left) →
      all store = (join built (others left).1, (others left).2))
    (first : t.StaysOk item store) (rest : ∀ store, t.Stays others store) : t.Stays all store := by
  rw [StaysOk] at first
  cases result : item store with
  | error e =>
      rw [result] at first
      have next := rest store
      refine ⟨?_, fun later more sound => ?_⟩ <;> rw [without result] at *
      · exact next.grows
      · rw [without (first later (next.grows.trans more) sound)]
        exact next.again later more sound
  | ok pair =>
      obtain ⟨built, left⟩ := pair
      rw [result] at first
      have next := rest left
      refine ⟨?_, fun later more sound => ?_⟩ <;> rw [joined result] at *
      · exact first.1.trans next.grows
      · rw [joined (first.2 later (next.grows.trans more) sound), next.again later more sound]

theorem decoratorItems_stays (t : InstanceTables) (items : List String) (store : InstanceStore) :
    t.Stays (fun store => t.decoratorItems store items) store := by
  induction items generalizing store with
  | nil => exact ⟨.refl store, fun later _ _ => rfl⟩
  | cons item rest ih =>
      refine stays_cons (fun built more => built.toList ++ more) (fun failed => ?_)
        (fun built => ?_) (decoratorItem_stays t item store) ih
      · simp only [decoratorItems, failed]
      · simp only [decoratorItems, built]

theorem fontEffectItems_stays (t : InstanceTables) (items : List String) (store : InstanceStore) :
    t.Stays (fun store => t.fontEffectItems store items) store := by
  induction items generalizing store with
  | nil => exact ⟨.refl store, fun later _ _ => rfl⟩
  | cons item rest ih =>
      refine stays_cons List.cons (fun failed => ?_) (fun built => ?_)
        (fontEffectItem_stays t item store) ih
      · simp only [fontEffectItems, failed]
      · simp only [fontEffectItems, built]

theorem decorators_stays (t : InstanceTables) (raw : String) (store : InstanceStore) :
    t.Stays (t.decorators raw) store := decoratorItems_stays t (listItems raw) store

theorem fontEffects_stays (t : InstanceTables) (raw : String) (store : InstanceStore) :
    t.Stays (t.fontEffects raw) store := fontEffectItems_stays t (listItems raw) store

end InstanceTables

theorem PropertyValue.build_stays (t : InstanceTables) (keyframes : Table String Keyframes)
    (v : PropertyValue) (store : InstanceStore) : t.Stays (v.build t keyframes) store := by
  rcases v with value | ⟨raw, _ | items⟩ | ⟨raw, _ | items⟩ | ⟨raw, _ | items⟩
  case decorators.none =>
    exact (InstanceTables.decorators_stays t raw store).map fun items =>
      PropertyValue.decorators raw (some items)
  case fontEffects.none =>
    exact (InstanceTables.fontEffects_stays t raw store).map fun items =>
      PropertyValue.fontEffects raw (some items)
  -- Nothing else is built from a store.
  all_goals exact ⟨.refl store, fun later _ _ => rfl⟩

end Cascade
