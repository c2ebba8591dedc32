import Cascade.Proofs.Collections
import Cascade.Proofs.Instance.Growth
import Mathlib.Data.List.Forall2
/-!
What instances are kept under.

A store keeps no instance under two keys, and binding arguments loses none of them. So two items of
lists share an instance exactly if they are the same name, or calls of one type with the same
arguments, whichever of them was built first and whatever else was built.
-/
namespace Cascade

inductive InstanceKey where
  | named (name : String)
  | decorator (key : CallKey)
  | fontEffect (key : CallKey)
  deriving DecidableEq

namespace InstanceStore
variable {store left later : InstanceStore} {key other : InstanceKey} {id : InstanceId}

def id? (store : InstanceStore) : InstanceKey → Option InstanceId
  | .named name => ((store.named.get? name).join).map Shared.id
  | .decorator key => (store.decorators.get? key).map Shared.id
  | .fontEffect key => (store.fontEffects.get? key).map Shared.id

/-- All instances were issued by the store, and none is kept under two keys. -/
structure Distinct (store : InstanceStore) : Prop where
  issued : ∀ key id, store.id? key = some id → id.owner = store.owner ∧ id.serial < store.issued
  single : ∀ key other id, store.id? key = some id → store.id? other = some id → key = other

structure Adds (store left : InstanceStore) (key : InstanceKey) : Prop where
  owner : left.owner = store.owner
  issued : left.issued = store.issued + 1
  new : left.id? key = some ⟨store.owner, store.issued⟩
  old : ∀ other, other ≠ key → left.id? other = store.id? other

theorem Distinct.adds (distinct : store.Distinct) (adds : store.Adds left key) :
    left.Distinct := by
  have cases_of {other : InstanceKey} {id : InstanceId} (known : left.id? other = some id) :
      other = key ∧ id = ⟨store.owner, store.issued⟩ ∨
      other ≠ key ∧ store.id? other = some id ∧ id.owner = store.owner ∧
        id.serial < store.issued := by
    by_cases same : other = key
    · subst same
      rw [adds.new] at known
      exact .inl ⟨rfl, (Option.some.inj known).symm⟩
    · rw [adds.old other same] at known
      exact .inr ⟨same, known, distinct.issued other id known⟩
  constructor
  · intro other id known
    rw [adds.owner, adds.issued]
    rcases cases_of known with ⟨-, rfl⟩ | ⟨-, -, owner, earlier⟩
    · exact ⟨rfl, Nat.lt_succ_self _⟩
    · exact ⟨owner, Nat.lt_succ_of_lt earlier⟩
  · intro a b id first second
    -- The new identity is above all others.
    rcases cases_of first with ⟨rfl, rfl⟩ | ⟨-, here, -, earlier⟩ <;>
      rcases cases_of second with ⟨rfl, same⟩ | ⟨-, there, -, lower⟩
    · rfl
    · exact (Nat.lt_irrefl _ lower).elim
    · subst same
      exact (Nat.lt_irrefl _ earlier).elim
    · exact distinct.single a b id here there

theorem Distinct.congr (distinct : store.Distinct) (owner : left.owner = store.owner)
    (issued : left.issued = store.issued) (same : ∀ key, left.id? key = store.id? key) :
    left.Distinct where
  issued key id known := by
    rw [owner, issued]
    exact distinct.issued key id (same key ▸ known)
  single key other id first second :=
    distinct.single key other id (same key ▸ first) (same other ▸ second)

theorem distinct_of_bare (named : store.named = .empty) (decorators : store.decorators = .empty)
    (fontEffects : store.fontEffects = .empty) : store.Distinct := by
  have none (key : InstanceKey) : store.id? key = none := by
    cases key <;> simp [id?, named, decorators, fontEffects]
  constructor <;> simp [none]

theorem Extends.id? (more : store.Extends later) (known : store.id? key = some id) :
    later.id? key = some id := by
  cases key with
  | named name =>
      obtain ⟨shared, found, rfl⟩ := Option.map_eq_some_iff.mp known
      simp [id?, more.named name _ (Option.join_eq_some_iff.mp found)]
  | decorator key =>
      obtain ⟨shared, found, rfl⟩ := Option.map_eq_some_iff.mp known
      simp [id?, more.decorators key shared found]
  | fontEffect key =>
      obtain ⟨shared, found, rfl⟩ := Option.map_eq_some_iff.mp known
      simp [id?, more.fontEffects key shared found]

def Keeps {ι α : Type} (store : InstanceStore) (key? : ι → Option InstanceKey) (i : ι)
    (shared : Shared α) : Prop :=
  ∃ key, key? i = some key ∧ store.id? key = some shared.id

section Keeps
variable {ι α : Type} {key? : ι → Option InstanceKey} {i j : ι} {a b : Shared α}

theorem Keeps.mono (keeps : store.Keeps key? i a) (more : store.Extends later) :
    later.Keeps key? i a := by
  obtain ⟨key, found, known⟩ := keeps
  exact ⟨key, found, more.id? known⟩

/-- If different items have different keys, instances are one exactly if the items are. -/
theorem Keeps.same_iff (distinct : store.Distinct)
    (injective : ∀ i j key, key? i = some key → key? j = some key → i = j)
    (first : store.Keeps key? i a) (second : store.Keeps key? j b) : a.id = b.id ↔ i = j := by
  obtain ⟨key, found, here⟩ := first
  obtain ⟨other, known, there⟩ := second
  constructor
  · intro same
    obtain rfl := distinct.single key other a.id here (same ▸ there)
    exact injective i j key found known
  · rintro rfl
    obtain rfl := Option.some.inj (found.symm.trans known)
    exact Option.some.inj (here.symm.trans there)

end Keeps

theorem adds_named (store : InstanceStore) (name : String) (value : Decorator) :
    store.Adds { store with
      issued := store.issued + 1
      named := store.named.insert name (some (store.share value).1) } (.named name) where
  owner := rfl
  issued := rfl
  new := by simp [id?, share]
  old other different := by
    cases other with
    | named n =>
        have apart : name ≠ n := fun same => different (same ▸ rfl)
        simp [id?, apart]
    | decorator | fontEffect => rfl

theorem adds_decorator (store : InstanceStore) (key : CallKey) (value : Decorator) :
    store.Adds { store with
      issued := store.issued + 1
      decorators := store.decorators.insert key (store.share value).1 } (.decorator key) where
  owner := rfl
  issued := rfl
  new := by simp [id?, share]
  old other different := by
    cases other with
    | decorator k =>
        have apart : key ≠ k := fun same => different (same ▸ rfl)
        simp [id?, apart]
    | named | fontEffect => rfl

theorem adds_fontEffect (store : InstanceStore) (key : CallKey) (value : FontEffect) :
    store.Adds { store with
      issued := store.issued + 1
      fontEffects := store.fontEffects.insert key (store.share value).1 } (.fontEffect key) where
  owner := rfl
  issued := rfl
  new := by simp [id?, share]
  old other different := by
    cases other with
    | fontEffect k =>
        have apart : key ≠ k := fun same => different (same ▸ rfl)
        simp [id?, apart]
    | named | decorator => rfl

end InstanceStore

namespace Table
variable {κ α : Type} [DecidableEq κ]

theorem insert_of_absent {t : Table κ α} {key : κ} (absent : key ∉ t.keys) (value : α) :
    (t.insert key value).entries = t.entries ++ [(key, value)] := by
  obtain ⟨entries⟩ := t
  simp only [insert]
  induction entries with
  | nil => rfl
  | cons head rest ih =>
      obtain ⟨k, old⟩ := head
      obtain ⟨other, later⟩ := not_or.mp (List.mem_cons.not.mp absent)
      rw [put, if_neg (Ne.symm other), List.cons_append, ih later]

/-- A table of entries with different keys lists them as they came. -/
theorem ofList_entries {entries : List (κ × α)} (distinct : (entries.map Prod.fst).Nodup) :
    (ofList entries).entries = entries := by
  induction entries using List.reverseRecOn with
  | nil => rfl
  | append_singleton front last ih =>
      rw [List.map_append, List.nodup_append] at distinct
      obtain ⟨early, -, apart⟩ := distinct
      have same := ih early
      rw [ofList_append, insert_of_absent, same]
      rw [keys, same]
      intro member
      exact apart _ member last.1 (by simp) rfl

end Table

/-- No type names one of its parameters twice. -/
structure Registry.Unambiguous (r : Registry) : Prop where
  decorators : ∀ name type, r.decorators.get? name = some type → type.parameters.Nodup
  fontEffects : ∀ name type, r.fontEffects.get? name = some type → type.parameters.Nodup

theorem Registry.builtin_unambiguous : Registry.builtin.Unambiguous := by
  have decorators : ∀ entry ∈ builtin.decorators.entries, entry.2.parameters.Nodup := by
    decide
  have fontEffects : ∀ entry ∈ builtin.fontEffects.entries, entry.2.parameters.Nodup := by
    decide
  exact ⟨fun name type known => decorators _ (Table.mem_of_get known),
    fun name type known => fontEffects _ (Table.mem_of_get known)⟩

/-- Binding to different parameters loses nothing. -/
theorem bindArguments_injective {type other : String} {parameters arguments others : List String}
    {properties : Table String String} (distinct : parameters.Nodup)
    (first : bindArguments type parameters arguments = .ok properties)
    (second : bindArguments other parameters others = .ok properties) : arguments = others := by
  have recovered {type : String} {arguments : List String}
      (bound : bindArguments type parameters arguments = .ok properties) :
      arguments = properties.entries.map Prod.snd := by
    rw [bindArguments] at bound
    split at bound
    case isTrue => cases bound
    case isFalse fits =>
      obtain rfl := Except.ok.inj bound
      have fits := Nat.le_of_not_lt fits
      have names : (parameters.zip arguments).map Prod.fst = parameters.take arguments.length := by
        rw [List.zip_eq_zip_take_min, Nat.min_eq_right fits, List.take_length, List.map_fst_zip]
        exact Nat.le_of_eq (List.length_take_of_le fits)
      rw [Table.ofList_entries, List.map_snd_zip fits]
      rw [names]
      exact distinct.sublist (List.take_sublist _ _)
  rw [recovered first, recovered second]

def callKey? {K : Type} (types : Table String (InstanceType K)) (type : String)
    (arguments : List String) : Option CallKey :=
  match types.get? type with
  | none => none
  | some registered =>
    match bindArguments type registered.parameters arguments with
    | .error _ => none
    | .ok properties => some (type, properties)

theorem callKey?_injective {K : Type} {types : Table String (InstanceType K)}
    (distinct : ∀ name type, types.get? name = some type → type.parameters.Nodup)
    {type other : String} {arguments others : List String} {key : CallKey}
    (first : callKey? types type arguments = some key)
    (second : callKey? types other others = some key) : type = other ∧ arguments = others := by
  have bound {type : String} {arguments : List String}
      (known : callKey? types type arguments = some key) : type = key.1 ∧
        ∃ registered, types.get? type = some registered ∧
          bindArguments type registered.parameters arguments = .ok key.2 := by
    rw [callKey?] at known
    split at known
    case h_1 => cases known
    case h_2 registered found =>
      split at known
      case h_1 => cases known
      case h_2 properties success =>
        obtain rfl := Option.some.inj known
        exact ⟨rfl, registered, found, success⟩
  obtain ⟨rfl, registered, found, here⟩ := bound first
  obtain ⟨rfl, _, again, there⟩ := bound second
  obtain rfl := Option.some.inj (found.symm.trans again)
  exact ⟨rfl, bindArguments_injective (distinct _ _ found) here there⟩

/-- The type and the arguments that an item calls; a name is a call without arguments. -/
def ListItem.asCall : ListItem → String × List String
  | .name n => (n, [])
  | .call type arguments => (type, arguments)

namespace InstanceTables
variable {t : InstanceTables} {store left later : InstanceStore}

def decoratorKey? (t : InstanceTables) : ListItem → Option InstanceKey
  | .name name => some (.named name)
  | .call type arguments => (callKey? t.registry.decorators type arguments).map .decorator

def fontEffectKey? (t : InstanceTables) (call : String × List String) : Option InstanceKey :=
  (callKey? t.registry.fontEffects call.1 call.2).map .fontEffect

theorem decoratorKey?_injective (unambiguous : t.registry.Unambiguous) {i j : ListItem}
    {key : InstanceKey} (first : t.decoratorKey? i = some key)
    (second : t.decoratorKey? j = some key) : i = j := by
  cases i with
  | name n =>
      obtain rfl := Option.some.inj first
      cases j with
      | name m => simpa using (Option.some.inj second).symm
      | call =>
          obtain ⟨_, -, absurd⟩ := Option.map_eq_some_iff.mp second
          cases absurd
  | call type arguments =>
      obtain ⟨known, here, rfl⟩ := Option.map_eq_some_iff.mp first
      cases j with
      | name _ => cases second
      | call other others =>
          obtain ⟨_, there, same⟩ := Option.map_eq_some_iff.mp second
          obtain rfl := InstanceKey.decorator.inj same
          obtain ⟨rfl, rfl⟩ := callKey?_injective unambiguous.decorators here there
          rfl

theorem fontEffectKey?_injective (unambiguous : t.registry.Unambiguous)
    {call other : String × List String} {key : InstanceKey}
    (first : t.fontEffectKey? call = some key) (second : t.fontEffectKey? other = some key) :
    call = other := by
  obtain ⟨known, here, rfl⟩ := Option.map_eq_some_iff.mp first
  obtain ⟨_, there, same⟩ := Option.map_eq_some_iff.mp second
  obtain rfl := InstanceKey.fontEffect.inj same
  exact Prod.ext_iff.mpr (callKey?_injective unambiguous.fontEffects here there)

theorem named_keeps (distinct : store.Distinct) (specification : DecoratorSpecification)
    (name : String) : (t.named specification name store).2.Distinct ∧
      ∀ shared, (t.named specification name store).1 = some shared →
        (t.named specification name store).2.Keeps t.decoratorKey? (.name name) shared := by
  rw [named]
  split
  case h_1 known found =>
    refine ⟨distinct, ?_⟩
    rintro shared rfl
    exact ⟨.named name, rfl, by simp [InstanceStore.id?, found]⟩
  case h_2 missing =>
    split
    case h_1 decorator built =>
      have adds := store.adds_named name decorator
      refine ⟨distinct.adds adds, ?_⟩
      rintro shared same
      obtain rfl := Option.some.inj same
      exact ⟨.named name, rfl, adds.new⟩
    case h_2 error failed =>
      refine ⟨distinct.congr rfl rfl fun key => ?_, fun shared absurd => by cases absurd⟩
      cases key with
      | named other =>
          by_cases same : name = other
          · subst same
            simp [InstanceStore.id?, missing]
          · simp [InstanceStore.id?, same]
      | decorator | fontEffect => rfl

end InstanceTables

structure CallSort.Keyed {K α : Type} (s : CallSort K α) (place : CallKey → InstanceKey) :
    Prop where
  kept : ∀ {store : InstanceStore} {key : CallKey} {shared : Shared α},
    (s.kept store).get? key = some shared → store.id? (place key) = some shared.id
  added : ∀ (store : InstanceStore) (key : CallKey) (value : α),
    store.Adds (s.added store key value) (place key)

theorem CallSort.Keyed.call {K α : Type} {s : CallSort K α} {place : CallKey → InstanceKey}
    {store left : InstanceStore} (keyed : s.Keyed place) (distinct : store.Distinct)
    {type : String} {arguments : List String} {shared : Shared α}
    (success : s.call type arguments store = .ok (shared, left)) :
    left.Distinct ∧ ∃ key, s.key type arguments = .ok key ∧
      left.id? (place key) = some shared.id := by
  rw [CallSort.call] at success
  cases found : s.key type arguments with
  | error e => simp [found] at success
  | ok key =>
      simp only [found] at success
      cases known : (s.kept store).get? key with
      | some old =>
          rw [CallSort.request_of_kept known] at success
          obtain ⟨rfl, rfl⟩ := Prod.mk.inj (Except.ok.inj success)
          exact ⟨distinct, key, rfl, keyed.kept known⟩
      | none =>
          rw [CallSort.request_of_missing known] at success
          cases built : s.build key with
          | error e => simp [built, Except.map] at success
          | ok value =>
              rw [built] at success
              obtain ⟨rfl, rfl⟩ := Prod.mk.inj (Except.ok.inj success)
              have adds := keyed.added store key value
              exact ⟨distinct.adds adds, key, rfl, adds.new⟩

/-- What a call is kept under is what its type and its arguments come to. -/
theorem CallSort.callKey?_eq {K α : Type} {s : CallSort K α} {type : String}
    {arguments : List String} {key : CallKey} (found : s.key type arguments = .ok key) :
    callKey? s.types type arguments = some key := by
  rw [CallSort.key] at found
  rw [callKey?]
  cases registered : s.types.get? type with
  | none => simp [registered] at found
  | some entry =>
      cases bound : bindArguments type entry.parameters arguments with
      | error e => simp [registered, bound] at found
      | ok properties =>
          simp only [registered, bound, Except.ok.injEq] at found
          simp only [bound, found]

namespace InstanceTables
variable {t : InstanceTables} {store left later : InstanceStore}

theorem decoratorCalls_keyed (t : InstanceTables) : t.decoratorCalls.Keyed .decorator where
  kept known := congrArg (Option.map Shared.id) known
  added store key value := store.adds_decorator key value

theorem fontEffectCalls_keyed (t : InstanceTables) : t.fontEffectCalls.Keyed .fontEffect where
  kept known := congrArg (Option.map Shared.id) known
  added store key value := store.adds_fontEffect key value

theorem calledDecorator_keeps (distinct : store.Distinct) {type : String}
    {arguments : List String} {shared : Shared Decorator}
    (success : t.calledDecorator type arguments store = .ok (shared, left)) :
    left.Distinct ∧ left.Keeps t.decoratorKey? (.call type arguments) shared := by
  rw [calledDecorator_eq] at success
  obtain ⟨still, key, found, kept⟩ := (decoratorCalls_keyed t).call distinct success
  have known : callKey? t.registry.decorators type arguments = some key :=
    CallSort.callKey?_eq found
  exact ⟨still, .decorator key, by simp [decoratorKey?, known], kept⟩

theorem calledFontEffect_keeps (distinct : store.Distinct) {type : String}
    {arguments : List String} {shared : Shared FontEffect}
    (success : t.calledFontEffect type arguments store = .ok (shared, left)) :
    left.Distinct ∧ left.Keeps t.fontEffectKey? (type, arguments) shared := by
  rw [calledFontEffect_eq] at success
  obtain ⟨still, key, found, kept⟩ := (fontEffectCalls_keyed t).call distinct success
  have known : callKey? t.registry.fontEffects type arguments = some key :=
    CallSort.callKey?_eq found
  exact ⟨still, .fontEffect key, by simp [fontEffectKey?, known], kept⟩

theorem decoratorItem_keeps (distinct : store.Distinct) {item : String}
    {built : Option (Shared Decorator)}
    (success : t.decoratorItem item store = .ok (built, left)) :
    left.Distinct ∧ ∀ shared, built = some shared →
      ∃ i, ListItem.ofText item = .ok i ∧ left.Keeps t.decoratorKey? i shared := by
  rw [decoratorItem] at success
  split at success
  case h_1 => cases success
  case h_2 name classified =>
    split at success
    case h_1 => cases success
    case h_2 specification known =>
      have same := Except.ok.inj success
      have keeps := named_keeps (t := t) distinct specification name
      rw [same] at keeps
      exact ⟨keeps.1, fun shared given => ⟨.name name, classified, keeps.2 shared given⟩⟩
  case h_3 type arguments classified =>
    cases called : t.calledDecorator type arguments store with
    | error e => simp [called, Except.map] at success
    | ok pair =>
        rw [called] at success
        obtain ⟨rfl, rfl⟩ := Prod.mk.inj (Except.ok.inj success)
        obtain ⟨still, kept⟩ := calledDecorator_keeps distinct called
        refine ⟨still, fun shared same => ?_⟩
        obtain rfl := Option.some.inj same
        exact ⟨_, classified, kept⟩

theorem fontEffectItem_keeps (distinct : store.Distinct) {item : String}
    {shared : Shared FontEffect} (success : t.fontEffectItem item store = .ok (shared, left)) :
    left.Distinct ∧
      ∃ i, ListItem.ofText item = .ok i ∧ left.Keeps t.fontEffectKey? i.asCall shared := by
  rw [fontEffectItem] at success
  split at success
  case h_1 => cases success
  case h_2 name classified =>
    obtain ⟨still, kept⟩ := calledFontEffect_keeps distinct success
    exact ⟨still, .name name, classified, kept⟩
  case h_3 type arguments classified =>
    obtain ⟨still, kept⟩ := calledFontEffect_keeps distinct success
    exact ⟨still, .call type arguments, classified, kept⟩

def decoratorUse? (t : InstanceTables) (item : String) : Option ListItem :=
  (ListItem.ofText item).toOption.bind fun i => (t.decoratorItemValue? item).map fun _ => i

def fontEffectUse? (t : InstanceTables) (item : String) : Option (String × List String) :=
  (ListItem.ofText item).toOption.bind fun i => (t.fontEffectItemValue? item).map fun _ => i.asCall

def decoratorUses (t : InstanceTables) (raw : String) : List ListItem :=
  (listItems raw).filterMap t.decoratorUse?

def fontEffectUses (t : InstanceTables) (raw : String) : List (String × List String) :=
  (listItems raw).filterMap t.fontEffectUse?

/-- Instances for uses in turn, all kept in the store that is left. -/
structure Files {ι α : Type} (t : InstanceTables) (key? : ι → Option InstanceKey) (uses : List ι)
    (result : List (Shared α) × InstanceStore) : Prop where
  sound : result.2.Sound t
  distinct : result.2.Distinct
  kept : List.Forall₂ (result.2.Keeps key?) uses result.1

theorem Files.cons {ι α : Type} {key? : ι → Option InstanceKey} {uses : List ι} {i : ι}
    {shared : Shared α} {result : List (Shared α) × InstanceStore}
    (files : t.Files key? uses result) (keeps : left.Keeps key? i shared)
    (more : left.Extends result.2) : t.Files key? (i :: uses) (shared :: result.1, result.2) :=
  ⟨files.sound, files.distinct, .cons (keeps.mono more) files.kept⟩

theorem decoratorItems_files (sound : store.Sound t) (distinct : store.Distinct)
    (items : List String) : t.Files t.decoratorKey? (items.filterMap t.decoratorUse?)
      (t.decoratorItems store items) := by
  induction items generalizing store with
  | nil => exact ⟨sound, distinct, .nil⟩
  | cons item rest ih =>
      have worth := decoratorItem_spec sound item
      rw [decoratorItems]
      cases result : t.decoratorItem item store with
      | error e =>
          rw [result] at worth
          have unused : t.decoratorUse? item = none := by
            have absent : t.decoratorItemValue? item = none := worth
            simp [decoratorUse?, absent]
          rw [List.filterMap_cons_none unused]
          exact ih sound distinct
      | ok pair =>
          obtain ⟨built, left⟩ := pair
          rw [result] at worth
          obtain ⟨value, after⟩ := worth
          obtain ⟨still, keeps⟩ := decoratorItem_keeps distinct result
          have others := ih after still
          cases built with
          | none =>
              have unused : t.decoratorUse? item = none := by
                have absent : t.decoratorItemValue? item = none := value.symm
                simp [decoratorUse?, absent]
              rw [List.filterMap_cons_none unused]
              exact others
          | some shared =>
              obtain ⟨i, classified, kept⟩ := keeps shared rfl
              have used : t.decoratorUse? item = some i := by
                have present : t.decoratorItemValue? item = some shared.value := value.symm
                simp [decoratorUse?, present, classified, Except.toOption]
              rw [List.filterMap_cons_some used]
              exact others.cons kept (decoratorItems_stays t rest left).grows

theorem fontEffectItems_files (sound : store.Sound t) (distinct : store.Distinct)
    (items : List String) : t.Files t.fontEffectKey? (items.filterMap t.fontEffectUse?)
      (t.fontEffectItems store items) := by
  induction items generalizing store with
  | nil => exact ⟨sound, distinct, .nil⟩
  | cons item rest ih =>
      have worth := fontEffectItem_spec sound item
      rw [fontEffectItems]
      cases result : t.fontEffectItem item store with
      | error e =>
          rw [result] at worth
          have unused : t.fontEffectUse? item = none := by
            have absent : t.fontEffectItemValue? item = none := worth
            simp [fontEffectUse?, absent]
          rw [List.filterMap_cons_none unused]
          exact ih sound distinct
      | ok pair =>
          obtain ⟨shared, left⟩ := pair
          rw [result] at worth
          obtain ⟨value, after⟩ := worth
          obtain ⟨still, i, classified, kept⟩ := fontEffectItem_keeps distinct result
          have used : t.fontEffectUse? item = some i.asCall := by
            have present : t.fontEffectItemValue? item = some shared.value := value.symm
            simp [fontEffectUse?, present, classified, Except.toOption]
          rw [List.filterMap_cons_some used]
          exact (ih after still).cons kept (fontEffectItems_stays t rest left).grows

theorem decorators_files (sound : store.Sound t) (distinct : store.Distinct) (raw : String) :
    t.Files t.decoratorKey? (t.decoratorUses raw) (t.decorators raw store) :=
  decoratorItems_files sound distinct (listItems raw)

theorem fontEffects_files (sound : store.Sound t) (distinct : store.Distinct) (raw : String) :
    t.Files t.fontEffectKey? (t.fontEffectUses raw) (t.fontEffects raw store) :=
  fontEffectItems_files sound distinct (listItems raw)

end InstanceTables

namespace PropertyValue
variable {t : InstanceTables} {keyframes : Table String Keyframes} {store later : InstanceStore}
  {v : PropertyValue}

def Filed (t : InstanceTables) (store : InstanceStore) : PropertyValue → Prop
  | .decorators raw (some items) =>
    List.Forall₂ (store.Keeps t.decoratorKey?) (t.decoratorUses raw) items
  | .fontEffects raw (some items) =>
    List.Forall₂ (store.Keeps t.fontEffectKey?) (t.fontEffectUses raw) items
  | _ => True

theorem pending_filed (t : InstanceTables) (store : InstanceStore) (v : DeclaredValue) :
    v.pending.Filed t store := by
  cases v with
  | plain value => trivial
  | list kind raw => cases kind <;> trivial

theorem Filed.mono (filed : v.Filed t store) (more : store.Extends later) : v.Filed t later := by
  rcases v with value | ⟨raw, _ | items⟩ | ⟨raw, _ | items⟩ | ⟨raw, items⟩
  case decorators.some => exact List.Forall₂.imp (fun _ _ keeps => keeps.mono more) filed
  case fontEffects.some => exact List.Forall₂.imp (fun _ _ keeps => keeps.mono more) filed
  all_goals trivial

theorem build_files (sound : store.Sound t) (distinct : store.Distinct)
    (filed : v.Filed t store) :
    (v.build t keyframes store).2.Distinct ∧
      (v.build t keyframes store).1.Filed t (v.build t keyframes store).2 := by
  rcases v with value | ⟨raw, _ | items⟩ | ⟨raw, _ | items⟩ | ⟨raw, _ | items⟩
  case decorators.none =>
    have files := InstanceTables.decorators_files sound distinct raw
    simp only [build]
    exact ⟨files.distinct, files.kept⟩
  case fontEffects.none =>
    have files := InstanceTables.fontEffects_files sound distinct raw
    simp only [build]
    exact ⟨files.distinct, files.kept⟩
  all_goals exact ⟨distinct, filed⟩

end PropertyValue
end Cascade
