import Cascade.Definition
import Cascade.Proofs.Collections
/-!
How many definitions a cache keeps.

Entries die unseen when the last handle to their definition is dropped, and stay until the cache has
grown to its threshold. A prune leaves at most half as many entries as its new threshold, so
whatever is asked, dropped and cleared, the cache stays below its threshold, and that is set by what
the latest prune left.
-/
namespace Cascade

namespace DefinitionCache

def extended (c : DefinitionCache) (signature : Signature) (definition : Definition) :
    DefinitionCache :=
  { c with
    issued := c.issued + 1
    entries := c.entries.insert signature ⟨⟨c.owner, c.issued⟩, definition⟩ }

variable {c : DefinitionCache} (held : InstanceId → Bool)

theorem pruned_of_lt (below : c.size < c.threshold) : c.pruned held = c := by
  rw [pruned, if_neg (Nat.not_le.mpr below)]

theorem pruned_of_le (reached : c.threshold ≤ c.size) :
    (c.pruned held).entries.entries = c.entries.entries.filter (fun entry => held entry.2.id) ∧
    (c.pruned held).threshold = max 64 (2 * (c.pruned held).size) := by
  rw [pruned, if_pos reached]
  exact ⟨rfl, rfl⟩

end DefinitionCache

/-- What can be done with a cache. Compiling a definition may itself ask the cache, so a definition
that was not found may also be added some time later. -/
inductive CacheCall where
  | get (signature : Signature) (compile : Signature → Definition)
  | add (signature : Signature) (definition : Definition)
  /-- One of the handles to an instance is dropped. -/
  | release (id : InstanceId)
  | clear

structure CacheUse where
  cache : DefinitionCache
  handles : List InstanceId

namespace CacheUse

def new (owner : Nat) : CacheUse := ⟨.new owner, []⟩

def held (u : CacheUse) (id : InstanceId) : Bool := u.handles.contains id

def after (u : CacheUse) : CacheCall → CacheUse
  | .get signature compile =>
    let (shared, cache) := u.cache.getOrAdd u.held signature compile
    ⟨cache, shared.id :: u.handles⟩
  | .add signature definition =>
    let (shared, cache) := u.cache.add u.held signature definition
    ⟨cache, shared.id :: u.handles⟩
  | .release id => ⟨u.cache, u.handles.erase id⟩
  | .clear => ⟨u.cache.cleared, u.handles⟩

def run (u : CacheUse) (calls : List CacheCall) : CacheUse := calls.foldl after u

/-- The cache with what a call adds to it, before it is pruned. A definition that somebody holds is
not added again. -/
def grown (u : CacheUse) : CacheCall → DefinitionCache
  | .get signature compile =>
    if (u.cache.live? u.held signature).isSome then u.cache
    else u.cache.extended signature (compile signature)
  | .add signature definition => u.cache.extended signature definition
  | .release _ | .clear => u.cache

def prunes (u : CacheUse) (call : CacheCall) : Bool :=
  decide ((u.grown call).threshold ≤ (u.grown call).size)

/-- How many entries the latest prune left once a call is done, given how many it was before. -/
def keptAfter (u : CacheUse) (kept : Option Nat) : CacheCall → Option Nat
  | .clear => none
  | call => if u.prunes call then some (u.after call).cache.size else kept

/-- How many entries the latest prune left, if there was one since the cache was new or cleared. -/
def latest (u : CacheUse) (kept : Option Nat) : List CacheCall → Option Nat
  | [] => kept
  | call :: rest => (u.after call).latest (u.keptAfter kept call) rest

variable {u : CacheUse}

theorem grown_threshold (u : CacheUse) (call : CacheCall) :
    (u.grown call).threshold = u.cache.threshold := by
  cases call with
  | get signature compile =>
      rw [grown]
      split <;> rfl
  | _ => rfl

theorem grown_distinct (distinct : u.cache.entries.keys.Nodup) (call : CacheCall) :
    (u.grown call).entries.keys.Nodup := by
  cases call with
  | get signature compile =>
      rw [grown]
      split
      · exact distinct
      · exact Table.insert_keys_nodup distinct _ _
  | add signature definition => exact Table.insert_keys_nodup distinct _ _
  | _ => exact distinct

-- Whoever adds a definition holds it, so at its own prune a new entry is not dead.
theorem cache_add (u : CacheUse) (signature : Signature) (definition : Definition) :
    (u.after (.add signature definition)).cache =
      (u.cache.extended signature definition).pruned
        (u.after (.add signature definition)).held := by
  have holds : (u.after (.add signature definition)).held =
      fun id => id == ⟨u.cache.owner, u.cache.issued⟩ || u.held id := by
    funext id
    exact List.contains_cons
  rw [holds]
  rfl

theorem cache_after (below : u.cache.size < u.cache.threshold) {call : CacheCall}
    (other : call ≠ .clear) :
    (u.after call).cache = (u.grown call).pruned (u.after call).held := by
  cases call with
  | get signature compile =>
      cases live : u.cache.live? u.held signature with
      | some shared =>
          simp only [after, grown, DefinitionCache.getOrAdd, live, Option.isSome_some, ↓reduceIte]
          exact (DefinitionCache.pruned_of_lt _ below).symm
      | none =>
          have same : u.after (.get signature compile) =
              u.after (.add signature (compile signature)) := by
            simp only [after, DefinitionCache.getOrAdd, live]
          simp only [same, grown, live, Option.isSome_none, Bool.false_eq_true, ↓reduceIte]
          exact cache_add u signature (compile signature)
  | add signature definition => exact cache_add u signature definition
  | release id => exact (DefinitionCache.pruned_of_lt _ below).symm
  | clear => exact absurd rfl other

theorem entries_of_prunes (below : u.cache.size < u.cache.threshold) {call : CacheCall}
    (other : call ≠ .clear) (reached : u.prunes call = true) :
    (u.after call).cache.entries.entries =
      (u.grown call).entries.entries.filter (fun entry => (u.after call).held entry.2.id) ∧
    (u.after call).cache.threshold = max 64 (2 * (u.after call).cache.size) := by
  rw [cache_after below other]
  exact DefinitionCache.pruned_of_le _ (of_decide_eq_true reached)

theorem cache_of_not_prunes (below : u.cache.size < u.cache.threshold) {call : CacheCall}
    (other : call ≠ .clear) (under : ¬ u.prunes call = true) :
    (u.after call).cache = u.grown call := by
  rw [cache_after below other]
  exact DefinitionCache.pruned_of_lt _ (Nat.lt_of_not_le fun le => under (decide_eq_true le))

/-- The size of a cache is below its threshold, which is set by what the latest prune left. -/
structure Bounded (u : CacheUse) (kept : Option Nat) : Prop where
  below : u.cache.size < u.cache.threshold
  threshold : u.cache.threshold = max 64 (2 * kept.getD 0)
  distinct : u.cache.entries.keys.Nodup

theorem Bounded.after {kept : Option Nat} (bounded : u.Bounded kept) (call : CacheCall) :
    (u.after call).Bounded (u.keptAfter kept call) := by
  by_cases clears : call = .clear
  · subst clears
    exact ⟨show 0 < 64 by decide, rfl, List.nodup_nil⟩
  · have distinct := grown_distinct bounded.distinct call
    have kind : u.keptAfter kept call =
        if u.prunes call then some (u.after call).cache.size else kept := by
      cases call with
      | clear => exact absurd rfl clears
      | _ => rfl
    rw [kind]
    split
    case isTrue reached =>
      obtain ⟨left, threshold⟩ := entries_of_prunes bounded.below clears reached
      refine ⟨by omega, threshold, ?_⟩
      rw [Table.keys, left]
      exact distinct.sublist (List.filter_sublist.map _)
    case isFalse under =>
      have cache := cache_of_not_prunes bounded.below clears under
      have below : (u.grown call).size < (u.grown call).threshold :=
        Nat.lt_of_not_le fun le => under (decide_eq_true le)
      exact ⟨cache ▸ below, by rw [cache, grown_threshold, bounded.threshold], cache ▸ distinct⟩

theorem Bounded.run {kept : Option Nat} (bounded : u.Bounded kept) (calls : List CacheCall) :
    (u.run calls).Bounded (u.latest kept calls) := by
  induction calls generalizing u kept with
  | nil => exact bounded
  | cons call rest ih => exact ih (bounded.after call)

/-- After any calls the entries of a cache, which are of different signatures, are fewer than its
threshold, and that is 64 or, if this is more, twice the number that the latest prune left. A call
that prunes leaves just the entries whose definition is held after it, its own one included, and
others drop none. -/
theorem run_below_threshold (owner : Nat) (calls : List CacheCall) :
    let u := (new owner).run calls
    u.cache.size < u.cache.threshold ∧
    u.cache.threshold = max 64 (2 * ((new owner).latest none calls).getD 0) ∧
    u.cache.entries.keys.Nodup ∧
    ∀ call, call ≠ .clear → (u.after call).cache.entries.entries =
      if u.prunes call then
        (u.grown call).entries.entries.filter fun entry => (u.after call).held entry.2.id
      else (u.grown call).entries.entries := by
  intro u
  have start : (new owner).Bounded none := ⟨show 0 < 64 by decide, rfl, List.nodup_nil⟩
  have bounded : u.Bounded ((new owner).latest none calls) := start.run calls
  refine ⟨bounded.below, bounded.threshold, bounded.distinct, fun call other => ?_⟩
  split
  case isTrue reached => exact (entries_of_prunes bounded.below other reached).1
  case isFalse under => rw [cache_of_not_prunes bounded.below other under]

end CacheUse
end Cascade
