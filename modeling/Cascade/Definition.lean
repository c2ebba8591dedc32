import Cascade.Instance
/-!
Values of properties in a style sheet, and the definitions made of them.

A list is pending until its items are built from its text. Building uses the tables of the style
sheet, so a list becomes pending again whenever the tables may have changed.
-/
namespace Cascade

inductive PropertyValue where
  | plain (value : PlainValue)
  | decorators (raw : String) (items : Option (List (Shared Decorator)))
  | fontEffects (raw : String) (items : Option (List (Shared FontEffect)))
  | animations (raw : String) (items : Option (List Animation))
  deriving Inhabited

def DeclaredValue.pending : DeclaredValue → PropertyValue
  | .plain value => .plain value
  | .list .decorators raw => .decorators raw none
  | .list .fontEffects raw => .fontEffects raw none
  | .list .animations raw => .animations raw none

namespace PropertyValue

def declared : PropertyValue → DeclaredValue
  | .plain value => .plain value
  | .decorators raw _ => .list .decorators raw
  | .fontEffects raw _ => .list .fontEffects raw
  | .animations raw _ => .list .animations raw

def isPending : PropertyValue → Bool
  | .plain _ => false
  | .decorators _ items => items.isNone
  | .fontEffects _ items => items.isNone
  | .animations _ items => items.isNone

def reset (v : PropertyValue) : PropertyValue := v.declared.pending

def written (v : PropertyValue) : String := v.declared.written

def build (tables : InstanceTables) (keyframes : Table String Keyframes) (v : PropertyValue)
    (store : InstanceStore) : PropertyValue × InstanceStore :=
  match v with
  | .decorators raw none =>
    let (items, store) := tables.decorators raw store
    (.decorators raw (some items), store)
  | .fontEffects raw none =>
    let (items, store) := tables.fontEffects raw store
    (.fontEffects raw (some items), store)
  | .animations raw none => (.animations raw (some (animationsOf keyframes raw)), store)
  | _ => (v, store)

end PropertyValue

/-! Sameness. Numbers are the same when they are numerically equal, and instances when they are
one. -/

def Scalar.same (a b : Scalar) : Bool := a.value.numEq b.value && a.unit == b.unit

def PlainValue.same : PlainValue → PlainValue → Bool
  | .number a, .number b => a.numEq b
  | .scalar a, .scalar b => a.same b
  | a, b => a == b

def DeclaredValue.same : DeclaredValue → DeclaredValue → Bool
  | .plain a, .plain b => a.same b
  | a, b => a == b

def sameList {α : Type} (same : α → α → Bool) : List α → List α → Bool
  | [], [] => true
  | a :: as, b :: bs => same a b && sameList same as bs
  | _, _ => false

def sameOption {α : Type} (same : α → α → Bool) : Option α → Option α → Bool
  | none, none => true
  | some a, some b => same a b
  | _, _ => false

def Keyframes.same (a b : Keyframes) : Bool :=
  a.properties == b.properties && sameList (fun (x y : KeyframeBlock) =>
    x.time.numEq y.time && x.properties.agrees DeclaredValue.same y.properties) a.blocks b.blocks

def Animation.same (a b : Animation) : Bool :=
  a.name == b.name && a.duration.numEq b.duration && a.delay.numEq b.delay && a.tween == b.tween &&
    a.iterations == b.iterations && a.alternate == b.alternate && a.paused == b.paused &&
    a.keyframes.same b.keyframes

def PropertyValue.same : PropertyValue → PropertyValue → Bool
  | .plain a, .plain b => a.same b
  | .decorators raw xs, .decorators raw' ys => raw == raw' && sameOption Shared.sameAll xs ys
  | .fontEffects raw xs, .fontEffects raw' ys => raw == raw' && sameOption Shared.sameAll xs ys
  | .animations raw xs, .animations raw' ys =>
    raw == raw' && sameOption (sameList Animation.same) xs ys
  | _, _ => false

structure Definition where
  properties : Dictionary PropertyValue
  deriving Inhabited

namespace Definition

def empty : Definition := ⟨.empty⟩

def isEmpty (d : Definition) : Bool := d.properties.isEmpty

def get? (d : Definition) (p : Longhand) : Option (Property PropertyValue) := d.properties.get? p

/-- The decorators that are built; none if there are none or they are pending. -/
def decorators (d : Definition) : List (Shared Decorator) :=
  match d.properties.value? .decorator with
  | some (.decorators _ (some items)) => items
  | _ => []

def fontEffects (d : Definition) : List (Shared FontEffect) :=
  match d.properties.value? .fontEffect with
  | some (.fontEffects _ (some items)) => items
  | _ => []

def animations (d : Definition) : List Animation :=
  match d.properties.value? .animation with
  | some (.animations _ (some items)) => items
  | _ => []

/-- A declaration a line, in the order of dictionaries. -/
def text (d : Definition) : String :=
  String.join (d.properties.toList.map fun (p, property) =>
    p.name ++ ": " ++ property.value.written ++ ";\n")

def same (a b : Definition) : Bool := a.properties.agrees PropertyValue.same b.properties

end Definition

/-! Definitions shared between elements that match the same nodes.
A cache does not keep its definitions: one that nobody else holds is dead, and is not given out
again. Dead entries stay until the cache has grown to a threshold; then all of them go, and the
threshold becomes twice what is left, but never less than at first. -/

/-- The nodes that an element matches, in ascending order. -/
abbrev Signature := List Nat

structure DefinitionCache where
  owner : Nat
  issued : Nat
  entries : Table Signature (Shared Definition)
  threshold : Nat
  deriving Inhabited

namespace DefinitionCache

def leastThreshold : Nat := 64

def new (owner : Nat) : DefinitionCache := ⟨owner, 0, .empty, leastThreshold⟩

/-- The number of entries, dead ones included. -/
def size (c : DefinitionCache) : Nat := c.entries.size

def isEmpty (c : DefinitionCache) : Bool := c.size = 0

/-- The definition of a signature, if somebody holds it. -/
def live? (c : DefinitionCache) (held : InstanceId → Bool) (signature : Signature) :
    Option (Shared Definition) :=
  (c.entries.get? signature).filter fun d => held d.id

/-- The cache less its dead entries if it has grown to the threshold. -/
def pruned (c : DefinitionCache) (held : InstanceId → Bool) : DefinitionCache :=
  if c.threshold ≤ c.size then
    let left := c.entries.entries.filter fun entry => held entry.2.id
    { c with entries := ⟨left⟩, threshold := max leastThreshold (2 * left.length) }
  else c

/-- The cache with a new definition for a signature. Whoever adds it holds it. -/
def add (c : DefinitionCache) (held : InstanceId → Bool) (signature : Signature)
    (definition : Definition) : Shared Definition × DefinitionCache :=
  let shared : Shared Definition := ⟨⟨c.owner, c.issued⟩, definition⟩
  let grown := { c with issued := c.issued + 1, entries := c.entries.insert signature shared }
  (shared, grown.pruned fun id => id == shared.id || held id)

def getOrAdd (c : DefinitionCache) (held : InstanceId → Bool) (signature : Signature)
    (compile : Signature → Definition) : Shared Definition × DefinitionCache :=
  match c.live? held signature with
  | some shared => (shared, c)
  | none => c.add held signature (compile signature)

/-- The cache without entries; the identities it has issued stay issued. -/
def cleared (c : DefinitionCache) : DefinitionCache :=
  { c with entries := .empty, threshold := leastThreshold }

end DefinitionCache
end Cascade
