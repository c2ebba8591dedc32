/-!
Ordered lists and tables.

A list in ascending order without repetitions is the normal form of a set. A table keeps keys in the
order in which they came.
-/
namespace Cascade.Ordered

def insert {α : Type} (before : α → α → Bool) (a : α) : List α → List α
  | [] => [a]
  | b :: rest =>
    if before a b then a :: b :: rest
    else if before b a then b :: insert before a rest
    else b :: rest

def ofList {α : Type} (before : α → α → Bool) (xs : List α) : List α :=
  xs.foldr (insert before) []

def texts (xs : List String) : List String := ofList (fun a b => decide (a < b)) xs

def numbers (xs : List Nat) : List Nat := ofList (fun a b => decide (a < b)) xs

end Cascade.Ordered

/-! Tables from keys to values, in the order in which the keys came. A key that comes again keeps
its place and takes the new value. -/
namespace Cascade

structure Table (κ α : Type) where
  entries : List (κ × α)
  deriving DecidableEq, Inhabited

namespace Table
variable {κ α β : Type} [DecidableEq κ]

def empty : Table κ α := ⟨[]⟩

def find? (key : κ) : List (κ × α) → Option α
  | [] => none
  | (k, value) :: rest => if k = key then some value else find? key rest

def get? (t : Table κ α) (key : κ) : Option α := find? key t.entries

def put (key : κ) (value : α) : List (κ × α) → List (κ × α)
  | [] => [(key, value)]
  | (k, old) :: rest => if k = key then (k, value) :: rest else (k, old) :: put key value rest

def insert (t : Table κ α) (key : κ) (value : α) : Table κ α := ⟨put key value t.entries⟩

def ofList (entries : List (κ × α)) : Table κ α :=
  entries.foldl (fun t entry => t.insert entry.1 entry.2) empty

def merge (t other : Table κ α) : Table κ α :=
  other.entries.foldl (fun t entry => t.insert entry.1 entry.2) t

def contains (t : Table κ α) (key : κ) : Bool := (t.get? key).isSome

def size (t : Table κ α) : Nat := t.entries.length

theorem find?_put (key other : κ) (value : α) (entries : List (κ × α)) :
    find? other (put key value entries) =
      if key = other then some value else find? other entries := by
  induction entries with
  | nil => simp [put, find?]
  | cons entry rest ih =>
    obtain ⟨k, old⟩ := entry
    by_cases hk : k = key
    · subst hk
      by_cases ho : k = other <;> simp [put, find?, ho]
    · by_cases ho : k = other
      · subst ho
        have : ¬ key = k := fun h => hk h.symm
        simp [put, find?, hk, this]
      · simp [put, find?, hk, ho, ih]

@[simp] theorem get?_insert (t : Table κ α) (key other : κ) (value : α) :
    (t.insert key value).get? other = if key = other then some value else t.get? other :=
  find?_put key other value t.entries

end Table
end Cascade
