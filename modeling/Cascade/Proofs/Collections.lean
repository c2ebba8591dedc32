import Cascade.Sprite
import Mathlib.Data.List.Induction
import Mathlib.Data.List.Sort
import Mathlib.Data.String.Basic
/-!
Ordered lists and tables, however they came about.

In whatever order elements come, and however often, putting them in order leaves each of them once.
So two lists come to the same ordered one exactly if they have the same elements.
-/
namespace Cascade.Ordered

section Linear
variable {α : Type} [LinearOrder α]

theorem mem_insert (a b : α) (rest : List α) :
    b ∈ insert (fun a b => decide (a < b)) a rest ↔ b = a ∨ b ∈ rest := by
  induction rest with
  | nil => simp [insert]
  | cons c rest ih =>
      rw [insert]
      rcases lt_trichotomy a c with before | same | after
      · simp [before]
      · simp [same]
      · simp [after, not_lt_of_gt after, ih, or_left_comm]

theorem mem_ofList (xs : List α) (a : α) :
    a ∈ ofList (fun a b => decide (a < b)) xs ↔ a ∈ xs := by
  induction xs with
  | nil => rfl
  | cons b rest ih =>
      rw [List.mem_cons]
      exact (mem_insert b a _).trans (or_congr_right ih)

theorem insert_ascending (a : α) {rest : List α} (ascending : rest.Pairwise (· < ·)) :
    (insert (fun a b => decide (a < b)) a rest).Pairwise (· < ·) := by
  induction ascending with
  | nil => simp [insert]
  | @cons b rest first others ih =>
      have kept := List.pairwise_cons.mpr ⟨first, others⟩
      rw [insert]
      rcases lt_trichotomy a b with before | same | after
      · rw [if_pos (decide_eq_true before)]
        refine List.pairwise_cons.mpr ⟨fun c member => ?_, kept⟩
        rcases List.mem_cons.mp member with rfl | later
        · exact before
        · exact before.trans (first c later)
      · rw [if_neg (by simp [same]), if_neg (by simp [same])]
        exact kept
      · rw [if_neg (by simp [not_lt_of_gt after]), if_pos (decide_eq_true after)]
        refine List.pairwise_cons.mpr ⟨fun c member => ?_, ih⟩
        rcases (mem_insert a c rest).mp member with rfl | later
        · exact after
        · exact first c later

theorem ofList_ascending (xs : List α) :
    (ofList (fun a b => decide (a < b)) xs).Pairwise (· < ·) := by
  induction xs with
  | nil => exact List.Pairwise.nil
  | cons a rest ih => exact insert_ascending a ih

theorem ofList_nodup (xs : List α) : (ofList (fun a b => decide (a < b)) xs).Nodup :=
  (ofList_ascending xs).imp ne_of_lt

theorem length_ofList_le (xs : List α) :
    (ofList (fun a b => decide (a < b)) xs).length ≤ xs.length :=
  (List.subperm_of_subset (ofList_nodup xs) fun a => (mem_ofList xs a).mp).length_le

theorem length_ofList {xs : List α} (distinct : xs.Nodup) :
    (ofList (fun a b => decide (a < b)) xs).length = xs.length :=
  (length_ofList_le xs).antisymm
    (List.subperm_of_subset distinct fun a => (mem_ofList xs a).mpr).length_le

/-- Putting in order forgets how often and in which order elements come, and nothing else. -/
theorem ofList_eq_iff (xs ys : List α) :
    ofList (fun a b => decide (a < b)) xs = ofList (fun a b => decide (a < b)) ys ↔
      ∀ a, a ∈ xs ↔ a ∈ ys := by
  constructor
  · intro same a
    rw [← mem_ofList xs, same, mem_ofList]
  · intro same
    apply (ofList_ascending xs).eq_of_mem_iff (ofList_ascending ys)
    intro a
    rw [mem_ofList, mem_ofList, same]

end Linear

theorem mem_numbers (xs : List Nat) (n : Nat) : n ∈ numbers xs ↔ n ∈ xs := mem_ofList xs n

theorem numbers_ascending (xs : List Nat) : (numbers xs).Pairwise (· < ·) := ofList_ascending xs

theorem texts_eq_iff (xs ys : List String) : texts xs = texts ys ↔ ∀ name, name ∈ xs ↔ name ∈ ys :=
  ofList_eq_iff xs ys

end Cascade.Ordered

/-! Tables built by insertions.
Merging a table that insertions built is the same as repeating these insertions, so the order of
keys and every value come out as if there had been one table from the start. -/
namespace Cascade

namespace Table
variable {κ α β : Type} [DecidableEq κ]

theorem mem_of_get {t : Table κ α} {key : κ} {value : α} (known : t.get? key = some value) :
    (key, value) ∈ t.entries := by
  obtain ⟨entries⟩ := t
  simp only [get?] at known
  induction entries with
  | nil => simp [find?] at known
  | cons entry rest ih =>
      obtain ⟨k, old⟩ := entry
      rw [find?] at known
      split at known
      case isTrue same =>
        obtain rfl := Option.some.inj known
        simp [same]
      case isFalse => exact List.mem_cons_of_mem _ (ih known)

-- An entry that stays is still the first one for its key.
theorem find_filter {entries : List (κ × α)} {key : κ} {value : α} {kept : κ × α → Bool}
    (known : find? key entries = some value) (stays : kept (key, value) = true) :
    find? key (entries.filter kept) = some value := by
  induction entries with
  | nil => simp [find?] at known
  | cons entry rest ih =>
      obtain ⟨k, old⟩ := entry
      rw [find?] at known
      split at known
      case isTrue same =>
        obtain rfl := Option.some.inj known
        rw [List.filter_cons_of_pos (same ▸ stays), find?, if_pos same]
      case isFalse other =>
        by_cases here : kept (k, old) = true
        · rw [List.filter_cons_of_pos here, find?, if_neg other, ih known]
        · rw [List.filter_cons_of_neg here, ih known]

theorem mem_insert {t : Table κ α} {key : κ} {value : α} {entry : κ × α}
    (member : entry ∈ (t.insert key value).entries) : entry = (key, value) ∨ entry ∈ t.entries := by
  obtain ⟨entries⟩ := t
  simp only [insert] at member ⊢
  induction entries with
  | nil => simpa [put] using member
  | cons head rest ih =>
      obtain ⟨k, old⟩ := head
      rw [put] at member
      split at member
      case isTrue same =>
        rcases List.mem_cons.mp member with here | there
        · exact Or.inl (by rw [here, same])
        · exact Or.inr (List.mem_cons_of_mem _ there)
      case isFalse =>
        rcases List.mem_cons.mp member with here | there
        · exact Or.inr (here ▸ List.mem_cons_self)
        · exact (ih there).imp_right (List.mem_cons_of_mem _)

def keys (t : Table κ α) : List κ := t.entries.map Prod.fst

theorem mem_keys_insert (t : Table κ α) (key other : κ) (value : α) :
    other ∈ (t.insert key value).keys ↔ other = key ∨ other ∈ t.keys := by
  obtain ⟨entries⟩ := t
  simp only [keys, insert]
  induction entries with
  | nil => simp [put]
  | cons head rest ih =>
      obtain ⟨k, old⟩ := head
      by_cases same : k = key
      · simp [put, same]
      · simp [put, same, ih, or_left_comm]

theorem insert_keys_nodup {t : Table κ α} (distinct : t.keys.Nodup) (key : κ) (value : α) :
    (t.insert key value).keys.Nodup := by
  obtain ⟨entries⟩ := t
  induction entries with
  | nil => simp [keys, insert, put]
  | cons head rest ih =>
      obtain ⟨k, old⟩ := head
      obtain ⟨new, others⟩ := List.nodup_cons.mp distinct
      by_cases same : k = key
      · subst same
        simpa [keys, insert, put] using distinct
      · have absent : k ∉ (insert ⟨rest⟩ key value).keys := by
          rw [mem_keys_insert]
          exact fun either => either.elim same new
        have tail := List.nodup_cons.mpr ⟨absent, ih others⟩
        simpa [keys, insert, put, same] using tail

theorem ofList_append (front : List (κ × α)) (key : κ) (value : α) :
    ofList (front ++ [(key, value)]) = (ofList front).insert key value := by
  simp [ofList]

theorem mem_ofList {entries : List (κ × α)} {entry : κ × α}
    (member : entry ∈ (ofList entries).entries) : entry ∈ entries := by
  induction entries using List.reverseRecOn with
  | nil => exact member
  | append_singleton front last ih =>
      rw [ofList_append] at member
      rw [List.mem_append, List.mem_singleton]
      exact (mem_insert member).symm.imp_left ih

theorem ofList_keys_nodup (entries : List (κ × α)) : (ofList entries).keys.Nodup := by
  induction entries using List.reverseRecOn with
  | nil => exact List.nodup_nil
  | append_singleton front entry ih =>
      rw [ofList_append]
      exact insert_keys_nodup ih entry.1 entry.2

/-- A key has the last value that was given to it. -/
theorem get_ofList (entries : List (κ × α)) (key : κ) : (ofList entries).get? key =
    (entries.filterMap fun entry => if entry.1 = key then some entry.2 else none).getLast? := by
  induction entries using List.reverseRecOn with
  | nil => rfl
  | append_singleton front entry ih =>
      rw [ofList_append, get?_insert, List.filterMap_append]
      by_cases same : entry.1 = key <;> simp [same, ih]

theorem insert_insert (t : Table κ α) (key : κ) (old value : α) :
    (t.insert key old).insert key value = t.insert key value := by
  obtain ⟨entries⟩ := t
  simp only [insert, mk.injEq]
  induction entries with
  | nil => simp [put]
  | cons head rest ih =>
      obtain ⟨k, known⟩ := head
      by_cases same : k = key <;> simp [put, same, ih]

-- A key that is there keeps its place, so another key may come before or after its new value.
theorem insert_comm {t : Table κ α} {key other : κ} (present : key ∈ t.keys)
    (different : other ≠ key) (value next : α) :
    (t.insert other next).insert key value = (t.insert key value).insert other next := by
  obtain ⟨entries⟩ := t
  simp only [insert, mk.injEq]
  induction entries with
  | nil => simp [keys] at present
  | cons head rest ih =>
      obtain ⟨k, known⟩ := head
      by_cases same : k = key
      · subst same
        simp [put, different.symm]
      · have later : key ∈ keys ⟨rest⟩ := by
          have either : key = k ∨ key ∈ keys ⟨rest⟩ := by simpa [keys] using present
          exact either.resolve_left fun equal => same equal.symm
        by_cases hit : k = other
        · subst hit
          simp [put, same]
        · simp [put, same, hit, ih later]

theorem foldl_insert_comm {t : Table κ α} {key : κ} (present : key ∈ t.keys) (value : α)
    {entries : List (κ × α)} (absent : key ∉ entries.map Prod.fst) :
    (entries.foldl (fun t entry => t.insert entry.1 entry.2) t).insert key value =
      entries.foldl (fun t entry => t.insert entry.1 entry.2) (t.insert key value) := by
  induction entries generalizing t with
  | nil => rfl
  | cons entry rest ih =>
      rw [List.map_cons, List.mem_cons, not_or] at absent
      have kept : key ∈ (t.insert entry.1 entry.2).keys :=
        (mem_keys_insert t entry.1 key entry.2).mpr (Or.inr present)
      rw [List.foldl_cons, List.foldl_cons, ih kept absent.2,
        insert_comm present (Ne.symm absent.1)]

theorem merge_insert (t : Table κ α) {other : Table κ α} (distinct : other.keys.Nodup) (key : κ)
    (value : α) : t.merge (other.insert key value) = (t.merge other).insert key value := by
  obtain ⟨entries⟩ := other
  simp only [merge, insert]
  -- The new value replaces the old one of its key, which is merged before the keys after it.
  induction entries generalizing t with
  | nil => rfl
  | cons entry rest ih =>
      obtain ⟨k, old⟩ := entry
      obtain ⟨absent, others⟩ := List.nodup_cons.mp distinct
      by_cases same : k = key
      · subst same
        have present : k ∈ (t.insert k old).keys :=
          (mem_keys_insert t k k old).mpr (Or.inl rfl)
        have moved := foldl_insert_comm present value absent
        rw [insert_insert] at moved
        simpa [put, insert] using moved.symm
      · simpa [put, same, insert] using ih (t.insert k old) others

/-- Merging what insertions built repeats them. -/
theorem ofList_merge (entries others : List (κ × α)) :
    (ofList entries).merge (ofList others) = ofList (entries ++ others) := by
  induction others using List.reverseRecOn with
  | nil => rw [List.append_nil]; rfl
  | append_singleton front entry ih =>
      rw [ofList_append, merge_insert _ (ofList_keys_nodup front), ih, ← List.append_assoc,
        ofList_append]

theorem foldl_insert_ofList (entries others : List (κ × α)) :
    others.foldl (fun t entry => t.insert entry.1 entry.2) (ofList entries) =
      ofList (entries ++ others) := by
  simp [ofList]

def mapValues (f : α → β) (t : Table κ α) : Table κ β :=
  ⟨t.entries.map fun entry => (entry.1, f entry.2)⟩

theorem get_mapValues (f : α → β) (t : Table κ α) (key : κ) :
    (t.mapValues f).get? key = (t.get? key).map f := by
  obtain ⟨entries⟩ := t
  simp only [get?, mapValues]
  induction entries with
  | nil => rfl
  | cons entry rest ih =>
      by_cases same : entry.1 = key <;> simp [find?, same, ih]

theorem insert_mapValues (f : α → β) (t : Table κ α) (key : κ) (value : α) :
    (t.insert key value).mapValues f = (t.mapValues f).insert key (f value) := by
  obtain ⟨entries⟩ := t
  simp only [insert, mapValues, mk.injEq]
  induction entries with
  | nil => rfl
  | cons entry rest ih =>
      by_cases same : entry.1 = key <;> simp [put, same, ih]

variable {t u : Table κ α} {f : α → β}

theorem get_agree (same : t.mapValues f = u.mapValues f) (key : κ) :
    (t.get? key).map f = (u.get? key).map f := by
  rw [← get_mapValues, same, get_mapValues]

theorem get_related (same : t.mapValues f = u.mapValues f) (key : κ) :
    Option.Rel (fun a b => f a = f b) (t.get? key) (u.get? key) := by
  have found := get_agree same key
  cases here : t.get? key with
  | none =>
      rw [here, Option.map_none, eq_comm, Option.map_eq_none_iff] at found
      rw [found]
      exact .none
  | some a =>
      rw [here, Option.map_some, eq_comm, Option.map_eq_some_iff] at found
      obtain ⟨b, there, equal⟩ := found
      rw [there]
      exact .some equal.symm

theorem insert_agree (same : t.mapValues f = u.mapValues f) (key : κ) {a b : α}
    (values : f a = f b) : (t.insert key a).mapValues f = (u.insert key b).mapValues f := by
  rw [insert_mapValues, insert_mapValues, same, values]

theorem foldl_insert_agree {ι : Type} (same : t.mapValues f = u.mapValues f) (entries : List ι)
    (key : ι → κ) {value other : ι → α} (values : ∀ i, f (value i) = f (other i)) :
    (entries.foldl (fun t i => t.insert (key i) (value i)) t).mapValues f =
      (entries.foldl (fun u i => u.insert (key i) (other i)) u).mapValues f :=
  List.foldl_rel (r := fun a b : Table κ α => a.mapValues f = b.mapValues f) same
    fun i _ _ _ known => insert_agree known (key i) (values i)

end Table

/-! Sprite tables are two lists of additions. -/

namespace SpriteSheetRule

def sheets (rule : SpriteSheetRule) (file : String) : List SpriteSheet :=
  rule.image?.toList.map fun image =>
    ⟨rule.name, image, ⟨file, rule.line⟩, .div .one rule.resolution⟩

def sprites (rule : SpriteSheetRule) (file : String) : List (String × Sprite) :=
  (rule.sheets file).flatMap fun sheet =>
    rule.rectangles.map fun entry => (entry.1, ⟨entry.2, sheet⟩)

end SpriteSheetRule

namespace SpriteTable

def ofLists (sheets : List SpriteSheet) (sprites : List (String × Sprite)) : SpriteTable :=
  ⟨sheets, .ofList sprites⟩

theorem add_ofLists (sheets : List SpriteSheet) (sprites : List (String × Sprite))
    (rule : SpriteSheetRule) (file : String) :
    (ofLists sheets sprites).add rule file =
      ofLists (sheets ++ rule.sheets file) (sprites ++ rule.sprites file) := by
  cases named : rule.image? with
  | none => simp [add, add?, named, SpriteSheetRule.sprites, SpriteSheetRule.sheets]
  | some image =>
      simp [add, add?, named, ofLists, SpriteSheetRule.sprites, SpriteSheetRule.sheets,
        ← Table.foldl_insert_ofList, List.foldl_map]

theorem merge_ofLists (sheets others : List SpriteSheet) (sprites more : List (String × Sprite)) :
    (ofLists sheets sprites).merge (ofLists others more) =
      ofLists (sheets ++ others) (sprites ++ more) := by
  simp only [merge, ofLists, Table.ofList_merge]

end SpriteTable
end Cascade
