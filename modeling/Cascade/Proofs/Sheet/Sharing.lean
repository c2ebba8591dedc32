import Cascade.Proofs.Instance.Growth
import Cascade.Proofs.Sheet.Combining
import Mathlib.Data.List.Sort
/-!
How definitions are shared.

Between two loads or builds a sheet is asked for definitions, and those who asked hold them as long
as they like. Of the cache only identities show: equal signatures share one instance as long as it
is held, and different ones never do.
-/
namespace Cascade

/-- What can happen between two loads or builds. -/
inductive Demand where
  | define (d : Document) (e : ElementId)
  /-- One of the handles to an instance is dropped. -/
  | release (id : InstanceId)

structure Holding where
  sheet : Sheet
  handles : List InstanceId

/-- A definition that was returned, and what there was when it was asked for. -/
structure Answer where
  before : Holding
  document : Document
  element : ElementId
  shared : Shared Definition

namespace Holding

def held (h : Holding) (id : InstanceId) : Bool := h.handles.contains id

def define (h : Holding) (d : Document) (e : ElementId) : Shared Definition × Holding :=
  let (shared, sheet) := h.sheet.definition h.held d e
  (shared, ⟨sheet, shared.id :: h.handles⟩)

def answers (h : Holding) : List Demand → List Answer
  | [] => []
  | .define d e :: rest => ⟨h, d, e, (h.define d e).1⟩ :: (h.define d e).2.answers rest
  | .release id :: rest => answers ⟨h.sheet, h.handles.erase id⟩ rest

end Holding

namespace Answer

def signature (a : Answer) : Signature := a.before.sheet.signature a.document a.element

structure Shares (a b : Answer) : Prop where
  one : a.signature = b.signature → b.before.held a.shared.id = true → b.shared = a.shared
  apart : a.signature ≠ b.signature → b.shared.id ≠ a.shared.id

end Answer

namespace Sheet

theorem signature_ascending (s : Sheet) (d : Document) (e : ElementId) :
    (s.signature d e).Pairwise (· < ·) := s.styled.applicable_ascending s.tree d e

theorem buildProperties_stays (t : InstanceTables) (keyframes : Table String Keyframes)
    (d : Dictionary PropertyValue) (places : List Longhand) (store : InstanceStore) :
    t.Stays (fun store => buildProperties t keyframes store d places) store := by
  induction places generalizing d store with
  | nil => exact ⟨.refl store, fun later _ _ => rfl⟩
  | cons p rest ih =>
      cases known : d.get? p with
      | none =>
          simp only [buildProperties, known]
          exact ih d store
      | some property =>
          simp only [buildProperties, known]
          exact (property.value.build_stays t keyframes store).bind
            (fun value store =>
              buildProperties t keyframes store (d.replace p (property.withValue value)) rest)
            (ih _ _)

def Compiles (s : Sheet) (signature : Signature) (definition : Definition) : Prop :=
  ∀ later, s.instances.Extends later → later.Sound s.tables →
    ({ s with instances := later }).compile signature = (definition, later)

theorem Compiles.now {s : Sheet} {signature : Signature} {definition : Definition}
    (compiles : s.Compiles signature definition) (sound : s.Sound) :
    (s.compile signature).1 = definition :=
  congrArg Prod.fst (compiles s.instances (.refl _) sound.instances)

theorem Compiles.serves {s t : Sheet} {signature : Signature} {definition : Definition}
    (compiles : s.Compiles signature definition) (serves : s.Serves t)
    (grows : s.instances.Extends t.instances) : t.Compiles signature definition := by
  intro later more sound
  rw [serves] at sound ⊢
  exact compiles later (grows.trans more) sound

theorem compile_eq (s : Sheet) (signature : Signature) :
    s.compile signature =
      (⟨(buildProperties s.tables s.keyframes s.instances (s.tree.gathered signature)
        Longhand.all).1⟩,
      (buildProperties s.tables s.keyframes s.instances (s.tree.gathered signature)
        Longhand.all).2) := by
  rw [← merged_eq_gathered s.tree signature]
  rfl

theorem compile_stays (s : Sheet) (signature : Signature) :
    s.tables.Stays (fun store => ({ s with instances := store }).compile signature)
      s.instances := by
  simp only [compile_eq]
  exact (buildProperties_stays s.tables s.keyframes _ Longhand.all s.instances).map Definition.mk

theorem compile_compiles {s t : Sheet} (serves : s.Serves t) (signature : Signature)
    (left : t.instances = (s.compile signature).2) :
    t.Compiles signature (s.compile signature).1 := by
  intro later more sound
  rw [left] at more
  rw [serves] at sound ⊢
  exact (s.compile_stays signature).again later more sound

end Sheet

namespace DefinitionCache
variable {c : DefinitionCache} {held : InstanceId → Bool} {signature other : Signature}
  {definition : Definition} {shared : Shared Definition}

theorem add_issued : (c.add held signature definition).2.issued = c.issued + 1 := by
  simp only [add, pruned]
  split <;> rfl

-- Pruning takes no entry that somebody holds.
theorem get_add (known : (c.entries.insert signature (c.add held signature definition).1).get?
    other = some shared)
    (holds : shared.id = (c.add held signature definition).1.id ∨ held shared.id = true) :
    (c.add held signature definition).2.entries.get? other = some shared := by
  simp only [add, pruned]
  split
  case isTrue =>
    apply Table.find_filter known
    exact Bool.or_eq_true_iff.mpr (holds.imp_left beq_iff_eq.mpr)
  case isFalse => exact known

theorem get_add_self : (c.add held signature definition).2.entries.get? signature =
    some (c.add held signature definition).1 := get_add (by simp) (Or.inl rfl)

theorem get_add_other (different : signature ≠ other) (known : c.entries.get? other = some shared)
    (holds : held shared.id = true) :
    (c.add held signature definition).2.entries.get? other = some shared :=
  get_add (by simp [different, known]) (Or.inr holds)

end DefinitionCache

/-- Every entry is of an answer, equal identities are of equal answers, and what is held is still
kept. -/
structure Recalls (past : List Answer) (h : Holding) : Prop where
  sound : h.sheet.Sound
  recorded : ∀ entry ∈ h.sheet.definitions.entries.entries,
    ∃ a ∈ past, a.signature = entry.1 ∧ a.shared = entry.2
  compiled : ∀ entry ∈ h.sheet.definitions.entries.entries,
    h.sheet.Compiles entry.1 entry.2.value
  issued : ∀ a ∈ past, a.shared.id.serial < h.sheet.definitions.issued
  single : ∀ a ∈ past, ∀ b ∈ past, a.shared.id = b.shared.id →
    a.signature = b.signature ∧ a.shared = b.shared
  kept : ∀ a ∈ past, h.held a.shared.id = true →
    h.sheet.definitions.entries.get? a.signature = some a.shared

namespace Recalls
variable {past : List Answer} {h : Holding}

theorem nothing {s : Sheet} (sound : s.Sound) (renewed : s.definitions.isEmpty = true)
    (handles : List InstanceId) : Recalls [] ⟨s, handles⟩ := by
  have none : s.definitions.entries.entries = [] := by
    simpa [DefinitionCache.isEmpty, DefinitionCache.size, Table.size] using renewed
  refine ⟨sound, ?_, ?_, ?_, ?_, ?_⟩ <;> simp [none]

theorem release (recalls : Recalls past h) (id : InstanceId) :
    Recalls past ⟨h.sheet, h.handles.erase id⟩ where
  sound := recalls.sound
  recorded := recalls.recorded
  compiled := recalls.compiled
  issued := recalls.issued
  single := recalls.single
  kept a member still := by
    apply recalls.kept a member
    rw [Holding.held, List.contains_iff_mem] at still ⊢
    exact List.mem_of_mem_erase still

/-- An answer that gives a handle more to what an earlier one gave. -/
theorem again (recalls : Recalls past h) {a first : Answer} (earlier : first ∈ past)
    (nodes : first.signature = a.signature) (same : first.shared = a.shared)
    (cached : h.sheet.definitions.entries.get? first.signature = some first.shared) :
    Recalls (a :: past) ⟨h.sheet, a.shared.id :: h.handles⟩ := by
  have repeated {b : Answer} (among : b ∈ a :: past) :
      ∃ c ∈ past, c.signature = b.signature ∧ c.shared = b.shared := by
    rcases List.mem_cons.mp among with rfl | old
    · exact ⟨first, earlier, nodes, same⟩
    · exact ⟨b, old, rfl, rfl⟩
  refine { sound := recalls.sound, recorded := ?recorded, compiled := recalls.compiled,
           issued := ?issued, single := ?single, kept := ?kept }
  case recorded =>
    intro entry listed
    rcases recalls.recorded entry listed with ⟨b, among, facts⟩
    exact ⟨b, List.mem_cons_of_mem _ among, facts⟩
  case issued =>
    intro b among
    rcases repeated among with ⟨c, old, -, equal⟩
    exact equal ▸ recalls.issued c old
  case single =>
    intro b among c also equal
    rcases repeated among with ⟨b', old, sameNodes, sameShared⟩
    rcases repeated also with ⟨c', older, otherNodes, otherShared⟩
    rw [← sameShared, ← otherShared] at equal ⊢
    rw [← sameNodes, ← otherNodes]
    exact recalls.single b' old c' older equal
  case kept =>
    intro b among still
    rcases repeated among with ⟨c, old, sameNodes, sameShared⟩
    rw [← sameShared] at still ⊢
    rw [← sameNodes]
    by_cases here : c.shared.id = a.shared.id
    · have known := recalls.single c old first earlier (here.trans (congrArg Shared.id same.symm))
      rw [known.1, known.2]
      exact cached
    · apply recalls.kept c old
      simpa [Holding.held, here] using still

/-- The identity that is issued next was not given before. -/
theorem fresh (recalls : Recalls past h) (signature : Signature) (definition : Definition)
    {a : Answer} (old : a ∈ past) :
    (h.sheet.definitions.add h.held signature definition).1.id ≠ a.shared.id := by
  intro equal
  have earlier := recalls.issued a old
  rw [← equal] at earlier
  exact Nat.lt_irrefl _ earlier

/-- Where the cache has nothing live, no answer is held. -/
theorem unheld (recalls : Recalls past h) {signature : Signature}
    (dead : h.sheet.definitions.live? h.held signature = none) {a : Answer} (old : a ∈ past)
    (holds : h.held a.shared.id = true) : signature ≠ a.signature := by
  rintro rfl
  have kept := recalls.kept a old holds
  simp [DefinitionCache.live?, kept, holds] at dead

/-- An answer that is compiled anew, with the first handle to it. -/
theorem anew (recalls : Recalls past h) {d : Document} {e : ElementId}
    (dead : h.sheet.definitions.live? h.held (h.sheet.signature d e) = none) :
    let signature := h.sheet.signature d e
    let compiled := h.sheet.compile signature
    let added := h.sheet.definitions.add h.held signature compiled.1
    Recalls (⟨h, d, e, added.1⟩ :: past)
      ⟨{ h.sheet with definitions := added.2, instances := compiled.2 },
        added.1.id :: h.handles⟩ := by
  intro signature compiled added
  have serves : h.sheet.Serves { h.sheet with definitions := added.2, instances := compiled.2 } :=
    rfl
  have grows := (h.sheet.compile_stays signature).grows
  have fresh {a : Answer} (old : a ∈ past) : added.1.id ≠ a.shared.id :=
    recalls.fresh signature compiled.1 old
  refine { sound := ?sound, recorded := ?recorded, compiled := ?compiled, issued := ?issued,
           single := ?single, kept := ?kept }
  case sound =>
    have sound := (Sheet.definition_spec recalls.sound h.held d e).2.1
    rw [Sheet.definition, dead] at sound
    exact sound
  case recorded =>
    intro entry member
    rcases DefinitionCache.mem_add member with rfl | old
    · exact ⟨_, List.mem_cons_self, rfl, rfl⟩
    · rcases recalls.recorded entry old with ⟨a, among, facts⟩
      exact ⟨a, List.mem_cons_of_mem _ among, facts⟩
  case compiled =>
    intro entry member
    rcases DefinitionCache.mem_add member with rfl | old
    · exact h.sheet.compile_compiles serves signature rfl
    · exact (recalls.compiled entry old).serves serves grows
  case issued =>
    intro a among
    have grown : added.2.issued = h.sheet.definitions.issued + 1 := DefinitionCache.add_issued
    change a.shared.id.serial < added.2.issued
    rw [grown]
    rcases List.mem_cons.mp among with rfl | old
    · exact Nat.lt_succ_self _
    · exact Nat.lt_succ_of_lt (recalls.issued a old)
  case single =>
    intro a among b also equal
    rcases List.mem_cons.mp among with rfl | old
    · rcases List.mem_cons.mp also with rfl | older
      · exact ⟨rfl, rfl⟩
      · exact absurd equal (fresh older)
    · rcases List.mem_cons.mp also with rfl | older
      · exact absurd equal.symm (fresh old)
      · exact recalls.single a old b older equal
  case kept =>
    intro a among still
    rcases List.mem_cons.mp among with rfl | old
    · exact DefinitionCache.get_add_self
    · have holds : h.held a.shared.id = true := by
        simpa [Holding.held, (fresh old).symm] using still
      exact DefinitionCache.get_add_other (recalls.unheld dead old holds)
        (recalls.kept a old holds) holds

def Answers (past : List Answer) (h : Holding) (answer : Answer) (after : Holding) : Prop :=
  answer.shared.value = (h.sheet.compile answer.signature).1 ∧
    (∀ a ∈ past, a.Shares answer) ∧ Recalls (answer :: past) after

theorem hit (recalls : Recalls past h) {d : Document} {e : ElementId} {shared : Shared Definition}
    (live : h.sheet.definitions.live? h.held (h.sheet.signature d e) = some shared) :
    Answers past h ⟨h, d, e, shared⟩ ⟨h.sheet, shared.id :: h.handles⟩ := by
  rw [DefinitionCache.live?, Option.filter_eq_some_iff] at live
  have entry := Table.mem_of_get live.1
  -- The answer repeats the one that the entry is of.
  rcases recalls.recorded _ entry with ⟨first, member, signature, same⟩
  have cached : h.sheet.definitions.entries.get? first.signature = some first.shared := by
    rw [signature, same]
    exact live.1
  refine ⟨((recalls.compiled _ entry).now recalls.sound).symm, fun a old => ⟨?_, ?_⟩,
    recalls.again member signature same cached⟩
  · intro equal holds
    have kept := recalls.kept a old holds
    rw [equal] at kept
    exact Option.some.inj (live.1.symm.trans kept)
  · intro differ equal
    have known := recalls.single first member a old (same ▸ equal)
    exact differ (known.1.symm.trans signature)

theorem miss (recalls : Recalls past h) {d : Document} {e : ElementId}
    (dead : h.sheet.definitions.live? h.held (h.sheet.signature d e) = none) :
    let signature := h.sheet.signature d e
    let compiled := h.sheet.compile signature
    let added := h.sheet.definitions.add h.held signature compiled.1
    Answers past h ⟨h, d, e, added.1⟩
      ⟨{ h.sheet with definitions := added.2, instances := compiled.2 },
        added.1.id :: h.handles⟩ := by
  intro signature compiled added
  refine ⟨rfl, fun a old => ⟨?_, fun _ => recalls.fresh signature compiled.1 old⟩,
    recalls.anew dead⟩
  intro equal holds
  exact absurd equal.symm (recalls.unheld dead old holds)

theorem define (recalls : Recalls past h) (d : Document) (e : ElementId) :
    Answers past h ⟨h, d, e, (h.define d e).1⟩ (h.define d e).2 := by
  cases found : h.sheet.definitions.live? h.held (h.sheet.signature d e) with
  | some shared =>
      simp only [Holding.define, Sheet.definition, found]
      exact recalls.hit found
  | none =>
      simp only [Holding.define, Sheet.definition, found]
      exact recalls.miss found

theorem answers (recalls : Recalls past h) (demands : List Demand) :
    (∀ b ∈ h.answers demands, b.shared.value = (b.before.sheet.compile b.signature).1) ∧
    (∀ a ∈ past, ∀ b ∈ h.answers demands, a.Shares b) ∧
    (h.answers demands).Pairwise Answer.Shares := by
  -- What has been answered so far stays recalled, so later answers share with it what they must.
  induction demands generalizing past h with
  | nil => simp [Holding.answers]
  | cons demand rest ih =>
      cases demand with
      | release id => exact ih (recalls.release id)
      | define d e =>
          rcases recalls.define d e with ⟨compiled, shares, onward⟩
          rcases ih onward with ⟨values, later, pairwise⟩
          rw [Holding.answers]
          refine ⟨?_, ?_, ?_⟩
          · intro b member
            rcases List.mem_cons.mp member with rfl | after
            · exact compiled
            · exact values b after
          · intro a old b member
            rcases List.mem_cons.mp member with rfl | after
            · exact shares a old
            · exact later a (List.mem_cons_of_mem _ old) b after
          · exact List.pairwise_cons.mpr ⟨later _ List.mem_cons_self, pairwise⟩

end Recalls

namespace Sheet

/-- The sheets that nothing was asked of since they were made, loaded or built. -/
inductive Renewed : Sheet → Prop where
  | new (owner : Nat) (config : SheetConfig) : Renewed (new owner config)
  | load {s loaded : Sheet} {texts : List (String × String)} {text name : String} :
      s.Assembled texts → s.load text name = .ok loaded → Renewed loaded
  | build {s : Sheet} {texts : List (String × String)} : s.Assembled texts → Renewed s.build
  | combine {base overlay : Sheet} {below above : List (String × String)} (owner : Nat) :
      base.Assembled below → overlay.Assembled above → Renewed (base.combine overlay owner)

theorem Renewed.spec {s : Sheet} (renewed : s.Renewed) :
    s.Sound ∧ s.definitions.isEmpty = true := by
  cases renewed with
  | new owner config => exact ⟨new_sound owner config, rfl⟩
  | load assembled success =>
      refine ⟨load_sound assembled.sound success, ?_⟩
      rcases load_eq_ok.mp success with ⟨source, -, rfl⟩
      rfl
  | build assembled => exact ⟨(build_spec assembled.sound).1, rfl⟩
  | combine owner below above => exact ⟨combine_sound below.sound above.sound owner, rfl⟩

/-- From a load or a build on, a definition is always what its nodes come to; elements that match
the same nodes get one instance as long as it is held, and others never get the same one. -/
theorem definition_shared {s : Sheet} (renewed : s.Renewed) (handles : List InstanceId)
    (demands : List Demand) :
    (∀ a ∈ Holding.answers ⟨s, handles⟩ demands,
      a.shared.value = (a.before.sheet.compile a.signature).1) ∧
    (Holding.answers ⟨s, handles⟩ demands).Pairwise fun a b =>
      ((∀ n, n ∈ a.signature ↔ n ∈ b.signature) → a.shared.id ∈ b.before.handles →
        b.shared = a.shared) ∧
      (¬ (∀ n, n ∈ a.signature ↔ n ∈ b.signature) → b.shared.id ≠ a.shared.id) := by
  rcases renewed.spec with ⟨sound, empty⟩
  rcases (Recalls.nothing sound empty handles).answers demands with ⟨compiled, -, pairwise⟩
  refine ⟨compiled, pairwise.imp fun {a b} shares => ⟨?_, ?_⟩⟩
  · intro same held
    have ascending (a : Answer) := a.before.sheet.signature_ascending a.document a.element
    have equal : a.signature = b.signature := (ascending a).eq_of_mem_iff (ascending b) same
    exact shares.one equal (by simpa [Holding.held] using held)
  · intro differ
    apply shares.apart
    intro equal
    exact differ fun n => by rw [equal]

theorem signature_definition (s : Sheet) (held : InstanceId → Bool) (d : Document) (e : ElementId) :
    (s.definition held d e).2.signature = s.signature := by
  rw [definition]
  dsimp only
  split <;> rfl

theorem signature_answers (s : Sheet) (handles : List InstanceId) (demands : List Demand) :
    (Holding.answers ⟨s, handles⟩ demands).map Answer.signature =
      demands.filterMap fun
        | .define d e => some (s.signature d e)
        | .release _ => none := by
  induction demands generalizing s handles with
  | nil => rfl
  | cons demand rest ih =>
      cases demand with
      | release id => exact ih s (handles.erase id)
      | define d e =>
          have same : (Holding.define ⟨s, handles⟩ d e).2.sheet.signature = s.signature :=
            s.signature_definition _ d e
          have onward := ih (Holding.define ⟨s, handles⟩ d e).2.sheet
            (Holding.define ⟨s, handles⟩ d e).2.handles
          rw [same] at onward
          exact congrArg (s.signature d e :: ·) onward

/-- The first and the third item match the same nodes, the second one others. The definition that
two of them share is dropped before the first one asks again. -/
theorem definition_shared_menu :
    let s := ((new 0 .default).add .menu "menu.css").build
    let answers := Holding.answers ⟨s, []⟩
      [.define .nav 1, .define .nav 2, .define .nav 3, .release ⟨0, 0⟩, .release ⟨0, 0⟩,
        .define .nav 1]
    answers.map Answer.signature = [[2], [2, 5], [2], [2]] ∧
    (∀ a ∈ answers, a.shared.value = (a.before.sheet.compile a.signature).1) ∧
    answers.Pairwise fun a b =>
      ((∀ n, n ∈ a.signature ↔ n ∈ b.signature) → a.shared.id ∈ b.before.handles →
        b.shared = a.shared) ∧
      (¬ (∀ n, n ∈ a.signature ↔ n ∈ b.signature) → b.shared.id ≠ a.shared.id) := by
  intro s answers
  have matched : answers.map Answer.signature = [[2], [2, 5], [2], [2]] := by
    simp only [answers, s, signature_answers, signature_build menu_assembled.sound, menu_index]
    decide +kernel
  exact ⟨matched, definition_shared (.build menu_assembled) [] _⟩

end Sheet
end Cascade
