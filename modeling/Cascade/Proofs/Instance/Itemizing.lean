import Cascade.Instance
import Cascade.Proofs.Text.Splitting
/-!
Items of list values and their texts.

A list of items is written with commas, and the arguments of an item with blanks. Reading gives back
what was written, whatever stands within quotes and parentheses.
-/
namespace Cascade
open Text

structure ListItem.Named (name : List Char) : Prop where
  some : name ≠ []
  plain : ∀ c ∈ name, isBlank c = false ∧ c ≠ ',' ∧ isMark c = false

/-- An argument: every quote and every parenthesis in it has its partner, and blanks stand only
within these. -/
structure ListItem.Argument (argument : List Char) : Prop where
  some : argument ≠ []
  nested : Nested (fun c => !isBlank c) argument

inductive Spaced : List (List Char) → List Char → Prop where
  | nothing : Spaced [] []
  | last (text : List Char) : Spaced [text] text
  | more {text next gap joined : List Char} {texts : List (List Char)} (some : gap ≠ [])
      (blank : ∀ c ∈ gap, isBlank c = true) (behind : Spaced (next :: texts) joined) :
      Spaced (text :: next :: texts) (text ++ (gap ++ joined))

inductive ListItem.Written : ListItem → List Char → Prop where
  | name {name : String} (named : Named name.toList) : Written (.name name) name.toList
  | call {type : String} {arguments : List String} {inside : List Char}
      (named : Named type.toList) (each : ∀ a ∈ arguments, Argument a.toList)
      (spaced : Spaced (arguments.map String.toList) inside) :
      Written (.call type arguments) (type.toList ++ '(' :: (inside ++ [')']))

section Arguments
variable {texts : List (List Char)} {joined : List Char}

theorem splitTop_blanks {gap : List Char} (blank : ∀ c ∈ gap, isBlank c = true)
    (rest : List Char) : splitTop isBlank (gap ++ rest) = splitTop isBlank rest := by
  induction gap with
  | nil => rfl
  | cons c more ih =>
      have here := blank c List.mem_cons_self
      have cut : splitTop isBlank ([] ++ c :: (more ++ rest)) =
          splitTop isBlank [] ++ splitTop isBlank (more ++ rest) :=
        splitTop_cut .nil (not_isMark_blank here) here (more ++ rest)
      rw [List.nil_append] at cut
      rw [List.cons_append, cut, ih fun d member => blank d (List.mem_cons_of_mem c member)]
      rfl

theorem splitTop_argument {argument : List Char} (good : ListItem.Argument argument) :
    splitTop isBlank argument = [argument] := by
  have trimmed := good.nested.trimmed fun c fits => by simpa using fits
  rw [splitTop_nested good.nested, trim_eq_self trimmed]
  simp [good.some]

/-- Arguments are cut where blanks were put between them. -/
theorem splitTop_spaced (spaced : Spaced texts joined)
    (each : ∀ a ∈ texts, ListItem.Argument a) : splitTop isBlank joined = texts := by
  induction spaced with
  | nothing => rfl
  | last text => exact splitTop_argument (each text List.mem_cons_self)
  | @more text next gap joined texts some blank _ ih =>
      have good := each text List.mem_cons_self
      cases gap with
      | nil => exact absurd rfl some
      | cons c gap =>
          obtain ⟨here, others⟩ := List.forall_mem_cons.mp blank
          rw [List.cons_append, splitTop_cut good.nested (not_isMark_blank here) here,
            splitTop_blanks others, splitTop_argument good,
            ih fun a member => each a (List.mem_cons_of_mem text member)]
          rfl

theorem nested_spaced (spaced : Spaced texts joined)
    (each : ∀ a ∈ texts, ListItem.Argument a) : Nested (fun _ => true) joined := by
  induction spaced with
  | nothing => exact .nil
  | last text => exact (each text List.mem_cons_self).nested.mono fun _ _ => rfl
  | @more text next gap joined texts some blank _ ih =>
      refine ((each text List.mem_cons_self).nested.mono fun _ _ => rfl).append ?_
      refine (nested_plain fun c member => ⟨not_isMark_blank (blank c member), rfl⟩).append ?_
      exact ih fun a member => each a (List.mem_cons_of_mem text member)

end Arguments

namespace ListItem
variable {item : ListItem} {text : List Char}

theorem Named.nested (named : Named text) : Nested (fun c => !(c == ',')) text :=
  nested_plain fun c member => ⟨(named.plain c member).2.2, by simp [(named.plain c member).2.1]⟩

theorem Named.trimmed (named : Named text) : Trimmed text where
  first c begins := (named.plain c (List.mem_of_mem_head? begins)).1
  last c ends := (named.plain c (List.mem_of_mem_getLast? ends)).1

/-- Commas stand in an item only within its marks. -/
theorem Written.nested (written : item.Written text) : Nested (fun c => !(c == ',')) text := by
  cases written with
  | name named => exact named.nested
  | call named each spaced =>
      refine named.nested.append (.enclosed (nested_spaced spaced fun a member => ?_) .nil)
      obtain ⟨b, inside, rfl⟩ := List.mem_map.mp member
      exact each b inside

theorem Written.some (written : item.Written text) : text ≠ [] := by
  cases written with
  | name named => exact named.some
  | call => simp

theorem Written.trimmed (written : item.Written text) : Trimmed text := by
  cases written with
  | name named => exact named.trimmed
  | @call type arguments inside named each spaced =>
      have closes : isBlank ')' = false := isMark_blank rfl
      refine ⟨?_, ?_⟩
      · have first := named.trimmed.first
        cases begun : type.toList with
        | nil => exact absurd begun named.some
        | cons c rest => simpa [begun] using first
      · have behind : Trimmed [] := ⟨by simp, by simp⟩
        simpa using behind.behind closes (type.toList ++ '(' :: inside)

theorem Named.unopened (named : Named text) : ∀ c ∈ text, (c != '(') = true := by
  intro c member
  have plain := (named.plain c member).2.2
  refine bne_iff_ne.mpr ?_
  rintro rfl
  cases plain

/-- An item is read as what was written. -/
theorem Written.ofText {s : String} (written : item.Written s.toList) :
    ListItem.ofText s = .ok item := by
  have same := trim_eq_self written.trimmed
  simp only [ListItem.ofText, same]
  generalize s.toList = text at written
  cases written with
  | @name n named =>
      have bare : n.toList.dropWhile (· != '(') = [] :=
        List.dropWhile_eq_nil_iff.mpr named.unopened
      have unblank : n.toList.any isBlank = false :=
        List.any_eq_false.mpr fun c member => by simp [(named.plain c member).1]
      rw [bare, unblank, String.ofList_toList]
      rfl
  | @call type arguments inside named each spaced =>
      have back : (type.toList ++ '(' :: (inside ++ [')'])).dropWhile (· != '(') =
          '(' :: (inside ++ [')']) := by
        rw [List.dropWhile_append_of_pos named.unopened]
        rfl
      have front : (type.toList ++ '(' :: (inside ++ [')'])).takeWhile (· != '(') =
          type.toList := by
        rw [List.takeWhile_append_of_pos named.unopened]
        simp
      have cut : splitArguments (String.ofList inside) = arguments := by
        rw [splitArguments, String.toList_ofList, splitTop_spaced spaced fun a member => ?_]
        · simp
        · obtain ⟨b, among, rfl⟩ := List.mem_map.mp member
          exact each b among
      simp [back, front, trim_eq_self named.trimmed, named.some, cut]

/-- An item is cut nowhere, with or without a space before it. -/
theorem Written.alone (written : item.Written text) {pad : List Char}
    (padded : pad = [] ∨ pad = [' ']) :
    Nested (fun c => !(c == ',')) (pad ++ text) ∧ splitTop (· == ',') (pad ++ text) = [text] := by
  have nested : Nested (fun c => !(c == ',')) (pad ++ text) := by
    rcases padded with rfl | rfl
    · exact written.nested
    · exact .plain rfl rfl written.nested
  have trimmed : trim (pad ++ text) = text := by
    rcases padded with rfl | rfl
    · exact trim_eq_self written.trimmed
    · exact (trim_cons rfl text).trans (trim_eq_self written.trimmed)
  refine ⟨nested, ?_⟩
  rw [splitTop_nested nested, trimmed]
  simp [written.some]

/-- Items are cut apart at the commas that were put between them. -/
theorem splitTop_written {first : List Char} {texts : List (List Char)}
    (each : ∀ t ∈ first :: texts, ∃ item : ListItem, item.Written t) {pad : List Char}
    (padded : pad = [] ∨ pad = [' ']) :
    splitTop (· == ',') (pad ++ [',', ' '].intercalate (first :: texts)) = first :: texts := by
  induction texts generalizing first pad with
  | nil =>
      obtain ⟨item, written⟩ := each first List.mem_cons_self
      rw [List.intercalate_singleton]
      exact (written.alone padded).2
  | cons next rest ih =>
      obtain ⟨item, written⟩ := each first List.mem_cons_self
      obtain ⟨nested, single⟩ := written.alone padded
      have joined : pad ++ [',', ' '].intercalate (first :: next :: rest) =
          (pad ++ first) ++ ',' :: ([' '] ++ [',', ' '].intercalate (next :: rest)) := by
        simp [List.intercalate_cons_cons]
      rw [joined, splitTop_cut nested rfl rfl, single,
        ih (fun t member => each t (List.mem_cons_of_mem first member)) (.inr rfl)]
      rfl

/-- A list of items that was written with commas is cut into the texts of its items, and each of
these is read as its item. Whatever text is cut, into items or into arguments, nothing is lost but
blanks and what separates at the top level. -/
theorem splitItems_written :
    (∀ items : List (ListItem × String), (∀ entry ∈ items, entry.1.Written entry.2.toList) →
      splitItems (", ".intercalate (items.map Prod.snd)) = items.map Prod.snd ∧
      ∀ entry ∈ items, ListItem.ofText entry.2 = .ok entry.1) ∧
    ∀ s : String,
      CutInto (· == ',') [] s.toList ((splitItems s).map String.toList) ∧
      CutInto isBlank [] s.toList ((splitArguments s).map String.toList) := by
  have lists (pieces : List (List Char)) :
      (pieces.map String.ofList).map String.toList = pieces := by
    simp [Function.comp_def]
  refine ⟨fun items written => ⟨?_, fun entry member => (written entry member).ofText⟩,
    fun s => ⟨?_, ?_⟩⟩
  · rw [splitItems, String.toList_intercalate, List.map_map]
    cases items with
    | nil => rfl
    | cons entry rest =>
        have each : ∀ t ∈ (entry :: rest).map (String.toList ∘ Prod.snd),
            ∃ item : ListItem, item.Written t := by
          intro t member
          obtain ⟨e, among, rfl⟩ := List.mem_map.mp member
          exact ⟨e.1, written e among⟩
        have cut := splitTop_written each (.inl (Eq.refl []))
        rw [List.nil_append, ← List.map_cons] at cut
        have comma : ", ".toList = [',', ' '] := by decide
        rw [comma, cut, List.map_map]
        simp [Function.comp_def]
  · rw [splitItems, lists]
    refine splitTop_cutInto (fun c comma => ?_) s.toList
    rw [beq_iff_eq.mp comma]
    rfl
  · rw [splitArguments, lists]
    exact splitTop_cutInto (fun c => not_isMark_blank) s.toList

/-- A call with a comma in parentheses and a parenthesis in quotes, and a name behind it. -/
theorem splitItems_written_image :
    splitItems "image('a, b)' rgb(1, 2)\t*), icon" = ["image('a, b)' rgb(1, 2)\t*)", "icon"] ∧
      ofText "image('a, b)' rgb(1, 2)\t*)" = .ok (.call "image" ["'a, b)'", "rgb(1, 2)", "*"]) ∧
      ofText "icon" = .ok (.name "icon") := by
  have quoted : Argument "'a, b)'".toList := by
    have single : '\'' ∉ "a, b)".toList := by decide
    exact ⟨by decide, .quoted (.inr rfl) single .nil⟩
  have enclosed : Argument "rgb(1, 2)".toList := by
    have name : Nested (fun c => !isBlank c) "rgb".toList :=
      nested_plain (by simp [isMark, isBlank, blankRanges])
    have within : Nested (fun _ => true) "1, 2".toList := nested_plain (by simp [isMark])
    exact ⟨by decide, name.append (.enclosed within .nil)⟩
  have star : Argument "*".toList :=
    ⟨by decide, nested_plain (by simp [isMark, isBlank, blankRanges])⟩
  have spaced : Spaced (["'a, b)'", "rgb(1, 2)", "*"].map String.toList)
      ("'a, b)'".toList ++ ([' '] ++ ("rgb(1, 2)".toList ++ (['\t'] ++ "*".toList)))) :=
    .more (by decide) (List.forall_mem_singleton.mpr rfl)
      (.more (by decide) (List.forall_mem_singleton.mpr rfl) (.last _))
  have named : Named "image".toList := ⟨by decide, by simp [isMark, isBlank, blankRanges]⟩
  have image : Written (.call "image" ["'a, b)'", "rgb(1, 2)", "*"])
      "image('a, b)' rgb(1, 2)\t*)".toList :=
    .call named (by simpa using ⟨quoted, enclosed, star⟩) spaced
  have icon : Written (.name "icon") "icon".toList :=
    .name ⟨by decide, by simp [isMark, isBlank, blankRanges]⟩
  have list := splitItems_written.1
    [(.call "image" ["'a, b)'", "rgb(1, 2)", "*"], "image('a, b)' rgb(1, 2)\t*)"),
      (.name "icon", "icon")] (by simpa using ⟨image, icon⟩)
  exact ⟨list.1, list.2 _ (.head _), list.2 _ (.tail _ (.head _))⟩

end ListItem
end Cascade
