import Cascade.Animation
import Mathlib.Data.List.Perm.Basic
/-!
What an item of an animation list describes.

Each word of an item has the first meaning that fits it. An item is described by the times, the
names, the curves, the counts and the flags among its words, each sort for itself, so words of
different sorts may stand in any order.
-/
namespace Cascade

namespace AnimationWord

def reads (text : String) (word : List Char) : Bool := word.map Text.lower == text.toList

/-- The meanings that a word may have, before it is a name. The first one that fits counts. -/
def meanings : List (List Char → Option AnimationWord) :=
  [fun word => (seconds? word).map .time,
    fun word => if reads "infinite" word then some (.iterations .infinite) else none,
    fun word => if reads "alternate" word then some .alternate else none,
    fun word => if reads "paused" word then some .paused else none,
    fun word => (Text.word32? word).map fun n => .iterations (.count n),
    fun word => (Tween.ofText? word).map .tween]

def meaning (word : List Char) : AnimationWord :=
  (meanings.findSome? fun fits => fits word).getD (.name (String.ofList word))

theorem ofText_eq_meaning (word : List Char) : ofText word = meaning word := by
  have spelled (text : String) : (word.map Text.lower == text.toList) = reads text word := rfl
  simp only [ofText, meaning, meanings, spelled, List.findSome?_cons, List.findSome?_nil]
  cases seconds? word with
  | some seconds => rfl
  | none =>
      cases reads "infinite" word with
      | true => rfl
      | false =>
          cases reads "alternate" word with
          | true => rfl
          | false =>
              cases reads "paused" word with
              | true => rfl
              | false => cases Text.word32? word <;> cases Tween.ofText? word <;> rfl

def time? : AnimationWord → Option Binary32
  | .time seconds => some seconds
  | _ => none

def name? : AnimationWord → Option String
  | .name text => some text
  | _ => none

def tween? : AnimationWord → Option Tween
  | .tween t => some t
  | _ => none

def iterations? : AnimationWord → Option Iterations
  | .iterations i => some i
  | _ => none

end AnimationWord

section Words
variable (words : List AnimationWord)

def AnimationWord.times : List Binary32 := words.filterMap time?

def AnimationWord.names : List String := words.filterMap name?

def AnimationWord.tweens : List Tween := words.filterMap tween?

def AnimationWord.counts : List Iterations := words.filterMap iterations?

/-- No more times and names than an animation can have. -/
def AnimationWord.Few : Prop :=
  (AnimationWord.times words).length ≤ 2 ∧ (AnimationWord.names words).length ≤ 1

instance : Decidable (AnimationWord.Few words) := inferInstanceAs (Decidable (_ ∧ _))

def AnimationDraft.told : AnimationDraft where
  duration := (AnimationWord.times words)[0]?
  delay := (AnimationWord.times words)[1]?
  tween := (AnimationWord.tweens words).getLast?
  iterations := (AnimationWord.counts words).getLast?
  alternate := words.contains .alternate
  paused := words.contains .paused
  name := (AnimationWord.names words)[0]?

end Words

namespace AnimationDraft
open AnimationWord
variable {words more : List AnimationWord}

@[simp] theorem times_append : times (words ++ more) = times words ++ times more :=
  List.filterMap_append

@[simp] theorem names_append : names (words ++ more) = names words ++ names more :=
  List.filterMap_append

@[simp] theorem tweens_append : tweens (words ++ more) = tweens words ++ tweens more :=
  List.filterMap_append

@[simp] theorem counts_append : counts (words ++ more) = counts words ++ counts more :=
  List.filterMap_append

theorem told_single (word : AnimationWord) :
    times [word] = word.time?.toList ∧ names [word] = word.name?.toList ∧
      tweens [word] = word.tween?.toList ∧ counts [word] = word.iterations?.toList := by
  cases word <;> exact ⟨rfl, rfl, rfl, rfl⟩

theorem few_of_append (few : Few (words ++ more)) : Few words := by
  simp only [Few, times_append, names_append, List.length_append] at few ⊢
  omega

/-- A word more is told unless it is a time or a name too many. -/
theorem add_told (few : Few words) (word : AnimationWord) :
    match (told words).add word with
    | .ok next => Few (words ++ [word]) ∧ next = told (words ++ [word])
    | .error _ => ¬ Few (words ++ [word]) := by
  obtain ⟨time, name, tween, count⟩ := told_single word
  simp only [Few, told, times_append, names_append, tweens_append, counts_append, time, name,
    tween, count, List.contains_append] at few ⊢
  cases word with
  | time seconds =>
      rcases times words with _ | ⟨first, _ | ⟨second, others⟩⟩ <;>
        simp_all [add, time?, name?, tween?, iterations?]
  | name text =>
      rcases names words with _ | ⟨first, others⟩ <;>
        simp_all [add, time?, name?, tween?, iterations?]
  | iterations i | alternate | paused | tween t =>
      simp_all [add, time?, name?, tween?, iterations?]

theorem addAll_told (few : Few words) (more : List AnimationWord) :
    match (told words).addAll more with
    | .ok last => Few (words ++ more) ∧ last = told (words ++ more)
    | .error _ => ¬ Few (words ++ more) := by
  induction more generalizing words with
  | nil =>
      rw [List.append_nil]
      exact ⟨few, rfl⟩
  | cons word rest ih =>
      have step := add_told few word
      rw [addAll, List.append_cons]
      cases taken : (told words).add word with
      | error fault =>
          rw [taken] at step
          exact fun all => step (few_of_append all)
      | ok next =>
          rw [taken] at step
          obtain ⟨fewer, rfl⟩ := step
          exact ih fewer

end AnimationDraft

namespace Animation
open AnimationWord

def meanings (item : String) : List AnimationWord :=
  (Text.words item.toList).map AnimationWord.meaning

/-- The animation that words describe, with its keyframes from a table. -/
structure Described (words : List AnimationWord) (table : Table String Keyframes)
    (a : Animation) : Prop where
  duration : (times words)[0]? = some a.duration
  delay : a.delay = (times words)[1]?.getD .zero
  few : (times words).length ≤ 2
  name : names words = [a.name]
  keyframes : table.get? a.name = some a.keyframes
  tween : a.tween = (tweens words).getLast?.getD .default
  iterations : a.iterations = (counts words).getLast?.getD (.count 1)
  alternate : a.alternate = words.contains .alternate
  paused : a.paused = words.contains .paused

variable {words : List AnimationWord} {table : Table String Keyframes}

/-- Times, names and keyframes are all that an animation needs. -/
theorem described_iff : (∃ a, Described words table a) ↔
    ((times words).length = 1 ∨ (times words).length = 2) ∧
      ∃ name found, names words = [name] ∧ table.get? name = some found := by
  constructor
  · rintro ⟨a, said⟩
    refine ⟨?_, a.name, a.keyframes, said.name, said.keyframes⟩
    have some := (List.getElem?_eq_some_iff.mp said.duration).1
    have few := said.few
    omega
  · rintro ⟨count, name, found, named, known⟩
    obtain ⟨first, others, split⟩ : ∃ first others, times words = first :: others :=
      List.exists_cons_of_ne_nil fun none => by simp [none] at count
    exact ⟨{ name, duration := first, keyframes := found
             delay := (times words)[1]?.getD .zero
             tween := (tweens words).getLast?.getD .default
             iterations := (counts words).getLast?.getD (.count 1)
             alternate := words.contains .alternate
             paused := words.contains .paused },
      by simp [split], rfl, by omega, named, known, rfl, rfl, rfl, rfl⟩

theorem ofText_eq_ok {item : String} {a : Animation} :
    ofText item table = .ok a ↔ Described (meanings item) table a := by
  have few : Few [] := ⟨Nat.zero_le _, Nat.zero_le _⟩
  have heard := AnimationDraft.addAll_told few (meanings item)
  have start : AnimationDraft.told [] = {} := rfl
  have spoken : (Text.words item.toList).map AnimationWord.ofText = meanings item :=
    List.map_congr_left fun word _ => ofText_eq_meaning word
  rw [start, List.nil_append] at heard
  rw [ofText, spoken]
  generalize meanings item = words at heard
  cases result : ({} : AnimationDraft).addAll words with
  | error fault =>
      rw [result] at heard
      constructor
      · intro success
        cases success
      · intro said
        exact absurd ⟨said.few, by simp [said.name]⟩ heard
  | ok draft =>
      rw [result] at heard
      obtain ⟨few, rfl⟩ := heard
      have named : (AnimationDraft.told words).name = (names words)[0]? := rfl
      have lasting : (AnimationDraft.told words).duration = (times words)[0]? := rfl
      constructor
      · intro success
        dsimp only at success
        split at success
        case h_1 | h_2 => cases success
        case h_3 duration name first only =>
          rw [lasting] at first
          rw [named] at only
          split at success
          case h_1 => cases success
          case h_2 found known =>
            obtain rfl := Except.ok.inj success
            refine ⟨first, rfl, few.1, ?_, known, rfl, rfl, rfl, rfl⟩
            have fewer := few.2
            generalize names words = spoken at only fewer
            rcases spoken with _ | ⟨here, _ | ⟨next, others⟩⟩
            · cases only
            · exact List.singleton_inj.mpr (Option.some.inj only)
            · simp at fewer
      · intro said
        have first := lasting.trans said.duration
        have only : (AnimationDraft.told words).name = some a.name := by rw [named, said.name]; rfl
        simp only [first, only, said.keyframes]
        obtain ⟨name, duration, delay, tween, iterations, alternate, paused, keyframes⟩ := a
        obtain ⟨-, rfl, -, -, -, rfl, rfl, rfl, rfl⟩ := said
        rfl

/-- Words of one sort in their order are all that counts. -/
theorem Described.reordered {others : List AnimationWord} {a : Animation}
    (said : Described words table a) (same : others.Perm words)
    (inTime : times others = times words) (inCurves : tweens others = tweens words)
    (inCounts : counts others = counts words) : Described others table a where
  duration := inTime ▸ said.duration
  delay := inTime ▸ said.delay
  few := inTime ▸ said.few
  name := List.perm_singleton.mp (said.name ▸ same.filterMap name?)
  keyframes := said.keyframes
  tween := inCurves ▸ said.tween
  iterations := inCounts ▸ said.iterations
  alternate := said.alternate.trans (same.contains_eq).symm
  paused := said.paused.trans (same.contains_eq).symm

/-- An item is an animation exactly when it has one or two times and one name, which is in the
table. The first time is the duration and the second the delay, the last curve and the last count
stand, and a flag is set by being there. So an animation stays the same when the words of its item
change places, as long as times, curves and counts keep their order among themselves. -/
theorem ofText_described (item : String) (table : Table String Keyframes) :
    ((∃ a, ofText item table = .ok a) ↔
      ((times (meanings item)).length = 1 ∨ (times (meanings item)).length = 2) ∧
        ∃ name found, names (meanings item) = [name] ∧ table.get? name = some found) ∧
    (∀ a, ofText item table = .ok a ↔ Described (meanings item) table a) ∧
    ∀ other a, (meanings other).Perm (meanings item) →
      times (meanings other) = times (meanings item) →
      tweens (meanings other) = tweens (meanings item) →
      counts (meanings other) = counts (meanings item) →
      ofText item table = .ok a → ofText other table = .ok a := by
  refine ⟨?_, fun a => ofText_eq_ok, fun other a same inTime inCurves inCounts success => ?_⟩
  · rw [← described_iff]
    exact exists_congr fun a => ofText_eq_ok
  · exact ofText_eq_ok.mpr ((ofText_eq_ok.mp success).reordered same inTime inCurves inCounts)

/-- The name may come first or last, and the flag anywhere. -/
theorem ofText_described_fade :
    ∃ a, ofText "fade 250ms ALTERNATE 1s 3 sine-in" (.ofList [("fade", ⟨[], []⟩)]) = .ok a ∧
      ofText "3 sine-in alternate 250ms 1s fade" (.ofList [("fade", ⟨[], []⟩)]) = .ok a := by
  have described := ofText_described "fade 250ms ALTERNATE 1s 3 sine-in"
    (.ofList [("fade", ⟨[], []⟩)])
  obtain ⟨a, success⟩ := described.1.mpr
    ⟨.inr (by decide), "fade", ⟨[], []⟩, by decide, rfl⟩
  exact ⟨a, success, described.2.2 _ a (by decide) (by decide) (by decide)
    (by decide) success⟩

end Animation
end Cascade
