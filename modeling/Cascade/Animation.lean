import Cascade.Collections
import Cascade.Property.Declared
/-!
Animations: keyframes, and the items of an animation list that name them.

Blocks of keyframes stand in the order of time. A block that comes for the moment of an earlier one
is merged into it, its declarations on top.
-/
namespace Cascade

structure KeyframeBlock where
  /-- A part of the whole duration. -/
  time : Binary32
  properties : Dictionary DeclaredValue
  deriving Inhabited

structure Keyframes where
  /-- Every property that some block sets, in the order of dictionaries. -/
  properties : List Longhand
  blocks : List KeyframeBlock
  deriving Inhabited

namespace Keyframes

/-- The blocks with another one put in its place: before the first block that is not earlier, or
merged into it if it has the same time. -/
def put (block : KeyframeBlock) : List KeyframeBlock → List KeyframeBlock
  | [] => [block]
  | b :: rest =>
    if b.time.precedes block.time then b :: put block rest
    else if b.time.numEq block.time then
      { b with properties := b.properties.merge block.properties } :: rest
    else block :: b :: rest

def cascade (file : String) (declarations : List Declaration) (order : Nat) :
    Dictionary DeclaredValue :=
  (declarations.zipIdx order).foldl (fun held (d, place) =>
    match d.settings with
    | .error _ => held
    | .ok settings => settings.foldl (fun held (p, value) =>
        held.set p ⟨value, .ofOrder place, ⟨file, d.line⟩⟩) held) .empty

def insert (k : Keyframes) (block : KeyframeBlock) : Keyframes where
  properties := Longhand.all.filter fun p =>
    k.properties.contains p || (block.properties.get? p).isSome
  blocks := put block k.blocks

/-- The blocks of rules put in one after the other. Declarations are counted through all rules, and
the count has no bound; one of 32 bits is the same for less than `2 ^ 32` declarations. -/
def insertAll (file : String) (order : Nat) (k : Keyframes) : List KeyframeRule → Keyframes
  | [] => k
  | rule :: rest =>
    let properties := cascade file rule.declarations order
    insertAll file (order + rule.declarations.length)
      (rule.times.foldl (fun k time => k.insert ⟨time, properties⟩) k) rest

def ofRule (rule : KeyframesRule) (file : String) : Keyframes :=
  insertAll file 0 ⟨[], []⟩ rule.blocks

end Keyframes

/-! Easing curves: a kind, and which end of the animation is eased. -/

inductive TweenKind where
  | linear | back | bounce | circular | cubic | elastic | exponential | quadratic | quartic
  | quintic | sine
  deriving DecidableEq, Inhabited

inductive TweenDirection where
  | easeIn
  | easeOut
  | easeInOut
  deriving DecidableEq, Inhabited

structure Tween where
  kind : TweenKind
  direction : TweenDirection
  deriving DecidableEq, Inhabited

def Tween.default : Tween := ⟨.linear, .easeInOut⟩

def TweenKind.ofName? : String → Option TweenKind
  | "linear" => some .linear
  | "back" => some .back
  | "bounce" => some .bounce
  | "circular" => some .circular
  | "cubic" => some .cubic
  | "elastic" => some .elastic
  | "exponential" => some .exponential
  | "quadratic" => some .quadratic
  | "quartic" => some .quartic
  | "quintic" => some .quintic
  | "sine" => some .sine
  | _ => none

/-- The curve that a text names, in any case: a kind and `-in`, `-out` or `-in-out`. A linear curve
may stand without. -/
def Tween.ofText? (text : List Char) : Option Tween :=
  let word := text.map Text.lower
  let curve (direction : TweenDirection) (kind : List Char) : Option Tween :=
    (TweenKind.ofName? (String.ofList kind)).map fun kind => ⟨kind, direction⟩
  match Text.beforeEnding? "-in-out".toList word, Text.beforeEnding? "-out".toList word,
    Text.beforeEnding? "-in".toList word with
  | some kind, _, _ => curve .easeInOut kind
  | none, some kind, _ => curve .easeOut kind
  | none, none, some kind => curve .easeIn kind
  | none, none, none => if word = "linear".toList then some .default else none

/-! Items of an animation list: how long, how often and along which curve the keyframes of a name
run. The words of an item may stand in any order; what each one means is decided by itself, and the
first of two times is the duration. -/

inductive Iterations where
  | count (n : Nat)
  | infinite
  deriving DecidableEq, Inhabited

structure Animation where
  name : String
  /-- In seconds, as the delay is. -/
  duration : Binary32
  delay : Binary32
  tween : Tween
  iterations : Iterations
  alternate : Bool
  paused : Bool
  keyframes : Keyframes
  deriving Inhabited

inductive AnimationFault where
  | manyTimes
  | manyNames
  | noDuration
  | noName
  deriving DecidableEq, Inhabited

def AnimationFault.message : AnimationFault → String
  | .manyTimes => "more than two time values"
  | .manyNames => "more than one keyframes name"
  | .noDuration => "missing duration"
  | .noName => "missing keyframes name"

inductive AnimationError where
  | unknownKeyframes (name : String)
  | malformed (item : String) (fault : AnimationFault)
  deriving DecidableEq, Inhabited

def AnimationError.message : AnimationError → String
  | .unknownKeyframes name => "no @keyframes named '" ++ name ++ "'"
  | .malformed item fault => "malformed animation '" ++ item ++ "': " ++ fault.message

inductive AnimationWord where
  | time (seconds : Binary32)
  | iterations (i : Iterations)
  | alternate
  | paused
  | tween (t : Tween)
  | name (name : String)
  deriving DecidableEq, Inhabited

namespace AnimationWord

def seconds? (word : List Char) : Option Binary32 :=
  let word := word.map Text.lower
  match Text.beforeEnding? "ms".toList word, Text.beforeEnding? "s".toList word with
  | some number, _ => (Binary32.ofText? number).map fun ms => ms.div .thousand
  | none, some number => Binary32.ofText? number
  | none, none => none

def ofText (word : List Char) : AnimationWord :=
  let isWord (text : String) : Bool := word.map Text.lower == text.toList
  match seconds? word with
  | some seconds => .time seconds
  | none =>
    if isWord "infinite" then .iterations .infinite
    else if isWord "alternate" then .alternate
    else if isWord "paused" then .paused
    else match Text.word32? word, Tween.ofText? word with
      | some n, _ => .iterations (.count n)
      | none, some t => .tween t
      | none, none => .name (String.ofList word)

end AnimationWord

structure AnimationDraft where
  duration : Option Binary32 := none
  delay : Option Binary32 := none
  tween : Option Tween := none
  iterations : Option Iterations := none
  alternate : Bool := false
  paused : Bool := false
  name : Option String := none
  deriving Inhabited

namespace AnimationDraft

/-- The draft after another word. Of curves and of counts the last one stands. -/
def add (draft : AnimationDraft) : AnimationWord → Except AnimationFault AnimationDraft
  | .time seconds =>
    match draft.duration, draft.delay with
    | none, _ => .ok { draft with duration := some seconds }
    | some _, none => .ok { draft with delay := some seconds }
    | some _, some _ => .error .manyTimes
  | .iterations i => .ok { draft with iterations := some i }
  | .alternate => .ok { draft with alternate := true }
  | .paused => .ok { draft with paused := true }
  | .tween t => .ok { draft with tween := some t }
  | .name name =>
    match draft.name with
    | none => .ok { draft with name := some name }
    | some _ => .error .manyNames

def addAll (draft : AnimationDraft) : List AnimationWord → Except AnimationFault AnimationDraft
  | [] => .ok draft
  | word :: rest =>
    match draft.add word with
    | .error fault => .error fault
    | .ok draft => draft.addAll rest

end AnimationDraft

def Animation.ofText (item : String) (keyframes : Table String Keyframes) :
    Except AnimationError Animation :=
  match ({} : AnimationDraft).addAll ((Text.words item.toList).map AnimationWord.ofText) with
  | .error fault => .error (.malformed item fault)
  | .ok draft =>
    match draft.duration, draft.name with
    | none, _ => .error (.malformed item .noDuration)
    | some _, none => .error (.malformed item .noName)
    | some duration, some name =>
      match keyframes.get? name with
      | none => .error (.unknownKeyframes name)
      | some found => .ok
        { name, duration, keyframes := found
          delay := draft.delay.getD .zero
          tween := draft.tween.getD .default
          iterations := draft.iterations.getD (.count 1)
          alternate := draft.alternate
          paused := draft.paused }

end Cascade
