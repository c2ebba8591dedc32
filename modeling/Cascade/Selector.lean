/-!
Selectors as written, compounds of simple selectors joined by combinators, and the precedence that a
selector gives to its declarations.
-/
namespace Cascade

inductive SimpleSelector where
  | tag (name : String)
  | universal
  | id (name : String)
  | className (name : String)
  | pseudoClass (name : String)
  deriving DecidableEq, Inhabited

inductive Combinator where
  | descendant
  | child
  | nextSibling
  | laterSibling
  deriving DecidableEq, Inhabited

def Combinator.sign : Combinator → String
  | .descendant => " "
  | .child => ">"
  | .nextSibling => "+"
  | .laterSibling => "~"

def Combinator.spaced : Combinator → String
  | .descendant => " "
  | .child => " > "
  | .nextSibling => " + "
  | .laterSibling => " ~ "

structure Compound where
  components : List SimpleSelector
  deriving DecidableEq, Inhabited

def Compound.isUniversal (c : Compound) : Bool := c.components == [.universal]

/-- A chain of compounds, each but the first with the combinator on its left. -/
structure Selector where
  first : Compound
  rest : List (Combinator × Compound)
  deriving DecidableEq, Inhabited

inductive SelectorPart where
  | compound (c : Compound)
  | combinator (j : Combinator)
  deriving DecidableEq, Inhabited

/-- The compounds of a list of parts, each with the combinator that stands before it; `pending` is
the one before the first. -/
def SelectorPart.segments (pending : Combinator) :
    List SelectorPart → List (Combinator × Compound)
  | [] => []
  | .combinator j :: parts => segments j parts
  | .compound c :: parts => (pending, c) :: segments .descendant parts

namespace Selector

def parts (s : Selector) : List SelectorPart :=
  .compound s.first :: s.rest.flatMap fun (j, c) => [.combinator j, .compound c]

/-- The compounds from left to right, each with the combinator on its left. The first counts as a
descendant. -/
def segments (s : Selector) : List (Combinator × Compound) :=
  SelectorPart.segments .descendant s.parts

theorem segments_eq (s : Selector) : s.segments = (.descendant, s.first) :: s.rest := by
  have rest (more : List (Combinator × Compound)) : SelectorPart.segments .descendant
      (more.flatMap fun (j, c) => [.combinator j, .compound c]) = more := by
    induction more with
    | nil => rfl
    | cons segment more ih => simp [SelectorPart.segments, ih]
  rw [segments, parts, SelectorPart.segments, rest]

end Selector

/-! Which of two declarations of one property wins.
The greater precedence wins. An important declaration is above every other; then the more specific
selector, then the later layer, then the later declaration of the layer decides. Counts stay at
their limit once they have reached it. -/

def saturatingAdd (limit a b : Nat) : Nat := min limit (a + b)

/-- The limit of a layer and of a place within it. -/
def wordLimit : Nat := 0xffffffff

/-- How many ids, classes and pseudo-classes, and tags a selector names, each up to `limit`. -/
structure Specificity where
  ids : Nat
  classes : Nat
  tags : Nat
  deriving DecidableEq, Inhabited

namespace Specificity

def limit : Nat := 0xffff

def zero : Specificity := ⟨0, 0, 0⟩

def add (a b : Specificity) : Specificity :=
  ⟨saturatingAdd limit a.ids b.ids, saturatingAdd limit a.classes b.classes,
   saturatingAdd limit a.tags b.tags⟩

instance : Add Specificity := ⟨add⟩

def compare (a b : Specificity) : Ordering :=
  (Ord.compare a.ids b.ids).then
    ((Ord.compare a.classes b.classes).then (Ord.compare a.tags b.tags))

def ofSimple : SimpleSelector → Specificity
  | .id _ => ⟨1, 0, 0⟩
  | .className _ | .pseudoClass _ => ⟨0, 1, 0⟩
  | .tag _ => ⟨0, 0, 1⟩
  | .universal => zero

def ofCompound (c : Compound) : Specificity :=
  c.components.foldl (fun total simple => total + ofSimple simple) zero

def ofSelector (s : Selector) : Specificity :=
  s.segments.foldl (fun total segment => total + ofCompound segment.2) zero

end Specificity

structure Precedence where
  important : Bool
  specificity : Specificity
  layer : Nat
  order : Nat
  deriving DecidableEq, Inhabited

namespace Precedence

def compare (a b : Precedence) : Ordering :=
  (Ord.compare a.important.toNat b.important.toNat).then
    ((a.specificity.compare b.specificity).then
      ((Ord.compare a.layer b.layer).then (Ord.compare a.order b.order)))

def outranks (a b : Precedence) : Bool := a.compare b == .gt

def shifted (offset : Nat) (p : Precedence) : Precedence :=
  { p with layer := saturatingAdd wordLimit p.layer offset }

def ofOrder (order : Nat) : Precedence := ⟨false, .zero, 0, order⟩

end Precedence
end Cascade
