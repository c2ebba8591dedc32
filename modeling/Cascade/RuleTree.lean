import Cascade.Collections
import Cascade.Document
import Cascade.Property.Dictionary
/-!
Rule trees: what they are made of, how they grow, and how elements are matched with them.

A qualifier is a compound as a node of a rule tree has it: of several tags or ids the last one
stands, classes and pseudo-classes are sorted and none stands twice. So `.a.b` and `.b.a` are one.
-/
namespace Cascade

structure Qualifier where
  /-- Without a tag, any tag will do. -/
  tag : Option String := none
  id : Option String := none
  classes : List String := []
  pseudoClasses : List String := []
  /-- How this qualifier relates to the one before it. -/
  combinator : Combinator := .descendant
  deriving DecidableEq, Inhabited

namespace Qualifier

def ofCompound (combinator : Combinator) (c : Compound) : Qualifier where
  tag := (c.components.filterMap fun | .tag name => some name | _ => none).getLast?
  id := (c.components.filterMap fun | .id name => some name | _ => none).getLast?
  classes := Ordered.texts (c.components.filterMap fun | .className name => some name | _ => none)
  pseudoClasses :=
    Ordered.texts (c.components.filterMap fun | .pseudoClass name => some name | _ => none)
  combinator

def holds (q : Qualifier) (e : ElementData) : Bool :=
  q.tag.all (· == e.tag) && q.id.all (e.id == some ·) && q.classes.all e.hasClass &&
    q.pseudoClasses.all e.hasPseudoClass

def specificity (q : Qualifier) : Specificity :=
  ⟨q.id.toList.length, min Specificity.limit (q.classes.length + q.pseudoClasses.length),
   q.tag.toList.length⟩

def isUniversal (q : Qualifier) : Bool :=
  q.tag.isNone && q.id.isNone && q.classes.isEmpty && q.pseudoClasses.isEmpty

def text (q : Qualifier) : String :=
  if q.isUniversal then "*"
  else q.tag.getD "" ++ (q.id.map ("#" ++ ·)).getD "" ++
    String.join (q.classes.map ("." ++ ·)) ++ String.join (q.pseudoClasses.map (":" ++ ·))

end Qualifier

/-! Rule trees.
The qualifiers of a selector, from left to right, are a path from the root. Selectors with equal
beginnings share nodes, and what a selector declares is held by the node where it ends. Nodes are
numbered in the order of their creation and stay where they are; the root has the number 0, stands
for no qualifier and holds nothing. -/

abbrev RuleNodeId := Nat

structure RuleNode (V : Type) where
  qualifier : Qualifier
  /-- Summed over the path from the root. -/
  specificity : Specificity
  properties : Dictionary V
  parent : Option RuleNodeId
  /-- In the order of their creation. -/
  children : List RuleNodeId
  deriving Inhabited

structure RuleTree (V : Type) where
  nodes : Array (RuleNode V)
  deriving Inhabited

namespace RuleTree
variable {V : Type}

def root : RuleNodeId := 0

def empty : RuleTree V := ⟨#[⟨{}, .zero, .empty, none, []⟩]⟩

def find? (t : RuleTree V) (n : RuleNodeId) : Option (RuleNode V) := t.nodes[n]?

def size (t : RuleTree V) : Nat := t.nodes.size - 1

def isEmpty (t : RuleTree V) : Bool := t.size = 0

def children (t : RuleTree V) (n : RuleNodeId) : List RuleNodeId :=
  ((t.find? n).map RuleNode.children).getD []

def modify (t : RuleTree V) (n : RuleNodeId) (f : RuleNode V → RuleNode V) : RuleTree V :=
  ⟨t.nodes.modify n f⟩

def edit (t : RuleTree V) (n : RuleNodeId) (f : Dictionary V → Dictionary V) : RuleTree V :=
  t.modify n fun node => { node with properties := f node.properties }

def child? (t : RuleTree V) (parent : RuleNodeId) (q : Qualifier) : Option RuleNodeId :=
  (t.children parent).find? fun c => (t.find? c).any fun node => node.qualifier == q

/-- The child of a node that stands for a qualifier, created as the last one if it is missing. -/
def descend (t : RuleTree V) (parent : RuleNodeId) (q : Qualifier) : RuleNodeId × RuleTree V :=
  match t.find? parent with
  | none => (parent, t)
  | some node =>
    match t.child? parent q with
    | some c => (c, t)
    | none =>
      let c := t.nodes.size
      let grown : RuleTree V :=
        ⟨t.nodes.push ⟨q, node.specificity + q.specificity, .empty, some parent, []⟩⟩
      (c, grown.modify parent fun p => { p with children := p.children ++ [c] })

def descendAll (t : RuleTree V) (n : RuleNodeId) : List Qualifier → RuleNodeId × RuleTree V
  | [] => (n, t)
  | q :: rest =>
    let (c, t) := t.descend n q
    t.descendAll c rest

def pathOf (s : Selector) : List Qualifier :=
  s.segments.map fun (combinator, compound) => .ofCompound combinator compound

def insert (t : RuleTree V) (s : Selector) (properties : Dictionary V) : RuleNodeId × RuleTree V :=
  let (n, t) := t.descendAll root (pathOf s)
  (n, t.edit n fun held => held.merge properties)

def adopt (t : RuleTree V) (other : RuleTree V) (n : RuleNodeId) :
    List RuleNodeId → List (RuleNodeId × RuleNodeId) × RuleTree V
  | [] => ([], t)
  | theirs :: rest =>
    match other.find? theirs with
    | none => t.adopt other n rest
    | some node =>
      let (ours, t) := t.descend n node.qualifier
      let (more, t) := t.adopt other n rest
      ((theirs, ours) :: more, t)

/-- Merges the pairs of nodes that are due, the other tree's node first in each, and with every
pair the children of its nodes before what was due after it. -/
def mergeDue (other : RuleTree V) (offset : Nat) :
    (fuel : Nat) → (due : List (RuleNodeId × RuleNodeId)) → RuleTree V → RuleTree V
  | 0, _, t => t
  | _, [], t => t
  | fuel + 1, (theirs, ours) :: due, t =>
    match other.find? theirs with
    | none => mergeDue other offset fuel due t
    | some node =>
      let t := if theirs = root then t
        else t.edit ours fun held => held.importFrom offset node.properties
      let (children, t) := t.adopt other ours node.children
      mergeDue other offset fuel (children ++ due) t

/-- The tree with everything of another tree, whose layers are moved up by an offset. Every node of
the other tree is due once. -/
def merge (t other : RuleTree V) (offset : Nat) : RuleTree V :=
  mergeDue other offset other.nodes.size [(root, root)] t

/-- Visits the nodes that are due, each before its children and these before what was due after
it. -/
def visit (t : RuleTree V) : (fuel : Nat) → (due : List RuleNodeId) → List RuleNodeId
  | 0, _ => []
  | _, [] => []
  | fuel + 1, n :: due => n :: visit t fuel (t.children n ++ due)

/-- Every node but the root, parents first and children in the order of their creation. -/
def preorder (t : RuleTree V) : List RuleNodeId := t.visit t.nodes.size (t.children root)

def mapProperties (t : RuleTree V) (f : Dictionary V → Dictionary V) : RuleTree V :=
  ⟨t.nodes.map fun node => { node with properties := f node.properties }⟩

/-- The qualifiers from a node up to the root, which is left out. Parents are older than their
children; testing it lets the climb end. -/
def chain (t : RuleTree V) (n : RuleNodeId) : List Qualifier :=
  match t.find? n with
  | none => []
  | some node =>
    match node.parent with
    | none => []
    | some p => if p < n then node.qualifier :: t.chain p else []
termination_by n

def pathText : List Qualifier → String
  | [] => ""
  | first :: rest =>
    first.text ++ String.join (rest.map fun q => q.combinator.spaced ++ q.text)

def selectorText (t : RuleTree V) (n : RuleNodeId) : String := pathText (t.chain n).reverse

end RuleTree

/-! Whether a selector matches an element.
A chain of qualifiers is matched from its end: the last one must hold of the element, and the rest
of the chain must match one of the elements that the combinator points to. When one of these fails,
the outcome says which others would fail as well, so that they are not tried in vain. -/

inductive MatchOutcome where
  | matched
  /-- The element fails; an earlier sibling or a farther ancestor may match. -/
  | failedHere
  /-- The element and all its siblings fail; a farther ancestor may match. -/
  | failedLevel
  /-- No candidate anywhere can match. -/
  | failedEverywhere
  deriving DecidableEq, Inhabited

/-- What an outcome at the parent means at the child, whose siblings have that parent as well. -/
def MatchOutcome.fromParent : MatchOutcome → MatchOutcome
  | .failedHere => .failedLevel
  | outcome => outcome

namespace Document

def satisfies (d : Document) (q : Qualifier) (e : ElementId) : Bool :=
  (d.data? e).any q.holds

/-- Tries siblings in turn, as long as a farther one may match. Out of siblings an ancestor may
still match. -/
def trySiblings (outcomeAt : ElementId → MatchOutcome) : List ElementId → MatchOutcome
  | [] => .failedLevel
  | e :: farther =>
    match outcomeAt e with
    | .failedHere => trySiblings outcomeAt farther
    | outcome => outcome

/-- Tries the ancestors of an element in turn, nearest first, as long as a farther one may match.
Out of ancestors nothing can. -/
def tryAncestors (d : Document) (outcomeAt : ElementId → MatchOutcome) (e : ElementId) :
    MatchOutcome :=
  match d.parent? e with
  | none => .failedEverywhere
  | some p =>
    if p < e then
      match outcomeAt p with
      | .matched => .matched
      | .failedEverywhere => .failedEverywhere
      | .failedHere | .failedLevel => d.tryAncestors outcomeAt p
    else .failedEverywhere
termination_by e

def matchChain (d : Document) : List Qualifier → ElementId → MatchOutcome
  | [], _ => .matched
  | q :: before, e =>
    if !d.satisfies q e then .failedHere
    else if before.isEmpty then .matched
    else
      match q.combinator with
      | .descendant => d.tryAncestors (fun a => d.matchChain before a) e
      | .child =>
        match d.parent? e with
        | none => .failedEverywhere
        | some p => (d.matchChain before p).fromParent
      | .nextSibling =>
        match d.previousSibling? e with
        | none => .failedLevel
        | some s => d.matchChain before s
      | .laterSibling => trySiblings (fun s => d.matchChain before s) (d.precedingSiblings e)

end Document

def RuleTree.isApplicable {V : Type} (t : RuleTree V) (d : Document) (n : RuleNodeId)
    (e : ElementId) : Bool :=
  match t.chain n with
  | [] => false
  | chain => d.matchChain chain e == .matched

/-! Finding the nodes that may match an element.
A node is filed under one key of its own qualifier. What it is filed under, an element that it
matches has; so the nodes filed under the keys of an element are all that can match it. -/

inductive IndexKey where
  | id (name : String)
  | className (name : String)
  | tag (name : String)
  | universal
  deriving DecidableEq, Inhabited

/-- The key of a qualifier: its id, else the first of its classes, else its tag. -/
def IndexKey.ofQualifier (q : Qualifier) : IndexKey :=
  match q.id, q.classes, q.tag with
  | some name, _, _ => .id name
  | none, name :: _, _ => .className name
  | none, [], some name => .tag name
  | none, [], none => .universal

/-- The keys under which a node that matches an element can be filed. -/
def IndexKey.ofElement (e : ElementData) : List IndexKey :=
  .universal :: e.id.toList.map .id ++ e.classes.map .className ++ [.tag e.tag]

structure NodeIndex where
  buckets : Table IndexKey (List RuleNodeId)
  deriving DecidableEq, Inhabited

namespace NodeIndex

def empty : NodeIndex := ⟨.empty⟩

def get (index : NodeIndex) (key : IndexKey) : List RuleNodeId :=
  (index.buckets.get? key).getD []

def insert (index : NodeIndex) (q : Qualifier) (n : RuleNodeId) : NodeIndex :=
  let key := IndexKey.ofQualifier q
  ⟨index.buckets.insert key (index.get key ++ [n])⟩

def size (index : NodeIndex) : Nat := (index.buckets.entries.flatMap Prod.snd).length

def isEmpty (index : NodeIndex) : Bool := index.size = 0

def candidates (index : NodeIndex) (e : ElementData) : List RuleNodeId :=
  Ordered.numbers ((IndexKey.ofElement e).flatMap index.get)

def ofTree {V : Type} (t : RuleTree V) (filed : RuleNode V → Bool) : NodeIndex :=
  t.preorder.foldl (fun index n =>
    match t.find? n with
    | some node => if filed node then index.insert node.qualifier n else index
    | none => index) empty

def applicable {V : Type} (index : NodeIndex) (t : RuleTree V) (d : Document) (e : ElementId) :
    List RuleNodeId :=
  match d.data? e with
  | none => []
  | some data => (index.candidates data).filter fun n => t.isApplicable d n e

end NodeIndex
end Cascade
