/-!
Documents: what selectors can ask of an element, and the trees that elements form.
-/
namespace Cascade

structure ElementData where
  tag : String
  id : Option String := none
  classes : List String := []
  pseudoClasses : List String := []
  deriving DecidableEq, Inhabited

namespace ElementData

def hasClass (e : ElementData) (name : String) : Bool := e.classes.contains name

def addClass (e : ElementData) (name : String) : ElementData :=
  if e.hasClass name then e else { e with classes := e.classes ++ [name] }

def removeClass (e : ElementData) (name : String) : ElementData :=
  { e with classes := e.classes.filter (· != name) }

def toggleClass (e : ElementData) (name : String) : ElementData :=
  if e.hasClass name then e.removeClass name else e.addClass name

def hasPseudoClass (e : ElementData) (name : String) : Bool := e.pseudoClasses.contains name

def setPseudoClass (e : ElementData) (name : String) (active : Bool) : ElementData :=
  if active then
    if e.hasPseudoClass name then e else { e with pseudoClasses := e.pseudoClasses ++ [name] }
  else { e with pseudoClasses := e.pseudoClasses.filter (· != name) }

def setId (e : ElementData) (id : Option String) : ElementData := { e with id }

end ElementData

/-! Documents: trees of elements that are added and removed while styles are resolved.
Elements are numbered in the order of their creation and numbers are not used again, so that a
parent has a smaller number than its children. A document may hold several trees; the first element
without a parent is the root until it is removed. -/

abbrev ElementId := Nat

structure Element where
  data : ElementData
  parent : Option ElementId
  children : List ElementId
  deriving DecidableEq, Inhabited

/-- The elements by number, those removed as `none`. -/
structure Document where
  elements : Array (Option Element)
  root : Option ElementId
  deriving Inhabited

namespace Document

def empty : Document := ⟨#[], none⟩

def find? (d : Document) (e : ElementId) : Option Element :=
  match d.elements[e]? with
  | some (some element) => some element
  | _ => none

def contains (d : Document) (e : ElementId) : Bool := (d.find? e).isSome

def data? (d : Document) (e : ElementId) : Option ElementData := (d.find? e).map Element.data

def parent? (d : Document) (e : ElementId) : Option ElementId := (d.find? e).bind Element.parent

def children (d : Document) (e : ElementId) : List ElementId :=
  ((d.find? e).map Element.children).getD []

def size (d : Document) : Nat := (d.elements.filter Option.isSome).size

def isEmpty (d : Document) : Bool := d.size = 0

def modify (d : Document) (e : ElementId) (f : Element → Element) : Document :=
  { d with elements := d.elements.modify e (Option.map f) }

def insert (d : Document) (data : ElementData) : ElementId × Document :=
  let e := d.elements.size
  (e, ⟨d.elements.push (some ⟨data, none, []⟩), d.root.or (some e)⟩)

def insertChild? (d : Document) (parent : ElementId) (data : ElementData) :
    Option (ElementId × Document) :=
  if d.contains parent then
    let e := d.elements.size
    let grown : Document := { d with elements := d.elements.push (some ⟨data, some parent, []⟩) }
    some (e, grown.modify parent fun p => { p with children := p.children ++ [e] })
  else none

def edit (d : Document) (e : ElementId) (f : ElementData → ElementData) : Document :=
  d.modify e fun element => { element with data := f element.data }

/-- The ancestors of an element, nearest first. Parents are older than their children; testing it
lets the climb end. -/
def ancestors (d : Document) (e : ElementId) : List ElementId :=
  match d.parent? e with
  | none => []
  | some p => if p < e then p :: d.ancestors p else []
termination_by e

/-- The earlier children of an element's parent, nearest first. -/
def precedingSiblings (d : Document) (e : ElementId) : List ElementId :=
  match d.parent? e with
  | none => []
  | some p => ((d.children p).takeWhile (· != e)).reverse

def previousSibling? (d : Document) (e : ElementId) : Option ElementId :=
  (d.precedingSiblings e).head?

/-- Visits the elements that are due, each before its children and these before what was due after
it. -/
def visit (d : Document) : (fuel : Nat) → (due : List ElementId) → List ElementId
  | 0, _ => []
  | _, [] => []
  | fuel + 1, e :: due =>
    match d.find? e with
    | none => visit d fuel due
    | some element => e :: visit d fuel (element.children ++ due)

def walk (d : Document) (start : ElementId) : List ElementId :=
  d.visit (d.elements.size + 1) [start]

def forget (d : Document) (e : ElementId) : Document :=
  { d with elements := d.elements.modify e fun _ => none }

/-- Forgets the elements that are due. The children of each become due behind the others. -/
def drain (d : Document) : (fuel : Nat) → (due : List ElementId) → Document
  | 0, _ => d
  | _, [] => d
  | fuel + 1, e :: due => drain (d.forget e) fuel (due ++ d.children e)

def delist (d : Document) (e : ElementId) : Document :=
  match d.parent? e with
  | none => d
  | some p => d.modify p fun q => { q with children := q.children.filter (· != e) }

/-- The document without an element and its descendants, with the data of the element. -/
def remove? (d : Document) (e : ElementId) : Option (ElementData × Document) :=
  match d.find? e with
  | none => none
  | some element =>
    let rootless := { d.delist e with root := if d.root = some e then none else d.root }
    -- No element becomes due twice, so the number of elements is fuel enough.
    some (element.data, rootless.drain d.elements.size [e])

end Document
end Cascade
