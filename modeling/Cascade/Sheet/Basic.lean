import Cascade.Definition
import Cascade.RuleTree
/-!
Style sheets.

Sources are loaded one over the other, each as a layer of its own. A sheet is built before elements
are looked up in it: building files the nodes of the rule tree in two indices and builds the lists
among the values.
-/
namespace Cascade

structure SheetConfig where
  registry : Registry
  warnsOfUnknownProperties : Bool

def SheetConfig.default : SheetConfig := ⟨.builtin, true⟩

structure Sheet where
  config : SheetConfig
  tree : RuleTree PropertyValue
  /-- The layer of the next load, and the number of layers so far. -/
  layers : Nat
  keyframes : Table String Keyframes
  specifications : Table String DecoratorSpecification
  sprites : SpriteTable
  /-- The nodes that hold properties, as of the last build. -/
  styled : NodeIndex
  /-- All nodes, as of the last build. -/
  complete : NodeIndex
  definitions : DefinitionCache
  instances : InstanceStore

inductive LoadError where
  | parse (name : String) (error : ParseError)
  | notText
  deriving DecidableEq, Inhabited

def LoadError.message : LoadError → String
  | .parse name error => "failed to parse style sheet '" ++ name ++ "': " ++ error.message
  | .notText => "failed to read style sheet: stream did not contain valid UTF-8"

namespace Sheet

/-- A sheet with nothing in it. Two sheets whose instances are compared have different owners. -/
def new (owner : Nat) (config : SheetConfig) : Sheet where
  config
  tree := .empty
  layers := 0
  keyframes := .empty
  specifications := .empty
  sprites := .empty
  styled := .empty
  complete := .empty
  definitions := .new owner
  instances := .new owner

def tables (s : Sheet) : InstanceTables := ⟨s.config.registry, s.specifications, s.sprites⟩

/-- What a declaration of a rule sets, before a selector ranks it. -/
structure Offer where
  property : Longhand
  value : DeclaredValue
  important : Bool
  order : Nat
  source : SourceLocation
  deriving DecidableEq, Inhabited

/-- The offers of declarations, counted from `order` on. A declaration that sets nothing counts but
offers nothing. -/
def offers (file : String) (order : Nat) (declarations : List Declaration) : List Offer :=
  (declarations.zipIdx order).flatMap fun (d, place) =>
    match d.settings with
    | .error _ => []
    | .ok settings => settings.map fun (property, value) =>
        { property, value, important := d.important, order := min wordLimit place,
          source := ⟨file, d.line⟩ }

def cascade (specificity : Specificity) (layer : Nat) (offers : List Offer) :
    Dictionary PropertyValue :=
  offers.foldl (fun held o =>
    held.set o.property ⟨o.value.pending, ⟨o.important, specificity, layer, o.order⟩, o.source⟩)
    .empty

def addRule (file : String) (layer order : Nat) (tree : RuleTree PropertyValue) (rule : StyleRule) :
    RuleTree PropertyValue :=
  let offered := offers file order rule.declarations
  rule.selectors.foldl (fun tree s =>
    (tree.insert s (cascade (.ofSelector s) layer offered)).2) tree

def addRules (file : String) (layer order : Nat) (tree : RuleTree PropertyValue) :
    List StyleRule → RuleTree PropertyValue
  | [] => tree
  | rule :: rest =>
    addRules file layer (order + rule.declarations.length) (addRule file layer order tree rule) rest

/-- The sheet with a source over everything loaded so far. What was built from the tables is
dropped, and the indices stay as they are until the next build. -/
def add (s : Sheet) (source : StyleSource) (file : String) : Sheet where
  config := s.config
  tree := (addRules file s.layers 0 s.tree source.styleRules).mapProperties
    (Dictionary.mapValues PropertyValue.reset)
  layers := saturatingAdd wordLimit s.layers 1
  keyframes := source.keyframesRules.foldl (fun table rule =>
    table.insert rule.name (.ofRule rule file)) s.keyframes
  specifications := source.decoratorRules.foldl (fun table rule =>
    table.insert rule.name (.ofRule rule file)) s.specifications
  sprites := source.spriteSheetRules.foldl (fun table rule => table.add rule file) s.sprites
  styled := s.styled
  complete := s.complete
  definitions := s.definitions.cleared
  instances := s.instances.cleared

/-- Loads a source text. A text that cannot be read adds nothing. -/
def load (s : Sheet) (text name : String) : Except LoadError Sheet :=
  match StyleSource.ofText text with
  | .error e => .error (.parse name e)
  | .ok source => .ok (s.add source name)

def loadBytes (s : Sheet) (bytes : ByteArray) (name : String) : Except LoadError Sheet :=
  match String.fromUTF8? bytes with
  | none => .error .notText
  | some text => s.load text name

/-- A new sheet with another one over this one: its layers come above, and its tables replace by
name. It has to be built. -/
def combine (base overlay : Sheet) (owner : Nat) : Sheet :=
  { new owner base.config with
    tree := (base.tree.merge overlay.tree base.layers).mapProperties
      (Dictionary.mapValues PropertyValue.reset)
    layers := saturatingAdd wordLimit base.layers overlay.layers
    keyframes := base.keyframes.merge overlay.keyframes
    specifications := base.specifications.merge overlay.specifications
    sprites := base.sprites.merge overlay.sprites }

def buildProperties (tables : InstanceTables) (keyframes : Table String Keyframes)
    (store : InstanceStore) (d : Dictionary PropertyValue) :
    List Longhand → Dictionary PropertyValue × InstanceStore
  | [] => (d, store)
  | p :: rest =>
    match d.get? p with
    | none => buildProperties tables keyframes store d rest
    | some property =>
      let (value, store) := property.value.build tables keyframes store
      buildProperties tables keyframes store (d.replace p (property.withValue value)) rest

def buildNodes (tables : InstanceTables) (keyframes : Table String Keyframes)
    (store : InstanceStore) :
    List (RuleNode PropertyValue) → List (RuleNode PropertyValue) × InstanceStore
  | [] => ([], store)
  | node :: rest =>
    let (properties, store) := buildProperties tables keyframes store node.properties Longhand.all
    let (more, store) := buildNodes tables keyframes store rest
    ({ node with properties } :: more, store)

/-- The sheet with new indices, every list built and no definition cached. -/
def build (s : Sheet) : Sheet :=
  let (nodes, instances) := buildNodes s.tables s.keyframes s.instances s.tree.nodes.toList
  { s with
    tree := ⟨nodes.toArray⟩
    styled := .ofTree s.tree fun node => !node.properties.isEmpty
    complete := .ofTree s.tree fun _ => true
    definitions := s.definitions.cleared
    instances }

def signature (s : Sheet) (d : Document) (e : ElementId) : Signature :=
  s.styled.applicable s.tree d e

/-- What the nodes of a signature come to, with lists still pending built. -/
def compile (s : Sheet) (signature : Signature) : Definition × InstanceStore :=
  let merged := signature.foldl (fun held n =>
    match s.tree.find? n with
    | some node => held.merge node.properties
    | none => held) .empty
  let (properties, instances) :=
    buildProperties s.tables s.keyframes s.instances merged Longhand.all
  (⟨properties⟩, instances)

/-- The definition of an element. Elements that match the same nodes share one as long as somebody
holds it. -/
def definition (s : Sheet) (held : InstanceId → Bool) (d : Document) (e : ElementId) :
    Shared Definition × Sheet :=
  let signature := s.signature d e
  match s.definitions.live? held signature with
  | some shared => (shared, s)
  | none =>
    let (compiled, instances) := s.compile signature
    let (shared, definitions) := s.definitions.add held signature compiled
    (shared, { s with definitions, instances })

/-- Whether an element matches a node that other selectors go on from, so that a change to it may
restyle other elements. -/
def affectsOthers (s : Sheet) (d : Document) (e : ElementId) : Bool :=
  (s.complete.applicable s.tree d e).any fun n => !(s.tree.children n).isEmpty

def decorator? (s : Sheet) (name : String) : Option (Shared Decorator) × Sheet :=
  match s.specifications.get? name with
  | none => (none, s)
  | some specification =>
    let (shared, instances) := s.tables.named specification name s.instances
    (shared, { s with instances })

def decorators (s : Sheet) (raw : String) : List (Shared Decorator) × Sheet :=
  let (items, instances) := s.tables.decorators raw s.instances
  (items, { s with instances })

def fontEffects (s : Sheet) (raw : String) : List (Shared FontEffect) × Sheet :=
  let (items, instances) := s.tables.fontEffects raw s.instances
  (items, { s with instances })

end Sheet
end Cascade
