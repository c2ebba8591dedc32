import Cascade.Proofs.Rule.Growing
import Cascade.Proofs.Sheet.Combining
import Cascade.Proofs.Source.Forming
/-!
No selector is inserted at the root.

An insertion asserts that the selector led away from the root. A path of qualifiers leads to one
node only and the empty one leads to the root, so the assertion holds in every tree that is well
formed, and no load of a source fails at it.
-/
namespace Cascade

namespace RuleTree
variable {V : Type} {t : RuleTree V}

theorem insert_ne_root (valid : t.WellFormed) (s : Selector) (properties : Dictionary V) :
    (t.insert s properties).1 ≠ root := by
  intro top
  have here := at_insert valid s properties
  rw [top] at here
  exact pathOf_ne_nil s (at_inj (insert_spec valid s properties).1 here (at_nil _))

/-- An insertion that fails at the root. -/
def insert? (t : RuleTree V) (s : Selector) (properties : Dictionary V) : Option (RuleTree V) :=
  if (t.insert s properties).1 = root then none else some (t.insert s properties).2

theorem insert?_eq (valid : t.WellFormed) (s : Selector) (properties : Dictionary V) :
    t.insert? s properties = some (t.insert s properties).2 :=
  if_neg (insert_ne_root valid s properties)

end RuleTree

namespace Sheet
variable {t : RuleTree PropertyValue}

def addRule? (file : String) (layer order : Nat) (t : RuleTree PropertyValue) (rule : StyleRule) :
    Option (RuleTree PropertyValue) :=
  let offered := offers file order rule.declarations
  rule.selectors.foldlM (fun t s => t.insert? s (cascade (.ofSelector s) layer offered)) t

def addRules? (file : String) (layer order : Nat) (t : RuleTree PropertyValue) :
    List StyleRule → Option (RuleTree PropertyValue)
  | [] => some t
  | rule :: rest => do
    let t ← addRule? file layer order t rule
    addRules? file layer (order + rule.declarations.length) t rest

theorem addRule?_eq (file : String) (layer order : Nat) (valid : t.WellFormed) (rule : StyleRule) :
    addRule? file layer order t rule = some (addRule file layer order t rule) := by
  rw [addRule?, addRule]
  induction rule.selectors generalizing t with
  | nil => rfl
  | cons s rest ih =>
      rw [List.foldlM_cons, RuleTree.insert?_eq valid, List.foldl_cons]
      exact ih (RuleTree.insert_spec valid s _).1

theorem addRules?_eq (file : String) (layer order : Nat) (valid : t.WellFormed)
    (rules : List StyleRule) :
    addRules? file layer order t rules = some (addRules file layer order t rules) := by
  induction rules generalizing t order with
  | nil => rfl
  | cons rule rest ih =>
      rw [addRules?, addRule?_eq file layer order valid, addRules]
      exact ih _ (addRule_wellformed file layer order valid rule)

/-- A source that was read is well formed, and whatever sheet it is loaded over, none of its
selectors is inserted at the root. -/
theorem ofText_formed {text : String} {source : StyleSource}
    (read : StyleSource.ofText text = .ok source) : source.Formed text ∧
      ∀ (s : Sheet) (texts : List (String × String)), s.Assembled texts → ∀ name,
        s.load text name = .ok (s.add source name) ∧
        addRules? name s.layers 0 s.tree source.styleRules =
          some (addRules name s.layers 0 s.tree source.styleRules) := by
  refine ⟨StyleSource.formed_of_ofText read, fun s texts assembled name => ⟨?_, ?_⟩⟩
  · exact load_eq_ok.mpr ⟨source, read, rfl⟩
  · exact addRules?_eq name s.layers 0 assembled.sound.valid source.styleRules

/-- The menu over a sheet with nothing in it. -/
theorem ofText_formed_menu : StyleSource.menu.Formed StyleSource.menuText ∧
    addRules? "menu.css" 0 0 .empty StyleSource.menu.styleRules =
      some (addRules "menu.css" 0 0 .empty StyleSource.menu.styleRules) := by
  obtain ⟨formed, loads⟩ := ofText_formed StyleSource.ofText_menu
  exact ⟨formed, (loads (new 0 .default) [] (.new 0 .default) "menu.css").2⟩

end Sheet
end Cascade
