import Cascade.Proofs.Rule.Locality
import Cascade.Proofs.Sheet.Combining
/-!
Looking up by keys, and which elements have to be looked up again.

Once a sheet is built, every node that holds properties is filed in one bucket of the one index, and
every node in one bucket of the other. What an index finds for an element is, in ascending order,
each of its nodes that applies to the element.
-/
namespace Cascade

namespace RuleTree
variable {V : Type} {t : RuleTree V}

def Styled (t : RuleTree V) (n : RuleNodeId) : Prop :=
  ∃ node, t.find? n = some node ∧ node.properties.isEmpty = false

def Inner (t : RuleTree V) (n : RuleNodeId) : Prop :=
  n ≠ root ∧ ∃ node, t.find? n = some node

-- The root holds nothing, so it need not be left out.
theorem styled_iff (valid : t.WellFormed) (n : RuleNodeId) :
    t.Styled n ↔ n ≠ root ∧ (t.find? n).any RuleNode.isStyled = true := by
  rw [Styled, Option.any_eq_true]
  constructor
  · rintro ⟨node, found, holds⟩
    refine ⟨?_, node, found, by simp [RuleNode.isStyled, holds]⟩
    rintro rfl
    have bare : node.properties = .empty := by simpa [held, found] using valid.bare
    simp [bare] at holds
  · rintro ⟨-, node, found, kept⟩
    exact ⟨node, found, by simpa [RuleNode.isStyled] using kept⟩

theorem inner_iff (n : RuleNodeId) :
    t.Inner n ↔ n ≠ root ∧ (t.find? n).any (fun _ => true) = true := by
  simp [Inner, Option.isSome_iff_exists]

end RuleTree

namespace Sheet
variable {s : Sheet}

theorem mem_signature (sound : s.Sound) (built : s.Built) (d : Document) (e : ElementId)
    (n : RuleNodeId) :
    n ∈ s.signature d e ↔ s.tree.Styled n ∧ s.tree.isApplicable d n e = true := by
  rw [signature, built.styled_eq, NodeIndex.mem_applicable sound.valid,
    RuleTree.styled_iff sound.valid, and_assoc]

theorem mem_complete (sound : s.Sound) (built : s.Built) (d : Document) (e : ElementId)
    (n : RuleNodeId) : n ∈ s.complete.applicable s.tree d e ↔
      s.tree.Inner n ∧ s.tree.isApplicable d n e = true := by
  rw [built.complete_eq, NodeIndex.mem_applicable sound.valid, RuleTree.inner_iff, and_assoc]

theorem styled_holds (sound : s.Sound) (built : s.Built) : s.styled.Holds s.tree.Styled := by
  rw [built.styled_eq]
  refine (NodeIndex.holds_ofTree sound.valid _).congr fun n => ?_
  exact (RuleTree.styled_iff sound.valid n).symm

theorem complete_holds (sound : s.Sound) (built : s.Built) : s.complete.Holds s.tree.Inner := by
  rw [built.complete_eq]
  exact (NodeIndex.holds_ofTree sound.valid _).congr fun n => (RuleTree.inner_iff n).symm

/-- The candidates that match an element are, in ascending order, the nodes of the tree that match
it: those with properties by the one index, all but the root by the other. -/
theorem candidates_exact {texts : List (String × String)} (assembled : s.Assembled texts)
    (lookups : List Lookup) :
    let built := s.build.askedAll lookups
    (∀ d e, (built.signature d e).Pairwise (· < ·) ∧
      ∀ n, n ∈ built.signature d e ↔
        built.tree.Styled n ∧ built.tree.isApplicable d n e = true) ∧
    (∀ d e, (built.complete.applicable built.tree d e).Pairwise (· < ·) ∧
      ∀ n, n ∈ built.complete.applicable built.tree d e ↔
        built.tree.Inner n ∧ built.tree.isApplicable d n e = true) ∧
    built.styled.Holds built.tree.Styled ∧ built.complete.Holds built.tree.Inner := by
  intro built
  obtain ⟨sound, ready, -⟩ := built_spec assembled.sound lookups
  refine ⟨fun d e => ⟨?_, mem_signature sound ready d e⟩,
    fun d e => ⟨?_, mem_complete sound ready d e⟩,
    styled_holds sound ready, complete_holds sound ready⟩
  · exact built.styled.applicable_ascending built.tree d e
  · exact built.complete.applicable_ascending built.tree d e

/-- The nodes of the menu in two layers, and those that its second item matches. -/
theorem candidates_exact_menus :
    let s := menus.build
    s.signature .nav 2 = [2, 5, 6] ∧
    (∀ d e, (s.signature d e).Pairwise (· < ·) ∧
      ∀ n, n ∈ s.signature d e ↔ s.tree.Styled n ∧ s.tree.isApplicable d n e = true) ∧
    (∀ d e, (s.complete.applicable s.tree d e).Pairwise (· < ·) ∧
      ∀ n, n ∈ s.complete.applicable s.tree d e ↔
        s.tree.Inner n ∧ s.tree.isApplicable d n e = true) ∧
    s.styled.Holds s.tree.Styled ∧ s.complete.Holds s.tree.Inner := by
  intro s
  have matched : s.signature .nav 2 = [2, 5, 6] := by
    rw [signature_build menus_assembled.sound]
    decide +kernel
  have candidates := candidates_exact menus_assembled []
  rw [askedAll_nil] at candidates
  exact ⟨matched, candidates⟩

end Sheet
end Cascade

/-! Which elements a change of a document can restyle.
The nodes that an element matches stay the same unless something changes at the element, above it or
before one of these. When the data of an element change, the sheet itself can tell whether others
are concerned at all. -/
namespace Cascade.Sheet
open PropertyValue
variable {s : Sheet} {d : Document}

theorem inner_of_isApplicable (sound : s.Sound) {n : RuleNodeId} {e : ElementId}
    (applies : s.tree.isApplicable d n e = true) : s.tree.Inner n := by
  obtain ⟨node, found, -⟩ := NodeIndex.satisfies_of_isApplicable applies
  refine ⟨?_, node, found⟩
  rintro rfl
  simp [RuleTree.isApplicable_root sound.valid] at applies

theorem affectsOthers_eq_false (sound : s.Sound) (built : s.Built) (e : ElementId) :
    s.affectsOthers d e = false ↔ s.tree.QuietAt d e := by
  simp only [affectsOthers, List.any_eq_false, mem_complete sound built, Bool.not_eq_true,
    Bool.not_eq_false', List.isEmpty_iff]
  constructor
  · intro alone n more
    by_contra applies
    rw [Bool.not_eq_false] at applies
    exact more (alone n ⟨inner_of_isApplicable sound applies, applies⟩)
  · rintro quiet n ⟨-, applies⟩
    by_contra more
    simp [quiet n more] at applies

/-- If an element affects no others, neither before its data change nor then, the others match what
they matched. -/
theorem affectsOthers_sound {texts : List (String × String)} (assembled : s.Assembled texts)
    (lookups : List Lookup) (reached : d.Reached) (e : ElementId)
    (change : ElementData → ElementData)
    (before : (s.build.askedAll lookups).affectsOthers d e = false)
    (after : (s.build.askedAll lookups).affectsOthers (d.edit e change) e = false) :
    ∀ f, f ≠ e → (s.build.askedAll lookups).signature (d.edit e change) f =
      (s.build.askedAll lookups).signature d f := by
  intro f different
  obtain ⟨sound, built, -⟩ := built_spec assembled.sound lookups
  exact NodeIndex.applicable_differAt sound.valid reached.wellformed
    (Document.Reached.edit e change reached).wellformed (d.edit_differAt e change)
    ((affectsOthers_eq_false sound built e).mp before)
    ((affectsOthers_eq_false sound built e).mp after) different _

theorem affectsOthers_build (sound : s.Sound) (d : Document) (e : ElementId) :
    s.build.affectsOthers d e =
      ((NodeIndex.ofTree s.tree fun _ => true).applicable s.tree d e).any fun n =>
        !(s.tree.children n).isEmpty := by
  obtain ⟨kept, built, alike⟩ := build_spec sound
  have skeleton := alike.skeleton
  rw [Sheet.skeleton, Sheet.skeleton] at skeleton
  have children (n : RuleNodeId) : s.build.tree.children n = s.tree.children n := by
    rw [← RuleTree.children_mapValues (f := declared), skeleton, RuleTree.children_mapValues]
  rw [affectsOthers, ← NodeIndex.applicable_mapValues kept.valid declared, skeleton,
    NodeIndex.applicable_mapValues sound.valid]
  simp only [children]
  rw [build_eq]

/-- When the pointer leaves the second item only that item is concerned. When the first item is
shut the second one matches less. -/
theorem affectsOthers_sound_menu :
    let s := ((new 0 .default).add .menu "menu.css").build
    let leave := fun data : ElementData => data.setPseudoClass "hover" false
    let shut := fun data : ElementData => data.removeClass "open"
    (s.affectsOthers .nav 1 = true ∧
      s.signature (Document.nav.edit 1 shut) 2 ≠ s.signature .nav 2) ∧
    s.affectsOthers .nav 2 = false ∧ s.affectsOthers (Document.nav.edit 2 leave) 2 = false ∧
      ∀ f, f ≠ 2 → s.signature (Document.nav.edit 2 leave) f = s.signature .nav f := by
  intro s leave shut
  have concerned : (s.affectsOthers .nav 1 = true ∧
        s.signature (Document.nav.edit 1 shut) 2 ≠ s.signature .nav 2) ∧
      s.affectsOthers .nav 2 = false ∧ s.affectsOthers (Document.nav.edit 2 leave) 2 = false := by
    simp only [s, affectsOthers_build menu_assembled.sound, signature_build menu_assembled.sound,
      menu_index]
    decide +kernel
  have sound := affectsOthers_sound menu_assembled [] Document.nav_reached 2 leave
  rw [askedAll_nil] at sound
  exact ⟨concerned.1, concerned.2.1, concerned.2.2, sound concerned.2.1 concerned.2.2⟩

theorem signature_readsAlike {other : Document} (valid : d.WellFormed) (s : Sheet) {f : ElementId}
    (alike : ∀ x, d.Around f x → d.ReadsAlike other x) : s.signature other f = s.signature d f :=
  NodeIndex.applicable_readsAlike valid _ alike

-- A change that concerns only what is not around an element is not seen there.
theorem signature_apart {other : Document} (valid : d.WellFormed) (s : Sheet) {e f : ElementId}
    (apart : ¬ d.Around f e) (alike : ∀ x, ¬ d.Around x e → d.ReadsAlike other x) :
    s.signature other f = s.signature d f :=
  s.signature_readsAlike valid fun x around => alike x fun far => apart (around.trans valid far)

/-- A new element restyles no other; one that is removed, only what follows it; one whose data
change, only itself, what is below it and what follows it. -/
theorem signature_frame (s : Sheet) (reached : d.Reached) (f : ElementId) :
    (∀ data, f ≠ (d.insert data).1 → s.signature (d.insert data).2 f = s.signature d f) ∧
    (∀ parent data e grown, d.insertChild? parent data = some (e, grown) → f ≠ e →
      s.signature grown f = s.signature d f) ∧
    (∀ e data left, d.remove? e = some (data, left) → left.contains f = true →
      ¬ d.Follows e f → s.signature left f = s.signature d f) ∧
    ∀ e change, f ≠ e → ¬ d.Ancestor e f → ¬ d.Follows e f →
      s.signature (d.edit e change) f = s.signature d f := by
  have valid := reached.wellformed
  refine ⟨?_, ?_, ?_, ?_⟩
  · intro data old
    apply s.signature_apart valid (Document.not_around_size valid old)
    intro x apart
    exact Document.insert_readsAlike data (Document.ne_of_not_around apart)
  · intro parent data e grown added old
    obtain ⟨rfl, -⟩ := Document.insertChild_links added
    apply s.signature_apart valid (Document.not_around_size valid old)
    intro x apart
    exact Document.insertChild_readsAlike valid added (Document.ne_of_not_around apart)
  · intro e data left removed survives unfollowing
    obtain ⟨element, found, after⟩ := Document.find_remove valid removed
    have stays : f ∉ d.walk e := by
      intro gone
      simp [Document.contains, after, gone] at survives
    rw [Document.mem_walk valid found, Document.below_iff valid, not_or] at stays
    apply s.signature_apart valid (Document.not_around stays.1 stays.2 unfollowing)
    intro x apart
    exact Document.remove_readsAlike valid removed apart
  · intro e change different unrelated unfollowing
    apply s.signature_apart valid (Document.not_around different unrelated unfollowing)
    intro x apart
    exact Document.edit_readsAlike change (Document.ne_of_not_around apart)

/-- The third item of a menu can change or go, and others can be added behind it, without the
second one matching anything else. Without the first item it matches less. -/
theorem signature_frame_menu :
    let s := ((new 0 .default).add .menu "menu.css").build
    (s.signature .nav 2 = [2, 5] ∧
      (Document.nav.remove? 1).map (fun removed => s.signature removed.2 2) = some [2]) ∧
    (∀ data e grown, Document.nav.insertChild? 0 data = some (e, grown) → 2 ≠ e →
      s.signature grown 2 = s.signature .nav 2) ∧
    (∀ data left, Document.nav.remove? 3 = some (data, left) → left.contains 2 = true →
      s.signature left 2 = s.signature .nav 2) ∧
    ∀ change, s.signature (Document.nav.edit 3 change) 2 = s.signature .nav 2 := by
  intro s
  have owner : Document.nav.parent? 2 = some 0 := rfl
  have top : Document.nav.parent? 0 = none := rfl
  have unrelated : ¬ Document.nav.Ancestor 3 2 := by
    rw [Document.ancestor_iff owner, not_or]
    exact ⟨by decide, Document.not_ancestor top⟩
  have unfollowing : ¬ Document.nav.Follows 3 2 := by
    rintro (before | ⟨s, ⟨p, _, _, _, known, -⟩, above⟩)
    · rw [← Document.mem_precedingSiblings Document.nav_reached.wellformed] at before
      exact absurd before (by decide)
    · rcases (Document.ancestor_iff owner).mp above with rfl | higher
      · simp [top] at known
      · exact Document.not_ancestor top higher
  have matched : s.signature .nav 2 = [2, 5] ∧
      (Document.nav.remove? 1).map (fun removed => s.signature removed.2 2) = some [2] := by
    simp only [s, signature_build menu_assembled.sound, menu_index]
    decide +kernel
  rcases s.signature_frame Document.nav_reached 2 with ⟨-, grow, shrink, change⟩
  exact ⟨matched, grow 0, fun data left removed stays =>
    shrink 3 data left removed stays unfollowing, fun f => change 3 f (by decide) unrelated
    unfollowing⟩

end Cascade.Sheet
