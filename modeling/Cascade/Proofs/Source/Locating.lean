import Cascade.Proofs.Source.Joining
/-!
Where the parts of a source were read.

A reading leaves the end of what it was given. So every selector and every declaration of a source
was read from some token of the source on.
-/
namespace Cascade

def Reading.Finds {α : Type} (read : List Token → Reading α) (ts : List Token) (a : α) : Prop :=
  ∃ us rest, us <:+ ts ∧ read us = .ok (a, rest)

theorem Reading.Finds.mono {α : Type} {read : List Token → Reading α} {ts us : List Token} {a : α}
    (found : Finds read us a) (behind : us <:+ ts) : Finds read ts a := by
  obtain ⟨vs, rest, inside, success⟩ := found
  exact ⟨vs, rest, inside.trans behind, success⟩

theorem Reading.Finds.here {α : Type} {read : List Token → Reading α} {ts rest : List Token} {a : α}
    (success : read ts = .ok (a, rest)) : Finds read ts a :=
  ⟨ts, rest, List.suffix_refl ts, success⟩

section Leaving
variable {ts rest : List Token}

theorem Reading.require_suffix {kind : Token.Kind} {needed : Needed} {t : Token}
    (read : require kind needed ts = .ok (t, rest)) : ts = t :: rest := by
  cases ts with
  | nil => simp [require] at read
  | cons u us => grind [require]

theorem ComponentValue.readFrom_suffix {outer : List (String × List ComponentValue)}
    {current values : List ComponentValue} (read : readFrom outer current ts = .ok (values, rest)) :
    rest <:+ ts := by
  fun_induction readFrom outer current ts <;>
    grind [List.suffix_refl, List.suffix_cons, List.IsSuffix.trans]

theorem Token.dropIf_suffix (kind : Token.Kind) (ts : List Token) : (dropIf kind ts).2 <:+ ts := by
  cases ts <;> grind [dropIf, List.suffix_refl, List.suffix_cons]

theorem Declaration.readEnd_suffix (ts : List Token) : (readEnd ts).2 <:+ ts :=
  (Token.dropIf_suffix _ _).trans (Token.dropIf_suffix _ _)

theorem Declaration.readValues_suffix {name : Token} {attached : Option Token} {d : Declaration}
    (read : readValues name attached ts = .ok (d, rest)) : rest <:+ ts := by
  obtain ⟨⟨values, left⟩, found, same⟩ := map_eq_ok.mp read
  obtain ⟨-, rfl⟩ := Prod.mk.inj same
  exact (readEnd_suffix left).trans (ComponentValue.readFrom_suffix found)

theorem Declaration.read_suffix {d : Declaration} (read : Declaration.read ts = .ok (d, rest)) :
    rest <:+ ts := by
  rw [Declaration.read] at read
  split at read
  case h_1 => cases read
  case h_2 name left named =>
    obtain rfl := Reading.require_suffix named
    refine List.IsSuffix.trans ?_ (List.suffix_cons name left)
    split at read
    case h_1 t left' touching =>
      cases left with
      | nil => cases touching
      | cons u us =>
          obtain rfl : us = left' := by grind [attached?]
          exact (readValues_suffix read).trans (List.suffix_cons u us)
    case h_2 =>
      split at read
      case h_1 => cases read
      case h_2 colon left' found =>
        obtain rfl := Reading.require_suffix found
        exact (readValues_suffix read).trans (List.suffix_cons colon left')

theorem Declaration.readList_finds {ds : List Declaration} (read : readList ts = .ok (ds, rest)) :
    rest <:+ ts ∧ ∀ d ∈ ds, Reading.Finds Declaration.read ts d := by
  fun_induction readList ts generalizing ds rest with
  | case1 =>
      obtain ⟨rfl, rfl⟩ := Prod.mk.inj (Except.ok.inj read)
      exact ⟨List.suffix_refl _, by simp⟩
  | case2 t others closes =>
      obtain ⟨rfl, rfl⟩ := Prod.mk.inj (Except.ok.inj read)
      exact ⟨List.suffix_refl _, by simp⟩
  | case3 t others inner separates ih =>
      obtain ⟨left, places⟩ := ih read
      have next := List.suffix_cons t others
      exact ⟨left.trans next, fun d member => (places d member).mono next⟩
  | case4 | case5 => cases read
  | case6 t others inner other d left success shorter more left' found ih =>
      obtain ⟨rfl, rfl⟩ := Prod.mk.inj (Except.ok.inj read)
      obtain ⟨behind, places⟩ := ih found
      have next := read_suffix success
      refine ⟨behind.trans next, List.forall_mem_cons.mpr ⟨.here success, fun d member => ?_⟩⟩
      exact (places d member).mono next

theorem Declaration.readBlock_finds {ds : List Declaration} (read : readBlock ts = .ok (ds, rest)) :
    rest <:+ ts ∧ ∀ d ∈ ds, Reading.Finds Declaration.read ts d := by
  obtain ⟨brace, inner, left, closing, opened, found, closed⟩ := readBlock_parts read
  obtain rfl := Reading.require_suffix opened
  obtain rfl := Reading.require_suffix closed
  obtain ⟨behind, places⟩ := readList_finds found
  have next := List.suffix_cons brace inner
  exact ⟨((List.suffix_cons closing rest).trans behind).trans next,
    fun d member => (places d member).mono next⟩

theorem SimpleSelector.qualifier?_suffix {c : SimpleSelector}
    (read : qualifier? ts = .ok (some (c, rest))) : rest <:+ ts := by
  cases ts with
  | nil => cases read
  | cons t us =>
      have next := List.suffix_cons t us
      have named {needed : Needed} {f : Token × List Token → Option (SimpleSelector × List Token)}
          (keeps : ∀ n more, f (n, more) = some (c, rest) → more = rest)
          (read : (Reading.name needed us).map f = .ok (some (c, rest))) : rest <:+ t :: us := by
        obtain ⟨⟨n, more⟩, found, same⟩ := map_eq_ok.mp read
        obtain rfl := keeps n more same
        obtain rfl := Reading.require_suffix found
        exact (List.suffix_cons n more).trans next
      rw [qualifier?] at read
      split at read
      case h_1 | h_2 => exact named (fun _ _ same => (Prod.mk.inj (Option.some.inj same)).2) read
      case h_3 | h_4 => exact (Prod.mk.inj (Option.some.inj (Except.ok.inj read))).2 ▸ next
      case h_5 => cases read

theorem SimpleSelector.readQualifiers_suffix {cs : List SimpleSelector}
    (read : readQualifiers ts = .ok (cs, rest)) : rest <:+ ts := by
  fun_induction readQualifiers ts generalizing cs rest <;>
    grind [List.suffix_refl, List.IsSuffix.trans, qualifier?_suffix]

theorem Compound.read_suffix {c : Compound} (read : Compound.read ts = .ok (c, rest)) :
    rest <:+ ts := by
  cases ts with
  | nil => cases read
  | cons t us =>
      simp only [Compound.read] at read
      split at read
      case h_1 => cases read
      case h_2 => cases read
      case h_3 c left first =>
        obtain ⟨⟨more, left'⟩, found, same⟩ := map_eq_ok.mp read
        obtain ⟨-, rfl⟩ := Prod.mk.inj same
        refine (SimpleSelector.readQualifiers_suffix found).trans ?_
        have next := List.suffix_cons t us
        split at first
        case h_1 | h_2 => exact (Prod.mk.inj (Option.some.inj (Except.ok.inj first))).2 ▸ next
        case h_3 => exact SimpleSelector.qualifier?_suffix first

theorem Combinator.read?_suffix {c : Combinator} (read : read? ts = some (c, rest)) :
    rest <:+ ts := by
  cases ts with
  | nil => cases read
  | cons t us => grind [read?, List.suffix_refl, List.suffix_cons]

theorem Selector.readRest_suffix {cs : List (Combinator × Compound)}
    (read : readRest ts = .ok (cs, rest)) : rest <:+ ts := by
  fun_induction readRest ts generalizing cs rest with
  | case1 ts nothing =>
      obtain ⟨rfl, rfl⟩ := Prod.mk.inj (Except.ok.inj read)
      exact List.suffix_refl _
  | case2 | case3 => cases read
  | case4 ts c after sign compound left success shorter smaller more left' others ih =>
      obtain ⟨rfl, rfl⟩ := Prod.mk.inj (Except.ok.inj read)
      exact ((ih others).trans (Compound.read_suffix success)).trans (Combinator.read?_suffix sign)

theorem Selector.read_suffix {s : Selector} (read : Selector.read ts = .ok (s, rest)) :
    rest <:+ ts := by
  obtain ⟨left, begun, found⟩ := read_parts read
  exact (readRest_suffix found).trans (Compound.read_suffix begun)

theorem Selector.readList_finds {ss : List Selector} (read : readList ts = .ok (ss, rest)) :
    rest <:+ ts ∧ ∀ s ∈ ss, Reading.Finds Selector.read ts s := by
  fun_induction readList ts generalizing ss rest with
  | case1 => cases read
  | case2 ts s success =>
      obtain ⟨rfl, rfl⟩ := Prod.mk.inj (Except.ok.inj read)
      exact ⟨List.nil_suffix, List.forall_mem_singleton.mpr (.here success)⟩
  | case3 => cases read
  | case4 ts s t others success comma shorter more left found ih =>
      obtain ⟨rfl, rfl⟩ := Prod.mk.inj (Except.ok.inj read)
      obtain ⟨behind, places⟩ := ih found
      have next := (List.suffix_cons t others).trans (read_suffix success)
      refine ⟨behind.trans next, List.forall_mem_cons.mpr ⟨.here success, fun s member => ?_⟩⟩
      exact (places s member).mono next
  | case5 ts s t others success last =>
      obtain ⟨rfl, rfl⟩ := Prod.mk.inj (Except.ok.inj read)
      exact ⟨read_suffix success, List.forall_mem_singleton.mpr (.here success)⟩

theorem StyleRule.read_finds {rule : StyleRule} (read : StyleRule.read ts = .ok (rule, rest)) :
    rest <:+ ts ∧ (∀ d ∈ rule.declarations, Reading.Finds Declaration.read ts d) ∧
      ∀ s ∈ rule.selectors, Reading.Finds Selector.read ts s := by
  obtain ⟨left, selected, block, -⟩ := read_parts read
  obtain ⟨next, sites⟩ := Selector.readList_finds selected
  obtain ⟨behind, places⟩ := Declaration.readBlock_finds block
  exact ⟨behind.trans next, fun d member => (places d member).mono next, sites⟩

theorem KeyframeRule.readTimes_suffix {times : List Binary32}
    (read : readTimes ts = .ok (times, rest)) : rest <:+ ts := by
  fun_induction readTimes ts generalizing times rest <;>
    grind [List.suffix_cons, List.IsSuffix.trans]

theorem KeyframeRule.readList_finds {blocks : List KeyframeRule}
    (read : readList ts = .ok (blocks, rest)) :
    rest <:+ ts ∧ ∀ b ∈ blocks, ∀ d ∈ b.declarations, Reading.Finds Declaration.read ts d := by
  fun_induction readList ts generalizing blocks rest with
  | case1 => cases read
  | case2 t others closes =>
      obtain ⟨rfl, rfl⟩ := Prod.mk.inj (Except.ok.inj read)
      exact ⟨List.suffix_refl _, by simp⟩
  | case3 | case4 | case5 => cases read
  | case6 t others inner times left timed ds left' block shorter smaller more left'' found ih =>
      obtain ⟨rfl, rfl⟩ := Prod.mk.inj (Except.ok.inj read)
      obtain ⟨behind, places⟩ := ih found
      obtain ⟨after, sites⟩ := Declaration.readBlock_finds block
      have next := readTimes_suffix timed
      refine ⟨(behind.trans after).trans next, List.forall_mem_cons.mpr ⟨?_, ?_⟩⟩
      · exact fun d member => (sites d member).mono next
      · exact fun b inside d member => (places b inside d member).mono (after.trans next)

theorem KeyframesRule.read_finds {line : Nat} {rule : KeyframesRule}
    (read : KeyframesRule.read line ts = .ok (rule, rest)) :
    rest <:+ ts ∧
      ∀ b ∈ rule.blocks, ∀ d ∈ b.declarations, Reading.Finds Declaration.read ts d := by
  obtain ⟨name, opening, brace, inner, left, closing, named, opened, found, closed, -, -⟩ :=
    read_parts read
  obtain rfl := Reading.require_suffix named
  obtain rfl := Reading.require_suffix opened
  obtain rfl := Reading.require_suffix closed
  obtain ⟨behind, places⟩ := KeyframeRule.readList_finds found
  have next := (List.suffix_cons brace inner).trans (List.suffix_cons name _)
  exact ⟨((List.suffix_cons closing rest).trans behind).trans next,
    fun b inside d member => (places b inside d member).mono next⟩

theorem DecoratorRule.readType_suffix {type : String} (read : readType ts = .ok (type, rest)) :
    rest <:+ ts := by
  cases ts with
  | nil => cases read
  | cons t us =>
      rw [readType] at read
      split at read
      case isTrue => exact (Prod.mk.inj (Except.ok.inj read)).2 ▸ List.suffix_cons t us
      case isFalse =>
        split at read
        case h_1 => cases read
        case h_2 colon left found =>
          obtain ⟨⟨n, after⟩, named, same⟩ := map_eq_ok.mp read
          obtain ⟨-, rfl⟩ := Prod.mk.inj same
          obtain rfl := Reading.require_suffix named
          obtain ⟨rfl, rfl⟩ := List.cons.inj (Reading.require_suffix found)
          exact (List.suffix_cons n after).trans (List.suffix_cons t _)

theorem DecoratorRule.read_finds {line : Nat} {rule : DecoratorRule}
    (read : DecoratorRule.read line ts = .ok (rule, rest)) :
    rest <:+ ts ∧ ∀ d ∈ rule.declarations, Reading.Finds Declaration.read ts d := by
  obtain ⟨name, typing, left, named, typed, block, -, -⟩ := read_parts read
  obtain rfl := Reading.require_suffix named
  obtain ⟨behind, places⟩ := Declaration.readBlock_finds block
  have next := (readType_suffix typed).trans (List.suffix_cons name typing)
  exact ⟨behind.trans next, fun d member => (places d member).mono next⟩

theorem SpriteSheetRule.read_finds {line : Nat} {rule : SpriteSheetRule}
    (read : SpriteSheetRule.read line ts = .ok (rule, rest)) :
    rest <:+ ts ∧ ∀ d ∈ rule.declarations, Reading.Finds Declaration.read ts d := by
  obtain ⟨name, left, named, block, -, -⟩ := read_parts read
  obtain rfl := Reading.require_suffix named
  obtain ⟨behind, places⟩ := Declaration.readBlock_finds block
  have next := List.suffix_cons name left
  exact ⟨behind.trans next, fun d member => (places d member).mono next⟩

theorem Statement.skip_suffix {depth : Nat} (read : skip depth ts = .ok rest) : rest <:+ ts := by
  fun_induction skip depth ts generalizing rest <;>
    grind [List.suffix_cons, List.IsSuffix.trans]

def Statement.declarations : Statement → List Declaration
  | .style rule => rule.declarations
  | .keyframes rule => rule.blocks.flatMap KeyframeRule.declarations
  | .decorator rule => rule.declarations
  | .spriteSheet rule => rule.declarations

def Statement.selectors : Statement → List Selector
  | .style rule => rule.selectors
  | _ => []

/-- Everything in a statement was read from the tokens it was read from. -/
theorem Statement.read_finds {s : Option Statement} (read : Statement.read ts = .ok (s, rest)) :
    rest <:+ ts ∧ ∀ st ∈ s, (∀ d ∈ st.declarations, Reading.Finds Declaration.read ts d) ∧
      ∀ selector ∈ st.selectors, Reading.Finds Selector.read ts selector := by
  cases begins_of_read read with
  | style found =>
      obtain ⟨behind, places⟩ := StyleRule.read_finds found
      refine ⟨behind, fun st member => ?_⟩
      obtain rfl := Option.some.inj member
      exact places
  | @keyframes t us _ rule found =>
      obtain ⟨behind, places⟩ := KeyframesRule.read_finds found
      have next := List.suffix_cons t us
      refine ⟨behind.trans next, fun st member => ?_⟩
      obtain rfl := Option.some.inj member
      refine ⟨fun d inside => ?_, by simp [selectors]⟩
      obtain ⟨b, block, among⟩ := List.mem_flatMap.mp inside
      exact (places b block d among).mono next
  | @decorator t us _ rule found =>
      obtain ⟨behind, places⟩ := DecoratorRule.read_finds found
      have next := List.suffix_cons t us
      refine ⟨behind.trans next, fun st member => ?_⟩
      obtain rfl := Option.some.inj member
      exact ⟨fun d inside => (places d inside).mono next, by simp [selectors]⟩
  | @spriteSheet t us _ rule found =>
      obtain ⟨behind, places⟩ := SpriteSheetRule.read_finds found
      have next := List.suffix_cons t us
      refine ⟨behind.trans next, fun st member => ?_⟩
      obtain rfl := Option.some.inj member
      exact ⟨fun d inside => (places d inside).mono next, by simp [selectors]⟩
  | @skipped t us _ found =>
      exact ⟨(skip_suffix found).trans (List.suffix_cons t us), by simp⟩

/-- Every declaration and every selector of a source was read from some token on. -/
theorem StyleSource.readStatements_finds {statements : List Statement}
    (read : readStatements ts = .ok statements) :
    ∀ st ∈ statements, (∀ d ∈ st.declarations, Reading.Finds Declaration.read ts d) ∧
      ∀ selector ∈ st.selectors, Reading.Finds Selector.read ts selector := by
  fun_induction readStatements ts generalizing statements with
  | case1 =>
      obtain rfl := Except.ok.inj read
      simp
  | case2 | case3 => cases read
  | case4 t others s left success shorter more found ih =>
      obtain rfl := Except.ok.inj read
      obtain ⟨behind, places⟩ := Statement.read_finds success
      intro st member
      rcases List.mem_append.mp member with here | later
      · exact places st (Option.mem_toList.mp here)
      · obtain ⟨sites, spots⟩ := ih found st later
        exact ⟨fun d inside => (sites d inside).mono behind,
          fun selector inside => (spots selector inside).mono behind⟩

end Leaving
end Cascade
