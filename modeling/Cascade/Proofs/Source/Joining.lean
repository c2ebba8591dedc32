import Cascade.Proofs.Source.Moving
/-!
Reading two texts as one.

What is read is read to the same end whatever follows, provided that something is left over or that
the last token read ends it; statements all end with a token of their own. Nor does it matter what
was dropped before the first token. So a text whose comments and quotes are closed gives its
statements, and a text that begins on the next line gives its own after them.
-/
namespace Cascade

section Joining
variable {ts rest : List Token} (more : List Token)

theorem Reading.require_append {kind : Token.Kind} {needed : Needed} {t : Token}
    (success : require kind needed ts = .ok (t, rest)) :
    require kind needed (ts ++ more) = .ok (t, rest ++ more) := by
  cases ts with
  | nil => simp [require] at success
  | cons u us => grind [require]

theorem Reading.expect_append {kind : Token.Kind} {t : Token}
    (success : expect kind ts = .ok (t, rest)) :
    expect kind (ts ++ more) = .ok (t, rest ++ more) := require_append more success

theorem Reading.name_append {needed : Needed} {t : Token}
    (success : name needed ts = .ok (t, rest)) :
    name needed (ts ++ more) = .ok (t, rest ++ more) := require_append more success

theorem ComponentValue.readFrom_append {outer : List (String × List ComponentValue)}
    {current values : List ComponentValue}
    (success : readFrom outer current ts = .ok (values, rest)) (left : rest ≠ []) :
    readFrom outer current (ts ++ more) = .ok (values, rest ++ more) := by
  fun_induction readFrom outer current ts
  case case3 t others ends closed =>
    obtain ⟨rfl, rfl⟩ := Prod.mk.inj (Except.ok.inj success)
    simp [readFrom, ends, closed]
  all_goals simp_all [readFrom]

-- Values that leave tokens end at one of them.
theorem ComponentValue.takeWhile_append {outer : List (String × List ComponentValue)}
    {current values : List ComponentValue}
    (success : readFrom outer current ts = .ok (values, rest)) (left : rest ≠ []) :
    (ts ++ more).takeWhile (fun t : Token => !endsBefore t.kind) =
      ts.takeWhile fun t => !endsBefore t.kind := by
  fun_induction readFrom outer current ts
  case case3 t others ends closed => simp [ends]
  all_goals simp_all

theorem Token.dropIf_append (kind : Token.Kind) (some : ts ≠ []) :
    dropIf kind (ts ++ more) = ((dropIf kind ts).1, (dropIf kind ts).2 ++ more) := by
  cases ts with
  | nil => contradiction
  | cons t rest => by_cases same : t.kind = kind <;> simp [dropIf, same]

theorem Declaration.readEnd_append (left : (readEnd ts).2 ≠ []) :
    readEnd (ts ++ more) = ((readEnd ts).1, (readEnd ts).2 ++ more) := by
  have first : ts ≠ [] := by
    rintro rfl
    exact left rfl
  have second : (Token.dropIf .important ts).2 ≠ [] := by
    intro none
    rw [readEnd, none] at left
    exact left rfl
  simp only [readEnd, Token.dropIf_append more _ first, Token.dropIf_append more _ second]

theorem Declaration.readValues_append {name : Token} {attached : Option Token} {d : Declaration}
    (success : readValues name attached ts = .ok (d, rest)) (left : rest ≠ []) :
    readValues name attached (ts ++ more) = .ok (d, rest ++ more) := by
  simp only [readValues, ComponentValue.readAll] at success ⊢
  cases values : ComponentValue.readFrom [] [] ts with
  | error e => simp [values, Except.map] at success
  | ok result =>
      simp only [values, Except.map, Except.ok.injEq, Prod.mk.injEq] at success
      have after : result.2 ≠ [] := by
        intro none
        rw [none] at success
        exact left success.2.symm
      rw [ComponentValue.readFrom_append more values after]
      simp only [Except.map, ComponentValue.takeWhile_append more values after]
      rw [readEnd_append more (by rwa [success.2]), success.2]
      rw [← success.1]

theorem Declaration.attached_append (some : ts ≠ []) :
    attached? (ts ++ more) = (attached? ts).map fun (t, rest) => (t, rest ++ more) := by
  cases ts with
  | nil => contradiction
  | cons t rest =>
      by_cases touching : t.kind = .pseudoClass ∧ t.touches = true <;> simp [attached?, touching]

theorem Declaration.read_append {d : Declaration} (success : Declaration.read ts = .ok (d, rest))
    (left : rest ≠ []) : Declaration.read (ts ++ more) = .ok (d, rest ++ more) := by
  rw [Declaration.read] at success
  split at success
  case h_1 => cases success
  case h_2 name after named =>
    have some : after ≠ [] := by
      rintro rfl
      simp [attached?, Reading.expect, Reading.require] at success
    simp only [Declaration.read, Reading.name_append more named, attached_append more some]
    split at success
    case h_1 touching attached =>
      rw [attached]
      exact readValues_append more success left
    case h_2 apart =>
      rw [apart]
      split at success
      case h_1 => cases success
      case h_2 colon inner found =>
        simp only [Option.map_none, Reading.expect_append more found]
        exact readValues_append more success left

theorem Declaration.readList_append {ds : List Declaration} (success : readList ts = .ok (ds, rest))
    (left : rest ≠ []) : readList (ts ++ more) = .ok (ds, rest ++ more) := by
  fun_induction readList ts generalizing ds rest with
  | case1 => simp_all
  | case2 t others closes =>
      obtain ⟨rfl, rfl⟩ := Prod.mk.inj (Except.ok.inj success)
      simp [readList_cons, closes]
  | case3 t others inner separates ih => simp [readList_cons, separates, ih success left]
  | case4 t others inner other e failed => cases success
  | case5 t others inner other d after first shorter e failed ih => cases success
  | case6 t others inner other d after first shorter further after' second ih =>
      obtain ⟨rfl, rfl⟩ := Prod.mk.inj (Except.ok.inj success)
      have some : after ≠ [] := by
        rintro rfl
        simp_all [readList]
      have front := Declaration.read_append more first some
      rw [List.cons_append] at front
      simp [readList_cons, inner, other, front, ih second left]

theorem Declaration.readBlock_append {ds : List Declaration}
    (success : readBlock ts = .ok (ds, rest)) :
    readBlock (ts ++ more) = .ok (ds, rest ++ more) := by
  obtain ⟨brace, inner, left, closing, opened, body, closed⟩ := readBlock_parts success
  have some : left ≠ [] := by
    rintro rfl
    cases closed
  simp only [readBlock, Reading.expect_append more opened, readList_append more body some,
    Reading.expect_append more closed, Except.map]

theorem SimpleSelector.qualifier_append (some : ts ≠ [])
    {found : Option (SimpleSelector × List Token)} (success : qualifier? ts = .ok found) :
    qualifier? (ts ++ more) = .ok (found.map fun (c, rest) => (c, rest ++ more)) := by
  cases ts with
  | nil => contradiction
  | cons t others =>
      simp only [List.cons_append, qualifier?] at success ⊢
      split
      case h_1 kind =>
        simp only [kind] at success
        obtain ⟨⟨name, after⟩, read, rfl⟩ := map_eq_ok.mp success
        rw [Reading.name_append more read]
        rfl
      case h_2 kind =>
        simp only [kind] at success
        obtain ⟨⟨name, after⟩, read, rfl⟩ := map_eq_ok.mp success
        rw [Reading.name_append more read]
        rfl
      case h_3 kind =>
        simp only [kind] at success
        rw [← Except.ok.inj success]
        rfl
      case h_4 kind =>
        simp only [kind] at success
        rw [← Except.ok.inj success]
        rfl
      case h_5 =>
        simp_all
        rw [← success]
        rfl

theorem Compound.readQualifiers_append {cs : List SimpleSelector}
    (success : SimpleSelector.readQualifiers ts = .ok (cs, rest)) (left : rest ≠ []) :
    SimpleSelector.readQualifiers (ts ++ more) = .ok (cs, rest ++ more) := by
  fun_induction SimpleSelector.readQualifiers ts generalizing cs rest with
  | case1 => simp_all
  | case2 t others touching e failed => cases success
  | case3 t others touching nothing =>
      obtain ⟨rfl, rfl⟩ := Prod.mk.inj (Except.ok.inj success)
      have front := SimpleSelector.qualifier_append more left nothing
      rw [List.cons_append] at front
      simp [SimpleSelector.readQualifiers_cons, touching, front]
  | case4 t others touching c after first shorter e failed ih => cases success
  | case5 t others touching c after first shorter further after' second ih =>
      obtain ⟨rfl, rfl⟩ := Prod.mk.inj (Except.ok.inj success)
      have front := SimpleSelector.qualifier_append more (List.cons_ne_nil t others) first
      rw [List.cons_append] at front
      simp [SimpleSelector.readQualifiers_cons, touching, front, ih second left]
  | case6 t others apart =>
      obtain ⟨rfl, rfl⟩ := Prod.mk.inj (Except.ok.inj success)
      simp [SimpleSelector.readQualifiers_cons, apart]

theorem Compound.read_append {c : Compound} (success : Compound.read ts = .ok (c, rest))
    (left : rest ≠ []) : Compound.read (ts ++ more) = .ok (c, rest ++ more) := by
  cases ts with
  | nil => cases success
  | cons t others =>
      cases kind : t.kind
      case ident =>
        simp only [Compound.read, kind] at success
        obtain ⟨⟨further, after⟩, read, same⟩ := map_eq_ok.mp success
        obtain ⟨rfl, rfl⟩ := Prod.mk.inj same
        simp [Compound.read, kind, readQualifiers_append more read left, Except.map]
      case star =>
        simp only [Compound.read, kind] at success
        obtain ⟨⟨further, after⟩, read, same⟩ := map_eq_ok.mp success
        obtain ⟨rfl, rfl⟩ := Prod.mk.inj same
        simp [Compound.read, kind, readQualifiers_append more read left, Except.map]
      all_goals
        simp only [Compound.read, kind] at success
        split at success
        case h_1 => cases success
        case h_2 => cases success
        case h_3 first after found =>
          obtain ⟨⟨further, after'⟩, read, same⟩ := map_eq_ok.mp success
          obtain ⟨rfl, rfl⟩ := Prod.mk.inj same
          have front := SimpleSelector.qualifier_append more (List.cons_ne_nil t others) found
          rw [List.cons_append] at front
          simp [Compound.read, kind, front, readQualifiers_append more read left, Except.map]

theorem Combinator.read_append (some : ts ≠ []) :
    read? (ts ++ more) = (read? ts).map fun (c, rest) => (c, rest ++ more) := by
  cases ts with
  | nil => contradiction
  | cons t others =>
      simp only [List.cons_append, read?]
      cases t.kind <;> rfl

theorem Selector.readRest_append {cs : List (Combinator × Compound)}
    (success : readRest ts = .ok (cs, rest)) (left : rest ≠ []) :
    readRest (ts ++ more) = .ok (cs, rest ++ more) := by
  fun_induction readRest ts generalizing cs rest with
  | case1 ts nothing =>
      obtain ⟨rfl, rfl⟩ := Prod.mk.inj (Except.ok.inj success)
      have sign := Combinator.read_append more left
      simp [readRest_eq (ts ++ more), sign, nothing]
  | case2 ts c after found e failed => cases success
  | case3 ts c after found compound after' first shorter smaller e failed ih => cases success
  | case4 ts c after found compound after' first shorter smaller further last second ih =>
      obtain ⟨rfl, rfl⟩ := Prod.mk.inj (Except.ok.inj success)
      have some : ts ≠ [] := by
        rintro rfl
        cases found
      have inner : after' ≠ [] := by
        rintro rfl
        simp_all [readRest_eq [], Combinator.read?]
      have sign := Combinator.read_append more some
      have front := Compound.read_append more first inner
      simp [readRest_eq (ts ++ more), sign, found, front, ih second left]

theorem Selector.read_append {s : Selector} (success : Selector.read ts = .ok (s, rest))
    (left : rest ≠ []) : Selector.read (ts ++ more) = .ok (s, rest ++ more) := by
  obtain ⟨after, first, others⟩ := read_parts success
  have some : after ≠ [] := by
    rintro rfl
    simp_all [readRest_eq [], Combinator.read?]
  simp only [Selector.read, Compound.read_append more first some,
    readRest_append more others left, Except.map]

theorem Selector.readList_append {ss : List Selector} (success : readList ts = .ok (ss, rest))
    (left : rest ≠ []) : readList (ts ++ more) = .ok (ss, rest ++ more) := by
  fun_induction readList ts generalizing ss rest with
  | case1 ts e failed => cases success
  | case2 ts selector last => simp_all
  | case3 ts selector t others first comma shorter e failed ih => cases success
  | case4 ts selector t others first comma shorter further after second ih =>
      obtain ⟨rfl, rfl⟩ := Prod.mk.inj (Except.ok.inj success)
      have front := Selector.read_append more first (List.cons_ne_nil t others)
      simp [readList_eq (ts ++ more), front, comma, ih second left]
  | case5 ts selector t others first other =>
      obtain ⟨rfl, rfl⟩ := Prod.mk.inj (Except.ok.inj success)
      have front := Selector.read_append more first left
      simp [readList_eq (ts ++ more), front, other]

/-! At-rules and statements. All of them end with a token of their own. -/

theorem Declaration.ne_nil_of_readBlock {ds : List Declaration}
    (success : readBlock ts = .ok (ds, rest)) : ts ≠ [] := by
  rintro rfl
  cases success

theorem StyleRule.read_append {rule : StyleRule} (success : StyleRule.read ts = .ok (rule, rest)) :
    StyleRule.read (ts ++ more) = .ok (rule, rest ++ more) := by
  obtain ⟨selectors, declarations, line⟩ := rule
  obtain ⟨left, selected, block, rfl⟩ := read_parts success
  have same : (ts ++ more).head?.map Token.line = ts.head?.map Token.line := by
    cases ts with
    | nil => simp [Selector.readList_eq, Selector.read, Compound.read] at selected
    | cons t others => rfl
  have some := Declaration.ne_nil_of_readBlock block
  simp only [StyleRule.read, Selector.readList_append more selected some,
    Declaration.readBlock_append more block, Except.map, same]

theorem KeyframeRule.readTimes_append {times : List Binary32}
    (success : readTimes ts = .ok (times, rest)) (left : rest ≠ []) :
    readTimes (ts ++ more) = .ok (times, rest ++ more) := by
  fun_induction readTimes ts generalizing times rest with
  | case1 => cases success
  | case2 t others unknown => cases success
  | case3 t time known => simp_all
  | case4 t time known comma others separates e failed ih => cases success
  | case5 t time known comma others separates further after second ih =>
      obtain ⟨rfl, rfl⟩ := Prod.mk.inj (Except.ok.inj success)
      simp [readTimes, known, separates, ih second left]
  | case6 t time known comma others other =>
      obtain ⟨rfl, rfl⟩ := Prod.mk.inj (Except.ok.inj success)
      simp [readTimes, known, other]

theorem KeyframeRule.readList_append {blocks : List KeyframeRule}
    (success : readList ts = .ok (blocks, rest)) :
    readList (ts ++ more) = .ok (blocks, rest ++ more) := by
  fun_induction readList ts generalizing blocks rest with
  | case1 => cases success
  | case2 t others closes =>
      obtain ⟨rfl, rfl⟩ := Prod.mk.inj (Except.ok.inj success)
      simp [readList_cons, closes]
  | case3 t others inner e failed => cases success
  | case4 t others inner times after first e failed => cases success
  | case5 t others inner times after first declarations after' body shorter smaller e failed ih =>
      cases success
  | case6 t others inner times after first declarations after' body shorter smaller further last
      second ih =>
      obtain ⟨rfl, rfl⟩ := Prod.mk.inj (Except.ok.inj success)
      have front := readTimes_append more first (Declaration.ne_nil_of_readBlock body)
      rw [List.cons_append] at front
      simp [readList_cons, inner, front, Declaration.readBlock_append more body, ih second]

theorem KeyframesRule.read_append {line : Nat} {rule : KeyframesRule}
    (success : KeyframesRule.read line ts = .ok (rule, rest)) :
    KeyframesRule.read line (ts ++ more) = .ok (rule, rest ++ more) := by
  obtain ⟨name, blocks, line⟩ := rule
  obtain ⟨_, _, _, _, _, _, named, opened, body, closed, rfl, rfl⟩ := read_parts success
  simp only [KeyframesRule.read, Reading.name_append more named,
    Reading.expect_append more opened, KeyframeRule.readList_append more body,
    Reading.expect_append more closed, Except.map]

theorem DecoratorRule.readType_append {type : String} (success : readType ts = .ok (type, rest)) :
    readType (ts ++ more) = .ok (type, rest ++ more) := by
  cases ts with
  | nil => cases success
  | cons t others =>
      rw [readType] at success
      by_cases touching : t.kind = .pseudoClass
      · rw [if_pos touching] at success
        obtain ⟨rfl, rfl⟩ := Prod.mk.inj (Except.ok.inj success)
        simp [readType, touching]
      · rw [if_neg touching] at success
        split at success
        case h_1 => cases success
        case h_2 colon after found =>
          obtain ⟨⟨name, final⟩, named, same⟩ := map_eq_ok.mp success
          obtain ⟨rfl, rfl⟩ := Prod.mk.inj same
          have front := Reading.expect_append more found
          rw [List.cons_append] at front
          simp [readType, touching, front, Reading.name_append more named, Except.map]

theorem DecoratorRule.read_append {line : Nat} {rule : DecoratorRule}
    (success : DecoratorRule.read line ts = .ok (rule, rest)) :
    DecoratorRule.read line (ts ++ more) = .ok (rule, rest ++ more) := by
  obtain ⟨name, type, declarations, line⟩ := rule
  obtain ⟨_, _, _, named, typed, block, rfl, rfl⟩ := read_parts success
  simp only [DecoratorRule.read, Reading.name_append more named, readType_append more typed,
    Declaration.readBlock_append more block, Except.map]

theorem SpriteSheetRule.read_append {line : Nat} {rule : SpriteSheetRule}
    (success : SpriteSheetRule.read line ts = .ok (rule, rest)) :
    SpriteSheetRule.read line (ts ++ more) = .ok (rule, rest ++ more) := by
  obtain ⟨name, declarations, line⟩ := rule
  obtain ⟨_, _, named, block, rfl, rfl⟩ := read_parts success
  simp only [SpriteSheetRule.read, Reading.name_append more named,
    Declaration.readBlock_append more block, Except.map]

theorem Statement.skip_append {depth : Nat} (success : skip depth ts = .ok rest) :
    skip depth (ts ++ more) = .ok (rest ++ more) := by
  fun_induction skip depth ts
  case case6 depth t others closes deep ih => simp [skip, closes, deep, ih success]
  all_goals simp_all [skip]

theorem Statement.readAtRule_append {t : Token} {s : Option Statement}
    (success : readAtRule t ts = .ok (s, rest)) :
    readAtRule t (ts ++ more) = .ok (s, rest ++ more) := by
  unfold readAtRule at success ⊢
  split at success
  case h_1 =>
    obtain ⟨⟨rule, after⟩, read, same⟩ := map_eq_ok.mp success
    obtain ⟨rfl, rfl⟩ := Prod.mk.inj same
    simp only [KeyframesRule.read_append more read, Except.map]
  case h_2 =>
    obtain ⟨⟨rule, after⟩, read, same⟩ := map_eq_ok.mp success
    obtain ⟨rfl, rfl⟩ := Prod.mk.inj same
    simp only [DecoratorRule.read_append more read, Except.map]
  case h_3 =>
    obtain ⟨⟨rule, after⟩, read, same⟩ := map_eq_ok.mp success
    obtain ⟨rfl, rfl⟩ := Prod.mk.inj same
    simp only [SpriteSheetRule.read_append more read, Except.map]
  case h_4 =>
    obtain ⟨after, read, same⟩ := map_eq_ok.mp success
    obtain ⟨rfl, rfl⟩ := Prod.mk.inj same
    simp only [skip_append more read, Except.map]

theorem Statement.read_append {s : Option Statement} (success : Statement.read ts = .ok (s, rest)) :
    Statement.read (ts ++ more) = .ok (s, rest ++ more) := by
  cases ts with
  | nil => cases success
  | cons t others =>
      rw [Statement.read] at success
      by_cases keyword : t.kind = .atKeyword
      · rw [if_pos keyword] at success
        simp [Statement.read, keyword, readAtRule_append more success]
      · rw [if_neg keyword] at success
        obtain ⟨⟨rule, after⟩, read, same⟩ := map_eq_ok.mp success
        obtain ⟨rfl, rfl⟩ := Prod.mk.inj same
        have front := StyleRule.read_append more read
        rw [List.cons_append] at front
        simp [Statement.read, keyword, front, Except.map]

/-- Statements are read to their ends, whatever follows them. -/
theorem StyleSource.readStatements_append {statements : List Statement}
    (success : readStatements ts = .ok statements) :
    readStatements (ts ++ more) = (readStatements more).map (statements ++ ·) := by
  fun_induction readStatements ts generalizing statements with
  | case1 =>
      obtain rfl := Except.ok.inj success
      rw [List.nil_append]
      cases readStatements more <;> rfl
  | case2 t others e failed => cases success
  | case3 t others s after first shorter e failed ih => cases success
  | case4 t others s after first shorter further second ih =>
      obtain rfl := Except.ok.inj success
      have front := Statement.read_append more first
      rw [List.cons_append] at front
      simp only [List.cons_append, readStatements_cons, front, ih second]
      cases readStatements more <;> simp [Except.map]

end Joining

/-! What was dropped before the first token is not read. -/

def ParseError.gapless : ParseError → ParseError
  | .unexpected found needed => .unexpected { found with gap := [] } needed
  | .ended needed => .ended needed

/-- The same result, or the same error but for what was dropped before its token. -/
inductive Reading.Alike {α : Type} : Except ParseError α → Except ParseError α → Prop where
  | ok (value : α) : Alike (.ok value) (.ok value)
  | error {e e' : ParseError} : e.gapless = e'.gapless → Alike (.error e) (.error e')

-- Of an error only what was dropped before its token can differ.
theorem ParseError.gapless_unexpected {e : ParseError} {t : Token} {needed : Needed}
    (same : e.gapless = (unexpected t needed).gapless) :
    ∃ gap, e = .unexpected { t with gap } needed := by
  cases e with
  | unexpected found other =>
      rcases found with ⟨kind, text, gap, position, line⟩
      simp only [gapless, unexpected.injEq, Token.mk.injEq, true_and] at same
      obtain ⟨⟨rfl, rfl, rfl, rfl⟩, rfl⟩ := same
      exact ⟨gap, rfl⟩
  | ended other => simp [gapless] at same

theorem ParseError.gapless_ended {e : ParseError} {needed : Needed}
    (same : e.gapless = (ended needed).gapless) : e = .ended needed := by
  cases e with
  | unexpected found other => simp [gapless] at same
  | ended other => simpa [gapless] using same

theorem Reading.Alike.refl {α : Type} (r : Except ParseError α) : Alike r r := by
  cases r with
  | error e => exact .error rfl
  | ok value => exact .ok value

section Spacing
variable (gap : List Char) (ts : List Token)

theorem Compound.read_spaced :
    Reading.Alike (Compound.read (Token.spaced gap ts)) (Compound.read ts) := by
  cases ts with
  | nil => exact .refl _
  | cons t rest =>
      rcases t with ⟨kind, text, before, position, line⟩
      have qualified :
          SimpleSelector.qualifier? (⟨kind, text, gap ++ before, position, line⟩ :: rest) =
            SimpleSelector.qualifier? (⟨kind, text, before, position, line⟩ :: rest) := rfl
      simp only [Token.spaced, Compound.read, qualified]
      generalize SimpleSelector.qualifier? _ = found
      cases kind
      case ident => exact .refl _
      case star => exact .refl _
      all_goals
        rcases found with e | _ | first
        · exact .refl _
        · exact .error rfl
        · exact .refl _

theorem Selector.read_spaced :
    Reading.Alike (Selector.read (Token.spaced gap ts)) (Selector.read ts) := by
  have first := Compound.read_spaced gap ts
  unfold Selector.read
  generalize Compound.read (Token.spaced gap ts) = r at first ⊢
  generalize Compound.read ts = r' at first ⊢
  cases first with
  | ok value => exact .refl _
  | error same => exact .error same

theorem Selector.readList_spaced :
    Reading.Alike (readList (Token.spaced gap ts)) (readList ts) := by
  have first := Selector.read_spaced gap ts
  rw [readList_eq, readList_eq]
  generalize Selector.read (Token.spaced gap ts) = r at first ⊢
  generalize Selector.read ts = r' at first ⊢
  cases first with
  | ok value => exact .refl _
  | error same => exact .error same

theorem StyleRule.read_spaced :
    Reading.Alike (StyleRule.read (Token.spaced gap ts)) (StyleRule.read ts) := by
  have first := Selector.readList_spaced gap ts
  have line : (Token.spaced gap ts).head?.map Token.line = ts.head?.map Token.line := by
    cases ts <;> rfl
  unfold StyleRule.read
  rw [line]
  generalize Selector.readList (Token.spaced gap ts) = r at first ⊢
  generalize Selector.readList ts = r' at first ⊢
  cases first with
  | ok value => exact .refl _
  | error same => exact .error same

theorem Statement.read_spaced :
    Reading.Alike (Statement.read (Token.spaced gap ts)) (Statement.read ts) := by
  cases ts with
  | nil => exact .refl _
  | cons t rest =>
      have first := StyleRule.read_spaced gap (t :: rest)
      by_cases keyword : t.kind = .atKeyword
      · simp only [Token.spaced, Statement.read, keyword, if_true]
        exact .refl _
      · simp only [Token.spaced, Statement.read, keyword, if_false] at first ⊢
        generalize StyleRule.read (_ :: rest) = r at first ⊢
        generalize StyleRule.read (t :: rest) = r' at first ⊢
        cases first with
        | ok value => exact .refl _
        | error same => exact .error same

theorem StyleSource.readStatements_spaced :
    Reading.Alike (readStatements (Token.spaced gap ts)) (readStatements ts) := by
  cases ts with
  | nil => exact .refl _
  | cons t rest =>
      have first := Statement.read_spaced gap (t :: rest)
      simp only [Token.spaced, readStatements_cons] at first ⊢
      generalize Statement.read (_ :: rest) = r at first ⊢
      generalize Statement.read (t :: rest) = r' at first ⊢
      cases first with
      | ok value => exact .refl _
      | error same => exact .error same

end Spacing

namespace StyleSource
open Token

structure Closed (text : String) : Prop where
  comments : CommentsClosed text.toList
  quotes : QuotesClosed (withoutComments text.toList)

theorem tokens_join {a : String} (closed : Closed a) (b : String) : ∃ gap,
    StyleSource.tokens (a ++ "\n" ++ b) = StyleSource.tokens a ++
      spaced gap ((StyleSource.tokens b).map
        (.moved (StyleSource.tokens a).length (1 + newlines a.toList))) := by
  have whole : withoutComments (a ++ "\n" ++ b).toList =
      withoutComments a.toList ++ '\n' :: withoutComments b.toList := by
    have apart : ¬ SplitsMark false a.toList ('\n' :: b.toList) := not_splitsMark (by simp)
    have split := blankComments_append closed.comments apart
    simpa [withoutComments, blankComments] using split
  have same : newlines (withoutComments a.toList) = newlines a.toList :=
    newlines_blankComments false a.toList
  rw [StyleSource.tokens, whole, ← same, Nat.add_comm 1]
  obtain ⟨gap, -, split⟩ := tokens_break (b := '\n') rfl closed.quotes _
  exact ⟨gap, split⟩

/-- Read as one, two texts give the statements of both, or the error of the second one further
on. -/
theorem readStatements_join {a : String} (closed : Closed a) {statements : List Statement}
    (read : readStatements (StyleSource.tokens a) = .ok statements) (b : String) :
    Reading.Alike (readStatements (StyleSource.tokens (a ++ "\n" ++ b)))
      (match readStatements (StyleSource.tokens b) with
      | .error e => .error (e.moved (StyleSource.tokens a).length (1 + newlines a.toList))
      | .ok others => .ok (statements ++ others.map (.moved (1 + newlines a.toList)))) := by
  obtain ⟨gap, split⟩ := tokens_join closed b
  have spaced := readStatements_spaced gap ((StyleSource.tokens b).map
    (.moved (StyleSource.tokens a).length (1 + newlines a.toList)))
  rw [readStatements_moved] at spaced
  rw [split, readStatements_append _ read]
  generalize readStatements (Token.spaced gap _) = result at spaced ⊢
  cases also : readStatements (StyleSource.tokens b) with
  | error e =>
      rw [also] at spaced
      cases spaced with
      | error same => exact .error same
  | ok others =>
      rw [also] at spaced
      cases spaced
      exact .ok _

def followedBy (source other : StyleSource) : StyleSource :=
  ⟨source.statements ++ other.statements⟩

section FollowedBy
variable (source other : StyleSource)

theorem styleRules_followedBy :
    (source.followedBy other).styleRules = source.styleRules ++ other.styleRules :=
  List.filterMap_append

theorem keyframesRules_followedBy :
    (source.followedBy other).keyframesRules = source.keyframesRules ++ other.keyframesRules :=
  List.filterMap_append

theorem decoratorRules_followedBy :
    (source.followedBy other).decoratorRules = source.decoratorRules ++ other.decoratorRules :=
  List.filterMap_append

theorem spriteSheetRules_followedBy : (source.followedBy other).spriteSheetRules =
    source.spriteSheetRules ++ other.spriteSheetRules := List.filterMap_append

end FollowedBy

/-- Two texts, one a line after the other, have the statements of both, those of the second one
further down. -/
theorem ofText_join {a b : String} (closed : Closed a) {first second : StyleSource}
    (one : ofText a = .ok first) (two : ofText b = .ok second) :
    ofText (a ++ "\n" ++ b) =
      .ok (first.followedBy (second.moved (1 + newlines a.toList))) := by
  obtain ⟨statements, read, rfl⟩ := map_eq_ok.mp one
  obtain ⟨others, also, rfl⟩ := map_eq_ok.mp two
  have joined := readStatements_join closed read b
  rw [also] at joined
  rw [ofText]
  generalize readStatements (StyleSource.tokens (a ++ "\n" ++ b)) = result at joined ⊢
  cases joined
  rfl

/-- After another text, on the next line, a text is read as it is alone. Its rules come after those
of the first one, with their lines further down; a text that cannot be read fails at the same token,
further on. Counted in 32 bits the lines are the same up to `2 ^ 32` lines. -/
theorem ofText_followed {a : String} (closed : Closed a) {first : StyleSource}
    (one : ofText a = .ok first) (b : String) :
    match ofText b with
    | .ok second => ∃ whole, ofText (a ++ "\n" ++ b) = .ok whole ∧
        whole.styleRules =
          first.styleRules ++ second.styleRules.map (.moved (1 + newlines a.toList)) ∧
        whole.keyframesRules =
          first.keyframesRules ++ second.keyframesRules.map (.moved (1 + newlines a.toList)) ∧
        whole.decoratorRules =
          first.decoratorRules ++ second.decoratorRules.map (.moved (1 + newlines a.toList)) ∧
        whole.spriteSheetRules =
          first.spriteSheetRules ++ second.spriteSheetRules.map (.moved (1 + newlines a.toList))
    | .error (.unexpected t needed) => ∃ gap, ofText (a ++ "\n" ++ b) =
        .error (.unexpected ⟨t.kind, t.text, gap, t.position + (StyleSource.tokens a).length,
          t.line + (1 + newlines a.toList)⟩ needed)
    | .error (.ended needed) => ofText (a ++ "\n" ++ b) = .error (.ended needed) := by
  cases two : ofText b with
  | ok second =>
      refine ⟨_, ofText_join closed one two, ?_, ?_, ?_, ?_⟩
      · rw [styleRules_followedBy, styleRules_moved]
      · rw [keyframesRules_followedBy, keyframesRules_moved]
      · rw [decoratorRules_followedBy, decoratorRules_moved]
      · rw [spriteSheetRules_followedBy, spriteSheetRules_moved]
  | error e =>
      obtain ⟨statements, read, rfl⟩ := map_eq_ok.mp one
      have joined := readStatements_join closed read b
      rw [map_eq_error.mp two] at joined
      rw [ofText]
      generalize readStatements (StyleSource.tokens (a ++ "\n" ++ b)) = result at joined ⊢
      cases joined with
      | error same =>
          cases e with
          | unexpected t needed =>
              obtain ⟨gap, rfl⟩ := ParseError.gapless_unexpected same
              exact ⟨gap, rfl⟩
          | ended needed =>
              rw [ParseError.gapless_ended same]
              rfl

theorem closed_menu : Closed menuText := by
  constructor
  all_goals
    rw [menuText, String.toList_ofList]
    decide +kernel

/-- A stray brace after four statements is found where it stands. -/
theorem ofText_followed_brace : ∃ gap, ofText (menuText ++ "\n" ++ "\x7d") =
    .error (.unexpected ⟨.braceClose, "\x7d", gap, 54, 5⟩ .selector) := by
  have size : (StyleSource.tokens menuText).length = 54 ∧ newlines menuText.toList = 3 := by
    rw [StyleSource.tokens, menuText, String.toList_ofList]
    decide +kernel
  have failed : ofText "\x7d" = .error (.unexpected ⟨.braceClose, "\x7d", [], 0, 1⟩ .selector) := by
    decide +kernel
  have followed := ofText_followed closed_menu ofText_menu "\x7d"
  rw [failed, size.1, size.2] at followed
  exact followed

end StyleSource
end Cascade
