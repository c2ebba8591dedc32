import Cascade.Proofs.Source.Joining
/-!
At-rules that mean nothing here.

An at-rule with an unknown name is passed over up to the first semicolon, or through its block if
that comes first, however deep its braces are nested. Nothing of it is left, so what follows is read
as if it stood alone.
-/
namespace Cascade

namespace Token

inductive Balanced : List Token → Prop where
  | nil : Balanced []
  | other {t : Token} {rest : List Token} (bare : t.kind ≠ .braceOpen ∧ t.kind ≠ .braceClose)
      (behind : Balanced rest) : Balanced (t :: rest)
  | block {opening closing : Token} {inner rest : List Token} (opens : opening.kind = .braceOpen)
      (closes : closing.kind = .braceClose) (within : Balanced inner) (behind : Balanced rest) :
      Balanced (opening :: (inner ++ closing :: rest))

theorem Balanced.of_bare {ts : List Token}
    (bare : ∀ t ∈ ts, t.kind ≠ .braceOpen ∧ t.kind ≠ .braceClose) : Balanced ts := by
  induction ts with
  | nil => exact .nil
  | cons t rest ih =>
      exact .other (bare t List.mem_cons_self) (ih fun u member => bare u (.tail t member))

inductive Concludes : List Token → Prop where
  | semicolon {t : Token} (ends : t.kind = .semicolon) : Concludes [t]
  | block {opening closing : Token} {inner : List Token} (opens : opening.kind = .braceOpen)
      (closes : closing.kind = .braceClose) (within : Balanced inner) :
      Concludes (opening :: (inner ++ [closing]))

/-- A keyword that has no grammar here, a prelude and an end, which the prelude does not have. -/
structure Foreign (keyword : Token) (prelude ending : List Token) : Prop where
  marked : keyword.kind = .atKeyword
  unknown : keyword.tail ∉ ["keyframes", "decorator", "spritesheet"]
  plain : ∀ t ∈ prelude, t.kind ∉ [Kind.braceOpen, .braceClose, .semicolon]
  concludes : Concludes ending

end Token

namespace Statement
open Token

theorem skip_other {t : Token} (bare : t.kind ≠ .braceOpen ∧ t.kind ≠ .braceClose) {depth : Nat}
    (inside : t.kind = .semicolon → depth ≠ 0) (rest : List Token) :
    skip depth (t :: rest) = skip depth rest := by
  rw [skip]
  split
  case h_1 ends => rw [if_neg (inside ends)]
  case h_2 opens => exact absurd opens bare.1
  case h_3 closes => exact absurd closes bare.2
  case h_4 => rfl

theorem skip_open {t : Token} (opens : t.kind = .braceOpen) (depth : Nat) (rest : List Token) :
    skip depth (t :: rest) = skip (depth + 1) rest := by
  rw [skip, opens]

theorem skip_close {t : Token} (closes : t.kind = .braceClose) (depth : Nat) (rest : List Token) :
    skip (depth + 1) (t :: rest) = if depth = 0 then .ok rest else skip depth rest := by
  rw [skip, closes]
  simp

/-- Within a block, balanced tokens are passed over whatever they are. -/
theorem skip_balanced {ts : List Token} (balanced : Balanced ts) (depth : Nat)
    (rest : List Token) : skip (depth + 1) (ts ++ rest) = skip (depth + 1) rest := by
  induction balanced generalizing depth rest with
  | nil => rfl
  | other bare _ ih =>
      rw [List.cons_append, skip_other bare fun _ => Nat.succ_ne_zero depth]
      exact ih depth rest
  | block opens closes _ _ inside after =>
      rw [List.cons_append, skip_open opens, List.append_assoc, inside, List.cons_append,
        skip_close closes, if_neg (Nat.succ_ne_zero depth), after]

theorem skip_plain {prelude : List Token}
    (plain : ∀ t ∈ prelude, t.kind ∉ [Kind.braceOpen, .braceClose, .semicolon])
    (rest : List Token) : skip 0 (prelude ++ rest) = skip 0 rest := by
  induction prelude with
  | nil => rfl
  | cons t more ih =>
      have here := plain t List.mem_cons_self
      simp only [List.mem_cons, List.not_mem_nil, or_false, not_or] at here
      rw [List.cons_append, skip_other ⟨here.1, here.2.1⟩ fun ends => absurd ends here.2.2]
      exact ih fun u member => plain u (List.mem_cons_of_mem t member)

theorem skip_concludes {ending : List Token} (concludes : Concludes ending) (rest : List Token) :
    skip 0 (ending ++ rest) = .ok rest := by
  cases concludes with
  | semicolon ends =>
      rw [List.cons_append, skip, ends]
      rfl
  | block opens closes within =>
      rw [List.cons_append, skip_open opens, List.append_assoc, skip_balanced within,
        List.cons_append, skip_close closes]
      rfl

theorem read_foreign {keyword : Token} {prelude ending : List Token}
    (foreign : Foreign keyword prelude ending) (rest : List Token) :
    Statement.read (keyword :: (prelude ++ ending) ++ rest) = .ok (none, rest) := by
  have passed : skip 0 (prelude ++ ending ++ rest) = .ok rest := by
    rw [List.append_assoc, skip_plain foreign.plain, skip_concludes foreign.concludes]
  have unknown := foreign.unknown
  simp only [List.mem_cons, List.not_mem_nil, or_false, not_or] at unknown
  rw [List.cons_append, Statement.read, if_pos foreign.marked, readAtRule]
  split
  case h_1 named => exact absurd named unknown.1
  case h_2 named => exact absurd named unknown.2.1
  case h_3 named => exact absurd named unknown.2.2
  case h_4 => rw [passed]; rfl

end Statement

theorem Reading.Alike.map {α β : Type} {r r' : Except ParseError α} (f : α → β)
    (alike : Alike r r') : Alike (r.map f) (r'.map f) := by
  cases alike with
  | ok value => exact .ok (f value)
  | error same => exact .error same

namespace StyleSource
open Token

/-- Before any other tokens an unknown at-rule leaves nothing behind. -/
theorem readStatements_foreign {keyword : Token} {prelude ending : List Token}
    (foreign : Foreign keyword prelude ending) (rest : List Token) :
    readStatements (keyword :: (prelude ++ ending) ++ rest) = readStatements rest := by
  have passed := Statement.read_foreign foreign rest
  rw [List.cons_append] at passed ⊢
  simp only [readStatements_cons, passed]
  cases readStatements rest <;> rfl

/-- A text that is an unknown at-rule is read as nothing. If its comments and quotes are closed, a
text on the next line is read as it is alone, or fails at the same token, some lines and tokens
further on. -/
theorem ofText_foreign {text : String} {keyword : Token} {prelude ending : List Token}
    (lexed : StyleSource.tokens text = keyword :: (prelude ++ ending))
    (foreign : Foreign keyword prelude ending) :
    ofText text = .ok ⟨[]⟩ ∧
    (Closed text → ∀ b, Reading.Alike (ofText (text ++ "\n" ++ b))
      (((ofText b).map (.moved (1 + newlines text.toList))).mapError
        (.moved (StyleSource.tokens text).length (1 + newlines text.toList)))) := by
  have alone : readStatements (StyleSource.tokens text) = .ok [] := by
    have passed := readStatements_foreign foreign []
    rwa [List.append_nil, ← lexed, readStatements] at passed
  refine ⟨by rw [ofText, alone]; rfl, fun closed b => ?_⟩
  have joined := (readStatements_join closed alone b).map StyleSource.mk
  rw [ofText, ofText]
  generalize readStatements (StyleSource.tokens b) = result at joined ⊢
  cases result <;> exact joined

/-- A source after a block that holds a rule with an at-rule in it. -/
theorem ofText_foreign_media :
    let text := "@media screen \x7b\n  p \x7b color: red; @page; \x7d\n\x7d"
    ofText text = .ok ⟨[]⟩ ∧
    ofText (text ++ "\n" ++ menuText) = .ok (menu.moved 3) := by
  intro text
  have lexed : StyleSource.tokens text =
      ⟨.atKeyword, "@media", [], 0, 1⟩ :: ([⟨.ident, "screen", [' '], 1, 1⟩] ++
        ⟨.braceOpen, "\x7b", [' '], 2, 1⟩ ::
          (⟨.ident, "p", ['\n', ' ', ' '], 3, 2⟩ :: ⟨.braceOpen, "\x7b", [' '], 4, 2⟩ ::
            ([⟨.ident, "color", [' '], 5, 2⟩, ⟨.colon, ":", [], 6, 2⟩,
              ⟨.ident, "red", [' '], 7, 2⟩, ⟨.semicolon, ";", [], 8, 2⟩,
              ⟨.atKeyword, "@page", [' '], 9, 2⟩, ⟨.semicolon, ";", [], 10, 2⟩] ++
            ⟨.braceClose, "\x7d", [' '], 11, 2⟩ :: []) ++
          [⟨.braceClose, "\x7d", ['\n'], 12, 3⟩])) := by
    subst text
    cbv
  have closed : Closed text := ⟨by decide, by decide⟩
  obtain ⟨alone, followed⟩ := ofText_foreign lexed ⟨rfl, by decide, by decide,
    .block rfl rfl (.other (by decide) (.block rfl rfl (.of_bare (by decide)) .nil))⟩
  refine ⟨alone, ?_⟩
  have lines : newlines text.toList = 2 := by decide
  have rule := followed closed menuText
  rw [ofText_menu, lines] at rule
  generalize ofText (text ++ "\n" ++ _) = result at rule ⊢
  cases rule
  rfl

end StyleSource
end Cascade
