import Cascade.Text
import Mathlib.Data.List.TakeWhile
/-!
Cutting at the top level.

A text in which every quote and every parenthesis has its partner is passed over as a whole, so it
is cut only where a separator stands outside of them. Whatever text is cut, the pieces stand in it
one after the other, and what is dropped around them is blank or separates at the top level.
-/
namespace Cascade.Text

structure Trimmed (cs : List Char) : Prop where
  first : ∀ c ∈ cs.head?, isBlank c = false
  last : ∀ c ∈ cs.getLast?, isBlank c = false

section Trimming
variable {cs : List Char} {c : Char}

theorem trim_split (cs : List Char) : ∃ before behind, cs = before ++ trim cs ++ behind ∧
    (∀ c ∈ before, isBlank c = true) ∧ ∀ c ∈ behind, isBlank c = true := by
  refine ⟨cs.takeWhile isBlank, ((cs.dropWhile isBlank).reverse.takeWhile isBlank).reverse, ?_,
    fun c => List.mem_takeWhile_imp, fun c member => ?_⟩
  · rw [trim, stripped, List.append_assoc, ← List.reverse_append, List.takeWhile_append_dropWhile,
      List.reverse_reverse, List.takeWhile_append_dropWhile]
  · exact List.mem_takeWhile_imp (List.mem_reverse.mp member)

theorem head_dropWhile {drop : Char → Bool} (first : c ∈ (cs.dropWhile drop).head?) :
    drop c = false := by
  have kept := List.head?_dropWhile_not drop cs
  rwa [Option.mem_def.mp first] at kept

theorem trim_trimmed (cs : List Char) : Trimmed (trim cs) where
  first c begins := by
    -- Trimming the end leaves the front as it was.
    have front : trim cs <+: cs.dropWhile isBlank := by
      rw [trim, stripped, ← List.reverse_suffix, List.reverse_reverse]
      exact List.dropWhile_suffix isBlank
    obtain ⟨behind, whole⟩ := front
    have first : c ∈ (cs.dropWhile isBlank).head? := by
      rw [← whole, List.head?_append, Option.mem_def.mp begins]
      rfl
    exact head_dropWhile first
  last c ends := by
    rw [trim, stripped, List.getLast?_reverse] at ends
    exact head_dropWhile ends

theorem trim_eq_self (trimmed : Trimmed cs) : trim cs = cs := by
  have front : cs.dropWhile isBlank = cs := by
    cases cs with
    | nil => rfl
    | cons c rest => simp [trimmed.first c rfl]
  have back : cs.reverse.dropWhile isBlank = cs.reverse := by
    cases reversed : cs.reverse with
    | nil => rfl
    | cons c rest =>
        have final : c ∈ cs.getLast? := by
          rw [← List.head?_reverse, reversed]
          rfl
        simp [trimmed.last c final]
  rw [trim, stripped, front, back, List.reverse_reverse]

theorem trim_cons (blank : isBlank c = true) (cs : List Char) : trim (c :: cs) = trim cs := by
  simp [trim, stripped, blank]

end Trimming

def isMark (c : Char) : Bool := c == '"' || c == '\'' || c == '(' || c == ')'

/-- Every quote is closed by the next one of its sort, and the parentheses that are not quoted come
in pairs. Outside of all these there are allowed characters only. -/
inductive Nested : (allowed : Char → Bool) → List Char → Prop where
  | nil {allowed : Char → Bool} : Nested allowed []
  | plain {allowed : Char → Bool} {c : Char} {rest : List Char} (other : isMark c = false)
      (fits : allowed c = true) (behind : Nested allowed rest) : Nested allowed (c :: rest)
  | quoted {allowed : Char → Bool} {q : Char} {inside rest : List Char}
      (opens : q = '"' ∨ q = '\'') (single : q ∉ inside) (behind : Nested allowed rest) :
      Nested allowed (q :: (inside ++ q :: rest))
  | enclosed {allowed : Char → Bool} {inside rest : List Char}
      (within : Nested (fun _ => true) inside) (behind : Nested allowed rest) :
      Nested allowed ('(' :: (inside ++ ')' :: rest))

section Nesting
variable {allowed others : Char → Bool} {cs more : List Char}

theorem Nested.mono (nested : Nested allowed cs)
    (among : ∀ c, allowed c = true → others c = true) : Nested others cs := by
  induction nested with
  | nil => exact .nil
  | plain other fits _ ih => exact .plain other (among _ fits) (ih among)
  | quoted opens single _ ih => exact .quoted opens single (ih among)
  | enclosed within _ _ ih => exact .enclosed within (ih among)

theorem Nested.append (nested : Nested allowed cs) (behind : Nested allowed more) :
    Nested allowed (cs ++ more) := by
  induction nested with
  | nil => exact behind
  | plain other fits _ ih => exact .plain other fits (ih behind)
  | quoted opens single _ ih =>
      rw [List.cons_append, List.append_assoc, List.cons_append]
      exact .quoted opens single (ih behind)
  | enclosed within _ _ ih =>
      rw [List.cons_append, List.append_assoc, List.cons_append]
      exact .enclosed within (ih behind)

theorem nested_plain (plain : ∀ c ∈ cs, isMark c = false ∧ allowed c = true) :
    Nested allowed cs := by
  induction cs with
  | nil => exact .nil
  | cons c rest ih =>
      obtain ⟨other, fits⟩ := plain c List.mem_cons_self
      exact .plain other fits (ih fun d member => plain d (List.mem_cons_of_mem c member))

theorem isMark_blank {c : Char} (mark : isMark c = true) : isBlank c = false := by
  simp only [isMark, Bool.or_eq_true, beq_iff_eq] at mark
  rcases mark with ((rfl | rfl) | rfl) | rfl <;> rfl

theorem not_isMark_blank {c : Char} (blank : isBlank c = true) : isMark c = false := by
  by_contra mark
  rw [isMark_blank (Bool.not_eq_false _ ▸ mark)] at blank
  cases blank

theorem isMark_of_quote {q : Char} (opens : q = '"' ∨ q = '\'') : isMark q = true := by
  rcases opens with rfl | rfl <;> rfl

theorem Trimmed.behind {rest : List Char} {c : Char} (trimmed : Trimmed rest)
    (plain : isBlank c = false) (front : List Char) :
    ∀ d ∈ (front ++ c :: rest).getLast?, isBlank d = false := by
  cases rest with
  | nil => simpa using plain
  | cons d rest =>
      simpa [List.getLast?_append, List.getLast?_cons] using trimmed.last

/-- Where blanks stand only within quotes and parentheses none begins or ends the text. -/
theorem Nested.trimmed (nested : Nested allowed cs)
    (unblank : ∀ c, allowed c = true → isBlank c = false) : Trimmed cs := by
  induction nested with
  | nil => exact ⟨by simp, by simp⟩
  | @plain _ c rest other fits _ ih =>
      exact ⟨by simpa using unblank c fits, (ih unblank).behind (unblank c fits) []⟩
  | @quoted _ q inside rest opens single _ ih =>
      have plain := isMark_blank (isMark_of_quote opens)
      exact ⟨by simpa using plain, (ih unblank).behind plain (q :: inside)⟩
  | @enclosed _ inside rest within _ _ ih =>
      exact ⟨by simpa using isMark_blank (c := '(') rfl,
        (ih unblank).behind (isMark_blank rfl) ('(' :: inside)⟩

end Nesting

section Pieces
variable {separates allowed : Char → Bool} {cs rest current : List Char} {depth : Nat} {c : Char}

theorem topPieces_other (other : isMark c = false) :
    topPieces separates depth none current (c :: rest) =
      if depth = 0 ∧ separates c = true then
        current.reverse :: topPieces separates 0 none [] rest
      else topPieces separates depth none (c :: current) rest := by
  simp only [isMark, Bool.or_eq_false_iff, beq_eq_false_iff_ne] at other
  obtain ⟨⟨⟨double, single⟩, opens⟩, closes⟩ := other
  rw [topPieces]
  simp only [double, single, opens, closes, or_self, if_false]

theorem topPieces_quoted {q : Char} (single : q ∉ cs) :
    topPieces separates depth (some q) current (cs ++ q :: rest) =
      topPieces separates depth none (q :: (cs.reverse ++ current)) rest := by
  induction cs generalizing current with
  | nil => simp [topPieces]
  | cons c more ih =>
      obtain ⟨other, later⟩ := not_or.mp (List.mem_cons.not.mp single)
      rw [List.cons_append, topPieces, if_neg (Ne.symm other), ih later, List.reverse_cons,
        List.append_assoc]
      rfl

/-- A text whose marks have their partners goes to the current piece, unless something in it
separates. -/
theorem topPieces_nested (nested : Nested allowed cs)
    (within : 0 < depth ∨ ∀ c, allowed c = true → separates c = false) :
    topPieces separates depth none current (cs ++ rest) =
      topPieces separates depth none (cs.reverse ++ current) rest := by
  induction nested generalizing depth current rest with
  | nil => rfl
  | @plain _ c more other fits _ ih =>
      have inner : ¬ (depth = 0 ∧ separates c = true) := by
        rintro ⟨rfl, cuts⟩
        rcases within with deep | apart
        · exact Nat.lt_irrefl 0 deep
        · exact Bool.false_ne_true ((apart c fits).symm.trans cuts)
      rw [List.cons_append, topPieces_other other, if_neg inner, ih within, List.reverse_cons,
        List.append_assoc]
      rfl
  | @quoted _ q inside more opens single _ ih =>
      have start : topPieces separates depth none current (q :: (inside ++ q :: (more ++ rest))) =
          topPieces separates depth (some q) (q :: current) (inside ++ q :: (more ++ rest)) := by
        rw [topPieces]
        exact if_pos opens
      rw [List.cons_append, List.append_assoc, List.cons_append, start, topPieces_quoted single,
        ih within]
      simp
  | @enclosed _ inside more _ _ inner ih =>
      have start : topPieces separates depth none current ('(' :: (inside ++ ')' :: (more ++ rest)))
          = topPieces separates (depth + 1) none ('(' :: current)
              (inside ++ ')' :: (more ++ rest)) := by
        rw [topPieces]
        rfl
      have close (before : List Char) :
          topPieces separates (depth + 1) none before (')' :: (more ++ rest)) =
            topPieces separates depth none (')' :: before) (more ++ rest) := by
        rw [topPieces]
        rfl
      rw [List.cons_append, List.append_assoc, List.cons_append, start,
        inner (.inl (Nat.succ_pos depth)), close, ih within]
      simp

theorem pieces_cons (piece : List Char) (pieces : List (List Char)) :
    ((piece :: pieces).map trim).filter (fun piece => !piece.isEmpty) =
      ([trim piece].filter fun piece => !piece.isEmpty) ++
        (pieces.map trim).filter fun piece => !piece.isEmpty :=
  List.filter_append [trim piece] (pieces.map trim)

theorem topPieces_whole (nested : Nested (fun c => !separates c) cs) (rest : List Char) :
    topPieces separates 0 none [] (cs ++ rest) = topPieces separates 0 none cs.reverse rest := by
  rw [topPieces_nested nested (.inr fun c fits => by simpa using fits), List.append_nil]

/-- Nothing is cut where nothing separates. -/
theorem splitTop_nested (nested : Nested (fun c => !separates c) cs) :
    splitTop separates cs = [trim cs].filter fun piece => !piece.isEmpty := by
  have whole := topPieces_whole nested []
  rw [List.append_nil] at whole
  rw [splitTop, whole, topPieces, List.reverse_reverse]
  rfl

/-- A separator at the top level is where the text is cut. -/
theorem splitTop_cut (nested : Nested (fun c => !separates c) cs) (other : isMark c = false)
    (cuts : separates c = true) (rest : List Char) :
    splitTop separates (cs ++ c :: rest) = splitTop separates cs ++ splitTop separates rest := by
  rw [splitTop_nested nested, splitTop, topPieces_whole nested, topPieces_other other,
    if_pos ⟨rfl, cuts⟩, List.reverse_reverse, pieces_cons]
  rfl

end Pieces

/-- How many parentheses are open at a place, and the quote that is open there. -/
structure Level where
  depth : Nat
  quote : Option Char
  deriving DecidableEq

def Level.step (l : Level) (c : Char) : Level :=
  match l.quote with
  | some q => ⟨l.depth, if c = q then none else some q⟩
  | none =>
    if c = '"' ∨ c = '\'' then ⟨l.depth, some c⟩
    else if c = '(' then ⟨l.depth + 1, none⟩
    else if c = ')' then ⟨l.depth - 1, none⟩
    else l

def level (cs : List Char) : Level := cs.foldl Level.step ⟨0, none⟩

def CutsBehind (separates : Char → Bool) (front : List Char) (c : Char) : Prop :=
  level front = ⟨0, none⟩ ∧ separates c = true

/-- The pieces stand in the text, which comes behind another one, in their order. Each of them is
trimmed, some text, and has nothing in it that separates at the top level. What is around them is
blank or separates so. -/
inductive CutInto (separates : Char → Bool) :
    (front cs : List Char) → (pieces : List (List Char)) → Prop where
  | done {front : List Char} : CutInto separates front [] []
  | dropped {front rest : List Char} {c : Char} {pieces : List (List Char)}
      (loose : isBlank c = true ∨ CutsBehind separates front c)
      (behind : CutInto separates (front ++ [c]) rest pieces) :
      CutInto separates front (c :: rest) pieces
  | kept {front rest piece : List Char} {pieces : List (List Char)} (some : piece ≠ [])
      (trimmed : Trimmed piece)
      (whole : ∀ u c v, piece = u ++ c :: v → ¬ CutsBehind separates (front ++ u) c)
      (behind : CutInto separates (front ++ piece) rest pieces) :
      CutInto separates front (piece ++ rest) (piece :: pieces)

section Cutting
variable {separates : Char → Bool} {front cs rest : List Char} {pieces : List (List Char)}

theorem level_snoc (cs : List Char) (c : Char) : level (cs ++ [c]) = (level cs).step c := by
  rw [level, List.foldl_append]
  rfl

theorem CutInto.blanks (blank : ∀ c ∈ cs, isBlank c = true)
    (behind : CutInto separates (front ++ cs) rest pieces) :
    CutInto separates front (cs ++ rest) pieces := by
  induction cs generalizing front with
  | nil => simpa using behind
  | cons c more ih =>
      refine .dropped (.inl (blank c List.mem_cons_self)) (ih (fun d member => ?_) ?_)
      · exact blank d (List.mem_cons_of_mem c member)
      · simpa using behind

/-- A text that nothing cuts is one piece, or none if there are only blanks in it. -/
theorem CutInto.uncut (whole : ∀ u c v, cs = u ++ c :: v → ¬ CutsBehind separates (front ++ u) c)
    (behind : CutInto separates (front ++ cs) rest pieces) :
    CutInto separates front (cs ++ rest)
      (([trim cs].filter fun piece => !piece.isEmpty) ++ pieces) := by
  obtain ⟨before, after, split, blank, last⟩ := trim_split cs
  have trimmed := trim_trimmed cs
  generalize trim cs = piece at split trimmed
  subst split
  rw [List.append_assoc, List.append_assoc]
  refine .blanks blank ?_
  cases piece with
  | nil =>
      rw [List.nil_append]
      refine .blanks last ?_
      simpa using behind
  | cons c more =>
      refine .kept (List.cons_ne_nil c more) trimmed (fun u d v same => ?_) (.blanks last ?_)
      · rw [List.append_assoc]
        exact whole (before ++ u) d (v ++ after) (by simp [same])
      · simpa using behind

theorem topPieces_step (unmarked : ∀ c, separates c = true → isMark c = false) (l : Level)
    (current : List Char) (c : Char) (rest : List Char) :
    topPieces separates l.depth l.quote current (c :: rest) =
      if l = ⟨0, none⟩ ∧ separates c = true then
        current.reverse :: topPieces separates 0 none [] rest
      else topPieces separates (l.step c).depth (l.step c).quote (c :: current) rest := by
  obtain ⟨depth, quote⟩ := l
  cases quote with
  | some q =>
      have inner : ¬ (Level.mk depth (some q) = ⟨0, none⟩ ∧ separates c = true) := by simp
      rw [if_neg inner, topPieces]
      rfl
  | none =>
      cases mark : isMark c with
      | true =>
          have joins : separates c = false := by
            by_contra cuts
            rw [unmarked c (Bool.not_eq_false _ ▸ cuts)] at mark
            cases mark
          simp only [isMark, Bool.or_eq_true, beq_iff_eq] at mark
          rw [if_neg (by simp [joins]), topPieces]
          rcases mark with ((rfl | rfl) | rfl) | rfl <;> rfl
      | false =>
          have stays : Level.step ⟨depth, none⟩ c = ⟨depth, none⟩ := by
            simp only [isMark, Bool.or_eq_false_iff, beq_eq_false_iff_ne] at mark
            simp [Level.step, mark]
          rw [topPieces_other mark, stays]
          simp

theorem cutInto_topPieces (unmarked : ∀ c, separates c = true → isMark c = false) {l : Level}
    {current : List Char} (here : level (front ++ current.reverse) = l)
    (whole : ∀ u c v, current.reverse = u ++ c :: v → ¬ CutsBehind separates (front ++ u) c)
    (rest : List Char) :
    CutInto separates front (current.reverse ++ rest)
      (((topPieces separates l.depth l.quote current rest).map trim).filter
        fun piece => !piece.isEmpty) := by
  induction rest generalizing front current l with
  | nil => simpa [topPieces] using CutInto.uncut whole CutInto.done
  | cons c rest ih =>
      have next : level (front ++ current.reverse ++ [c]) = l.step c := by rw [level_snoc, here]
      rw [topPieces_step unmarked]
      split
      case isTrue cuts =>
        obtain ⟨rfl, separating⟩ := cuts
        have stays : Level.step ⟨0, none⟩ c = ⟨0, none⟩ := by
          have other := unmarked c separating
          simp only [isMark, Bool.or_eq_false_iff, beq_eq_false_iff_ne] at other
          simp [Level.step, other]
        rw [stays, ← List.append_nil (_ ++ [c]), ← List.reverse_nil] at next
        have others := ih next fun u d v none => by simp at none
        rw [pieces_cons]
        exact .uncut whole (.dropped (.inr ⟨here, separating⟩) others)
      case isFalse inner =>
        have text : (c :: current).reverse ++ rest = current.reverse ++ c :: rest := by simp
        rw [← text]
        refine ih (by simpa using next) fun u d v same => ?_
        rw [List.reverse_cons] at same
        rcases List.eq_nil_or_concat v with rfl | ⟨w, e, rfl⟩
        · obtain ⟨rfl, last⟩ := List.append_inj' same rfl
          obtain rfl := List.singleton_inj.mp last
          exact fun cuts => inner ⟨here.symm.trans cuts.1, cuts.2⟩
        · have split : current.reverse ++ [c] = (u ++ d :: w) ++ [e] := by simpa using same
          exact whole u d w (List.append_inj' split rfl).1

/-- Cutting drops nothing else than blanks and what separates at the top level. -/
theorem splitTop_cutInto (unmarked : ∀ c, separates c = true → isMark c = false)
    (cs : List Char) : CutInto separates [] cs (splitTop separates cs) := by
  have start : level ([] ++ ([] : List Char).reverse) = ⟨0, none⟩ := rfl
  exact cutInto_topPieces unmarked start (fun u c v none => by simp at none) cs

end Cutting
end Cascade.Text
