import Cascade.Proofs.Source.Recognizing
import Cascade.Proofs.Source.Respelling
/-!
The token that a parse error names.

It is the first one that nothing could be read with: what decides is no more than the tokens up to
it, and the text before it can go on to the end of a source. Every stage can be brought to its end.
-/
namespace Cascade

namespace Stage

def after (s : Stage) : List Token → Option Stage
  | [] => some s
  | t :: rest => match s.step t with
    | .ok next => next.after rest
    | .error _ => none

section After
variable {s s' next : Stage} {t u : Token} {ts us before rest : List Token} {needed : Needed}

theorem check_step (accepted : s.step t = .ok next) (rest : List Token) :
    s.check (t :: rest) = next.check rest := by
  rw [check, accepted]

theorem check_refused (refused : s.step t = .error needed) (rest : List Token) :
    s.check (t :: rest) = .error (.unexpected t needed) := by
  rw [check, refused]

theorem after_step (accepted : s.step t = .ok next) (rest : List Token) :
    s.after (t :: rest) = next.after rest := by
  rw [after, accepted]

theorem after_cons (reached : s.after (t :: rest) = some s') :
    ∃ next, s.step t = .ok next ∧ next.after rest = some s' := by
  cases result : s.step t with
  | ok next => exact ⟨next, rfl, (after_step result rest).symm.trans reached⟩
  | error needed => simp [after, result] at reached

theorem check_append (reached : s.after before = some s') (rest : List Token) :
    s.check (before ++ rest) = s'.check rest := by
  induction before generalizing s with
  | nil =>
      obtain rfl := Option.some.inj reached
      rfl
  | cons t before ih =>
      obtain ⟨next, accepted, reached⟩ := after_cons reached
      rw [List.cons_append, check_step accepted, ih reached]

/-- A token is refused at the stage that the tokens before it lead to. -/
theorem check_unexpected (failed : s.check ts = .error (.unexpected t needed)) :
    ∃ before rest s', ts = before ++ t :: rest ∧ s.after before = some s' ∧
      s'.step t = .error needed := by
  induction ts generalizing s with
  | nil =>
      rw [check] at failed
      split at failed <;> cases failed
  | cons u rest ih =>
      cases result : s.step u with
      | ok next =>
          rw [check_step result] at failed
          obtain ⟨before, left, last, rfl, reached, refused⟩ := ih failed
          exact ⟨u :: before, left, last, rfl, (after_step result before).trans reached, refused⟩
      | error wanted =>
          cases (check_refused result rest).symm.trans failed
          exact ⟨[], rest, s, rfl, rfl, result⟩

theorem check_ended (failed : s.check ts = .error (.ended needed)) :
    ∃ s', s.after ts = some s' := by
  induction ts generalizing s with
  | nil => exact ⟨s, rfl⟩
  | cons u rest ih =>
      cases result : s.step u with
      | ok next =>
          rw [check_step result] at failed
          rw [after_step result]
          exact ih failed
      | error wanted => cases (check_refused result rest).symm.trans failed

theorem step_congr (s : Stage) (same : t.word = u.word) (touching : t.touches = u.touches) :
    s.step t = s.step u := by
  rcases t with ⟨kind, text, gap, position, line⟩
  rcases u with ⟨kind', text', gap', position', line'⟩
  obtain ⟨rfl, rfl⟩ := Prod.mk.inj same
  cases s
  case values next depth callable =>
    simp only [step, value, touching]
    rfl
  case property next => simp only [step, touching]
  all_goals rfl

-- Nothing stands before the first token that it could touch.
theorem step_top_congr (same : t.word = u.word) : top.step t = top.step u := by
  rcases t with ⟨kind, text, gap, position, line⟩
  rcases u with ⟨kind', text', gap', position', line'⟩
  obtain ⟨rfl, rfl⟩ := Prod.mk.inj same
  rfl

theorem refused_congr (words : (us.take (before.length + 1)).map Token.word =
      (before ++ [t]).map Token.word)
    (touching : (us.take (before.length + 1)).map Token.touches =
      (before ++ [t]).map Token.touches)
    (reached : s.after before = some s') (refused : s'.step t = .error needed) :
    ∃ u, us[before.length]? = some u ∧ s.check us = .error (.unexpected u needed) := by
  induction before generalizing s us with
  | nil =>
      obtain rfl := Option.some.inj reached
      cases us with
      | nil => cases words
      | cons u others =>
          have same := step_congr s (List.cons.inj words).1 (List.cons.inj touching).1
          exact ⟨u, rfl, check_refused (same.trans refused) others⟩
  | cons b before ih =>
      cases us with
      | nil => cases words
      | cons u others =>
          obtain ⟨here, words⟩ := List.cons.inj words
          obtain ⟨touch, touching⟩ := List.cons.inj touching
          obtain ⟨next, accepted, reached⟩ := after_cons reached
          rw [check_step ((step_congr s here touch).trans accepted)]
          exact ih words touching reached

theorem refused_top_congr (words : (us.take (before.length + 1)).map Token.word =
      (before ++ [t]).map Token.word)
    (touching : (us.take (before.length + 1)).tail.map Token.touches =
      (before ++ [t]).tail.map Token.touches)
    (reached : top.after before = some s) (refused : s.step t = .error needed) :
    ∃ u, us[before.length]? = some u ∧ top.check us = .error (.unexpected u needed) := by
  cases us with
  | nil => simp at words
  | cons u others =>
      cases before with
      | nil =>
          obtain rfl := Option.some.inj reached
          have same := step_top_congr (List.cons.inj words).1
          exact ⟨u, rfl, check_refused (same.trans refused) others⟩
      | cons b before =>
          obtain ⟨here, words⟩ := List.cons.inj words
          obtain ⟨next, accepted, reached⟩ := after_cons reached
          rw [check_step ((step_top_congr here).trans accepted)]
          exact refused_congr words touching reached refused

end After

def emptyBlock : List (Token.Kind × String) := [(.braceOpen, "\x7b"), (.braceClose, "\x7d")]

def closing : Stage → List (Token.Kind × String)
  | .top => []
  | .part => (.ident, "x") :: emptyBlock
  | .compound => emptyBlock
  | .name _ next => (.ident, "x") :: next.closing
  | .brace next => (.braceOpen, "\x7b") :: next.closing
  | .block next => (.braceClose, "\x7d") :: next.closing
  | .property next => (.colon, ":") :: (.braceClose, "\x7d") :: next.closing
  | .values next depth _ =>
    List.replicate depth (.parenClose, ")") ++ (.braceClose, "\x7d") :: next.closing
  | .frames => [(.braceClose, "\x7d")]
  | .moment => (.ident, "from") :: (emptyBlock ++ [(.braceClose, "\x7d")])
  | .moments => emptyBlock ++ [(.braceClose, "\x7d")]
  | .type => (.colon, ":") :: (.ident, "x") :: emptyBlock
  | .skip 0 => [(.semicolon, ";")]
  | .skip (depth + 1) => List.replicate (depth + 1) (.braceClose, "\x7d")

section Closing
variable {s next : Stage} {us : List Token} {ws : List (Token.Kind × String)}

/-- A word that brings a stage to the next one, and words that bring that one to its end. -/
theorem check_word {k : Token.Kind} {text : String} (words : us.map Token.word = (k, text) :: ws)
    (accepts : ∀ u : Token, u.kind = k → u.text = text → s.step u = .ok next)
    (goesOn : ∀ rest : List Token, rest.map Token.word = ws → next.check rest = .ok ()) :
    s.check us = .ok () := by
  obtain ⟨u, rest, rfl, here, others⟩ := List.map_eq_cons_iff.mp words
  obtain ⟨kind, text⟩ := Prod.mk.inj here
  rw [check_step (accepts u kind text)]
  exact goesOn rest others

theorem check_block_word (words : us.map Token.word = (.braceClose, "\x7d") :: ws)
    (goesOn : ∀ rest : List Token, rest.map Token.word = ws → next.check rest = .ok ()) :
    (block next).check us = .ok () :=
  check_word words (fun u kind _ => by simp [step, kind]) goesOn

theorem check_values_word (depth : Nat) (callable : Bool)
    (words : us.map Token.word =
      List.replicate depth (.parenClose, ")") ++ (.braceClose, "\x7d") :: ws)
    (goesOn : ∀ rest : List Token, rest.map Token.word = ws → next.check rest = .ok ()) :
    (values next depth callable).check us = .ok () := by
  induction depth generalizing us callable with
  | zero =>
      refine check_word words (fun u kind _ => ?_) goesOn
      simp [step, value, kind, ComponentValue.endsBefore]
  | succ depth ih =>
      refine check_word words (fun u kind _ => ?_) fun _ others => ih false others
      simp [step, value, kind, ComponentValue.endsBefore]

theorem check_top_closing (words : us.map Token.word = top.closing) : top.check us = .ok () := by
  obtain rfl := List.map_eq_nil_iff.mp words
  rfl

theorem check_skip_word (depth : Nat)
    (words : us.map Token.word = List.replicate (depth + 1) (.braceClose, "\x7d")) :
    (skip (depth + 1)).check us = .ok () := by
  induction depth generalizing us with
  | zero => exact check_word words (fun u kind _ => by simp [step, kind]) fun _ => check_top_closing
  | succ depth ih => exact check_word words (fun u kind _ => by simp [step, kind]) fun _ => ih

theorem check_compound_closing (words : us.map Token.word = compound.closing) :
    compound.check us = .ok () :=
  check_word words (fun u kind _ => by simp [step, kind]) fun _ inside =>
    check_block_word inside fun _ => check_top_closing

theorem check_frames_closing (words : us.map Token.word = frames.closing) :
    frames.check us = .ok () :=
  check_word words (fun u kind _ => by simp [step, kind]) fun _ => check_top_closing

theorem check_moments_closing (words : us.map Token.word = moments.closing) :
    moments.check us = .ok () :=
  check_word words (fun u kind _ => by simp [step, kind]) fun _ inside =>
    check_block_word inside fun _ => check_frames_closing

-- The beginning of an animation is one of its moments.
theorem time_from {t : Token} (kind : t.kind = .ident) (text : t.text = "from") :
    (KeyframeRule.time? t).isSome = true := by
  simp only [KeyframeRule.time?, kind, text]
  decide

/-- With its closing words every stage comes to the end of a source. -/
theorem check_closing (s : Stage) (words : us.map Token.word = s.closing) :
    s.check us = .ok () := by
  induction s generalizing us with
  | top => exact check_top_closing words
  | part =>
      exact check_word words (fun u kind _ => by simp [step, begin, kind]) fun _ =>
        check_compound_closing
  | compound => exact check_compound_closing words
  | name needed next ih => exact check_word words (fun u kind _ => by simp [step, kind]) fun _ => ih
  | brace next ih => exact check_word words (fun u kind _ => by simp [step, kind]) fun _ => ih
  | block next ih => exact check_block_word words fun _ => ih
  | property next ih =>
      exact check_word words (fun u kind _ => by simp [step, kind]) fun _ others =>
        check_values_word 0 false others fun _ => ih
  | values next depth callable ih => exact check_values_word depth callable words fun _ => ih
  | frames => exact check_frames_closing words
  | moment =>
      exact check_word words (fun u kind text => by simp [step, time_from kind text]) fun _ =>
        check_moments_closing
  | moments => exact check_moments_closing words
  | type =>
      have opened {us : List Token} (words : us.map Token.word = (brace (block top)).closing) :
          (brace (block top)).check us = .ok () :=
        check_word words (fun u kind _ => by simp [step, kind]) fun _ inside =>
          check_block_word inside fun _ => check_top_closing
      have named {us : List Token}
          (words : us.map Token.word = (name .decoratorType (brace (block top))).closing) :
          (name .decoratorType (brace (block top))).check us = .ok () :=
        check_word words (fun u kind _ => by simp [step, kind]) fun _ => opened
      exact check_word words (fun u kind _ => by simp [step, kind]) fun _ => named
  | skip depth =>
      cases depth with
      | zero =>
          exact check_word words (fun u kind _ => by simp [step, kind]) fun _ => check_top_closing
      | succ depth => exact check_skip_word depth words

def closers : List (Token.Kind × String) :=
  [(.ident, "x"), (.ident, "from"), (.braceOpen, "\x7b"), (.braceClose, "\x7d"), (.parenClose, ")"),
    (.colon, ":"), (.semicolon, ";")]

theorem closers_lawful :
    ∀ w ∈ closers, w.2.toList ∈ w.1.language ∧ '/' ∉ w.2.toList := by
  decide

theorem closing_subset (s : Stage) : s.closing ⊆ closers := by
  have often {w : Token.Kind × String} (closes : w ∈ closers) (n : Nat) :
      List.replicate n w ⊆ closers := fun _ member => List.eq_of_mem_replicate member ▸ closes
  induction s with
  | skip depth =>
      cases depth with
      | zero => simp [closing, closers]
      | succ depth => exact often (by simp [closers]) _
  | values next depth callable ih =>
      refine List.append_subset.mpr ⟨often (by simp [closers]) _, List.cons_subset.mpr ⟨?_, ih⟩⟩
      simp [closers]
  | _ => simp_all [closing, closers, emptyBlock]

end Closing

end Stage

namespace StyleSource
open Token

theorem ofText_eq_ok {text : String} (accepted : Stage.top.check (tokens text) = .ok ()) :
    ∃ source, ofText text = .ok source := by
  rw [← readStatements_check] at accepted
  obtain ⟨statements, read, -⟩ := map_eq_ok.mp accepted
  exact ⟨⟨statements⟩, by rw [ofText, read]; rfl⟩

theorem ofText_eq_error {text : String} {e : ParseError} :
    ofText text = .error e ↔ Stage.top.check (tokens text) = .error e := by
  rw [← readStatements_check, ofText, map_eq_error, map_eq_error]

/-- The text up to the end of one of its first tokens, its comments blanked out. -/
def upTo (n : Nat) (text : String) : List Char := spelling ((tokens text).take n)

theorem upTo_take (n : Nat) (text : String) : ∃ m,
    upTo n text = (withoutComments text.toList).take m ∧
      Token.tokens (upTo n text) = (tokens text).take n := by
  obtain ⟨m, front, same⟩ := tokens_take (withoutComments text.toList) n
  refine ⟨m, front.symm, ?_⟩
  rw [upTo, tokens, ← front, same]

theorem upTo_closed (n : Nat) (text : String) : QuotesClosed (upTo n text) := by
  refine spelling_closed fun t member => ?_
  exact tokensFrom_closed (by simp) 0 1 _ t (List.mem_of_mem_take member)

theorem slashless_intercalate {words : List (List Char)} (slashless : ∀ w ∈ words, '/' ∉ w) :
    '/' ∉ [' '].intercalate words := by
  induction words with
  | nil => simp
  | cons w rest ih =>
      obtain ⟨here, others⟩ := List.forall_mem_cons.mp slashless
      cases rest with
      | nil => simpa using here
      | cons next rest =>
          rw [List.intercalate_cons_cons, List.mem_append, List.mem_append]
          rintro ((first | blank) | later)
          · exact here first
          · cases List.mem_singleton.mp blank
          · exact ih others later

-- A line break ends the text that was cut off, and the words that follow are its last tokens.
theorem tokens_upTo (n : Nat) (text : String) {words : List (Kind × String)}
    (lawful : ∀ w ∈ words, w.2.toList ∈ w.1.language ∧ '/' ∉ w.2.toList) :
    ∃ more, tokens (String.ofList (upTo n text) ++ "\n" ++ " ".intercalate (words.map Prod.snd)) =
      (tokens text).take n ++ more ∧ more.map Token.word = words := by
  obtain ⟨m, front, same⟩ := upTo_take n text
  have commentless : Commentless (upTo n text ++
      '\n' :: (" ".intercalate (words.map Prod.snd)).toList) := by
    have slashless : '/' ∉ '\n' :: (" ".intercalate (words.map Prod.snd)).toList := by
      rw [List.mem_cons, not_or, String.toList_intercalate, List.map_map]
      refine ⟨by decide, slashless_intercalate fun w member => ?_⟩
      obtain ⟨word, inside, rfl⟩ := List.mem_map.mp member
      exact (lawful word inside).2
    refine List.isChain_append.mpr ⟨?_, commentless_slashless slashless, by simp⟩
    rw [front]
    exact (commentless_blankComments false text.toList).take m
  have whole : withoutComments (String.ofList (upTo n text) ++ "\n" ++
      " ".intercalate (words.map Prod.snd)).toList = upTo n text ++
        '\n' :: (" ".intercalate (words.map Prod.snd)).toList := by
    rw [withoutComments, ← blankComments_commentless commentless]
    simp
  obtain ⟨gap, -, split⟩ := tokens_break (b := '\n') rfl (upTo_closed n text)
    (" ".intercalate (words.map Prod.snd)).toList
  refine ⟨_, by rw [tokens, whole, split, same], ?_⟩
  rw [map_word_spaced, map_word_moved]
  exact words_intercalate fun w member => (lawful w member).1

/-- A text that was cut off where a stage was reached can be completed. -/
theorem upTo_completes {n : Nat} {text : String} {s : Stage}
    (reached : Stage.top.after ((tokens text).take n) = some s) :
    ∃ suffix source, ofText (String.ofList (upTo n text) ++ suffix) = .ok source := by
  obtain ⟨more, split, words⟩ := tokens_upTo n text fun w member =>
    Stage.closers_lawful w (s.closing_subset member)
  refine ⟨"\n" ++ " ".intercalate (s.closing.map Prod.snd), ofText_eq_ok ?_⟩
  rw [← String.append_assoc, split, Stage.check_append reached]
  exact s.check_closing words

/-- The same kinds and texts, and the same tokens touch the ones before them. -/
structure Lookalike (ts us : List Token) : Prop where
  words : ts.map Token.word = us.map Token.word
  touching : ts.tail.map Token.touches = us.tail.map Token.touches

theorem ofText_unexpected {text : String} {t : Token} {needed : Needed}
    (failed : ofText text = .error (.unexpected t needed)) :
    ∃ before rest s, tokens text = before ++ t :: rest ∧ t.position = before.length ∧
      Stage.top.after before = some s ∧ s.step t = .error needed := by
  obtain ⟨before, rest, s, split, reached, refused⟩ :=
    Stage.check_unexpected (ofText_eq_error.mp failed)
  have here : (tokens text)[before.length]? = some t := by
    rw [split]
    simp
  refine ⟨before, rest, s, split, ?_, reached, refused⟩
  rw [tokensFrom_position [] 0 1 _ here, Nat.zero_add]

theorem ofText_lookalike {text other : String} {t : Token} {needed : Needed}
    (failed : ofText text = .error (.unexpected t needed))
    (alike : Lookalike ((tokens other).take (t.position + 1))
      ((tokens text).take (t.position + 1))) :
    ∃ u, ofText other = .error (.unexpected u needed) ∧ u.position = t.position := by
  obtain ⟨before, rest, s, split, place, reached, refused⟩ := ofText_unexpected failed
  have last : (before ++ t :: rest).take (before.length + 1) = before ++ [t] := by
    rw [List.take_length_add_append]
    rfl
  rw [split, place, last] at alike
  obtain ⟨u, there, wrong⟩ :=
    Stage.refused_top_congr alike.words alike.touching reached refused
  refine ⟨u, ofText_eq_error.mpr wrong, ?_⟩
  rw [tokensFrom_position [] 0 1 _ there, Nat.zero_add, place]

theorem upTo_front (n : Nat) (text : String) : upTo n text <+: withoutComments text.toList := by
  obtain ⟨m, front, -⟩ := upTo_take n text
  exact front ▸ List.take_prefix m _

/-- A parse error names the first token at which reading had to fail: every text that begins with
the same tokens fails there too, and the text before it can be completed. A text that ended too
early can be completed as well. -/
theorem ofText_blames (text : String) :
    (∀ t needed, ofText text = .error (.unexpected t needed) →
      (tokens text)[t.position]? = some t ∧
      (∀ other, Lookalike ((tokens other).take (t.position + 1))
          ((tokens text).take (t.position + 1)) →
        ∃ u, ofText other = .error (.unexpected u needed) ∧ u.position = t.position) ∧
      upTo t.position text <+: withoutComments text.toList ∧
      ∃ suffix source, ofText (String.ofList (upTo t.position text) ++ suffix) = .ok source) ∧
    ∀ needed, ofText text = .error (.ended needed) →
      upTo (tokens text).length text <+: withoutComments text.toList ∧
      ∃ suffix source,
        ofText (String.ofList (upTo (tokens text).length text) ++ suffix) = .ok source := by
  constructor
  · intro t needed failed
    obtain ⟨before, rest, s, split, place, reached, -⟩ := ofText_unexpected failed
    refine ⟨?_, fun other alike => ofText_lookalike failed alike, upTo_front _ text,
      upTo_completes (s := s) ?_⟩
    · rw [split, place]
      simp
    · rwa [split, place, List.take_left]
  · intro needed failed
    obtain ⟨s, reached⟩ := Stage.check_ended (ofText_eq_error.mp failed)
    refine ⟨upTo_front _ text, upTo_completes (s := s) ?_⟩
    rwa [List.take_length]

/-- A semicolon cannot follow a selector, whatever comes after it; the selector can be completed,
and so can an open block. -/
theorem ofText_blames_semicolon :
    (∃ u, ofText "a ;b" = .error (.unexpected u (.token .braceOpen)) ∧ u.position = 1) ∧
    (∃ suffix source, ofText ("a" ++ suffix) = .ok source) ∧
    ∃ suffix source, ofText ("a \x7b" ++ suffix) = .ok source := by
  have found : tokens "a ;" = [⟨.ident, "a", [], 0, 1⟩, ⟨.semicolon, ";", [' '], 1, 1⟩] := by cbv
  have more : tokens "a ;b" = [⟨.ident, "a", [], 0, 1⟩, ⟨.semicolon, ";", [' '], 1, 1⟩,
      ⟨.ident, "b", [], 2, 1⟩] := by cbv
  have opened : tokens "a \x7b" = [⟨.ident, "a", [], 0, 1⟩, ⟨.braceOpen, "\x7b", [' '], 1, 1⟩] := by
    cbv
  have failed : ofText "a ;" =
      .error (.unexpected ⟨.semicolon, ";", [' '], 1, 1⟩ (.token .braceOpen)) := by
    rw [ofText_eq_error, found]
    rfl
  have ended : ofText "a \x7b" = .error (.ended (.token .braceClose)) := by
    rw [ofText_eq_error, opened]
    rfl
  obtain ⟨-, alike, -, completed⟩ := (ofText_blames "a ;").1 _ _ failed
  obtain ⟨-, closed⟩ := (ofText_blames "a \x7b").2 _ ended
  refine ⟨alike "a ;b" ?_, ?_, ?_⟩
  · rw [found, more]
    exact ⟨rfl, rfl⟩
  · rwa [upTo, found] at completed
  · rwa [upTo, opened] at closed

end StyleSource
end Cascade
