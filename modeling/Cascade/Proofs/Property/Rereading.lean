import Cascade.Proofs.Property.Expanding
import Cascade.Proofs.Source.Rebuilding
/-!
Typed values and the texts that are written for them.

A property is only ever given a value of its kind, be it by a declaration of its own or on behalf of
a shorthand. Texts and lists are what a declaration wrote.
-/
namespace Cascade

inductive SingleKind.Admits : SingleKind → PlainValue → Prop where
  | keyword {allowed : List String} {word : String} (among : word ∈ allowed) :
      Admits (.keyword allowed) (.keyword word)
  | autoLength : Admits (.length true) (.keyword "auto")
  | length (auto : Bool) (s : Scalar) : Admits (.length auto) (.scalar s)
  | autoNumber : Admits (.number true) (.keyword "auto")
  | number (auto : Bool) (n : Binary32) : Admits (.number auto) (.number n)
  | color (c : Color) : Admits .color (.color c)

inductive Declaration.Gives (d : Declaration) (p : Longhand) : DeclaredValue → Prop where
  | single {kind : SingleKind} {v : PlainValue} (takes : p.kind = .single kind)
      (fits : kind.Admits v) : Gives d p (.plain v)
  | quoted {text : String} (takes : p.kind = .text) (values : d.values = [.string text]) :
      Gives d p (.plain (.text text))
  | written (takes : p.kind = .text) : Gives d p (.plain (.text (Text.trimmed d.raw)))
  | list {kind : ListKind} (takes : p.kind = .list kind) (some : Text.trimmed d.raw ≠ "") :
      Gives d p (.list kind (Text.trimmed d.raw))

theorem SingleKind.typed_admits {kind : SingleKind} {value : ComponentValue} {v : PlainValue}
    (typed : kind.typed value = .ok v) : kind.Admits v := by
  unfold SingleKind.typed at typed
  split at typed
  case h_1 =>
    split at typed
    case h_1 =>
      split at typed
      case h_1 found =>
        obtain rfl := Except.ok.inj typed
        exact .keyword (List.mem_of_find?_eq_some found)
      case h_2 => cases typed
    case h_2 => cases typed
  case h_2 auto =>
    split at typed
    case isTrue free =>
      obtain rfl := Except.ok.inj typed
      obtain ⟨rfl, -⟩ := Bool.and_eq_true_iff.mp free
      exact .autoLength
    case isFalse =>
      split at typed
      case h_1 =>
        obtain rfl := Except.ok.inj typed
        exact .length _ _
      case h_2 => cases typed
  case h_3 auto =>
    split at typed
    case isTrue free =>
      obtain rfl := Except.ok.inj typed
      obtain ⟨rfl, -⟩ := Bool.and_eq_true_iff.mp free
      exact .autoNumber
    case isFalse =>
      split at typed
      case h_1 =>
        obtain rfl := Except.ok.inj typed
        exact .number _ _
      case h_2 => cases typed
  case h_4 =>
    split at typed
    case h_1 =>
      obtain rfl := Except.ok.inj typed
      exact .color _
    case h_2 => cases typed

theorem Declaration.requireText_eq_ok {d : Declaration} {raw : String} :
    d.requireText = .ok raw ↔ raw = Text.trimmed d.raw ∧ raw ≠ "" := by
  rw [requireText]
  by_cases none : Text.trimmed d.raw = ""
  · simp +contextual [none]
  · simp only [String.isEmpty_iff, none, if_false, Except.ok.injEq]
    exact ⟨fun same => ⟨same.symm, same ▸ none⟩, fun both => both.1.symm⟩

section Giving
variable {d : Declaration} {p : Longhand} {v : DeclaredValue} {settings : Settings}

theorem Longhand.typed_gives (typed : p.typed d = .ok v) : d.Gives p v := by
  rw [Longhand.typed] at typed
  split at typed
  case h_1 takes =>
    split at typed
    case h_1 =>
      cases single : SingleKind.typed _ _ with
      | error fault =>
          rw [single] at typed
          cases typed
      | ok value =>
          rw [single] at typed
          obtain rfl := Except.ok.inj typed
          exact .single takes (SingleKind.typed_admits single)
    case h_2 => cases typed
  case h_2 takes =>
    split at typed
    case h_1 values =>
      obtain rfl := Except.ok.inj typed
      exact .quoted takes values
    case h_2 =>
      cases required : d.requireText with
      | error fault =>
          rw [required] at typed
          cases typed
      | ok raw =>
          rw [required] at typed
          obtain rfl := Except.ok.inj typed
          obtain ⟨rfl, -⟩ := Declaration.requireText_eq_ok.mp required
          exact .written takes
  case h_3 takes =>
    cases required : d.requireText with
    | error fault =>
        rw [required] at typed
        cases typed
    | ok raw =>
        rw [required] at typed
        obtain rfl := Except.ok.inj typed
        obtain ⟨rfl, some⟩ := Declaration.requireText_eq_ok.mp required
        exact .list takes some

theorem Longhand.given_gives {kind : SingleKind} {value : ComponentValue} {q : Longhand}
    (takes : q.kind = .single kind) (success : q.given kind value = .ok (p, v)) : d.Gives p v := by
  rw [given] at success
  split at success
  case h_1 typed =>
    obtain ⟨rfl, rfl⟩ := Prod.mk.inj (Except.ok.inj success)
    exact .single takes (SingleKind.typed_admits typed)
  case h_2 => cases success

theorem BoxShorthand.expand_gives {b : BoxShorthand} {values : List ComponentValue}
    (takes : ∀ q ∈ b.sides, q.kind = .single b.kind) (success : b.expand values = .ok settings)
    (member : (p, v) ∈ settings) : d.Gives p v := by
  rw [expand] at success
  split at success
  case h_1 => cases success
  case h_2 box =>
    obtain ⟨⟨q, value⟩, among, given⟩ := exists_of_mem_mapM success member
    exact Longhand.given_gives (takes q (List.of_mem_zip among).1) given

theorem Settings.overflow_gives {values : List ComponentValue}
    (success : Settings.ofOverflow values = .ok settings) (member : (p, v) ∈ settings) :
    d.Gives p v := by
  have takes : ∀ q ∈ [Longhand.overflowX, .overflowY],
      q.kind = .single (.keyword Longhand.overflowKeywords) := by decide
  unfold ofOverflow at success
  split at success
  case h_1 =>
    obtain ⟨q, among, given⟩ := exists_of_mem_mapM success member
    exact Longhand.given_gives (takes q among) given
  case h_2 x y =>
    obtain ⟨⟨q, value⟩, among, given⟩ := exists_of_mem_mapM success member
    have axis : q ∈ [(Longhand.overflowX, x), (.overflowY, y)].map Prod.fst :=
      List.mem_map_of_mem among
    exact Longhand.given_gives (takes q axis) given
  case h_3 => cases success

theorem Settings.border_gives {values : List ComponentValue}
    (success : Settings.ofBorder values = .ok settings) (member : (p, v) ∈ settings) :
    d.Gives p v := by
  have widths : ∀ q ∈ BoxShorthand.borderWidth.sides, q.kind = .single (.length false) := by decide
  have colors : ∀ q ∈ BoxShorthand.borderColor.sides, q.kind = .single .color := by decide
  rw [ofBorder] at success
  split at success
  case isTrue => cases success
  case isFalse =>
    split at success
    case h_1 => cases success
    case h_2 width color _ =>
      obtain rfl := Except.ok.inj success
      rcases List.mem_append.mp member with wide | colored
      · cases width with
        | none => cases wide
        | some s =>
            obtain ⟨q, among, same⟩ := List.mem_map.mp wide
            obtain ⟨rfl, rfl⟩ := Prod.mk.inj same
            exact .single (widths q among) (.length _ s)
      · cases color with
        | none => cases colored
        | some c =>
            obtain ⟨q, among, same⟩ := List.mem_map.mp colored
            obtain ⟨rfl, rfl⟩ := Prod.mk.inj same
            exact .single (colors q among) (.color c)

/-- What a declaration gives a property is a value of its kind, or a text it wrote. -/
theorem Declaration.settings_gives (success : d.settings = .ok settings)
    (member : (p, v) ∈ settings) : d.Gives p v := by
  have box {b : BoxShorthand} (takes : ∀ q ∈ b.sides, q.kind = .single b.kind)
      (expanded : b.expand d.values = .ok settings) : d.Gives p v :=
    BoxShorthand.expand_gives takes expanded member
  rw [Declaration.settings] at success
  split at success
  case h_1 => exact box (by decide) success
  case h_2 => exact box (by decide) success
  case h_3 => exact box (by decide) success
  case h_4 => exact box (by decide) success
  case h_5 => exact Settings.border_gives success member
  case h_6 => exact Settings.overflow_gives success member
  case h_7 =>
    split at success
    case h_1 => cases success
    case h_2 =>
      split at success
      case h_1 typed =>
        obtain rfl := Except.ok.inj success
        obtain ⟨rfl, rfl⟩ := Prod.mk.inj (List.mem_singleton.mp member)
        exact Longhand.typed_gives typed
      case h_2 => cases success

end Giving

/-! Values that are read again from what is written for them.
A single value is written as one word: a keyword, a number with its unit, the digits of a colour or
a text in quotes. A list is written as the text it was declared by, which reads as before because it
begins and ends with a token and no comment begins in it. -/
open Token Text

inductive Longhand.Takes (p : Longhand) : DeclaredValue → Prop where
  | single {kind : SingleKind} {v : PlainValue} (takes : p.kind = .single kind)
      (fits : kind.Admits v) : Takes p (.plain v)
  | text {text : String} (takes : p.kind = .text) (free : Commentless text.toList) :
      Takes p (.plain (.text text))
  | list {kind : ListKind} {raw : String} (takes : p.kind = .list kind) (some : raw ≠ "")
      (free : Commentless raw.toList) (snug : Snug raw.toList) : Takes p (.list kind raw)

theorem Declaration.Gives.taken {d : Declaration} {p : Longhand} {v : DeclaredValue} {text : String}
    (gives : d.Gives p v) (found : Reading.Finds Declaration.read (StyleSource.tokens text) d) :
    p.Takes v := by
  have commentless : Commentless (withoutComments text.toList) :=
    commentless_blankComments false text.toList
  have free : Commentless d.raw.toList := commentless.part (raw_occurs found)
  have snug := raw_snug found
  cases gives with
  | single takes fits => exact .single takes fits
  | quoted takes values => exact .text takes (commentless.part (string_occurs found values))
  | written takes => exact .text takes (by rwa [snug.trimmed_eq])
  | list takes some =>
      rw [snug.trimmed_eq] at some ⊢
      exact .list takes some free snug

/-- Numbers are finite, quotes can go around a text, and the text of a list is read as values. -/
def DeclaredValue.Printable : DeclaredValue → Prop
  | .plain (.number n) => n.isFinite = true
  | .plain (.scalar s) => s.value.isFinite = true
  | .plain (.text text) => '"' ∉ text.toList
  | .plain _ => True
  | .list _ raw => ∃ values, ComponentValue.ofText raw = .ok values

/-- What is written for a value begins and ends with a token, no comment begins in it, and it is
read as values that give the property that value. -/
structure Longhand.Rereads (p : Longhand) (v : DeclaredValue) : Prop where
  free : Commentless v.written.toList
  snug : Snug v.written.toList
  typed : ∃ values, ComponentValue.readAll (tokens v.written.toList) = .ok (values, []) ∧
    ∀ d : Declaration, d.values = values → d.raw = v.written → p.typed d = .ok v

namespace Color

def digits (c : Color) : List Char :=
  channelText c.red ++ (channelText c.green ++ (channelText c.blue ++
    if c.alpha = 255 then [] else channelText c.alpha))

theorem text_eq_digits (c : Color) : c.text.toList = '#' :: c.digits := by
  simp [text, digits]

theorem hexValue_digitChar : ∀ n < 16, hexValue? (Nat.digitChar n) = some n := by
  decide

theorem channel_spec (channel : UInt8) :
    hexValue? (Nat.digitChar (channel.toNat / 16)) = some (channel.toNat / 16) ∧
      hexValue? (Nat.digitChar (channel.toNat % 16)) = some (channel.toNat % 16) ∧
      ofHex?.pair (channel.toNat / 16) (channel.toNat % 16) = channel := by
  have bound := channel.toNat_lt
  refine ⟨hexValue_digitChar _ (by omega), hexValue_digitChar _ (by omega), ?_⟩
  rw [ofHex?.pair, Nat.div_add_mod, UInt8.ofNat_toNat]

theorem ofHex_digits (c : Color) : ofHex? (String.ofList c.digits) = some c := by
  obtain ⟨red, green, blue, alpha⟩ := c
  by_cases full : alpha = 255
  · simp [ofHex?, digits, channelText, channel_spec, full, solid]
  · simp [ofHex?, digits, channelText, channel_spec, full]

theorem digits_spec (c : Color) : 3 ≤ c.digits.length ∧ c.digits.length ≤ 3 + 5 ∧
    ∀ d ∈ c.digits, isHexDigit d = true := by
  have hex (channel : UInt8) : ∀ d ∈ channelText channel, isHexDigit d = true := by
    simp [channelText, isHexDigit, channel_spec]
  simp only [digits, List.length_append, List.forall_mem_append]
  split
  case isTrue => exact ⟨by simp [channelText], by simp [channelText], hex _, hex _, hex _, by simp⟩
  case isFalse => exact ⟨by simp [channelText], by simp [channelText], hex _, hex _, hex _, hex _⟩

end Color

namespace Longhand
variable {p : Longhand}

theorem rereads_word {v : DeclaredValue} {k : Token.Kind} {value : ComponentValue}
    (word : ComponentValue.Word k v.written value)
    (typed : ∀ d : Declaration, d.values = [value] → p.typed d = .ok v) : p.Rereads v where
  free := word.free
  snug := snug_word word.word
  typed := ⟨[value], word.reads.read, fun d values _ => typed d values⟩

theorem rereads_single {kind : SingleKind} {v : PlainValue} (takes : p.kind = .single kind)
    {k : Token.Kind} {value : ComponentValue} (word : ComponentValue.Word k v.written value)
    (typed : kind.typed value = .ok v) : p.Rereads (.plain v) := by
  refine rereads_word word fun d values => ?_
  rw [Longhand.typed, takes, values]
  simp only [typed]
  rfl

def keywords (p : Longhand) : List String :=
  match p.kind with
  | .single (.keyword allowed) => allowed
  | _ => []

/-- The keywords of a property are names, and each is found as itself. -/
theorem keyword_spec (p : Longhand) : ∀ word ∈ p.keywords, word.toList ∈ Kind.ident.language ∧
    (p.keywords.find? fun other => sameIgnoringCase other word) = some word := by
  have every : ∀ q ∈ all, ∀ word ∈ q.keywords, word.toList ∈ Kind.ident.language ∧
      (q.keywords.find? fun other => sameIgnoringCase other word) = some word := by
    decide +kernel
  exact every p p.mem_all

theorem rereads_keyword {allowed : List String} {word : String}
    (takes : p.kind = .single (.keyword allowed)) (among : word ∈ allowed) :
    p.Rereads (.plain (.keyword word)) := by
  have keywords : p.keywords = allowed := by rw [keywords, takes]
  obtain ⟨name, found⟩ := p.keyword_spec word (keywords ▸ among)
  rw [keywords] at found
  have written : ComponentValue.Word .ident word (.ident word) := .bare rfl (by decide) name rfl
  refine rereads_single takes written ?_
  simp [SingleKind.typed, found]

theorem rereads_auto {kind : SingleKind} (takes : p.kind = .single kind)
    (auto : kind = .length true ∨ kind = .number true) : p.Rereads (.plain (.keyword "auto")) := by
  have written : ComponentValue.Word .ident "auto" (.ident "auto") :=
    .bare rfl (by decide) (by decide) rfl
  refine rereads_single takes written ?_
  have same : ComponentValue.isAuto (.ident "auto") = true := by decide
  rcases auto with rfl | rfl <;> simp [SingleKind.typed, same]

theorem rereads_number {auto : Bool} {n : Binary32} (takes : p.kind = .single (.number auto))
    (finite : n.isFinite = true) : p.Rereads (.plain (.number n)) :=
  rereads_single takes (.number finite) (by simp [SingleKind.typed, ComponentValue.isAuto])

theorem suffix_units {unit : LengthUnit} (measures : unit ≠ .number) :
    unit.suffix.toList ∈ units ∧ LengthUnit.ofSuffix? unit.suffix = some unit := by
  have letters {w : List Char} (some : w ≠ []) (all : w.all isLetter = true) : w ∈ units :=
    (Language.mem_add _ _ _).mpr (.inl (Binary32.several_of_all some (List.all_eq_true.mp all)))
  have percent : ['%'] ∈ units := (Language.mem_add _ _ _).mpr (.inr rfl)
  cases unit with
  | number => exact absurd rfl measures
  | percent => exact ⟨percent, by decide⟩
  | px | dp | em | rem =>
      exact ⟨letters (by decide) (by decide), by decide⟩

theorem rereads_scalar {auto : Bool} {s : Scalar} (takes : p.kind = .single (.length auto))
    (finite : s.value.isFinite = true) : p.Rereads (.plain (.scalar s)) := by
  obtain ⟨n, unit⟩ := s
  by_cases single : unit = .number
  · subst single
    have written : ComponentValue.Word .number (n.text ++ "") (.number n) := by
      rw [String.append_empty]
      exact .number finite
    refine rereads_single takes written ?_
    simp [SingleKind.typed, ComponentValue.isAuto, Scalar.ofValue?]
  · obtain ⟨suffix, known⟩ := suffix_units single
    refine rereads_single takes (.dimension finite suffix) ?_
    simp [SingleKind.typed, ComponentValue.isAuto, Scalar.ofValue?, known]

theorem rereads_color {c : Color} (takes : p.kind = .single .color) :
    p.Rereads (.plain (.color c)) := by
  have source : (PlainValue.written (.color c)).toList = '#' :: c.digits := c.text_eq_digits
  have word : (PlainValue.written (.color c)).toList ∈ Kind.hexColor.language := by
    rw [source]
    exact mem_exactly_mul.mpr ⟨_, mem_between_powers.mpr c.digits_spec, rfl⟩
  have found : ComponentValue.ofToken? ⟨.hexColor, PlainValue.written (.color c), [], 0, 1⟩ =
      some (.color (String.ofList c.digits)) := by
    simp [ComponentValue.ofToken?, tail, source]
  refine rereads_single takes (.bare rfl (by decide) word found) ?_
  simp [SingleKind.typed, Color.ofValue?, c.ofHex_digits]

theorem rereads_text {text : String} (takes : p.kind = .text) (free : Commentless text.toList)
    (unquoted : '"' ∉ text.toList) : p.Rereads (.plain (.text text)) := by
  refine rereads_word (.string free unquoted) fun d values => ?_
  rw [Longhand.typed, takes, values]

theorem rereads_list {kind : ListKind} {raw : String} (takes : p.kind = .list kind)
    (some : raw ≠ "") (free : Commentless raw.toList) (snug : Snug raw.toList)
    (read : ∃ values, ComponentValue.ofText raw = .ok values) : p.Rereads (.list kind raw) where
  free := free
  snug := snug
  typed := by
    obtain ⟨values, read⟩ := read
    rw [ComponentValue.ofText_eq_ok, StyleSource.tokens, withoutComments,
      blankComments_commentless free] at read
    refine ⟨values, read, fun d _ same => ?_⟩
    have text : d.requireText = .ok raw := by
      rw [Declaration.requireText_eq_ok, same]
      exact ⟨snug.trimmed_eq.symm, some⟩
    rw [Longhand.typed, takes]
    simp only [text]
    rfl

/-- What a source gave a property is written so that it is read again. -/
theorem Takes.rereads {v : DeclaredValue} (taken : p.Takes v) (printable : v.Printable) :
    p.Rereads v := by
  cases taken with
  | single takes fits =>
      cases fits with
      | keyword among => exact rereads_keyword takes among
      | autoLength => exact rereads_auto takes (.inl rfl)
      | length auto s => exact rereads_scalar takes printable
      | autoNumber => exact rereads_auto takes (.inr rfl)
      | number auto n => exact rereads_number takes printable
      | color c => exact rereads_color takes
  | text takes free => exact rereads_text takes free printable
  | list takes some free snug => exact rereads_list takes some free snug printable

end Longhand
end Cascade
