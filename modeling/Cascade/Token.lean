import Cascade.Text
/-!
Tokens of style sheet text.

A token keeps the text that was dropped before it, its gap: white space and characters that start
no token. Gaps and texts of consecutive tokens, in order, are the source again, so that a stretch
of source is spelled from its tokens and two tokens touch exactly when the gap between them is
empty.
-/
namespace Cascade

inductive Token.Kind where
  | important | hexColor | dimension | pseudoClass | atKeyword | doubleQuoted | singleQuoted
  | number | ident | braceOpen | braceClose | parenOpen | parenClose | colon | semicolon | comma
  | dot | hash | star | greaterThan | plus | tilde | slash
  deriving DecidableEq, Inhabited

def Token.Kind.name : Token.Kind → String
  | .important => "Important"
  | .hexColor => "HexColor"
  | .dimension => "Dimension"
  | .pseudoClass => "PseudoClass"
  | .atKeyword => "AtKeyword"
  | .doubleQuoted => "StringLiteral"
  | .singleQuoted => "StringLiteralSingle"
  | .number => "Number"
  | .ident => "Ident"
  | .braceOpen => "BraceOpen"
  | .braceClose => "BraceClose"
  | .parenOpen => "ParenOpen"
  | .parenClose => "ParenClose"
  | .colon => "Colon"
  | .semicolon => "Semicolon"
  | .comma => "Comma"
  | .dot => "Dot"
  | .hash => "Hash"
  | .star => "Star"
  | .greaterThan => "GreaterThan"
  | .plus => "Plus"
  | .tilde => "Tilde"
  | .slash => "Slash"

/-- A token and its place: its index among the tokens of the source, and its 1-based line. Lines
have no bound; a count of 32 bits is the same in a source of less than `2 ^ 32` lines. -/
structure Token where
  kind : Token.Kind
  text : String
  gap : List Char
  position : Nat
  line : Nat
  deriving DecidableEq, Inhabited

namespace Token

def touches (t : Token) : Bool := t.gap.isEmpty

/-- The text less its first character: a name without its `:`, `@` or `#`. -/
def tail (t : Token) : String := String.ofList (t.text.toList.drop 1)

def inner (t : Token) : String := String.ofList (t.text.toList.drop 1).dropLast

/-- The source that a run of tokens covers, the gap before the first one included. -/
def spelling (tokens : List Token) : List Char := tokens.flatMap fun t => t.gap ++ t.text.toList

/-- The source from the start of the first token to the end of the last. -/
def excerpt : List Token → List Char
  | [] => []
  | t :: rest => t.text.toList ++ spelling rest

end Token
end Cascade

/-! Comments. A comment becomes one blank and the newlines it held, so that lines keep their numbers
and tokens around a comment stay apart. A comment that is not closed runs to the end. Quotes do
not hide the marks of a comment. -/
namespace Cascade.Token

/-- The text with its comments blanked out; `inside` says whether it begins within one. -/
def blankComments : (inside : Bool) → List Char → List Char
  | _, [] => []
  | false, '/' :: '*' :: rest => ' ' :: blankComments true rest
  | false, c :: rest => c :: blankComments false rest
  | true, '*' :: '/' :: rest => blankComments false rest
  | true, c :: rest =>
    if c = '\n' then c :: blankComments true rest else blankComments true rest

def withoutComments (cs : List Char) : List Char := blankComments false cs

/-! Lexing: the longest token at each place, and what is dropped between tokens.
`extent?` looks at one place of the text; `tokensFrom` walks the text. White space and a character
that starts no token go to the gap of the next token; a quote that is never closed takes the rest
of the text with it. -/
open Cascade.Text

def startsName (c : Char) : Bool := isLetter c || c == '_'

def continuesName (c : Char) : Bool := isLetter c || isDigit c || c == '_' || c == '-'

def runLength (belongs : Char → Bool) (cs : List Char) : Nat := (cs.takeWhile belongs).length

/-- The length of the decimal at the front: digits, then a point and digits if both are there. -/
def decimalLength (cs : List Char) : Nat :=
  let whole := runLength isDigit cs
  match cs.drop whole with
  | '.' :: rest => if runLength isDigit rest = 0 then whole else whole + 1 + runLength isDigit rest
  | _ => whole

/-- The number at the front with the unit that touches it, letters or a percent sign. -/
def numeric (cs : List Char) : Kind × Nat :=
  let number := decimalLength cs
  let letters := runLength isLetter (cs.drop number)
  if letters ≠ 0 then (.dimension, number + letters)
  else match cs.drop number with
    | '%' :: _ => (.dimension, number + 1)
    | _ => (.number, number)

def punctuation? : Char → Option Kind
  | '{' => some .braceOpen
  | '}' => some .braceClose
  | '(' => some .parenOpen
  | ')' => some .parenClose
  | ':' => some .colon
  | ';' => some .semicolon
  | ',' => some .comma
  | '.' => some .dot
  | '#' => some .hash
  | '*' => some .star
  | '>' => some .greaterThan
  | '+' => some .plus
  | '~' => some .tilde
  | '/' => some .slash
  | _ => none

def markedName? (kind : Kind) : List Char → Option (Kind × Nat)
  | [] => none
  | c :: rest => if isLetter c then some (kind, runLength continuesName rest + 1) else none

def quoted? (kind : Kind) (quote : Char) (rest : List Char) : Option (Kind × Nat) :=
  let inside := runLength (· != quote) rest
  if inside < rest.length then some (kind, inside + 1) else none

/-- The longest token that begins with `c`, given what follows `c`: its kind and how many of the
following characters belong to it. -/
def extent? (c : Char) (rest : List Char) : Option (Kind × Nat) :=
  if isDigit c then
    let (kind, length) := numeric (c :: rest)
    some (kind, length - 1)
  else if startsName c then some (.ident, runLength continuesName rest)
  else if c = '-' then
    match rest with
    | [] => none
    | d :: more =>
      if isDigit d then some (numeric rest)
      else if startsName d then some (.ident, runLength continuesName more + 1) else none
  else if c = '!' then
    if "important".toList.isPrefixOf rest then some (.important, "important".length) else none
  else if c = '#' then
    let digits := min 8 (runLength isHexDigit rest)
    if 3 ≤ digits then some (.hexColor, digits) else some (.hash, 0)
  else if c = ':' then (markedName? .pseudoClass rest).or (some (.colon, 0))
  else if c = '@' then markedName? .atKeyword rest
  else if c = '"' then quoted? .doubleQuoted c rest
  else if c = '\'' then quoted? .singleQuoted c rest
  else (punctuation? c).map fun kind => (kind, 0)

/-- A quote that starts no token is one that is never closed. -/
def isQuote (c : Char) : Bool := c == '"' || c == '\''

def newlines (cs : List Char) : Nat := cs.count '\n'

/-- The tokens of a text, given the gap collected so far (last character first), the number of the
next token and the line it would be on if it began here. -/
def tokensFrom (gap : List Char) (position line : Nat) : List Char → List Token
  | [] => []
  | c :: rest =>
    match extent? c rest with
    | some (kind, more) =>
      { kind, text := String.ofList (c :: rest.take more), gap := gap.reverse, position, line } ::
        tokensFrom [] (position + 1) (line + newlines (c :: rest.take more)) (rest.drop more)
    | none =>
      if isQuote c then []
      else tokensFrom (c :: gap) position (if c = '\n' then line + 1 else line) rest
termination_by cs => cs.length

def tokens (cs : List Char) : List Token := tokensFrom [] 0 1 cs

end Cascade.Token
