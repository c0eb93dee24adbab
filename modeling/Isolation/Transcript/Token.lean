import Isolation.Text.Alphanumeric
import Isolation.Total

/-!
# Tokens of a Transcript

The tokens serve editors and error messages. A transcript is cut from left to right; at every place
the longest lexeme of some kind is taken, and a character that starts no lexeme is *stray* and stands
for itself. Nothing is lost: the lexemes and the stray characters, in order, are the text.

Only ASCII letters make identifiers here, although a transcript accepts keys in every script. A key
that the reader takes can therefore consist of stray characters, and the reader of transcripts is
aware of that when it looks for the place of an error.

Offsets count bytes of the UTF-8 form of the text, so that other tools can use them.

## Main definitions

* `pieces`, `tokens`, `firstStray?`: A text cut into tokens and stray characters, and the two views of
  it.
-/

namespace Isolation.Transcript

/-- Kinds of tokens. -/
inductive TokenKind where
  | comment
  /-- A run of dashes, which separates sessions. -/
  | dash
  | bracketOpen
  | bracketClose
  | assign
  | equals
  | initial
  | uncommitted
  | ident
  | integer
  | newline
  | whitespace
deriving DecidableEq, Repr

/-- Comments and blanks carry no structure. -/
def TokenKind.isTrivia : TokenKind → Bool
  | .comment | .whitespace => true
  | _ => false

def isBlank (c : Char) : Bool :=
  c == ' ' || c == '\t'

def isLineBreak (c : Char) : Bool :=
  c == '\r' || c == '\n'

def isIdentStart (c : Char) : Bool :=
  c.isAlpha || c == '_'

def isIdentChar (c : Char) : Bool :=
  c.isAlphanum || c == '_'

/-- The token at the front of a text: its kind and its characters. -/
def lexeme? : List Char → Option (TokenKind × List Char)
  | '/' :: '/' :: rest => some (.comment, '/' :: '/' :: rest.takeWhile (!isLineBreak ·))
  | '[' :: _ => some (.bracketOpen, ['['])
  | ']' :: _ => some (.bracketClose, [']'])
  | ':' :: '=' :: _ => some (.assign, [':', '='])
  | '=' :: '=' :: _ => some (.equals, ['=', '='])
  | '?' :: _ => some (.initial, ['?'])
  | '!' :: _ => some (.uncommitted, ['!'])
  | '\n' :: _ => some (.newline, ['\n'])
  | '\r' :: '\n' :: _ => some (.newline, ['\r', '\n'])
  | c :: rest =>
    if c == '-' then some (.dash, c :: rest.takeWhile (· == '-'))
    else if isIdentStart c then some (.ident, c :: rest.takeWhile isIdentChar)
    else if c.isDigit then some (.integer, c :: rest.takeWhile Char.isDigit)
    else if isBlank c then some (.whitespace, c :: rest.takeWhile isBlank)
    else none
  | [] => none

/-- A part of a text: a token, or a character that belongs to none. -/
inductive Piece where
  | token (kind : TokenKind) (lexeme : List Char)
  | stray (c : Char)
deriving DecidableEq

def Piece.chars : Piece → List Char
  | .token _ lexeme => lexeme
  | .stray c => [c]

/-- A text cut into pieces from left to right. -/
def pieces : List Char → List Piece
  | [] => []
  | c :: rest =>
    match lexeme? (c :: rest) with
    | some (kind, lexeme) => .token kind lexeme :: pieces (rest.drop (lexeme.length - 1))
    | none => .stray c :: pieces rest
termination_by text => text.length

def byteLength (text : List Char) : Nat :=
  total Char.utf8Size text

/-- A token with its place in the text. -/
structure Token where
  kind : TokenKind
  start : Nat
  stop : Nat
  text : String
deriving DecidableEq

/-- The tokens among pieces, the first of which starts at the given byte. -/
def tokensFrom (start : Nat) : List Piece → List Token
  | [] => []
  | piece :: rest =>
    let stop := start + byteLength piece.chars
    match piece with
    | .token kind lexeme => ⟨kind, start, stop, String.ofList lexeme⟩ :: tokensFrom stop rest
    | .stray _ => tokensFrom stop rest

/-- The tokens of a text; stray characters are skipped. -/
def tokens (text : List Char) : List Token :=
  tokensFrom 0 (pieces text)

def Piece.isToken : Piece → Bool
  | .token .. => true
  | .stray _ => false

/-- The first stray character of a text, with the text before it. -/
def firstStray? (text : List Char) : Option (List Char × Char) :=
  let cut := pieces text
  match cut.dropWhile Piece.isToken with
  | .stray c :: _ => some ((cut.takeWhile Piece.isToken).flatMap Piece.chars, c)
  | _ => none

end Isolation.Transcript
