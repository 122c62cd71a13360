/-
Tokens of the assembly language. A token keeps the text it was read from and
its place; a number also its value. Line ends and semicolons are the same
token, since both end a statement.
-/
import IntelAsm.Span

namespace IntelAsm

/-- What a token is. -/
inductive TokenKind where
  | ident
  | number (value : Nat)
  | directive
  | labelDef
  | comma
  | openBracket
  | closeBracket
  | openParen
  | closeParen
  | plus
  | minus
  | star
  | slash
  | tilde
  | colon
  | unknown
  | newline
  | eof
deriving DecidableEq, Inhabited

namespace TokenKind

/-- Whether a statement ends in front of the token. -/
def endsStatement : TokenKind → Bool
  | .newline | .eof => true
  | _ => false

end TokenKind

/-- A token with its text and its place. -/
structure Token where
  kind : TokenKind
  text : String
  span : Span
deriving DecidableEq, Inhabited

/-- How messages name a token. -/
def Token.shown (t : Token) : String :=
  match t.kind with
  | .newline => "end of line"
  | .eof => "end of input"
  | _ => t.text

end IntelAsm
