/-
From source text to tokens. The scanner walks the characters once and keeps
the place it has reached, counting bytes. Blanks and comments are passed over;
a character that starts no token becomes a token of its own kind, so that only
its statement is refused and not the whole text. The last token is always the
end of input.
-/
import IntelAsm.Error
import IntelAsm.Token
import IntelAsm.Token.Numeral

namespace IntelAsm

/-- Why a text has no tokens. -/
inductive ScanError where
  | openComment
  | badNumber (word : String)
  | unknownEscape
  | openCharacter
deriving DecidableEq, Inhabited

def ScanError.message : ScanError → String
  | .openComment => "unterminated block comment"
  | .badNumber word => "invalid number '" ++ word ++ "'"
  | .unknownEscape => "unknown escape in character literal"
  | .openCharacter => "unterminated character literal"

/-- A place in the text: the line, the offset where that line starts, and the offset reached. -/
structure Cursor where
  line : UInt32
  lineStart : Nat
  offset : Nat
deriving DecidableEq, Inhabited

namespace Cursor

/-- The place in front of the first character. -/
def start : Cursor := ⟨1, 0, 0⟩

/-- The place after a character. -/
def step (p : Cursor) (c : Char) : Cursor :=
  let offset := p.offset + c.utf8Size
  if c = '\n' then ⟨p.line + 1, offset, offset⟩ else { p with offset }

/-- The place after some characters. -/
def steps (p : Cursor) (cs : List Char) : Cursor := cs.foldl step p

/-- The span of `len` bytes from here. -/
def span (p : Cursor) (len : Nat) : Span :=
  ⟨p.line, .ofNat (p.offset - p.lineStart) + 1, p.offset, len⟩

end Cursor

namespace Token

/-- The characters between the words of a statement. -/
def isBlank (c : Char) : Bool := c = ' ' || c = '\t' || c = '\r'

/-- The characters that start a name. -/
def isWordStart (c : Char) : Bool := c.isAlpha || c = '_'

/-- The characters that a name goes on with. -/
def isWordRest (c : Char) : Bool :=
  c.isAlphanum || c = '_' || c = '.' || c = '$' || c = '@'

/-- The tokens of one character. -/
def punctuation? : Char → Option TokenKind
  | '\n' | ';' => some .newline
  | '/' => some .slash
  | ',' => some .comma
  | '[' => some .openBracket
  | ']' => some .closeBracket
  | '(' => some .openParen
  | ')' => some .closeParen
  | '+' => some .plus
  | '-' => some .minus
  | '*' => some .star
  | '~' => some .tilde
  | ':' => some .colon
  | _ => none

/-- Names that a colon behind them does not turn into a label: `fs:[0]` selects a segment. -/
def isSegmentName (word : List Char) : Bool :=
  Segment.all.any fun s => s.name == (String.ofList word).toLower

/-- The part of a block comment up to and including its end, and what follows. -/
def blockComment? : List Char → Option (List Char × List Char)
  | '*' :: '/' :: rest => some (['*', '/'], rest)
  | c :: cs => (blockComment? cs).map fun (body, rest) => (c :: body, rest)
  | [] => none

/-- The number of UTF-8 bytes of some characters. -/
def byteCount : List Char → Nat
  | [] => 0
  | c :: cs => c.utf8Size + byteCount cs

@[simp] theorem byteCount_append (cs ds : List Char) :
    byteCount (cs ++ ds) = byteCount cs + byteCount ds := by
  induction cs with
  | nil => simp [byteCount]
  | cons c cs ih =>
    simp only [List.cons_append, byteCount, ih]
    omega

/-- One step of the scanner: the characters it consumes, the token they are if they are one, and
the characters that follow. -/
structure Lexeme where
  consumed : List Char
  token : Option (TokenKind × List Char)
  rest : List Char

/-- A scan error at a span of `len` bytes from the place of the step. -/
structure ScanFailure where
  error : ScanError
  len : Nat

/-- Characters that are no token. -/
def Lexeme.skip (consumed rest : List Char) : Lexeme := ⟨consumed, none, rest⟩

/-- Characters that are a token with themselves as text. -/
def Lexeme.plain (kind : TokenKind) (consumed rest : List Char) : Lexeme :=
  ⟨consumed, some (kind, consumed), rest⟩

/-- The character an escape stands for. -/
def escape? : Char → Option Char
  | 'n' => some '\n'
  | 't' => some '\t'
  | 'r' => some '\r'
  | '0' => some '\x00'
  | '\\' => some '\\'
  | '\'' => some '\''
  | _ => none

/-- A character literal, behind its opening quote. Its text shows the character it stands for; only
a character of one byte has a closing quote right behind it. -/
def characterLiteral : List Char → Except ScanFailure Lexeme
  | '\\' :: e :: cs =>
    match escape? e with
    | none => .error ⟨.unknownEscape, 3⟩
    | some c =>
      match cs with
      | '\'' :: rest => .ok (literal c ['\'', '\\', e, '\''] rest)
      | _ => .error ⟨.openCharacter, 3⟩
  | '\n' :: _ => .error ⟨.openCharacter, 1⟩
  | [] => .error ⟨.openCharacter, 1⟩
  | c :: cs =>
    match cs with
    | '\'' :: rest =>
      if c.utf8Size = 1 then .ok (literal c ['\'', c, '\''] rest) else .error ⟨.openCharacter, 2⟩
    | _ => .error ⟨.openCharacter, 2⟩
where
  /-- The token of a character literal. -/
  literal (c : Char) (consumed rest : List Char) : Lexeme :=
    ⟨consumed, some (.number c.toNat, ['\'', c, '\'']), rest⟩

/-- A word that starts with a digit. -/
def numberWord (c : Char) (cs : List Char) : Except ScanFailure Lexeme :=
  let word := c :: cs.takeWhile Char.isAlphanum
  match Numeral.parse? word with
  | some n => .ok (.plain (.number n) word (cs.dropWhile Char.isAlphanum))
  | none => .error ⟨.badNumber (String.ofList word), byteCount word⟩

/-- A name, or a label definition if a colon follows and the name is no segment. The colon belongs
to no token. -/
def nameWord (c : Char) (cs : List Char) : Lexeme :=
  let word := c :: cs.takeWhile isWordRest
  match cs.dropWhile isWordRest with
  | ':' :: rest =>
    if isSegmentName word then .plain .ident word (':' :: rest)
    else ⟨word ++ [':'], some (.labelDef, word), rest⟩
  | rest => .plain .ident word rest

/-- A comment up to the end of the line, which it does not include. -/
def lineComment (c : Char) (cs : List Char) : Lexeme :=
  .skip (c :: cs.takeWhile (· ≠ '\n')) (cs.dropWhile (· ≠ '\n'))

/-- The step of the scanner at the characters `c :: cs`. -/
def lexeme (c : Char) (cs : List Char) : Except ScanFailure Lexeme :=
  if isBlank c then .ok (.skip [c] cs)
  else if c = '#' then .ok (lineComment c cs)
  else if c = '/' ∧ cs.head? = some '/' then .ok (lineComment c cs)
  else if c = '/' ∧ cs.head? = some '*' then
    match blockComment? cs.tail with
    | some (body, rest) => .ok (.skip (c :: '*' :: body) rest)
    | none => .error ⟨.openComment, 2⟩
  else if c = '\'' then characterLiteral cs
  else if c = '.' then
    .ok (.plain .directive (c :: cs.takeWhile isWordRest) (cs.dropWhile isWordRest))
  else if c.isDigit then numberWord c cs
  else if isWordStart c then .ok (nameWord c cs)
  else .ok (.plain ((punctuation? c).getD .unknown) [c] cs)

/-- The tokens of the rest of a text that is reached at `p`. `fuel` bounds the number of steps, of
which each consumes a character. -/
def scanFrom : Nat → Cursor → List Char → Except Diagnostic (List Token)
  | 0, p, _ => .ok [⟨.eof, "", p.span 0⟩]
  | _, p, [] => .ok [⟨.eof, "", p.span 0⟩]
  | fuel + 1, p, c :: cs =>
    match lexeme c cs with
    | .error e => .error (.malformed e.error.message (p.span e.len))
    | .ok l => do
      let tokens ← scanFrom fuel (p.steps l.consumed) l.rest
      match l.token with
      | none => return tokens
      | some (kind, text) =>
        return ⟨kind, String.ofList text, p.span (byteCount (spanned l))⟩ :: tokens
where
  /-- The characters a token's span covers: all but the colon of a label definition. -/
  spanned (l : Lexeme) : List Char :=
    match l.token with
    | some (.labelDef, name) => name
    | _ => l.consumed

/-- The tokens of a text. -/
def scan (source : String) : Except Diagnostic (List Token) :=
  let cs := source.toList
  scanFrom cs.length .start cs

end Token
end IntelAsm
