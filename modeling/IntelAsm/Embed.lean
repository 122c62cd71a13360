/-
Assembled code as a constant in the source of another program. A request is a
list of tokens: a mode, an optional base address and the assembly source as a
string literal, with commas between them. Its expansion is the tokens of a
block that defines the bytes, or that reports each error.
-/
import IntelAsm.Session.Encode
import IntelAsm.Text.Quoted

namespace IntelAsm.Embed

/-- A token of a request. -/
inductive HostToken where
  | word (text : String)
  | mark (char : Char)
  | literal (text : String)
  | group
deriving DecidableEq, Inhabited

/-- What a request asks for. -/
structure Request where
  mode : Mode
  base : Nat
  source : String
deriving DecidableEq, Inhabited

/-- Why a request has no bytes. -/
inductive EmbedError where
  | missingMode
  | unknownMode (word : String)
  | missingComma
  | missingSource
  | malformedNumber
  | missingText
  | malformedText
  | extraTokens
  | assembly (diagnostic : Diagnostic)
deriving Inhabited

/-- The messages of an error; those of several diagnostics stand alone. -/
def EmbedError.messages : EmbedError → List String
  | .missingMode => ["expected target mode (o16, o32, o64)"]
  | .unknownMode word => ["unknown target mode `" ++ word ++ "`, expected: o16, o32, o64"]
  | .missingComma => ["expected `,`"]
  | .missingSource => ["expected assembly source string"]
  | .malformedNumber => ["invalid integer literal"]
  | .missingText => ["expected string literal"]
  | .malformedText => ["malformed string literal"]
  | .extraTokens => ["unexpected extra tokens after source string"]
  | .assembly (.several ds) => ds.map fun d => "assembly error: " ++ d.message
  | .assembly d => ["assembly error: " ++ d.message]

/-! ## Literals -/

/-- The number of an integer literal. Underscores do not count, and neither does a type behind the
digits. -/
def number? (literal : String) : Option Nat :=
  let (radix, digits) := Numeral.markedRadix (literal.toList.filter (· ≠ '_'))
  Numeral.parse64? radix (digits.takeWhile fun c => c ≠ 'u' ∧ c ≠ 'i')

/-- What a character behind a backslash stands for. Those that stand for nothing keep the
backslash. -/
def escaped (c : Char) : List Char :=
  match c with
  | 'n' => ['\n']
  | 'r' => ['\r']
  | 't' => ['\t']
  | '\\' | '"' | '\'' => [c]
  | '0' => ['\x00']
  | _ => ['\\', c]

/-- The text of the inside of a string literal. A backslash at the end of a line takes the line
break and all blanks behind it away, and `skipping` says that blanks are being taken. -/
def unescapeFrom (skipping : Bool) : List Char → List Char
  | [] => []
  | c :: cs =>
    if skipping && Text.isBlank c then unescapeFrom true cs
    else if c ≠ '\\' then c :: unescapeFrom false cs
    else
      match cs with
      | [] => ['\\']
      | '\n' :: rest => unescapeFrom true rest
      | e :: rest => escaped e ++ unescapeFrom false rest

def unescape (inside : List Char) : List Char := unescapeFrom false inside

/-- The inside of a raw string literal behind its `r`: between a quote with any number of hashes in
front, and a quote with as many behind. -/
def rawInside? (cs : List Char) : Option (List Char) := do
  let fence := cs.takeWhile (· = '#')
  ('"' :: fence).isSuffixOf? (← (fence ++ ['"']).isPrefixOf? cs)

/-- The text that a string literal stands for. -/
def textOf (literal : String) : Except EmbedError String :=
  let inside? (cs : Option (List Char)) : Except EmbedError String :=
    match cs with
    | some cs => .ok (String.ofList cs)
    | none => .error .malformedText
  match literal.toList with
  | 'r' :: cs => inside? (rawInside? cs)
  | '"' :: cs => inside? ((['"'].isSuffixOf? cs).map unescape)
  | _ => .error .missingText

/-! ## Requests -/

/-- The mode at the front. -/
def takeMode : List HostToken → Except EmbedError (Mode × List HostToken)
  | .word "o16" :: rest => .ok (.bits16, rest)
  | .word "o32" :: rest => .ok (.bits32, rest)
  | .word "o64" :: rest => .ok (.bits64, rest)
  | .word w :: _ => .error (.unknownMode w)
  | _ => .error .missingMode

/-- The tokens behind a comma. -/
def takeComma : List HostToken → Except EmbedError (List HostToken)
  | .mark ',' :: rest => .ok rest
  | _ => .error .missingComma

/-- The base address with its comma; without one the base is 0. -/
def takeBase : List HostToken → Except EmbedError (Nat × List HostToken)
  | [] => .error .missingSource
  | .literal text :: rest =>
    if text.toList.head?.any Char.isDigit then
      match number? text with
      | some n => (n, ·) <$> takeComma rest
      | none => .error .malformedNumber
    else .ok (0, .literal text :: rest)
  | tokens => .ok (0, tokens)

/-- The text at the front. -/
def takeText : List HostToken → Except EmbedError (String × List HostToken)
  | .literal text :: rest => (·, rest) <$> textOf text
  | _ => .error .missingText

/-- Behind the source there may be one comma. -/
def takeEnd : List HostToken → Except EmbedError Unit
  | [] | [.mark ','] => .ok ()
  | _ => .error .extraTokens

/-- The request that tokens spell. -/
def Request.ofTokens (tokens : List HostToken) : Except EmbedError Request := do
  let (mode, rest) ← takeMode tokens
  let (base, rest) ← takeBase (← takeComma rest)
  let (source, rest) ← takeText rest
  takeEnd rest
  return ⟨mode, base, source⟩

/-- The bytes of a request. -/
def Request.bytes (q : Request) : Except EmbedError (List UInt8) :=
  (assemble q.source q.mode q.base []).mapError .assembly

/-! ## Expansions -/

/-- The kind of constant that an expansion defines: a reference to bytes, or an array of them. -/
inductive Style where
  | slice
  | array
deriving DecidableEq, Inhabited

/-- Tokens between braces. -/
def block (inside : List String) : List String := "\x7b" :: inside ++ ["\x7d"]

/-- The tokens of bytes, with their commas. -/
def byteTokens (bytes : List UInt8) : List String :=
  (bytes.map fun b => "0x" ++ Text.upperHex [b] ++ "u8").intersperse ","

/-- The block that defines the bytes. -/
def constant (style : Style) (bytes : List UInt8) : List String :=
  let head := match style with
    | .slice => ["&", "[", "u8", "]", "=", "&", "["]
    | .array => ["[", "u8", ";", toString bytes.length, "]", "=", "["]
  block (["const", "BYTES", ":"] ++ head ++ byteTokens bytes ++ ["]", ";", "BYTES"])

/-- The block that reports errors. -/
def report (messages : List String) : List String :=
  block (messages.flatMap fun m => ["compile_error", "!", "(", Text.quoted m, ")", ";"])

/-- The expansion of a request. -/
def expand (style : Style) (tokens : List HostToken) : List String :=
  match Request.ofTokens tokens >>= Request.bytes with
  | .ok bytes => constant style bytes
  | .error e => report e.messages

/-- The reports of an expansion. -/
def expandEvents (tokens : List HostToken) : List Event :=
  match Request.ofTokens tokens with
  | .ok q => assembleEvents q.source q.mode q.base []
  | .error _ => []

end IntelAsm.Embed
