/-
Hexadecimal text: numbers with and without the `0x` mark, and bytes as two
digits each, in lower or in upper case.
-/
namespace IntelAsm.Text

/-- The digits of `n` in base 16, in lower case. -/
def hex (n : Nat) : String := String.ofList (Nat.toDigits 16 n)

/-- The digits of `n` in base 16 behind the mark `0x`. -/
def markedHex (n : Nat) : String := "0x" ++ hex n

/-- `s` behind as many copies of `c` as it lacks to `width` characters. -/
def padLeft (width : Nat) (c : Char) (s : String) : String :=
  String.ofList (List.replicate (width - s.length) c) ++ s

/-- `s` in front of as many copies of `c` as it lacks to `width` characters. -/
def padRight (width : Nat) (c : Char) (s : String) : String :=
  s ++ String.ofList (List.replicate (width - s.length) c)

/-- The two digits of a byte, in lower case. -/
def byteDigits (b : UInt8) : List Char :=
  [Nat.digitChar (b.toNat / 16), Nat.digitChar (b.toNat % 16)]

/-- Bytes as lower-case digits without gaps. -/
def lowerHex (bs : List UInt8) : String := String.ofList (bs.flatMap byteDigits)

/-- Bytes as upper-case digits without gaps. -/
def upperHex (bs : List UInt8) : String :=
  String.ofList (bs.flatMap fun b => (byteDigits b).map Char.toUpper)

end IntelAsm.Text
