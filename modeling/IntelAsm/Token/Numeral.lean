/-
Numbers as written. A word that starts with a digit is a number in decimal, in
base 16, 2 or 8 behind `0x`, `0b` or `0o`, or in base 16 in front of `h`. A
mark in front wins over the `h` behind. Numbers stay below 2^127.
-/
namespace IntelAsm.Numeral

/-- The value of a letter or a decimal digit as a digit of a large base. -/
def digit? (c : Char) : Option Nat :=
  if '0' ≤ c ∧ c ≤ '9' then some (c.toNat - '0'.toNat)
  else if 'a' ≤ c ∧ c ≤ 'z' then some (c.toNat - 'a'.toNat + 10)
  else if 'A' ≤ c ∧ c ≤ 'Z' then some (c.toNat - 'A'.toNat + 10)
  else none

/-- The value of a character as a digit of base `radix`. -/
def digitIn? (radix : Nat) (c : Char) : Option Nat :=
  (digit? c).filter (· < radix)

/-- The number that digits continue from `acc`. -/
def continue? (radix : Nat) : Nat → List Char → Option Nat
  | acc, [] => some acc
  | acc, c :: cs => do continue? radix (acc * radix + (← digitIn? radix c)) cs

/-- The number of a non-empty list of digits. -/
def ofDigits? (radix : Nat) : List Char → Option Nat
  | [] => none
  | cs => continue? radix 0 cs

/-- The base of a word and its digits. -/
def radixAndDigits (word : List Char) : Nat × List Char :=
  let suffixed :=
    match word.getLast? with
    | some 'h' | some 'H' => (16, word.dropLast)
    | _ => (10, word)
  match word with
  | '0' :: m :: c :: cs =>
    match m with
    | 'x' | 'X' => (16, c :: cs)
    | 'b' | 'B' => (2, c :: cs)
    | 'o' | 'O' => (8, c :: cs)
    | _ => suffixed
  | _ => suffixed

/-- No number is as large as this. -/
def limit : Nat := 1 <<< 127

/-- The number a word spells. -/
def parse? (word : List Char) : Option Nat :=
  let (radix, digits) := radixAndDigits word
  (ofDigits? radix digits).filter (· < limit)

/-! ## Numbers outside of source text -/

/-- The base of a number that has the mark `0x` in front or none, and its digits. -/
def markedRadix : List Char → Nat × List Char
  | '0' :: 'x' :: ds | '0' :: 'X' :: ds => (16, ds)
  | ds => (10, ds)

/-- A number of 64 bits. A plus sign may stand in front. -/
def parse64? (radix : Nat) : List Char → Option Nat
  | '+' :: ds => (ofDigits? radix ds).filter (· < UInt64.size)
  | ds => (ofDigits? radix ds).filter (· < UInt64.size)

end IntelAsm.Numeral
