/-! # Quoted text

String literals are written between double quotes. The quote, the backslash,
the newline, the carriage return and the tab have escapes of two characters;
every other control character is a backslash, a `u` and four hexadecimal digits.
All else stands for itself.
-/

namespace BigLower

namespace Quoted

/-- The control characters: the two blocks of code points below the printable ones. -/
def isControl (c : Char) : Bool :=
  c.toNat < 0x20 || (0x7F ≤ c.toNat && c.toNat < 0xA0)

def hexDigit (n : Nat) : Char :=
  if n < 10 then Char.ofNat (48 + n) else Char.ofNat (87 + n)

def hexFour (n : Nat) : List Char :=
  [hexDigit (n / 4096 % 16), hexDigit (n / 256 % 16), hexDigit (n / 16 % 16), hexDigit (n % 16)]

def escape (c : Char) : List Char :=
  if c = '"' then ['\\', '"']
  else if c = '\\' then ['\\', '\\']
  else if c = '\n' then ['\\', 'n']
  else if c = '\r' then ['\\', 'r']
  else if c = '\t' then ['\\', 't']
  else if isControl c then '\\' :: 'u' :: hexFour c.toNat
  else [c]

def encode (cs : List Char) : List Char :=
  '"' :: cs.flatMap escape ++ ['"']

def literal (text : String) : String :=
  String.ofList (encode text.toList)

def hexValue? (c : Char) : Option Nat :=
  if '0' ≤ c ∧ c ≤ '9' then some (c.toNat - 48)
  else if 'a' ≤ c ∧ c ≤ 'f' then some (c.toNat - 87)
  else none

/-- Read a literal's inside up to the first quote that no backslash escapes. -/
def decodeBody : List Char → Option (List Char × List Char)
  | [] => none
  | '"' :: rest => some ([], rest)
  | '\\' :: 'n' :: rest => (decodeBody rest).map fun (cs, left) => ('\n' :: cs, left)
  | '\\' :: 'r' :: rest => (decodeBody rest).map fun (cs, left) => ('\r' :: cs, left)
  | '\\' :: 't' :: rest => (decodeBody rest).map fun (cs, left) => ('\t' :: cs, left)
  | '\\' :: 'u' :: a :: b :: c :: d :: rest => do
    let a ← hexValue? a
    let b ← hexValue? b
    let c ← hexValue? c
    let d ← hexValue? d
    let (cs, left) ← decodeBody rest
    return (Char.ofNat (4096 * a + 256 * b + 16 * c + d) :: cs, left)
  | '\\' :: c :: rest =>
    if c = '"' ∨ c = '\\' then (decodeBody rest).map fun (cs, left) => (c :: cs, left) else none
  | c :: rest => if c = '\\' then none else (decodeBody rest).map fun (cs, left) => (c :: cs, left)

def decode : List Char → Option (List Char × List Char)
  | '"' :: rest => decodeBody rest
  | _ => none

end Quoted

end BigLower
