/-!
# Quoted bytes

The string constants of a listing: bytes between double quotes, with printable ASCII standing for
itself and everything else escaped.

* `Quoted.encodeByte`, `Quoted.encode` — the written form.
* `Quoted.decode?` — reads a written form back and says what follows its closing quote.
-/

set_option autoImplicit false

namespace PatternMachine.Quoted

/-- The lowercase hexadecimal digit of a number below 16. -/
def hexDigit (n : Nat) : Char :=
  if n < 10 then Char.ofNat (48 + n) else Char.ofNat (87 + n)

/-- The number that a lowercase hexadecimal digit stands for. -/
def hexValue? (c : Char) : Option Nat :=
  if 48 ≤ c.toNat ∧ c.toNat ≤ 57 then some (c.toNat - 48)
  else if 97 ≤ c.toNat ∧ c.toNat ≤ 102 then some (c.toNat - 87)
  else none

/-- The written form of one byte: a short escape where there is one, the character itself if it is
printable ASCII, and otherwise its two hexadecimal digits. -/
def encodeByte (b : UInt8) : List Char :=
  if b = 92 then ['\\', '\\']
  else if b = 34 then ['\\', '"']
  else if b = 10 then ['\\', 'n']
  else if b = 13 then ['\\', 'r']
  else if b = 9 then ['\\', 't']
  else if b = 0 then ['\\', '0']
  else if 32 ≤ b ∧ b ≤ 126 then [Char.ofNat b.toNat]
  else ['\\', 'x', hexDigit (b.toNat / 16), hexDigit (b.toNat % 16)]

/-- The written form of a byte string, quotes included. -/
def encode (bytes : List UInt8) : List Char :=
  '"' :: (bytes.flatMap encodeByte ++ ['"'])

/-- The written form of a byte string as text. -/
def text (bytes : List UInt8) : String := String.ofList (encode bytes)

/-- The byte that the escape letter `c` stands for. -/
def shortEscape? (c : Char) : Option UInt8 :=
  if c = '\\' then some 92
  else if c = '"' then some 34
  else if c = 'n' then some 10
  else if c = 'r' then some 13
  else if c = 't' then some 9
  else if c = '0' then some 0
  else none

/-- Reads up to the closing quote: the bytes before it and the text after it. A character that
begins no escape stands for itself, that is, for its bytes in UTF-8. -/
def decodeBody? : List Char → Option (List UInt8 × List Char)
  | [] => none
  | '"' :: rest => some ([], rest)
  | '\\' :: 'x' :: high :: low :: rest => do
    let h ← hexValue? high
    let l ← hexValue? low
    let (bytes, rest) ← decodeBody? rest
    some (UInt8.ofNat (16 * h + l) :: bytes, rest)
  | '\\' :: c :: rest => do
    let b ← shortEscape? c
    let (bytes, rest) ← decodeBody? rest
    some (b :: bytes, rest)
  | c :: rest => do
    let (bytes, rest) ← decodeBody? rest
    some (String.utf8EncodeChar c ++ bytes, rest)

/-- Reads a written form at the start of a text: its bytes and the text that follows it. -/
def decode? : List Char → Option (List UInt8 × List Char)
  | '"' :: rest => decodeBody? rest
  | _ => none

end PatternMachine.Quoted
