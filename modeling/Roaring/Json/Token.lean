/-!
# Tokens of JSON text

A text is scanned one character at a time. The scanner's state says which token it is inside of,
so scanning is a fold over the characters and ends with them. Numbers are checked against the
grammar and evaluated only where they are written as plain digits; a string is kept as its code
points, in which an escape may have left a lone surrogate.
-/
namespace Roaring.Json

/-- A token of JSON text. -/
inductive Token where
  | openObject
  | closeObject
  | openArray
  | closeArray
  | comma
  | colon
  | null
  | bool (value : Bool)
  /-- The number's value when it is written as digits alone, without sign, point or exponent. -/
  | number (natural : Option Nat)
  /-- The code points of the string, surrogates that escapes denote included. -/
  | string (points : List Nat)
deriving DecidableEq

/-- Where the scanner stands. -/
inductive Scan where
  | between
  /-- Inside a word, before the characters `rest`. -/
  | word (rest : List Char) (token : Token)
  /-- After a minus sign. -/
  | minus
  /-- After a leading zero, which no digit may follow. -/
  | zero (negative : Bool)
  | digits (negative : Bool) (value : Nat)
  /-- After a decimal point, which a digit must follow. -/
  | point
  | fraction
  /-- After the exponent letter. -/
  | exponent
  /-- After the sign of the exponent. -/
  | exponentSign
  | exponentDigits
  /-- Inside a string; the newest code point comes first. -/
  | text (points : List Nat)
  /-- After a backslash. -/
  | escape (points : List Nat)
  /-- Inside a four digit escape of which `left` digits are missing. -/
  | hex (left code : Nat) (points : List Nat)

def isBlank (c : Char) : Bool := c = ' ' || c = '\t' || c = '\n' || c = '\r'

/-- The digit's value in base sixteen, in either case. -/
def hexDigit? (c : Char) : Option Nat :=
  if '0' ≤ c ∧ c ≤ '9' then some (c.toNat - '0'.toNat)
  else if 'a' ≤ c ∧ c ≤ 'f' then some (c.toNat - 'a'.toNat + 10)
  else if 'A' ≤ c ∧ c ≤ 'F' then some (c.toNat - 'A'.toNat + 10)
  else none

/-- The code point denoted by the character after a backslash, the four digit form apart. -/
def escaped? : Char → Option Nat
  | '"' => some 0x22
  | '\\' => some 0x5c
  | '/' => some 0x2f
  | 'b' => some 0x08
  | 'f' => some 0x0c
  | 'n' => some 0x0a
  | 'r' => some 0x0d
  | 't' => some 0x09
  | _ => none

namespace Scan

/-- The token that ends where the scanner stands, if one may end there. -/
def finished? : Scan → Option (List Token)
  | between => some []
  | zero negative => some [.number (if negative then none else some 0)]
  | digits negative value => some [.number (if negative then none else some value)]
  | fraction => some [.number none]
  | exponentDigits => some [.number none]
  | _ => none

/-- The first character of a token, or a blank between tokens. -/
def begin? (c : Char) : Option (List Token × Scan) :=
  if isBlank c then some ([], .between)
  else if '1' ≤ c ∧ c ≤ '9' then some ([], .digits false (c.toNat - '0'.toNat))
  else match c with
    | '\x7b' => some ([.openObject], .between)
    | '\x7d' => some ([.closeObject], .between)
    | '[' => some ([.openArray], .between)
    | ']' => some ([.closeArray], .between)
    | ',' => some ([.comma], .between)
    | ':' => some ([.colon], .between)
    | '"' => some ([], .text [])
    | '-' => some ([], .minus)
    | '0' => some ([], .zero false)
    | 't' => some ([], .word ['r', 'u', 'e'] (.bool true))
    | 'f' => some ([], .word ['a', 'l', 's', 'e'] (.bool false))
    | 'n' => some ([], .word ['u', 'l', 'l'] .null)
    | _ => none

/-- A character that does not continue the token before it: that token ends, another begins. -/
def next? (s : Scan) (c : Char) : Option (List Token × Scan) := do
  let ended ← s.finished?
  let (begun, s') ← begin? c
  return (ended ++ begun, s')

/-- One character further: the tokens completed by it, and where the scanner stands then. -/
def step? (s : Scan) (c : Char) : Option (List Token × Scan) :=
  match s with
  | between => s.next? c
  | word (r :: rest) token =>
    if c = r then
      if rest.isEmpty then some ([token], .between) else some ([], .word rest token)
    else none
  | word [] _ => none
  | minus =>
    if c = '0' then some ([], .zero true)
    else if '1' ≤ c ∧ c ≤ '9' then some ([], .digits true (c.toNat - '0'.toNat))
    else none
  | zero _ =>
    if c = '.' then some ([], .point)
    else if c = 'e' ∨ c = 'E' then some ([], .exponent)
    else if c.isDigit then none
    else s.next? c
  | digits negative value =>
    if c.isDigit then some ([], .digits negative (10 * value + (c.toNat - '0'.toNat)))
    else if c = '.' then some ([], .point)
    else if c = 'e' ∨ c = 'E' then some ([], .exponent)
    else s.next? c
  | point => if c.isDigit then some ([], .fraction) else none
  | fraction =>
    if c.isDigit then some ([], .fraction)
    else if c = 'e' ∨ c = 'E' then some ([], .exponent)
    else s.next? c
  | exponent =>
    if c = '+' ∨ c = '-' then some ([], .exponentSign)
    else if c.isDigit then some ([], .exponentDigits)
    else none
  | exponentSign => if c.isDigit then some ([], .exponentDigits) else none
  | exponentDigits => if c.isDigit then some ([], .exponentDigits) else s.next? c
  | text points =>
    if c = '"' then some ([.string points.reverse], .between)
    else if c = '\\' then some ([], .escape points)
    else if c.toNat < 0x20 then none
    else some ([], .text (c.toNat :: points))
  | escape points =>
    if c = 'u' then some ([], .hex 4 0 points)
    else (escaped? c).map fun p => ([], .text (p :: points))
  | hex left code points => do
    let code := 16 * code + (← hexDigit? c)
    return ([], if left ≤ 1 then .text (code :: points) else .hex (left - 1) code points)

/-- The tokens of `cs` after those of `seen`, which holds the newest first. -/
def run? (s : Scan) (seen : List Token) : List Char → Option (List Token)
  | [] => s.finished?.map fun ended => (ended ++ seen).reverse
  | c :: cs =>
    match s.step? c with
    | none => none
    | some (done, s') => run? s' (done.reverse ++ seen) cs

end Scan

/-- The tokens of a text, `none` when a token is malformed. -/
def tokens? (text : String) : Option (List Token) := Scan.between.run? [] text.toList

/-- The characters that code points denote. A high surrogate and the low one after it denote one
character; a surrogate without its partner denotes none. -/
def characters? : List Nat → Option (List Char)
  | [] => some []
  | [p] => if 0xd800 ≤ p ∧ p < 0xe000 then none else some [Char.ofNat p]
  | p :: q :: rest =>
    if 0xd800 ≤ p ∧ p < 0xdc00 then
      if 0xdc00 ≤ q ∧ q < 0xe000 then
        (characters? rest).map
          (Char.ofNat (0x10000 + (p - 0xd800) * 0x400 + (q - 0xdc00)) :: ·)
      else none
    else if 0xdc00 ≤ p ∧ p < 0xe000 then none
    else (characters? (q :: rest)).map (Char.ofNat p :: ·)

end Roaring.Json
