import MailComposer.Json.Reading
import MailComposer.Number.Digits

/-!
The lexemes of JSON text: blanks, literals, numbers and strings. Each reader takes the characters of
the text from its lexeme on and gives what it read with the characters that follow, or none of
them where reading ends.
-/
namespace MailComposer.Json.Lexeme
open Digits (isDigit)

def isSpace (c : Char) : Bool := c == ' ' || c == '\n' || c == '\t' || c == '\r'

def skipSpace (cs : List Char) : List Char := cs.dropWhile isSpace

/-- The fault that the rest of a text shows where some sign was due. -/
def faultAt : List Char → Fault
  | [] => .cutOff
  | _ => .malformed

def literal (word : List Char) (value : Reading) (cs : List Char) : Reading × Option (List Char) :=
  match word, cs with
  | [], cs => (value, some cs)
  | _, [] => (.broken (.both .cutOff), none)
  | w :: word, c :: cs =>
    if w = c then literal word value cs else (.broken (.both .malformed), none)

/-- Takes digits into a number as long as it stays below `2 ^ 64`, and counts those taken. -/
def absorb (n : Nat) : List Char → Nat × Nat
  | [] => (n, 0)
  | c :: cs =>
    let n' := 10 * n + Digits.value c
    if n' < UInt64.size then
      let (m, taken) := absorb n' cs
      (m, taken + 1)
    else (n, 0)

/-- The significand to the nearest number, then scaled by one power of ten (two below `10 ^ -308`),
rounded at each step; nothing when the number is out of range. -/
def scaled (significand : Nat) (exponent : Int) : Option Binary64 :=
  let x := Binary64.ofNat significand
  let k := exponent.natAbs
  if 0 ≤ exponent then
    if x.isZero then some x
    else if 308 < k then none
    else
      let y := x.timesTenPow k
      if y.isFinite then some y else none
  else if k ≤ 308 then some (x.overTenPow k)
  else if k ≤ 616 then some ((x.overTenPow 308).overTenPow (k - 308))
  else some .zero

def signed (negative : Bool) (x : Binary64) : Number :=
  .fractional (if negative then x.negate else x)

def wholeOf (negative : Bool) (n : Nat) : Number :=
  if !negative then .whole n
  else if n = 0 ∨ twoPow 63 < n then signed true (Binary64.ofNat n)
  else .below n

/-- Whole digits past 64 bits only raise the exponent, places past them are dropped. -/
def numberValue (negative : Bool) (whole : List Char) (places : Option (List Char))
    (exponent : Option Int) : Option Number :=
  let (n, taken) := absorb 0 whole
  if places.isNone && exponent.isNone && taken == whole.length then some (wholeOf negative n)
  else
    let (n, lowered) := absorb n (places.getD [])
    (scaled n ((whole.length - taken : Nat) - lowered + exponent.getD 0)).map (signed negative)

/-- A number that ends with the text is cut off for one who reads it. -/
def numberBreak (cs : List Char) : Break := ⟨faultAt cs, .malformed⟩

def numberLexeme (negative : Bool) (whole : List Char) (places : Option (List Char))
    (exponent : Option Int) (cs : List Char) : Reading × Option (List Char) :=
  ((numberValue negative whole places exponent).elim .invalid .number, some cs)

def exponentPart (negative : Bool) (whole : List Char) (places : Option (List Char))
    (cs : List Char) : Reading × Option (List Char) :=
  match cs with
  | c :: r =>
    if c = 'e' ∨ c = 'E' then
      let (lowered, r) := match r with
        | '+' :: r => (false, r)
        | '-' :: r => (true, r)
        | r => (false, r)
      let ds := r.takeWhile isDigit
      if ds.isEmpty then (.broken (numberBreak r), none)
      else
        let e : Int := Digits.toNat ds
        numberLexeme negative whole places (some (if lowered then -e else e)) (r.dropWhile isDigit)
    else numberLexeme negative whole places none cs
  | [] => numberLexeme negative whole places none []

def fractionPart (negative : Bool) (whole : List Char) (cs : List Char) :
    Reading × Option (List Char) :=
  match cs with
  | '.' :: r =>
    let ds := r.takeWhile isDigit
    let r := r.dropWhile isDigit
    if ds.isEmpty then (.broken (numberBreak r), none)
    else exponentPart negative whole (some ds) r
  | cs => exponentPart negative whole none cs

/-- The number after its sign; a leading zero stands alone. -/
def unsignedNumber (negative : Bool) (cs : List Char) : Reading × Option (List Char) :=
  match cs with
  | [] => (.broken (numberBreak []), none)
  | '0' :: r =>
    if (r.head?.any isDigit) then (.broken (.both .malformed), none)
    else fractionPart negative ['0'] r
  | cs =>
    let ds := cs.takeWhile isDigit
    if ds.isEmpty then (.broken (.both .malformed), none)
    else fractionPart negative ds (cs.dropWhile isDigit)

def number (cs : List Char) : Reading × Option (List Char) :=
  match cs with
  | '-' :: r => unsignedNumber true r
  | cs => unsignedNumber false cs

/-- A character of a string, or an escaped unit of UTF-16. -/
inductive Piece where
  | char (c : Char)
  | unit (n : Nat)
deriving DecidableEq, Repr

def hexValue? (c : Char) : Option Nat :=
  if '0' ≤ c ∧ c ≤ '9' then some (c.toNat - '0'.toNat)
  else if 'a' ≤ c ∧ c ≤ 'f' then some (c.toNat - 'a'.toNat + 10)
  else if 'A' ≤ c ∧ c ≤ 'F' then some (c.toNat - 'A'.toNat + 10)
  else none

def unit? (a b c d : Char) : Option Nat := do
  return ((← hexValue? a) * 16 + (← hexValue? b)) * 256 + (← hexValue? c) * 16 + (← hexValue? d)

def escape? (c : Char) : Option Char :=
  match c with
  | '"' => some '"'
  | '\\' => some '\\'
  | '/' => some '/'
  | 'b' => some '\x08'
  | 'f' => some '\x0c'
  | 'n' => some '\n'
  | 'r' => some '\r'
  | 't' => some '\t'
  | _ => none

/-- An escaped unit needs four bytes of text. -/
def unitFault (cs : List Char) : Fault :=
  if (String.ofList (cs.take 4)).utf8ByteSize < 4 then .cutOff else .malformed

/-- The pieces of a string up to its closing quote. -/
def pieces : List Char → List Piece × Except Fault (List Char)
  | [] => ([], .error .cutOff)
  | c :: r =>
    if c = '"' then ([], .ok r)
    else if c = '\\' then
      match r with
      | [] => ([], .error .cutOff)
      | 'u' :: r =>
        match r with
        | a :: b :: c :: d :: r' =>
          match unit? a b c d with
          | some n =>
            let (ps, rest) := pieces r'
            (.unit n :: ps, rest)
          | none => ([], .error (unitFault r))
        | _ => ([], .error (unitFault r))
      | e :: r =>
        match escape? e with
        | some c =>
          let (ps, rest) := pieces r
          (.char c :: ps, rest)
        | none => ([], .error .malformed)
    else if c.toNat < 0x20 then ([], .error .malformed)
    else
      let (ps, rest) := pieces r
      (.char c :: ps, rest)

def isLead (n : Nat) : Bool := 0xD800 ≤ n && n ≤ 0xDBFF

def isTrail (n : Nat) : Bool := 0xDC00 ≤ n && n ≤ 0xDFFF

/-- The characters of a string; a leading surrogate and a trailing one make one character, and
neither stands alone. -/
def joined : List Piece → Option (List Char)
  | [] => some []
  | .char c :: r => (joined r).map (c :: ·)
  | .unit n :: r =>
    if isTrail n then none
    else if isLead n then
      match r with
      | .unit m :: r =>
        if isTrail m then
          (joined r).map (Char.ofNat (0x10000 + (n - 0xD800) * 0x400 + (m - 0xDC00)) :: ·)
        else none
      | _ => none
    else (joined r).map (Char.ofNat n :: ·)

/-- Whether a surrogate is already unpaired when the text goes on after these pieces. -/
def isUnpaired (ps : List Piece) : Bool :=
  match ps.getLast? with
  | some (.unit n) => (joined (if isLead n then ps.dropLast else ps)).isNone
  | _ => (joined ps).isNone

/-- The string after its opening quote, `none` where it stands for no text. -/
def stringBody (cs : List Char) : Except Break (Option String × List Char) :=
  match pieces cs with
  | (ps, .ok rest) => .ok ((joined ps).map String.ofList, rest)
  | (ps, .error fault) => .error ⟨if isUnpaired ps then .malformed else fault, fault⟩

end MailComposer.Json.Lexeme
