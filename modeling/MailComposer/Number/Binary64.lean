import MailComposer.Number.Power

/-!
Numbers of the IEEE 754 format binary64, written as whole multiples of its smallest step, and the
rounding of a quotient to the nearest of them.
-/
namespace MailComposer

/-- A finite number is `significand * 2 ^ shift` steps of `2 ^ -1074`. -/
inductive Binary64 where
  | finite (negative : Bool) (significand shift : Nat)
  | infinite (negative : Bool)
  | nan
deriving DecidableEq, Repr

namespace Binary64

/-- The number of steps in one. -/
def unit : Nat := twoPow 1074

def zero : Binary64 := .finite false 0 0

def negate : Binary64 → Binary64
  | .finite s m e => .finite (!s) m e
  | .infinite s => .infinite (!s)
  | .nan => .nan

def isFinite : Binary64 → Bool
  | .finite .. => true
  | _ => false

def isZero : Binary64 → Bool
  | .finite _ m _ => m == 0
  | _ => false

/-- The quotient to the nearest whole number, a half to the even neighbour. -/
def roundHalfEven (num den : Nat) : Nat :=
  let q := num / den
  let r := num % den
  if 2 * r < den then q
  else if den < 2 * r then q + 1
  else if q % 2 = 0 then q else q + 1

/-- The number nearest to `num / den`: 53 binary digits, or all that the smallest step leaves. -/
def nearest (negative : Bool) (num den : Nat) : Binary64 :=
  let steps := num * unit
  let shift := (steps / den).log2 - 52
  let m := roundHalfEven steps (den * twoPow shift)
  let (m, shift) := if m = twoPow 53 then (twoPow 52, shift + 1) else (m, shift)
  if 2045 < shift then .infinite negative else .finite negative m shift

def ofNat (n : Nat) : Binary64 := nearest false n 1

/-- The number nearest to `digits * 10 ^ (-places)`. -/
def ofDecimal (negative : Bool) (digits places : Nat) : Binary64 :=
  nearest negative digits (tenPow places)

/-- The product with the number nearest to a power of ten, rounded once more. -/
def timesTenPow : Binary64 → Nat → Binary64
  | .finite s m e, k =>
    match ofNat (tenPow k) with
    | .finite _ m' e' => nearest s (m * m' * twoPow (e + e')) (unit * unit)
    | _ => if m = 0 then .nan else .infinite s
  | x, _ => x

/-- The quotient by the number nearest to a power of ten, rounded once more. -/
def overTenPow : Binary64 → Nat → Binary64
  | .finite s m e, k =>
    match ofNat (tenPow k) with
    | .finite _ m' e' => nearest s (m * twoPow e) (m' * twoPow e')
    | _ => .finite s 0 0
  | x, _ => x

def ofBits (w : Nat) : Binary64 :=
  let negative := (w / twoPow 63) % 2 == 1
  let exponent := (w / twoPow 52) % twoPow 11
  let fraction := w % twoPow 52
  if exponent = 2047 then
    if fraction = 0 then .infinite negative else .nan
  else if exponent = 0 then .finite negative fraction 0
  else .finite negative (twoPow 52 + fraction) (exponent - 1)

def toBits : Binary64 → Nat
  | .finite s m e =>
    (if s then twoPow 63 else 0) +
      if m < twoPow 52 then m else (e + 1) * twoPow 52 + (m - twoPow 52)
  | .infinite s => (if s then twoPow 63 else 0) + 2047 * twoPow 52
  | .nan => 2047 * twoPow 52 + twoPow 51

end Binary64

end MailComposer
