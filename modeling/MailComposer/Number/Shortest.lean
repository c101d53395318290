import MailComposer.Number.Binary64

/-!
The decimal with the fewest digits among those that round to a given number, the nearest of them
where there are several, and its text.
-/
namespace MailComposer.Binary64

/-- The decimals `c * 10 ^ exponent`. -/
structure Decimal where
  digits : Nat
  exponent : Int
deriving DecidableEq, Repr

/-- The quarter steps that a number and the two ends of its rounding interval measure. -/
structure Interval where
  lower : Nat
  value : Nat
  upper : Nat
  closed : Bool

/-- Half a gap lies on either side; below a power of two the gap is half as wide. -/
def interval (m e : Nat) : Interval where
  lower := if m = twoPow 52 ∧ 0 < e then (4 * m - 1) * twoPow e else (4 * m - 2) * twoPow e
  value := 4 * m * twoPow e
  upper := (4 * m + 2) * twoPow e
  closed := m % 2 == 0

namespace Interval

/-- Whether `c / scale` quarter steps round to the number. -/
def holds (i : Interval) (c scale : Nat) : Bool :=
  if i.closed then i.lower * scale ≤ c && c ≤ i.upper * scale
  else i.lower * scale < c && c < i.upper * scale

/-- The multiple of `10 ^ k` in the interval next to the number, if one of the two neighbours of
the number is inside. -/
def onGrid? (i : Interval) (k : Int) : Option Decimal :=
  let up := 4 * unit * tenPow k.toNat
  let down := tenPow (-k).toNat
  let c := i.value * down / up
  let below := i.holds (c * up) down
  let above := i.holds ((c + 1) * up) down
  let rest := i.value * down % up
  if below && above then
    if 2 * rest < up ∨ (2 * rest = up ∧ c % 2 = 0) then some ⟨c, k⟩ else some ⟨c + 1, k⟩
  else if below then some ⟨c, k⟩
  else if above then some ⟨c + 1, k⟩
  else none

end Interval

/-- The coarsest decimal grid with a point that rounds to the number gives the fewest digits. -/
def shortest (m e : Nat) : Decimal :=
  if m = 0 then ⟨0, 0⟩
  else ((List.range 640).findSome? fun (i : Nat) => (interval m e).onGrid? (310 - i)).getD ⟨0, 0⟩

def zeros (n : Nat) : String := String.ofList (List.replicate n '0')

/-- Positional from `10 ^ -5` to `10 ^ 16`, else with a signed exponent; always with a mark that
tells it from a whole number. -/
def Decimal.text (d : Decimal) : String :=
  let ds := toString d.digits
  let point := (ds.length : Int) + d.exponent
  if 0 ≤ d.exponent ∧ point ≤ 16 then ds ++ zeros d.exponent.toNat ++ ".0"
  else if 0 < point ∧ point ≤ 16 then
    String.ofList (ds.toList.take point.toNat) ++ "." ++ String.ofList (ds.toList.drop point.toNat)
  else if -5 < point ∧ point ≤ 0 then "0." ++ zeros (-point).toNat ++ ds
  else
    let places := if ds.length = 1 then "" else "." ++ String.ofList (ds.toList.drop 1)
    let power := point - 1
    String.ofList (ds.toList.take 1) ++ places ++ "e" ++ (if power < 0 then "-" else "+") ++
      toString power.natAbs

/-- Shortest text of a finite number; nothing else has one. -/
def text : Binary64 → String
  | .finite s m e => (if s then "-" else "") ++ (shortest m e).text
  | _ => "null"

end MailComposer.Binary64
