import MailComposer.Number.Binary64

/-!
Magnitudes as they are shown to a reader: at most two decimal places, without trailing zeros.
-/
namespace MailComposer.Binary64

/-- Hundredths of the size of a finite number, a half to the even neighbour. -/
def hundredths : Binary64 → Nat
  | .finite _ m e => roundHalfEven (m * twoPow e * 100) unit
  | _ => 0

/-- Places after the point of `h` hundredths, without trailing zeros. -/
def places (h : Nat) : String :=
  if h % 100 = 0 then ""
  else if h % 10 = 0 then "." ++ toString (h % 100 / 10)
  else "." ++ toString (h % 100 / 10) ++ toString (h % 10)

/-- Two places at most; a zero has no sign, and what is not finite shows as zero. -/
def display (x : Binary64) : String :=
  let h := x.hundredths
  if h = 0 then "0"
  else
    let sign := match x with
      | .finite true .. => "-"
      | _ => ""
    sign ++ toString (h / 100) ++ places h

/-- The nearest whole number from 0 to `limit`, a half counting up. -/
def toWhole (limit : Nat) : Binary64 → Nat
  | .finite false m e => min limit ((2 * (m * twoPow e) + unit) / (2 * unit))
  | .infinite false => limit
  | _ => 0

end MailComposer.Binary64
