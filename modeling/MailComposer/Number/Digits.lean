/-!
Decimal digits and the natural number that a row of them stands for.
-/
namespace MailComposer.Digits

def isDigit (c : Char) : Bool := c.isDigit

def value (c : Char) : Nat := c.toNat - '0'.toNat

/-- The number written by a row of digits, the highest first. -/
def toNat (ds : List Char) : Nat := ds.foldl (fun n c => 10 * n + value c) 0

/-- A row of digits at the start of a text, and what follows it. -/
def split (cs : List Char) : List Char × List Char := (cs.takeWhile isDigit, cs.dropWhile isDigit)

end MailComposer.Digits
