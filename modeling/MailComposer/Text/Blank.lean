/-!
Blank characters of Unicode (the property `White_Space`), and trimming a text at both ends.
-/
namespace MailComposer.Text

/-- The characters with the property `White_Space`. -/
def isBlank (c : Char) : Bool :=
  let n := c.toNat
  (0x09 ≤ n && n ≤ 0x0D) || n == 0x20 || n == 0x85 || n == 0xA0 || n == 0x1680 ||
    (0x2000 ≤ n && n ≤ 0x200A) || n == 0x2028 || n == 0x2029 || n == 0x202F || n == 0x205F ||
    n == 0x3000

def trimChars (cs : List Char) : List Char :=
  ((cs.dropWhile isBlank).reverse.dropWhile isBlank).reverse

/-- The text without the blanks at its two ends. -/
def trim (s : String) : String := String.ofList (trimChars s.toList)

/-- ASCII capitals become small letters, all else is kept. -/
def lower (s : String) : String := String.ofList (s.toList.map Char.toLower)

def isAllBlank (s : String) : Bool := s.toList.all isBlank

end MailComposer.Text
