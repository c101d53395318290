/-!
Powers of the two bases in which magnitudes are written down.
-/
namespace MailComposer

def twoPow (k : Nat) : Nat := Nat.pow 2 k

def tenPow (k : Nat) : Nat := Nat.pow 10 k

end MailComposer
