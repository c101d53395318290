/-!
Sources of component ids: a numbered series under a seed, and ids made of the time of day, a count
and a random ending.
-/
namespace MailComposer

class IdSource (σ : Type) where
  next : σ → String × σ

namespace IdSource

variable {σ : Type} [IdSource σ]

/-- The first ids of a source. -/
def take (s : σ) : Nat → List String × σ
  | 0 => ([], s)
  | n + 1 =>
    let (id, s) := next s
    let (ids, s) := take s n
    (id :: ids, s)

end IdSource

/-- The ids `seed-1`, `seed-2` and so on, as far as the width of the count goes. -/
structure SerialIds where
  seed : String
  count : UInt32
deriving DecidableEq, Repr

namespace SerialIds

def ofSeed (seed : String) : SerialIds := ⟨seed, 0⟩

instance : IdSource SerialIds where
  next s := (s.seed ++ "-" ++ toString (s.count + 1), { s with count := s.count + 1 })

end SerialIds

/-- A reading of the clock in milliseconds, and six places drawn from the alphabet. -/
structure Moment where
  time : Nat
  suffix : Vector (Fin 36) 6

/-- Ids that meet no other: the count tells apart those of one source. -/
structure TimedIds where
  count : UInt64
  moments : Nat → Moment

namespace TimedIds

def base36Digit (d : Fin 36) : Char :=
  if d.val < 10 then Char.ofNat ('0'.toNat + d.val) else Char.ofNat ('a'.toNat + (d.val - 10))

def base36Digits (n : Nat) : List Char :=
  if h : n < 36 then [base36Digit ⟨n, h⟩]
  else base36Digits (n / 36) ++ [base36Digit ⟨n % 36, Nat.mod_lt n (by decide)⟩]
termination_by n
decreasing_by omega

def text (count : Nat) (m : Moment) : String :=
  String.ofList ("comp-".toList ++ base36Digits m.time ++ '-' :: (toString count).toList ++
    '-' :: m.suffix.toList.map base36Digit)

instance : IdSource TimedIds where
  next s :=
    (text (s.count + 1).toNat (s.moments s.count.toNat), { s with count := s.count + 1 })

end TimedIds

end MailComposer
