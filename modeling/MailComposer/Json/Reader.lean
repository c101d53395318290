import MailComposer.Json.Lexeme

/-!
Reading a text as one JSON value with blanks around it. The fuel of the inner readers never runs
out: a step that does not take a character is followed by one that does.
-/
namespace MailComposer.Json
open Lexeme

/-- The items of an array after its first bracket, or the members of an object after its brace,
with the place where reading ends and the text after the closing sign. -/
structure Body (α : Type) where
  parts : List α
  stop : Option Break
  rest : Option (List Char)

namespace Body

def ended (a : α) (b : Break) : Body α := ⟨[a], some b, none⟩

def cons (a : α) (b : Body α) : Body α := { b with parts := a :: b.parts }

end Body

mutual

def readValue : Nat → List Char → Reading × Option (List Char)
  | 0, _ => (.broken (.both .cutOff), none)
  | fuel + 1, cs =>
    match skipSpace cs with
    | [] => (.broken (.both .cutOff), none)
    | c :: r =>
      if c = '"' then
        match stringBody r with
        | .ok (s, rest) => (s.elim .invalid .string, some rest)
        | .error b => (.broken b, none)
      else if c = '[' then
        match skipSpace r with
        | [] => (.array [] (some (.both .cutOff)), none)
        | ']' :: r => (.array [] none, some r)
        | r =>
          let b := readItems fuel r
          (.array b.parts b.stop, b.rest)
      else if c = '\x7b' then
        match skipSpace r with
        | '\x7d' :: r => (.object [] none, some r)
        | r =>
          let b := readMembers fuel r
          (.object b.parts b.stop, b.rest)
      else if c = 'n' then literal "ull".toList .null r
      else if c = 't' then literal "rue".toList (.bool true) r
      else if c = 'f' then literal "alse".toList (.bool false) r
      else if c = '-' ∨ Digits.isDigit c then Lexeme.number (c :: r)
      else (.broken (.both .malformed), none)

def readItems : Nat → List Char → Body Reading
  | 0, _ => ⟨[], some (.both .cutOff), none⟩
  | fuel + 1, cs =>
    match readValue fuel cs with
    | (v, none) => ⟨[v], none, none⟩
    | (v, some r) =>
      match skipSpace r with
      | ',' :: r => (readItems fuel r).cons v
      | ']' :: r => ⟨[v], none, some r⟩
      | r => .ended v (.both (faultAt r))

def readMembers : Nat → List Char → Body (Option String × Reading)
  | 0, _ => ⟨[], some (.both .cutOff), none⟩
  | fuel + 1, cs =>
    match skipSpace cs with
    | '"' :: r =>
      match stringBody r with
      | .error b => ⟨[], some b, none⟩
      | .ok (k, r) =>
        match skipSpace r with
        | ':' :: r =>
          match readValue fuel r with
          | (v, none) => ⟨[(k, v)], none, none⟩
          | (v, some r) =>
            match skipSpace r with
            | ',' :: r => (readMembers fuel r).cons (k, v)
            | '\x7d' :: r => ⟨[(k, v)], none, some r⟩
            | r => .ended (k, v) (.both (faultAt r))
        | r => ⟨[(k, .broken (.both (faultAt r)))], none, none⟩
    | r => ⟨[], some (.both (faultAt r)), none⟩

end

/-- A value with what is wrong in the text after it. -/
structure Document where
  value : Reading
  tail : Except Fault Unit

def Document.ofChars (cs : List Char) : Document :=
  match readValue (2 * cs.length + 2) cs with
  | (v, none) => ⟨v, .ok ()⟩
  | (v, some r) => ⟨v, if (skipSpace r).isEmpty then .ok () else .error .malformed⟩

def Document.ofText (s : String) : Document := .ofChars s.toList

/-- Levels of nesting that a text may open. -/
def nestingLimit : Nat := 127

end MailComposer.Json
