import MailComposer.Json.Basic

/-!
The two written forms of a JSON value: on one line without blanks, and one item a line with two
blanks for each level.
-/
namespace MailComposer.Json

def hexDigit (n : Nat) : Char := Nat.digitChar n

/-- Quotes, backslashes and control characters are escaped, all else stands for itself. -/
def escaped (c : Char) : List Char :=
  match c with
  | '"' => ['\\', '"']
  | '\\' => ['\\', '\\']
  | '\n' => ['\\', 'n']
  | '\r' => ['\\', 'r']
  | '\t' => ['\\', 't']
  | '\x08' => ['\\', 'b']
  | '\x0c' => ['\\', 'f']
  | c =>
    if c.toNat < 0x20 then ['\\', 'u', '0', '0', hexDigit (c.toNat / 16), hexDigit (c.toNat % 16)]
    else [c]

def quoted (s : String) : List Char := '"' :: (s.toList.flatMap escaped ++ ['"'])

mutual

def compactChars : Json → List Char
  | .null => "null".toList
  | .bool b => (toString b).toList
  | .number n => n.text.toList
  | .string s => quoted s
  | .array items => '[' :: (compactItems items ++ [']'])
  | .object members => '\x7b' :: (compactMembers members ++ ['\x7d'])

def compactItems : List Json → List Char
  | [] => []
  | [j] => compactChars j
  | j :: rest => compactChars j ++ ',' :: compactItems rest

def compactMembers : List (String × Json) → List Char
  | [] => []
  | [(k, j)] => quoted k ++ ':' :: compactChars j
  | (k, j) :: rest => quoted k ++ ':' :: (compactChars j ++ ',' :: compactMembers rest)

end

def compact (j : Json) : String := String.ofList j.compactChars

def newline (depth : Nat) : List Char := '\n' :: List.replicate (2 * depth) ' '

mutual

def prettyChars (depth : Nat) : Json → List Char
  | .array (j :: rest) => '[' :: (prettyItems (depth + 1) (j :: rest) ++ newline depth ++ [']'])
  | .object (m :: rest) =>
    '\x7b' :: (prettyMembers (depth + 1) (m :: rest) ++ newline depth ++ ['\x7d'])
  | j => compactChars j

def prettyItems (depth : Nat) : List Json → List Char
  | [] => []
  | [j] => newline depth ++ prettyChars depth j
  | j :: rest => newline depth ++ (prettyChars depth j ++ ',' :: prettyItems depth rest)

def prettyMembers (depth : Nat) : List (String × Json) → List Char
  | [] => []
  | [(k, j)] => newline depth ++ quoted k ++ ':' :: ' ' :: prettyChars depth j
  | (k, j) :: rest =>
    newline depth ++ quoted k ++
      ':' :: ' ' :: (prettyChars depth j ++ ',' :: prettyMembers depth rest)

end

def pretty (j : Json) : String := String.ofList (j.prettyChars 0)

end MailComposer.Json
