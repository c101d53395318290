import MailComposer.Json.Lexeme
import MailComposer.Json.Printer

/-!
The texts that spell a value, with blanks between the lexemes as one likes. Main statement: both
written forms of a value spell it.
-/
namespace MailComposer.Json
open Lexeme (isSpace)

def Blanks (bs : List Char) : Prop := ∀ c ∈ bs, isSpace c = true

mutual

/-- A text that spells a value, without blanks around it. Items and members are spelled together
with the sign that closes them. -/
inductive Spells : Json → List Char → Prop where
  | null : Spells .null "null".toList
  | bool (b : Bool) : Spells (.bool b) (toString b).toList
  | nat {n : Nat} (h : n < UInt64.size) : Spells (.nat n) (toString n).toList
  | string (s : String) : Spells (.string s) (quoted s)
  | noItems {bs : List Char} (hb : Blanks bs) : Spells (.array []) ('[' :: (bs ++ [']']))
  | items {items : List Json} {cs : List Char} (h : SpellsItems items cs) :
    Spells (.array items) ('[' :: cs)
  | noMembers {bs : List Char} (hb : Blanks bs) : Spells (.object []) ('\x7b' :: (bs ++ ['\x7d']))
  | members {members : List (String × Json)} {cs : List Char} (h : SpellsMembers members cs) :
    Spells (.object members) ('\x7b' :: cs)

inductive SpellsItems : List Json → List Char → Prop where
  | last {j : Json} {bs cs bs' : List Char} (hb : Blanks bs) (h : Spells j cs) (hb' : Blanks bs') :
    SpellsItems [j] (bs ++ (cs ++ (bs' ++ [']'])))
  | cons {j : Json} {items : List Json} {bs cs bs' ds : List Char} (hb : Blanks bs)
    (h : Spells j cs) (hb' : Blanks bs') (hs : SpellsItems items ds) :
    SpellsItems (j :: items) (bs ++ (cs ++ (bs' ++ ',' :: ds)))

inductive SpellsMembers : List (String × Json) → List Char → Prop where
  | last {k : String} {j : Json} {bs cs ks ks' bs' : List Char} (hb : Blanks bs)
    (hk : Blanks ks) (hk' : Blanks ks') (h : Spells j cs) (hb' : Blanks bs') :
    SpellsMembers [(k, j)]
      (bs ++ (quoted k ++ (ks ++ ':' :: (ks' ++ (cs ++ (bs' ++ ['\x7d']))))))
  | cons {k : String} {j : Json} {members : List (String × Json)}
    {bs cs ks ks' bs' ds : List Char} (hb : Blanks bs)
    (hk : Blanks ks) (hk' : Blanks ks') (h : Spells j cs) (hb' : Blanks bs')
    (hs : SpellsMembers members ds) :
    SpellsMembers ((k, j) :: members)
      (bs ++ (quoted k ++ (ks ++ ':' :: (ks' ++ (cs ++ (bs' ++ ',' :: ds))))))

end

theorem Blanks.nil : Blanks [] := fun _ h => nomatch h

private theorem blanks_newline (depth : Nat) : Blanks (newline depth) := by
  intro c hc
  rcases List.mem_cons.mp hc with rfl | hc
  · rfl
  · rw [(List.mem_replicate.mp hc).2]
    rfl

mutual

/-- Its numbers are whole and fit into 64 bits. -/
def Plain : Json → Prop
  | .number (.whole n) => n < UInt64.size
  | .number _ => False
  | .array items => PlainItems items
  | .object members => PlainMembers members
  | _ => True

def PlainItems : List Json → Prop
  | [] => True
  | j :: rest => Plain j ∧ PlainItems rest

def PlainMembers : List (String × Json) → Prop
  | [] => True
  | (_, j) :: rest => Plain j ∧ PlainMembers rest

end

theorem plainMembers_append {ms ns : List (String × Json)} (hm : PlainMembers ms)
    (hn : PlainMembers ns) : PlainMembers (ms ++ ns) := by
  induction ms with
  | nil => exact hn
  | cons m ms ih => exact ⟨hm.1, ih hm.2⟩

theorem plainMembers_memberOf {α : Type} (k : String) {encode : α → Json} (v : Option α)
    (h : ∀ a, (encode a).Plain) : PlainMembers (memberOf k encode v) := by
  cases v with
  | none => trivial
  | some a => exact ⟨h a, trivial⟩

theorem plain_texts (xs : List String) : (texts xs).Plain := by
  have all (xs : List String) : PlainItems (xs.map .string) := by
    induction xs with
    | nil => trivial
    | cons x xs ih => exact ⟨trivial, ih⟩
  exact all xs

mutual

theorem spells_compact : ∀ j : Json, j.Plain → Spells j j.compactChars
  | .null, _ => .null
  | .bool b, _ => .bool b
  | .number (.whole _), h => .nat h
  | .string s, _ => .string s
  | .array [], _ => .noItems .nil
  | .array (j :: rest), h => .items (spells_compactItems (j :: rest) h (List.cons_ne_nil _ _))
  | .object [], _ => .noMembers .nil
  | .object (m :: rest), h => .members (spells_compactMembers (m :: rest) h (List.cons_ne_nil _ _))

private theorem spells_compactItems : ∀ items : List Json, PlainItems items → items ≠ [] →
    SpellsItems items (compactItems items ++ [']'])
  | [j], h, _ => .last .nil (spells_compact j h.1) .nil
  | j :: k :: rest, h, _ => by
    have hs := spells_compactItems (k :: rest) h.2 (List.cons_ne_nil _ _)
    have := SpellsItems.cons .nil (spells_compact j h.1) .nil hs
    simpa only [compactItems, List.append_assoc, List.cons_append, List.nil_append] using this

private theorem spells_compactMembers : ∀ members : List (String × Json), PlainMembers members →
    members ≠ [] → SpellsMembers members (compactMembers members ++ ['\x7d'])
  | [(k, j)], h, _ => by
    have := SpellsMembers.last (k := k) .nil .nil .nil (spells_compact j h.1) .nil
    simpa only [compactMembers, List.append_assoc, List.cons_append, List.nil_append] using this
  | (k, j) :: m :: rest, h, _ => by
    have hs := spells_compactMembers (m :: rest) h.2 (List.cons_ne_nil _ _)
    have := SpellsMembers.cons (k := k) .nil .nil .nil (spells_compact j h.1) .nil hs
    simpa only [compactMembers, List.append_assoc, List.cons_append, List.nil_append] using this

end

private theorem blanks_space : Blanks [' '] := by
  intro c hc
  rw [List.mem_singleton.mp hc]
  rfl

mutual

theorem spells_pretty : ∀ (depth : Nat) (j : Json), j.Plain → Spells j (j.prettyChars depth)
  | _, .null, _ => .null
  | _, .bool b, _ => .bool b
  | _, .number (.whole _), h => .nat h
  | _, .string s, _ => .string s
  | _, .array [], _ => .noItems .nil
  | depth, .array (j :: rest), h => by
    have := Spells.items (spells_prettyItems depth (depth + 1) (j :: rest) h (List.cons_ne_nil _ _))
    rwa [← List.append_assoc] at this
  | _, .object [], _ => .noMembers .nil
  | depth, .object (m :: rest), h => by
    have := Spells.members
      (spells_prettyMembers depth (depth + 1) (m :: rest) h (List.cons_ne_nil _ _))
    rwa [← List.append_assoc] at this

private theorem spells_prettyItems : ∀ (outer depth : Nat) (items : List Json), PlainItems items →
    items ≠ [] → SpellsItems items (prettyItems depth items ++ (newline outer ++ [']']))
  | outer, depth, [j], h, _ => by
    have := SpellsItems.last (blanks_newline depth) (spells_pretty depth j h.1)
      (blanks_newline outer)
    simpa only [prettyItems, List.append_assoc] using this
  | outer, depth, j :: k :: rest, h, _ => by
    have hs := spells_prettyItems outer depth (k :: rest) h.2 (List.cons_ne_nil _ _)
    have := SpellsItems.cons (blanks_newline depth) (spells_pretty depth j h.1) .nil hs
    simpa only [prettyItems, List.append_assoc, List.cons_append, List.nil_append] using this

private theorem spells_prettyMembers : ∀ (outer depth : Nat) (members : List (String × Json)),
    PlainMembers members → members ≠ [] →
    SpellsMembers members (prettyMembers depth members ++ (newline outer ++ ['\x7d']))
  | outer, depth, [(k, j)], h, _ => by
    have := SpellsMembers.last (k := k) (blanks_newline depth) .nil blanks_space
      (spells_pretty depth j h.1) (blanks_newline outer)
    simpa only [prettyMembers, List.append_assoc, List.cons_append, List.nil_append] using this
  | outer, depth, (k, j) :: m :: rest, h, _ => by
    have hs := spells_prettyMembers outer depth (m :: rest) h.2 (List.cons_ne_nil _ _)
    have := SpellsMembers.cons (k := k) (blanks_newline depth) .nil blanks_space
      (spells_pretty depth j h.1) .nil hs
    simpa only [prettyMembers, List.append_assoc, List.cons_append, List.nil_append] using this

end

end MailComposer.Json
