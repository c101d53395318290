import MailComposer.Proofs.Html.Nesting
import MailComposer.Proofs.Html.Writer

/-!
The layout of a document: its lines, each at a depth, are the same for all options but the title.
A line either ends all that it opens or is the first or the last of a block, whose two lines stand
at one depth and whose body stands one level deeper.
-/
namespace MailComposer.Html

/-- The text begins as a tag of that name does. -/
def Begins (name text : String) : Prop := ∃ rest, text = "<" ++ name ++ rest

def closingTag (name : String) : String := "</" ++ name ++ ">"

def blockNames : List String := ["html", "head", "body", "table", "tr", "td", "div", "ul", "ol"]

def voidNames : List String := ["!DOCTYPE", "meta", "img", "hr"]

def inlineNames : List String :=
  ["title", "p", "h1", "h2", "h3", "h4", "h5", "h6", "a", "li", "div"]

/-- A line that ends what it opens: a tag that has no end, or an element with its end. -/
inductive Whole : String → Prop
  | void {name text : String} : name ∈ voidNames → Begins name text → Whole (text ++ ">")
  | element {name text : String} : name ∈ inlineNames → Begins name text →
      Whole (text ++ closingTag name)

inductive Blocks : Nat → List Line → Prop
  | nil (depth : Nat) : Blocks depth []
  | line {depth : Nat} {text : String} {rest : List Line} : Whole text → Blocks depth rest →
      Blocks depth (⟨depth, text⟩ :: rest)
  | around {depth : Nat} {name opening : String} {body rest : List Line} :
      name ∈ blockNames → Begins name opening → Blocks (depth + 1) body → Blocks depth rest →
      Blocks depth (block depth (opening ++ ">") (closingTag name) body ++ rest)

section
variable {depth : Nat} {name text opening : String} {ls ks body : List Line}

theorem Begins.append (h : Begins name text) (t : String) : Begins name (text ++ t) := by
  obtain ⟨rest, rfl⟩ := h
  exact ⟨rest ++ t, String.append_assoc⟩

/-- No name of a tag begins with the sign that ends an element. -/
private theorem Begins.not_closingTag (h : Begins name text)
    (hn : name ∈ blockNames ++ voidNames ++ inlineNames) (t : String) : text ≠ closingTag t := by
  obtain ⟨rest, rfl⟩ := h
  have first : (name.toList.head?.any (· ≠ '/')) = true := by
    revert name
    decide
  intro he
  have chars := congrArg (fun s => s.toList[1]?) he
  cases hc : name.toList with
  | nil => simp [hc] at first
  | cons a as =>
    have ha : a = '/' := by simpa [closingTag, hc] using chars
    simp [hc, ha] at first

private theorem Whole.not_closingTag (h : Whole text) (t : String) : text ≠ closingTag t := by
  cases h with
  | void hn hb => exact (hb.append _).not_closingTag (by simp [hn]) t
  | element hn hb => exact (hb.append _).not_closingTag (by simp [hn]) t

private theorem closingTag_injective {s t : String} (h : closingTag s = closingTag t) : s = t := by
  have chars := congrArg String.toList h
  simp only [closingTag, String.toList_append] at chars
  exact String.toList_inj.mp (List.append_cancel_left (List.append_cancel_right chars))

private theorem Whole.blocks (h : Whole text) : Blocks depth [⟨depth, text⟩] := .line h (.nil depth)

theorem Blocks.within (h : Blocks (depth + 1) body) (hn : name ∈ blockNames)
    (ho : Begins name opening) :
    Blocks depth (block depth (opening ++ ">") (closingTag name) body) := by
  rw [← List.append_nil (block _ _ _ _)]
  exact .around hn ho h (.nil depth)

theorem Blocks.append (hl : Blocks depth ls) (hk : Blocks depth ks) : Blocks depth (ls ++ ks) := by
  induction hl with
  | nil => exact hk
  | line ht _ ih => exact .line ht (ih hk)
  | around hn ho hb _ _ ih =>
    rw [List.append_assoc]
    exact .around hn ho hb (ih hk)

private theorem blocks_of_whole (h : ∀ l ∈ ls, l.depth = depth ∧ Whole l.text) :
    Blocks depth ls := by
  induction ls with
  | nil => exact .nil depth
  | cons l ls ih =>
    obtain ⟨⟨rfl, hl⟩, hr⟩ := List.forall_mem_cons.mp h
    exact .line hl (ih hr)

private theorem Blocks.depth_le (h : Blocks depth ls) : ∀ l ∈ ls, depth ≤ l.depth := by
  induction h with
  | nil => simp
  | line _ _ ih => simpa using ih
  | @around depth _ _ body _ _ _ _ _ ihb ih =>
    have deeper : ∀ l ∈ body, depth ≤ l.depth := fun l hl => Nat.le_of_succ_le (ihb l hl)
    simp only [block, List.cons_append, List.nil_append, List.forall_mem_cons,
      List.forall_mem_append, List.append_assoc]
    exact ⟨Nat.le_refl depth, deeper, Nat.le_refl depth, ih⟩

/-- One of these lines opens the element at the depth, and all behind it are deeper. -/
def Opened (before : List Line) (depth : Nat) (name : String) : Prop :=
  ∃ outer opening body, before = outer ++ ⟨depth, opening ++ ">"⟩ :: body ∧
    Begins name opening ∧ ∀ l ∈ body, depth < l.depth

theorem Opened.behind {before : List Line} (h : Opened before depth name) (ls : List Line) :
    Opened (ls ++ before) depth name := by
  obtain ⟨outer, opening, body, rfl, hb⟩ := h
  exact ⟨ls ++ outer, opening, body, by rw [List.append_assoc], hb⟩

/-- Whatever these lines close has been opened before, at the same depth. -/
def Paired (ls : List Line) : Prop :=
  ∀ before l after, ls = before ++ l :: after →
    ∀ name, l.text = closingTag name → Opened before l.depth name

private theorem Paired.extend (hl : Paired ls)
    (hk : ∀ before l after, ks = before ++ l :: after →
      ∀ name, l.text = closingTag name → Opened (ls ++ before) l.depth name) :
    Paired (ls ++ ks) := by
  intro before l after hs name ht
  rw [List.append_eq_append_iff] at hs
  rcases hs with ⟨inner, rfl, hs⟩ | ⟨inner, rfl, hs⟩
  · exact hk inner l after hs name ht
  -- The split is in the old lines, or just behind the last of them.
  · cases inner with
    | nil =>
      have last := hk [] l after hs.symm name ht
      rwa [List.append_nil, List.append_nil] at last
    | cons b inner =>
      rw [List.cons_append, List.cons.injEq] at hs
      obtain ⟨rfl, -⟩ := hs
      exact hl before l inner rfl name ht

theorem Paired.append (hl : Paired ls) (hk : Paired ks) : Paired (ls ++ ks) :=
  hl.extend fun before l after hs name ht => (hk before l after hs name ht).behind ls

private theorem eq_of_singleton {a l : Line} {before after : List Line}
    (h : [a] = before ++ l :: after) : before = [] ∧ l = a := by
  simp only [List.singleton_eq_append_iff, List.cons.injEq, reduceCtorEq, and_false, or_false] at h
  exact ⟨h.1, h.2.1⟩

private theorem paired_line (h : ∀ name, text ≠ closingTag name) : Paired [⟨depth, text⟩] := by
  intro before l after hs name ht
  obtain ⟨-, rfl⟩ := eq_of_singleton hs
  exact absurd ht (h name)

theorem Paired.block (hb : Paired body) (hd : ∀ l ∈ body, depth < l.depth)
    (hn : name ∈ blockNames) (ho : Begins name opening) :
    Paired (block depth (opening ++ ">") (closingTag name) body) := by
  have first : Paired [⟨depth, opening ++ ">"⟩] :=
    paired_line ((ho.append ">").not_closingTag (by simp [hn]))
  refine (first.append hb).extend fun before l after hs t ht => ?_
  obtain ⟨rfl, rfl⟩ := eq_of_singleton hs
  obtain rfl := closingTag_injective ht
  exact ⟨[], opening, body, List.append_nil _, ho, hd⟩

private theorem Blocks.paired (h : Blocks depth ls) : Paired ls := by
  induction h with
  | nil => simp [Paired]
  | line ht _ ih => exact (paired_line ht.not_closingTag).append ih
  | around hn ho hb _ ihb ih => exact (ihb.block hb.depth_le hn ho).append ih

private theorem begins (name : String) : Begins name ("<" ++ name) := ⟨"", String.append_empty.symm⟩

private theorem whole_heading (styles content : String) (level : UInt8) :
    let tag := "h" ++ toString (Leaf.clampLevel level).toNat
    Whole ("<" ++ tag ++ styles ++ ">" ++ content ++ "</" ++ tag ++ ">") := by
  intro tag
  have names : ∀ digit ∈ ["1", "2", "3", "4", "5", "6"], "h" ++ digit ∈ inlineNames := by decide
  have whole : Whole _ := .element (names _ (digit_mem level))
    ((((begins tag).append styles).append ">").append content)
  rwa [closingTag, ← String.append_assoc, ← String.append_assoc] at whole

theorem Begins.void (h : Begins name text) (hn : name ∈ voidNames) : Whole (text ++ " />") := by
  have ending : text ++ " />" = text ++ " /" ++ ">" := by
    rw [String.append_assoc]
    rfl
  rw [ending]
  exact .void hn (h.append " /")

private theorem whole_paragraph (styles content : String) :
    Whole ("<p" ++ styles ++ ">" ++ content ++ "</p>") :=
  .element (by decide : "p" ∈ inlineNames) ((((begins "p").append styles).append ">").append content)

private theorem whole_image (src alt styles : String) :
    Whole ("<img src=\"" ++ src ++ "\" alt=\"" ++ alt ++ "\"" ++ styles ++ " />") :=
  have source : Begins "img" "<img src=\"" := ⟨" src=\"", rfl⟩
  (((((source.append src).append _).append alt).append _).append styles).void (by decide)

private theorem whole_link (href styles label : String) :
    Whole ("<a href=\"" ++ href ++ "\" target=\"_blank\"" ++ styles ++ ">" ++ label ++ "</a>") :=
  have target : Begins "a" "<a href=\"" := ⟨" href=\"", rfl⟩
  .element (by decide : "a" ∈ inlineNames)
    (((((target.append href).append _).append styles).append _).append label)

private theorem whole_space (styles : String) : Whole ("<div" ++ styles ++ "></div>") := by
  have ending (t : String) : t ++ "></div>" = t ++ ">" ++ closingTag "div" := by
    rw [String.append_assoc]
    rfl
  rw [ending]
  exact .element (by decide) (((begins "div").append styles).append ">")

private theorem whole_item (item : String) : Whole ("<li>" ++ item ++ "</li>") :=
  have entry : Begins "li" "<li>" := ⟨">", rfl⟩
  .element (by decide : "li" ∈ inlineNames) (entry.append item)

private theorem blocks_leaf (s : StyleMap) (l : Leaf) : Blocks depth (leaf depth s l) := by
  have division (styles : String) : Begins "div" ("<div" ++ styles) := (begins "div").append styles
  cases l with
  | text content => exact (whole_paragraph _ content).blocks
  | heading content level => exact (whole_heading _ content level).blocks
  | image src alt => exact (whole_image _ _ _).blocks.within (by decide) (division _)
  | button label href => exact (whole_link _ _ _).blocks.within (by decide) (division _)
  | divider => exact (((begins "hr").append _).void (by decide)).blocks
  | spacer height => exact (whole_space _).blocks
  | list kind items =>
    have tag : kind.tag ∈ blockNames := by cases kind <;> decide
    have entries : Blocks (depth + 1)
        (items.map fun item => ⟨depth + 1, "<li>" ++ escape item ++ "</li>"⟩) := by
      refine blocks_of_whole fun l hl => ?_
      obtain ⟨item, -, rfl⟩ := List.mem_map.mp hl
      exact ⟨rfl, whole_item _⟩
    exact entries.within tag ((begins _).append _)

private theorem begins_cell (width : String) :
    Begins "td" ("<td" ++ widthAttribute .percentSize width ++
    " valign=\"top\"" ++ styled [("width", width), ("vertical-align", "top")]) :=
  (((begins "td").append _).append _).append _

private theorem blocks_cells {contents : List (List Line)}
    (h : ∀ ls ∈ contents, Blocks (depth + 1) ls) (widths : List String) :
    Blocks depth (cells depth widths contents) := by
  induction widths generalizing contents with
  | nil => exact .nil depth
  | cons width widths ih =>
    have content : Blocks (depth + 1) (contents.head?.getD []) := by
      cases contents with
      | nil => exact .nil _
      | cons ls _ => exact h ls List.mem_cons_self
    have cell := content.within (by decide) (begins_cell width)
    exact cell.append (ih fun ls hls => h ls (List.mem_of_mem_tail hls))

private theorem begins_spacedTable : Begins "table"
    "<table role=\"presentation\" width=\"100%\" cellpadding=\"0\" cellspacing=\"" :=
  ⟨" role=\"presentation\" width=\"100%\" cellpadding=\"0\" cellspacing=\"", by
    simp only [String.reduceAppend]⟩

private theorem begins_row : Begins "tr" "<tr" := begins "tr"

private theorem blocks_columns (s : StyleMap) (widths : List String) {contents : List (List Line)}
    (h : ∀ ls ∈ contents, Blocks (depth + 3) ls) :
    Blocks depth (columns depth s widths contents) := by
  have row : Blocks (depth + 1) (block (depth + 1) "<tr>" "</tr>" _) :=
    (blocks_cells h widths).within (by decide) begins_row
  exact row.within (by decide : "table" ∈ blockNames)
    (((begins_spacedTable.append _).append _).append _)

end

mutual

private theorem blocks_fragment : ∀ (depth : Nat) (c : Component), Blocks depth (fragment depth c)
  | _, .leaf _ _ l => blocks_leaf _ l
  | depth, .column _ _ widths contents =>
    blocks_columns _ widths (blocks_fragmentCells (depth + 3) contents)
  | depth, .container _ _ children =>
    (blocks_fragmentList (depth + 1) children).within (by decide) ((begins "div").append _)

private theorem blocks_fragmentList : ∀ (depth : Nat) (cs : List Component),
    Blocks depth (fragmentList depth cs)
  | depth, [] => .nil depth
  | depth, c :: rest => (blocks_fragment depth c).append (blocks_fragmentList depth rest)

private theorem blocks_fragmentCells : ∀ (depth : Nat) (cells : List (List Component)),
    ∀ ls ∈ fragmentCells depth cells, Blocks depth ls
  | _, [], _, h => nomatch h
  | depth, cs :: rest, ls, h => by
    rcases List.mem_cons.mp h with rfl | h
    · exact blocks_fragmentList depth cs
    · exact blocks_fragmentCells depth rest ls h

end

private theorem whole_title (title : String) : Whole ("<title>" ++ title ++ "</title>") :=
  have start : Begins "title" "<title>" := ⟨">", rfl⟩
  .element (by decide : "title" ∈ inlineNames) (start.append title)

private theorem blocks_head (title : String) : Blocks 1 (head title) := by
  have described (rest : String) : Whole ("<meta" ++ rest ++ ">") :=
    .void (by decide) ((begins "meta").append rest)
  have lines : Blocks 2 [_, _, _, _] :=
    .line (described " charset=\"UTF-8\"") <|
      .line (described
        " name=\"viewport\" content=\"width=device-width, initial-scale=1.0\"") <|
      .line (described " http-equiv=\"X-UA-Compatible\" content=\"IE=edge\"") <|
      (whole_title (escape title)).blocks
  exact lines.within (by decide) (begins "head")

private theorem begins_fullTable : Begins "table"
    "<table role=\"presentation\" width=\"100%\" cellpadding=\"0\" cellspacing=\"0\" border=\"0\"" :=
  ⟨" role=\"presentation\" width=\"100%\" cellpadding=\"0\" cellspacing=\"0\" border=\"0\"", by
    simp only [String.reduceAppend]⟩

private theorem blocks_body (c : Canvas) {content : List Line} (h : Blocks contentDepth content) :
    Blocks 1 (body c content) := by
  have table : Begins "table" "<table role=\"presentation\"" := ⟨" role=\"presentation\"", rfl⟩
  have centred : Begins "td" "<td align=\"center\"" := ⟨" align=\"center\"", rfl⟩
  have row {ls : List Line} {depth : Nat} (hr : Blocks (depth + 1) ls) :
      Blocks depth (block depth "<tr>" "</tr>" ls) := hr.within (by decide) begins_row
  have cell : Blocks 7 (block 7 "<td>" "</td>" content) := h.within (by decide) (begins "td")
  have inner : Blocks 5 (block 5 (innerTable c) "</table>" _) :=
    (row cell).within (by decide) (((table.append _).append _).append _)
  have around : Blocks 4 (block 4 (cellAround c) "</td>" _) :=
    inner.within (by decide) (centred.append _)
  have outer : Blocks 2 (block 2 (outerTable c) "</table>" _) :=
    (row around).within (by decide) (begins_fullTable.append _)
  exact outer.within (by decide) ((begins "body").append _)

private theorem blocks_document (cs : List Component) (c : Canvas) (title : String) :
    Blocks 0 (document cs c title) := by
  have doctype : Whole "<!DOCTYPE html>" := .void (by decide) ((begins "!DOCTYPE").append " html")
  have page := (blocks_head title).append (blocks_body c (blocks_fragmentList contentDepth cs))
  exact .line doctype (page.within (by decide) (begins "html"))

/-- A page from its first line to its last. -/
structure LaidOut (ls : List Line) : Prop where
  first : ls.head?.map Line.depth = some 0
  last : ls.getLast?.map Line.depth = some 0
  blocks : Blocks 0 ls
  paired : Paired ls

theorem laidOut_document (cs : List Component) (c : Canvas) (title : String) :
    LaidOut (document cs c title) where
  first := rfl
  last := by
    rw [document, block, ← List.cons_append, ← List.cons_append, List.getLast?_concat]
    rfl
  blocks := blocks_document cs c title
  paired := (blocks_document cs c title).paired

/-- Whether a document is pretty and what it is indented by decides on the whitespace around its
lines, and on nothing else: the lines and their depths are laid out once for all these options. -/
theorem compile_lines (cs : List Component) (c : Canvas) (title : String) :
    ∃ ls, LaidOut ls ∧ ∀ indent,
      compile cs c ⟨false, indent, title⟩ = String.join (ls.map Line.text) ∧
      compile cs c ⟨true, indent, title⟩ =
        String.join (ls.map fun l =>
          String.join (List.replicate l.depth indent) ++ l.text ++ "\n") ∧
      ∀ pretty, compileInPlace cs c ⟨pretty, indent, title⟩ =
        ⟨⟨pretty, indent, title⟩, 0, compile cs c ⟨pretty, indent, title⟩⟩ := by
  refine ⟨document cs c title, laidOut_document cs c title, fun indent => ⟨rfl, rfl, ?_⟩⟩
  intro pretty
  exact compileInPlace_eq cs c ⟨pretty, indent, title⟩

end MailComposer.Html
