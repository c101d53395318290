import MailComposer.Proofs.Html.Writer
import MailComposer.Proofs.Tree.Siblings

/-!
What a component writes by itself: a text that depends on its depth and on all of its subtree but
the ids. Whatever a page has before, behind, or around a component, this text is its part of it.
-/
namespace MailComposer.Html
open Component (unnamed unnamedList unnamedCells)

/-- What the component writes on an empty sheet. -/
def fragmentText (o : Options) (c : Component) (depth : Nat) : String :=
  ((Writer.component c).run ⟨o, depth, ""⟩).2.text

def fragmentTexts (o : Options) (cs : List Component) (depth : Nat) : String :=
  String.join (cs.map (fragmentText o · depth))

/-- A line by itself. -/
def lineText (o : Options) (depth : Nat) (text : String) : String := Line.render o ⟨depth, text⟩

/-- The cell of one width, with the components of its column. -/
def cellText (o : Options) (depth : Nat) (width : String) (column : List Component) : String :=
  lineText o depth (cellOpening width) ++ fragmentTexts o column (depth + 1) ++
    lineText o depth "</td>"

def columnsOpening (s : StyleMap) : String :=
  "<table role=\"presentation\" width=\"100%\" cellpadding=\"0\" cellspacing=\"" ++
    toString (columnGap s) ++ "\" border=\"0\"" ++ styledBy (s.erase .gap) ++ ">"

section
variable {o : Options}

private theorem fragmentText_eq (c : Component) (depth : Nat) :
    fragmentText o c depth = render o (fragment depth c) := by
  rw [fragmentText, writes_component c depth, String.empty_append]

/-- On any sheet, a component adds what it writes on an empty one. -/
theorem run_component (c : Component) (depth : Nat) (text : String) :
    (Writer.component c).run ⟨o, depth, text⟩ =
      ((), ⟨o, depth, text ++ fragmentText o c depth⟩) := by
  rw [fragmentText_eq]
  exact writes_component c depth text

theorem fragmentTexts_eq (cs : List Component) (depth : Nat) :
    fragmentTexts o cs depth = render o (fragmentList depth cs) := by
  induction cs with
  | nil => rw [fragmentTexts, fragmentList, render_nil, List.map_nil, String.join_nil]
  | cons c rest ih =>
    rw [fragmentList, render_append, ← ih, ← fragmentText_eq, fragmentTexts, List.map_cons,
      String.join_cons]
    rfl

theorem fragmentTexts_cons (c : Component) (rest : List Component) (depth : Nat) :
    fragmentTexts o (c :: rest) depth = fragmentText o c depth ++ fragmentTexts o rest depth :=
  String.join_cons

theorem fragmentTexts_append (cs ds : List Component) (depth : Nat) :
    fragmentTexts o (cs ++ ds) depth = fragmentTexts o cs depth ++ fragmentTexts o ds depth := by
  rw [fragmentTexts, List.map_append, String.join_append]
  rfl

private theorem render_block (depth : Nat) (opening closing : String) (body : List Line) :
    render o (block depth opening closing body) =
      lineText o depth opening ++ render o body ++ lineText o depth closing := by
  rw [block, render_cons, render_append, render_cons, render_nil, String.append_empty,
    ← String.append_assoc]
  rfl

theorem fragmentText_container (id : String) (s : StyleMap) (children : List Component)
    (depth : Nat) : fragmentText o (.container id s children) depth =
      lineText o depth ("<div" ++ styledBy (Component.container id s children).resolved ++ ">") ++
        fragmentTexts o children (depth + 1) ++ lineText o depth "</div>" := by
  rw [fragmentText_eq, fragment, container, render_block, fragmentTexts_eq]
  rfl

private theorem getElem?_fragmentCells (depth : Nat) (columns : List (List Component)) (i : Nat) :
    (fragmentCells depth columns)[i]?.getD [] = fragmentList depth (columns[i]?.getD []) := by
  induction columns generalizing i with
  | nil => rfl
  | cons column rest ih =>
    cases i with
    | zero => rfl
    | succ i => exact ih i

/-- A cell for each width from an index on, with the column at the same index. -/
private theorem render_cells (depth : Nat) (widths : List String) (columns : List (List Component))
    (i : Nat) :
    render o (cells depth widths ((fragmentCells (depth + 1) columns).drop i)) =
      String.join (widths.mapIdx fun k width =>
        cellText o depth width (columns[i + k]?.getD [])) := by
  induction widths generalizing i with
  | nil => rw [cells, render_nil, List.mapIdx_nil, String.join_nil]
  | cons width widths ih =>
    rw [cells, List.head?_drop, List.tail_drop, getElem?_fragmentCells, render_append,
      render_block, ← fragmentTexts_eq, ih, List.mapIdx_cons, String.join_cons]
    simp only [Nat.add_assoc, Nat.add_comm 1]
    rfl

theorem fragmentText_column (id : String) (s : StyleMap) (widths : List String)
    (columns : List (List Component)) (depth : Nat) :
    fragmentText o (.column id s widths columns) depth =
      lineText o depth (columnsOpening (Component.column id s widths columns).resolved) ++
        (lineText o (depth + 1) "<tr>" ++
          String.join (widths.mapIdx fun i width =>
            cellText o (depth + 2) width (columns[i]?.getD [])) ++
          lineText o (depth + 1) "</tr>") ++
        lineText o depth "</table>" := by
  have row := render_cells (o := o) (depth + 2) widths columns 0
  simp only [Nat.zero_add, List.drop_zero] at row
  rw [fragmentText_eq, fragment, Html.columns, render_block, render_block, row]
  rfl

mutual

theorem fragment_unnamed : ∀ (depth : Nat) (c : Component),
    fragment depth c.unnamed = fragment depth c
  | _, .leaf .. => rfl
  | depth, .column _ _ widths cells =>
    congrArg (columns depth _ widths) (fragmentCells_unnamed (depth + 3) cells)
  | depth, .container _ _ children =>
    congrArg (container depth _) (fragmentList_unnamed (depth + 1) children)

private theorem fragmentList_unnamed : ∀ (depth : Nat) (cs : List Component),
    fragmentList depth (unnamedList cs) = fragmentList depth cs
  | _, [] => rfl
  | depth, c :: rest =>
    congrArg₂ (· ++ ·) (fragment_unnamed depth c) (fragmentList_unnamed depth rest)

private theorem fragmentCells_unnamed : ∀ (depth : Nat) (cells : List (List Component)),
    fragmentCells depth (unnamedCells cells) = fragmentCells depth cells
  | _, [] => rfl
  | depth, cs :: rest =>
    congrArg₂ List.cons (fragmentList_unnamed depth cs) (fragmentCells_unnamed depth rest)

end

/-- Components that differ in no more than ids write the same. -/
theorem fragmentText_congr {c d : Component} (h : c.unnamed = d.unnamed) (depth : Nat) :
    fragmentText o c depth = fragmentText o d depth := by
  rw [fragmentText_eq, fragmentText_eq, ← fragment_unnamed depth c, h, fragment_unnamed]

end

end MailComposer.Html
