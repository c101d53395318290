import MailComposer.Proofs.Html.Fragments
import MailComposer.Proofs.Session.Exported

/-!
A page is made of one text for each component, between two that the components have no part in.
So a copy of a component puts its text into the page once more, right behind itself.
-/
namespace MailComposer

open Component (idsIn)

namespace Html

/-- A text for each component and depth that is all the component has to do with its page. -/
structure Composes (o : Options) (f : Component → Nat → String) : Prop where
  written : ∀ c depth text,
    (Writer.component c).run ⟨o, depth, text⟩ = ((), ⟨o, depth, text ++ f c depth⟩)
  container : ∀ id s children depth, f (.container id s children) depth =
    lineText o depth ("<div" ++ styledBy (Component.container id s children).resolved ++ ">") ++
      String.join (children.map (f · (depth + 1))) ++ lineText o depth "</div>"
  column : ∀ id s widths columns depth, f (.column id s widths columns) depth =
    lineText o depth (columnsOpening (Component.column id s widths columns).resolved) ++
      (lineText o (depth + 1) "<tr>" ++
        String.join (widths.mapIdx fun i width =>
          lineText o (depth + 2) (cellOpening width) ++
            String.join ((columns[i]?.getD []).map (f · (depth + 3))) ++
            lineText o (depth + 2) "</td>") ++
        lineText o (depth + 1) "</tr>") ++
      lineText o depth "</table>"
  blind : ∀ c d, c.unnamed = d.unnamed → ∀ depth, f c depth = f d depth

private theorem composes_fragmentText (o : Options) : Composes o (fragmentText o) where
  written := run_component
  container := fragmentText_container
  column := fragmentText_column
  blind _ _ := fragmentText_congr

theorem compile_fragments (o : Options) (canvas : Canvas) : ∃ before after : String,
    ∀ cs, compile cs canvas o = before ++ fragmentTexts o cs contentDepth ++ after := by
  obtain ⟨before, after, hd⟩ := document_around canvas o.title
  refine ⟨render o before, render o after, fun cs => ?_⟩
  rw [compile, hd, render_append, render_append, fragmentTexts_eq, String.append_assoc]

private theorem fragmentTexts_duplicate {σ : Type} [IdSource σ] (o : Options)
    {cs ds : List Component}
    {c : Component} (hn : (idsIn (cs ++ c :: ds)).Nodup) (ids : σ) (depth : Nat) :
    fragmentTexts o (Tree.duplicate (cs ++ c :: ds) c.id ids).2.1 depth =
      fragmentTexts o cs depth ++ (fragmentText o c depth ++ fragmentText o c depth) ++
        fragmentTexts o ds depth := by
  obtain ⟨copy, hu, hd⟩ := Tree.duplicate_root (Component.id_ne_of_around hn).1 ds ids
  rw [hd, fragmentTexts_append, fragmentTexts_cons, fragmentTexts_cons, fragmentText_congr hu]
  simp only [String.append_assoc]

end Html

namespace Session
open Html (Composes compile compileInPlace contentDepth fragmentText fragmentTexts)

variable {σ : Type} [IdSource σ]

private theorem duplicate_of_resolve? {s : Session σ} {r : Ref} {i : String}
    (h : r.resolve? s.components = some i) :
    (s.duplicate r).2.components = (Tree.duplicate s.components i s.ids).2.1 ∧
      (s.duplicate r).2.canvas = s.canvas ∧ (s.duplicate r).2.options = s.options := by
  have done := apply_eq_ok_iff.mpr ⟨_, _, Mutation.Applied.duplicate h, rfl, rfl⟩
  rw [duplicate, attempt_of_ok done]
  exact ⟨rfl, rfl, rfl⟩

omit [IdSource σ] in
private theorem exportHtml_eq_compile (s : Session σ) :
    s.exportHtml.1 = compile s.components s.canvas s.options := by
  rw [exportHtml_eq, exportLines, compile]

/-- A page is put together from the texts of its components, and to duplicate a component at the
root is to write its text twice. -/
theorem page_of_fragments (o : Html.Options) (canvas : Canvas) :
    Composes o (fragmentText o) ∧ ∃ before after : String,
      (∀ cs, (compileInPlace cs canvas o).text = compile cs canvas o ∧
        compile cs canvas o = before ++ fragmentTexts o cs contentDepth ++ after) ∧
      ∀ cs c ds, (idsIn (cs ++ c :: ds)).Nodup →
        let text := fragmentText o c contentDepth
        let page (t : String) :=
          before ++ (fragmentTexts o cs contentDepth ++ t ++ fragmentTexts o ds contentDepth) ++ after
        compile (cs ++ c :: ds) canvas o = page text ∧
        (∀ ids : σ, compile (Tree.duplicate (cs ++ c :: ds) c.id ids).2.1 canvas o =
          page (text ++ text)) ∧
        ∀ (s : Session σ) (r : Ref), s.components = cs ++ c :: ds → s.canvas = canvas →
          s.options = o → r.resolve? s.components = some c.id →
            s.exportHtml.1 = page text ∧ (s.duplicate r).2.exportHtml.1 = page (text ++ text) := by
  refine ⟨Html.composes_fragmentText o, ?_⟩
  obtain ⟨before, after, hpage⟩ := Html.compile_fragments o canvas
  refine ⟨before, after, fun cs => ⟨by rw [Html.compileInPlace_eq], hpage cs⟩, ?_⟩
  intro cs c ds hn text page
  have once : compile (cs ++ c :: ds) canvas o = page text := by
    rw [hpage, Html.fragmentTexts_append, Html.fragmentTexts_cons]
    simp only [page, text, String.append_assoc]
  have twice (ids : σ) :
      compile (Tree.duplicate (cs ++ c :: ds) c.id ids).2.1 canvas o = page (text ++ text) := by
    rw [hpage, Html.fragmentTexts_duplicate o hn]
  refine ⟨once, twice, ?_⟩
  rintro s r hs rfl rfl hr
  obtain ⟨hcomponents, hcanvas, hoptions⟩ := duplicate_of_resolve? hr
  constructor
  · rw [exportHtml_eq_compile, hs, once]
  · rw [exportHtml_eq_compile, hcomponents, hcanvas, hoptions, hs, twice]

/-- A row of columns that lacks a list, in a container. -/
def frame : Component :=
  .container "c" .empty [.column "r" .empty ["60%", "auto"] [[.leaf "i" .empty (.image "x" "y")]]]

def framed : Session SerialIds :=
  .ofTemplate { components := [.leaf "t" .empty (.text "first"), frame, .leaf "d" .empty .divider] }
    (.ofSeed "s")

theorem page_of_fragments_framed :
    (idsIn framed.components).Nodup ∧
      (Ref.position 1 none none).resolve? framed.components = some frame.id ∧
      ∃ before after : String,
        let text := fragmentText framed.options frame contentDepth
        framed.exportHtml.1 = before ++ text ++ after ∧
          (framed.duplicate (.position 1 none none)).2.exportHtml.1 =
            before ++ (text ++ text) ++ after := by
  have distinct : (idsIn framed.components).Nodup := by decide
  have found : (Ref.position 1 none none).resolve? framed.components = some frame.id := by decide
  refine ⟨distinct, found, ?_⟩
  obtain ⟨-, before, after, -, page⟩ :=
    @page_of_fragments SerialIds _ framed.options framed.canvas
  let above : List Component := [.leaf "t" .empty (.text "first")]
  let below : List Component := [.leaf "d" .empty .divider]
  obtain ⟨-, -, exported⟩ := page above frame below distinct
  obtain ⟨once, twice⟩ := exported framed (.position 1 none none) rfl rfl rfl found
  refine ⟨before ++ fragmentTexts framed.options above contentDepth,
    fragmentTexts framed.options below contentDepth ++ after, once.trans ?_, twice.trans ?_⟩
  · simp only [String.append_assoc]
  · simp only [String.append_assoc]

end Session

end MailComposer
