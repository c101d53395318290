import Mathlib.Data.List.Flatten
import MailComposer.Proofs.Html.Places
import MailComposer.Proofs.Session.Run

/-!
What of a session's components is in its export. Those that stand in a column or in no row of
columns are, each once and in the order of the tree; a list of children that has lost its width is
kept in the session and left out.
-/
namespace MailComposer

namespace Html
open Component (visibleIn subtreesIn fitsIn bare)

/-- The lines of a page around those of its components. -/
theorem document_around (c : Canvas) (title : String) : ∃ before after : List Line,
    ∀ components, document components c title =
      before ++ (fragmentList contentDepth components ++ after) := by
  refine ⟨[⟨0, "<!DOCTYPE html>"⟩, ⟨0, "<html>"⟩] ++ head title ++ [⟨1, bodyOpening c⟩,
    ⟨2, outerTable c⟩, ⟨3, "<tr>"⟩, ⟨4, cellAround c⟩, ⟨5, innerTable c⟩, ⟨6, "<tr>"⟩, ⟨7, "<td>"⟩],
    [⟨7, "</td>"⟩, ⟨6, "</tr>"⟩, ⟨5, "</table>"⟩, ⟨4, "</td>"⟩, ⟨3, "</tr>"⟩, ⟨2, "</table>"⟩,
      ⟨1, "</body>"⟩, ⟨0, "</html>"⟩], fun components => ?_⟩
  simp [document, body, block]

/-- The places hold all lines of the document that are not in the page, none of them twice. -/
structure Shows (doc page : List Line) (ps : List Place) : Prop where
  ascending : Ascending ps
  standsAt : ∀ p ∈ ps, StandsAt doc p.start p.lines
  lines : doc.Perm (page ++ ps.flatMap Place.own)

private theorem shows_visible (components : List Component) (c : Canvas) (title : String) :
    ∃ ps, ps.map Place.component = visibleIn components ∧
      Shows (document components c title) (document [] c title) ps := by
  obtain ⟨before, after, hd⟩ := document_around c title
  refine ⟨placesIn before.length contentDepth components, component_placesIn _ _ components,
    ascending_placesIn _ _ components, standsAt_placesIn ?_, ?_⟩
  · refine ⟨after, ?_⟩
    rw [hd, List.drop_left]
  · rw [hd, hd, fragmentList, List.nil_append, List.append_assoc]
    refine List.Perm.append_left before ?_
    exact ((own_placesIn before.length contentDepth components).append_right after).trans
      List.perm_append_comm

/-- The lines that a component writes itself, at no depth. -/
def ownLines (c : Component) : List Line := fragment 0 c.bare

private theorem length_own (ps : List Place) :
    (ps.flatMap Place.own).length = ((ps.map Place.component).flatMap ownLines).length := by
  induction ps with
  | nil => rfl
  | cons p ps ih =>
    have hp : p.own.length = (ownLines p.component).length :=
      length_fragment_bare p.depth p.component
    rw [List.flatMap_cons, List.length_append, List.map_cons, List.flatMap_cons,
      List.length_append, hp, ih]

theorem Shows.length {doc page : List Line} {ps : List Place} (h : Shows doc page ps) :
    doc.length = page.length + ((ps.map Place.component).flatMap ownLines).length := by
  rw [h.lines.length_eq, List.length_append, length_own]

/-- Some of the components that write as many lines as all of them are all of them. -/
private theorem eq_of_length_ownLines {as bs : List Component} (h : as.Sublist bs)
    (hl : (as.flatMap ownLines).length = (bs.flatMap ownLines).length) : as = bs := by
  induction h with
  | slnil => rfl
  | @cons as bs b h ih =>
    have hle := (h.flatMap ownLines).length_le
    have hpos : 0 < (ownLines b).length := length_fragment_pos 0 b.bare
    rw [List.flatMap_cons, List.length_append] at hl
    omega
  | @cons_cons as bs a h ih =>
    rw [List.flatMap_cons, List.flatMap_cons, List.length_append, List.length_append] at hl
    rw [ih (Nat.add_left_cancel hl)]

/-- A document shows all components of its forest just where no list of children is hidden. -/
theorem shows_all_iff (components : List Component) (c : Canvas) (title : String) :
    (∃ ps, ps.map Place.component = subtreesIn components ∧
      Shows (document components c title) (document [] c title) ps) ↔
      fitsIn components = true := by
  obtain ⟨ps, hps, hv⟩ := shows_visible components c title
  rw [Component.fitsIn_iff]
  constructor
  · rintro ⟨qs, hqs, hall⟩
    have hlen := hall.length.symm.trans hv.length
    rw [hps, hqs] at hlen
    exact eq_of_length_ownLines (Component.visibleIn_sublist components)
      (Nat.add_left_cancel hlen).symm
  · intro h
    exact ⟨ps, hps.trans h, hv⟩

end Html

open Component (findIn? visibleIn subtreesIn fitsIn fits)

namespace Session

variable {σ : Type} [IdSource σ]

/-- A patch that the action makes leaves each list of children in the column with a width. -/
def keepsColumns (s : Session σ) (a : Action) : Bool :=
  match s.mutation? a with
  | some (.update i p) => (s.find? i).all fun c => (p.apply c).fits
  | _ => true

def runKeepsColumns (s : Session σ) : List Action → Bool
  | [] => true
  | a :: rest => s.keepsColumns a && (s.perform a).runKeepsColumns rest

private theorem fits_perform {s : Session σ} {a : Action} (ha : s.keepsColumns a = true)
    (hs : ∀ tree ∈ s.trees, fitsIn tree = true) :
    ∀ tree ∈ (s.perform a).trees, fitsIn tree = true := by
  refine trees_perform (fun hm hd ht => Component.lasting_fits.applied hd ht ?_) hs
  intro i p c hu hc _
  simpa only [keepsColumns, hm, hu, find?, hc, Option.all_some, Component.fitsIn_singleton] using ha

/-- The current forest and those of the history stay without hidden lists along a run. -/
theorem fits_run {s : Session σ} {actions : List Action} (ha : s.runKeepsColumns actions = true)
    (hs : ∀ tree ∈ s.trees, fitsIn tree = true) :
    ∀ tree ∈ (s.run actions).trees, fitsIn tree = true := by
  induction actions generalizing s with
  | nil => exact hs
  | cons a rest ih =>
    obtain ⟨ha, hr⟩ := Bool.and_eq_true_iff.mp ha
    exact ih hr (fits_perform ha hs)

def options (s : Session σ) : Html.Options := Html.titled s.name {}

def exportLines (s : Session σ) : List Html.Line :=
  Html.document s.components s.canvas s.options.title

/-- The export without any component. -/
def pageLines (s : Session σ) : List Html.Line := Html.document [] s.canvas s.options.title

/-- The fragments of these components are in the export, each once and in this order, and with the
page around them they are all of it. -/
def Exports (s : Session σ) (cs : List Component) : Prop :=
  ∃ ps, ps.map Html.Place.component = cs ∧ Html.Shows s.exportLines s.pageLines ps

omit [IdSource σ] in
private theorem exports_visible (s : Session σ) : s.Exports (visibleIn s.components) :=
  Html.shows_visible _ _ _

omit [IdSource σ] in
theorem exports_all_iff (s : Session σ) :
    s.Exports (subtreesIn s.components) ↔ fitsIn s.components = true :=
  Html.shows_all_iff _ _ _

omit [IdSource σ] in
theorem exportHtml_eq (s : Session σ) :
    s.exportHtml.1 = Html.render s.options s.exportLines := by
  rw [exportHtml, html, Html.compileTemplate, Html.compile, exportLines, options, template]

omit [IdSource σ] in
private theorem fits_opened {ids : σ} {limit : Nat} :
    ∀ tree ∈ (opened .empty ids limit).trees, fitsIn tree = true :=
  List.forall_mem_singleton.mpr rfl

/-- After any run from an empty template, all components are exported just where no list of
children has lost its width, and so after each run without a patch that takes one away. -/
theorem exported_after_run (ids : σ) (limit : Nat) (actions : List Action) :
    let start := opened .empty ids limit
    let s := start.run actions
    s.exportHtml.1 = Html.render s.options s.exportLines ∧
      s.Exports (visibleIn s.components) ∧
      (s.Exports (subtreesIn s.components) ↔ fitsIn s.components = true) ∧
      (start.runKeepsColumns actions = true → s.Exports (subtreesIn s.components)) := by
  intro start s
  refine ⟨exportHtml_eq s, exports_visible s, exports_all_iff s, fun ha => ?_⟩
  exact (exports_all_iff s).mpr (fits_run ha fits_opened s.components List.mem_cons_self)

def widenedEdits : List Action :=
  [.add "column2" none none none, .drop "text" (.inColumn "s-1" 1),
   .update "s-1" { widths := some ["30%", "40%", "30%"] }, .duplicate (.named "s-2"),
   .update "s-1" { widths := some ["50%", "50%"] }, .undo]

theorem exported_after_run_widened :
    let start := opened .empty (SerialIds.ofSeed "s") 0
    let s := start.run widenedEdits
    start.runKeepsColumns widenedEdits = true ∧ (subtreesIn s.components).length = 2 ∧
      s.Exports (subtreesIn s.components) := by
  have hk : (opened .empty (SerialIds.ofSeed "s") 0).runKeepsColumns widenedEdits = true := by
    decide
  exact ⟨hk, by decide, (exported_after_run _ 0 widenedEdits).2.2.2 hk⟩

/-- The second column is taken away with the text in it. -/
def narrowedEdits : List Action :=
  [.add "column2" none none none, .drop "text" (.inColumn "s-1" 1),
   .update "s-1" { widths := some ["100%"] }]

theorem narrowed_not_exported :
    let s := (opened .empty (SerialIds.ofSeed "s") 0).run narrowedEdits
    ¬ s.Exports (subtreesIn s.components) ∧
      ∃ c ∈ subtreesIn s.components, ∀ l ∈ Html.fragment 0 c,
        l.text ∉ s.exportLines.map Html.Line.text := by
  refine ⟨fun h => ?_, ?_⟩
  · have hf := (exports_all_iff _).mp h
    revert hf
    decide
  · refine ⟨Preset.build "s-2" (.basic .text), ?_, ?_⟩ <;> decide

end Session

end MailComposer
