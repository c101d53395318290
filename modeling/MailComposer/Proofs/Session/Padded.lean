import MailComposer.Proofs.Session.Run
import MailComposer.Proofs.Tree.Padded

/-!
Rows of columns along a run. Where each row of a template has a list of children for each width, so
has each row in every forest that a session on it holds, or can go back or forth to.
-/
namespace MailComposer.Session
open Component (PaddedIn findIn? insert? insertAt padCells)

variable {σ : Type} [IdSource σ]

private theorem padded_perform {s : Session σ} (hs : ∀ tree ∈ s.trees, PaddedIn tree) (a : Action) :
    ∀ tree ∈ (s.perform a).trees, PaddedIn tree := by
  refine trees_perform (fun _ h ht => ?_) hs
  exact Component.lasting_paddedIn.applied h ht fun _ p _ _ _ => Component.paddedIn_apply p

theorem padded_run {s : Session σ} (hs : ∀ tree ∈ s.trees, PaddedIn tree)
    (actions : List Action) : ∀ tree ∈ (s.run actions).trees, PaddedIn tree := by
  induction actions generalizing s with
  | nil => exact hs
  | cons a rest ih => exact ih (padded_perform hs a)

/-- No request takes from a row of columns a list that one of its widths needs, in the current
forest or in one of the history; and a component is put into a list that is there, also where the
row has lacked some. -/
theorem padded_after_run (t : Template) (ids : σ) (limit : Nat) (actions : List Action) :
    let s := (opened t ids limit).run actions
    (PaddedIn t.components → PaddedIn s.components ∧
      (∀ e ∈ s.history.past, PaddedIn e.state) ∧ ∀ e ∈ s.history.future, PaddedIn e.state) ∧
    PaddedIn Template.empty.components ∧
    ∀ tree tree' c (target : Target) p i styles widths cells,
      insert? tree c target = some tree' → target.parent = some p →
      findIn? p tree = some (.column i styles widths cells) →
      ∃ level cells', (target.column.getD 0).toNat < widths.length ∧
        (padCells widths.length cells)[(target.column.getD 0).toNat]? = some level ∧
        cells' = (padCells widths.length cells).set (target.column.getD 0).toNat
          (insertAt target.index c level) ∧
        findIn? p tree' = some (.column i styles widths cells') ∧
        widths.length ≤ cells'.length := by
  intro s
  refine ⟨fun ht => forall_mem_trees.mp (padded_run ?_ actions), nofun,
    fun _ _ _ _ _ _ _ _ _ => Component.insert?_column⟩
  rw [trees_opened]
  exact List.forall_mem_singleton.mpr ht

/-- A row in a box, with one list of children more than it has widths. -/
def rowTemplate : Template where
  components :=
    [.container "box" .empty [.column "row" .empty ["60%", "40%"] [[], [], []]],
     .leaf "a" .empty .divider]

def rowActions : List Action :=
  [.update "row" { widths := some ["20%", "20%", "20%", "20%", "20%"] },
   .relocate "a" (.inColumn "row" 4), .duplicate (.named "box"), .beginBatch "Narrow",
   .update "row" { widths := some ["100%"] }, .delete "a", .drop "column4" (.inside "box"),
   .endBatch, .undo, .move (.named "s-1") .up, .undo, .redo]

theorem padded_after_run_row :
    let s := (opened rowTemplate (SerialIds.ofSeed "s") 2).run rowActions
    let short : List Component := [.column "b" .empty ["50%", "50%"] []]
    let added := Tree.add short (.leaf "c" .empty .divider) (.inColumn "b" 1)
    PaddedIn rowTemplate.components ∧ ¬ PaddedIn short ∧
      (PaddedIn s.components ∧ (∀ e ∈ s.history.past, PaddedIn e.state) ∧
        ∀ e ∈ s.history.future, PaddedIn e.state) ∧
      ∃ cells, findIn? "b" added = some (.column "b" .empty ["50%", "50%"] cells) ∧
        cells.length = 2 := by
  intro s short added
  have ht : PaddedIn rowTemplate.components := by decide
  obtain ⟨hrun, -, hin⟩ :=
    padded_after_run rowTemplate (SerialIds.ofSeed "s") 2 rowActions
  obtain ⟨level, cells, -, -, hcells, hfound, -⟩ :=
    hin short added (.leaf "c" .empty .divider) (.inColumn "b" 1) "b" "b" .empty ["50%", "50%"] []
      (by decide) rfl (by decide)
  exact ⟨ht, by decide, hrun ht, cells, hfound, by rw [hcells]; rfl⟩

end MailComposer.Session
