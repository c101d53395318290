import MailComposer.Proofs.Style.Values
import MailComposer.Proofs.Tree.Insertion
import MailComposer.Proofs.Tree.Throughout

/-!
What a patch does to a component, field by field, and an update to a forest. The fields of a
component, with its id, its kind, its styles and the lists below it, are all there is to it.
-/
namespace MailComposer

open Component

/-- The fields that a component has beside its styles and its children. -/
inductive Slot where
  | content
  | level
  | src
  | alt
  | label
  | href
  | height
  | listKind
  | items
  | widths
deriving DecidableEq

inductive Datum where
  | text (s : String)
  | level (n : UInt8)
  | listKind (k : ListKind)
  | texts (l : List String)
deriving DecidableEq

def Leaf.datum? : Leaf → Slot → Option Datum
  | .text content, .content => some (.text content)
  | .heading content _, .content => some (.text content)
  | .heading _ level, .level => some (.level level)
  | .image src _, .src => some (.text src)
  | .image _ alt, .alt => some (.text alt)
  | .button label _, .label => some (.text label)
  | .button _ href, .href => some (.text href)
  | .spacer height, .height => some (.text height)
  | .list kind _, .listKind => some (.listKind kind)
  | .list _ items, .items => some (.texts items)
  | _, _ => none

/-- The value of a field, if the component has it. -/
def Component.datum? : Component → Slot → Option Datum
  | .leaf _ _ l, f => l.datum? f
  | .column _ _ widths _, .widths => some (.texts widths)
  | _, _ => none

/-- The value that a patch has for a field; a level outside the range is that of its nearer end. -/
def Patch.datum? (p : Patch) : Slot → Option Datum
  | .content => p.content.map .text
  | .level => p.level.map fun l => .level (if l < 1 then 1 else if 6 < l then 6 else l)
  | .src => p.src.map .text
  | .alt => p.alt.map .text
  | .label => p.label.map .text
  | .href => p.href.map .text
  | .height => p.height.map .text
  | .listKind => p.listKind.map .listKind
  | .items => p.items.map .texts
  | .widths => p.widths.map .texts

private theorem Leaf.ext_datum {l l' : Leaf} (hk : l.kind = l'.kind)
    (hd : ∀ f, l.datum? f = l'.datum? f) : l = l' := by
  cases l <;> cases l' <;> cases hk
  case text => simpa [datum?] using hd .content
  case heading => simpa [datum?] using And.intro (hd .content) (hd .level)
  case image => simpa [datum?] using And.intro (hd .src) (hd .alt)
  case button => simpa [datum?] using And.intro (hd .label) (hd .href)
  case divider => rfl
  case spacer => simpa [datum?] using hd .height
  case list => simpa [datum?] using And.intro (hd .listKind) (hd .items)

private theorem Leaf.kind_ne (l : Leaf) : l.kind ≠ .column ∧ l.kind ≠ .container := by
  cases l <;> exact ⟨nofun, nofun⟩

namespace Component

private theorem ext_datum {c d : Component} (hid : c.id = d.id) (hkind : c.kind = d.kind)
    (hstyles : c.styles = d.styles) (hlists : c.lists = d.lists)
    (hd : ∀ f, c.datum? f = d.datum? f) : c = d := by
  cases c with
  | leaf i s l =>
    cases d with
    | leaf i' s' l' =>
      obtain rfl : i = i' := hid
      obtain rfl : s = s' := hstyles
      rw [Leaf.ext_datum hkind hd]
    | column => exact absurd hkind (Leaf.kind_ne l).1
    | container => exact absurd hkind (Leaf.kind_ne l).2
  | column i s w cells =>
    cases d with
    | leaf _ _ l => exact absurd hkind.symm (Leaf.kind_ne l).1
    | column i' s' w' cells' =>
      obtain rfl : i = i' := hid
      obtain rfl : s = s' := hstyles
      obtain rfl : cells = cells' := hlists
      rw [Datum.texts.inj (Option.some.inj (hd .widths))]
    | container => cases hkind
  | container i s children =>
    cases d with
    | leaf _ _ l => exact absurd hkind.symm (Leaf.kind_ne l).2
    | column => cases hkind
    | container i' s' children' =>
      obtain rfl : i = i' := hid
      obtain rfl : s = s' := hstyles
      rw [List.singleton_inj.mp hlists]

end Component

/-- The number of lists that a row of columns lacks for its new widths. -/
def Patch.room (p : Patch) (c : Component) : Nat :=
  match c.kind, p.widths with
  | .column, some widths => widths.length - c.lists.length
  | _, _ => 0

private theorem Patch.room_of_ne {c : Component} (p : Patch) (h : c.kind ≠ .column) :
    p.room c = 0 := by
  rw [room]
  split
  · next hk _ => exact absurd hk h
  · rfl

/-- A component and what a patch makes of it: the same component in the same place, with all that
stands below it. Styles and fields are those of the patch where it has them and as they were where
it does not. -/
structure Patched (p : Patch) (c d : Component) : Prop where
  id : d.id = c.id
  kind : d.kind = c.kind
  lists : d.lists = c.lists ++ List.replicate (p.room c) []
  styles : ∀ key, d.styles.value? key =
    (p.styles.bind fun new => new.value? key).or (c.styles.value? key)
  data : ∀ f, d.datum? f = (c.datum? f).map fun old => (p.datum? f).getD old

namespace Patched
variable {p : Patch} {c d d' : Component}

theorem unique (h : Patched p c d) (h' : Patched p c d') : d = d' := by
  refine ext_datum (h.id.trans h'.id.symm) (h.kind.trans h'.kind.symm)
    (StyleMap.ext_value? fun key => ?_) (h.lists.trans h'.lists.symm) fun f => ?_
  · rw [h.styles, h'.styles]
  · rw [h.data, h'.data]

/-- A second time, a patch finds all as it leaves it. -/
private theorem again (h : Patched p c d) : Patched p d d where
  id := rfl
  kind := rfl
  lists := by
    have hlength : d.lists.length = c.lists.length + p.room c := by
      rw [h.lists, List.length_append, List.length_replicate]
    have hroom : p.room d = 0 := by
      rw [Patch.room, h.kind]
      split
      · next widths hk hw =>
        rw [Patch.room, hk, hw] at hlength
        dsimp only at hlength
        omega
      · rfl
    rw [hroom, List.replicate_zero, List.append_nil]
  styles key := by
    rw [h.styles, ← Option.or_assoc, Option.or_self]
  data f := by
    rw [h.data, Option.map_map]
    congr 1
    funext old
    cases p.datum? f <;> rfl

end Patched

private theorem clampLevel_eq (l : UInt8) :
    Leaf.clampLevel l = if l < 1 then 1 else if 6 < l then 6 else l := by
  simp only [Leaf.clampLevel, Max.max, Min.min, UInt8.le_iff_toNat_le, UInt8.lt_iff_toNat_lt,
    ← UInt8.toNat_inj]
  split_ifs
  all_goals simp_all
  omega

private theorem Leaf.datum?_patch (p : Patch) (l : Leaf) (f : Slot) :
    (p.patchLeaf l).datum? f = (l.datum? f).map fun old => (p.datum? f).getD old := by
  cases l with
  | text => cases f <;> simp [Patch.patchLeaf, datum?, Patch.datum?]
  | heading =>
    cases f with
    | level =>
      rw [Patch.patchLeaf, datum?, datum?, Patch.datum?]
      cases p.level with
      | none => rfl
      | some l => exact congrArg (fun n => some (Datum.level n)) (clampLevel_eq l)
    | _ => simp [Patch.patchLeaf, datum?, Patch.datum?]
  | image => cases f <;> simp [Patch.patchLeaf, datum?, Patch.datum?]
  | button => cases f <;> simp [Patch.patchLeaf, datum?, Patch.datum?]
  | divider => cases f <;> rfl
  | spacer => cases f <;> simp [Patch.patchLeaf, datum?, Patch.datum?]
  | list => cases f <;> simp [Patch.patchLeaf, datum?, Patch.datum?]

private theorem Leaf.kind_patch (p : Patch) (l : Leaf) : (p.patchLeaf l).kind = l.kind := by
  cases l <;> rfl

private theorem value?_patchStyles (p : Patch) (s : StyleMap) (key : String) :
    (p.patchStyles s).value? key = (p.styles.bind fun new => new.value? key).or (s.value? key) := by
  rw [Patch.patchStyles]
  cases p.styles with
  | none => rfl
  | some new => exact StyleMap.value?_merge s new key

theorem patched_apply (p : Patch) (c : Component) : Patched p c (p.apply c) := by
  cases c with
  | leaf i s l =>
    refine ⟨rfl, Leaf.kind_patch p l, ?_, value?_patchStyles p s, Leaf.datum?_patch p l⟩
    have hkind : (Component.leaf i s l).kind ≠ .column := (Leaf.kind_ne l).1
    rw [p.room_of_ne hkind]
    rfl
  | column i s widths cells =>
    rw [Patch.apply]
    cases hw : p.widths with
    | none =>
      refine ⟨rfl, rfl, ?_, value?_patchStyles p s, fun f => ?_⟩
      · simp [lists, Patch.room, hw, kind]
      · cases f <;> simp [datum?, Patch.datum?, hw]
    | some new =>
      refine ⟨rfl, rfl, ?_, value?_patchStyles p s, fun f => ?_⟩
      · simp [lists, Patch.room, hw, kind, padCells]
      · cases f <;> simp [datum?, Patch.datum?, hw]
  | container i s children =>
    exact ⟨rfl, rfl, rfl, value?_patchStyles p s, fun f => rfl⟩

/-- Patching once more changes nothing. -/
theorem apply_patched {p : Patch} {c d : Component} (h : Patched p c d) : p.apply d = d :=
  (patched_apply p d).unique h.again

namespace Tree
variable {tree : List Component} {i : String}

/-- An update patches the component with the id and leaves all else in the forest as it is; the same
update made once more changes nothing. -/
theorem update_patches_one (h : i ∈ idsIn tree) (p : Patch) :
    ∃ c d left right, findIn? i tree = some c ∧ Patched p c d ∧
      Replaced (left ++ c :: right) (left ++ d :: right) tree (update tree i p) ∧
      findIn? i (update tree i p) = some d ∧
      update (update tree i p) i p = update tree i p := by
  cases hc : findIn? i tree with
  | none => exact absurd h (findIn?_eq_none.mp hc)
  | some c =>
    have hd := patched_apply p c
    have hi : (p.apply c).id = i := hd.id.trans (findIn?_eq_some hc).2
    obtain ⟨place, rfl, hmod⟩ := modifyIn?_place hc
    have hupdate : update (place.put c) i p = place.put (p.apply c) := by
      rw [update, modifyIn, hmod, Option.getD_some]
    have hfind := findIn?_modifyIn? (hmod p.apply) hc hi
    obtain ⟨place', hput, hmod'⟩ := modifyIn?_place hfind
    have hagain : update (place.put (p.apply c)) i p = place.put (p.apply c) := by
      rw [update, modifyIn, hmod', Option.getD_some, apply_patched hd, hput]
    rw [hupdate]
    exact ⟨c, p.apply c, place.left, place.right, rfl, hd, place.replaced_put c (p.apply c), hfind,
      hagain⟩

/-- A row with a list for the first of its two widths only. -/
def sheet : List Component :=
  [.container "page" .empty [.column "row" (StyleMap.empty.set .paddingTop "4px") ["50%", "50%"]
    [[.leaf "title" .empty (.heading "A" 2)]]]]

/-- New values for a row and for a heading. -/
def revision : Patch :=
  { content := some "B", level := some 9, widths := some ["30%", "30%", "40%"],
    styles := some (StyleMap.empty.set .color "red") }

theorem update_patches_one_sheet :
    ("row" ∈ idsIn sheet ∧ ∃ c d left right, findIn? "row" sheet = some c ∧
      Patched revision c d ∧ Replaced (left ++ c :: right) (left ++ d :: right) sheet
        (update sheet "row" revision) ∧
      update (update sheet "row" revision) "row" revision = update sheet "row" revision) ∧
    update sheet "row" revision =
      [.container "page" .empty [.column "row"
        ((StyleMap.empty.set .paddingTop "4px").set .color "red") ["30%", "30%", "40%"]
        [[.leaf "title" .empty (.heading "A" 2)], [], []]]] ∧
    findIn? "title" (update sheet "title" revision) =
      some (.leaf "title" (StyleMap.empty.set .color "red") (.heading "B" 6)) := by
  have hrow : "row" ∈ idsIn sheet := by decide
  obtain ⟨c, d, left, right, hc, hd, hr, -, hagain⟩ := update_patches_one hrow revision
  exact ⟨⟨hrow, c, d, left, right, hc, hd, hr, hagain⟩, by decide, by decide⟩

end Tree

end MailComposer
