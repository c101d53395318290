import MailComposer.Proofs.Html.Injection
import MailComposer.Proofs.Style.CssName

/-!
The alignment of images and buttons. It belongs to the block around them, and the style of the
element inside loses the property. A style from outside the vocabulary whose key has the same name
in CSS is not found by that, and stands on the element inside.
-/
namespace MailComposer.Html

/-- The style attribute of these styles has a declaration of this name. -/
def Declares (s : StyleMap) (name : String) : Prop :=
  ∃ value, (name, value) ∈ s.declarations ∧ isEmitted value = true

/-- An alignment under a key from outside the vocabulary, with a value that is written out. -/
def AlignedByHand (s : StyleMap) : Prop :=
  ∃ e ∈ s.extras.entries, e.1 ∈ alignmentKeys ∧ isEmitted e.2 = true

private theorem declares_textAlign_iff {s : StyleMap} (h : s.get? .textAlign = none) :
    Declares s "text-align" ↔ AlignedByHand s := by
  constructor
  · rintro ⟨value, hm, hv⟩
    obtain ⟨e, he, heq⟩ := List.mem_map.mp hm
    obtain ⟨hname, rfl⟩ := Prod.mk.inj heq
    have hkey := cssName_eq_textAlign.mp hname
    rcases List.mem_append.mp he with hknown | hx
    · obtain ⟨k, hk, rfl⟩ := List.mem_map.mp hknown
      have hset : s.get? k.1 = some k.2 := Dictionary.get?_eq_some_iff.mpr hk
      rw [property_eq_textAlign hkey, h] at hset
      cases hset
    · refine ⟨e, hx, hkey.resolve_left fun hp => ?_, hv⟩
      have hforeign := s.foreign e hx
      rw [hp, Property.ofKey?_key] at hforeign
      cases hforeign
  · rintro ⟨e, he, hkey, hv⟩
    refine ⟨e.2, List.mem_map.mpr ⟨e, List.mem_append_right _ he, ?_⟩, hv⟩
    rw [cssName_eq_textAlign.mpr (.inr hkey)]

private theorem alignedByHand_resolved (c : Component) :
    AlignedByHand c.resolved ↔ AlignedByHand c.styles := by
  constructor
  · rintro ⟨e, he, hkey, hv⟩
    exact ⟨e, (mem_extras_resolved c hv).mp he, hkey, hv⟩
  · rintro ⟨e, he, hkey, hv⟩
    exact ⟨e, (mem_extras_resolved c hv).mpr he, hkey, hv⟩

private theorem get?_textAlign_imageStyles (s : StyleMap) :
    (imageStyles s).get? .textAlign = none := by
  have own : (s.restrict fun p => !p.isMargin && p ≠ .textAlign).get? .textAlign = none :=
    Dictionary.get?_restrict_of_not s.known rfl
  have set (s : StyleMap) (v w : String) :
      ((s.set .marginLeft v).set .marginRight w).get? .textAlign = s.get? .textAlign := by
    refine (Dictionary.get?_insert _ _ _ _).trans ?_
    exact Dictionary.get?_insert s.known .marginLeft .textAlign v
  unfold imageStyles
  dsimp only
  split
  · exact (set _ _ _).trans own
  · exact own

/-- Inside the block that carries its alignment, an image or a button is written with a style of its
own. That style has an alignment just when one is written by hand, under a key that is not the
property but has its name in CSS. -/
theorem inner_alignment_iff (i : String) (s : StyleMap) (depth : Nat) :
    (∀ src alt : String,
      let r := (Component.leaf i s (.image src alt)).resolved
      fragment depth (.leaf i s (.image src alt)) =
        block depth ("<div" ++ styledBy (imageWrapper r) ++ ">") "</div>"
          [⟨depth + 1, "<img src=\"" ++ escape src ++ "\" alt=\"" ++ escape alt ++ "\"" ++
            styledBy (imageStyles r) ++ " />"⟩] ∧
      (Declares (imageStyles r) "text-align" ↔ AlignedByHand s)) ∧
    ∀ label href : String,
      let r := (Component.leaf i s (.button label href)).resolved
      fragment depth (.leaf i s (.button label href)) =
        block depth ("<div" ++ styled [("text-align", buttonAlignment r)] ++ ">") "</div>"
          [⟨depth + 1, "<a href=\"" ++ escape href ++ "\" target=\"_blank\"" ++
            styledBy (r.erase .textAlign) ++ ">" ++ escape label ++ "</a>"⟩] ∧
      (Declares (r.erase .textAlign) "text-align" ↔ AlignedByHand s) := by
  constructor
  · intro src alt r
    refine ⟨rfl, (declares_textAlign_iff (get?_textAlign_imageStyles r)).trans ?_⟩
    rw [AlignedByHand, extras_imageStyles]
    exact alignedByHand_resolved (.leaf i s (.image src alt))
  · intro label href r
    have none : (r.erase .textAlign).get? .textAlign = none :=
      (Dictionary.get?_erase r.known .textAlign .textAlign).trans (if_pos rfl)
    refine ⟨rfl, (declares_textAlign_iff none).trans ?_⟩
    exact alignedByHand_resolved (.leaf i s (.button label href))

/-- A button that is aligned twice: by its kind, and under the name of the property in CSS. -/
def alignedButton : Component :=
  .leaf "b" (StyleMap.empty.setExtra "text-align" "right" (by decide)) (.button "Go" "/go")

/-- The second alignment stands on the link. -/
theorem alignment_on_link :
    Declares (alignedButton.resolved.erase .textAlign) "text-align" ∧
      fragment 0 alignedButton =
        [⟨0, "<div style=\"text-align: center\">"⟩,
         ⟨1, "<a href=\"/go\" target=\"_blank\" style=\"font-size: 16px; font-weight: bold; " ++
            "text-decoration: none; color: #ffffff; background-color: #007bff; " ++
            "display: inline-block; padding-top: 12px; padding-right: 24px; " ++
            "padding-bottom: 12px; padding-left: 24px; border-radius: 4px; " ++
            "text-align: right\">Go</a>"⟩,
         ⟨0, "</div>"⟩] := by
  refine ⟨⟨"right", ?_, by decide⟩, by decide +kernel⟩
  decide

end MailComposer.Html
