import MailComposer.Proofs.Html.Appearance
import MailComposer.Proofs.Html.Declarations
import MailComposer.Proofs.Style.Parts

/-!
The margins of images that stand as blocks. The block around an image carries its alignment, and the
image says it once more with its own margins. Both are decided on values as they are set, while
values are trimmed when they are written: with blanks around it a value is one thing for the margins
and another in the document.
-/
namespace MailComposer.Html
open StyleMap (parts_ofList)

/-- What is written for a property. -/
def WrittenAs (s : StyleMap) (p : Property) (value : String) : Prop :=
  ∃ raw, s.get? p = some raw ∧ isEmitted raw = true ∧ Text.trim raw = value

private theorem mem_shown_declarations {s : StyleMap} (h : s.extras = .empty)
    {d : String × String} :
    d ∈ shown s.declarations ↔ ∃ p : Property, p.cssName = d.1 ∧ WrittenAs s p d.2 := by
  have entries : s.declarations = s.known.entries.map fun e => (e.1.cssName, e.2) := by
    rw [StyleMap.declarations, StyleMap.entries, h, List.map_append, List.map_map]
    exact List.append_nil _
  rw [mem_shown]
  constructor
  · rintro ⟨raw, hm, hv, ht⟩
    rw [entries] at hm
    obtain ⟨e, he, heq⟩ := List.mem_map.mp hm
    obtain ⟨hname, rfl⟩ := Prod.mk.inj heq
    exact ⟨e.1, hname, e.2, Dictionary.get?_eq_some_iff.mpr he, hv, ht⟩
  · rintro ⟨p, hname, raw, hp, hv, ht⟩
    refine ⟨raw, ?_, hv, ht⟩
    rw [entries, ← hname]
    exact List.mem_map.mpr ⟨(p, raw), Dictionary.get?_eq_some_iff.mp hp, rfl⟩

private theorem property_mem_shown {s : StyleMap} (h : s.extras = .empty) (p : Property)
    (value : String) : (p.cssName, value) ∈ shown s.declarations ↔ WrittenAs s p value := by
  rw [mem_shown_declarations h]
  constructor
  · rintro ⟨q, hq, hw⟩
    exact Property.cssName_injective hq ▸ hw
  · exact fun hw => ⟨p, rfl, hw⟩

/-- A value that is more than the empty text is written as it is when trimmed. -/
private theorem writtenAs_iff {s : StyleMap} {p : Property} {raw value : String}
    (h : s.get? p = some raw) (hv : value ∉ ["", "transparent", "undefined"]) :
    WrittenAs s p value ↔ Text.trim raw = value := by
  constructor
  · rintro ⟨raw', hraw, -, ht⟩
    rw [h] at hraw
    rwa [← Option.some.inj hraw] at ht
  · exact fun ht => ⟨raw, h, isEmitted_iff.mpr (ht ▸ hv), ht⟩

private theorem get?_set (s : StyleMap) (p q : Property) (value : String) :
    (s.set p value).get? q = if q = p then some value else s.get? q :=
  Dictionary.get?_insert s.known p q value

private theorem get?_ofList {es : List (Property × String)} (h : (es.map Prod.fst).Nodup)
    (p : Property) : (StyleMap.ofList es).get? p = Entries.get? p es := by
  have known : (StyleMap.ofList es).known = .insertAll .empty es :=
    congrArg StyleMap.Parts.known (parts_ofList es)
  rw [StyleMap.get?, known, Dictionary.get?, Dictionary.entries_insertAll,
    Entries.get?_foldl_insert, Entries.get?_reverse h]
  exact Option.or_none

/-- The block around an image has its alignment and its margins. -/
private theorem get?_imageWrapper (s : StyleMap) (p : Property) :
    (imageWrapper s).get? p =
      if p = .textAlign then some (imageAlignment s)
      else if p.isMargin then s.get? p else none := by
  have margins : (s.known.entries.filter fun e => e.1.isMargin) =
      (s.known.restrict Property.isMargin).entries := rfl
  have keys : (((Property.textAlign, imageAlignment s) ::
      s.known.entries.filter fun e => e.1.isMargin).map Prod.fst).Nodup := by
    refine List.nodup_cons.mpr ⟨fun hm => ?_, ?_⟩
    · obtain ⟨e, he, hkey⟩ := List.mem_map.mp hm
      have hmargin := (List.mem_filter.mp he).2
      rw [hkey] at hmargin
      cases hmargin
    · exact margins ▸ (s.known.restrict Property.isMargin).ascending.nodup_keys
  rw [imageWrapper, get?_ofList keys, Entries.get?, margins]
  split
  · rfl
  · exact Dictionary.get?_restrict s.known Property.isMargin p

/-- The image has all else, and margins at its sides where it is set as a block. -/
private theorem get?_imageStyles (s : StyleMap) (p : Property) :
    (imageStyles s).get? p =
      if p.isMargin then
        if s.get? .display = some "block" then
          if p = .marginRight then some (imageMargins (imageAlignment s)).2
          else if p = .marginLeft then some (imageMargins (imageAlignment s)).1
          else none
        else none
      else if p = .textAlign then none
      else s.get? p := by
  have own (q : Property) : (s.restrict fun p => !p.isMargin && p ≠ .textAlign).get? q =
      if q.isMargin then none else if q = .textAlign then none else s.get? q := by
    refine (Dictionary.get?_restrict s.known _ q).trans ?_
    cases q.isMargin <;> by_cases ht : q = .textAlign <;> simp [ht, StyleMap.get?]
  have display := own .display
  rw [if_neg (by decide), if_neg (by decide)] at display
  rw [imageStyles]
  dsimp only
  rw [display]
  split
  · rw [get?_set, get?_set, own]
    by_cases hr : p = .marginRight
    · rw [if_pos hr, if_pos (by rw [hr]; rfl), if_pos hr]
    · by_cases hl : p = .marginLeft
      · rw [if_neg hr, if_pos hl, if_pos (by rw [hl]; rfl), if_neg hr, if_pos hl]
      · simp only [if_neg hr, if_neg hl]
  · exact own p

/-- The margins that go with the alignment written for the block around an image. -/
def marginsFor (wrapper : List (String × String)) : String × String :=
  if ("text-align", "left") ∈ wrapper then ("0", "auto")
  else if ("text-align", "right") ∈ wrapper then ("auto", "0")
  else ("auto", "auto")

/-- What is written on an image goes with what is written on the block around it. -/
structure AlignedTwice (wrapper image : List (String × String)) : Prop where
  block : ("display", "block") ∈ image → ∀ value,
    (("margin-left", value) ∈ image ↔ value = (marginsFor wrapper).1) ∧
      (("margin-right", value) ∈ image ↔ value = (marginsFor wrapper).2)
  inline : ("display", "block") ∉ image → ∀ d ∈ image, ¬ "margin".toList <+: d.1.toList
  ends : ∀ d ∈ image, d.1 ≠ "margin-top" ∧ d.1 ≠ "margin-bottom"

/-- A display or an alignment that decides about margins has no blanks around it. -/
def Unpadded (display alignment : String) : Prop :=
  Text.trim display = "block" →
    display = "block" ∧
      (Text.trim alignment ∈ ["left", "right"] → Text.trim alignment = alignment)

private theorem imageMargins_eq_left {alignment : String} :
    imageMargins alignment = ("0", "auto") ↔ alignment = "left" := by
  unfold imageMargins
  split
  · next h => exact iff_of_true rfl h
  · next h => split <;> exact iff_of_false (by decide) h

private theorem imageMargins_eq_right {alignment : String} :
    imageMargins alignment = ("auto", "0") ↔ alignment = "right" := by
  unfold imageMargins
  split
  · next h => exact iff_of_false (by decide) (h ▸ by decide)
  · split
    · next h => exact iff_of_true rfl h
    · next h => exact iff_of_false (by decide) h

private theorem imageMargins_of_not_mem {alignment : String} (h : alignment ∉ ["left", "right"]) :
    imageMargins alignment = ("auto", "auto") := by
  obtain ⟨hl, hr⟩ := not_or.mp (mt List.mem_pair.mpr h)
  rw [imageMargins, if_neg hl, if_neg hr]

/-- The margins of an alignment survive trimming only where it has no blanks to lose. -/
private theorem imageMargins_trim (alignment : String) :
    imageMargins alignment = imageMargins (Text.trim alignment) ↔
      (Text.trim alignment ∈ ["left", "right"] → Text.trim alignment = alignment) := by
  constructor
  · intro h hside
    rcases List.mem_pair.mp hside with ht | ht
    · rw [ht] at h ⊢
      exact (imageMargins_eq_left.mp h).symm
    · rw [ht] at h ⊢
      exact (imageMargins_eq_right.mp h).symm
  · intro h
    by_cases hside : Text.trim alignment ∈ ["left", "right"]
    · rw [h hside]
    · have plain : alignment ∉ ["left", "right"] := fun hm => by
        rcases List.mem_pair.mp hm with rfl | rfl <;> exact hside (by decide)
      rw [imageMargins_of_not_mem hside, imageMargins_of_not_mem plain]

private theorem extras_imageWrapper (s : StyleMap) : (imageWrapper s).extras = .empty :=
  extras_ofList _

private theorem margin_mem_wrapper (s : StyleMap) {p : Property} (hp : p.isMargin = true)
    (value : String) :
    (p.cssName, value) ∈ shown (imageWrapper s).declarations ↔ WrittenAs s p value := by
  have other : p ≠ .textAlign := fun ht => by
    rw [ht] at hp
    cases hp
  rw [property_mem_shown (extras_imageWrapper s), WrittenAs, get?_imageWrapper, if_neg other,
    if_pos hp, WrittenAs]

private theorem marginsFor_wrapper (s : StyleMap) :
    marginsFor (shown (imageWrapper s).declarations) =
      imageMargins (Text.trim (imageAlignment s)) := by
  have alignment : (imageWrapper s).get? .textAlign = some (imageAlignment s) :=
    (get?_imageWrapper s .textAlign).trans (if_pos rfl)
  have written (value : String) (hv : value ∉ ["", "transparent", "undefined"]) :
      ("text-align", value) ∈ shown (imageWrapper s).declarations ↔
        Text.trim (imageAlignment s) = value :=
    (property_mem_shown (extras_imageWrapper s) .textAlign value).trans (writtenAs_iff alignment hv)
  simp only [marginsFor, imageMargins, written "left" (by decide),
    written "right" (by decide)]

/-- Margins of an image are written as they are. -/
private theorem writtenAs_imageMargin {s : StyleMap} {p : Property} {margin : String}
    (h : s.get? p = some margin) (hm : margin ∈ ["0", "auto"]) (value : String) :
    WrittenAs s p value ↔ value = margin := by
  have kept : ∀ m ∈ ["0", "auto"], isEmitted m = true ∧ Text.trim m = m := by decide
  obtain ⟨hv, ht⟩ := kept margin hm
  constructor
  · rintro ⟨raw, hraw, -, hr⟩
    rw [h] at hraw
    rw [← hr, ← Option.some.inj hraw, ht]
  · rintro rfl
    exact ⟨value, h, hv, ht⟩

private theorem imageMargins_mem (alignment : String) :
    (imageMargins alignment).1 ∈ ["0", "auto"] ∧ (imageMargins alignment).2 ∈ ["0", "auto"] := by
  unfold imageMargins
  split
  · decide
  · split <;> decide

section
variable {s : StyleMap} (h : s.extras = .empty)
include h

private theorem block_mem_shown : ("display", "block") ∈ shown (imageStyles s).declarations ↔
    ∃ raw, s.get? .display = some raw ∧ Text.trim raw = "block" := by
  have display : (imageStyles s).get? .display = s.get? .display := get?_imageStyles s .display
  refine (property_mem_shown ((extras_imageStyles s).trans h) .display "block").trans ?_
  rw [WrittenAs, display]
  constructor
  · rintro ⟨raw, hraw, -, ht⟩
    exact ⟨raw, hraw, ht⟩
  · rintro ⟨raw, hraw, ht⟩
    exact ⟨raw, hraw, isEmitted_iff.mpr (ht ▸ by decide), ht⟩

private theorem margins_mem_shown (hd : s.get? .display = some "block") (value : String) :
    (("margin-left", value) ∈ shown (imageStyles s).declarations ↔
        value = (imageMargins (imageAlignment s)).1) ∧
      (("margin-right", value) ∈ shown (imageStyles s).declarations ↔
        value = (imageMargins (imageAlignment s)).2) := by
  have image := (extras_imageStyles s).trans h
  obtain ⟨hleft, hright⟩ := imageMargins_mem (imageAlignment s)
  have left : (imageStyles s).get? .marginLeft = some (imageMargins (imageAlignment s)).1 :=
    (get?_imageStyles s .marginLeft).trans (if_pos hd)
  have right : (imageStyles s).get? .marginRight = some (imageMargins (imageAlignment s)).2 :=
    (get?_imageStyles s .marginRight).trans (if_pos hd)
  constructor
  · exact (property_mem_shown image .marginLeft value).trans
      (writtenAs_imageMargin left hleft value)
  · exact (property_mem_shown image .marginRight value).trans
      (writtenAs_imageMargin right hright value)

private theorem no_margin_of_mem_shown (hd : s.get? .display ≠ some "block") {d : String × String}
    (hm : d ∈ shown (imageStyles s).declarations) : ¬ "margin".toList <+: d.1.toList := by
  obtain ⟨p, hp, raw, hraw, -⟩ := (mem_shown_declarations ((extras_imageStyles s).trans h)).mp hm
  rw [← hp]
  refine Property.not_margin_cssName (Bool.eq_false_iff.mpr fun hmargin => ?_)
  rw [get?_imageStyles, if_pos hmargin, if_neg hd] at hraw
  cases hraw

/-- Of the margins only those at its sides are written on an image. -/
private theorem side_of_mem_shown {d : String × String}
    (hm : d ∈ shown (imageStyles s).declarations) : d.1 ≠ "margin-top" ∧ d.1 ≠ "margin-bottom" := by
  obtain ⟨p, hp, raw, hraw, -⟩ := (mem_shown_declarations ((extras_imageStyles s).trans h)).mp hm
  have absent {q : Property} (hq : (imageStyles s).get? q = none) : d.1 ≠ q.cssName := fun he => by
    rw [← Property.cssName_injective (hp.trans he), hraw] at hq
    cases hq
  exact ⟨absent (q := .marginTop) ((get?_imageStyles s _).trans (ite_self _)),
    absent (q := .marginBottom) ((get?_imageStyles s _).trans (ite_self _))⟩

theorem alignedTwice_iff :
    AlignedTwice (shown (imageWrapper s).declarations) (shown (imageStyles s).declarations) ↔
      ∀ raw, s.get? .display = some raw → Unpadded raw (imageAlignment s) := by
  constructor
  · intro twice raw hraw ht
    have hblock := (block_mem_shown h).mpr ⟨raw, hraw, ht⟩
    have hleft := (twice.block hblock _).1.mpr rfl
    have hd : s.get? .display = some "block" := Decidable.byContradiction fun hne =>
      no_margin_of_mem_shown h hne hleft (show "margin".toList <+: "margin-left".toList by decide)
    refine ⟨Option.some.inj (hraw.symm.trans hd), (imageMargins_trim _).mp ?_⟩
    rw [← marginsFor_wrapper]
    refine Prod.ext ?_ ?_
    · exact ((twice.block hblock _).1.mp ((margins_mem_shown h hd _).1.mpr rfl))
    · exact ((twice.block hblock _).2.mp ((margins_mem_shown h hd _).2.mpr rfl))
  · intro unpadded
    refine ⟨fun hblock value => ?_, fun hinline d hm => ?_, fun d hm => side_of_mem_shown h hm⟩
    · obtain ⟨raw, hraw, ht⟩ := (block_mem_shown h).mp hblock
      obtain ⟨rfl, hside⟩ := unpadded raw hraw ht
      rw [marginsFor_wrapper, ← (imageMargins_trim _).mpr hside]
      exact margins_mem_shown h hraw value
    · have hd : s.get? .display ≠ some "block" := fun hd =>
        hinline ((block_mem_shown h).mpr ⟨"block", hd, by decide⟩)
      exact no_margin_of_mem_shown h hd hm

end

/-- An image is aligned as an editor shows it. -/
theorem imageAlignment_resolved (i : String) (s : StyleMap) (src alt : String) :
    imageAlignment (Component.leaf i s (.image src alt)).resolved =
      (Component.leaf i s (.image src alt)).effective .textAlign := by
  have full : (Component.leaf i s (.image src alt)).effective .textAlign ≠ "" := by
    unfold Component.effective
    split
    · next hv => exact StyleMap.nonEmpty?_ne_empty hv
    · exact (by decide : (Kind.image.defaultStyles.get? .textAlign).getD "" ≠ "")
  rw [imageAlignment, StyleMap.nonEmpty?, Component.get?_resolved_eq_effective, if_neg full,
    Option.filter_some, if_pos (decide_eq_true full), Option.getD_some]

private theorem extras_resolved_empty {c : Component} (h : c.styles.extras = .empty) :
    c.resolved.extras = .empty :=
  (extras_resolved c).trans (congrArg (·.filter fun v => decide (v ≠ "")) h)

/-- Without styles from outside the vocabulary, an image and the block around it say the same about
its alignment just when the values that decide it, as an editor shows them, have no blanks around
them. All margins that are set stand on the block. -/
theorem aligned_twice_iff (i : String) {s : StyleMap} (src alt : String) (depth : Nat)
    (h : s.extras = .empty) :
    let c := Component.leaf i s (.image src alt)
    let wrapper := (imageWrapper c.resolved).declarations
    let image := (imageStyles c.resolved).declarations
    fragment depth c =
        block depth ("<div" ++ styled wrapper ++ ">") "</div>"
          [⟨depth + 1, "<img src=\"" ++ escape src ++ "\" alt=\"" ++ escape alt ++ "\"" ++
            styled image ++ " />"⟩] ∧
      (AlignedTwice (shown wrapper) (shown image) ↔
        Unpadded (c.effective .display) (c.effective .textAlign)) ∧
      ∀ p : Property, p.isMargin = true → ∀ value,
        (p.cssName, value) ∈ shown wrapper ↔ WrittenAs c.resolved p value := by
  intro c wrapper image
  have extras : c.resolved.extras = .empty := extras_resolved_empty h
  refine ⟨rfl, (alignedTwice_iff extras).trans ?_, fun p hp value => ?_⟩
  · rw [imageAlignment_resolved, c.get?_resolved_eq_effective]
    split
    · next he =>
      rw [he]
      exact iff_of_true nofun fun ht => absurd ht (by decide)
    · constructor
      · exact fun hu => hu _ rfl
      · rintro hu raw hraw
        exact Option.some.inj hraw ▸ hu
  · exact margin_mem_wrapper c.resolved hp value

def imageOf (display alignment : String) : Component :=
  .leaf "i" ((StyleMap.empty.set .display display).set .textAlign alignment) (.image "i.png" "")

theorem aligned_twice_iff_right :
    let c := imageOf "block" "right"
    c.styles.extras = .empty ∧
      AlignedTwice (shown (imageWrapper c.resolved).declarations)
        (shown (imageStyles c.resolved).declarations) ∧
      ("margin-left", "auto") ∈ shown (imageStyles c.resolved).declarations ∧
      ("margin-right", "0") ∈ shown (imageStyles c.resolved).declarations := by
  intro c
  have h : c.styles.extras = .empty := rfl
  obtain ⟨-, hiff, -⟩ := aligned_twice_iff "i" "i.png" "" 0 h
  have twice := hiff.mpr fun _ => by decide
  exact ⟨h, twice, by decide, by decide⟩

/-- A blank before the display takes the margins away, one before the alignment changes them. -/
theorem padded_image_misaligned :
    (∀ c ∈ [imageOf " block" "left", imageOf "block" " left"], c.styles.extras = .empty ∧
      ("display", "block") ∈ shown (imageStyles c.resolved).declarations ∧
      ("text-align", "left") ∈ shown (imageWrapper c.resolved).declarations ∧
      ¬ AlignedTwice (shown (imageWrapper c.resolved).declarations)
        (shown (imageStyles c.resolved).declarations)) ∧
    fragmentList 0 [imageOf " block" "left", imageOf "block" " left"] =
      [⟨0, "<div style=\"text-align: left; margin-top: 0px; margin-bottom: 0px\">"⟩,
       ⟨1, "<img src=\"i.png\" alt=\"\" style=\"display: block; width: 100%; " ++
          "max-width: 100%; height: auto; border: 0\" />"⟩,
       ⟨0, "</div>"⟩,
       ⟨0, "<div style=\"text-align: left; margin-top: 0px; margin-bottom: 0px\">"⟩,
       ⟨1, "<img src=\"i.png\" alt=\"\" style=\"display: block; width: 100%; " ++
          "max-width: 100%; height: auto; margin-right: auto; margin-left: auto; " ++
          "border: 0\" />"⟩,
       ⟨0, "</div>"⟩] := by
  refine ⟨fun c hc => ?_, by decide +kernel⟩
  rcases List.mem_pair.mp hc with rfl | rfl
  all_goals
    refine ⟨rfl, by decide, by decide, fun twice => ?_⟩
    have hleft := ((twice.block (by decide) "0").1).mpr (by decide)
    exact absurd hleft (by decide)

end MailComposer.Html
