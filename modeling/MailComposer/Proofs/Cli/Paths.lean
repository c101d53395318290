import Mathlib.Data.List.TakeWhile
import MailComposer.Cli.Path

/-!
Paths part by part. Below a path the parts of a name are added to those of the path, and another
extension at the last name keeps names apart.
-/
namespace MailComposer.Cli.Path

/-- A name, or the way up, as it can stand between two slashes. -/
structure Word (part : String) : Prop where
  isStep : isStep part = true
  slash : '/' ∉ part.toList

/-- A name that a file or a folder can have. -/
structure Plain (name : String) : Prop extends Word name where
  ne_up : name ≠ ".."
  null : '\x00' ∉ name.toList

theorem Word.ne_empty {part : String} (h : Word part) : part ≠ "" := by
  rintro rfl
  exact absurd h.isStep (by decide)

theorem Word.ne_dot {part : String} (h : Word part) : part ≠ "." := by
  rintro rfl
  exact absurd h.isStep (by decide)

theorem word_up : Word ".." := ⟨by decide, by decide⟩

instance (name : String) : Decidable (Plain name) :=
  decidable_of_iff ((isStep name = true ∧ '/' ∉ name.toList) ∧ name ≠ ".." ∧ '\x00' ∉ name.toList)
    ⟨fun h => ⟨⟨h.1.1, h.1.2⟩, h.2.1, h.2.2⟩, fun h => ⟨⟨h.isStep, h.slash⟩, h.ne_up, h.null⟩⟩

private theorem splitSlashes_ne_nil (cs : List Char) : splitSlashes cs ≠ [] := by
  cases cs with
  | nil => exact List.cons_ne_nil _ _
  | cons c cs =>
    rw [splitSlashes]
    split
    · exact List.cons_ne_nil _ _
    · split <;> exact List.cons_ne_nil _ _

/-- A slash sets off what stands before it from what stands behind. -/
private theorem splitSlashes_append (cs ds : List Char) :
    splitSlashes (cs ++ '/' :: ds) = splitSlashes cs ++ splitSlashes ds := by
  induction cs with
  | nil => rfl
  | cons c cs ih =>
    rw [List.cons_append, splitSlashes, splitSlashes]
    split
    · rw [ih, List.cons_append]
    · obtain ⟨part, parts, h⟩ := List.exists_cons_of_ne_nil (splitSlashes_ne_nil cs)
      rw [ih, h]
      rfl

private theorem splitSlashes_of_not_mem {cs : List Char} (h : '/' ∉ cs) :
    splitSlashes cs = [cs] := by
  induction cs with
  | nil => rfl
  | cons c cs ih =>
    obtain ⟨hc, hcs⟩ := not_or.mp (mt List.mem_cons.mpr h)
    rw [splitSlashes, if_neg (Ne.symm hc), ih hcs]

private theorem slash_not_mem_splitSlashes {cs part : List Char} (h : part ∈ splitSlashes cs) :
    '/' ∉ part := by
  induction cs generalizing part with
  | nil => exact List.mem_singleton.mp h ▸ List.not_mem_nil
  | cons c cs ih =>
    obtain ⟨first, rest, hs⟩ := List.exists_cons_of_ne_nil (splitSlashes_ne_nil cs)
    rw [splitSlashes] at h
    split at h
    · rcases List.mem_cons.mp h with rfl | h
      · exact List.not_mem_nil
      · exact ih h
    · next hc =>
      rw [hs] at h ih
      rcases List.mem_cons.mp h with rfl | h
      · exact List.not_mem_cons_of_ne_of_not_mem (Ne.symm hc) (ih List.mem_cons_self)
      · exact ih (List.mem_cons_of_mem first h)

private theorem mem_of_mem_splitSlashes {cs part : List Char} (h : part ∈ splitSlashes cs) :
    part ⊆ cs := by
  induction cs generalizing part with
  | nil => exact List.mem_singleton.mp h ▸ List.Subset.refl _
  | cons c cs ih =>
    obtain ⟨first, rest, hs⟩ := List.exists_cons_of_ne_nil (splitSlashes_ne_nil cs)
    rw [splitSlashes] at h
    split at h
    · rcases List.mem_cons.mp h with rfl | h
      · exact List.nil_subset _
      · exact List.subset_cons_of_subset c (ih h)
    · rw [hs] at h ih
      rcases List.mem_cons.mp h with rfl | h
      · exact List.cons_subset_cons c (ih List.mem_cons_self)
      · exact List.subset_cons_of_subset c (ih (List.mem_cons_of_mem first h))

theorem parts_ne_nil (p : Path) : p.parts ≠ [] := mt List.map_eq_nil_iff.mp (splitSlashes_ne_nil _)

theorem slash_not_mem_parts {p : Path} {part : String} (h : part ∈ p.parts) :
    '/' ∉ part.toList := by
  obtain ⟨cs, hcs, rfl⟩ := List.mem_map.mp h
  rw [String.toList_ofList]
  exact slash_not_mem_splitSlashes hcs

theorem subset_of_mem_parts {p : Path} {part : String} (h : part ∈ p.parts) :
    part.toList ⊆ p.text.toList := by
  obtain ⟨cs, hcs, rfl⟩ := List.mem_map.mp h
  rw [String.toList_ofList]
  exact mem_of_mem_splitSlashes hcs

private theorem toList_relative_cons (name : String) (names : List String) :
    (relative (name :: names)).toList =
      name.toList ++ if names = [] then [] else '/' :: (relative names).toList := by
  cases names with
  | nil => rw [relative, String.intercalate_singleton, if_pos rfl, List.append_nil]
  | cons next names =>
    rw [relative, String.intercalate_cons_cons, String.toList_append, String.toList_append,
      List.append_assoc, if_neg (List.cons_ne_nil _ _)]
    rfl

theorem parts_relative {names : List String} (hne : names ≠ [])
    (h : ∀ name ∈ names, '/' ∉ name.toList) : (Path.mk (relative names)).parts = names := by
  induction names with
  | nil => exact absurd rfl hne
  | cons name names ih =>
    have hname : splitSlashes name.toList = [name.toList] :=
      splitSlashes_of_not_mem (h name List.mem_cons_self)
    rw [parts, toList_relative_cons]
    by_cases hn : names = []
    · rw [if_pos hn, List.append_nil, hname, List.map_singleton, String.ofList_toList, hn]
    · rw [if_neg hn, splitSlashes_append, hname, List.singleton_append, List.map_cons,
        String.ofList_toList]
      exact congrArg (name :: ·) (ih hn fun n hm => h n (List.mem_cons_of_mem name hm))

private theorem not_isAbsolute_relative {names : List String} (h : ∀ name ∈ names, Word name) :
    (Path.mk (relative names)).isAbsolute = false := by
  cases names with
  | nil => rfl
  | cons name names =>
    have word := h name List.mem_cons_self
    obtain ⟨c, cs, hc⟩ := List.exists_cons_of_ne_nil (mt String.toList_eq_nil_iff.mp word.ne_empty)
    have slash : c ≠ '/' := by
      rintro rfl
      exact word.slash (hc ▸ List.mem_cons_self)
    rw [isAbsolute, toList_relative_cons, hc]
    exact beq_eq_false_iff_ne.mpr fun he => slash (Option.some.inj he)

private theorem toList_join (base : Path) {rel : String} (h : (Path.mk rel).isAbsolute = false) :
    (base.join rel).text.toList =
      if base.text.toList.getLast?.all (· == '/') then base.text.toList ++ rel.toList
      else base.text.toList ++ '/' :: rel.toList := by
  rw [join, if_neg (Bool.eq_false_iff.mp h)]
  split
  · exact String.toList_append
  · rw [String.toList_append, String.toList_append, List.append_assoc]
    rfl

theorem size_join (base : Path) {rel : String} (h : (Path.mk rel).isAbsolute = false) :
    base.text.utf8ByteSize + rel.utf8ByteSize ≤ (base.join rel).text.utf8ByteSize := by
  rw [join, if_neg (Bool.eq_false_iff.mp h)]
  split
  · rw [String.utf8ByteSize_append]
  · rw [String.utf8ByteSize_append, String.utf8ByteSize_append]
    omega

/-- Below a path nothing is changed in it; where it ends in a slash, nothing stands behind that. -/
theorem parts_join (base : Path) {rel : String} (h : (Path.mk rel).isAbsolute = false) :
    ∃ ps, (base.parts = ps ∨ base.parts = ps ++ [""]) ∧
      (base.join rel).parts = ps ++ (Path.mk rel).parts := by
  have joined := toList_join base h
  rcases List.eq_nil_or_concat base.text.toList with hb | ⟨cs, c, hb⟩
  · rw [hb] at joined
    refine ⟨[], .inr ?_, ?_⟩
    · rw [parts, hb]
      rfl
    · rw [parts, joined]
      rfl
  · rw [hb, List.concat_eq_append, List.getLast?_concat, Option.all_some] at joined
    by_cases hc : c = '/'
    · subst hc
      rw [if_pos (beq_self_eq_true '/'), List.append_assoc] at joined
      refine ⟨(splitSlashes cs).map String.ofList, .inr ?_, ?_⟩
      · rw [parts, hb, List.concat_eq_append, splitSlashes_append, List.map_append]
        rfl
      · rw [parts, joined, List.singleton_append, splitSlashes_append, List.map_append]
        rfl
    · rw [if_neg (by simpa using hc), ← List.concat_eq_append, ← hb] at joined
      refine ⟨base.parts, .inl rfl, ?_⟩
      rw [parts, joined, splitSlashes_append, List.map_append]
      rfl

private theorem isAbsolute_join (base : Path) {rel : String}
    (h : (Path.mk rel).isAbsolute = false) : (base.join rel).isAbsolute = base.isAbsolute := by
  rw [isAbsolute, toList_join base h, isAbsolute]
  cases hb : base.text.toList with
  | nil => exact h
  | cons c cs => split <;> rfl

section
variable (base : Path) {names : List String} (h : ∀ name ∈ names, Word name)
include h

theorem parts_below (hne : names ≠ []) :
    ∃ ps, (base.parts = ps ∨ base.parts = ps ++ [""]) ∧ (base.below names).parts = ps ++ names := by
  obtain ⟨ps, hbase, hjoin⟩ := parts_join base (not_isAbsolute_relative h)
  refine ⟨ps, hbase, ?_⟩
  rw [below, if_neg (mt List.isEmpty_iff.mp hne), hjoin,
    parts_relative hne fun n hn => (h n hn).slash]

theorem isAbsolute_below : (base.below names).isAbsolute = base.isAbsolute := by
  rw [below]
  split
  · rfl
  · exact isAbsolute_join base (not_isAbsolute_relative h)

theorem getLast?_parts_below (hne : names ≠ []) :
    (base.below names).parts.getLast? = names.getLast? := by
  obtain ⟨ps, -, hparts⟩ := parts_below base h hne
  obtain ⟨n, hn⟩ := Option.ne_none_iff_exists'.mp (mt List.getLast?_eq_none_iff.mp hne)
  rw [hparts, List.getLast?_append, hn, Option.some_or]

theorem steps_below : (base.below names).steps = base.steps ++ names := by
  by_cases hne : names = []
  · rw [hne, List.append_nil]
    rfl
  · obtain ⟨ps, hbase, hparts⟩ := parts_below base h hne
    have own : base.steps = ps.filter isStep := by
      rcases hbase with hb | hb
      · rw [steps, hb]
      · rw [steps, hb, List.filter_append]
        exact List.append_nil _
    rw [steps, hparts, List.filter_append, own, List.filter_eq_self.mpr fun n hn => (h n hn).isStep]

theorem subset_below : base.text.toList ⊆ (base.below names).text.toList := by
  rw [below]
  split
  · exact List.Subset.refl _
  · rw [toList_join base (not_isAbsolute_relative h)]
    split <;> exact List.subset_append_left _ _

omit h in
theorem mem_relative {c : Char} (hc : c ∈ (relative names).toList) :
    c = '/' ∨ ∃ name ∈ names, c ∈ name.toList := by
  induction names with
  | nil => cases hc
  | cons name names ih =>
    rw [toList_relative_cons] at hc
    rcases List.mem_append.mp hc with hc | hc
    · exact .inr ⟨name, List.mem_cons_self, hc⟩
    · split at hc
      · cases hc
      · rcases List.mem_cons.mp hc with hc | hc
        · exact .inl hc
        · exact (ih hc).imp_right fun ⟨n, hn, hmem⟩ => ⟨n, List.mem_cons_of_mem name hn, hmem⟩

theorem mem_below {c : Char} (hc : c ∈ (base.below names).text.toList) :
    c ∈ base.text.toList ∨ c = '/' ∨ ∃ name ∈ names, c ∈ name.toList := by
  rw [below] at hc
  split at hc
  · exact .inl hc
  · rw [toList_join base (not_isAbsolute_relative h)] at hc
    split at hc
    · exact (List.mem_append.mp hc).imp_right mem_relative
    · rcases List.mem_append.mp hc with hc | hc
      · exact .inl hc
      · rcases List.mem_cons.mp hc with hc | hc
        · exact .inr (.inl hc)
        · exact .inr (mem_relative hc)

end

private theorem splitExtension?_eq_some {name stem e : List Char}
    (h : splitExtension? name = some (stem, e)) : stem ≠ [] ∧ name = stem ++ '.' :: e := by
  have whole := congrArg List.reverse
    (List.takeWhile_append_dropWhile (p := (· ≠ '.')) (l := name.reverse))
  have dot := List.head?_dropWhile_not (· ≠ '.') name.reverse
  unfold splitExtension? at h
  split at h
  · next c rest hd =>
    split at h
    · cases h
    · next hrest =>
      obtain ⟨rfl, rfl⟩ := Prod.mk.inj (Option.some.inj h)
      rw [hd, List.head?_cons] at dot
      have hc : c = '.' := by simpa using dot
      refine ⟨fun hs => hrest (List.isEmpty_iff.mpr (List.reverse_eq_nil_iff.mp hs)), ?_⟩
      rw [hd, hc, List.reverse_append, List.reverse_cons, List.append_assoc,
        List.reverse_reverse] at whole
      exact whole.symm
  · cases h

/-- A name with an extension, and what becomes of it with another one. -/
theorem withExtension_of_has {e name : String} (h : hasExtension e name = true) (e' : String) :
    ∃ stem, stem ≠ [] ∧ name.toList = stem ++ '.' :: e.toList ∧
      withExtension e' name =
        if stem = ['.'] then ".." else String.ofList (stem ++ '.' :: e'.toList) := by
  unfold hasExtension at h
  split at h
  · next stem ext hs =>
    obtain rfl : ext = e.toList := of_decide_eq_true h
    obtain ⟨hne, hname⟩ := splitExtension?_eq_some hs
    refine ⟨stem, hne, hname, ?_⟩
    unfold withExtension
    rw [hs]
    by_cases hdot : stem = ['.']
    · rw [if_pos hdot, hdot]
      rfl
    · rw [if_neg hdot]
      split
      · next h' => exact absurd (Prod.mk.inj (Option.some.inj h')).1 hdot
      · next h' =>
        obtain ⟨rfl, -⟩ := Prod.mk.inj (Option.some.inj h')
        rfl
      · next h' => cases h'
  · cases h

/-- With another extension names are as different as before. -/
theorem withExtension_injective {e name name' : String} (h : hasExtension e name = true)
    (h' : hasExtension e name' = true) (e' : String)
    (heq : withExtension e' name = withExtension e' name') : name = name' := by
  have dots {stem : List Char} (hne : stem ≠ [])
      (hup : ".." = String.ofList (stem ++ '.' :: e'.toList)) : stem = ['.'] := by
    have chars : ['.', '.'] = stem ++ '.' :: e'.toList := by
      rw [← String.toList_ofList (l := stem ++ '.' :: e'.toList), ← hup]
      rfl
    obtain ⟨c, rest, rfl⟩ := List.exists_cons_of_ne_nil hne
    obtain ⟨rfl, behind⟩ := List.cons.inj chars
    cases rest with
    | nil => rfl
    | cons d rest =>
      have nothing : [] = rest ++ '.' :: e'.toList := (List.cons.inj behind).2
      exact absurd nothing.symm (List.append_ne_nil_of_right_ne_nil rest (List.cons_ne_nil _ _))
  obtain ⟨stem, hne, hname, hwith⟩ := withExtension_of_has h e'
  obtain ⟨stem', hne', hname', hwith'⟩ := withExtension_of_has h' e'
  rw [hwith, hwith'] at heq
  suffices stem = stem' by
    rw [← String.toList_inj, hname, hname', this]
  split at heq
  · next hd =>
    split at heq
    · next hd' => rw [hd, hd']
    · exact hd.trans (dots hne' heq).symm
  · split at heq
    · next hd' => exact (dots hne heq.symm).trans hd'.symm
    · exact List.append_cancel_right (String.ofList_inj.mp heq)

theorem renamed_concat (e : String) (names : List String) (name : String) :
    renamed e (names ++ [name]) = names ++ [withExtension e name] := by
  induction names with
  | nil => rfl
  | cons first names ih =>
    obtain ⟨next, rest, hrest⟩ := List.exists_cons_of_ne_nil (List.concat_ne_nil name names)
    rw [List.cons_append, List.cons_append, ← ih, hrest]
    rfl

end MailComposer.Cli.Path
