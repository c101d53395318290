import MailComposer.Proofs.Text.Ascii
import MailComposer.Style.CssName
import MailComposer.Text.Blank

/-!
Capitals and hyphens in the names of keys. A name is built character by character: a capital brings
a hyphen along unless the name is still empty, whatever the name ends in. Main statement: a name has
no capitals and is its own name, and it is the key in small letters only where no capital stands
behind the first character; each of these adds a hyphen, in keys with hyphens too.
-/
namespace MailComposer

private theorem toLower_eq_hyphen {c : Char} : c.toLower = '-' ↔ c = '-' :=
  of_toLower (p := fun c d => d = '-' ↔ c = '-') (by decide) (fun _ _ => Iff.rfl) c

private theorem hyphenated_of_not_upper {c : Char} (hu : c.isUpper = false) : hyphenated c = [c] :=
  if_neg (Bool.eq_false_iff.mp hu)

/-- A capital brings one hyphen along. -/
private theorem count_hyphen_hyphenated (c : Char) :
    (hyphenated c).count '-' = [c].count '-' + [c].countP Char.isUpper :=
  of_toLower (p := fun c d => (if c.isUpper then ['-', d] else [c]).count '-' =
    [c].count '-' + [c].countP Char.isUpper) (by decide) (fun c hu => by simp [hu]) c

/-- But for hyphens, a character gives its small letter. -/
private theorem filter_hyphenated (c : Char) :
    (hyphenated c).filter (· != '-') = [c.toLower].filter (· != '-') :=
  of_toLower (p := fun c d => (if c.isUpper then ['-', d] else [c]).filter (· != '-') =
    [d].filter (· != '-')) (by decide) (fun c hu => by rw [hu]; rfl) c

/-- The name so far with one character more of the key. -/
def extendName (name : List Char) (c : Char) : List Char :=
  if c.isUpper then (if name.isEmpty then name else name ++ ['-']) ++ [c.toLower] else name ++ [c]

private theorem extendName_nil (c : Char) : extendName [] c = [c.toLower] :=
  of_toLower (p := fun c d => (if c.isUpper then [d] else [c]) = [d]) (by decide)
    (fun c hu => by rw [hu]; rfl) c

private theorem extendName_of_ne_nil {name : List Char} (hne : name ≠ []) (c : Char) :
    extendName name c = name ++ hyphenated c := by
  rw [extendName, hyphenated, if_neg (mt List.isEmpty_iff.mp hne)]
  split
  · exact List.append_assoc ..
  · rfl

private theorem foldl_extendName {name : List Char} (hne : name ≠ []) (cs : List Char) :
    cs.foldl extendName name = name ++ cs.flatMap hyphenated := by
  induction cs generalizing name with
  | nil => exact (List.append_nil name).symm
  | cons c cs ih =>
    rw [List.foldl_cons, extendName_of_ne_nil hne, ih (List.append_ne_nil_of_left_ne_nil hne _),
      List.flatMap_cons, List.append_assoc]

/-- Only at the first character the name is empty. -/
theorem foldl_extendName_nil (cs : List Char) : cs.foldl extendName [] = cssChars cs := by
  cases cs with
  | nil => rfl
  | cons c cs =>
    rw [List.foldl_cons, extendName_nil, foldl_extendName (List.cons_ne_nil _ _), cssChars]
    rfl

def NoCapitals (cs : List Char) : Prop := ∀ c ∈ cs, c.isUpper = false

private theorem noCapitals_extendName {name : List Char} (h : NoCapitals name) (c : Char) :
    NoCapitals (extendName name c) := by
  have hlast {ds : List Char} (hds : NoCapitals ds) {d : Char} (hd : d.isUpper = false) :
      NoCapitals (ds ++ [d]) :=
    List.forall_mem_append.mpr ⟨hds, List.forall_mem_singleton.mpr hd⟩
  rw [extendName]
  split
  · next hu =>
    refine hlast ?_ (of_isUpper (p := fun c => c.toLower.isUpper = false) (by decide) hu)
    split
    · exact h
    · exact hlast h (by decide)
  · next hu => exact hlast h (Bool.eq_false_iff.mpr hu)

theorem noCapitals_cssChars (cs : List Char) : NoCapitals (cssChars cs) := by
  rw [← foldl_extendName_nil]
  exact List.foldlRecOn cs extendName (List.forall_mem_nil _) fun _ h c _ =>
    noCapitals_extendName h c

private theorem map_toLower_of_noCapitals {cs : List Char} (h : NoCapitals cs) :
    cs.map Char.toLower = cs := by
  have same (c : Char) : c.isUpper = false → c.toLower = c :=
    of_toLower (p := fun c d => c.isUpper = false → d = c) (by decide) (fun _ _ _ => rfl) c
  exact (List.map_congr_left fun c hc => same c (h c hc)).trans (List.map_id' cs)

private theorem flatMap_hyphenated_of_noCapitals {cs : List Char} (h : NoCapitals cs) :
    cs.flatMap hyphenated = cs := by
  induction cs with
  | nil => rfl
  | cons c cs ih =>
    obtain ⟨hc, hcs⟩ := List.forall_mem_cons.mp h
    rw [List.flatMap_cons, hyphenated_of_not_upper hc, ih hcs, List.singleton_append]

private theorem cssChars_of_noCapitals_tail {cs : List Char} (h : NoCapitals cs.tail) :
    cssChars cs = cs.map Char.toLower := by
  cases cs with
  | nil => rfl
  | cons c cs =>
    have hrest := (flatMap_hyphenated_of_noCapitals h).trans (map_toLower_of_noCapitals h).symm
    exact congrArg (c.toLower :: ·) hrest

theorem cssChars_cssChars (cs : List Char) : cssChars (cssChars cs) = cssChars cs := by
  have h := noCapitals_cssChars cs
  rw [cssChars_of_noCapitals_tail fun c hc => h c (List.mem_of_mem_tail hc),
    map_toLower_of_noCapitals h]

private theorem count_hyphen_map_toLower (cs : List Char) :
    (cs.map Char.toLower).count '-' = cs.count '-' := by
  rw [List.count, List.countP_map]
  exact List.countP_congr fun c _ => by simp [toLower_eq_hyphen]

private theorem count_hyphen_flatMap (cs : List Char) :
    (cs.flatMap hyphenated).count '-' = cs.count '-' + cs.countP Char.isUpper := by
  induction cs with
  | nil => rfl
  | cons c cs ih =>
    rw [← List.singleton_append, List.flatMap_append, List.flatMap_singleton, List.count_append,
      List.count_append, List.countP_append, count_hyphen_hyphenated, ih]
    omega

private theorem filter_flatMap_hyphenated (cs : List Char) :
    (cs.flatMap hyphenated).filter (· != '-') = (cs.map Char.toLower).filter (· != '-') := by
  induction cs with
  | nil => rfl
  | cons c cs ih =>
    rw [List.flatMap_cons, List.filter_append, filter_hyphenated, ih, ← List.filter_append]
    rfl

theorem hyphens_cssChars (cs : List Char) :
    (cssChars cs).count '-' = cs.count '-' + cs.tail.countP Char.isUpper ∧
      (cssChars cs).filter (· != '-') = (cs.map Char.toLower).filter (· != '-') := by
  cases cs with
  | nil => exact ⟨rfl, rfl⟩
  | cons c cs =>
    have hsame : (c.toLower == '-') = (c == '-') := by
      rw [Bool.eq_iff_iff, beq_iff_eq, beq_iff_eq, toLower_eq_hyphen]
    constructor
    · rw [cssChars, List.tail_cons, List.count_cons, List.count_cons, count_hyphen_flatMap, hsame]
      omega
    · rw [cssChars, List.map_cons, List.filter_cons, List.filter_cons, filter_flatMap_hyphenated]

/-- A capital behind the first character shows as a hyphen too many. -/
theorem cssChars_eq_map_toLower {cs : List Char} :
    cssChars cs = cs.map Char.toLower ↔ NoCapitals cs.tail := by
  constructor
  · intro h
    have hcount := (hyphens_cssChars cs).1
    rw [h, count_hyphen_map_toLower] at hcount
    have hnone : cs.tail.countP Char.isUpper = 0 := by omega
    exact fun c hc => Bool.eq_false_iff.mpr (List.countP_eq_zero.mp hnone c hc)
  · exact cssChars_of_noCapitals_tail

/-- A name is its own name and has no capitals. It is the key in small letters just where no capital
stands behind the first character, whether the key has hyphens or not: each such capital adds one
hyphen, and nothing else is added. -/
theorem cssName_eq_lower_iff (key : String) :
    cssName (cssName key) = cssName key ∧ (∀ c ∈ (cssName key).toList, c.isUpper = false) ∧
      (cssName key = Text.lower key ↔ ∀ c ∈ key.toList.tail, c.isUpper = false) ∧
      (cssName key).toList.count '-' =
        key.toList.count '-' + key.toList.tail.countP Char.isUpper ∧
      (cssName key).toList.filter (· != '-') = (Text.lower key).toList.filter (· != '-') := by
  have hname : (cssName key).toList = cssChars key.toList := String.toList_ofList
  have hlower : (Text.lower key).toList = key.toList.map Char.toLower := String.toList_ofList
  obtain ⟨hcount, hfilter⟩ := hyphens_cssChars key.toList
  rw [hname, hlower]
  refine ⟨?_, noCapitals_cssChars key.toList, ?_, hcount, hfilter⟩
  · rw [cssName, hname, cssChars_cssChars, ← hname, String.ofList_toList]
  · rw [← String.toList_inj, hname, hlower]
    exact cssChars_eq_map_toLower

/-- A key with a hyphen is not passed through in small letters. -/
theorem border_top_gains_hyphen :
    '-' ∈ "Border-Top".toList ∧ cssName "Border-Top" = "border--top" ∧
      Text.lower "Border-Top" = "border-top" := by
  decide

end MailComposer
