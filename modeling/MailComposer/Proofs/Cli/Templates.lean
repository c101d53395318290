import MailComposer.Proofs.Cli.Runs

/-!
The templates that stand below a path, and the sources that are found there. Main statement: what is
found is what is there, as far as folders can be opened, and the documents of all templates go to
places of their own.
-/
namespace MailComposer.Cli

open Machine
open Cli.Path (Word Plain)

/-- Templates have names as seen from a folder; a single file stands in its own. -/
def Machine.topOf (m : Machine) (l : Location) : Location := if m.isFolder l then l else l.dropLast

/-- The last of the names is that of a template. -/
def NamedJson (names : List String) : Prop := names.getLast?.any (Path.hasExtension "json") = true

instance (names : List String) : Decidable (NamedJson names) :=
  inferInstanceAs (Decidable (_ = true))

/-- The names lead to a file that is named like a template and stands at a path or below it. -/
structure TemplateFile (m : Machine) (src : Path) (names : List String) (text : String) :
    Prop where
  json : NamedJson names
  found : ∃ l, m.locate src = some l ∧ l <+: m.topOf l ++ names ∧
    m.files.get? (m.topOf l ++ names) = some text

/-- How the path of a template is spelled. -/
def templatePath (m : Machine) (src : Path) (names : List String) : Path :=
  if (m.locate src).any m.isFolder then src.below names else src

/-- Where the document of a template goes. -/
def documentPath (out : Path) (names : List String) : Path := out.below (Path.renamed "html" names)

private theorem NamedJson.exists_last {names : List String} (h : NamedJson names) :
    ∃ dirs name, names = dirs ++ [name] ∧ Path.hasExtension "json" name = true := by
  rcases List.eq_nil_or_concat names with rfl | ⟨dirs, name, rfl⟩
  · cases h
  · rw [NamedJson, List.concat_eq_append, List.getLast?_concat] at h
    exact ⟨dirs, name, List.concat_eq_append, h⟩

private theorem getLast?_extension (stem e : List Char) :
    (stem ++ '.' :: e).getLast? = some (e.getLast?.getD '.') := by
  rw [List.getLast?_append, List.getLast?_cons, Option.some_or]

private theorem toList_withExtension_html {name : String}
    (h : Path.hasExtension "json" name = true) :
    (Path.withExtension "html" name).toList = ['.', '.'] ∨
      ∃ stem ⊆ name.toList, (Path.withExtension "html" name).toList = stem ++ ".html".toList := by
  obtain ⟨stem, -, hname, hwith⟩ := Path.withExtension_of_has h "html"
  rw [hwith]
  split
  · exact .inl rfl
  · refine .inr ⟨stem, hname ▸ List.subset_append_left _ _, ?_⟩
    rw [String.toList_ofList]
    rfl

private theorem word_withExtension_html {name : String} (h : Path.hasExtension "json" name = true)
    (hp : Plain name) : Word (Path.withExtension "html" name) := by
  rcases toList_withExtension_html h with hup | ⟨stem, hstem, hhtml⟩
  · rw [show Path.withExtension "html" name = ".." from String.toList_inj.mp hup]
    exact Path.word_up
  · have last : (Path.withExtension "html" name).toList.getLast? = some 'l' := by
      rw [hhtml, show stem ++ ".html".toList = stem ++ '.' :: "html".toList from rfl,
        getLast?_extension]
      rfl
    refine ⟨?_, fun hslash => ?_⟩
    · rw [Path.isStep, Bool.and_eq_true, decide_eq_true_eq, decide_eq_true_eq]
      constructor
      all_goals
        intro he
        rw [he] at last
        cases last
    · rw [hhtml] at hslash
      rcases List.mem_append.mp hslash with hs | hs
      · exact hp.slash (hstem hs)
      · exact absurd hs (by decide)

/-- With another extension a template has another name. -/
private theorem withExtension_html_ne {name name' : String}
    (h : Path.hasExtension "json" name = true)
    (h' : Path.hasExtension "json" name' = true) : Path.withExtension "html" name ≠ name' := by
  rintro rfl
  obtain ⟨stem, -, hname, -⟩ := Path.withExtension_of_has h' "html"
  have last := getLast?_extension stem "json".toList
  rw [← hname] at last
  rcases toList_withExtension_html h with hup | ⟨stem', -, hhtml⟩
  · rw [hup] at last
    cases last
  · rw [hhtml, show stem' ++ ".html".toList = stem' ++ '.' :: "html".toList from rfl,
      getLast?_extension] at last
    cases last

/-- Templates with the same document are the same. -/
theorem renamed_html_injective {names names' : List String} (h : NamedJson names)
    (h' : NamedJson names') (heq : Path.renamed "html" names = Path.renamed "html" names') :
    names = names' := by
  obtain ⟨dirs, name, rfl, hjson⟩ := h.exists_last
  obtain ⟨dirs', name', rfl, hjson'⟩ := h'.exists_last
  rw [Path.renamed_concat, Path.renamed_concat] at heq
  obtain ⟨rfl, hname⟩ := List.append_inj' heq rfl
  rw [Path.withExtension_injective hjson hjson' "html" (List.singleton_inj.mp hname)]

private theorem word_renamed_html {names : List String} (h : NamedJson names)
    (hp : ∀ name ∈ names, Plain name) : ∀ name ∈ Path.renamed "html" names, Word name := by
  obtain ⟨dirs, name, rfl, hjson⟩ := h.exists_last
  rw [Path.renamed_concat]
  refine List.forall_mem_append.mpr ⟨fun dir hd => ?_, List.forall_mem_singleton.mpr ?_⟩
  · exact (hp dir (List.mem_append_left _ hd)).toWord
  · exact word_withExtension_html hjson (hp name (List.mem_append_right dirs List.mem_cons_self))

section
variable {m : Machine} {src : Path} {l : Location}

/-- A file has the name that its path ends in. -/
theorem fileName?_of_locate (hm : m.Sound) (hl : m.locate src = some l)
    (hf : m.isFolder l = false) : ∃ name, src.fileName? = some name ∧
      l = m.topOf l ++ [name] ∧ src.steps.getLast? = some name := by
  obtain hfolder | ⟨folder, name, rfl, -, plain, hlast⟩ := hm.locate_cases hl
  · rw [hf] at hfolder
    cases hfolder
  · obtain ⟨init, hparts⟩ := List.getLast?_eq_some_iff.mp hlast
    have steps : src.steps.getLast? = some name := by
      rw [Path.steps, hparts, List.filter_append, List.filter_cons_of_pos plain.isStep,
        List.filter_nil, List.getLast?_concat]
    refine ⟨name, ?_, ?_, steps⟩
    · rw [Path.fileName?, steps, Option.filter_some, if_pos (decide_eq_true plain.ne_up)]
    · rw [topOf, hf, if_neg Bool.false_ne_true, List.dropLast_concat]

theorem TemplateFile.plain {names : List String} {text : String} (hm : m.Sound)
    (h : TemplateFile m src names text) : ∀ name ∈ names, Plain name := by
  obtain ⟨l, -, -, hfile⟩ := h.found
  exact fun name hn => hm.plain _ (.inr (Option.isSome_of_eq_some hfile)) name
    (List.mem_append_right _ hn)

end

/-- The sources that the command finds. -/
def sources (m : Machine) (src : Path) : List Source :=
  (((m.contents src).filter (isTemplate src)).mergeSort fun a b => !decide (b < a)).map
    (sourceOf src ((m.locate src).bind m.entry))

private theorem under_eq_some {l other names : Location} :
    under l other = some names ↔ other = l ++ names := by
  unfold under
  split
  · next h =>
    obtain ⟨rest, rfl⟩ := List.isPrefixOf_iff_prefix.mp h
    rw [List.drop_left, Option.some.injEq, List.append_cancel_left_eq]
  · next h =>
    refine ⟨nofun, ?_⟩
    rintro rfl
    exact absurd (List.isPrefixOf_iff_prefix.mpr (List.prefix_append l names)) h

section
variable {m : Machine} {src : Path} {l : Location}

theorem mem_keys {l : Location} :
    l ∈ m.files.entries.map Prod.fst ↔ (m.files.get? l).isSome = true := by
  rw [Option.isSome_iff_exists, List.mem_map]
  constructor
  · rintro ⟨⟨_, text⟩, he, rfl⟩
    exact ⟨text, Dictionary.get?_eq_some_iff.mpr he⟩
  · rintro ⟨text, ht⟩
    exact ⟨(l, text), Dictionary.get?_eq_some_iff.mp ht, rfl⟩

theorem mem_contents (hl : m.locate src = some l) {names : List String} :
    names ∈ m.contents src ↔ (m.entry l).isSome = true ∧
      (names = [] ∨ (names ≠ [] ∧ isPath (src.below names.dropLast) = true) ∧
        ((m.files.get? (l ++ names)).isSome = true ∨ l ++ names ∈ m.folders)) := by
  rw [contents, hl]
  dsimp only
  split
  · next he =>
    rw [List.mem_cons, List.mem_filter, List.mem_filterMap]
    simp only [under_eq_some, exists_eq_right, List.mem_append, mem_keys, decide_eq_true_eq,
      Bool.decide_and, Bool.and_eq_true, he, true_and]
    rw [and_comm]
  · next he => simp [he]

theorem nodup_contents (hm : m.Sound) (src : Path) : (m.contents src).Nodup := by
  unfold contents
  split
  · exact List.nodup_nil
  · next l hl =>
    split
    · have keys : ((m.files.entries.map Prod.fst) ++ m.folders).Nodup := by
        refine List.nodup_append.mpr ⟨m.files.ascending.nodup_keys, hm.nodup, ?_⟩
        rintro a ha b hb rfl
        have file := (hm.file a (mem_keys.mp ha)).1
        rw [isFolder_iff.mpr (.inr hb)] at file
        cases file
      have names := keys.filterMap (f := under l) fun a b names ha hb => by
        rw [under_eq_some.mp ha, under_eq_some.mp hb]
      refine List.nodup_cons.mpr ⟨fun h => ?_, names.filter _⟩
      have := (List.mem_filter.mp h).2
      simp at this
    · exact List.nodup_nil

private theorem entry_of_isFolder (hf : m.isFolder l = true) : m.entry l = some .folder := if_pos hf

private theorem topOf_of_isFolder (hf : m.isFolder l = true) : m.topOf l = l := if_pos hf

private theorem templatePath_of_isFolder (hl : m.locate src = some l) (hf : m.isFolder l = true)
    (names : List String) : templatePath m src names = src.below names := by
  rw [templatePath, hl, Option.any_some, if_pos hf]

private theorem templatePath_of_file (hl : m.locate src = some l) (hf : m.isFolder l = false)
    (names : List String) : templatePath m src names = src := by
  rw [templatePath, hl, Option.any_some, hf]
  rfl

/-- At a file nothing is found but the file. -/
private theorem contents_of_file (hm : m.Sound) (hl : m.locate src = some l)
    (hf : m.isFolder l = false)
    {names : List String} (h : names ∈ m.contents src) : names = [] ∧ m.entry l = some .file := by
  obtain ⟨hentry, rfl | ⟨⟨hne, -⟩, hfound⟩⟩ := (mem_contents hl).mp h
  · refine ⟨rfl, ?_⟩
    rw [entry, hf] at hentry ⊢
    rw [if_neg Bool.false_ne_true] at hentry ⊢
    split at hentry
    · next hfile => rw [if_pos hfile]
    · cases hentry
  · have folder := hm.isFolder_of_below hne
      (hfound.symm.imp_left fun h => isFolder_iff.mpr (.inr h))
    rw [hf] at folder
    cases folder

/-- A source as it is found: its names lead to it, and they end in that of a template unless it is
the folder of the templates itself. -/
structure Found (m : Machine) (src : Path) (l : Location) (s : Source) : Prop where
  path : s.path = templatePath m src s.names
  plain : ∀ name ∈ s.names, Plain name
  json : NamedJson s.names ∨ s.names = [] ∧ m.isFolder l = true
  single : m.isFolder l = false → l = m.topOf l ++ s.names

theorem found_of_mem (hm : m.Sound) (hl : m.locate src = some l) {names : List String}
    (h : names ∈ m.contents src) (ht : isTemplate src names = true) :
    Found m src l (sourceOf src (m.entry l) names) := by
  cases hf : m.isFolder l with
  | true =>
    rw [entry_of_isFolder hf]
    have source : sourceOf src (some .folder) names = ⟨src.below names, names⟩ := by
      cases names <;> rfl
    rw [source]
    obtain ⟨-, hnames⟩ := (mem_contents hl).mp h
    refine ⟨(templatePath_of_isFolder hl hf names).symm, ?_, ?_, fun h => ?_⟩
    · rcases hnames with rfl | ⟨-, hfound⟩
      · exact List.forall_mem_nil _
      · exact fun name hn => hm.plain (l ++ names)
          (hfound.symm.imp_left fun h => isFolder_iff.mpr (.inr h)) name
          (List.mem_append_right l hn)
    · rw [isTemplate, nameOf] at ht
      cases hlast : names.getLast? with
      | none => exact .inr ⟨List.getLast?_eq_none_iff.mp hlast, hf⟩
      | some name =>
        rw [hlast] at ht
        refine .inl ?_
        rw [NamedJson, hlast]
        exact ht
    · rw [hf] at h
      cases h
  | false =>
    obtain ⟨rfl, hentry⟩ := contents_of_file hm hl hf h
    obtain ⟨name, hname, hlast, -⟩ := fileName?_of_locate hm hl hf
    have source : sourceOf src (m.entry l) [] = ⟨src, [name]⟩ := by
      rw [hentry, sourceOf, hname]
      rfl
    have json : Path.hasExtension "json" name = true := by
      rwa [isTemplate, nameOf, List.getLast?_nil, hname, Option.any_some] at ht
    have plain : ∀ n ∈ l, Plain n := hm.locate_plain hl
    rw [source]
    refine ⟨(templatePath_of_file hl hf [name]).symm, ?_, .inl json, fun _ => hlast⟩
    exact fun n hn => plain n (hlast ▸ List.mem_append_right _ hn)

theorem found_of_mem_sources (hm : m.Sound) (hl : m.locate src = some l) {s : Source}
    (h : s ∈ sources m src) : Found m src l s := by
  obtain ⟨names, hnames, rfl⟩ := List.mem_map.mp h
  obtain ⟨hc, ht⟩ := List.mem_filter.mp (List.mem_mergeSort.mp hnames)
  rw [hl, Option.bind_some]
  exact found_of_mem hm hl hc ht

theorem mem_sources (hl : m.locate src = some l) {names : List String}
    (hc : names ∈ m.contents src) (ht : isTemplate src names = true) :
    sourceOf src (m.entry l) names ∈ sources m src := by
  refine List.mem_map.mpr ⟨names, List.mem_mergeSort.mpr (List.mem_filter.mpr ⟨hc, ht⟩), ?_⟩
  rw [hl, Option.bind_some]

/-- A path that leads to a file leads to no other template. -/
theorem TemplateFile.single (hm : m.Sound) {names : List String} {text : String}
    (h : TemplateFile m src names text) (hl : m.locate src = some l) (hf : m.isFolder l = false) :
    l = m.topOf l ++ names := by
  obtain ⟨l', hl', ⟨rest, hrest⟩, hfile⟩ := h.found
  obtain rfl := Option.some.inj (hl.symm.trans hl')
  by_cases hne : rest = []
  · rwa [hne, List.append_nil] at hrest
  · rw [← hrest] at hfile
    have folder := hm.isFolder_of_below hne (.inr (Option.isSome_of_eq_some hfile))
    rw [hf] at folder
    cases folder

/-- Files are found by the names that lead to them, unless the path of their folder is too long. -/
theorem TemplateFile.mem_sources (hm : m.Sound) {names : List String} {text : String}
    (h : TemplateFile m src names text)
    (hshort : (src.below names.dropLast).text.utf8ByteSize < pathLimit) :
    ⟨templatePath m src names, names⟩ ∈ sources m src := by
  obtain ⟨l, hl, -, hfile⟩ := h.found
  obtain ⟨dirs, name, rfl, hjson⟩ := h.json.exists_last
  have hfile := Option.isSome_of_eq_some hfile
  cases hf : m.isFolder l with
  | true =>
    rw [topOf_of_isFolder hf] at hfile
    have path : isPath (src.below dirs) = true := by
      rw [List.dropLast_concat] at hshort
      exact isPath_below (locate_eq_some.mp hl).1
        (fun d hd => h.plain hm d (List.mem_append_left _ hd)) hshort
    have hc : dirs ++ [name] ∈ m.contents src := by
      refine (mem_contents hl).mpr ⟨by rw [entry_of_isFolder hf]; rfl, .inr ⟨⟨?_, ?_⟩, .inl hfile⟩⟩
      · exact List.concat_ne_nil name dirs
      · rwa [List.dropLast_concat]
    have ht : isTemplate src (dirs ++ [name]) = true := by
      rw [isTemplate, nameOf, List.getLast?_concat]
      exact hjson
    have mem := Cli.mem_sources hl hc ht
    rw [entry_of_isFolder hf] at mem
    rw [templatePath_of_isFolder hl hf]
    cases dirs <;> exact mem
  | false =>
    have hrest := h.single hm hl hf
    obtain ⟨own, hname, hlast, -⟩ := fileName?_of_locate hm hl hf
    have names : [own] = dirs ++ [name] := List.append_cancel_left (hlast.symm.trans hrest)
    have hentry : m.entry l = some .file := by
      rw [entry, hf, if_neg Bool.false_ne_true, if_pos (hrest ▸ hfile)]
    have hc : [] ∈ m.contents src := (mem_contents hl).mpr ⟨by rw [hentry]; rfl, .inl rfl⟩
    have ht : isTemplate src [] = true := by
      rw [isTemplate, nameOf, List.getLast?_nil, hname, Option.any_some]
      have last := congrArg List.getLast? names
      rw [List.getLast?_singleton, List.getLast?_concat] at last
      exact Option.some.inj last ▸ hjson
    have mem := Cli.mem_sources hl hc ht
    rw [hentry, sourceOf, hname] at mem
    rw [templatePath_of_file hl hf, ← names]
    exact mem

/-- The path of a template ends in its last name. -/
private theorem TemplateFile.getLast?_steps (hm : m.Sound) {names : List String} {text : String}
    (h : TemplateFile m src names text) :
    (templatePath m src names).steps.getLast? = names.getLast? := by
  obtain ⟨l, hl, -⟩ := h.found
  obtain ⟨dirs, name, hnames, -⟩ := h.json.exists_last
  cases hf : m.isFolder l with
  | true =>
    rw [templatePath_of_isFolder hl hf, Path.steps_below src fun n hn => (h.plain hm n hn).toWord,
      hnames, ← List.append_assoc, List.getLast?_concat, List.getLast?_concat]
  | false =>
    obtain ⟨own, -, hlast, hsteps⟩ := fileName?_of_locate hm hl hf
    have same := List.append_cancel_left (hlast.symm.trans (h.single hm hl hf))
    rw [templatePath_of_file hl hf, hsteps, ← same, List.getLast?_singleton]

/-- At the place of a source that is a file there is a template. -/
theorem Found.json_of_file (hm : m.Sound) {s : Source} (h : Found m src l s)
    (hfile : (m.files.get? (m.topOf l ++ s.names)).isSome = true) : NamedJson s.names := by
  rcases h.json with hjson | ⟨hnil, hf⟩
  · exact hjson
  · rw [hnil, List.append_nil, topOf_of_isFolder hf] at hfile
    have file := (hm.file l hfile).1
    rw [hf] at file
    cases file

theorem Found.templateFile (hm : m.Sound) (hl : m.locate src = some l) {s : Source}
    (h : Found m src l s) {text : String}
    (hfile : m.files.get? (m.topOf l ++ s.names) = some text) :
    TemplateFile m src s.names text := by
  refine ⟨h.json_of_file hm (Option.isSome_of_eq_some hfile), l, hl, ?_, hfile⟩
  cases hf : m.isFolder l with
  | true =>
    rw [topOf_of_isFolder hf]
    exact List.prefix_append l s.names
  | false => exact h.single hf ▸ List.prefix_refl l

/-- Also when folders and files have been added, a source leads to its place. -/
theorem Found.locate {m' : Machine} {l' : Location} (hl : m.locate src = some l) {s : Source}
    (h : Found m src l s) (hg : Grown m m') (hl' : m'.locate s.path = some l') :
    l' = m.topOf l ++ s.names := by
  have start := hg.locate hl
  cases hf : m.isFolder l with
  | true =>
    rw [h.path, templatePath_of_isFolder hl hf] at hl'
    rw [topOf_of_isFolder hf]
    by_cases hne : s.names = []
    · rw [hne] at hl' ⊢
      rw [List.append_nil]
      exact Option.some.inj (hl'.symm.trans start)
    · obtain ⟨top, htop, ht⟩ := trail_below (fun n hn => (h.plain n hn).toWord) hne hl'
      obtain rfl := Option.some.inj (htop.symm.trans (locate_eq_some.mp start).2)
      exact trail_names (fun n hn => ⟨(h.plain n hn).toWord, (h.plain n hn).ne_up⟩) ht
  | false =>
    rw [h.path, templatePath_of_file hl hf] at hl'
    rw [← h.single hf]
    exact Option.some.inj (hl'.symm.trans start)

/-- The document of a template is never put in the place of a source. -/
theorem Found.clear {m' : Machine} {l' : Location} {out : Path} {s s' : Source}
    (h : Found m src l s) (hjson : NamedJson s.names)
    (h' : Found m src l s') (hg : Grown m m') (hm' : m'.Sound)
    (hl' : m'.locate (documentPath out s.names) = some l') (hf : m'.isFolder l' = false) :
    l' ≠ m.topOf l ++ s'.names := by
  rintro rfl
  have words := word_renamed_html hjson h.plain
  obtain ⟨dirs, name, hnames, hjson⟩ := hjson.exists_last
  obtain hfolder | ⟨folder, last, heq, -, -, hlast⟩ := hm'.locate_cases hl'
  · rw [hf] at hfolder
    cases hfolder
  rcases h'.json with hjson' | ⟨hnil, hfolder⟩
  · obtain ⟨dirs', name', hnames', hjson'⟩ := hjson'.exists_last
    rw [hnames', ← List.append_assoc] at heq
    obtain rfl : name' = last := (List.append_singleton_inj.mp heq).2
    have renamed := Path.renamed_concat "html" dirs name
    rw [← hnames] at renamed
    rw [documentPath, Path.getLast?_parts_below out words (renamed ▸ List.concat_ne_nil _ _),
      renamed, List.getLast?_concat] at hlast
    exact withExtension_html_ne hjson hjson' (Option.some.inj hlast)
  · rw [hnil, List.append_nil, topOf_of_isFolder hfolder, hg.folders l hfolder] at hf
    cases hf

private theorem apart_documentPath (out : Path) {names names' : List String} (hne : names ≠ names')
    (hjson : NamedJson names) (hjson' : NamedJson names')
    (hp : ∀ name ∈ names, Plain name) (hp' : ∀ name ∈ names', Plain name) :
    Apart (documentPath out names) (documentPath out names') := by
  have differ := mt (renamed_html_injective hjson hjson') hne
  have words := word_renamed_html hjson hp
  have words' := word_renamed_html hjson' hp'
  obtain ⟨dirs, name, rfl, hjson⟩ := hjson.exists_last
  obtain ⟨dirs', name', rfl, hjson'⟩ := hjson'.exists_last
  rw [documentPath, documentPath]
  rw [Path.renamed_concat] at differ words ⊢
  rw [Path.renamed_concat] at differ words' ⊢
  exact apart_below out (fun d hd => hp d (List.mem_append_left _ hd))
    (fun d hd => hp' d (List.mem_append_left _ hd))
    (words _ (List.mem_append_right _ List.mem_cons_self))
    (words' _ (List.mem_append_right _ List.mem_cons_self)) differ

theorem separate_sources (hm : m.Sound) (hl : m.locate src = some l) (out : Path) :
    Separate m out (fun s => m.topOf l ++ s.names) (sources m src) where
  located s hs m' l' hg hl' := (found_of_mem_sources hm hl hs).locate hl hg hl'
  clear s hs hfile s' hs' m' l' hg hm' hl' hf := by
    have found := found_of_mem_sources hm hl hs
    exact found.clear (found.json_of_file hm hfile) (found_of_mem_sources hm hl hs') hg hm' hl' hf
  apart := by
    have nodup := (List.mergeSort_perm _ fun a b => !decide (b < a)).nodup_iff.mpr
      ((nodup_contents hm src).filter (isTemplate src))
    refine List.pairwise_map.mpr (nodup.imp_of_mem fun {a b} ha hb hne hfa hfb => ?_)
    obtain ⟨ha, hta⟩ := List.mem_filter.mp (List.mem_mergeSort.mp ha)
    obtain ⟨hb, htb⟩ := List.mem_filter.mp (List.mem_mergeSort.mp hb)
    have founda := found_of_mem hm hl ha hta
    have foundb := found_of_mem hm hl hb htb
    rw [hl, Option.bind_some] at hfa hfb ⊢
    refine apart_documentPath out (fun he => ?_) (founda.json_of_file hm hfa)
      (foundb.json_of_file hm hfb) founda.plain foundb.plain
    cases hf : m.isFolder l with
    | true =>
      have names (c : List String) : (sourceOf src (some .folder) c).names = c := by cases c <;> rfl
      rw [entry_of_isFolder hf, names, names] at he
      exact hne he
    | false =>
      exact hne ((contents_of_file hm hl hf ha).1.trans (contents_of_file hm hl hf hb).1.symm)

private theorem steps_documentPath (hm : m.Sound) {names : List String} {text : String}
    (h : TemplateFile m src names text) (out : Path) :
    (documentPath out names).steps = out.steps ++ Path.renamed "html" names :=
  Path.steps_below out (word_renamed_html h.json (h.plain hm))

theorem documentPath_injective (hm : m.Sound) (out : Path) {names names' : List String}
    {text text' : String} (h : TemplateFile m src names text)
    (h' : TemplateFile m src names' text')
    (heq : (documentPath out names).steps = (documentPath out names').steps) : names = names' := by
  rw [steps_documentPath hm h, steps_documentPath hm h'] at heq
  exact renamed_html_injective h.json h'.json (List.append_cancel_left heq)

theorem documentPath_ne_templatePath (hm : m.Sound) (out : Path) {names names' : List String}
    {text text' : String} (h : TemplateFile m src names text)
    (h' : TemplateFile m src names' text') :
    (documentPath out names).steps ≠ (templatePath m src names').steps := by
  intro heq
  have last := congrArg List.getLast? heq
  rw [steps_documentPath hm h, h'.getLast?_steps hm] at last
  obtain ⟨dirs, name, rfl, hjson⟩ := h.json.exists_last
  obtain ⟨dirs', name', rfl, hjson'⟩ := h'.json.exists_last
  rw [Path.renamed_concat, ← List.append_assoc, List.getLast?_concat, List.getLast?_concat] at last
  exact withExtension_html_ne hjson hjson' (Option.some.inj last)

end

end MailComposer.Cli
