import MailComposer.Proofs.Cli.Templates

/-!
What the command that compiles templates leaves behind. Main statement: the documents mirror the
templates. Every template has a place of its own for its document, away from all templates; where
the command succeeds each document is there, and nothing else is ever written.
-/
namespace MailComposer.Cli

open Machine

namespace CompileArgs

/-- Where templates are looked for: where the arguments say, or else the settings. -/
def source (args : CompileArgs) (config : Config) (cwd : Path) : Path :=
  match args.path with
  | some path => cwd.join path
  | none => config.sourcePath cwd

/-- Where documents go. -/
def output (args : CompileArgs) (config : Config) (cwd : Path) : Path :=
  match args.outDir with
  | some dir => cwd.join dir
  | none => config.outPath cwd

def options (args : CompileArgs) (config : Config) : Html.Options :=
  { config.formatting.options with pretty := config.formatting.pretty && !args.compact }

end CompileArgs

/-- The command once its settings are known. -/
def compileFound (src : Path) (out : Option Path) (o : Html.Options) :
    Command (StateM Machine) Unit := do
  if (← (Host.look src : StateM Machine _)).isNone then throw (.sourceMissing src)
  say "🔨 Compiling email templates..."
  let sources ← findTemplates src
  if sources.isEmpty then say "⚠️  No template files found"
  else
    let (done, failed) ← (compileSources out o sources : StateM Machine _)
    say ""
    if failed = 0 then say ("✅ Compiled " ++ toString done ++ " files successfully")
    else
      say ("⚠️ Compiled " ++ toString done ++ " files, " ++ toString failed ++ " errors")
      throw (.failed failed)

private theorem compile_eq (args : CompileArgs) (cwd : Path) :
    (compile args cwd : Command (StateM Machine) Unit) = Config.load cwd >>= fun config =>
      compileFound (args.source config cwd)
        (if args.stdout then none else some (args.output config cwd)) (args.options config) := rfl

section
variable {α β : Type} (m : Machine)

private theorem perform_bind (x : Command (StateM Machine) α) (f : α → Command (StateM Machine) β) :
    m.perform (x >>= f) =
      match m.perform x with
      | (.ok a, m) => m.perform (f a)
      | (.error e, m) => (.error e, m) := by
  simp only [perform, bind, ExceptT.bind, ExceptT.mk, ExceptT.run, StateT.bind, StateT.run]
  obtain ⟨r, m⟩ := x m
  cases r <;> rfl

private theorem perform_lift (x : StateM Machine α) :
    m.perform (liftM x : Command (StateM Machine) α) = (.ok (x m).1, (x m).2) := rfl

private theorem perform_say (line : String) :
    m.perform (say line) = (.ok (), { m with printed := m.printed ++ [line] }) := rfl

private theorem perform_throw (e : CommandError) :
    m.perform (throw e : Command (StateM Machine) α) = (.error e, m) := rfl

private theorem perform_findTemplates (src : Path) :
    m.perform (findTemplates src) = (.ok (sources m src), m) := rfl

private theorem sources_printed (src : Path) (lines : List String) :
    sources { m with printed := lines } src = sources m src := rfl

end

/-- There is nothing to compile, or there is a run over the sources. What is printed before it and
after it is left open. -/
private theorem compileFound_cases (m : Machine) (src out : Path) (o : Html.Options) :
    let r := m.perform (compileFound src (some out) o)
    (m.locate src).bind m.entry = none ∧ r = (.error (.sourceMissing src), m) ∨
      ∃ l before after, m.locate src = some l ∧
        let run := (compileSources (some out) o (sources m src) : StateM Machine _)
          { m with printed := before }
        r.2 = { run.2 with printed := after } ∧ (r.1 = .ok () ↔ run.1.2 = 0) := by
  intro r
  have hr : r = m.perform (compileFound src (some out) o) := rfl
  have look : (Host.look src : StateM Machine _) m = ((m.locate src).bind m.entry, m) := rfl
  rw [compileFound, perform_bind, perform_lift, look] at hr
  dsimp only at hr
  cases hentry : (m.locate src).bind m.entry with
  | none =>
    rw [hentry, if_pos Option.isNone_none, perform_bind, perform_throw] at hr
    exact .inl ⟨rfl, hr⟩
  | some entry =>
    rw [hentry, if_neg (by simp), perform_bind, perform_say] at hr
    dsimp only at hr
    rw [perform_bind, perform_findTemplates, sources_printed] at hr
    dsimp only at hr
    obtain ⟨l, hl, -⟩ := Option.bind_eq_some_iff.mp hentry
    refine .inr ⟨l, m.printed ++ ["🔨 Compiling email templates..."], ?_⟩
    by_cases hnone : sources m src = []
    · rw [hnone, if_pos List.isEmpty_nil, perform_say] at hr
      rw [hnone, hr]
      exact ⟨_, hl, rfl, iff_of_true rfl rfl⟩
    · rw [if_neg (mt List.isEmpty_iff.mp hnone), perform_bind, perform_lift] at hr
      dsimp only at hr ⊢
      generalize (compileSources (some out) o (sources m src) : StateM Machine _)
        { m with printed := m.printed ++ ["🔨 Compiling email templates..."] } = run at hr ⊢
      obtain ⟨⟨done, failed⟩, m'⟩ := run
      rw [perform_bind, perform_say] at hr
      dsimp only at hr ⊢
      by_cases hfailed : failed = 0
      · rw [if_pos hfailed, perform_say] at hr
        rw [hr]
        exact ⟨_, hl, rfl, iff_of_true rfl hfailed⟩
      · rw [if_neg hfailed, perform_bind, perform_say] at hr
        dsimp only at hr
        rw [perform_throw] at hr
        rw [hr]
        exact ⟨_, hl, rfl, iff_of_false nofun hfailed⟩

/-- Reading the settings changes nothing. -/
private theorem perform_load (m : Machine) (cwd : Path) : (m.perform (Config.load cwd)).2 = m := by
  have look (p : Path) :
      (Host.look p : StateM Machine _) m = ((m.locate p).bind m.entry, m) := rfl
  have read (p : Path) : (Host.readFile p : StateM Machine _) m = (m.textAt p, m) := rfl
  rw [Config.load, perform_bind, perform_lift, look]
  dsimp only
  split
  · rfl
  · rw [perform_bind, perform_lift, read]
    dsimp only
    cases m.textAt (cwd.join Config.fileName) with
    | none => rfl
    | some text =>
      dsimp only
      cases Config.ofText? text <;> rfl

private theorem perform_compile {m : Machine} {args : CompileArgs} {cwd : Path} {config : Config}
    (hload : (m.perform (Config.load cwd)).1 = .ok config) (hout : args.stdout = false) :
    m.perform (compile args cwd) = m.perform (compileFound (args.source config cwd)
      (some (args.output config cwd)) (args.options config)) := by
  have loaded : m.perform (Config.load cwd) = (.ok config, m) :=
    Prod.ext hload (perform_load m cwd)
  rw [compile_eq, perform_bind, loaded, hout]
  rfl

section
variable {m : Machine} (hm : m.Sound) {src out : Path} {o : Html.Options}
include hm

private theorem compileFound_ok (hok : (m.perform (compileFound src (some out) o)).1 = .ok ())
    {names : List String} {text : String} (h : TemplateFile m src names text)
    (hshort : (src.below names.dropLast).text.utf8ByteSize < pathLimit) :
    ∃ t, Template.ofText? text = .ok t ∧
      (m.perform (compileFound src (some out) o)).2.textAt (documentPath out names) =
        some (Html.compileTemplate t o) := by
  rcases compileFound_cases m src out o with ⟨-, hr⟩ | ⟨l, before, after, hl, hr, hdone⟩
  · rw [hr] at hok
    cases hok
  · have ran := ran_compileSources out o ((grown_printed m before).sound hm)
      (separate_sources ((grown_printed m before).sound hm) hl out)
    obtain ⟨text', t, htext, ht, hwritten⟩ :=
      ran.compiled (hdone.mp hok) _ (h.mem_sources hm hshort)
    obtain ⟨l', hl', -, hfile⟩ := h.found
    obtain rfl := Option.some.inj (hl.symm.trans hl')
    obtain rfl := Option.some.inj (hfile.symm.trans htext)
    rw [hr]
    exact ⟨t, ht, hwritten⟩

private theorem compileFound_changed {l : Location}
    (h : (m.perform (compileFound src (some out) o)).2.files.get? l ≠ m.files.get? l) :
    ∃ names text, TemplateFile m src names text ∧
      (m.perform (compileFound src (some out) o)).2.locate (documentPath out names) = some l := by
  rcases compileFound_cases m src out o with ⟨-, hr⟩ | ⟨top, before, after, htop, hr, -⟩
  · rw [hr] at h
    exact absurd rfl h
  · have ran := ran_compileSources out o ((grown_printed m before).sound hm)
      (separate_sources ((grown_printed m before).sound hm) htop out)
    rw [hr] at h ⊢
    obtain ⟨s, hs, hfile, hlocate⟩ := ran.changed l h
    obtain ⟨text, htext⟩ := Option.isSome_iff_exists.mp hfile
    exact ⟨s.names, text, (found_of_mem_sources hm htop hs).templateFile hm htop htext, hlocate⟩

end

/-- A document has a path that no other document and no template has. Where the command succeeds,
every file with the name of a template can be read as one, unless it is out of reach, and its
document is compiled from the text it had at first. Whether it succeeds or not, no other file is
created or changed. -/
theorem compile_mirrors {m : Machine} (hm : m.Sound) {args : CompileArgs} {cwd : Path}
    {config : Config} (hload : (m.perform (Config.load cwd)).1 = .ok config)
    (hout : args.stdout = false) :
    let src := args.source config cwd
    let out := args.output config cwd
    let r := m.perform (compile args cwd)
    (∀ names text names' text', TemplateFile m src names text → TemplateFile m src names' text' →
      ((documentPath out names).steps = (documentPath out names').steps → names = names') ∧
      (documentPath out names).steps ≠ (templatePath m src names').steps) ∧
    (r.1 = .ok () → ∀ names text, TemplateFile m src names text →
      (src.below names.dropLast).text.utf8ByteSize < pathLimit →
      ∃ t, Template.ofText? text = .ok t ∧
        r.2.textAt (documentPath out names) =
          some (Html.compileTemplate t (args.options config))) ∧
    ∀ l, r.2.files.get? l ≠ m.files.get? l → ∃ names text, TemplateFile m src names text ∧
      r.2.locate (documentPath out names) = some l := by
  intro src out r
  have hr : r = m.perform (compileFound src (some out) (args.options config)) :=
    perform_compile hload hout
  rw [hr]
  refine ⟨fun names text names' text' h h' => ⟨documentPath_injective hm out h h',
    documentPath_ne_templatePath hm out h h'⟩, fun hok names text h hshort => ?_, fun l h => ?_⟩
  · exact compileFound_ok hm hok h hshort
  · exact compileFound_changed hm h

/-- One template in a folder of templates. -/
def desk : Machine :=
  setUp ["work"] [(["work", "templates", "mail", "welcome.json"], "\x7b\x7d")]

/-- A document can stand beside its template. -/
theorem compile_mirrors_desk :
    let args : CompileArgs := { outDir := some "templates" }
    let r := desk.perform (compile args ⟨"."⟩)
    desk.Sound ∧ (desk.perform (Config.load ⟨"."⟩)).1 = .ok {} ∧ args.stdout = false ∧
      r.1 = .ok () ∧
      TemplateFile desk (args.source {} ⟨"."⟩) ["mail", "welcome.json"] "\x7b\x7d" ∧
      ∃ t, Template.ofText? "\x7b\x7d" = .ok t ∧
        r.2.textAt ⟨"./templates/mail/welcome.html"⟩ = some (Html.compileTemplate t {}) := by
  intro args r
  have hm : desk.Sound := sound_setUp (by decide) (by decide) (by decide) (by decide)
  have hload : (desk.perform (Config.load ⟨"."⟩)).1 = .ok {} := by decide +kernel
  have hok : r.1 = .ok () := by decide +kernel
  have file : TemplateFile desk (args.source {} ⟨"."⟩) ["mail", "welcome.json"] "\x7b\x7d" :=
    ⟨by decide +kernel, ["work", "templates"], by decide +kernel, by decide +kernel,
      by decide +kernel⟩
  obtain ⟨-, compiled, -⟩ := compile_mirrors hm hload (show args.stdout = false from rfl)
  have document : documentPath (args.output {} ⟨"."⟩) ["mail", "welcome.json"] =
      ⟨"./templates/mail/welcome.html"⟩ := by decide +kernel
  have compiled := compiled hok _ _ file (by decide +kernel)
  rw [document] at compiled
  exact ⟨hm, hload, rfl, hok, file, compiled⟩

/-- A roundabout way to the folder `t`. -/
def roundabout (n : Nat) : Path := ⟨Path.relative (List.replicate n "." ++ ["t", ""])⟩

private theorem text_roundabout (n : Nat) :
    (roundabout (n + 1)).text = "." ++ "/" ++ (roundabout n).text := by
  obtain ⟨next, rest, hrest⟩ := List.exists_cons_of_ne_nil
    (List.append_ne_nil_of_right_ne_nil (List.replicate n ".") (List.cons_ne_nil "t" [""]))
  rw [roundabout, List.replicate_succ, List.cons_append, roundabout, hrest]
  exact String.intercalate_cons_cons ..

private theorem size_roundabout (n : Nat) : (roundabout n).text.utf8ByteSize = 2 * n + 2 := by
  induction n with
  | zero => decide
  | succ n ih =>
    rw [text_roundabout, String.utf8ByteSize_append, ih, Nat.mul_succ, Nat.add_right_comm]
    exact Nat.add_comm 2 _

private theorem parts_roundabout (n : Nat) :
    (roundabout n).parts = List.replicate n "." ++ ["t", ""] := by
  refine Path.parts_relative (List.append_ne_nil_of_right_ne_nil _ (List.cons_ne_nil _ _)) ?_
  refine List.forall_mem_append.mpr ⟨fun part h => ?_, by decide⟩
  rw [List.eq_of_mem_replicate h]
  decide

private theorem not_isAbsolute_roundabout (n : Nat) : (roundabout n).isAbsolute = false := by
  cases n with
  | zero => decide
  | succ n =>
    rw [Path.isAbsolute, text_roundabout, String.toList_append]
    rfl

/-- From where one stands, it is one more step on the spot. -/
private theorem join_roundabout (n : Nat) :
    (Path.mk ".").join (roundabout n).text = roundabout (n + 1) := by
  rw [Path.join, if_neg (Bool.eq_false_iff.mp (not_isAbsolute_roundabout n)),
    if_neg (by decide), ← text_roundabout]

private theorem isPath_roundabout {n : Nat} (hn : 2 * n + 2 < pathLimit) :
    isPath (roundabout n) = true := by
  refine isPath_iff.mpr ⟨fun he => ?_, fun hnull => ?_, by rwa [size_roundabout]⟩
  · have size := size_roundabout n
    rw [he] at size
    cases size
  · rcases Path.mem_relative hnull with hc | ⟨part, hpart, hc⟩
    · exact absurd hc (by decide)
    · rcases List.mem_append.mp hpart with hp | hp
      · rw [List.eq_of_mem_replicate hp] at hc
        exact absurd hc (by decide)
      · exact (show ∀ part ∈ ["t", ""], '\x00' ∉ part.toList by decide) part hp hc

/-- One template in a folder of the folder `t`. -/
def attic : Machine := setUp ["work"] [(["work", "t", "sub", "b.json"], "\x7b\x7d")]

private theorem locate_attic {n : Nat} (hn : 2 * n + 2 < pathLimit) :
    attic.locate (roundabout n) = some ["work", "t"] := by
  refine locate_eq_some.mpr ⟨isPath_roundabout hn, ?_⟩
  rw [Machine.start, not_isAbsolute_roundabout, parts_roundabout]
  clear hn
  induction n with
  | zero => decide +kernel
  | succ n ih =>
    have stays : attic.step ["work"] "." = some ["work"] := by decide +kernel
    rw [List.replicate_succ, List.cons_append, trail_cons]
    exact (congrArg (Option.bind · _) stays).trans ih

/-- Of the folder `sub` the path is too long. -/
private theorem sources_attic : sources attic (roundabout 2046) = [] := by
  have located : attic.locate (roundabout 2046) = some ["work", "t"] := locate_attic (by decide)
  have files : attic.files.entries.map Prod.fst = [["work", "t", "sub", "b.json"]] := by
    decide +kernel
  have folders : attic.folders = [["work"], ["work", "t"], ["work", "t", "sub"]] := by
    decide +kernel
  refine List.eq_nil_iff_forall_not_mem.mpr fun s hs => ?_
  obtain ⟨names, hnames, -⟩ := List.mem_map.mp hs
  obtain ⟨hc, ht⟩ := List.mem_filter.mp (List.mem_mergeSort.mp hnames)
  obtain ⟨-, rfl | ⟨⟨hne, hpath⟩, hfound⟩⟩ := (mem_contents located).mp hc
  · rw [isTemplate, nameOf, Path.fileName?, Path.steps, parts_roundabout, List.filter_append,
      List.filter_replicate_of_neg (by decide)] at ht
    exact absurd ht (by decide)
  · rcases hfound with hfile | hfolder
    · have here := mem_keys.mpr hfile
      rw [files, List.mem_singleton] at here
      obtain rfl : names = ["sub", "b.json"] := List.append_cancel_left here
      have folder (p : Path) : p.below ["sub", "b.json"].dropLast = p.join "sub" := rfl
      have relative : (Path.mk "sub").isAbsolute = false := by decide
      have long := Path.size_join (roundabout 2046) relative
      have short := (isPath_iff.mp hpath).2.2
      rw [folder] at short
      rw [size_roundabout] at long
      exact absurd (long.trans_lt short) (by decide)
    · rw [folders, List.mem_cons, List.mem_cons, List.mem_singleton] at hfolder
      rcases hfolder with h | h | h
      · cases h
      · exact hne (List.append_cancel_left (h.trans (List.append_nil _).symm))
      · obtain rfl : names = ["sub"] := List.append_cancel_left h
        exact absurd ht (by decide)

private theorem textAt_printed (m : Machine) (lines : List String) (p : Path) :
    { m with printed := lines }.textAt p = m.textAt p := rfl

/-- The run succeeds, and a template in a folder below the source path has no document. -/
theorem far_template_passed_over :
    let args : CompileArgs := { path := some (roundabout 2045).text }
    let src := args.source {} ⟨"."⟩
    let r := attic.perform (compile args ⟨"."⟩)
    attic.Sound ∧ (attic.perform (Config.load ⟨"."⟩)).1 = .ok {} ∧ args.stdout = false ∧
      r.1 = .ok () ∧ TemplateFile attic src ["sub", "b.json"] "\x7b\x7d" ∧
      r.2.textAt (documentPath (args.output {} ⟨"."⟩) ["sub", "b.json"]) = none := by
  intro args src r
  have hm : attic.Sound := sound_setUp (by decide) (by decide) (by decide) (by decide)
  have hload : (attic.perform (Config.load ⟨"."⟩)).1 = .ok {} := by decide +kernel
  have hsrc : src = roundabout 2046 := join_roundabout 2045
  have located : attic.locate src = some ["work", "t"] := hsrc ▸ locate_attic (by decide)
  have none : sources attic src = [] := hsrc ▸ sources_attic
  have file : TemplateFile attic src ["sub", "b.json"] "\x7b\x7d" :=
    ⟨by decide, ["work", "t"], located, by decide +kernel, by decide +kernel⟩
  have hr : r = attic.perform (compileFound src (some (args.output {} ⟨"."⟩)) (args.options {})) :=
    perform_compile hload rfl
  have document : attic.textAt (documentPath (args.output {} ⟨"."⟩) ["sub", "b.json"]) = .none := by
    decide +kernel
  obtain ⟨missing, -⟩ | ⟨l, before, after, -, hrun, hdone⟩ :=
    compileFound_cases attic src (args.output {} ⟨"."⟩) (args.options {})
  · rw [located] at missing
    exact absurd missing (by decide +kernel)
  · rw [none] at hrun hdone
    rw [← hr] at hrun hdone
    refine ⟨hm, hload, rfl, hdone.mpr rfl, file, ?_⟩
    rw [hrun, textAt_printed]
    exact document

end MailComposer.Cli
