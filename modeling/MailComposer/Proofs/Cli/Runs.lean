import MailComposer.Cli.Compile
import MailComposer.Proofs.Cli.Folders

/-!
What a run over some sources leaves behind. One source after the other is read and its document is
written, in the same files. Main statement: where the sources do not get in each other's way, what
is read is what was there at first, and what is written stays.
-/
namespace MailComposer.Cli

open Machine

/-- The document of a template file is in its place, and no other file has changed. -/
structure Wrote (s : Source) (target : Path) (o : Html.Options) (m m' : Machine) : Prop where
  exists_location : ∃ text t l, m.textAt s.path = some text ∧ Template.ofText? text = .ok t ∧
    m'.locate target = some l ∧ m'.isFolder l = false ∧
    m'.files = m.files.insert l (Html.compileTemplate t o)

theorem Wrote.printed {s : Source} {target : Path} {o : Html.Options} {m m' : Machine}
    (h : Wrote s target o m m') (lines : List String) :
    Wrote s target o m { m' with printed := lines } := by
  obtain ⟨text, t, l, htext, ht, hl, hf, files⟩ := h
  exact ⟨text, t, l, htext, ht, (grown_printed m' lines).locate hl, hf, files⟩

private theorem bind_run {α β : Type} (x : StateM Machine α) (f : α → StateM Machine β)
    (m : Machine) : (x >>= f) m = f (x m).1 (x m).2 := rfl

private theorem deliver_eq (html : String) (target : Path) (m : Machine) :
    (deliver html (some target) : StateM Machine _) m =
      match m.makeFolders target.parent with
      | (false, m) => (.error "creating the folder failed", m)
      | (true, m) =>
        match m.write target html with
        | (false, m) => (.error "writing the document failed", m)
        | (true, m) => (.ok target.text, m) := by
  rw [deliver, bind_run,
    show (Host.makeFolders target.parent : StateM Machine Bool) m = m.makeFolders target.parent
      from rfl]
  obtain ⟨made, m⟩ := m.makeFolders target.parent
  cases made with
  | false => rfl
  | true =>
    dsimp only
    rw [if_neg (by decide), bind_run,
      show (Host.writeFile target html : StateM Machine Bool) m = m.write target html from rfl]
    obtain ⟨written, m⟩ := m.write target html
    cases written <;> rfl

/-- A document is put in its place, or the files stay as they are. -/
private theorem deliver_cases (html : String) (target : Path) (m : Machine) :
    let r := (deliver html (some target) : StateM Machine _) m
    Grown m r.2 ∧ ((∃ reason, r.1 = .error reason) ∧ r.2.files = m.files ∨
      r.1 = .ok target.text ∧ ∃ l, r.2.locate target = some l ∧ r.2.isFolder l = false ∧
        r.2.files = m.files.insert l html) := by
  obtain ⟨grown, files⟩ := grown_makeFolders m target.parent
  rw [deliver_eq]
  generalize m.makeFolders target.parent = made at grown files
  obtain ⟨made, m'⟩ := made
  cases made with
  | false => exact ⟨grown, .inl ⟨⟨_, rfl⟩, files⟩⟩
  | true =>
    dsimp only at files ⊢
    rcases write_cases m' target html with hw | ⟨l, hl, hf, hw⟩
    · rw [hw]
      exact ⟨grown, .inl ⟨⟨_, rfl⟩, files⟩⟩
    · have written := grown_insert hl hf html
      rw [hw]
      refine ⟨grown.trans written, .inr ⟨rfl, l, written.locate hl, hf, ?_⟩⟩
      rw [files]

private theorem compileSource_eq (s : Source) (target : Path) (o : Html.Options) (m : Machine) :
    (compileSource s (some target) o : StateM Machine _) m =
      match m.textAt s.path with
      | none => (.error ("reading " ++ s.path.text), m)
      | some text =>
        match Template.ofText? text with
        | .error e => (.error ("Invalid template JSON: " ++ e.message), m)
        | .ok t => (deliver (Html.compileTemplate t o) (some target) : StateM Machine _) m := by
  rw [compileSource, bind_run,
    show (Host.readFile s.path : StateM Machine _) m = (m.textAt s.path, m) from rfl]
  cases m.textAt s.path with
  | none => rfl
  | some text =>
    dsimp only
    cases Template.ofText? text <;> rfl

/-- A source is compiled, or the files stay as they are. -/
private theorem compileSource_cases (s : Source) (target : Path) (o : Html.Options) (m : Machine) :
    let r := (compileSource s (some target) o : StateM Machine _) m
    Grown m r.2 ∧ ((∃ reason, r.1 = .error reason) ∧ r.2.files = m.files ∨
      r.1 = .ok target.text ∧ Wrote s target o m r.2) := by
  rw [compileSource_eq]
  cases htext : m.textAt s.path with
  | none => exact ⟨.refl m, .inl ⟨⟨_, rfl⟩, rfl⟩⟩
  | some text =>
    dsimp only
    cases ht : Template.ofText? text with
    | error e => exact ⟨.refl m, .inl ⟨⟨_, rfl⟩, rfl⟩⟩
    | ok t =>
      obtain ⟨grown, stays | ⟨hok, l, hl, hf, files⟩⟩ :=
        deliver_cases (Html.compileTemplate t o) target m
      · exact ⟨grown, .inl stays⟩
      · exact ⟨grown, .inr ⟨hok, ⟨text, t, l, htext, ht, hl, hf, files⟩⟩⟩

private theorem compileSources_cons (out : Path) (o : Html.Options) (s : Source)
    (rest : List Source) (m : Machine) :
    (compileSources (some out) o (s :: rest) : StateM Machine _) m =
      match (compileSource s (some (s.target out)) o : StateM Machine _) m with
      | (.ok place, m) =>
        let line := "  ✓ " ++ s.relative ++ " → " ++ place
        let r := (compileSources (some out) o rest : StateM Machine _)
          { m with printed := m.printed ++ [line] }
        ((r.1.1 + 1, r.1.2), r.2)
      | (.error _, m) =>
        let r := (compileSources (some out) o rest : StateM Machine _) m
        ((r.1.1, r.1.2 + 1), r.2) := by
  rw [compileSources, bind_run, Option.map_some]
  generalize (compileSource s (some (s.target out)) o : StateM Machine _) m = r
  obtain ⟨place | reason, m⟩ := r <;> rfl

/-- A source is read from this location, and a file is there. -/
def IsFile (m : Machine) (place : Source → Location) (s : Source) : Prop :=
  (m.files.get? (place s)).isSome = true

/-- Sources that do not get in each other's way: each has a location that it is read from, to which
the target of no file leads, and no two of these targets lead to the same file. -/
structure Separate (m : Machine) (out : Path) (place : Source → Location) (ss : List Source) :
    Prop where
  located : ∀ s ∈ ss, ∀ m' l, Grown m m' → m'.locate s.path = some l → l = place s
  clear : ∀ s ∈ ss, IsFile m place s → ∀ s' ∈ ss, ∀ m' l, Grown m m' → m'.Sound →
    m'.locate (s.target out) = some l → m'.isFolder l = false → l ≠ place s'
  apart : ss.Pairwise fun s s' => IsFile m place s → IsFile m place s' →
    Apart (s.target out) (s'.target out)

/-- The rest of the sources, after a step that leaves them as they are. -/
theorem Separate.tail {m m' : Machine} {out : Path} {place : Source → Location} {s : Source}
    {ss : List Source} (h : Separate m out place (s :: ss)) (hg : Grown m m')
    (hkept : ∀ s' ∈ ss, m'.files.get? (place s') = m.files.get? (place s')) :
    Separate m' out place ss where
  located s' hs m'' l hg' := h.located s' (List.mem_cons_of_mem s hs) m'' l (hg.trans hg')
  clear s' hs hfile s'' hs' m'' l hg' :=
    h.clear s' (List.mem_cons_of_mem s hs) (by rwa [IsFile, ← hkept s' hs]) s''
      (List.mem_cons_of_mem s hs') m'' l (hg.trans hg')
  apart := by
    refine (List.pairwise_cons.mp h.apart).2.imp_of_mem fun {a b} ha hb hab hfa hfb => hab ?_ ?_
    · rwa [IsFile, ← hkept a ha]
    · rwa [IsFile, ← hkept b hb]

/-- What a run leaves behind, with the number of sources that failed. -/
structure Ran (m : Machine) (out : Path) (o : Html.Options) (place : Source → Location)
    (ss : List Source) (failed : Nat) (m' : Machine) : Prop where
  grown : Grown m m'
  changed : ∀ l, m'.files.get? l ≠ m.files.get? l →
    ∃ s ∈ ss, IsFile m place s ∧ m'.locate (s.target out) = some l
  compiled : failed = 0 → ∀ s ∈ ss, ∃ text t, m.files.get? (place s) = some text ∧
    Template.ofText? text = .ok t ∧ m'.textAt (s.target out) = some (Html.compileTemplate t o)

private theorem ran_nil (m : Machine) (out : Path) (o : Html.Options) (place : Source → Location) :
    Ran m out o place [] 0 m :=
  ⟨.refl m, fun _ h => absurd rfl h, fun _ => List.forall_mem_nil _⟩

/-- A source that failed has changed no file. -/
private theorem Ran.cons_error {m m₁ m₂ : Machine} {out : Path} {o : Html.Options}
    {place : Source → Location} {s : Source} {ss : List Source} {failed : Nat}
    (hg : Grown m m₁) (hfiles : m₁.files = m.files) (h : Ran m₁ out o place ss failed m₂) :
    Ran m out o place (s :: ss) (failed + 1) m₂ where
  grown := hg.trans h.grown
  changed l hl := by
    rw [← hfiles] at hl
    obtain ⟨s', hs', hfile, hlocate⟩ := h.changed l hl
    rw [IsFile, hfiles] at hfile
    exact ⟨s', List.mem_cons_of_mem s hs', hfile, hlocate⟩
  compiled := nofun

/-- What is written for one source is read for none. -/
theorem Wrote.kept {m m' : Machine} {out : Path} {o : Html.Options} {place : Source → Location}
    {s : Source} {ss : List Source} (hm : m.Sound) (hs : Separate m out place (s :: ss))
    (hg : Grown m m') (hw : Wrote s (s.target out) o m m') :
    IsFile m place s ∧ ∀ s' ∈ s :: ss, m'.files.get? (place s') = m.files.get? (place s') := by
  obtain ⟨text, t, target, htext, ht, htarget, hf, hfiles⟩ := hw
  obtain ⟨l, hl, hget⟩ := Option.bind_eq_some_iff.mp htext
  obtain rfl := hs.located s List.mem_cons_self m l (.refl m) hl
  have hfile : IsFile m place s := Option.isSome_of_eq_some hget
  refine ⟨hfile, fun s' hs' => ?_⟩
  have away := hs.clear s List.mem_cons_self hfile s' hs' m' target hg (hg.sound hm) htarget hf
  rw [hfiles, Dictionary.get?_insert, if_neg away.symm]

/-- A document that has been written is not written again. -/
private theorem Ran.cons_ok {m m₁ m₂ : Machine} {out : Path} {o : Html.Options}
    {place : Source → Location} {s : Source} {ss : List Source} {failed : Nat} (hm : m.Sound)
    (hs : Separate m out place (s :: ss)) (hg : Grown m m₁)
    (hw : Wrote s (s.target out) o m m₁) (h : Ran m₁ out o place ss failed m₂) :
    Ran m out o place (s :: ss) failed m₂ := by
  obtain ⟨hself, kept⟩ := hw.kept hm hs hg
  obtain ⟨text, t, target, htext, ht, htarget, -, hfiles⟩ := hw
  have lasting : m₂.locate (s.target out) = some target := h.grown.locate htarget
  have written : m₁.files.get? target = some (Html.compileTemplate t o) := by
    rw [hfiles, Dictionary.get?_insert, if_pos rfl]
  have others : ∀ l, m₂.files.get? l ≠ m₁.files.get? l →
      ∃ s' ∈ ss, IsFile m place s' ∧ m₂.locate (s'.target out) = some l := by
    intro l hl
    obtain ⟨s', hs', hfile, hlocate⟩ := h.changed l hl
    rw [IsFile, kept s' (List.mem_cons_of_mem s hs')] at hfile
    exact ⟨s', hs', hfile, hlocate⟩
  refine ⟨hg.trans h.grown, fun l hl => ?changed, fun hfailed => ?compiled⟩
  case changed =>
    by_cases he : l = target
    · exact ⟨s, List.mem_cons_self, hself, he ▸ lasting⟩
    · have other : m₁.files.get? l = m.files.get? l := by
        rw [hfiles, Dictionary.get?_insert, if_neg he]
      obtain ⟨s', hs', hfile, hlocate⟩ := others l (other ▸ hl)
      exact ⟨s', List.mem_cons_of_mem s hs', hfile, hlocate⟩
  case compiled =>
    refine List.forall_mem_cons.mpr ⟨⟨text, t, ?_, ht, ?_⟩, fun s' hs' => ?_⟩
    · obtain ⟨l, hl, hget⟩ := Option.bind_eq_some_iff.mp htext
      rwa [hs.located s List.mem_cons_self m l (.refl m) hl] at hget
    · rw [textAt, lasting, Option.bind_some, ← written]
      by_contra hl
      obtain ⟨s', hs', hfile, hlocate⟩ := others target hl
      have sound := h.grown.sound (hg.sound hm)
      have apart := (List.pairwise_cons.mp hs.apart).1 s' hs' hself hfile
      have folder := apart m₂ target sound lasting hlocate
      have file := h.grown.files target (Option.isSome_of_eq_some written)
      rw [(sound.file target file).1] at folder
      cases folder
    · obtain ⟨text', t', htext', ht', hdone⟩ := h.compiled hfailed s' hs'
      exact ⟨text', t', kept s' (List.mem_cons_of_mem s hs') ▸ htext', ht', hdone⟩

theorem ran_compileSources (out : Path) (o : Html.Options) {place : Source → Location}
    {ss : List Source} {m : Machine} (hm : m.Sound) (hs : Separate m out place ss) :
    let r := (compileSources (some out) o ss : StateM Machine _) m
    Ran m out o place ss r.1.2 r.2 := by
  induction ss generalizing m with
  | nil => exact ran_nil m out o place
  | cons s ss ih =>
    have step := compileSource_cases s (s.target out) o m
    rw [compileSources_cons]
    generalize (compileSource s (some (s.target out)) o : StateM Machine _) m = r at step
    obtain ⟨r, m₁⟩ := r
    obtain ⟨grown, ⟨⟨reason, rfl⟩, files⟩ | ⟨rfl, wrote⟩⟩ := step
    · have kept : ∀ s' ∈ ss, m₁.files.get? (place s') = m.files.get? (place s') :=
        fun s' _ => congrArg (Dictionary.get? · (place s')) files
      exact .cons_error grown files (ih (grown.sound hm) (hs.tail grown kept))
    · have printed (lines : List String) := grown.trans (grown_printed m₁ lines)
      have wrote (lines : List String) := Wrote.printed wrote lines
      have kept (lines : List String) := ((wrote lines).kept hm hs (printed lines)).2
      exact .cons_ok hm hs (printed _) (wrote _) (ih ((printed _).sound hm)
        (hs.tail (printed _) fun s' hs' => kept _ s' (List.mem_cons_of_mem s hs')))

end MailComposer.Cli
