import Mathlib.Data.List.Induction
import MailComposer.Cli.Host
import MailComposer.Proofs.Cli.Paths
import MailComposer.Proofs.Dictionary

/-!
Machines whose files stand in folders. Folders are added and files are written, and nothing is ever
removed, so that a path that leads somewhere goes on to lead there. A path that leads to a file ends
in the name of that file.
-/
namespace MailComposer.Cli

open Cli.Path (Word Plain)

namespace Machine

theorem isFolder_iff {m : Machine} {l : Location} :
    m.isFolder l = true ↔ l = [] ∨ l ∈ m.folders := by
  rw [isFolder, Bool.or_eq_true, List.isEmpty_iff, List.contains_iff_mem]

/-- What is in a folder is in all folders above it, a file is no folder, and all have names. -/
structure Sound (m : Machine) : Prop where
  folder : ∀ l, m.isFolder l = true → m.isFolder l.dropLast = true
  file : ∀ l, (m.files.get? l).isSome = true →
    m.isFolder l = false ∧ m.isFolder l.dropLast = true
  plain : ∀ l, m.isFolder l = true ∨ (m.files.get? l).isSome = true → ∀ name ∈ l, Plain name
  nodup : m.folders.Nodup

theorem Sound.above {m : Machine} (hm : m.Sound) {l names : Location}
    (h : m.isFolder (l ++ names) = true) : m.isFolder l = true := by
  induction names using List.reverseRecOn with
  | nil => rwa [List.append_nil] at h
  | append_singleton names name ih =>
    have h := hm.folder _ h
    rw [← List.append_assoc, List.dropLast_concat] at h
    exact ih h

/-- Only in a folder something else can stand. -/
theorem Sound.isFolder_of_below {m : Machine} (hm : m.Sound) {l names : Location}
    (hne : names ≠ []) (h : m.isFolder (l ++ names) = true ∨
      (m.files.get? (l ++ names)).isSome = true) : m.isFolder l = true := by
  rcases h with h | h
  · exact hm.above h
  · have h := (hm.file _ h).2
    rw [List.dropLast_append_of_ne_nil hne] at h
    exact hm.above h

/-- Where there was a folder or a file there still is one. -/
structure Grown (m m' : Machine) : Prop where
  home : m'.home = m.home
  folders : ∀ l, m.isFolder l = true → m'.isFolder l = true
  files : ∀ l, (m.files.get? l).isSome = true → (m'.files.get? l).isSome = true
  sound : m.Sound → m'.Sound

theorem Grown.refl (m : Machine) : Grown m m := ⟨rfl, fun _ h => h, fun _ h => h, fun h => h⟩

theorem Grown.trans {m m' m'' : Machine} (h : Grown m m') (h' : Grown m' m'') : Grown m m'' where
  home := h'.home.trans h.home
  folders l hl := h'.folders l (h.folders l hl)
  files l hl := h'.files l (h.files l hl)
  sound hm := h'.sound (h.sound hm)

/-- Where the parts of a path lead from a location. -/
def trail (m : Machine) (l : Location) (parts : List String) : Option Location :=
  parts.foldlM m.step l

/-- The text of the file that a path leads to. -/
def textAt (m : Machine) (p : Path) : Option String := (m.locate p).bind m.files.get?

private theorem step_eq_some {m : Machine} {l l' : Location} {part : String}
    (h : m.step l part = some l') : m.isFolder l = true ∧
      ((part = "" ∨ part = ".") ∧ l' = l ∨ part = ".." ∧ l' = l.dropLast ∨
        (part ≠ "" ∧ part ≠ "." ∧ part ≠ "..") ∧ l' = l ++ [part]) := by
  unfold step at h
  split at h
  · cases h
  · next hf =>
    refine ⟨by simpa using hf, ?_⟩
    split at h
    · next hs => exact .inl ⟨hs, (Option.some.inj h).symm⟩
    · next hs =>
      split at h
      · next hu => exact .inr (.inl ⟨hu, (Option.some.inj h).symm⟩)
      · next hu =>
        split at h
        · obtain ⟨he, hd⟩ := not_or.mp hs
          exact .inr (.inr ⟨⟨he, hd, hu⟩, (Option.some.inj h).symm⟩)
        · cases h

private theorem trail_append (m : Machine) (l : Location) (ps qs : List String) :
    m.trail l (ps ++ qs) = (m.trail l ps).bind (m.trail · qs) := List.foldlM_append ..

theorem trail_cons (m : Machine) (l : Location) (part : String) (ps : List String) :
    m.trail l (part :: ps) = (m.step l part).bind (m.trail · ps) := List.foldlM_cons ..

theorem locate_eq_some {m : Machine} {p : Path} {l : Location} :
    m.locate p = some l ↔ isPath p = true ∧ m.trail (m.start p) p.parts = some l := by
  rw [locate]
  split
  · next h => exact ⟨fun hl => ⟨h, hl⟩, And.right⟩
  · next h => exact ⟨nofun, fun hl => absurd hl.1 h⟩

section
variable {m m' : Machine} {l l' : Location} {p : Path}

theorem Grown.step (h : Grown m m') {part : String} (hs : m.step l part = some l') :
    m'.step l part = some l' := by
  have was := (step_eq_some hs).1
  have folder := h.folders l was
  unfold Machine.step at hs ⊢
  rw [was] at hs
  rw [folder]
  exact hs

private theorem Grown.trail (h : Grown m m') {parts : List String}
    (ht : m.trail l parts = some l') : m'.trail l parts = some l' := by
  induction parts generalizing l with
  | nil => exact ht
  | cons part parts ih =>
    rw [trail_cons] at ht ⊢
    obtain ⟨next, hs, ht⟩ := Option.bind_eq_some_iff.mp ht
    rw [h.step hs]
    exact ih ht

/-- A path goes on to lead where it leads. -/
theorem Grown.locate (h : Grown m m') (hl : m.locate p = some l) : m'.locate p = some l := by
  obtain ⟨hp, ht⟩ := locate_eq_some.mp hl
  have start : m'.start p = m.start p := by rw [Machine.start, h.home, Machine.start]
  exact locate_eq_some.mpr ⟨hp, start ▸ h.trail ht⟩

theorem trail_names {names : List String} (hn : ∀ name ∈ names, Word name ∧ name ≠ "..")
    (ht : m.trail l names = some l') : l' = l ++ names := by
  induction names generalizing l with
  | nil => rw [List.append_nil, Option.some.inj ht]
  | cons name names ih =>
    obtain ⟨⟨word, up⟩, rest⟩ := List.forall_mem_cons.mp hn
    rw [trail_cons] at ht
    obtain ⟨next, hs, ht⟩ := Option.bind_eq_some_iff.mp ht
    rw [ih rest ht]
    obtain ⟨-, ⟨hstay, -⟩ | ⟨hup, -⟩ | ⟨-, rfl⟩⟩ := step_eq_some hs
    · exact absurd hstay (not_or.mpr ⟨word.ne_empty, word.ne_dot⟩)
    · exact absurd hup up
    · exact List.append_assoc ..

theorem isPath_iff : isPath p = true ↔
    p.text ≠ "" ∧ '\x00' ∉ p.text.toList ∧ p.text.utf8ByteSize < pathLimit := by
  simp only [isPath, Bool.and_eq_true, decide_eq_true_eq, Bool.not_eq_true', List.contains_eq_mem,
    decide_eq_false_iff_not, and_assoc]

theorem isPath_below {names : List String} (hp : isPath p = true)
    (hn : ∀ name ∈ names, Plain name)
    (hshort : (p.below names).text.utf8ByteSize < pathLimit) : isPath (p.below names) = true := by
  obtain ⟨hne, hnull, -⟩ := isPath_iff.mp hp
  have words : ∀ name ∈ names, Word name := fun name h => (hn name h).toWord
  refine isPath_iff.mpr ⟨fun he => ?_, fun hc => ?_, hshort⟩
  · have nothing := Path.subset_below p words
    rw [he] at nothing
    exact hne (String.toList_eq_nil_iff.mp (List.subset_nil.mp nothing))
  · rcases Path.mem_below p words hc with hc | hc | ⟨name, hmem, hc⟩
    · exact hnull hc
    · exact absurd hc (by decide)
    · exact (hn name hmem).null hc

/-- A path leads to a folder, or to a name in a folder, with which it ends then. -/
theorem Sound.locate_cases (hm : m.Sound) (h : m.locate p = some l) : m.isFolder l = true ∨
    ∃ folder name, l = folder ++ [name] ∧ m.isFolder folder = true ∧ Plain name ∧
      p.parts.getLast? = some name := by
  obtain ⟨hp, ht⟩ := locate_eq_some.mp h
  obtain ⟨parts, part, hparts⟩ := (List.eq_nil_or_concat p.parts).resolve_left p.parts_ne_nil
  rw [List.concat_eq_append] at hparts
  have mem : part ∈ p.parts := hparts ▸ List.mem_append_right parts List.mem_cons_self
  rw [hparts, trail_append] at ht
  obtain ⟨folder, -, ht⟩ := Option.bind_eq_some_iff.mp ht
  rw [trail_cons] at ht
  obtain ⟨_, hs, ht⟩ := Option.bind_eq_some_iff.mp ht
  obtain rfl := Option.some.inj ht
  obtain ⟨hf, ⟨-, rfl⟩ | ⟨-, rfl⟩ | ⟨⟨hempty, hdot, hup⟩, rfl⟩⟩ := step_eq_some hs
  · exact .inl hf
  · exact .inl (hm.folder folder hf)
  · have word : Word part := by
      refine ⟨?_, Path.slash_not_mem_parts mem⟩
      rw [Path.isStep, decide_eq_true hempty, decide_eq_true hdot]
      rfl
    have null : '\x00' ∉ part.toList :=
      fun h => (isPath_iff.mp hp).2.1 (Path.subset_of_mem_parts mem h)
    exact .inr ⟨folder, part, rfl, hf, ⟨word, hup, null⟩, by rw [hparts, List.getLast?_concat]⟩

private theorem Sound.locate_dropLast (hm : m.Sound) (h : m.locate p = some l) :
    m.isFolder l.dropLast = true := by
  rcases hm.locate_cases h with hf | ⟨folder, name, rfl, hf, -⟩
  · exact hm.folder l hf
  · rwa [List.dropLast_concat]

theorem Sound.locate_plain (hm : m.Sound) (h : m.locate p = some l) :
    ∀ name ∈ l, Plain name := by
  rcases hm.locate_cases h with hf | ⟨folder, name, rfl, hf, plain, -⟩
  · exact hm.plain l (.inl hf)
  · exact List.forall_mem_append.mpr
      ⟨hm.plain folder (.inl hf), List.forall_mem_singleton.mpr plain⟩

theorem trail_below {base : Path} {names : List String} (hn : ∀ name ∈ names, Word name)
    (hne : names ≠ []) (h : m.locate (base.below names) = some l) :
    ∃ top, m.trail (m.start base) base.parts = some top ∧ m.trail top names = some l := by
  obtain ⟨-, ht⟩ := locate_eq_some.mp h
  obtain ⟨ps, hbase, hparts⟩ := Path.parts_below base hn hne
  have start : m.start (base.below names) = m.start base := by
    rw [Machine.start, Path.isAbsolute_below base hn, Machine.start]
  rw [start, hparts, trail_append] at ht
  obtain ⟨top, htop, ht⟩ := Option.bind_eq_some_iff.mp ht
  refine ⟨top, ?_, ht⟩
  rcases hbase with hb | hb
  · rw [hb, htop]
  · -- The next name is looked up in a folder, in which an empty part stays.
    obtain ⟨first, rest, hfirst⟩ := List.exists_cons_of_ne_nil hne
    rw [hfirst, trail_cons] at ht
    obtain ⟨_, hs, -⟩ := Option.bind_eq_some_iff.mp ht
    rw [hb, trail_append, htop, Option.bind_some, trail_cons, Machine.step, (step_eq_some hs).1]
    rfl

/-- Where a path leads to a name, what stands before its last part leads to the folder. -/
private theorem locate_below {base : Path} {dirs : List String} {name : String} (hm : m.Sound)
    (hd : ∀ dir ∈ dirs, Plain dir) (hn : Word name)
    (h : m.locate (base.below (dirs ++ [name])) = some l) (hf : m.isFolder l = false) :
    ∃ top, m.trail (m.start base) base.parts = some top ∧ l = top ++ (dirs ++ [name]) := by
  have words : ∀ n ∈ dirs ++ [name], Word n :=
    List.forall_mem_append.mpr ⟨fun d h => (hd d h).toWord, List.forall_mem_singleton.mpr hn⟩
  have hne : dirs ++ [name] ≠ [] := List.concat_ne_nil name dirs
  have up : name ≠ ".." := by
    obtain hfolder | ⟨-, last, -, -, plain, hlast⟩ := hm.locate_cases h
    · exact absurd hf (by simp [hfolder])
    · rw [Path.getLast?_parts_below base words hne, List.getLast?_concat] at hlast
      exact Option.some.inj hlast ▸ plain.ne_up
  obtain ⟨top, htop, ht⟩ := trail_below words hne h
  refine ⟨top, htop, trail_names (fun n hm => ⟨words n hm, ?_⟩) ht⟩
  rcases List.mem_append.mp hm with hd' | hl
  · exact (hd n hd').ne_up
  · exact List.mem_singleton.mp hl ▸ up

end

/-- The two paths never lead to the same file. -/
def Apart (p q : Path) : Prop :=
  ∀ (m : Machine) (l : Location), m.Sound → m.locate p = some l → m.locate q = some l →
    m.isFolder l = true

theorem apart_below (base : Path) {dirs dirs' : List String} {name name' : String}
    (hd : ∀ dir ∈ dirs, Plain dir) (hd' : ∀ dir ∈ dirs', Plain dir) (hn : Word name)
    (hn' : Word name') (hne : dirs ++ [name] ≠ dirs' ++ [name']) :
    Apart (base.below (dirs ++ [name])) (base.below (dirs' ++ [name'])) := by
  intro m l hm hp hq
  by_contra hf
  have hf := Bool.eq_false_iff.mpr hf
  obtain ⟨top, htop, hl⟩ := locate_below hm hd hn hp hf
  obtain ⟨top', htop', hl'⟩ := locate_below hm hd' hn' hq hf
  obtain rfl := Option.some.inj (htop.symm.trans htop')
  exact hne (List.append_cancel_left (hl.symm.trans hl'))

section
variable {m : Machine} {l : Location} {p : Path}

private theorem isFolder_addFolder {l' : Location} :
    (m.addFolder l).isFolder l' = true ↔ m.isFolder l' = true ∨ l' = l := by
  unfold addFolder
  split
  · next h =>
    refine ⟨.inl, ?_⟩
    rintro (h' | rfl)
    · exact h'
    · exact h
  · rw [isFolder_iff, isFolder_iff, List.mem_append, List.mem_singleton, or_assoc]

private theorem files_addFolder : (m.addFolder l).files = m.files := by
  unfold addFolder
  split <;> rfl

private theorem home_addFolder : (m.addFolder l).home = m.home := by
  unfold addFolder
  split <;> rfl

theorem Sound.addFolder (hm : m.Sound) (hup : m.isFolder l.dropLast = true)
    (hfree : m.files.get? l = none) (hplain : ∀ name ∈ l, Plain name) : (m.addFolder l).Sound where
  folder l' h := by
    rw [isFolder_addFolder] at h ⊢
    rcases h with h | rfl
    · exact .inl (hm.folder l' h)
    · exact .inl hup
  file l' h := by
    rw [files_addFolder] at h
    obtain ⟨hf, hparent⟩ := hm.file l' h
    refine ⟨Bool.eq_false_iff.mpr fun hfolder => ?_, isFolder_addFolder.mpr (.inl hparent)⟩
    rcases isFolder_addFolder.mp hfolder with hfolder | rfl
    · rw [hf] at hfolder
      cases hfolder
    · rw [hfree] at h
      cases h
  plain l' h := by
    rw [isFolder_addFolder, files_addFolder] at h
    rcases h with (h | rfl) | h
    · exact hm.plain l' (.inl h)
    · exact hplain
    · exact hm.plain l' (.inr h)
  nodup := by
    unfold Machine.addFolder
    split
    · exact hm.nodup
    · next hl =>
      exact List.nodup_append.mpr ⟨hm.nodup, List.nodup_singleton l, fun a ha b hb he =>
        hl (isFolder_iff.mpr (.inr (List.mem_singleton.mp hb ▸ he ▸ ha)))⟩

private theorem grown_makeFolder (m : Machine) (p : Path) :
    Grown m (m.makeFolder p).2 ∧ (m.makeFolder p).2.files = m.files := by
  unfold makeFolder
  split
  · exact ⟨.refl m, rfl⟩
  · next l hl =>
    split
    · exact ⟨.refl m, rfl⟩
    · next hfree =>
      have hfree : m.files.get? l = none := by simpa using hfree
      refine ⟨⟨home_addFolder, fun l' h => isFolder_addFolder.mpr (.inl h), fun l' h => ?_, ?_⟩,
        files_addFolder⟩
      · rwa [files_addFolder]
      · exact fun hm => hm.addFolder (hm.locate_dropLast hl) hfree (hm.locate_plain hl)

private theorem grown_makeEach (m : Machine) (ps : List Path) :
    Grown m (m.makeEach ps).2 ∧ (m.makeEach ps).2.files = m.files := by
  induction ps generalizing m with
  | nil => exact ⟨.refl m, rfl⟩
  | cons p ps ih =>
    obtain ⟨grown, files⟩ := grown_makeFolder m p
    unfold makeEach
    split
    · next m' h =>
      rw [h] at grown files
      exact ⟨grown.trans (ih m').1, (ih m').2.trans files⟩
    · next m' h =>
      rw [h] at grown files
      exact ⟨grown, files⟩

/-- Making folders leaves the files alone. -/
theorem grown_makeFolders (m : Machine) (p : Path) :
    Grown m (m.makeFolders p).2 ∧ (m.makeFolders p).2.files = m.files := by
  unfold makeFolders
  split
  · exact ⟨.refl m, rfl⟩
  · split
    · exact grown_makeEach m _
    · exact ⟨.refl m, rfl⟩

theorem Sound.insert (hm : m.Sound) (hf : m.isFolder l = false)
    (hup : m.isFolder l.dropLast = true) (hplain : ∀ name ∈ l, Plain name) (text : String) :
    { m with files := m.files.insert l text }.Sound where
  folder := hm.folder
  file l' h' := by
    rw [Dictionary.get?_insert] at h'
    split at h'
    · next he =>
      rw [he]
      exact ⟨hf, hup⟩
    · exact hm.file l' h'
  plain l' h' := by
    rw [Dictionary.get?_insert] at h'
    rcases h' with h' | h'
    · exact hm.plain l' (.inl h')
    · split at h'
      · next he => exact he ▸ hplain
      · exact hm.plain l' (.inr h')
  nodup := hm.nodup

/-- A file is written at the one location that the path leads to, or not at all. -/
theorem write_cases (m : Machine) (p : Path) (text : String) :
    m.write p text = (false, m) ∨ ∃ l, m.locate p = some l ∧ m.isFolder l = false ∧
      m.write p text = (true, { m with files := m.files.insert l text }) := by
  unfold write
  split
  · exact .inl rfl
  · next l hl =>
    split
    · exact .inl rfl
    · next hf => exact .inr ⟨l, hl, Bool.eq_false_iff.mpr hf, rfl⟩

theorem grown_insert (h : m.locate p = some l) (hf : m.isFolder l = false) (text : String) :
    Grown m { m with files := m.files.insert l text } where
  home := rfl
  folders _ h := h
  files l' h' := by
    rw [Dictionary.get?_insert]
    split
    · rfl
    · exact h'
  sound hm := hm.insert hf (hm.locate_dropLast h) (hm.locate_plain h) text

theorem grown_printed (m : Machine) (lines : List String) :
    Grown m { m with printed := lines } :=
  ⟨rfl, fun _ h => h, fun _ h => h, fun hm => ⟨hm.folder, hm.file, hm.plain, hm.nodup⟩⟩

end

private theorem isFolder_blank {home l : Location} :
    (blank home).isFolder l = true ↔ l <+: home := by
  rw [isFolder_iff, blank, List.mem_map]
  constructor
  · rintro (rfl | ⟨i, -, rfl⟩)
    · exact List.nil_prefix
    · exact List.take_prefix ..
  · intro h
    refine or_iff_not_imp_left.mpr fun hne => ⟨l.length - 1, ?_, ?_⟩
    · have := h.length_le
      have := List.length_pos_iff.mpr hne
      exact List.mem_range.mpr (by omega)
    · rw [Nat.sub_add_cancel (List.length_pos_iff.mpr hne)]
      exact (List.prefix_iff_eq_take.mp h).symm

private theorem sound_blank {home : Location} (h : ∀ name ∈ home, Plain name) :
    (blank home).Sound where
  folder l hl := isFolder_blank.mpr ((List.dropLast_prefix l).trans (isFolder_blank.mp hl))
  file l hl := nomatch hl
  plain l hl := by
    rcases hl with hl | hl
    · exact fun name hn => h name ((isFolder_blank.mp hl).subset hn)
    · exact nomatch hl
  nodup := by
    refine List.Nodup.map_on (fun i hi j hj he => ?_) List.nodup_range
    have lengths := congrArg List.length he
    rw [List.length_take, List.length_take] at lengths
    have := List.mem_range.mp hi
    have := List.mem_range.mp hj
    omega

section
variable {m : Machine} {l : Location}

private theorem sound_foldl_addFolder (hm : m.Sound) (hplain : ∀ name ∈ l, Plain name)
    (hfree : ∀ l', l' <+: l.dropLast → m.files.get? l' = none) {n : Nat} (hn : n ≤ l.length - 1) :
    let m' := (List.range n).foldl (fun m i => m.addFolder (l.take (i + 1))) m
    m'.Sound ∧ m'.files = m.files ∧
      ∀ l', m'.isFolder l' = true ↔ m.isFolder l' = true ∨ l' <+: l.take n := by
  induction n with
  | zero =>
    refine ⟨hm, rfl, fun l' => ⟨.inl, ?_⟩⟩
    rintro (h | h)
    · exact h
    · exact isFolder_iff.mpr (.inl (List.prefix_nil.mp h))
  | succ n ih =>
    obtain ⟨sound, files, folders⟩ := ih (by omega)
    rw [List.range_succ, List.foldl_append, List.foldl_cons, List.foldl_nil]
    generalize (List.range n).foldl (fun m i => m.addFolder (l.take (i + 1))) m = m' at *
    have longer : l.take (n + 1) = l.take n ++ [l[n]] := List.take_succ_eq_append_getElem (by omega)
    refine ⟨sound.addFolder ?_ ?_ ?_, files_addFolder.trans files, fun l' => ?_⟩
    · rw [longer, List.dropLast_concat]
      exact (folders _).mpr (.inr (List.prefix_refl _))
    · rw [files]
      refine hfree _ ?_
      rw [List.dropLast_eq_take]
      exact List.take_prefix_take_left hn
    · exact fun name h => hplain name (List.mem_of_mem_take h)
    · rw [isFolder_addFolder, folders, longer, List.prefix_concat_iff, or_assoc]
      exact or_congr_right or_comm

/-- A file can be put where no folder is in its place and no file in that of a folder above it. -/
theorem Sound.place (hm : m.Sound) (hne : l ≠ []) (hplain : ∀ name ∈ l, Plain name)
    (hf : m.isFolder l = false) (hfree : ∀ l', l' <+: l.dropLast → m.files.get? l' = none)
    (text : String) :
    (m.place l text).Sound ∧
      (∀ l', (m.place l text).isFolder l' = true → m.isFolder l' = true ∨ l' <+: l.dropLast) ∧
      ∀ l', (m.place l text).files.get? l' = if l' = l then some text else m.files.get? l' := by
  obtain ⟨sound, files, folders⟩ := sound_foldl_addFolder hm hplain hfree (Nat.le_refl _)
  rw [← List.dropLast_eq_take] at folders
  refine ⟨sound.insert (Bool.eq_false_iff.mpr fun h => ?_) ?_ hplain text,
    fun l' => (folders l').mp, fun l' => ?_⟩
  · rcases (folders l).mp h with h | h
    · rw [hf] at h
      cases h
    · have short := h.length_le
      have := List.length_pos_iff.mpr hne
      rw [List.length_dropLast] at short
      omega
  · exact (folders _).mpr (.inr (List.prefix_refl _))
  · refine (Dictionary.get?_insert _ l l' text).trans ?_
    rw [files]

end

/-- A machine with a working folder and some files, and the folders that these need. -/
def setUp (home : Location) (files : List (Location × String)) : Machine :=
  files.foldl (fun m f => m.place f.1 f.2) (blank home)

/-- Neither of two files stands in the place of a folder that the other one needs, or in its own. -/
def Beside (f g : Location × String) : Prop := ¬ f.1 <+: g.1 ∧ ¬ g.1 <+: f.1

instance (f g : Location × String) : Decidable (Beside f g) :=
  inferInstanceAs (Decidable (_ ∧ _))

private theorem Sound.foldl_place {m : Machine} (hm : m.Sound) {files : List (Location × String)}
    (hplain : ∀ f ∈ files, ∀ name ∈ f.1, Plain name) (hbeside : files.Pairwise Beside)
    (hfree : ∀ f ∈ files, m.isFolder f.1 = false ∧
      ∀ l', l' <+: f.1.dropLast → m.files.get? l' = none) :
    (files.foldl (fun m f => m.place f.1 f.2) m).Sound := by
  induction files generalizing m with
  | nil => exact hm
  | cons f files ih =>
    obtain ⟨⟨hf, hup⟩, hfree⟩ := List.forall_mem_cons.mp hfree
    obtain ⟨hplainf, hplain⟩ := List.forall_mem_cons.mp hplain
    obtain ⟨hbesidef, hbeside⟩ := List.pairwise_cons.mp hbeside
    have hne : f.1 ≠ [] := by
      intro he
      rw [he] at hf
      cases hf
    obtain ⟨sound, folders, texts⟩ := hm.place hne hplainf hf hup f.2
    refine ih sound hplain hbeside fun g hg => ⟨Bool.eq_false_iff.mpr fun h => ?_, ?_⟩
    · rcases folders g.1 h with h | h
      · rw [(hfree g hg).1] at h
        cases h
      · exact (hbesidef g hg).2 (h.trans (List.dropLast_prefix f.1))
    · intro l' hl'
      rw [texts, (hfree g hg).2 l' hl', ite_eq_right_iff]
      rintro rfl
      exact absurd (hl'.trans (List.dropLast_prefix g.1)) (hbesidef g hg).1

/-- Whatever files there are, as long as they can be there together, the machine is sound. -/
theorem sound_setUp {home : Location} {files : List (Location × String)}
    (hhome : ∀ name ∈ home, Plain name) (hplain : ∀ f ∈ files, ∀ name ∈ f.1, Plain name)
    (hfree : ∀ f ∈ files, ¬ f.1 <+: home) (hbeside : files.Pairwise Beside) :
    (setUp home files).Sound := by
  refine (sound_blank hhome).foldl_place hplain hbeside fun f hf => ⟨?_, fun _ _ => rfl⟩
  exact Bool.eq_false_iff.mpr (mt isFolder_blank.mp (hfree f hf))

end Machine

end MailComposer.Cli
