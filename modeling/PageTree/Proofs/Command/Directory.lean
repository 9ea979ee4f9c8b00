import Mathlib.Data.List.Basic
import PageTree.Command.Directory
import PageTree.Proofs.Command.Host
import PageTree.Proofs.Entries

/-! # The host on a directory

Making directories leaves the files of a directory (**`Directory.files_of_makeFolders?`**), and
putting a file into its place changes what is there only (**`Directory.text?_put`**) and takes no
way away (**`Directory.walk?_put`**). So the host on a directory is lawful
(**`Workspace.host_lawful`**). A way that ends with a step up leads to a directory
(**`Directory.Rooted.isFolder_of_walk?`**), so in a directory in which no file is a directory, what
can be read has a file name (**`Workspace.isSome_fileName?_of_readText`**). -/

namespace PageTree.Command

namespace Directory

variable {d d' : Directory} {place target other : Place} {name text : String} {names : List String}

/-! ## Making directories -/

/-- Making directories leaves the files. -/
theorem files_of_makeFolders? (h : d.makeFolders? place names = some d') : d'.files = d.files := by
  induction names generalizing d place with
  | nil => rw [← Option.some.inj h]
  | cons name names ih =>
    rw [makeFolders?] at h
    split at h
    next next hnext =>
      split at h
      next => exact ih h
      next => contradiction
    next hnone =>
      split at h
      next hname =>
        have hfiles := ih h
        exact hfiles
      next => contradiction

/-! ## Putting a file into its place -/

/-- Only the text at the place changes. -/
theorem text?_put (d : Directory) (place other : Place) (text : String) :
    (d.put place text).text? other = if other = place then some text else d.text? other := by
  by_cases hother : other = place
  · rw [if_pos hother, hother]
    exact Entries.lookup_put_self d.files place text
  · rw [if_neg hother]
    exact Entries.lookup_put_of_ne text hother

/-- There is no directory less. -/
theorem isFolder_put (h : d.isFolder place = true) : (d.put target text).isFolder place = true := by
  rw [isFolder, Bool.or_eq_true, Bool.or_eq_true] at h ⊢
  obtain h | h := h
  · exact .inl h
  · refine .inr ?_
    obtain ⟨file, hfile, hbelow⟩ := List.any_eq_true.1 h
    by_cases htarget : file.1 = target
    · exact List.any_eq_true.2 ⟨(target, text), List.mem_cons_self, htarget ▸ hbelow⟩
    · have hkept : file ∈ d.files.filter fun file => file.1 != target :=
        List.mem_filter.2 ⟨hfile, by simpa using htarget⟩
      exact List.any_eq_true.2 ⟨file, List.mem_cons_of_mem _ hkept, hbelow⟩

/-- There is no file less. -/
theorem isSome_text?_put (h : (d.text? place).isSome = true) :
    ((d.put target text).text? place).isSome = true := by
  rw [text?_put]
  split
  · rfl
  · exact h

/-- One can still go on to what was there. -/
theorem step?_put (h : d.step? place name = some other) :
    (d.put target text).step? place name = some other := by
  rw [step?] at h ⊢
  split at h
  next => contradiction
  next hfolder =>
    have hfolder : d.isFolder place = true := by simpa using hfolder
    rw [isFolder_put hfolder]
    split at h
    next hup => exact (if_pos hup).trans h
    next hup =>
      refine (if_neg hup).trans ?_
      dsimp only at h ⊢
      split at h
      next hthere =>
        have hstill : ((d.put target text).isFolder (place.child name) ||
            ((d.put target text).text? (place.child name)).isSome) = true := by
          rw [Bool.or_eq_true] at hthere ⊢
          exact hthere.imp isFolder_put isSome_text?_put
        exact (if_pos hstill).trans h
      next => contradiction

/-- No way is taken away. -/
theorem walk?_put (h : d.walk? place names = some other) :
    (d.put target text).walk? place names = some other := by
  induction names generalizing place with
  | nil => exact h
  | cons name names ih =>
    rw [walk?, List.foldlM_cons] at h ⊢
    obtain ⟨next, hnext, hrest⟩ := Option.bind_eq_some_iff.1 h
    exact Option.bind_eq_some_iff.2 ⟨next, step?_put hnext, ih hrest⟩

/-- The file itself is reached in the directory that holds it. -/
theorem step?_put_child (hfolder : d.isFolder place = true) (hname : name ≠ "..") :
    (d.put (place.child name) text).step? place name = some (place.child name) := by
  have hthere : ((d.put (place.child name) text).text? (place.child name)).isSome = true := by
    rw [text?_put, if_pos rfl]
    rfl
  rw [step?, isFolder_put hfolder]
  simp only [Bool.not_true, Bool.false_eq_true, if_false, beq_iff_eq, hname, hthere, Bool.or_true,
    if_true]

/-! ## Where a way leads -/

/-- No file is a directory. -/
def Sound (d : Directory) : Prop := ∀ file ∈ d.files, d.isFolder file.1 = false

instance (d : Directory) : Decidable d.Sound :=
  inferInstanceAs (Decidable (∀ file ∈ d.files, d.isFolder file.1 = false))

/-- A directory has no text. -/
theorem Sound.isFolder_eq_false (hd : d.Sound) (h : d.text? place = some text) :
    d.isFolder place = false := by
  obtain ⟨before, after, hfiles, -⟩ := List.lookup_eq_some_iff.1 h
  exact hd (place, text) (by rw [hfiles]; simp)

/-- Everything above a place is a directory. -/
def Rooted (d : Directory) (place : Place) : Prop :=
  ∀ above, above <+: place.names → above ≠ place.names →
    d.isFolder { place with names := above } = true

/-- The place where paths start is a directory. -/
theorem isFolder_of_names_eq_nil (h : place.names = []) : d.isFolder place = true := by
  rw [isFolder, h]
  rfl

/-- Nothing is above the place where paths start. -/
theorem rooted_of_names_eq_nil (h : place.names = []) : d.Rooted place := by
  intro above habove hne
  rw [h] at habove hne
  exact absurd (List.prefix_nil.1 habove) hne

/-- The directory above a place is one, and what is above it is too. -/
theorem Rooted.parent (h : d.Rooted place) :
    d.isFolder place.parent = true ∧ d.Rooted place.parent := by
  obtain ⟨origin, names⟩ := place
  cases names with
  | nil =>
    have hnames : (Place.parent ⟨origin, []⟩).names = [] := by cases origin <;> rfl
    exact ⟨isFolder_of_names_eq_nil hnames, rooted_of_names_eq_nil hnames⟩
  | cons name names =>
    have hparent : Place.parent ⟨origin, name :: names⟩ = ⟨origin, (name :: names).dropLast⟩ := by
      cases origin <;> rfl
    -- a part of what is above is shorter than the way to the place
    have hshort : ∀ above, above <+: (name :: names).dropLast → above ≠ name :: names := by
      rintro _ habove rfl
      have hlength := habove.length_le
      rw [List.length_dropLast, List.length_cons] at hlength
      omega
    have hup : ∀ above, above <+: (name :: names).dropLast → d.isFolder ⟨origin, above⟩ = true :=
      fun above habove => h above (habove.trans (List.dropLast_prefix _)) (hshort above habove)
    rw [hparent]
    exact ⟨hup _ List.prefix_rfl, fun above habove _ => hup above habove⟩

/-- One step further, everything above is still a directory; a step up leads to one. -/
theorem Rooted.step? (h : d.Rooted place) (hstep : d.step? place name = some other) :
    d.Rooted other ∧ (name = ".." → d.isFolder other = true) := by
  rw [Directory.step?] at hstep
  split at hstep
  next => contradiction
  next hfolder =>
    split at hstep
    next hup =>
      obtain rfl := Option.some.inj hstep
      exact ⟨h.parent.2, fun _ => h.parent.1⟩
    next hup =>
      dsimp only at hstep
      split at hstep
      next =>
        obtain rfl := Option.some.inj hstep
        refine ⟨fun above habove hne => ?_, fun hname => absurd (by simp [hname]) hup⟩
        have habove : above <+: place.names := (List.prefix_concat_iff.1 habove).resolve_left hne
        by_cases hplace : above = place.names
        · have hfolder : d.isFolder place = true := by simpa using hfolder
          rw [hplace]
          exact hfolder
        · exact h above habove hplace
      next => contradiction

/-- Everything above what a way leads to is a directory. -/
theorem Rooted.walk? (h : d.Rooted place) (hwalk : d.walk? place names = some other) :
    d.Rooted other := by
  induction names generalizing place with
  | nil => exact Option.some.inj hwalk ▸ h
  | cons name names ih =>
    rw [Directory.walk?, List.foldlM_cons] at hwalk
    obtain ⟨next, hnext, hrest⟩ := Option.bind_eq_some_iff.1 hwalk
    exact ih (h.step? hnext).1 hrest

/-- A way that ends with a step up leads to a directory. -/
theorem Rooted.isFolder_of_walk? (h : d.Rooted place) (hwalk : d.walk? place names = some other)
    (hlast : names.getLast? = some "..") : d.isFolder other = true := by
  rw [← List.dropLast_append_getLast? _ hlast, Directory.walk?, List.foldlM_append] at hwalk
  obtain ⟨folder, hfolder, hup⟩ := Option.bind_eq_some_iff.1 hwalk
  rw [List.foldlM_cons] at hup
  obtain ⟨next, hnext, hdone⟩ := Option.bind_eq_some_iff.1 hup
  obtain rfl := Option.some.inj hdone
  exact ((h.walk? hfolder).step? hnext).2 rfl

end Directory

namespace Workspace

variable {d d' : Directory} {path text : String}

/-- The files of a directory, and what has been printed. -/
def view : View Workspace where
  File := Place
  file? workspace path := place? workspace.directory path
  bytes? workspace place := (workspace.directory.text? place).map String.toUTF8
  printed := printed

/-- The bytes seen in a file are those of its text. -/
theorem bytes?_view (workspace : Workspace) (place : Place) :
    view.bytes? workspace place = (workspace.directory.text? place).map String.toUTF8 := rfl

/-- A file that is written is put into the place that the path leads to from then on. -/
theorem exists_of_writeText? (h : writeText? d path text = some d') :
    ∃ target, d' = d.put target text ∧ place? d' path = some target := by
  obtain ⟨⟨start, names⟩, hstart, h⟩ := Option.bind_eq_some_iff.1 h
  obtain ⟨name, hlast, h⟩ := Option.bind_eq_some_iff.1 h
  obtain ⟨folder, hwalk, h⟩ := Option.bind_eq_some_iff.1 h
  dsimp only at h
  split at h
  next => contradiction
  next hallowed =>
    obtain rfl := Option.some.inj h
    simp only [Bool.or_eq_true, Bool.not_eq_true', not_or, Bool.not_eq_true,
      Bool.not_eq_false] at hallowed
    obtain ⟨⟨⟨hform, hname⟩, hfolder⟩, -⟩ := hallowed
    have hup : name ≠ ".." := by
      rintro rfl
      exact absurd hname (by decide)
    -- the way to the file is the way to its folder, which writing leaves, and the last name
    have hreached : (d.put (folder.child name) text).walk? start names =
        some (folder.child name) := by
      rw [← List.dropLast_append_getLast? name hlast, Directory.walk?, List.foldlM_append]
      refine Option.bind_eq_some_iff.2 ⟨folder, Directory.walk?_put hwalk, ?_⟩
      rw [List.foldlM_cons, Directory.step?_put_child hfolder hup]
      rfl
    refine ⟨folder.child name, rfl, Option.bind_eq_some_iff.2 ⟨(start, names), hstart, ?_⟩⟩
    dsimp only
    rw [hreached, Option.filter_some, hform, Bool.not_false, Bool.or_true, if_pos rfl]

/-- A way starts at a place without names above it. If its path has no file name, it goes no step or
ends with a step up. -/
theorem start?_eq_some {start : Place} {names : List String}
    (h : start? path = some (start, names)) : start.names = [] ∧
      (Path.fileName? path = none → names = [] ∨ names.getLast? = some "..") := by
  rw [start?] at h
  split at h
  next => contradiction
  next =>
    split at h
    next =>
      obtain ⟨rfl, rfl⟩ := Prod.mk.inj (Option.some.inj h)
      refine ⟨rfl, fun hnone => ?_⟩
      rw [Path.fileName?] at hnone
      split at hnone
      next hup => exact .inr hup
      next => exact .inl (List.getLast?_eq_none_iff.1 hnone)
    next =>
      split at h
      next first rest hparts =>
        split at h
        next hfirst =>
          obtain ⟨rfl, rfl⟩ := Prod.mk.inj (Option.some.inj h)
          refine ⟨rfl, fun hnone => ?_⟩
          rw [Path.fileName?, hparts] at hnone
          cases rest with
          | nil => exact .inl rfl
          | cons second rest =>
            rw [List.getLast?_cons_cons] at hnone
            split at hnone
            next hup => exact .inr hup
            next => exact absurd (List.getLast?_eq_none_iff.1 hnone) (List.cons_ne_nil _ _)
        next => contradiction
      next => contradiction

/-- What can be read as a file has a name: a path without one leads to a directory. -/
theorem isSome_fileName?_of_readText {workspace : Workspace} (hsound : workspace.directory.Sound)
    (h : (host.textIn? workspace path).isSome = true) :
    (Path.fileName? path).isSome = true := by
  obtain ⟨text, htext⟩ := Option.isSome_iff_exists.1 h
  have htext : readText? workspace.directory path = some text := htext
  obtain ⟨place, hplace, htext⟩ := Option.bind_eq_some_iff.1 htext
  obtain ⟨⟨start, names⟩, hstart, hleads⟩ := Option.bind_eq_some_iff.1 hplace
  have hwalk : workspace.directory.walk? start names = some place :=
    (Option.filter_eq_some_iff.1 hleads).1
  have hfile : workspace.directory.isFolder place = false := hsound.isFolder_eq_false htext
  obtain ⟨hroot, hends⟩ := start?_eq_some hstart
  by_contra hnone
  have hfolder : workspace.directory.isFolder place = true := by
    obtain rfl | hlast := hends (Option.not_isSome_iff_eq_none.1 hnone)
    · obtain rfl := Option.some.inj hwalk
      exact Directory.isFolder_of_names_eq_nil hroot
    · exact (Directory.rooted_of_names_eq_nil hroot).isFolder_of_walk? hwalk hlast
  exact absurd (hfile.symm.trans hfolder) (by decide)

/-- A change is made if it is possible, and then alone. -/
theorem run_change (f : Directory → Option Directory) (workspace : Workspace) :
    (change f).run workspace =
      match f workspace.directory with
      | some directory => (true, { workspace with directory := directory })
      | none => (false, workspace) := by
  have hrun : (change f).run workspace =
      StateT.run (match f workspace.directory with
        | some directory => do set { workspace with directory := directory }; return true
        | none => return false : StateM Workspace Bool) workspace := rfl
  rw [hrun]
  cases f workspace.directory <;> rfl

/-- The host on a directory is lawful. -/
theorem host_lawful : host.Lawful view where
  isPresent path workspace := rfl
  readText path workspace := rfl
  ensureDirectory path workspace := by
    rw [host, run_change]
    split
    next directory hmade =>
      obtain ⟨⟨start, names⟩, -, hfolders⟩ := Option.bind_eq_some_iff.1 hmade
      have hfiles : directory.files = workspace.directory.files :=
        Directory.files_of_makeFolders? hfolders
      refine ⟨fun (place : Place) => ?_, rfl⟩
      rw [bytes?_view, bytes?_view, Directory.text?, Directory.text?, hfiles]
    next => exact View.Same.refl workspace
  writeText path text workspace h := by
    rw [host, run_change] at h ⊢
    split at h
    next directory hwritten =>
      obtain ⟨target, rfl, hleads⟩ := exists_of_writeText? hwritten
      refine ⟨⟨target, hleads, ?_, fun (other : Place) (hne : other ≠ target) => ?_⟩, rfl⟩
      · rw [bytes?_view, Directory.text?_put, if_pos rfl, Option.map_some]
      · rw [bytes?_view, bytes?_view, Directory.text?_put, if_neg hne]
    next => contradiction
  writeText_fails path text workspace h := by
    rw [host, run_change] at h ⊢
    split at h
    next => contradiction
    next => exact View.Same.refl workspace
  print text workspace := ⟨fun place => rfl, rfl⟩
  notify text workspace := ⟨fun place => rfl, rfl⟩
  notify_file? text workspace path := rfl

end Workspace

end PageTree.Command
