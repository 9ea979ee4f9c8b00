import PageTree.Command.Program

/-! # Lawful hosts

Commands are written over any host. Here is what they rely on, for a host whose state is that of the
system: a **`View`** says what can be seen of a state, the files with their bytes and what has been
printed, and a host is **`Host.Lawful`** if each of its effects changes that as it should. Above all
a write that fails has changed no file, and one that succeeds the whole content of one file. The
steps of a command are then carried out one after the other (**`run_bind`**, **`run_lift`**). -/

namespace PageTree.Command

/-! ## What can be seen -/

/-- What can be seen of the states of a system. -/
structure View (σ : Type) where
  /-- What a path may lead to. -/
  File : Type
  /-- Where a path leads. -/
  file? : σ → String → Option File
  /-- What a file holds, if it is there. -/
  bytes? : σ → File → Option ByteArray
  /-- What has been printed. -/
  printed : σ → String

namespace View

variable {σ : Type} (view : View σ) {s t u : σ} {path text : String}

/-- No file is created or changed. -/
def SameFiles (s t : σ) : Prop := ∀ file, view.bytes? t file = view.bytes? s file

/-- No file is created or changed, and nothing is printed. -/
def Same (s t : σ) : Prop := view.SameFiles s t ∧ view.printed t = view.printed s

/-- A text is printed, and no file is created or changed. -/
def Prints (s t : σ) (text : String) : Prop :=
  view.SameFiles s t ∧ view.printed t = view.printed s ++ text

/-- The file that a path leads to holds a text. No other file is created or changed, and nothing is
printed. -/
def Writes (s t : σ) (path text : String) : Prop :=
  (∃ file, view.file? t path = some file ∧ view.bytes? t file = some text.toUTF8 ∧
    ∀ other, other ≠ file → view.bytes? t other = view.bytes? s other) ∧
  view.printed t = view.printed s

variable {view}

/-- Where nothing happens nothing changes. -/
theorem Same.refl (s : σ) : view.Same s s := ⟨fun _ => rfl, rfl⟩

/-- What changes nothing twice changes nothing. -/
theorem Same.trans (h : view.Same s t) (h' : view.Same t u) : view.Same s u :=
  ⟨fun file => (h'.1 file).trans (h.1 file), h'.2.trans h.2⟩

/-- Nothing but one file changes, also with what came before. -/
theorem Same.writes (h : view.Same s t) (h' : view.Writes t u path text) :
    view.Writes s u path text := by
  obtain ⟨⟨file, hfile, hbytes, hothers⟩, hprinted⟩ := h'
  exact ⟨⟨file, hfile, hbytes, fun other hne => (hothers other hne).trans (h.1 other)⟩,
    hprinted.trans h.2⟩

/-- Nothing but one file changes, also with what comes behind. -/
theorem Writes.same (h : view.Writes s t path text) (h' : view.Same t u)
    (hfile? : view.file? u path = view.file? t path) : view.Writes s u path text := by
  obtain ⟨⟨file, hfile, hbytes, hothers⟩, hprinted⟩ := h
  exact ⟨⟨file, hfile?.trans hfile, (h'.1 file).trans hbytes,
    fun other hne => (h'.1 other).trans (hothers other hne)⟩, h'.2.trans hprinted⟩

end View

/-! ## What a command relies on -/

namespace Host

variable {σ : Type} (host : Host (StateM σ)) (s : σ)

/-- Whether there is something at a path in a state. -/
def isPresentIn (path : String) : Bool := ((host.isPresent path).run s).1

/-- The text that can be read at a path in a state. -/
def textIn? (path : String) : Option String := ((host.readText path).run s).1

/-- The effects of a host change what can be seen as they should. -/
structure Lawful (host : Host (StateM σ)) (view : View σ) : Prop where
  /-- Looking for something changes nothing. -/
  isPresent : ∀ path s, ((host.isPresent path).run s).2 = s
  /-- Reading changes nothing. -/
  readText : ∀ path s, ((host.readText path).run s).2 = s
  /-- Making directories changes no file, whether it succeeds or not. -/
  ensureDirectory : ∀ path s, view.Same s ((host.ensureDirectory path).run s).2
  /-- A write that succeeds replaces the whole content of one file. -/
  writeText : ∀ path text s, ((host.writeText path text).run s).1 = true →
    view.Writes s ((host.writeText path text).run s).2 path text
  /-- A write that fails changes nothing. -/
  writeText_fails : ∀ path text s, ((host.writeText path text).run s).1 = false →
    view.Same s ((host.writeText path text).run s).2
  /-- What is printed comes behind what has been printed. -/
  print : ∀ text s, view.Prints s ((host.print text).run s).2 text
  /-- What the user is told is not printed, and changes no file. -/
  notify : ∀ text s, view.Same s ((host.notify text).run s).2
  /-- What the user is told changes no path. -/
  notify_file? : ∀ text s path,
    view.file? ((host.notify text).run s).2 path = view.file? s path

end Host

/-! ## Steps of a command -/

section Steps

variable {σ α β : Type} (s : σ)

/-- What comes next is carried out in the state that the steps before it leave, unless one of them
failed. -/
theorem run_bind (steps : ExceptT Failure (StateM σ) α)
    (next : α → ExceptT Failure (StateM σ) β) :
    (steps >>= next).run.run s =
      match steps.run.run s with
      | (.ok a, t) => (next a).run.run t
      | (.error failure, t) => (.error failure, t) := by
  rw [ExceptT.run_bind, StateT.run_bind]
  cases steps.run.run s with
  | mk result t => cases result <;> rfl

/-- An effect of the host is no failure. -/
theorem run_lift (effect : StateM σ α) :
    (liftM effect : ExceptT Failure (StateM σ) α).run.run s =
      (.ok (effect.run s).1, (effect.run s).2) := rfl

variable {host : Host (StateM σ)} {view : View σ}

/-- Looking whether something is at a path changes nothing. -/
theorem Host.Lawful.run_isPresent (hlawful : host.Lawful view) (path : String) :
    (liftM (host.isPresent path) : ExceptT Failure (StateM σ) Bool).run.run s =
      (.ok (host.isPresentIn s path), s) := by
  rw [run_lift, hlawful.isPresent, isPresentIn]

/-- Reading a text changes nothing. -/
theorem Host.Lawful.run_readText (hlawful : host.Lawful view) (path : String) :
    (liftM (host.readText path) : ExceptT Failure (StateM σ) (Option String)).run.run s =
      (.ok (host.textIn? s path), s) := by
  rw [run_lift, hlawful.readText, textIn?]

end Steps

end PageTree.Command
