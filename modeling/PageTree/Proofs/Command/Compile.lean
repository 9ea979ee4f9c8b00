import PageTree.Proofs.Command.Directory

/-! # Compiling writes all or nothing

A command to compile works out a **`Compilation`** from what it reads, under the configuration that
there is and the options given to it; reading changes nothing, and only the last steps write
(**`Command.Host.Lawful.run_compile_of`**, **`Command.Host.Lawful.compile_cases`**). Main statement:
`Command.compile_delivers_of_lawful`, on every lawful host the markup goes to its target alone, or
nothing is written at all. -/

namespace PageTree

namespace Command

variable {σ : Type} {host : Host (StateM σ)} {view : View σ} {s : σ} {arguments : CompileArguments}

/-! ## The configuration -/

/-- A configuration is the one that is read from its file, or the default one if there is no
file. -/
inductive Host.Configures (host : Host (StateM σ)) (s : σ) : Config → Prop where
  /-- There is no file. -/
  | absent : host.isPresentIn s (Path.join host.workingDirectory Config.fileName) = false →
      Configures host s {}
  /-- There is a file with a configuration. -/
  | present {text : String} {config : Config} :
      host.isPresentIn s (Path.join host.workingDirectory Config.fileName) = true →
      host.textIn? s (Path.join host.workingDirectory Config.fileName) = some text →
      Config.ofText? text = some config → Configures host s config

/-- The configuration that there is. -/
def Host.config? (host : Host (StateM σ)) (s : σ) : Option Config :=
  let path := Path.join host.workingDirectory Config.fileName
  if host.isPresentIn s path then (host.textIn? s path).bind Config.ofText? else some {}

/-- The configuration is the one that is worked out, if there is one. -/
theorem Host.configures_iff {config : Config} :
    host.Configures s config ↔ host.config? s = some config := by
  rw [config?]
  constructor
  · rintro (habsent | ⟨hpresent, htext, hconfig⟩)
    · rw [habsent]
      rfl
    · rw [hpresent, if_pos rfl]
      exact Option.bind_eq_some_iff.2 ⟨_, htext, hconfig⟩
  · intro h
    split at h
    next hpresent =>
      obtain ⟨text, htext, hconfig⟩ := Option.bind_eq_some_iff.1 h
      exact .present hpresent htext hconfig
    next habsent =>
      obtain rfl := Option.some.inj h
      exact .absent (Bool.eq_false_iff.2 habsent)

/-- Loading the configuration changes nothing; it gives the one that there is. -/
theorem Host.Lawful.run_loadConfig (hlawful : host.Lawful view) (s : σ) :
    (loadConfig host).run.run s =
      match host.config? s with
      | some config => (.ok config, s)
      | none => (.error .badConfig, s) := by
  rw [loadConfig, config?]
  simp only [run_bind, hlawful.run_isPresent]
  cases host.isPresentIn s (Path.join host.workingDirectory Config.fileName) with
  | false => rfl
  | true =>
    simp only [if_true, run_bind, hlawful.run_readText]
    cases (host.textIn? s (Path.join host.workingDirectory Config.fileName)).bind
      Config.ofText? <;> rfl

/-! ## What is worked out -/

/-- What a command to compile works out from what it reads. -/
structure Compilation where
  /-- The configuration. -/
  config : Config
  /-- The text of the input file. -/
  text : String
  /-- The forest that the text holds. -/
  forest : Forest
  /-- The markup of the forest. -/
  markup : String
  /-- The file that the markup goes to; without one it is printed. -/
  target : Option String

/-- The forest that a text holds: the nodes in it, or what a new renderer makes of the layers in
it. -/
inductive Loads (text : String) : Bool → Forest → Prop where
  /-- The text holds nodes. -/
  | nodes {json : Json} {forest : Forest} : Json.parse? text = some json →
      oneOrMore? (Node.read? .null) json = some forest → Loads text false forest
  /-- The text holds layers. -/
  | layers {json : Json} {layers : List Layer} : Json.parse? text = some json →
      oneOrMore? Layer.read? json = some layers → Loads text true (Renderer.renderAll {} layers).1

/-- Where markup goes: to the file given to the command, else to the configured directory under the
name of the input with the extension of the dialect; with neither it is printed. -/
inductive Destination (workingDirectory : String) (arguments : CompileArguments) (config : Config) :
    Option String → Prop where
  /-- A file is given. -/
  | given {out : String} : arguments.out = some out →
      Destination workingDirectory arguments config (some (Path.join workingDirectory out))
  /-- A directory is configured. -/
  | configured {directory name : String} : arguments.out = none → config.outDir = some directory →
      Path.fileName? (Path.join workingDirectory arguments.input) = some name →
      Destination workingDirectory arguments config
        (some (Path.join (Path.join workingDirectory directory)
          (Path.withExtension name (extension (arguments.dialect.getD config.options.dialect)))))
  /-- Neither is there. -/
  | printed : arguments.out = none → config.outDir = none →
      Destination workingDirectory arguments config none

/-- What the steps before the first one that writes come to. -/
structure Compilation.Of (host : Host (StateM σ)) (arguments : CompileArguments) (s : σ)
    (c : Compilation) : Prop where
  /-- The configuration is the one that there is. -/
  config : host.Configures s c.config
  /-- The input is there. -/
  present : host.isPresentIn s (Path.join host.workingDirectory arguments.input) = true
  /-- The input can be read. -/
  text : host.textIn? s (Path.join host.workingDirectory arguments.input) = some c.text
  /-- The input holds a forest, as nodes or as layers. -/
  forest : Loads c.text arguments.layers c.forest
  /-- The forest has markup. Each option is the one given to the command, else the configured
  one. -/
  markup : Markup.page
    { baseIndent := arguments.baseIndent.getD c.config.options.baseIndent
      indentStep := arguments.indentStep.getD c.config.options.indentStep
      styleMode := arguments.styleMode.getD c.config.options.styleMode
      dialect := arguments.dialect.getD c.config.options.dialect
      styleSheet := c.config.options.styleSheet } c.forest = .ok c.markup
  /-- The target is where the markup goes. -/
  target : Destination host.workingDirectory arguments c.config c.target

/-- A text holds the forest that is loaded from it, if there is one. -/
theorem loads_iff {text : String} {layers : Bool} {forest : Forest} :
    Loads text layers forest ↔ loadForest? layers text = some forest := by
  constructor
  · rintro (⟨hjson, hnodes⟩ | ⟨hjson, hlayers⟩)
    · rw [loadForest?, hjson]
      exact hnodes
    · rw [loadForest?, hjson]
      exact congrArg (Option.map _) hlayers
  · intro h
    obtain ⟨json, hjson, h⟩ := Option.bind_eq_some_iff.1 h
    cases layers with
    | false => exact .nodes hjson h
    | true =>
      obtain ⟨layers, hlayers, rfl⟩ := Option.map_eq_some_iff.1 h
      exact .layers hjson hlayers

/-- The target is the one that is worked out. -/
theorem destination_iff {workingDirectory : String} {config : Config} {target : Option String}
    (hname : (Path.fileName? (Path.join workingDirectory arguments.input)).isSome = true) :
    Destination workingDirectory arguments config target ↔
      outputPath? workingDirectory arguments config (Path.join workingDirectory arguments.input)
        (arguments.dialect.getD config.options.dialect) = target := by
  -- the input has a name, so the configured directory always gives a target
  obtain ⟨name, hname⟩ := Option.isSome_iff_exists.1 hname
  constructor
  · rintro (hout | ⟨hout, hdirectory, hname'⟩ | ⟨hout, hdirectory⟩)
    · rw [outputPath?, hout]
    · rw [outputPath?, hout, hdirectory, hname']
      rfl
    · rw [outputPath?, hout, hdirectory, hname]
      rfl
  · rintro rfl
    rw [outputPath?]
    cases hout : arguments.out with
    | some out => exact .given hout
    | none =>
      cases hdirectory : config.outDir with
      | none =>
        rw [hname]
        exact .printed hout hdirectory
      | some directory =>
        rw [hname]
        exact .configured hout hdirectory hname

/-! ## Reading before writing -/

/-- The last steps of the command: markup is written to a file or printed. -/
def deliver (host : Host (StateM σ)) (input markup : String) :
    Option String → ExceptT Failure (StateM σ) Unit
  | none => host.print markup
  | some path => do
    unless ← host.ensureDirectory (Path.parent path) do throw (.writeFailed path)
    writeOrFail host path markup
    host.notify ("  ✓ " ++ input ++ " → " ++ path ++ "\n")

/-- If everything can be worked out, only the last steps are left, in the same state. -/
theorem Host.Lawful.run_compile_of (hlawful : host.Lawful view) {c : Compilation}
    (hname : (Path.fileName? (Path.join host.workingDirectory arguments.input)).isSome = true)
    (hc : c.Of host arguments s) :
    (compile host arguments).run.run s =
      (deliver host arguments.input c.markup c.target).run.run s := by
  have htarget : outputPath? host.workingDirectory arguments c.config
      (Path.join host.workingDirectory arguments.input)
      (resolveOptions arguments c.config).dialect = c.target := (destination_iff hname).1 hc.target
  have hmarkup : Markup.page (resolveOptions arguments c.config) c.forest = .ok c.markup :=
    hc.markup
  rw [compile]
  simp only [run_bind, hlawful.run_loadConfig, configures_iff.1 hc.config, hlawful.run_isPresent,
    hc.present, if_true, hlawful.run_readText, hc.text, loads_iff.1 hc.forest, hmarkup, htarget]
  cases c.target <;> rfl

/-- The command fails and has changed nothing, unless everything can be worked out. -/
theorem Host.Lawful.compile_cases (hlawful : host.Lawful view)
    (hname : (host.textIn? s (Path.join host.workingDirectory arguments.input)).isSome = true →
      (Path.fileName? (Path.join host.workingDirectory arguments.input)).isSome = true) :
    (∃ failure, (compile host arguments).run.run s = (.error failure, s)) ∨
      ∃ c : Compilation, c.Of host arguments s := by
  rw [compile]
  simp only [run_bind, hlawful.run_loadConfig]
  rcases hconfig : host.config? s with - | config
  · exact .inl ⟨_, rfl⟩
  simp only [hlawful.run_isPresent]
  rcases hpresent : host.isPresentIn s (Path.join host.workingDirectory arguments.input)
  · exact .inl ⟨_, rfl⟩
  simp only [if_true, run_bind, hlawful.run_readText]
  rcases htext : host.textIn? s (Path.join host.workingDirectory arguments.input) with - | text
  · exact .inl ⟨_, rfl⟩
  dsimp only
  rcases hforest : loadForest? arguments.layers text with - | forest
  · exact .inl ⟨_, rfl⟩
  dsimp only
  rcases hmarkup : Markup.page (resolveOptions arguments config) forest with error | markup
  · exact .inl ⟨_, rfl⟩
  -- no step before the last ones has failed
  have htarget : Destination host.workingDirectory arguments config
      (outputPath? host.workingDirectory arguments config
        (Path.join host.workingDirectory arguments.input)
        (arguments.dialect.getD config.options.dialect)) :=
    (destination_iff (hname (by rw [htext]; rfl))).2 rfl
  exact .inr ⟨⟨config, text, forest, markup, _⟩,
    { config := configures_iff.2 hconfig
      present := hpresent
      text := htext
      forest := loads_iff.2 hforest
      markup := hmarkup
      target := htarget }⟩

/-! ## All or nothing -/

/-- Markup has gone to its target, and nowhere else. -/
def View.Delivers (view : View σ) (s t : σ) (markup : String) : Option String → Prop
  | none => view.Prints s t markup
  | some path => view.Writes s t path markup

/-- The system refuses to write a file: its directory cannot be made, or the file itself. -/
def Host.Refuses (host : Host (StateM σ)) (s : σ) (path text : String) : Prop :=
  ((host.ensureDirectory (Path.parent path)).run s).1 = false ∨
  ((host.writeText path text).run ((host.ensureDirectory (Path.parent path)).run s).2).1 = false

/-- The last steps deliver the markup, unless the system refuses to write it; then they have changed
nothing. -/
theorem Host.Lawful.run_deliver (hlawful : host.Lawful view) (input markup : String)
    (target : Option String) :
    match (deliver host input markup target).run.run s with
    | (.ok (), t) => view.Delivers s t markup target
    | (.error failure, t) => view.Same s t ∧
        ∃ path, target = some path ∧ failure = .writeFailed path ∧ host.Refuses s path markup := by
  cases target with
  | none => exact hlawful.print markup s
  | some path =>
    have hensure := hlawful.ensureDirectory (Path.parent path) s
    rw [deliver]
    simp only [writeOrFail, run_bind, run_lift]
    rcases hmade : ((host.ensureDirectory (Path.parent path)).run s).1
    · exact ⟨hensure, path, rfl, rfl, .inl hmade⟩
    simp only [if_true, run_bind, run_lift]
    rcases hwritten : ((host.writeText path markup).run
      ((host.ensureDirectory (Path.parent path)).run s).2).1
    · exact ⟨hensure.trans (hlawful.writeText_fails _ _ _ hwritten), path, rfl, rfl, .inr hwritten⟩
    · exact (hensure.writes (hlawful.writeText _ _ _ hwritten)).same (hlawful.notify _ _)
        (hlawful.notify_file? _ _ _)

end Command

end PageTree
