/-
  Rulebook.Settings.Store — settings in files.

  Settings are loaded from a file that is named, or else from the first that there is of
  four with fixed names; without any of them the standard settings hold. A file that is
  there but cannot be used is never passed over for a later one.
  - `search_eq`: what a search comes to, by the first path under which there is anything.
  - `load_none`: looking for a file is the same as naming the first that there is.
  - `ofText_of_read`: what settings that are read come to.
  - `check_of_load`: settings are loaded with the warnings of their check.

  The message of a fault says what was to be done when it came up. Why a text holds no
  settings stands beside it, as the cause.
-/

import Rulebook.Folder
import Rulebook.Settings.Format

namespace Rulebook.Settings

inductive Fault where
  | unread (path : String)
  | unparsed (format : Format) (path : String) (cause : Cause)
  | unsupported (extension : String)
  | refused (message : String)
  | unwritten (path : String)
  | sampleUnwritten (path : String)
  deriving DecidableEq, Repr

def Fault.message : Fault → String
  | .unread path => s!"reading rule-evaluator configuration from {path}"
  | .unparsed format path _ => s!"parsing {format.name} configuration from {path}"
  | .unsupported extension => s!"unsupported configuration file extension: {extension}"
  | .refused message => message
  | .unwritten path => s!"writing configuration to {path}"
  | .sampleUnwritten path => s!"writing default configuration to {path}"

def formatOf (path : String) : Except Fault Format :=
  let extension := (Path.extension? path).getD ""
  match Format.ofExtension? extension with
  | some format => .ok format
  | none => .error (.unsupported extension)

/-! ## Loading -/

def ofText (path : String) (text : List Char) : Except Fault (Settings × List String) :=
  match formatOf path with
  | .error fault => .error fault
  | .ok format =>
    match format.read text with
    | .error cause => .error (.unparsed format path cause)
    | .ok settings =>
      match settings.check with
      | .error message => .error (.refused message)
      | .ok warnings => .ok (settings, warnings)

def loadFile (folder : Folder) (path : String) : Except Fault (Settings × List String) :=
  match folder.text? path with
  | none => .error (.unread path)
  | some text => ofText path text

/-- The names under which settings are looked for, in this order. -/
def fileNames : List String := ["rules.toml", "rules.yml", "rules.yaml", "rules.json"]

def candidates (root : String) : List String := fileNames.map (Path.join root)

/-- The first of some paths that can be read, with its text. Only a path under which there is nothing is passed over. -/
def search (folder : Folder) : List String → Except Fault (Option (String × List Char))
  | [] => .ok none
  | path :: rest =>
    match folder.read path with
    | .missing => search folder rest
    | .blocked => .error (.unread path)
    | .bytes bytes =>
      match Text.Utf8.decode? bytes with
      | none => .error (.unread path)
      | some text => .ok (some (path, text))

/-- The settings of a path, or those that are found under a root, with their warnings. -/
def load (folder : Folder) (root : String) (path : Option String) : Except Fault (Settings × List String) :=
  match path with
  | some path => loadFile folder path
  | none =>
    match search folder (candidates root) with
    | .error fault => .error fault
    | .ok none => .ok (standard, [])
    | .ok (some (path, text)) => ofText path text

def firstPath? (folder : Folder) (root : String) : Option String :=
  (candidates root).find? fun path => folder.read path != .missing

/-! ## Saving -/

/-- What came of saving, and the folder that it leaves. -/
structure Saving where
  result : Except Fault Unit
  folder : Folder

def Saving.writing (folder : Folder) (path : String) (text : List Char) (fault : Fault) : Saving :=
  match folder.write? path (Text.Utf8.encode text) with
  | some written => ⟨.ok (), written⟩
  | none => ⟨.error fault, folder⟩

/-- The folder after a saving that did not fail. -/
def Saving.saved (saving : Saving) : Except Fault Folder := saving.result.map fun _ => saving.folder

def saving (settings : Settings) (folder : Folder) (path : String) : Saving :=
  match formatOf path with
  | .error fault => ⟨.error fault, folder⟩
  | .ok format => .writing folder path (format.write settings) (.unwritten path)

/-- Saves the standard settings under a path, with explanations if they are TOML. -/
def savingSample (folder : Folder) (path : String) : Saving :=
  if Path.extension? path = some "toml" then .writing folder path Format.sample (.sampleUnwritten path)
  else saving standard folder path

def save (settings : Settings) (folder : Folder) (path : String) : Except Fault Folder :=
  (saving settings folder path).saved

def saveSample (folder : Folder) (path : String) : Except Fault Folder := (savingSample folder path).saved

/-! ## What is loaded -/

/-- A search ends at the first path under which there is anything, with its text or without any. -/
theorem search_eq (folder : Folder) (paths : List String) :
    search folder paths =
      match paths.find? fun path => folder.read path != .missing with
      | none => .ok none
      | some path =>
        match folder.text? path with
        | none => .error (.unread path)
        | some text => .ok (some (path, text)) := by
  induction paths with
  | nil => rfl
  | cons path rest ih =>
    rw [search]
    cases hread : folder.read path with
    | missing =>
      rw [List.find?_cons_of_neg (by simp [hread])]
      exact ih
    | blocked =>
      rw [List.find?_cons_of_pos (by simp [hread])]
      simp only [Folder.text?, hread]
    | bytes bytes =>
      rw [List.find?_cons_of_pos (by simp [hread])]
      simp only [Folder.text?, hread]

theorem load_none (folder : Folder) (root : String) :
    load folder root none =
      match firstPath? folder root with
      | some path => load folder root (some path)
      | none => .ok (standard, []) := by
  unfold load firstPath?
  simp only [search_eq]
  cases (candidates root).find? fun path => folder.read path != .missing with
  | none => rfl
  | some path =>
    simp only [loadFile]
    cases folder.text? path with
    | none => rfl
    | some text => rfl

variable {folder : Folder} {root path : String} {loaded : Settings × List String}

/-- Settings that are read from a text are refused for nothing but their limit. -/
theorem ofText_of_read {format : Format} {settings : Settings} {text : List Char} (hformat : formatOf path = .ok format)
    (hread : format.read text = .ok settings) :
    ofText path text =
      if settings.server.maxBody = 0 then .error (.refused noBodyMessage) else .ok (settings, settings.warnings) := by
  unfold ofText check
  simp only [hformat, hread]
  by_cases hlimit : settings.server.maxBody = 0
  · rw [if_pos hlimit, if_pos hlimit]
  · rw [if_neg hlimit, if_neg hlimit]

theorem check_of_ofText {text : List Char} (h : ofText path text = .ok loaded) :
    loaded.1.check = .ok loaded.2 := by
  unfold ofText at h
  split at h
  · cases h
  · split at h
    · cases h
    · split at h
      · cases h
      · cases h
        assumption

theorem check_of_loadFile (h : loadFile folder path = .ok loaded) : loaded.1.check = .ok loaded.2 := by
  unfold loadFile at h
  split at h
  · cases h
  · exact check_of_ofText h

/-- What is loaded has been checked, on every way. -/
theorem check_of_load {path : Option String} (h : load folder root path = .ok loaded) :
    loaded.1.check = .ok loaded.2 := by
  cases path with
  | some path => exact check_of_loadFile h
  | none =>
    rw [load_none] at h
    split at h
    · exact check_of_loadFile h
    · cases h
      rfl

end Rulebook.Settings
