/-
  Rulebook.Command.Basic — the commands and what a run of each leaves.

  A run writes lines to its output and to its complaints, may end with a code, and may
  have failed. `evaluate` ends with the code 1 if a rule failed and with 2 if its request
  is none; `validate` ends with 1 if the settings cannot be loaded. What goes wrong before
  that is a failure without a code of its own. Warnings about settings are complaints,
  before everything else that is said.
  - `evaluate_explain`: asking for explanations adds text in front of the output and
    changes nothing else.
-/

import Rulebook.Examination
import Rulebook.Settings.Store

namespace Rulebook

inductive Command where
  | evaluate (request : String) (explain : Bool) (dialect : Option Dialect) (layout : Option Layout)
      (settings : Option String)
  | functions (json : Bool)
  | serve (listen : Option Address) (settings : Option String)
  | init (path : String)
  | validate (settings : Option String)

/-- What a command is run with: the files that it can see, and its input. -/
structure Surroundings where
  folder : Folder
  input : List UInt8

structure Run where
  output : String
  complaints : String
  code : Option Nat
  failure : Option String
  folder : Folder

namespace Command

def lines (items : List String) : String := String.join (items.map (· ++ "\n"))

def warned (warnings : List String) : String :=
  if warnings.isEmpty then "" else lines ("⚠️  Configuration warnings:" :: warnings.map ("   " ++ ·))

def done (folder : Folder) (output complaints : String) : Run := ⟨output, complaints, none, none, folder⟩

def failed (folder : Folder) (complaints failure : String) : Run := ⟨"", complaints, none, some failure, folder⟩

/-- The folder in which settings are looked for. -/
def here : String := "."

/-- The path that stands for the input. -/
def inputPath : String := "-"

/-! ## evaluate -/

def requestBody? (around : Surroundings) (path : String) : Option (List UInt8) :=
  if path = inputPath then some around.input
  else
    match around.folder.read path with
    | .bytes bytes => some bytes
    | _ => none

def explanationsFrom (place : Nat) : List String → List Outcome → List String
  | rule :: rules, outcome :: outcomes =>
    s!"[{place}] {rule}" :: s!"    {outcome.summary}" :: explanationsFrom (place + 1) rules outcomes
  | _, _ => []

def explanations (examination : Examination) : String :=
  lines (explanationsFrom 0 examination.rules examination.outcomes)

def verdict (examination : Examination) : String :=
  if examination.report.isEmpty then lines ["OK"] else lines [examination.report.toJson.toIndented]

def examined (folder : Folder) (complaints preamble : String) (examination : Examination) : Run :=
  let report := examination.report
  if report.isEmpty then done folder (preamble ++ verdict examination) complaints
  else
    ⟨preamble ++ verdict examination, complaints, some 1,
      some s!"{report.size} of {examination.rules.length} rule(s) failed", folder⟩

def misread (folder : Folder) (complaints path : String) (fault : Request.Fault) : Run :=
  ⟨"", complaints ++ lines [s!"❌ invalid evaluation request: {fault.message}"], some 2,
    some s!"evaluating {path}", folder⟩

def runEvaluate (around : Surroundings) (request : String) (explain : Bool) (dialect : Option Dialect)
    (layout : Option Layout) (settings : Option String) : Run :=
  match Settings.load around.folder here settings with
  | .error fault => failed around.folder "" fault.message
  | .ok (settings, warnings) =>
    match requestBody? around request with
    | none => failed around.folder (warned warnings) s!"reading evaluation request from {request}"
    | some body =>
      match (Evaluator.standard (dialect.getD settings.dialect)).examine (layout.getD settings.layout) body with
      | .error fault => misread around.folder (warned warnings) request fault
      | .ok examination =>
        examined around.folder (warned warnings) (if explain then explanations examination else "") examination

/-! ## The other commands -/

def described (extension : Extension) : List String :=
  let parameters := ", ".intercalate extension.parameters
  [s!"{extension.name}({parameters})", s!"    {extension.description}"]

def runFunctions (around : Surroundings) (json : Bool) : Run :=
  let registry := Registry.builtin
  let listing := if json then [registry.toJson.toIndented] else registry.toList.flatMap described
  done around.folder (lines listing) ""

/-- Gets ready to serve. There is nothing here that could listen to the address. -/
def runServe (around : Surroundings) (listen : Option Address) (settings : Option String) : Run :=
  match Settings.load around.folder here settings with
  | .error fault => failed around.folder "" fault.message
  | .ok (settings, warnings) =>
    failed around.folder (warned warnings)
      s!"binding to {String.ofList (listen.getD settings.server.listen).text}"

def runInit (around : Surroundings) (path : String) : Run :=
  let saving := Settings.savingSample around.folder path
  match saving.result with
  | .error fault => failed saving.folder "" fault.message
  | .ok () => done saving.folder (lines [s!"Generated default configuration file: {path}"]) ""

def runValidate (around : Surroundings) (path : Option String) : Run :=
  match Settings.load around.folder here path with
  | .error fault =>
    ⟨"", lines [s!"❌ Configuration validation failed: {fault.message}"], some 1, some fault.message, around.folder⟩
  | .ok (settings, warnings) =>
    let source := match path with
      | some path => s!"Config file: {path}"
      | none => "Using rules.[toml|yml|yaml|json] or the defaults"
    done around.folder
      (lines [
        "Configuration validation successful", source,
        s!"Dialect: {settings.dialect.name}, request layout: {settings.layout.name}"])
      (warned warnings)

def run (around : Surroundings) : Command → Run
  | .evaluate request explain dialect layout settings => runEvaluate around request explain dialect layout settings
  | .functions json => runFunctions around json
  | .serve listen settings => runServe around listen settings
  | .init path => runInit around path
  | .validate settings => runValidate around settings

/-- With explanations a run says the same, behind some text. -/
theorem evaluate_explain (around : Surroundings) (request : String) (dialect : Option Dialect)
    (layout : Option Layout) (settings : Option String) :
    ∃ preamble, runEvaluate around request true dialect layout settings =
      { runEvaluate around request false dialect layout settings with
        output := preamble ++ (runEvaluate around request false dialect layout settings).output } := by
  unfold runEvaluate
  split
  · exact ⟨"", by simp [failed]⟩
  · split
    · exact ⟨"", by simp [failed]⟩
    · split
      · exact ⟨"", by simp [misread]⟩
      · rename_i examination _
        refine ⟨explanations examination, ?_⟩
        unfold examined
        by_cases h : examination.report.isEmpty = true <;> simp [h, done]

end Command

end Rulebook
