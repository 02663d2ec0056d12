/-
  Rulebook.Main — the program.

  Reads the files that a command looks at, runs it on them, and writes what the run
  leaves. All decisions are made by `Command.run`.
-/

import Rulebook.Command.Arguments

namespace Rulebook.Main

/-- The paths of settings that a command may look at. -/
def settingsPaths : Option String → List String
  | some path => [path]
  | none => Settings.fileNames.map (Path.join Command.here)

def paths : Command → List String
  | .evaluate request _ _ _ settings => settingsPaths settings ++ [request]
  | .functions _ => []
  | .serve _ settings => settingsPaths settings
  | .init path => [path]
  | .validate settings => settingsPaths settings

def look (path : String) : IO (Option Entry) := do
  try
    let bytes ← IO.FS.readBinFile path
    return some (.file bytes.toList)
  catch fault =>
    match fault with
    | .noFileOrDirectory .. => return none
    | _ => return some .folder

def parent (names : List String) : String :=
  match names.dropLast with
  | "/" :: rest => "/" ++ "/".intercalate rest
  | rest => "/".intercalate rest

/-- The entries of a path: of itself, and of the folder that it is in. -/
def entriesOf (path : String) : IO (List (List String × Entry)) := do
  let names := Path.names path
  let own ← look path
  let around ← if names.length < 2 then pure none else look (parent names)
  return (own.toList.map fun entry => (names, entry)) ++ (around.toList.map fun entry => (names.dropLast, entry))

/-- All bytes of a stream. -/
partial def readAll (stream : IO.FS.Stream) (done : ByteArray) : IO ByteArray := do
  let more ← stream.read 65536
  if more.isEmpty then return done else readAll stream (done ++ more)

def surroundings (command : Command) : IO Surroundings := do
  let entries ← (paths command).mapM entriesOf
  let input ← match command with
    | .evaluate "-" _ _ _ _ => readAll (← IO.getStdin) .empty
    | _ => pure .empty
  return ⟨⟨entries.flatten⟩, input.toList⟩

def persist (command : Command) (run : Run) : IO Unit := do
  match command with
  | .init path =>
    match run.folder.read path with
    | .bytes bytes => if run.failure.isNone then IO.FS.writeBinFile path ⟨bytes.toArray⟩
    | _ => pure ()
  | _ => pure ()

def usage : String := "Usage: rule-evaluator <evaluate|functions|serve|init|validate> [OPTIONS]"

end Rulebook.Main

open Rulebook in
def main (args : List String) : IO UInt32 := do
  match Command.ofArguments? args with
  | none =>
    IO.eprintln Main.usage
    return 2
  | some command =>
    let run := command.run (← Main.surroundings command)
    Main.persist command run
    IO.print run.output
    IO.eprint run.complaints
    match run.code, run.failure with
    | some code, _ => return UInt32.ofNat code
    | none, some failure =>
      IO.eprintln s!"Error: {failure}"
      return 1
    | none, none => return 0
