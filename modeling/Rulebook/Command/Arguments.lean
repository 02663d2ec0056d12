/-
  Rulebook.Command.Arguments — commands from the words of a command line.

  The first word names the command. An option that takes a value has it in the next
  word, unless that looks like an option itself, or in its own word: behind an equals
  sign, or for the short form of one letter also right behind the letter. What follows
  two dashes is no option. An option is given at most once, and a command refuses
  options and words that it has no use for.
-/

import Rulebook.Command.Basic

namespace Rulebook.Command

/-- An option: its name, the letter of its short form, and whether it takes a value. -/
structure Flag where
  name : String
  letter : Option Char
  valued : Bool

/-- What a word of a command line gives: an option with its value, or a word that is none. -/
inductive Given where
  | flag (name : String) (value : String)
  | word (text : String)
  deriving DecidableEq, Repr

/-- What a word says by itself: something complete, an option whose value is the next word, that
    no option follows, or nothing that is known. -/
inductive Start where
  | complete (given : Given)
  | pending (name : String)
  | wordsOnly
  | unknown

def splitEquals (text : List Char) : List Char × Option (List Char) :=
  match text.dropWhile (· != '=') with
  | [] => (text, none)
  | _ :: value => (text.takeWhile (· != '='), some value)

def startLong (flags : List Flag) (text : List Char) : Start :=
  let (name, value) := splitEquals text
  match flags.find? (·.name == String.ofList name) with
  | none => .unknown
  | some flag =>
    match flag.valued, value with
    | true, some value => .complete (.flag flag.name (String.ofList value))
    | true, none => .pending flag.name
    | false, none => .complete (.flag flag.name "")
    | false, some _ => .unknown

def startShort (flags : List Flag) (letter : Char) (rest : List Char) : Start :=
  match flags.find? (·.letter == some letter) with
  | none => .unknown
  | some flag =>
    match flag.valued, rest with
    | true, [] => .pending flag.name
    | true, '=' :: value => .complete (.flag flag.name (String.ofList value))
    | true, value => .complete (.flag flag.name (String.ofList value))
    | false, [] => .complete (.flag flag.name "")
    | false, _ => .unknown

def startOf (flags : List Flag) (word : String) : Start :=
  match word.toList with
  | ['-', '-'] => .wordsOnly
  | '-' :: '-' :: text => startLong flags text
  | '-' :: letter :: text => startShort flags letter text
  | _ => .complete (.word word)

def isValue (word : String) : Bool := word == "-" || word.toList.head? != some '-'

/-- What the words behind the name of a command give, the first of them to an option that is pending. -/
def givensFrom? (flags : List Flag) (pending : Option String) : List String → Option (List Given)
  | [] => if pending.isSome then none else some []
  | word :: rest =>
    match pending with
    | some name => if isValue word then (givensFrom? flags none rest).map (.flag name word :: ·) else none
    | none =>
      match startOf flags word with
      | .complete given => (givensFrom? flags none rest).map (given :: ·)
      | .pending name => givensFrom? flags (some name) rest
      | .wordsOnly => some (rest.map .word)
      | .unknown => none

def wordsOf (givens : List Given) : List String :=
  givens.filterMap fun given => match given with | .word text => some text | .flag _ _ => none

def valueOf? (givens : List Given) (name : String) : Option String :=
  givens.findSome? fun given =>
    match given with
    | .flag other value => if other = name then some value else none
    | .word _ => none

/-- Whether each option is given at most once. -/
def areSingle (givens : List Given) : Bool :=
  let names := givens.filterMap fun given => match given with | .flag name _ => some name | .word _ => none
  names.eraseDups == names

/-- What is given to a command that takes up to so many words. -/
def given? (flags : List Flag) (most : Nat) (words : List String) : Option (List Given) := do
  let givens ← givensFrom? flags none words
  if areSingle givens ∧ (wordsOf givens).length ≤ most then some givens else none

def setting? {α : Type} (givens : List Given) (name : String) (read : String → Option α) : Option (Option α) :=
  match valueOf? givens name with
  | none => some none
  | some value => (read value).map some

def Flag.config : Flag := ⟨"config", some 'c', true⟩

/-- The option that says how much is logged, which no answer depends on. -/
def Flag.logLevel : Flag := ⟨"log-level", none, true⟩

def logLevels : List String := ["none", "error", "warn", "info", "debug", "trace"]

/-- Whether a level of logging is given at all, it is one. -/
def hasLogLevel (givens : List Given) : Bool :=
  match valueOf? givens "log-level" with
  | none => true
  | some level => logLevels.contains level

/-- The command of the words of a command line, without the name of the program. -/
def ofArguments? : List String → Option Command
  | "evaluate" :: words => do
    let givens ← given?
      [⟨"request", some 'r', true⟩, ⟨"explain", none, false⟩, ⟨"dialect", none, true⟩, ⟨"schema", none, true⟩,
        .config, .logLevel] 0 words
    let request ← valueOf? givens "request"
    let dialect ← setting? givens "dialect" Dialect.ofName?
    let layout ← setting? givens "schema" Layout.ofName?
    if hasLogLevel givens then
      some (.evaluate request (valueOf? givens "explain").isSome dialect layout (valueOf? givens "config"))
    else none
  | "functions" :: words => do
    let givens ← given? [⟨"json", none, false⟩] 0 words
    return .functions (valueOf? givens "json").isSome
  | "serve" :: words => do
    let givens ← given? [⟨"listen", none, true⟩, .config, .logLevel] 0 words
    let listen ← setting? givens "listen" fun text => Address.ofText? text.toList
    if hasLogLevel givens then some (.serve listen (valueOf? givens "config")) else none
  | "init" :: words => do
    let givens ← given? [] 1 words
    return .init ((wordsOf givens).head?.getD "rules.toml")
  | "validate" :: words => do
    let givens ← given? [.config] 0 words
    return .validate (valueOf? givens "config")
  | _ => none

end Rulebook.Command
