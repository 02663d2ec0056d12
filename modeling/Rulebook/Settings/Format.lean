/-
  Rulebook.Settings.Format — settings as text.

  A file of settings is TOML, YAML or JSON, as its extension says. All three name the
  same settings: the dialect, the layout of requests, and the server with its address
  and its body limit. What is written names every setting.
-/

import Rulebook.Settings.Basic
import Rulebook.Settings.Toml.Document
import Rulebook.Settings.Yaml.Document

namespace Rulebook.Settings

inductive Format where
  | toml
  | yaml
  | json
  deriving DecidableEq, Repr

namespace Format

def name : Format → String
  | .toml => "TOML"
  | .yaml => "YAML"
  | .json => "JSON"

def ofExtension? (extension : String) : Option Format :=
  if extension = "toml" then some .toml
  else if extension = "yml" ∨ extension = "yaml" then some .yaml
  else if extension = "json" then some .json
  else none

def convention : Format → Convention
  | .toml => .toml
  | .yaml => .yaml
  | .json => .json

def data? : Format → List Char → Option Node
  | .toml => Toml.read?
  | .yaml => Yaml.read?
  | .json => Node.ofJson?

def read (format : Format) (text : List Char) : Except Cause Settings :=
  match format.data? text with
  | none => .error .broken
  | some node => ofNode format.convention node

/-! ## Writing -/

def tomlText (settings : Settings) : List Char :=
  "dialect = \"".toList ++ settings.dialect.name.toList ++
  "\"\ncontext_schema = \"".toList ++ settings.layout.name.toList ++
  "\"\n\n[server]\nlisten = \"".toList ++ settings.server.listen.text ++
  "\"\nmax_body_bytes = ".toList ++ Text.numeral settings.server.maxBody.toNat ++ ['\n']

/-- An address as a YAML scalar: in quotes if it starts with a bracket. -/
def yamlAddress (address : Address) : List Char :=
  match address with
  | .v4 .. => address.text
  | .v6 .. => '\'' :: address.text ++ ['\'']

def yamlText (settings : Settings) : List Char :=
  "dialect: ".toList ++ settings.dialect.name.toList ++
  "\ncontext_schema: ".toList ++ settings.layout.name.toList ++
  "\nserver:\n  listen: ".toList ++ yamlAddress settings.server.listen ++
  "\n  max_body_bytes: ".toList ++ Text.numeral settings.server.maxBody.toNat ++ ['\n']

def toJson (settings : Settings) : Json :=
  .object [
    ("dialect", .string settings.dialect.name), ("context_schema", .string settings.layout.name),
    ("server", .object [
      ("listen", .string (String.ofList settings.server.listen.text)),
      ("max_body_bytes", .number (.uint settings.server.maxBody))])]

def write (format : Format) (settings : Settings) : List Char :=
  match format with
  | .toml => tomlText settings
  | .yaml => yamlText settings
  | .json => (toJson settings).indented 0

/-- The standard settings as TOML text that explains them. -/
def sample : List Char :=
  ("# Configuration for rule-evaluator\n" ++
   "\n" ++
   "# Surface syntax of the rules: \"feel\" or \"cel\"\n" ++
   "dialect = \"feel\"\n" ++
   "\n" ++
   "# Request layout accepted by `evaluate` and the HTTP endpoint: \"event\" or \"process-state\"\n" ++
   "context_schema = \"event\"\n" ++
   "\n" ++
   "[server]\n" ++
   "# Address the HTTP endpoint listens on\n" ++
   "listen = \"127.0.0.1:8080\"\n" ++
   "\n" ++
   "# Largest accepted request body, in bytes\n" ++
   "max_body_bytes = 1048576\n").toList

end Format

end Rulebook.Settings
