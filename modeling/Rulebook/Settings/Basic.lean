/-
  Rulebook.Settings.Basic — the settings of the evaluator and of its service.

  Settings that are not written have their defaults. The body limit must not be zero;
  settings that are allowed but unusual draw a warning each.
  - `check_eq_ok_iff`: settings are refused for a limit of zero and for nothing else.
-/

import Rulebook.Dialect
import Rulebook.Request
import Rulebook.Settings.Address
import Rulebook.Settings.Node

namespace Rulebook

/-- Where the service listens, and the most bytes that it takes as a body. -/
structure Server where
  listen : Address
  maxBody : UInt64
  deriving DecidableEq

structure Settings where
  dialect : Dialect
  layout : Layout
  server : Server
  deriving DecidableEq

def Server.standard : Server := ⟨.v4 127 0 0 1 8080, 1048576⟩

namespace Settings

def standard : Settings := ⟨.feel, .event, .standard⟩

/-! ## Reading -/

def listenField : Field Server :=
  .reading "listen" (fun node => node.text?.bind fun text => Address.ofText? text.toList)
    fun listen server => { server with listen }

def maxBodyField : Field Server := .reading "max_body_bytes" Node.size? fun maxBody server => { server with maxBody }

def dialectField (convention : Convention) : Field Settings :=
  .reading "dialect" (fun node => (node.choice? convention).bind Dialect.ofName?)
    fun dialect settings => { settings with dialect }

def layoutField (convention : Convention) : Field Settings :=
  .reading "context_schema" (fun node => (node.choice? convention).bind Layout.ofName?)
    fun layout settings => { settings with layout }

/-- The server is a record of its own, over the standard one. -/
def serverField (convention : Convention) : Field Settings where
  name := "server"
  set node settings := do
    let server ← node.record convention [listenField, maxBodyField] .standard
    return { settings with server }

def ofNode (convention : Convention) (node : Node) : Except Cause Settings :=
  node.record convention [dialectField convention, layoutField convention, serverField convention] standard

/-! ## Checks -/

def usualBody : Nat := 64 * 1024 * 1024

def noBodyMessage : String := "server.max_body_bytes must be greater than 0"

def warnings (settings : Settings) : List String :=
  let server := settings.server
  (if usualBody < server.maxBody.toNat then
    [s!"server.max_body_bytes is {server.maxBody.toNat} bytes; requests this large are unusual for rule evaluation"]
  else []) ++
  (if server.listen.isAny then
    [s!"server.listen ({String.ofList server.listen.text}) accepts connections on every network interface"]
  else [])

/-- The warnings that settings draw, unless they are refused. -/
def check (settings : Settings) : Except String (List String) :=
  if settings.server.maxBody = 0 then .error noBodyMessage else .ok settings.warnings

theorem check_eq_ok_iff (settings : Settings) (warnings : List String) :
    settings.check = .ok warnings ↔ settings.server.maxBody ≠ 0 ∧ settings.warnings = warnings := by
  unfold check
  split <;> simp_all

end Settings

end Rulebook
