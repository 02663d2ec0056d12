/-
  Rulebook.Service — rules evaluated over HTTP.

  `POST /rules/evaluate` answers to the body of a request: 200 if every rule passed, 400
  with the report of those that did not, 422 with the reason why the body is no request,
  and 413 if it is longer than the limit. `GET /rules/functions` lists the extensions,
  and `HEAD` asks for the same without the body. Another method on one of the two paths
  is 405, another path 404; the query of a path does not count.
  - `status_eq_413_iff`: only the length of a body decides whether it is too long.
-/

import Rulebook.Batch
import Rulebook.Request

namespace Rulebook

/-- A service: what evaluates, the layout of its requests, and the most bytes of a body. -/
structure Service where
  evaluator : Evaluator
  layout : Layout
  maxBody : Nat

structure Call where
  method : String
  target : String
  body : List UInt8

inductive Reply where
  | passed
  | failed (report : Report)
  | rejected (fault : Request.Fault)
  | tooLong
  | listing (registry : Registry) (silent : Bool)
  | wrongMethod
  | unknownPath

namespace Reply

def status : Reply → Nat
  | .passed => 200
  | .failed _ => 400
  | .rejected _ => 422
  | .tooLong => 413
  | .listing _ _ => 200
  | .wrongMethod => 405
  | .unknownPath => 404

def contentType? : Reply → Option String
  | .failed _ => some "application/json"
  | .listing _ _ => some "application/json"
  | .wrongMethod => none
  | .unknownPath => none
  | _ => some "text/plain; charset=utf-8"

def content : Reply → String
  | .passed => "OK"
  | .failed report => report.toJson.toText
  | .rejected fault => fault.message
  | .tooLong => "Failed to buffer the request body: length limit exceeded"
  | .listing registry silent => if silent then "" else registry.toJson.toText
  | .wrongMethod => ""
  | .unknownPath => ""

end Reply

namespace Service

/-- The path of a target, without its query. -/
def path (target : String) : String := String.ofList (target.toList.takeWhile fun c => c != '?' && c != '#')

def evaluate (service : Service) (body : List UInt8) : Reply :=
  if service.maxBody < body.length then .tooLong
  else
    match service.layout.read body with
    | .error fault => .rejected fault
    | .ok request =>
      match service.evaluator.evaluate request.rules request.context request.time with
      | none => .passed
      | some report => .failed report

def answer (service : Service) (call : Call) : Reply :=
  if path call.target = "/rules/evaluate" then
    if call.method = "POST" then service.evaluate call.body else .wrongMethod
  else if path call.target = "/rules/functions" then
    if call.method = "GET" ∨ call.method = "HEAD" then .listing service.evaluator.registry (call.method = "HEAD")
    else .wrongMethod
  else .unknownPath

theorem status_eq_413_iff (service : Service) (body : List UInt8) :
    (service.evaluate body).status = 413 ↔ service.maxBody < body.length := by
  unfold evaluate
  split
  · simp [*, Reply.status]
  · rename_i h
    constructor
    · split
      · simp [Reply.status]
      · split <;> simp [Reply.status]
    · intro hlong
      exact absurd hlong h

end Service

end Rulebook
