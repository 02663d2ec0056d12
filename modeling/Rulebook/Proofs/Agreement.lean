/-
  Rulebook.Proofs.Agreement — the service and the command say the same of a request.

  The service reads a body and evaluates its rules; the command loads settings, finds the
  bytes of its request, reads them, classifies the rules and reports. Given the same bytes,
  layout and dialect, both meet the same fault, or the same outcomes:
  - `Service.evaluate_cases`: a body is refused, passes, or fails with the report of its outcomes.
  - `Command.runEvaluate_refused`, `Command.runEvaluate_read`: what the command leaves of the
    same body, over any settings that load.
  - `SameVerdict`: status and code decide each other, the two JSON texts hold the same errors,
    and the reason for a refusal is the one that the command complains of.
  - `verdicts_agree`: the service and the command give the same verdict on every body.
  A complaint as such does not give the reason away: a reason may quote the words that
  announce it (`refusal_quoted`).
-/

import Rulebook.Command.Basic
import Rulebook.Proofs.Batch
import Rulebook.Proofs.Report
import Rulebook.Service

namespace Rulebook

/-! ## The service -/

def Call.post (body : List UInt8) : Call := ⟨"POST", "/rules/evaluate", body⟩

namespace Service

theorem answer_post (service : Service) (body : List UInt8) :
    service.answer (.post body) = service.evaluate body := by
  have hpath : path "/rules/evaluate" = "/rules/evaluate" := by decide
  simp only [answer, Call.post, hpath, if_true]

/-- A body within the limit is refused, passes, or fails with the report of its outcomes. -/
theorem evaluate_cases (service : Service) {body : List UInt8} (h : body.length ≤ service.maxBody) :
    (∃ fault, service.layout.read body = .error fault ∧ service.evaluate body = .rejected fault) ∨
      ∃ request, service.layout.read body = .ok request ∧
        (((service.evaluator.examination request).report.isEmpty = true ∧ service.evaluate body = .passed) ∨
          ((service.evaluator.examination request).report.isEmpty = false ∧
            service.evaluate body = .failed (service.evaluator.examination request).report)) := by
  have hshort : ¬ service.maxBody < body.length := by omega
  unfold evaluate
  rw [if_neg hshort]
  cases hread : service.layout.read body with
  | error fault => exact Or.inl ⟨fault, rfl, rfl⟩
  | ok request =>
    refine Or.inr ⟨request, rfl, ?_⟩
    have hempty := service.evaluator.examine_report request
    rcases service.evaluator.evaluate_eq_none_or request.rules request.context request.time with hv | hv
    · exact Or.inl ⟨hempty.mpr hv, by simp only [hv]⟩
    · have hfull : (service.evaluator.examination request).report.isEmpty = false := by
        rw [← Bool.not_eq_true, hempty, hv]
        simp
      exact Or.inr ⟨hfull, by simp only [hv]; rfl⟩

end Service

/-! ## The command -/

namespace Command

variable {around : Surroundings} {path : String} {dialect : Option Dialect} {layout : Option Layout}
  {file : Option String} {settings : Settings} {warnings : List String} {body : List UInt8}

def refusal (warnings : List String) (reason : String) : String :=
  warned warnings ++ "❌ invalid evaluation request: " ++ reason ++ "\n"

theorem refusal_inj {warnings : List String} {a b : String} (h : refusal warnings a = refusal warnings b) : a = b := by
  unfold refusal at h
  have htext := congrArg String.toList h
  simp only [String.toList_append, List.append_cancel_right_eq, List.append_cancel_left_eq] at htext
  exact String.toList_inj.mp htext

theorem runEvaluate_refused (hload : Settings.load around.folder here file = .ok (settings, warnings))
    (hbody : requestBody? around path = some body) {fault : Request.Fault}
    (hread : (layout.getD settings.layout).read body = .error fault) :
    run around (.evaluate path false dialect layout file) =
      ⟨"", refusal warnings fault.message, some 2, some s!"evaluating {path}", around.folder⟩ := by
  have hcomplaints : warned warnings ++ lines [s!"❌ invalid evaluation request: {fault.message}"] =
      refusal warnings fault.message := by
    simp [lines, refusal, String.append_assoc, toString]
  show runEvaluate around path false dialect layout file = _
  unfold runEvaluate
  rw [hload]
  simp only [hbody, Evaluator.examine, hread, Except.map, misread]
  rw [hcomplaints]

theorem runEvaluate_read (hload : Settings.load around.folder here file = .ok (settings, warnings))
    (hbody : requestBody? around path = some body) {request : Request}
    (hread : (layout.getD settings.layout).read body = .ok request) (explain : Bool) :
    let examination := (Evaluator.standard (dialect.getD settings.dialect)).examination request
    run around (.evaluate path explain dialect layout file) =
      examined around.folder (warned warnings) (if explain then explanations examination else "") examination := by
  show runEvaluate around path explain dialect layout file = _
  unfold runEvaluate
  rw [hload]
  simp only [hbody, Evaluator.examine, hread, Except.map]

end Command

/-! ## Both -/

/-- A reply and a run that say the same of a request: that its rules pass, which of them fail and
    why, or why it is no request. -/
structure SameVerdict (warnings : List String) (reply : Reply) (run : Run) : Prop where
  passes : (reply.status = 200 ∧ reply.content = "OK") ↔ (run.failure = none ∧ run.code = none ∧ run.output = "OK\n")
  fails : reply.status = 400 ↔ run.code = some 1
  errors : reply.status = 400 →
    ∃ errors, errorsOfText reply.content = .ok errors ∧ errorsOfText run.output = .ok errors
  refuses : ∀ reason, (reply.status = 422 ∧ reply.content = reason) ↔
    (run.code = some 2 ∧ run.output = "" ∧ run.complaints = Command.refusal warnings reason)

theorem sameVerdict_rejected (warnings : List String) (fault : Request.Fault) (failure : Option String)
    (folder : Folder) :
    SameVerdict warnings (.rejected fault) ⟨"", Command.refusal warnings fault.message, some 2, failure, folder⟩ where
  passes := by simp [Reply.status]
  fails := by simp [Reply.status]
  errors := by simp [Reply.status]
  refuses := by
    intro reason
    constructor
    · rintro ⟨-, rfl⟩
      exact ⟨rfl, rfl, rfl⟩
    · rintro ⟨-, -, h⟩
      exact ⟨rfl, Command.refusal_inj h⟩

theorem sameVerdict_passed (warnings : List String) (folder : Folder) {examination : Examination}
    (h : examination.report.isEmpty = true) :
    SameVerdict warnings .passed (Command.examined folder (Command.warned warnings) "" examination) := by
  have hrun : Command.examined folder (Command.warned warnings) "" examination =
      Command.done folder "OK\n" (Command.warned warnings) := by
    simp only [Command.examined, Command.verdict, h, if_true]
    rfl
  rw [hrun]
  constructor <;> simp [Reply.status, Reply.content, Command.done]

theorem sameVerdict_failed (warnings : List String) (folder : Folder) {examination : Examination}
    (h : examination.report.isEmpty = false) :
    SameVerdict warnings (.failed examination.report)
      (Command.examined folder (Command.warned warnings) "" examination) := by
  have hrun : ∃ failure, Command.examined folder (Command.warned warnings) "" examination =
      ⟨examination.report.toJson.toIndented ++ "\n", Command.warned warnings, some 1, some failure, folder⟩ := by
    simp [Command.examined, Command.verdict, Command.lines, h]
  obtain ⟨failure, hrun⟩ := hrun
  rw [hrun]
  exact {
    passes := by simp [Reply.status]
    fails := by simp [Reply.status]
    errors := fun _ => ⟨_, examination.report.errorsOfText_toText, examination.report.errorsOfText_toIndented⟩
    refuses := by simp [Reply.status] }

/-- The service and the command agree on every body that is not too long, which is a matter of its
    length alone, over all settings that load. -/
theorem verdicts_agree (dialect : Dialect) (layout : Layout) (limit : Nat) (body : List UInt8) :
    let reply := (Service.mk (.standard dialect) layout limit).answer (.post body)
    (reply.status = 413 ↔ limit < body.length) ∧
      ∀ (around : Surroundings) (path : String) (givenDialect : Option Dialect) (givenLayout : Option Layout)
        (file : Option String) (settings : Settings) (warnings : List String),
        body.length ≤ limit →
        Settings.load around.folder Command.here file = .ok (settings, warnings) →
        Command.requestBody? around path = some body →
        givenDialect.getD settings.dialect = dialect →
        givenLayout.getD settings.layout = layout →
        SameVerdict warnings reply (Command.run around (.evaluate path false givenDialect givenLayout file)) := by
  intro reply
  have hreply : reply = (Service.mk (.standard dialect) layout limit).evaluate body := Service.answer_post _ body
  rw [hreply]
  refine ⟨Service.status_eq_413_iff _ body, ?_⟩
  intro around path givenDialect givenLayout file settings warnings hlimit hload hbody hdialect hlayout
  subst hdialect hlayout
  rcases Service.evaluate_cases (Service.mk (.standard (givenDialect.getD settings.dialect))
      (givenLayout.getD settings.layout) limit) hlimit with ⟨fault, hread, he⟩ | ⟨request, hread, ⟨hv, he⟩ | ⟨hv, he⟩⟩
  · rw [he, Command.runEvaluate_refused hload hbody hread]
    exact sameVerdict_rejected warnings fault _ around.folder
  · rw [he, Command.runEvaluate_read hload hbody hread]
    exact sameVerdict_passed warnings around.folder hv
  · rw [he, Command.runEvaluate_read hload hbody hread]
    exact sameVerdict_failed warnings around.folder hv

/-- The bytes of a request whose time quotes the words that announce why a request is refused. -/
def quoting : List UInt8 :=
  Text.Utf8.encode "\x7b\"rules\":[],\"currentTime\":\"invalid evaluation request: noon\"\x7d".toList

theorem read_quoting :
    Layout.event.read quoting = .error (.badTime "invalid evaluation request: noon" .invalid) := by
  cbv

/-- The verdicts on that request, read from the input without any settings. -/
theorem verdicts_agree_quoting :
    SameVerdict [] ((Service.mk (.standard .feel) .event 1048576).answer (.post quoting))
      (Command.run ⟨.empty, quoting⟩ (.evaluate "-" false none none none)) :=
  (verdicts_agree .feel .event 1048576 quoting).2 ⟨.empty, quoting⟩ "-" none none none .standard []
    (by decide) rfl rfl rfl rfl

/-- What stands behind these words at the end of a complaint need not be the reason. -/
theorem refusal_quoted :
    let reply := (Service.mk (.standard .feel) .event 1048576).answer (.post quoting)
    let run := Command.run ⟨.empty, quoting⟩ (.evaluate "-" false none none none)
    let reason := "noon'): input contains invalid characters"
    quoting.length ≤ 1048576 ∧ Settings.load Folder.empty Command.here none = .ok (.standard, []) ∧
      run.code = some 2 ∧ run.output = "" ∧
      (∃ before, run.complaints = before ++ "invalid evaluation request: " ++ reason ++ "\n") ∧
      ¬ (reply.status = 422 ∧ reply.content = reason) := by
  intro reply run reason
  have hload : Settings.load Folder.empty Command.here none = .ok (.standard, []) := rfl
  have hbody : Command.requestBody? ⟨.empty, quoting⟩ "-" = some quoting := rfl
  have hread : ((none : Option Layout).getD Settings.standard.layout).read quoting =
      .error (.badTime "invalid evaluation request: noon" .invalid) := read_quoting
  have hrun : run = ⟨"",
      Command.refusal [] (Request.Fault.badTime "invalid evaluation request: noon" .invalid).message,
      some 2, some "evaluating -", .empty⟩ := Command.runEvaluate_refused hload hbody hread
  have hreply : reply = .rejected (.badTime "invalid evaluation request: noon" .invalid) := by
    have hshort : ¬ 1048576 < quoting.length := by decide
    show (Service.mk (.standard .feel) .event 1048576).answer (.post quoting) = _
    rw [Service.answer_post, Service.evaluate, if_neg hshort]
    simp only [read_quoting]
  rw [hrun, hreply]
  refine ⟨by decide, hload, rfl, rfl, ?_, ?_⟩
  · exact ⟨"❌ invalid evaluation request: `currentTime` is not an RFC 3339 timestamp ('", by decide⟩
  · decide

end Rulebook
