/-
  Rulebook.Examination — what becomes of the body of a request.

  Whoever takes a request reads it in a layout and has its rules evaluated. The outcome
  of every rule is kept beside the rules, and the report counts those that failed.
  - `examine_report`: the report is empty exactly when the batch passes.
-/

import Rulebook.Batch
import Rulebook.Request

namespace Rulebook

structure Examination where
  rules : List String
  outcomes : List Outcome

namespace Examination

def report (examination : Examination) : Report := .ofOutcomes examination.outcomes

end Examination

def Evaluator.examination (evaluator : Evaluator) (request : Request) : Examination :=
  ⟨request.rules, evaluator.classify request.rules request.context request.time⟩

def Evaluator.examine (evaluator : Evaluator) (layout : Layout) (body : List UInt8) :
    Except Request.Fault Examination :=
  (layout.read body).map evaluator.examination

/-- The report is empty exactly when the batch of the request passes. -/
theorem Evaluator.examine_report (evaluator : Evaluator) (request : Request) :
    (evaluator.examination request).report.isEmpty = true ↔
      evaluator.evaluate request.rules request.context request.time = none := by
  rw [Evaluator.evaluate_eq_none_iff]
  exact Report.isEmpty_ofOutcomes _

end Rulebook
