/-
  Rulebook.Batch — evaluating batches of rules.

  All rules of a batch are evaluated in one session, whatever became of the ones before,
  and each outcome depends on the answer to its own rule alone. The batch passes when
  every rule does; otherwise its verdict is the report of those that did not.
  - `classify_length`: there is one outcome for each rule.
  - `evaluate_eq_none_iff`: a batch passes exactly when every rule evaluates to true.
-/

import Rulebook.Engine
import Rulebook.Extension.Verification
import Rulebook.Verdict

namespace Rulebook

open Rulebook.Time (Timestamp)

def Outcome.ofSession (session : Session) (rule : String) : Outcome :=
  .ofAnswer ((session rule).mapError Failure.message)

/-- An engine with the extensions that its rules may call. -/
structure Evaluator where
  engine : Engine
  registry : Registry

namespace Evaluator

/-- The evaluator of a dialect with the built-in extensions. -/
def arranging (arrangement : Arrangement) (dialect : Dialect) : Evaluator := ⟨.arranging arrangement dialect, .builtin⟩

/-- The one that has maps in the order in which their entries were set. -/
def standard (dialect : Dialect) : Evaluator := .arranging .asSet dialect

/-- The outcomes of a batch, one for each rule, in order. -/
def classify (evaluator : Evaluator) (rules : List String) (context : Context) (clock : Timestamp) : List Outcome :=
  let session := evaluator.engine.session evaluator.registry context clock
  rules.map (Outcome.ofSession session)

/-- The report of a batch that did not pass. -/
def evaluate (evaluator : Evaluator) (rules : List String) (context : Context) (clock : Timestamp) : Option Report :=
  let report := Report.ofOutcomes (evaluator.classify rules context clock)
  if report.isEmpty then none else some report

theorem classify_length (evaluator : Evaluator) (rules : List String) (context : Context) (clock : Timestamp) :
    (evaluator.classify rules context clock).length = rules.length := by
  simp [classify]

theorem classify_append (evaluator : Evaluator) (xs ys : List String) (context : Context) (clock : Timestamp) :
    evaluator.classify (xs ++ ys) context clock =
      evaluator.classify xs context clock ++ evaluator.classify ys context clock := by
  simp [classify]

theorem evaluate_eq_none_iff (evaluator : Evaluator) (rules : List String) (context : Context) (clock : Timestamp) :
    evaluator.evaluate rules context clock = none ↔
      ∀ outcome ∈ evaluator.classify rules context clock, outcome = .passed := by
  rw [← Report.isEmpty_ofOutcomes, evaluate]
  split <;> simp_all

end Evaluator

end Rulebook
