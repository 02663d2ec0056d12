/-
  Rulebook.Proofs.Batch — a batch gives an account of every one of its rules.

  An outcome stands at the place of its rule and comes from the answer to that rule. An
  error stands for the outcome at its place. From the second the report is settled: its
  places only grow, so no rule is reported twice, and it holds an error exactly where an
  outcome has a message, which is where the answer is anything but true.
  - `mem_errorsFrom_iff`: what an error of a report says of the outcome at its place.
  - `pairwise_errorsFrom`: the places of a report grow.
  - `errorsFrom_add`: outcomes that start later have the same errors, later.
  - `batch_account`: all of it for a batch, whatever the engine, the rules and the data.
-/

import Mathlib
import Rulebook.Batch

namespace Rulebook

open Rulebook.Time (Timestamp)

/-! ## Outcomes -/

namespace Outcome

theorem message?_eq_none_iff (outcome : Outcome) : outcome.message? = none ↔ outcome = .passed := by
  cases outcome <;> simp [message?]

theorem ofSession_eq_passed_iff (session : Session) (rule : String) :
    ofSession session rule = .passed ↔ session rule = .ok (.boolean true) := by
  unfold ofSession
  cases h : session rule with
  | error failure => simp [Except.mapError, ofAnswer]
  | ok value =>
    simp only [Except.mapError]
    constructor
    · intro hp
      unfold ofAnswer at hp
      split at hp
      · rename_i hv
        obtain rfl := Except.ok.inj hv
        rfl
      · cases hp
      · cases hp
      · cases hp
    · intro hv
      obtain rfl := Except.ok.inj hv
      rfl

end Outcome

/-! ## Errors -/

def RuleError.later (n : Nat) (error : RuleError) : RuleError := ⟨error.index + n, error.message⟩

namespace Report

/-- An error stands for the outcome at its place, counted from the first place. -/
theorem mem_errorsFrom_iff (index : Nat) (outcomes : List Outcome) (error : RuleError) :
    error ∈ errorsFrom index outcomes ↔
      ∃ i outcome, error.index = index + i ∧ outcomes[i]? = some outcome ∧
        outcome.message? = some error.message := by
  induction outcomes generalizing index with
  | nil => simp [errorsFrom]
  | cons first rest ih =>
    -- an error is the first one, or stands for an outcome of the rest, one place on
    have hhead : error ∈ errorsFrom index (first :: rest) ↔
        (error.index = index ∧ first.message? = some error.message) ∨ error ∈ errorsFrom (index + 1) rest := by
      cases hm : first.message? with
      | none => simp [errorsFrom, hm]
      | some message =>
        obtain ⟨place, text⟩ := error
        simp [errorsFrom, hm, eq_comm]
    rw [hhead, ih]
    constructor
    · rintro (⟨hi, hm⟩ | ⟨i, outcome, hi, ho, hm⟩)
      · exact ⟨0, first, by omega, rfl, hm⟩
      · exact ⟨i + 1, outcome, by omega, by simpa using ho, hm⟩
    · rintro ⟨i, outcome, hi, ho, hm⟩
      cases i with
      | zero =>
        obtain rfl : first = outcome := by simpa using ho
        exact Or.inl ⟨by omega, hm⟩
      | succ i => exact Or.inr ⟨i, outcome, by omega, by simpa using ho, hm⟩

theorem mem_ofOutcomes_iff (outcomes : List Outcome) (error : RuleError) :
    error ∈ (ofOutcomes outcomes).errors ↔
      ∃ outcome, outcomes[error.index]? = some outcome ∧ outcome.message? = some error.message := by
  refine (mem_errorsFrom_iff 0 outcomes error).trans ⟨?_, ?_⟩
  · rintro ⟨i, outcome, hi, ho, hm⟩
    obtain rfl : error.index = i := by omega
    exact ⟨outcome, ho, hm⟩
  · rintro ⟨outcome, ho, hm⟩
    exact ⟨error.index, outcome, by omega, ho, hm⟩

theorem pairwise_errorsFrom (index : Nat) (outcomes : List Outcome) :
    (errorsFrom index outcomes).Pairwise (·.index < ·.index) := by
  induction outcomes generalizing index with
  | nil => exact List.Pairwise.nil
  | cons first rest ih =>
    simp only [errorsFrom]
    split
    · exact ih (index + 1)
    · refine List.Pairwise.cons ?_ (ih (index + 1))
      intro error he
      obtain ⟨i, _, hi, _⟩ := (mem_errorsFrom_iff (index + 1) rest error).mp he
      show index < error.index
      omega

theorem errorsFrom_add (index n : Nat) (outcomes : List Outcome) :
    errorsFrom (index + n) outcomes = (errorsFrom index outcomes).map (RuleError.later n) := by
  induction outcomes generalizing index with
  | nil => rfl
  | cons first rest ih =>
    have hplace : index + n + 1 = index + 1 + n := by omega
    simp only [errorsFrom, hplace, ih]
    split
    · rfl
    · rfl

/-- An outcome has an error exactly when it is no pass. -/
theorem exists_error_iff {outcomes : List Outcome} {i : Nat} {outcome : Outcome} (h : outcomes[i]? = some outcome) :
    (∃ error ∈ (ofOutcomes outcomes).errors, error.index = i) ↔ outcome ≠ .passed := by
  rw [ne_eq, ← Outcome.message?_eq_none_iff]
  constructor
  · rintro ⟨error, he, rfl⟩ hn
    obtain ⟨other, ho, hm⟩ := (mem_ofOutcomes_iff outcomes error).mp he
    obtain rfl : outcome = other := Option.some.inj (h.symm.trans ho)
    rw [hn] at hm
    cases hm
  · intro hn
    obtain ⟨message, hm⟩ := Option.ne_none_iff_exists'.mp hn
    exact ⟨⟨i, message⟩, (mem_ofOutcomes_iff outcomes ⟨i, message⟩).mpr ⟨outcome, h, hm⟩, rfl⟩

end Report

/-! ## Batches -/

namespace Evaluator

theorem evaluate_eq_none_iff_true (evaluator : Evaluator) (rules : List String) (context : Context)
    (clock : Timestamp) :
    evaluator.evaluate rules context clock = none ↔
      ∀ rule ∈ rules, evaluator.engine.session evaluator.registry context clock rule = .ok (.boolean true) := by
  rw [evaluate_eq_none_iff]
  simp only [classify, List.mem_map, forall_exists_index, and_imp, forall_apply_eq_imp_iff₂,
    Outcome.ofSession_eq_passed_iff]

theorem evaluate_eq_none_or (evaluator : Evaluator) (rules : List String) (context : Context) (clock : Timestamp) :
    evaluator.evaluate rules context clock = none ∨
      evaluator.evaluate rules context clock = some (.ofOutcomes (evaluator.classify rules context clock)) := by
  unfold evaluate
  by_cases h : (Report.ofOutcomes (evaluator.classify rules context clock)).isEmpty = true
  · exact Or.inl (if_pos h)
  · exact Or.inr (if_neg h)

/-- The errors of rules that follow others are their own, later by the number of the others. -/
theorem errors_append (evaluator : Evaluator) (rules more : List String) (context : Context) (clock : Timestamp) :
    (Report.ofOutcomes (evaluator.classify (rules ++ more) context clock)).errors =
      (Report.ofOutcomes (evaluator.classify rules context clock)).errors ++
        (Report.ofOutcomes (evaluator.classify more context clock)).errors.map (RuleError.later rules.length) := by
  rw [classify_append]
  simp only [Report.ofOutcomes]
  rw [Report.errorsFrom_append, classify_length, Report.errorsFrom_add]

/-- What a batch says of its rules: an outcome for each, an error for each that did not pass, and a verdict. -/
theorem batch_account (evaluator : Evaluator) (rules more : List String) (context : Context) (clock : Timestamp) :
    let session := evaluator.engine.session evaluator.registry context clock
    let outcomes := evaluator.classify rules context clock
    let report := Report.ofOutcomes outcomes
    outcomes.length = rules.length ∧
      (∀ i : Nat, outcomes[i]? =
        rules[i]?.map fun rule => Outcome.ofAnswer ((session rule).mapError Failure.message)) ∧
      report.errors.Pairwise (·.index < ·.index) ∧
      (∀ error, error ∈ report.errors ↔
        ∃ outcome, outcomes[error.index]? = some outcome ∧ outcome.message? = some error.message) ∧
      (∀ i outcome, outcomes[i]? = some outcome →
        ((∃ error ∈ report.errors, error.index = i) ↔ outcome ≠ .passed)) ∧
      (evaluator.evaluate rules context clock = none ↔ ∀ rule ∈ rules, session rule = .ok (.boolean true)) ∧
      (evaluator.evaluate rules context clock = some report ↔ ∃ rule ∈ rules, session rule ≠ .ok (.boolean true)) ∧
      (Report.ofOutcomes (evaluator.classify (rules ++ more) context clock)).errors =
        report.errors ++ (Report.ofOutcomes (evaluator.classify more context clock)).errors.map fun error =>
          ⟨error.index + rules.length, error.message⟩ := by
  intro session outcomes report
  have hnone := evaluator.evaluate_eq_none_iff_true rules context clock
  have hsome : evaluator.evaluate rules context clock = some report ↔
      ∃ rule ∈ rules, session rule ≠ .ok (.boolean true) := by
    constructor
    · intro h
      have hall : ¬ ∀ rule ∈ rules, session rule = .ok (.boolean true) := by
        intro hall
        rw [hnone.mpr hall] at h
        cases h
      simpa using hall
    · rintro ⟨rule, hr, hne⟩
      rcases evaluator.evaluate_eq_none_or rules context clock with h | h
      · exact absurd (hnone.mp h rule hr) hne
      · exact h
  refine ⟨evaluator.classify_length rules context clock, fun i => List.getElem?_map ..,
    Report.pairwise_errorsFrom 0 outcomes, Report.mem_ofOutcomes_iff outcomes, ?_, hnone, hsome,
    evaluator.errors_append rules more context clock⟩
  intro i outcome h
  exact Report.exists_error_iff h

end Evaluator

end Rulebook
