/-
  Rulebook.Proofs.Explanation — explanations stand in front of the verdict and change nothing else.

  A run that is asked to explain ends as it does unasked: with the same code and failure and
  the same complaints. What it prints more are two lines for each rule, in order, before the
  verdict. A rule is said to have passed exactly if the verdict does not report its place.
  - `summary_eq_passed_iff`: no other outcome reads like a pass.
  - `explanations_eq`: the explanations, rule by rule.
  - `printedPlaces?_verdict`: the places that a printed verdict reports.
  - `explained_in_front`: the whole, for every request.
-/

import Rulebook.Proofs.Agreement

namespace Rulebook

theorem Outcome.summary_eq_passed_iff (outcome : Outcome) : outcome.summary = "passed" ↔ outcome = .passed := by
  constructor
  · intro h
    cases outcome with
    | passed => rfl
    | failedAssertion => exact absurd h (by decide)
    | wrongResult kind => cases kind <;> exact absurd h (by decide)
    | failed message =>
      have htext : ("error: " ++ message).toList = "passed".toList := congrArg String.toList h
      have herror : "error: ".toList = 'e' :: "rror: ".toList := by decide
      have hpassed : "passed".toList = 'p' :: "assed".toList := by decide
      rw [String.toList_append, herror, hpassed, List.cons_append, List.cons.injEq] at htext
      exact absurd htext.1 (by decide)
  · rintro rfl
    rfl

namespace Command

/-- What is said of a rule: its place and its text, and on a line of its own, indented, its outcome. -/
def explanation (place : Nat) (rule : String) (outcome : Outcome) : String :=
  s!"[{place}] {rule}\n" ++ s!"    {outcome.summary}\n"

def explanationFrom (place : Nat) (rules : List String) (outcomes : List Outcome) : String :=
  String.join (((rules.zip outcomes).zipIdx place).map fun entry => explanation entry.2 entry.1.1 entry.1.2)

theorem lines_explanationsFrom (place : Nat) (rules : List String) (outcomes : List Outcome) :
    lines (explanationsFrom place rules outcomes) = explanationFrom place rules outcomes := by
  induction rules generalizing place outcomes with
  | nil => rfl
  | cons rule rules ih =>
    cases outcomes with
    | nil => rfl
    | cons outcome outcomes =>
      have hrest := ih (place + 1) outcomes
      unfold lines explanationFrom at hrest ⊢
      simp only [explanationsFrom, List.map_cons, String.join_cons, List.zip_cons_cons, List.zipIdx_cons, hrest,
        explanation]
      simp [String.append_assoc, toString]

theorem explanations_eq (examination : Examination) :
    explanations examination = explanationFrom 0 examination.rules examination.outcomes :=
  lines_explanationsFrom 0 examination.rules examination.outcomes

/-! ## What a verdict reports -/

/-- The places that a printed verdict reports: none if it is `OK`, else those in its list of errors. -/
def printedPlaces? (output : String) : Option (List Nat) :=
  if output = "OK\n" then some [] else (errorsOfText output).toOption.map (·.map RuleError.index)

theorem errorsOfText_ok (errors : List RuleError) : errorsOfText "OK\n" ≠ .ok errors := by
  have hnone : (errorsOfText "OK\n").toOption = none := by cbv
  intro h
  rw [h] at hnone
  cases hnone

/-- A verdict reports the places of its report. -/
theorem printedPlaces?_verdict {examination : Examination}
    (h : ∀ error ∈ examination.report.errors, error.index < 18446744073709551616) :
    printedPlaces? (verdict examination) = some (examination.report.errors.map RuleError.index) := by
  unfold printedPlaces? verdict
  by_cases hempty : examination.report.isEmpty = true
  · have hnone : examination.report.errors = [] := List.isEmpty_iff.mp hempty
    have hok : lines ["OK"] = "OK\n" := by decide
    rw [if_pos hempty, hnone, if_pos hok]
    rfl
  · have hprinted := (Report.survives_of_index_lt h).printed
    have hother : lines [examination.report.toJson.toIndented] ≠ "OK\n" := by
      intro heq
      rw [heq] at hprinted
      exact errorsOfText_ok _ hprinted
    rw [if_neg hempty, if_neg hother, hprinted]
    rfl

theorem output_examined (folder : Folder) (complaints preamble : String) (examination : Examination) :
    (examined folder complaints preamble examination).output = preamble ++ verdict examination := by
  unfold examined
  by_cases hempty : examination.report.isEmpty = true
  · simp only [hempty, if_true, done]
  · simp only [hempty]
    rfl

/-- With explanations a run ends as without them, and complains of the same. What it prints is the same
    behind two lines for each rule in order, which say that a rule passed exactly if the verdict behind
    them does not report its place. -/
theorem explained_in_front (around : Surroundings) (path : String) (dialect : Option Dialect) (layout : Option Layout)
    (file : Option String) :
    let plain := run around (.evaluate path false dialect layout file)
    let explained := run around (.evaluate path true dialect layout file)
    (explained.failure = plain.failure ∧ explained.code = plain.code ∧ explained.complaints = plain.complaints ∧
      explained.folder = plain.folder) ∧
    ∀ settings warnings body request, Settings.load around.folder here file = .ok (settings, warnings) →
      requestBody? around path = some body → (layout.getD settings.layout).read body = .ok request →
      request.rules.length ≤ 18446744073709551616 →
      let outcomes :=
        (Evaluator.standard (dialect.getD settings.dialect)).classify request.rules request.context request.time
      outcomes.length = request.rules.length ∧
        explained.output = explanationFrom 0 request.rules outcomes ++ plain.output ∧
        ∃ places, printedPlaces? plain.output = some places ∧
          ∀ i outcome, outcomes[i]? = some outcome → (outcome.summary = "passed" ↔ i ∉ places) := by
  intro plain explained
  obtain ⟨preamble, hsame⟩ := evaluate_explain around path dialect layout file
  refine ⟨?_, ?_⟩
  · have hrun : explained = { plain with output := preamble ++ plain.output } := hsame
    rw [hrun]
    exact ⟨rfl, rfl, rfl, rfl⟩
  · intro settings warnings body request hload hbody hread hlength outcomes
    let evaluator := Evaluator.standard (dialect.getD settings.dialect)
    have hcount : outcomes.length = request.rules.length := evaluator.classify_length ..
    have hplain : plain.output = verdict (evaluator.examination request) := by
      show (run around (.evaluate path false dialect layout file)).output = _
      rw [runEvaluate_read hload hbody hread, output_examined]
      exact String.empty_append
    have hexplained : explained.output =
        explanationFrom 0 request.rules outcomes ++ verdict (evaluator.examination request) := by
      show (run around (.evaluate path true dialect layout file)).output = _
      rw [runEvaluate_read hload hbody hread, output_examined, if_pos rfl, explanations_eq]
      rfl
    have hplaces : ∀ error ∈ (evaluator.examination request).report.errors, error.index < 18446744073709551616 := by
      intro error he
      have hindex : error.index < outcomes.length := Report.index_lt_of_mem he
      omega
    refine ⟨hcount, by rw [hexplained, hplain], _, by rw [hplain, printedPlaces?_verdict hplaces], ?_⟩
    intro i outcome ho
    rw [Outcome.summary_eq_passed_iff, ← not_iff_not, not_not, ← ne_eq, ← Report.exists_error_iff ho]
    simp only [List.mem_map]
    rfl

def twoLined : List UInt8 :=
  Text.Utf8.encode
    "\x7b\"rules\":[\"true\",\"missing\\n== 1\"],\"currentTime\":\"2024-05-01T10:00:00Z\"\x7d".toList

def twoLinedRequest : Request :=
  ⟨["true", "missing\n== 1"],
    ⟨[("context", .null), ("environment", .null),
      ("event", .mapping [("payload", .null), ("sender", .null), ("signers", .null)])]⟩, ⟨1714557600, 0, 0⟩⟩

theorem classify_twoLined :
    (Evaluator.standard .cel).classify twoLinedRequest.rules twoLinedRequest.context twoLinedRequest.time =
      [.passed, .failed "Undeclared reference to 'missing'"] := by
  have hfirst : Expr.parse? "true".toList = some (.literal (.boolean true)) := by cbv
  have hsecond : Expr.parse? "missing\n== 1".toList =
      some (.binary .equal (.ident "missing") (.literal (.int 1))) := by cbv
  simp only [Evaluator.classify, Evaluator.standard, Evaluator.arranging, twoLinedRequest, List.map_cons, List.map_nil,
    Outcome.ofSession, Engine.arranging, Dialect.source, bind, Except.bind, answer, hfirst, hsecond]
  rfl

/-- Of two rules the first passes and the second, which goes over two lines, is reported. -/
theorem explained_in_front_twoLined :
    let plain := run ⟨.empty, twoLined⟩ (.evaluate "-" false (some .cel) none none)
    let explained := run ⟨.empty, twoLined⟩ (.evaluate "-" true (some .cel) none none)
    explained.output =
        "[0] true\n    passed\n[1] missing\n== 1\n    error: Undeclared reference to 'missing'\n" ++ plain.output ∧
      explained.code = plain.code ∧ ∃ places, printedPlaces? plain.output = some places ∧ 0 ∉ places ∧ 1 ∈ places := by
  intro plain explained
  have hread : Layout.event.read twoLined = .ok twoLinedRequest := by cbv
  obtain ⟨⟨-, hcode, -, -⟩, hparsed⟩ := explained_in_front ⟨.empty, twoLined⟩ "-" (some .cel) none none
  obtain ⟨-, houtput, places, hplaces, hpassed⟩ :=
    hparsed .standard [] twoLined twoLinedRequest rfl rfl hread (by decide)
  have htext : explanationFrom 0 twoLinedRequest.rules [.passed, .failed "Undeclared reference to 'missing'"] =
      "[0] true\n    passed\n[1] missing\n== 1\n    error: Undeclared reference to 'missing'\n" := by decide
  have hclassify : (Evaluator.standard ((some Dialect.cel).getD Settings.standard.dialect)).classify
      twoLinedRequest.rules twoLinedRequest.context twoLinedRequest.time = _ := classify_twoLined
  rw [hclassify] at houtput hpassed
  rw [htext] at houtput
  refine ⟨houtput, hcode, places, hplaces, (hpassed 0 .passed rfl).mp rfl, ?_⟩
  by_contra hnot
  have hreads := (hpassed 1 _ rfl).mpr hnot
  exact absurd hreads (by decide)

end Command

end Rulebook
