/-
  Rulebook.Proofs.Now — no context changes the time that a batch is judged at.

  The clock is bound last, so its name stands for it whatever the context has under that
  name, and nothing else of a session hangs on the context's entry: contexts that agree
  on all other names (`AgreeBesideClock`) give every batch the same outcomes. A rule that
  asks for the time and nothing else (`AsksTime`) is answered the text of the clock.
  - `session_asksTime`: the answer to a rule that asks for the time.
  - `read_time_of_request`: the clock of a request is read again from its text.
  - `clock_unforged`: all this for batches of the two dialects.
-/

import Rulebook.Batch
import Rulebook.Proofs.Feel.Behind
import Rulebook.Proofs.Feel.Parts
import Rulebook.Proofs.Request.Whole
import Rulebook.Proofs.Selection
import Rulebook.Proofs.Time.Timestamp

namespace Rulebook

open Rulebook.Time (Timestamp)

variable {a b : Context} {dialect : Dialect} {rule : String} {call : List Char}

/-! ## Rules that ask for the time -/

def AgreeBesideClock (a b : Context) : Prop := ∀ name, name ≠ clockName → a.get? name = b.get? name

/-- Whether a rule asks for the time and nothing else: by its name, or in the friendly dialect by a call. -/
def AsksTime (dialect : Dialect) (rule : String) : Prop :=
  rule = clockName ∨ dialect = .feel ∧ Feel.IsClockCall rule.toList

theorem translate_clockName : Feel.translate .builtin clockName = .ok clockName :=
  Feel.translate_of_passes
    (Feel.passes_word_copied (by decide) (by decide) (by decide) rfl rfl List.not_mem_nil)

theorem translate_clockCall (h : Feel.IsClockCall rule.toList) : Feel.translate .builtin rule = .ok clockName := by
  obtain ⟨more, hrule, hhead, hempty⟩ := h.exists_append []
  rw [List.append_nil] at hrule
  have hunnamed : Feel.Phrase.find? Feel.builtinPhrases ("now".toList ++ (more ++ [])) = none := by
    rw [List.append_nil]
    exact Feel.find?_eq_none Feel.isSpelled_builtin (by decide) hhead (Or.inl (by decide))
  have hclock : Feel.Part Feel.builtinPhrases [] [] ("now".toList ++ more) "now".toList [] :=
    .clock rfl hunnamed (by rwa [List.append_nil])
  have hrewritten := Feel.Rewritten.part hclock .done
  rw [List.append_nil, List.append_nil, ← hrule, ← Feel.phrases_builtin] at hrewritten
  exact Feel.translate_eq_ok_iff.mpr hrewritten

theorem source_asksTime (h : AsksTime dialect rule) : dialect.source .builtin rule = .ok clockName := by
  cases dialect with
  | cel =>
    obtain rfl | ⟨hdialect, -⟩ := h
    · rfl
    · cases hdialect
  | feel =>
    have htranslate : Feel.translate .builtin rule = .ok clockName := by
      obtain rfl | ⟨-, hcall⟩ := h
      · exact translate_clockName
      · exact translate_clockCall hcall
    rw [Dialect.source, htranslate]

/-- A rule that asks for the time is answered the text of the clock. -/
theorem session_asksTime (h : AsksTime dialect rule) (arrangement : Arrangement) (context : Context) (clock : Timestamp) :
    (Engine.arranging arrangement dialect).session .builtin context clock rule =
      .ok (.string (String.ofList clock.shortText)) := by
  have hparse : Expr.parse? clockName.toList = some (.ident clockName) := by cbv
  have hclock : (Expr.Scope.ofBatch arrangement .builtin context clock).data clockName = some (.timestamp clock) := by
    simp [Expr.Scope.ofBatch]
  simp only [Engine.arranging, source_asksTime h, bind, Except.bind, answer, hparse, Expr.eval, hclock, Datum.toValue]

theorem read_time_of_request {layout : Layout} {body : List UInt8} {request : Request}
    (h : layout.read body = .ok request) : Timestamp.read request.time.shortText = .ok request.time := by
  obtain ⟨_, _, -, -, -, hread, -⟩ := Layout.read_eq_ok_iff.mp h
  exact Timestamp.read_written hread

/-! ## Batches -/

/-- Contexts that agree on every name but the clock's give a batch the same outcomes and the same verdict, in either
    dialect and any order of maps, and every rule that asks for the time is answered the text of the clock. This text
    is read as the clock, as always where the clock is that of a request. -/
theorem clock_unforged (h : AgreeBesideClock a b) (arrangement : Arrangement) (dialect : Dialect) (clock : Timestamp)
    (rules : List String) :
    let evaluator := Evaluator.arranging arrangement dialect
    evaluator.classify rules a clock = evaluator.classify rules b clock ∧
      evaluator.evaluate rules a clock = evaluator.evaluate rules b clock ∧
      (clock.Shown → Timestamp.read clock.shortText = .ok clock) ∧
      (∀ layout body request, Layout.read layout body = .ok request → request.time = clock →
        Timestamp.read clock.shortText = .ok clock) ∧
      ∀ (i : Nat) (rule : String), rules[i]? = some rule → AsksTime dialect rule →
        evaluator.engine.session evaluator.registry a clock rule = .ok (.string (String.ofList clock.shortText)) ∧
        (evaluator.classify rules a clock)[i]? = some (Outcome.wrongResult .string) := by
  intro evaluator
  have hsession : evaluator.engine.session evaluator.registry a clock =
      evaluator.engine.session evaluator.registry b clock := by
    simp only [evaluator, Evaluator.arranging, Engine.arranging, Expr.Scope.ofBatch_congr arrangement _ clock h]
  have hclassify : evaluator.classify rules a clock = evaluator.classify rules b clock := by
    rw [Evaluator.classify, Evaluator.classify, hsession]
  have hevaluate : evaluator.evaluate rules a clock = evaluator.evaluate rules b clock := by
    rw [Evaluator.evaluate, Evaluator.evaluate, hclassify]
  refine ⟨hclassify, hevaluate, Timestamp.read_shortText, ?_, fun i rule hi hasks => ?_⟩
  · rintro layout body request hrequest rfl
    exact read_time_of_request hrequest
  have hanswer : evaluator.engine.session evaluator.registry a clock rule =
      .ok (.string (String.ofList clock.shortText)) := session_asksTime hasks arrangement a clock
  refine ⟨hanswer, ?_⟩
  rw [Evaluator.classify, List.getElem?_map, hi, Option.map_some, Outcome.ofSession, hanswer]
  rfl

def forged : Context := pair.insert clockName (.string "1999-01-01T00:00:00Z")

/-- The outcomes are those without an entry under the clock's name, and the answer is the time of the clock. -/
theorem clock_unforged_forged :
    forged.get? clockName = some (.string "1999-01-01T00:00:00Z") ∧ AgreeBesideClock forged pair ∧
      (Evaluator.standard .feel).classify ["xs[i] = now", "i = 2", "now ( )"] forged ⟨1714557600, 0, 7200⟩ =
        (Evaluator.standard .feel).classify ["xs[i] = now", "i = 2", "now ( )"] pair ⟨1714557600, 0, 7200⟩ ∧
      (Evaluator.standard .feel).engine.session .builtin forged ⟨1714557600, 0, 7200⟩ "now ( )" =
        .ok (.string "2024-05-01T12:00:00+02:00") ∧
      Timestamp.read "2024-05-01T12:00:00+02:00".toList = .ok ⟨1714557600, 0, 7200⟩ := by
  have hagree : AgreeBesideClock forged pair := fun name hname => Context.get?_insert_of_ne _ _ hname
  have hasks : AsksTime .feel "now ( )" := Or.inr ⟨rfl, [' '], [' '], rfl, by decide, by decide⟩
  have htext : Timestamp.shortText ⟨1714557600, 0, 7200⟩ = "2024-05-01T12:00:00+02:00".toList := by decide
  have hshown : Timestamp.Shown ⟨1714557600, 0, 7200⟩ := ⟨by decide, ⟨120, by decide⟩, by decide⟩
  obtain ⟨hclassify, -, hread, -, htime⟩ :=
    clock_unforged hagree .asSet .feel ⟨1714557600, 0, 7200⟩ ["xs[i] = now", "i = 2", "now ( )"]
  obtain ⟨hanswer, -⟩ := htime 2 "now ( )" rfl hasks
  rw [htext] at hanswer hread
  exact ⟨Context.get?_insert_self .., hagree, hclassify, hanswer, hread hshown⟩

end Rulebook
