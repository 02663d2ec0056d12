/-
  Rulebook.Proofs.Report — a report survives its JSON form.

  An error is written with its place as an integer of 64 bits (`narrow`), and read back
  with that place and its message, whatever characters the message holds. A report is
  read back error by error, from the compact form as from the indented one, and from the
  bytes that a service sends as from the text that a command prints.
  - `ofTree_toJson`: an error that is written is read as itself.
  - `errorsOfText_toText`, `errorsOfText_indented`, `errorsOfText_toIndented`: so is a report,
    in both forms.
  - `index_lt_of_mem`: the places of a report are those of its outcomes.
  - `report_reads_back`: what is read are the errors themselves, for all places of 64 bits.
-/

import Rulebook.Command.Basic
import Rulebook.Proofs.Batch
import Rulebook.Proofs.Json.Tree
import Rulebook.Proofs.Utf8
import Rulebook.Service

namespace Rulebook

open Rulebook.Json (Tree Document)

namespace RuleError

/-- An error as it is written: its place is one of 64 bits. -/
def narrow (error : RuleError) : RuleError := ⟨error.index % 18446744073709551616, error.message⟩

theorem narrow_eq_self {error : RuleError} (h : error.index < 18446744073709551616) : error.narrow = error := by
  rw [narrow, Nat.mod_eq_of_lt h]

theorem size_reread (n : UInt64) : (Tree.scalar (Json.reread (.uint n))).size = .ok n.toNat := by
  unfold Json.reread
  by_cases h : n.toNat ≤ 9223372036854775807
  · have hvalue : (Int64.ofNat n.toNat).toInt = n.toNat := Int64.toInt_ofNat_of_lt (by omega)
    have hsign : ¬ ((n.toNat : Int) < 0) := by omega
    simp only [h, if_true, Tree.size, hvalue, hsign, if_false, Int.toNat_natCast]
  · simp only [h, if_false, Tree.size]

theorem ofTree_toJson (error : RuleError) : ofTree error.toJson.tree = .ok error.narrow := by
  have hindex : takePart "index" (Tree.scalar (Json.reread (.uint (UInt64.ofNat error.index)))) =
      .ok (.index (error.index % 18446744073709551616)) := by
    rw [takePart, if_pos rfl, size_reread, UInt64.toNat_ofNat']
    rfl
  have hmessage : takePart "message" (Tree.text error.message) = .ok (.message error.message) := by
    rw [takePart, if_neg (by decide)]
    rfl
  have hparts : error.toJson.tree.record record takePart =
      .ok [("index", .index (error.index % 18446744073709551616)), ("message", .message error.message)] := by
    simp only [toJson, Json.tree, Json.memberTrees, Tree.record]
    have hmembers : Json.Record.ofMembers record takePart []
        [(.ok "index", Tree.scalar (Json.reread (.uint (UInt64.ofNat error.index)))),
          (.ok "message", Tree.text error.message)] =
        .ok [("index", .index (error.index % 18446744073709551616)), ("message", .message error.message)] := by
      simp [Json.Record.ofMembers, record, Json.Name.read, Json.Field.answers, hindex, hmessage, bind, Except.bind]
    rw [hmembers]
    rfl
  unfold ofTree
  rw [hparts]
  rfl

end RuleError

def errorsOfText (text : String) : Except Json.Fault (List RuleError) :=
  (Document.ofText text).decode (Tree.items RuleError.ofTree)

def errorsOfBytes (bytes : List UInt8) : Except Json.Fault (List RuleError) :=
  (Document.ofBytes bytes).decode (Tree.items RuleError.ofTree)

namespace Report

theorem readsNumbers_toJson (report : Report) : report.toJson.ReadsNumbers := by
  have hitems : ∀ errors : List RuleError, ∀ n ∈ Json.itemNumbers (errors.map RuleError.toJson), Json.ReadsBack n := by
    intro errors
    induction errors with
    | nil => intro n hn; cases hn
    | cons error rest ih =>
      intro n hn
      rw [List.map_cons, Json.itemNumbers, List.mem_append] at hn
      rcases hn with hn | hn
      · obtain rfl : n = .uint (UInt64.ofNat error.index) := by
          simpa [RuleError.toJson, Json.numbers, Json.memberNumbers] using hn
        exact Json.readsBack_uint _
      · exact ih n hn
  exact hitems report.errors

theorem decode_toJson (report : Report) :
    (Document.mk report.toJson.tree none).decode (Tree.items RuleError.ofTree) =
      .ok (report.errors.map RuleError.narrow) := by
  have hitems : ∀ errors : List RuleError,
      (Json.itemTrees (errors.map RuleError.toJson)).mapM RuleError.ofTree = .ok (errors.map RuleError.narrow) := by
    intro errors
    induction errors with
    | nil => rfl
    | cons error rest ih =>
      simp only [List.map_cons, Json.itemTrees, List.mapM_cons]
      rw [RuleError.ofTree_toJson, ih]
      rfl
  simp only [Document.decode, toJson, Json.tree, Tree.items]
  rw [hitems]
  rfl

theorem errorsOfText_toText (report : Report) :
    errorsOfText report.toJson.toText = .ok (report.errors.map RuleError.narrow) := by
  rw [errorsOfText, Json.ofText_toText report.readsNumbers_toJson, decode_toJson]

theorem errorsOfText_indented (report : Report) :
    errorsOfText report.toJson.toIndented = .ok (report.errors.map RuleError.narrow) := by
  rw [errorsOfText, Json.ofText_indented report.readsNumbers_toJson, decode_toJson]

theorem errorsOfText_toIndented (report : Report) :
    errorsOfText (report.toJson.toIndented ++ "\n") = .ok (report.errors.map RuleError.narrow) := by
  rw [errorsOfText, Json.ofText_toIndented report.readsNumbers_toJson, decode_toJson]

theorem errorsOfBytes_encode (text : String) : errorsOfBytes (Text.Utf8.encode text.toList) = errorsOfText text := by
  rw [errorsOfBytes, errorsOfText, Document.ofBytes, Document.ofText, Text.Utf8.symbols_encode]

/-- Whether all the texts of a report hold just its errors: its two JSON forms, what a service sends
    and what a command prints. -/
structure Survives (report : Report) : Prop where
  compact : errorsOfText report.toJson.toText = .ok report.errors
  indented : errorsOfText report.toJson.toIndented = .ok report.errors
  sent : errorsOfBytes (Text.Utf8.encode (Reply.failed report).content.toList) = .ok report.errors
  printed : errorsOfText (Command.lines [report.toJson.toIndented]) = .ok report.errors

/-- A report whose places are of 64 bits survives. -/
theorem survives_of_index_lt {report : Report} (h : ∀ error ∈ report.errors, error.index < 18446744073709551616) :
    report.Survives := by
  have hnarrow : report.errors.map RuleError.narrow = report.errors := by
    rw [List.map_congr_left fun error he => RuleError.narrow_eq_self (h error he)]
    exact List.map_id' report.errors
  have hline : Command.lines [report.toJson.toIndented] = report.toJson.toIndented ++ "\n" := by
    simp [Command.lines]
  constructor
  · rw [errorsOfText_toText, hnarrow]
  · rw [errorsOfText_indented, hnarrow]
  · rw [errorsOfBytes_encode, Reply.content, errorsOfText_toText, hnarrow]
  · rw [hline, errorsOfText_toIndented, hnarrow]

/-- An error stands at the place of one of the outcomes. -/
theorem index_lt_of_mem {outcomes : List Outcome} {error : RuleError} (h : error ∈ (ofOutcomes outcomes).errors) :
    error.index < outcomes.length := by
  obtain ⟨outcome, ho, -⟩ := (mem_ofOutcomes_iff outcomes error).mp h
  exact (List.getElem?_eq_some_iff.mp ho).1

/-- The report of outcomes is read back from each of its texts error by error, in order, with the same
    places and messages, and so is every report whose places 64 bits can hold. -/
theorem report_reads_back :
    (∀ outcomes : List Outcome, outcomes.length ≤ 18446744073709551616 → (ofOutcomes outcomes).Survives) ∧
    ∀ report : Report, (∀ error ∈ report.errors, error.index < 18446744073709551616) → report.Survives := by
  refine ⟨fun outcomes hlength => survives_of_index_lt fun error he => ?_, fun report h => survives_of_index_lt h⟩
  have hindex := index_lt_of_mem he
  omega

/-- A message with a quote, a backslash, a line break and a control character, and the greatest place. -/
theorem report_reads_back_escaped :
    (ofOutcomes [.passed, .failed "say \"a\\b\"\n\x00", .failedAssertion]).Survives ∧
      (Report.mk [⟨18446744073709551615, "é😀"⟩, ⟨0, ""⟩]).Survives :=
  ⟨report_reads_back.1 _ (by decide), report_reads_back.2 _ (by decide)⟩

end Report

end Rulebook
