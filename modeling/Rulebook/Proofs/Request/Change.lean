/-
  Rulebook.Proofs.Request.Change — the names of a layout, and the change that a request carries.

  What a request is, and what it asks for, is said of the data that stands in its body:
  the names that it may have (`keys`), when it fits a layout (`Fits`), and the rules, the
  time and the context that it describes (`Describes`). A change is a mapping of three
  fields whatever is written; a name stands for a field, and the payload of an event has
  two names.
  - `find?_record`, `find?_changeRecord`: the fields of the records answer to these names.
  - `takeChange_eq_ok_iff`: the change that is taken is the one that its data describes.
-/

import Mathlib.Data.List.Nodup
import Rulebook.Proofs.Json.Content
import Rulebook.Request

namespace Rulebook

open Json (Content Tree Field Taken Member)
open Rulebook.Time (Timestamp)

/-! ## The names of a layout -/

namespace Layout

def keys : Layout → List String
  | .event => ["rules", "context", "environment", "event", "currentTime"]
  | .processState => ["rules", "newProcessState", "environmentState", "delta", "currentTime"]

/-- The field of a change that a name stands for; the payload of an event may be called its content. -/
def changeField? (layout : Layout) (name : String) : Option String :=
  if name = "sender" ∨ name = "signers" then some name
  else match layout with
    | .event => if name = "payload" ∨ name = "content" then some "payload" else none
    | .processState => if name = "content" then some "content" else none

theorem mem_keys_iff {layout : Layout} {name : String} :
    name ∈ layout.keys ↔
      name = "rules" ∨ name = "currentTime" ∨ name = layout.change ∨ name ∈ layout.sections.map Prod.fst := by
  cases layout with
  | event =>
    simp only [keys, change, sections, List.mem_cons, List.map_cons, List.map_nil, List.not_mem_nil, or_false]
    tauto
  | processState =>
    simp only [keys, change, sections, List.mem_cons, List.map_cons, List.map_nil, List.not_mem_nil, or_false]
    tauto

/-- The sections are neither the rules nor the time, and only one of them is the change. -/
theorem sections_ne (layout : Layout) :
    layout.change ≠ "rules" ∧ layout.change ≠ "currentTime" ∧
      ∀ name ∈ layout.sections.map Prod.fst, name ≠ "rules" ∧ name ≠ "currentTime" ∧ name ≠ layout.change := by
  cases layout with
  | event => decide
  | processState => decide

theorem find?_answers_plain {fields : List Field} (h : ∀ field ∈ fields, field.also = none) (name : String) :
    (fields.find? (·.answers name)).map (·.name) = if name ∈ fields.map (·.name) then some name else none := by
  induction fields with
  | nil => simp
  | cons field rest ih =>
    have hplain : field.answers name = (field.name == name) := by simp [Field.answers, h field (by simp)]
    have hrest := ih fun other ho => h other (by simp [ho])
    rw [List.find?_cons, hplain]
    by_cases hname : field.name = name
    · simp [hname]
    · have hother : name ≠ field.name := fun heq => hname heq.symm
      have hmiss : (field.name == name) = false := by simpa using hname
      simp only [hmiss, hrest, List.map_cons, List.mem_cons, hother, false_or]

theorem find?_record (layout : Layout) (name : String) :
    (layout.record.fields.find? (·.answers name)).map (·.name) = if name ∈ layout.keys then some name else none := by
  cases layout with
  | event => exact find?_answers_plain (by simp [record]) name
  | processState => exact find?_answers_plain (by simp [record]) name

theorem closed_record (layout : Layout) : layout.record.closed = true := by
  cases layout with
  | event => rfl
  | processState => rfl

theorem find?_changeRecord (layout : Layout) (name : String) :
    (layout.changeRecord.fields.find? (·.answers name)).map (·.name) = layout.changeField? name := by
  have hmiss : ∀ other : String, name ≠ other → (other == name) = false :=
    fun other hne => beq_eq_false_iff_ne.mpr hne.symm
  by_cases hsender : name = "sender"
  · subst hsender
    cases layout with
    | event => rfl
    | processState => rfl
  by_cases hsigners : name = "signers"
  · subst hsigners
    cases layout with
    | event => rfl
    | processState => rfl
  by_cases hcontent : name = "content"
  · subst hcontent
    cases layout with
    | event => rfl
    | processState => rfl
  cases layout with
  | event =>
    by_cases hpayload : name = "payload"
    · subst hpayload
      rfl
    · simp [changeRecord, changeField?, Field.answers, hmiss, hpayload, hcontent, hsender, hsigners]
  | processState => simp [changeRecord, changeField?, Field.answers, hmiss, hcontent, hsender, hsigners]

/-! ## What a request asks for -/

/-- What stands under the names of a field of a change, null if nothing does. -/
def fieldValue (layout : Layout) (fields : List (String × Content)) (field : String) : Value :=
  match fields.find? (layout.changeField? ·.1 == some field) with
  | some found => found.2.value
  | none => .null

def changeValue : Layout → List (String × Content) → Value
  | .event, fields =>
    .mapping [("payload", fieldValue .event fields "payload"), ("sender", fieldValue .event fields "sender"),
      ("signers", fieldValue .event fields "signers")]
  | .processState, fields =>
    .mapping [("content", fieldValue .processState fields "content"),
      ("sender", fieldValue .processState fields "sender"), ("signers", fieldValue .processState fields "signers")]

def sectionValue (data : List (String × Content)) (name : String) : Value :=
  ((Entries.get? data name).map Content.value).getD .null

def fieldsOf : Content → List (String × Content)
  | .object fields => fields
  | _ => []

def changeFields (layout : Layout) (data : List (String × Content)) : List (String × Content) :=
  ((Entries.get? data layout.change).map fieldsOf).getD []

def contextEntries : Layout → List (String × Content) → List (String × Value)
  | .event, data =>
    [("context", sectionValue data "context"), ("environment", sectionValue data "environment"),
      ("event", changeValue .event (changeFields .event data))]
  | .processState, data =>
    [("delta", changeValue .processState (changeFields .processState data)),
      ("environmentState", sectionValue data "environmentState"),
      ("processState", sectionValue data "newProcessState")]

/-- Data that is a request of a layout. -/
structure Fits (layout : Layout) (data : List (String × Content)) : Prop where
  known : ∀ entry ∈ data, entry.1 ∈ layout.keys
  once : (data.map Prod.fst).Nodup
  fieldsOnce : ((layout.changeFields data).map (layout.changeField? ·.1)).Nodup
  rules : ∃ rules : List String, ("rules", .list (rules.map .text)) ∈ data
  time : ∃ text time, ("currentTime", .text text) ∈ data ∧ Timestamp.read text.toList = .ok time

/-- The request that data asks for. -/
structure Describes (layout : Layout) (data : List (String × Content)) (request : Request) : Prop where
  rules : ("rules", .list (request.rules.map .text)) ∈ data
  time : ∃ text, ("currentTime", .text text) ∈ data ∧ Timestamp.read text.toList = .ok request.time
  context : request.context.entries = layout.contextEntries data

/-! ## A change -/

/-- Whether a tree may stand for a change: it is null, or an object of which all names stand for
    fields, or it is broken. -/
def IsChange (layout : Layout) : Tree → Prop
  | .scalar s => s = .null
  | .flawed _ => True
  | .object fields _ => ∀ field ∈ fields, ∀ name, field.1 = .ok name → (layout.changeField? name).isSome = true
  | _ => False

theorem IsChange.shape {layout : Layout} {tree : Tree} (h : layout.IsChange tree) {depth : Nat} {content : Content}
    (hc : Content.ofTree depth tree = .ok content) : content = .null ∨ ∃ fields, content = .object fields := by
  cases tree with
  | scalar s =>
    obtain rfl : s = .null := h
    exact Or.inl (Except.ok.inj hc).symm
  | text s => exact h.elim
  | flawed flaw => cases hc
  | list items ending => exact h.elim
  | object fields ending =>
    cases Content.ofTree_eq_ok_iff.mp hc with
    | object parts => exact Or.inr ⟨_, rfl⟩

/-- Whether a part holds what stands under a name of its field. -/
def Names (layout : Layout) (entry : String × Content) (part : String × Value) : Prop :=
  layout.changeField? entry.1 = some part.1 ∧ part.2 = entry.2.value

/-- A member of a change is taken as the field that its name stands for, with its value. -/
theorem takes_change_iff {layout : Layout} {depth : Nat} {member : Member} {part : String × Value} :
    layout.changeRecord.Takes (fun _ => Value.ofTree depth) member part ↔
      ∃ entry : String × Content, (member.1 = .ok entry.1 ∧ Content.ofTree depth member.2 = .ok entry.2) ∧
        layout.Names entry part := by
  have hvalue : Value.ofTree depth member.2 = .ok part.2 ↔
      ∃ content, Content.ofTree depth member.2 = .ok content ∧ part.2 = content.value := by
    rw [Value.ofTree_eq, map_eq_ok_iff]
    simp only [eq_comm]
  have hfield : ∀ name, (∃ field, layout.changeRecord.fields.find? (·.answers name) = some field ∧
      part.1 = field.name) ↔ layout.changeField? name = some part.1 := by
    intro name
    rw [← find?_changeRecord, Option.map_eq_some_iff]
    simp only [eq_comm]
  constructor
  · rintro ⟨name, field, hname, hfind, hpart, htake⟩
    obtain ⟨content, hcontent, heq⟩ := hvalue.mp htake
    exact ⟨(name, content), ⟨hname, hcontent⟩, (hfield name).mp ⟨field, hfind, hpart⟩, heq⟩
  · rintro ⟨⟨name, content⟩, ⟨hname, hcontent⟩, hknown, heq⟩
    obtain ⟨field, hfind, hpart⟩ := (hfield name).mpr hknown
    exact ⟨name, field, hname, hfind, hpart, hvalue.mpr ⟨content, hcontent, heq⟩⟩

/-- The members of a change are taken as their data is gathered. -/
theorem takes_change_forall_iff {layout : Layout} {depth : Nat} {members : List Member} {parts : Taken Value} :
    List.Forall₂ (layout.changeRecord.Takes fun _ => Value.ofTree depth) members parts ↔
      ∃ fields : List (String × Content), List.Forall₂ (fun member entry =>
        member.1 = .ok entry.1 ∧ Content.ofTree depth member.2 = .ok entry.2) members fields ∧
          List.Forall₂ layout.Names fields parts := by
  rw [← forall₂_exists_iff]
  exact forall₂_congr_of_mem fun member _ part => takes_change_iff

/-- The fields that are taken hold what stands under their names. -/
theorem dataOf_eq {layout : Layout} {fields : List (String × Content)} {parts : Taken Value}
    (h : List.Forall₂ layout.Names fields parts) (field : String) : Request.dataOf parts field = layout.fieldValue fields field := by
  induction h with
  | nil => rfl
  | @cons entry part rest parts hfirst _ ih =>
    obtain ⟨hknown, hvalue⟩ := hfirst
    unfold Request.dataOf fieldValue at ih ⊢
    by_cases hname : part.1 = field
    · simp [hname, hknown, hvalue]
    · simpa [hname, hknown] using ih

theorem changeOf_eq {layout : Layout} {fields : List (String × Content)} {parts : Taken Value}
    (h : List.Forall₂ layout.Names fields parts) : Request.changeOf layout parts = layout.changeValue fields := by
  have hsorted : ∀ first second third : Value, ∀ name, name = "payload" ∨ name = "content" →
      Value.ofEntries [(name, first), ("sender", second), ("signers", third)] =
        .mapping [(name, first), ("sender", second), ("signers", third)] := by
    intro first second third name hname
    have hascending : Entries.Sorted [(name, first), ("sender", second), ("signers", third)] := by
      show List.Pairwise (· < ·) [name, "sender", "signers"]
      rcases hname with rfl | rfl
      · decide
      · decide
    rw [Value.ofEntries, Entries.ofList_of_perm hascending (.refl _)]
  cases layout with
  | event =>
    simp only [Request.changeOf, changeRecord, List.map_cons, List.map_nil, dataOf_eq h, changeValue]
    exact hsorted _ _ _ "payload" (Or.inl rfl)
  | processState =>
    simp only [Request.changeOf, changeRecord, List.map_cons, List.map_nil, dataOf_eq h, changeValue]
    exact hsorted _ _ _ "content" (Or.inr rfl)

/-- Fields stand once when the names of them do, up to the fields that they stand for. -/
theorem nodup_names_iff {layout : Layout} {fields : List (String × Content)} {parts : Taken Value}
    (h : List.Forall₂ layout.Names fields parts) :
    (fields.map (layout.changeField? ·.1)).Nodup ↔ (parts.map Prod.fst).Nodup := by
  have hnames : fields.map (layout.changeField? ·.1) = (parts.map Prod.fst).map some := by
    induction h with
    | nil => rfl
    | cons hfirst _ ih => simp only [List.map_cons, ih, hfirst.1]
  rw [hnames, List.nodup_map_iff fun _ _ => Option.some.inj]

/-- Members that all stand for fields can be taken. -/
theorem exists_names {layout : Layout} {fields : List (String × Content)}
    (h : ∀ entry ∈ fields, (layout.changeField? entry.1).isSome = true) :
    ∃ parts, List.Forall₂ layout.Names fields parts := by
  refine exists_forall₂ fun entry he => ?_
  obtain ⟨field, hfield⟩ := Option.isSome_iff_exists.mp (h entry he)
  exact ⟨(field, entry.2.value), hfield, rfl⟩

/-- The change that is taken where some data is gathered. -/
def Changes (layout : Layout) (content : Content) (value : Value) : Prop :=
  content = .null ∧ value = layout.changeValue [] ∨
    ∃ fields, content = .object fields ∧ (fields.map (layout.changeField? ·.1)).Nodup ∧
      value = layout.changeValue fields

theorem takeChange_eq_ok_iff {layout : Layout} {tree : Tree} (h : layout.IsChange tree) {value : Value} :
    Request.takeChange layout tree = .ok value ↔
      ∃ content, Content.ofTree Request.sectionDepth tree = .ok content ∧ layout.Changes content value := by
  have hempty : Request.changeOf layout [] = layout.changeValue [] := changeOf_eq .nil
  cases tree with
  | text s => exact h.elim
  | list items ending => exact h.elim
  | flawed flaw => exact iff_of_false nofun (by rintro ⟨content, hcontent, -⟩; cases hcontent)
  | scalar s =>
    obtain rfl : s = .null := h
    have htake : Request.takeChange layout (.scalar .null) = .ok (layout.changeValue []) := by
      rw [← hempty]
      rfl
    rw [htake]
    constructor
    · intro hvalue
      exact ⟨.null, rfl, Or.inl ⟨rfl, (Except.ok.inj hvalue).symm⟩⟩
    · rintro ⟨content, hcontent, ⟨-, rfl⟩ | ⟨fields, rfl, -⟩⟩
      · rfl
      · cases hcontent
  | object fields ending =>
    have hknows : layout.changeRecord.Knows fields := by
      intro field hf name hname
      have hknown := h field hf name hname
      rw [← find?_changeRecord, Option.isSome_map] at hknown
      exact hknown
    have hgathered := @Content.ofTree_object_eq_ok_iff (Request.sectionDepth - 1) fields ending
    rw [Request.takeChange, bind_eq_ok_iff]
    simp only [Tree.optional, map_eq_ok_iff, Json.Tree.record_object_eq_ok_iff (Or.inr hknows),
      takes_change_forall_iff, pure, Except.pure, Except.ok.injEq]
    constructor
    · rintro ⟨_, ⟨parts, ⟨rfl, ⟨entries, hentries, hnames⟩, honce⟩, rfl⟩, rfl⟩
      exact ⟨.object entries, hgathered.mpr ⟨rfl, entries, rfl, hentries⟩,
        Or.inr ⟨entries, rfl, (nodup_names_iff hnames).mpr honce, changeOf_eq hnames⟩⟩
    · rintro ⟨content, hcontent, hchanges⟩
      obtain ⟨rfl, entries, rfl, hentries⟩ := hgathered.mp hcontent
      rcases hchanges with ⟨hnull, -⟩ | ⟨fields', heq, honce, rfl⟩
      · cases hnull
      obtain rfl := Content.object.inj heq
      have hknown : ∀ entry ∈ entries, (layout.changeField? entry.1).isSome = true := by
        intro entry he
        obtain ⟨field, hf, hname, -⟩ := exists_of_mem_right hentries he
        exact h field hf entry.1 hname
      obtain ⟨parts, hnames⟩ := exists_names hknown
      exact ⟨some parts, ⟨parts, ⟨rfl, ⟨entries, hentries, hnames⟩, (nodup_names_iff hnames).mp honce⟩, rfl⟩,
        changeOf_eq hnames⟩

end Layout

end Rulebook
