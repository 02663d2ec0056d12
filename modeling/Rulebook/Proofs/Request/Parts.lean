/-
  Rulebook.Proofs.Request.Parts — the parts of a request, and the data that they are taken from.

  A request is taken field by field, its data is gathered whole. Part by part the two
  agree: the part that is taken of a name is the one that its datum gives (`Gives`), so
  the parts of a request are those that its data gives one by one. What is looked up
  among the parts afterwards is what stands under a name of the data.
  - `takePart_eq_ok_iff`: one part.
  - `parts_eq_ok_iff`: all of them, when all names are of the layout and stand once.
  - `rules?_eq_some_iff`, `time?_eq_some_iff`, `contextOf_eq`: what is looked up.
-/

import Rulebook.Proofs.Request.Change

namespace Rulebook

open Json (Content Tree Document Flaw Taken Member)

namespace Layout

/-! ## The parts of a request -/

/-- Whether a part of a request is the one that an entry of its data gives. -/
def Gives (layout : Layout) (entry : String × Content) (part : String × Request.Part) : Prop :=
  part.1 = entry.1 ∧
    match part.2 with
    | .rules found => entry.1 = "rules" ∧ entry.2 = found.elim .null fun rules => .list (rules.map .text)
    | .time found => entry.1 = "currentTime" ∧ entry.2 = found.elim .null .text
    | .data value =>
      entry.1 = layout.change ∧ layout.Changes entry.2 value ∨
        entry.1 ∈ layout.sections.map Prod.fst ∧ value = entry.2.value

/-- What may be null is taken as it is gathered, if what is taken otherwise is. -/
theorem optional_eq_ok_iff_ofTree {α : Type} {present : Tree → Except Json.Fault α} {form : α → Content} {depth : Nat}
    {tree : Tree} (hform : ∀ a, form a ≠ .null)
    (h : ∀ a, present tree = .ok a ↔ Content.ofTree depth tree = .ok (form a)) {found : Option α} :
    tree.optional present = .ok found ↔ Content.ofTree depth tree = .ok (found.elim .null form) := by
  rw [Json.Tree.optional_eq_ok_iff]
  cases found with
  | none =>
    rw [Option.elim_none, Content.ofTree_eq_null_iff]
    simp
  | some a =>
    rw [Option.elim_some, ← h a]
    constructor
    · rintro (⟨-, hnone⟩ | ⟨-, b, hb, heq⟩)
      · cases hnone
      · rwa [Option.some.inj heq]
    · intro ha
      refine Or.inr ⟨?_, a, ha, rfl⟩
      intro hnull
      have hcontent := (h a).mp ha
      rw [Content.ofTree_eq_null_iff.mpr hnull] at hcontent
      exact hform a (Except.ok.inj hcontent).symm

theorem items_string_eq_ok_iff {depth : Nat} {tree : Tree} (texts : List String) :
    tree.items Json.Tree.string = .ok texts ↔ Content.ofTree (depth + 1) tree = .ok (.list (texts.map .text)) := by
  simp only [Json.Tree.items_eq_ok_iff, Json.Tree.string_eq_ok_iff, forall₂_eq_map_iff, Content.ofTree_eq_texts_iff]
  constructor
  · rintro ⟨_, rfl, rfl⟩
    rfl
  · rintro rfl
    exact ⟨_, rfl, rfl⟩

theorem string_eq_ok_iff_ofTree {depth : Nat} {tree : Tree} (text : String) :
    tree.string = .ok text ↔ Content.ofTree depth tree = .ok (.text text) := by
  rw [Json.Tree.string_eq_ok_iff, Content.ofTree_eq_text_iff]

section

variable {layout : Layout} {content : Content} {part : Request.Part}

theorem gives_rules_iff : layout.Gives ("rules", content) ("rules", part) ↔
    ∃ found, part = .rules found ∧ content = found.elim .null fun rules => .list (rules.map .text) := by
  obtain ⟨hrules, -, hsections⟩ := layout.sections_ne
  cases part with
  | rules found => simp [Gives]
  | time found => simp [Gives]
  | data value =>
    have hnone : "rules" ∉ layout.sections.map Prod.fst := fun h => (hsections _ h).1 rfl
    simp only [Gives, hrules.symm, hnone, false_and, or_false, and_false, reduceCtorEq, exists_false]

theorem gives_time_iff : layout.Gives ("currentTime", content) ("currentTime", part) ↔
    ∃ found, part = .time found ∧ content = found.elim .null .text := by
  obtain ⟨-, htime, hsections⟩ := layout.sections_ne
  cases part with
  | rules found => simp [Gives]
  | time found => simp [Gives]
  | data value =>
    have hnone : "currentTime" ∉ layout.sections.map Prod.fst := fun h => (hsections _ h).2.1 rfl
    simp only [Gives, htime.symm, hnone, false_and, or_false, and_false, reduceCtorEq, exists_false]

theorem gives_change_iff : layout.Gives (layout.change, content) (layout.change, part) ↔
    ∃ value, part = .data value ∧ layout.Changes content value := by
  obtain ⟨hrules, htime, hsections⟩ := layout.sections_ne
  cases part with
  | rules found => simp [Gives, hrules]
  | time found => simp [Gives, htime]
  | data value =>
    have hnone : layout.change ∉ layout.sections.map Prod.fst := fun h => (hsections _ h).2.2 rfl
    simp [Gives, hnone]

theorem gives_section_iff {name : String} (h : name ∈ layout.sections.map Prod.fst) :
    layout.Gives (name, content) (name, part) ↔ part = .data content.value := by
  obtain ⟨hrules, htime, hchange⟩ := layout.sections_ne.2.2 name h
  cases part with
  | rules found => simp [Gives, hrules]
  | time found => simp [Gives, htime]
  | data value => simp only [Gives, hchange, h, false_and, false_or, true_and, Request.Part.data.injEq]

end

/-- The part that is taken of a name of the layout is the one that its data gives. -/
theorem takePart_eq_ok_iff {layout : Layout} {name : String} (hname : name ∈ layout.keys) {tree : Tree}
    (hchange : name = layout.change → layout.IsChange tree) {part : Request.Part} :
    Request.takePart layout name tree = .ok part ↔
      ∃ content, Content.ofTree Request.sectionDepth tree = .ok content ∧ layout.Gives (name, content) (name, part) := by
  obtain ⟨hrules, htime, hsections⟩ := layout.sections_ne
  unfold Request.takePart
  rcases mem_keys_iff.mp hname with rfl | rfl | rfl | hsection
  · rw [if_pos rfl, map_eq_ok_iff]
    have htaken : ∀ found, tree.optional (Json.Tree.items Json.Tree.string) = .ok found ↔
        Content.ofTree Request.sectionDepth tree = .ok (found.elim .null fun rules => .list (rules.map .text)) := by
      intro found
      refine optional_eq_ok_iff_ofTree ?_ items_string_eq_ok_iff
      exact fun rules => Content.noConfusion
    simp only [gives_rules_iff, htaken]
    constructor
    · rintro ⟨found, hcontent, rfl⟩
      exact ⟨_, hcontent, found, rfl, rfl⟩
    · rintro ⟨_, hcontent, found, rfl, rfl⟩
      exact ⟨found, hcontent, rfl⟩
  · rw [if_neg (by decide), if_pos rfl, map_eq_ok_iff]
    have htaken : ∀ found, tree.optional Json.Tree.string = .ok found ↔
        Content.ofTree Request.sectionDepth tree = .ok (found.elim .null .text) := by
      intro found
      refine optional_eq_ok_iff_ofTree ?_ string_eq_ok_iff_ofTree
      exact fun text => Content.noConfusion
    simp only [gives_time_iff, htaken]
    constructor
    · rintro ⟨found, hcontent, rfl⟩
      exact ⟨_, hcontent, found, rfl, rfl⟩
    · rintro ⟨_, hcontent, found, rfl, rfl⟩
      exact ⟨found, hcontent, rfl⟩
  · rw [if_neg hrules, if_neg htime, if_pos rfl, map_eq_ok_iff]
    simp only [gives_change_iff, takeChange_eq_ok_iff (hchange rfl)]
    constructor
    · rintro ⟨value, ⟨content, hcontent, hchanges⟩, rfl⟩
      exact ⟨content, hcontent, value, rfl, hchanges⟩
    · rintro ⟨content, hcontent, value, rfl, hchanges⟩
      exact ⟨value, ⟨content, hcontent, hchanges⟩, rfl⟩
  · obtain ⟨hnotRules, hnotTime, hnotChange⟩ := hsections name hsection
    rw [if_neg hnotRules, if_neg hnotTime, if_neg hnotChange, map_eq_ok_iff, Value.ofTree_eq]
    simp only [gives_section_iff hsection, map_eq_ok_iff]
    constructor
    · rintro ⟨_, ⟨content, hcontent, rfl⟩, rfl⟩
      exact ⟨content, hcontent, rfl⟩
    · rintro ⟨content, hcontent, rfl⟩
      exact ⟨content.value, ⟨content, hcontent, rfl⟩, rfl⟩

theorem name_of_takes {layout : Layout} {take : String → Tree → Except Json.Fault Request.Part} {member : Member}
    {part : String × Request.Part} (h : layout.record.Takes take member part) :
    member.1 = .ok part.1 ∧ part.1 ∈ layout.keys ∧ take part.1 member.2 = .ok part.2 := by
  obtain ⟨name, field, hname, hfind, hpart, htake⟩ := h
  have hfield := layout.find?_record name
  rw [hfind, Option.map_some] at hfield
  by_cases hkey : name ∈ layout.keys
  · rw [if_pos hkey, Option.some.injEq] at hfield
    rw [hfield] at hpart htake
    rw [hpart]
    exact ⟨hname, hkey, htake⟩
  · rw [if_neg hkey] at hfield
    cases hfield

/-- A member of a request is taken as the part that its data gives, if its name is of the layout. -/
theorem takes_request_iff {layout : Layout} {member : Member}
    (h : member.1 = .ok layout.change → layout.IsChange member.2) {part : String × Request.Part} :
    layout.record.Takes (Request.takePart layout) member part ↔
      ∃ entry : String × Content,
        (member.1 = .ok entry.1 ∧ Content.ofTree Request.sectionDepth member.2 = .ok entry.2) ∧
          entry.1 ∈ layout.keys ∧ layout.Gives entry part := by
  obtain ⟨partName, part⟩ := part
  constructor
  · intro htakes
    obtain ⟨hname, hkey, htake⟩ := name_of_takes htakes
    have hchange : partName = layout.change → layout.IsChange member.2 := fun heq => h (heq ▸ hname)
    obtain ⟨content, hcontent, hgives⟩ := (takePart_eq_ok_iff hkey hchange).mp htake
    exact ⟨(partName, content), ⟨hname, hcontent⟩, hkey, hgives⟩
  · rintro ⟨⟨name, content⟩, ⟨hname, hcontent⟩, hkey, hgives⟩
    obtain rfl : partName = name := hgives.1
    have hfield := layout.find?_record partName
    rw [if_pos hkey, Option.map_eq_some_iff] at hfield
    obtain ⟨field, hfind, heq⟩ := hfield
    have hchange : partName = layout.change → layout.IsChange member.2 := fun heq => h (heq ▸ hname)
    refine ⟨partName, field, hname, hfind, heq.symm, ?_⟩
    rw [heq]
    exact (takePart_eq_ok_iff hkey hchange).mpr ⟨content, hcontent, hgives⟩

theorem map_fst_of_gives {layout : Layout} {data : List (String × Content)} {parts : Taken Request.Part}
    (h : List.Forall₂ layout.Gives data parts) : parts.map Prod.fst = data.map Prod.fst := by
  induction h with
  | nil => rfl
  | cons hfirst _ ih => simp only [List.map_cons, ih, hfirst.1]

/-- The parts of a request are those that its data gives one by one, if all its names are of the
    layout and stand once. -/
theorem parts_eq_ok_iff {layout : Layout} {document : Document} {members : List Member} {ending : Option Flaw}
    (hroot : document.root = .object members ending)
    (hchange : ∀ member ∈ members, member.1 = .ok layout.change → layout.IsChange member.2)
    {parts : Taken Request.Part} :
    layout.parts document = .ok parts ↔
      ∃ data, Content.ofDocument Json.maxDepth document = .ok (.object data) ∧
        (∀ entry ∈ data, entry.1 ∈ layout.keys) ∧ (data.map Prod.fst).Nodup ∧
          List.Forall₂ layout.Gives data parts := by
  have htakes : List.Forall₂ (layout.record.Takes (Request.takePart layout)) members parts ↔
      ∃ data : List (String × Content), List.Forall₂ (fun member entry =>
        member.1 = .ok entry.1 ∧ Content.ofTree Request.sectionDepth member.2 = .ok entry.2) members data ∧
          (∀ entry ∈ data, entry.1 ∈ layout.keys) ∧ List.Forall₂ layout.Gives data parts := by
    simp only [← List.forall₂_and_left]
    rw [← forall₂_exists_iff]
    exact forall₂_congr_of_mem fun member hm part => takes_request_iff (hchange member hm)
  have hgathered := @Content.ofTree_object_eq_ok_iff Request.sectionDepth members ending
  rw [Layout.parts, Document.decode_eq_ok_iff, hroot, Json.Tree.record_object_eq_ok_iff (Or.inl layout.closed_record), htakes]
  simp only [Content.ofDocument, Document.decode_eq_ok_iff, hroot]
  constructor
  · rintro ⟨⟨hending, ⟨data, hdata, hknown, hgives⟩, honce⟩, hdone⟩
    rw [map_fst_of_gives hgives] at honce
    exact ⟨data, ⟨hgathered.mpr ⟨hending, data, rfl, hdata⟩, hdone⟩, hknown, honce, hgives⟩
  · rintro ⟨data, ⟨hobject, hdone⟩, hknown, honce, hgives⟩
    obtain ⟨hending, data', heq, hdata⟩ := hgathered.mp hobject
    obtain rfl := Content.object.inj heq
    rw [← map_fst_of_gives hgives] at honce
    exact ⟨⟨hending, ⟨data, hdata, hknown, hgives⟩, honce⟩, hdone⟩

/-! ## Looking parts up -/

section

variable {layout : Layout} {data : List (String × Content)} {parts : Taken Request.Part}

def rulesOf? : Request.Part → Option (List String)
  | .rules rules => rules
  | _ => none

def timeOf? : Request.Part → Option String
  | .time text => text
  | _ => none

/-- What is picked from the parts stands under one name of the data, in one form. -/
theorem findSome?_of_gives {α : Type} {pick : Request.Part → Option α} {name : String} {form : α → Content}
    (hform : ∀ a b, form a = form b → a = b)
    (hpick : ∀ entry part, layout.Gives entry part → ∀ a, pick part.2 = some a ↔ entry = (name, form a))
    (once : (data.map Prod.fst).Nodup) (h : List.Forall₂ layout.Gives data parts) (a : α) :
    parts.findSome? (fun part => pick part.2) = some a ↔ (name, form a) ∈ data := by
  induction h with
  | nil => simp
  | @cons entry part data parts hfirst hrest ih =>
    rw [List.map_cons, List.nodup_cons] at once
    have ih := ih once.2
    rw [List.findSome?_cons, List.mem_cons]
    cases hp : pick part.2 with
    | none =>
      have hne : (name, form a) ≠ entry := by
        rintro rfl
        have hsome := (hpick _ part hfirst a).mpr rfl
        rw [hp] at hsome
        cases hsome
      simp only [hne, false_or]
      exact ih
    | some b =>
      obtain rfl := (hpick entry part hfirst b).mp hp
      have hother : (name, form a) ∉ data := by
        intro hmem
        have hname : name ∈ data.map Prod.fst := List.mem_map_of_mem (f := Prod.fst) hmem
        exact once.1 hname
      simp only [hother, or_false, Option.some.injEq, Prod.mk.injEq, true_and]
      exact ⟨fun heq => by rw [heq], fun heq => (hform a b heq).symm⟩

theorem Gives.data_ne {entry : String × Content} {name : String} {value : Value}
    (h : layout.Gives entry (name, .data value)) : entry.1 ≠ "rules" ∧ entry.1 ≠ "currentTime" := by
  obtain ⟨hrules, htime, hsections⟩ := layout.sections_ne
  obtain ⟨-, ⟨hchange, -⟩ | ⟨hsection, -⟩⟩ := h
  · rw [hchange]
    exact ⟨hrules, htime⟩
  · obtain ⟨hnotRules, hnotTime, -⟩ := hsections entry.1 hsection
    exact ⟨hnotRules, hnotTime⟩

theorem rules?_eq_some_iff (once : (data.map Prod.fst).Nodup) (h : List.Forall₂ layout.Gives data parts)
    (rules : List String) :
    Request.rules? parts = some rules ↔ ("rules", .list (rules.map .text)) ∈ data := by
  have hform : ∀ a b : List String, Content.list (a.map .text) = .list (b.map .text) → a = b :=
    fun a b heq => (List.map_inj_right fun _ _ => Content.text.inj).mp (Content.list.inj heq)
  have hfound : Request.rules? parts = parts.findSome? fun part => rulesOf? part.2 := rfl
  rw [hfound]
  refine findSome?_of_gives hform ?_ once h rules
  rintro ⟨name, content⟩ ⟨partName, part⟩ hgives a
  cases part with
  | rules found =>
    obtain ⟨-, rfl, rfl⟩ := hgives
    cases found with
    | none => simp [rulesOf?]
    | some b =>
      simp only [rulesOf?, Option.elim_some, Option.some.injEq, Prod.mk.injEq, true_and]
      exact ⟨fun heq => by rw [heq], fun heq => hform b a heq⟩
  | time found =>
    obtain ⟨-, rfl, -⟩ := hgives
    simp [rulesOf?]
  | data value =>
    have hne : name ≠ "rules" := hgives.data_ne.1
    simp [rulesOf?, hne]

theorem time?_eq_some_iff (once : (data.map Prod.fst).Nodup) (h : List.Forall₂ layout.Gives data parts)
    (text : String) : Request.time? parts = some text ↔ ("currentTime", .text text) ∈ data := by
  have hform : ∀ a b : String, Content.text a = .text b → a = b := fun _ _ => Content.text.inj
  have hfound : Request.time? parts = parts.findSome? fun part => timeOf? part.2 := rfl
  rw [hfound]
  refine findSome?_of_gives hform ?_ once h text
  rintro ⟨name, content⟩ ⟨partName, part⟩ hgives a
  cases part with
  | rules found =>
    obtain ⟨-, rfl, -⟩ := hgives
    simp [timeOf?]
  | time found =>
    obtain ⟨-, rfl, rfl⟩ := hgives
    cases found with
    | none => simp [timeOf?]
    | some b => simp [timeOf?]
  | data value =>
    have hne : name ≠ "currentTime" := hgives.data_ne.2
    simp [timeOf?, hne]

def dataValue (layout : Layout) (name : String) (content : Content) : Value :=
  if name = layout.change then layout.changeValue (fieldsOf content) else content.value

theorem Gives.data_eq {entry : String × Content} {name : String} {value : Value}
    (h : layout.Gives entry (name, .data value)) : value = layout.dataValue entry.1 entry.2 := by
  obtain ⟨-, -, hsections⟩ := layout.sections_ne
  obtain ⟨-, ⟨hchange, hchanges⟩ | ⟨hsection, hvalue⟩⟩ := h
  · rw [dataValue, if_pos hchange]
    rcases hchanges with ⟨hnull, hvalue⟩ | ⟨fields, hobject, -, hvalue⟩
    · rw [hvalue, hnull]
      rfl
    · rw [hvalue, hobject]
      rfl
  · rw [dataValue, if_neg (hsections entry.1 hsection).2.2]
    exact hvalue

theorem section?_eq (h : List.Forall₂ layout.Gives data parts) {name : String} (hrules : name ≠ "rules")
    (htime : name ≠ "currentTime") :
    Request.section? parts name = (Entries.get? data name).map (layout.dataValue name) := by
  induction h with
  | nil => rfl
  | @cons entry part data parts hfirst hrest ih =>
    obtain ⟨partName, part⟩ := part
    rw [Entries.get?_cons]
    unfold Request.section? at ih ⊢
    rw [List.findSome?_cons]
    cases part with
    | rules found =>
      have hne : entry.1 ≠ name := fun heq => hrules (heq ▸ hfirst.2.1)
      rw [if_neg hne]
      exact ih
    | time found =>
      have hne : entry.1 ≠ name := fun heq => htime (heq ▸ hfirst.2.1)
      rw [if_neg hne]
      exact ih
    | data value =>
      have hpart : partName = entry.1 := hfirst.1
      by_cases hname : entry.1 = name
      · simp [hpart, hname, hfirst.data_eq]
      · simpa [hpart, hname] using ih

/-- The context of a request holds three entries, in the order of their names. -/
theorem contextOf_eq (h : List.Forall₂ layout.Gives data parts) :
    (Request.contextOf layout parts).entries = layout.contextEntries data := by
  obtain ⟨hrules, htime, hsections⟩ := layout.sections_ne
  have hchange : (Request.section? parts layout.change).getD (Request.changeOf layout []) =
      layout.changeValue (layout.changeFields data) := by
    rw [section?_eq h hrules htime, changeFields]
    cases Entries.get? data layout.change with
    | none => exact changeOf_eq .nil
    | some content => simp [dataValue]
  have hsection : ∀ name ∈ layout.sections.map Prod.fst,
      (Request.section? parts name).getD .null = sectionValue data name := by
    intro name hname
    obtain ⟨hnotRules, hnotTime, hnotChange⟩ := hsections name hname
    rw [section?_eq h hnotRules hnotTime, sectionValue]
    cases Entries.get? data name with
    | none => rfl
    | some content => simp [dataValue, hnotChange]
  cases layout with
  | event =>
    have hfirst := hsection "context" (by decide)
    have hsecond := hsection "environment" (by decide)
    simp only [change] at hchange
    simp only [Request.contextOf, Context.ofList, sections, change, List.map_cons, List.map_nil, hchange, hfirst,
      hsecond, contextEntries]
    refine Entries.ofList_of_perm ?_ (@List.perm_append_comm _ [_] _)
    show List.Pairwise (· < ·) ["context", "environment", "event"]
    decide
  | processState =>
    have hfirst := hsection "newProcessState" (by decide)
    have hsecond := hsection "environmentState" (by decide)
    simp only [change] at hchange
    simp only [Request.contextOf, Context.ofList, sections, change, List.map_cons, List.map_nil, hchange, hfirst,
      hsecond, contextEntries]
    refine Entries.ofList_of_perm ?_ ((List.Perm.swap _ _ _).cons _)
    show List.Pairwise (· < ·) ["delta", "environmentState", "processState"]
    decide

theorem nodup_changeFields (h : List.Forall₂ layout.Gives data parts) :
    ((layout.changeFields data).map (layout.changeField? ·.1)).Nodup := by
  unfold changeFields
  induction h with
  | nil => exact List.nodup_nil
  | @cons entry part data parts hfirst _ ih =>
    rw [Entries.get?_cons]
    by_cases hname : entry.1 = layout.change
    · obtain ⟨name, content⟩ := entry
      obtain ⟨partName, part⟩ := part
      obtain rfl : name = layout.change := hname
      obtain rfl : partName = layout.change := hfirst.1
      obtain ⟨value, -, hchanges⟩ := gives_change_iff.mp hfirst
      rw [if_pos rfl]
      rcases hchanges with ⟨rfl, -⟩ | ⟨fields, rfl, honce, -⟩
      · exact List.nodup_nil
      · exact honce
    · rw [if_neg hname]
      exact ih

end

end Layout

end Rulebook
