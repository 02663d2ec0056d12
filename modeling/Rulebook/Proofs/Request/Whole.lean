/-
  Rulebook.Proofs.Request.Whole — which bodies are requests of a layout, and what they ask for.

  A body that is an object is a request when it is JSON throughout, all its names are
  names of the layout and stand once, the change names each of its fields once, the
  rules are a list of texts and the time is a text that can be read.
  - `read_eq_ok_iff_fits`: such a body is read when it fits the layout, and only then; the
    request is the one that its data describes.

  The layouts share no names but those of the rules and the time, so an object that both
  of them read has no other members and carries no data (`empty_of_read_both`). A list has
  no names: its items stand for the fields in order, and both layouts read it
  (`listBody_read_both`).
-/

import Mathlib
import Rulebook.Proofs.Request.Parts

namespace Rulebook

open Json (Content Tree Document Flaw Taken Member)
open Rulebook.Time (Timestamp)

namespace Layout

/-! ## Whole requests -/

/-- Data that fits a layout gives all parts of a request. -/
theorem Fits.exists_gives {layout : Layout} {data : List (String × Content)} (h : layout.Fits data)
    (hchange : ∀ content, (layout.change, content) ∈ data → content = .null ∨ ∃ fields, content = .object fields) :
    ∃ parts, List.Forall₂ layout.Gives data parts := by
  obtain ⟨rules, hrules⟩ := h.rules
  obtain ⟨text, time, htext, -⟩ := h.time
  refine exists_forall₂ fun entry he => ?_
  obtain ⟨name, content⟩ := entry
  rcases mem_keys_iff.mp (h.known _ he) with hname | hname | hname | hsection
  · subst hname
    obtain rfl := Entries.eq_of_mem h.once hrules he
    exact ⟨("rules", .rules (some rules)), gives_rules_iff.mpr ⟨some rules, rfl, rfl⟩⟩
  · subst hname
    obtain rfl := Entries.eq_of_mem h.once htext he
    exact ⟨("currentTime", .time (some text)), gives_time_iff.mpr ⟨some text, rfl, rfl⟩⟩
  · subst hname
    have hfields := h.fieldsOnce
    rw [changeFields, Entries.get?_of_mem h.once he] at hfields
    rcases hchange content he with rfl | ⟨fields, rfl⟩
    · exact ⟨(layout.change, .data _), gives_change_iff.mpr ⟨_, rfl, Or.inl ⟨rfl, rfl⟩⟩⟩
    · exact ⟨(layout.change, .data _), gives_change_iff.mpr ⟨_, rfl, Or.inr ⟨fields, rfl, hfields, rfl⟩⟩⟩
  · exact ⟨(name, .data _), (gives_section_iff hsection).mpr rfl⟩

/-- A body is read as a request when its parts are, the rules and the time are among them, and the time can be read. -/
theorem read_eq_ok_iff {layout : Layout} {body : List UInt8} {request : Request} :
    layout.read body = .ok request ↔
      ∃ parts text, layout.parts (.ofBytes body) = .ok parts ∧ Request.rules? parts = some request.rules ∧
        Request.time? parts = some text ∧ Timestamp.read text.toList = .ok request.time ∧
          request.context = Request.contextOf layout parts := by
  obtain ⟨rules, context, time⟩ := request
  unfold Layout.read Layout.request
  cases hparts : layout.parts (.ofBytes body) with
  | error fault => simp
  | ok parts =>
    cases hrules : Request.rules? parts with
    | none => simp [hrules]
    | some found =>
      cases htime : Request.time? parts with
      | none => simp [hrules, htime]
      | some text =>
        cases hread : Timestamp.read text.toList with
        | error fault => simp [hrules, htime, hread]
        | ok read =>
          simp only [hrules, htime, hread, Except.ok.injEq, Request.mk.injEq]
          constructor
          · rintro ⟨rfl, rfl, rfl⟩
            exact ⟨parts, text, rfl, hrules, htime, hread, rfl⟩
          · rintro ⟨_, _, rfl, hrules', htime', hread', rfl⟩
            rw [hrules] at hrules'
            rw [htime] at htime'
            cases hrules'
            cases htime'
            rw [hread] at hread'
            cases hread'
            exact ⟨rfl, rfl, rfl⟩

/-- An object that fits a layout is read as the request that its data describes, and no other object is read. -/
theorem read_eq_ok_iff_describes {layout : Layout} {body : List UInt8} {members : List Member} {ending : Option Flaw}
    (hroot : (Document.ofBytes body).root = .object members ending)
    (hchange : ∀ member ∈ members, member.1 = .ok layout.change → layout.IsChange member.2) {request : Request} :
    layout.read body = .ok request ↔
      ∃ data, Content.ofDocument Json.maxDepth (.ofBytes body) = .ok (.object data) ∧ layout.Fits data ∧
        layout.Describes data request := by
  rw [read_eq_ok_iff]
  simp only [parts_eq_ok_iff hroot hchange]
  constructor
  · rintro ⟨parts, text, ⟨data, hdata, hknown, honce, hgives⟩, hrules, htime, hread, hcontext⟩
    rw [rules?_eq_some_iff honce hgives] at hrules
    rw [time?_eq_some_iff honce hgives] at htime
    have hfits : layout.Fits data :=
      ⟨hknown, honce, nodup_changeFields hgives, ⟨_, hrules⟩, ⟨text, _, htime, hread⟩⟩
    exact ⟨data, hdata, hfits, hrules, ⟨text, htime, hread⟩, by rw [hcontext, contextOf_eq hgives]⟩
  · rintro ⟨data, hdata, hfits, hrules, ⟨text, htime, hread⟩, hcontext⟩
    have hshape : ∀ content, (layout.change, content) ∈ data →
        content = .null ∨ ∃ fields, content = .object fields := by
      intro content hc
      obtain ⟨hobject, -⟩ := Document.decode_eq_ok_iff.mp hdata
      rw [hroot] at hobject
      obtain ⟨-, data', heq, hgathered⟩ := (@Content.ofTree_object_eq_ok_iff Request.sectionDepth ..).mp hobject
      obtain rfl := Content.object.inj heq
      obtain ⟨member, hm, hname, hcontent⟩ := exists_of_mem_right hgathered hc
      exact (hchange member hm hname).shape hcontent
    obtain ⟨parts, hgives⟩ := hfits.exists_gives hshape
    refine ⟨parts, text, ⟨data, hdata, hfits.known, hfits.once, hgives⟩,
      (rules?_eq_some_iff hfits.once hgives _).mpr hrules, (time?_eq_some_iff hfits.once hgives _).mpr htime, hread, ?_⟩
    obtain ⟨rules, ⟨entries⟩, time⟩ := request
    exact congrArg Context.mk (hcontext.trans (contextOf_eq hgives).symm)

/-- A body that is an object, with nothing in its change but the fields of a change, is read as a
    request of a layout when it is JSON that fits the layout, and only then. The rules, the time
    and the context of the request are those that its data describes. -/
theorem read_eq_ok_iff_fits (layout : Layout) (body : List UInt8) {members : List Member} {ending : Option Flaw}
    (hroot : (Document.ofBytes body).root = .object members ending)
    (hchange : ∀ member ∈ members, member.1 = .ok layout.change → layout.IsChange member.2) :
    ((∃ request, layout.read body = .ok request) ↔
      ∃ data, Content.ofDocument Json.maxDepth (.ofBytes body) = .ok (.object data) ∧ layout.Fits data) ∧
    ∀ request, layout.read body = .ok request →
      ∃ data, Content.ofDocument Json.maxDepth (.ofBytes body) = .ok (.object data) ∧
        layout.Describes data request := by
  have hread := fun request => @read_eq_ok_iff_describes layout body members ending hroot hchange request
  refine ⟨⟨?_, ?_⟩, ?_⟩
  · rintro ⟨request, hrequest⟩
    obtain ⟨data, hdata, hfits, -⟩ := (hread request).mp hrequest
    exact ⟨data, hdata, hfits⟩
  · rintro ⟨data, hdata, hfits⟩
    obtain ⟨rules, hrules⟩ := hfits.rules
    obtain ⟨text, time, htext, htime⟩ := hfits.time
    exact ⟨⟨rules, ⟨layout.contextEntries data⟩, time⟩,
      (hread _).mpr ⟨data, hdata, hfits, hrules, ⟨text, htext, htime⟩, rfl⟩⟩
  · intro request hrequest
    obtain ⟨data, hdata, -, hdescribes⟩ := (hread request).mp hrequest
    exact ⟨data, hdata, hdescribes⟩

def eventBody : List UInt8 :=
  "\x7b\"rules\":[\"a\"],\"event\":\x7b\"content\":7,\"sender\":null\x7d,\"currentTime\":\"2024-05-01T10:00:00Z\"\x7d".toUTF8.toList

def eventMembers : List Member :=
  [(.ok "rules", .list [.text "a"] none),
    (.ok "event", .object [(.ok "content", .scalar (.number (.int 7))), (.ok "sender", .scalar .null)] none),
    (.ok "currentTime", .text "2024-05-01T10:00:00Z")]

def eventData : List (String × Content) :=
  [("rules", .list [.text "a"]), ("event", .object [("content", .unsigned 7), ("sender", .null)]),
    ("currentTime", .text "2024-05-01T10:00:00Z")]

/-- A body with a content in its event is read, and the content is the payload of the event. -/
theorem read_eq_ok_iff_fits_eventBody :
    (∃ request, Layout.event.read eventBody = .ok request) ∧
    ∀ request, Layout.event.read eventBody = .ok request →
      request.rules = ["a"] ∧
      request.context.entries = [("context", .null), ("environment", .null),
        ("event", .mapping [("payload", .int 7), ("sender", .null), ("signers", .null)])] := by
  have hdocument : Document.ofBytes eventBody = ⟨.object eventMembers none, none⟩ := by cbv
  have hroot : (Document.ofBytes eventBody).root = .object eventMembers none := by rw [hdocument]
  have hdata : Content.ofDocument Json.maxDepth (.ofBytes eventBody) = .ok (.object eventData) := by
    rw [hdocument]
    cbv
  have hchange : ∀ member ∈ eventMembers, member.1 = .ok Layout.event.change → Layout.event.IsChange member.2 := by
    intro member hm hname
    simp only [eventMembers, List.mem_cons, List.not_mem_nil, or_false] at hm
    rcases hm with rfl | rfl | rfl
    · simp [change] at hname
    · intro field hf name hfield
      simp only [List.mem_cons, List.not_mem_nil, or_false] at hf
      rcases hf with rfl | rfl
      · cases hfield
        decide
      · cases hfield
        decide
    · simp [change] at hname
  have hfits : Layout.event.Fits eventData :=
    { known := by decide
      once := by decide
      fieldsOnce := by decide
      rules := ⟨["a"], by simp [eventData]⟩
      time := ⟨"2024-05-01T10:00:00Z", ⟨1714557600, 0, 0⟩, by simp [eventData], by cbv⟩ }
  obtain ⟨haccepts, hdescribes⟩ := read_eq_ok_iff_fits .event eventBody hroot hchange
  refine ⟨haccepts.mpr ⟨eventData, hdata, hfits⟩, fun request hrequest => ?_⟩
  obtain ⟨data, hdata', hrules, -, hcontext⟩ := hdescribes request hrequest
  obtain rfl : eventData = data := Content.object.inj (Except.ok.inj (hdata.symm.trans hdata'))
  exact ⟨by simpa [eventData] using hrules, by rw [hcontext]; rfl⟩

/-! ## Both layouts -/

/-- Parts that are no sections leave the context without data. -/
theorem contextOf_eq_nil {layout : Layout} {parts : Taken Request.Part}
    (h : ∀ part ∈ parts, part.1 = "rules" ∨ part.1 = "currentTime") :
    (Request.contextOf layout parts).entries = layout.contextEntries [] := by
  obtain ⟨hrules, htime, hsections⟩ := layout.sections_ne
  have hnone : ∀ name, name ≠ "rules" → name ≠ "currentTime" → Request.section? parts name = none := by
    intro name hnotRules hnotTime
    unfold Request.section?
    rw [List.findSome?_eq_none_iff]
    intro part hp
    have hne : part.1 ≠ name := by
      rintro rfl
      rcases h part hp with heq | heq
      · exact hnotRules heq
      · exact hnotTime heq
    split
    · rw [if_neg hne]
    · rfl
  have hmap : (layout.sections.map fun names => (names.2, (Request.section? parts names.1).getD .null)) =
      layout.sections.map fun names => (names.2, (Request.section? [] names.1).getD .null) := by
    refine List.map_congr_left fun names hnames => ?_
    obtain ⟨hnotRules, hnotTime, -⟩ := hsections names.1 (List.mem_map_of_mem hnames)
    rw [hnone names.1 hnotRules hnotTime]
    rfl
  have hempty : Request.contextOf layout parts = Request.contextOf layout [] := by
    unfold Request.contextOf
    rw [hmap, hnone layout.change hrules htime]
    rfl
  rw [hempty]
  exact contextOf_eq .nil

/-- The parts of an object that is read are taken from its members one by one. -/
theorem takes_of_parts {layout : Layout} {document : Document} {members : List Member} {ending : Option Flaw}
    (hroot : document.root = .object members ending) {parts : Taken Request.Part}
    (h : layout.parts document = .ok parts) :
    List.Forall₂ (layout.record.Takes (Request.takePart layout)) members parts := by
  obtain ⟨htaken, -⟩ := Document.decode_eq_ok_iff.mp h
  rw [hroot, Json.Tree.record_object_eq_ok_iff (Or.inl layout.closed_record)] at htaken
  obtain ⟨-, htakes, -⟩ := htaken
  exact htakes

/-- The names of an object that is read are of the layout, and its parts stand under them. -/
theorem names_of_parts {layout : Layout} {document : Document} {members : List Member} {ending : Option Flaw}
    (hroot : document.root = .object members ending) {parts : Taken Request.Part}
    (h : layout.parts document = .ok parts) :
    (∀ member ∈ members, ∃ name ∈ layout.keys, member.1 = .ok name) ∧
      ∀ part ∈ parts, ∃ member ∈ members, member.1 = .ok part.1 := by
  have htakes := takes_of_parts hroot h
  constructor
  · intro member hm
    obtain ⟨part, -, htake⟩ := exists_of_mem_right (List.Forall₂.flip htakes) hm
    obtain ⟨hname, hkey, -⟩ := name_of_takes htake
    exact ⟨part.1, hkey, hname⟩
  · intro part hp
    obtain ⟨member, hm, htake⟩ := exists_of_mem_right htakes hp
    exact ⟨member, hm, (name_of_takes htake).1⟩

/-- A body that is read is a list or an object. -/
theorem root_of_parts {layout : Layout} {document : Document} {parts : Taken Request.Part}
    (h : layout.parts document = .ok parts) :
    (∃ items ending, document.root = .list items ending) ∨ ∃ members ending, document.root = .object members ending := by
  obtain ⟨htaken, -⟩ := Document.decode_eq_ok_iff.mp h
  cases hroot : document.root with
  | list items ending => exact Or.inl ⟨items, ending, rfl⟩
  | object members ending => exact Or.inr ⟨members, ending, rfl⟩
  | scalar s =>
    rw [hroot] at htaken
    exact absurd htaken (Json.Tree.mismatch_ne_ok _ _ _)
  | text s =>
    rw [hroot] at htaken
    exact absurd htaken (Json.Tree.mismatch_ne_ok _ _ _)
  | flawed flaw =>
    rw [hroot] at htaken
    exact absurd htaken (Json.Tree.mismatch_ne_ok _ _ _)

/-- What an object carries besides the rules and the time is read in one layout only: a body that is
    read in both and is not a list has no members but these, and carries no data in either. -/
theorem empty_of_read_both {body : List UInt8} (hlist : ∀ items ending, (Document.ofBytes body).root ≠ .list items ending)
    {event state : Request} (hevent : Layout.event.read body = .ok event)
    (hstate : Layout.processState.read body = .ok state) :
    (∃ members ending, (Document.ofBytes body).root = .object members ending ∧
        ∀ member ∈ members, member.1 = .ok "rules" ∨ member.1 = .ok "currentTime") ∧
      event.context.entries = [("context", .null), ("environment", .null),
        ("event", .mapping [("payload", .null), ("sender", .null), ("signers", .null)])] ∧
      state.context.entries = [("delta", .mapping [("content", .null), ("sender", .null), ("signers", .null)]),
        ("environmentState", .null), ("processState", .null)] := by
  obtain ⟨eventParts, -, heventParts, -, -, -, heventContext⟩ := read_eq_ok_iff.mp hevent
  obtain ⟨stateParts, -, hstateParts, -, -, -, hstateContext⟩ := read_eq_ok_iff.mp hstate
  obtain ⟨members, ending, hroot⟩ : ∃ members ending, (Document.ofBytes body).root = .object members ending := by
    rcases root_of_parts heventParts with ⟨items, ending, hroot⟩ | hobject
    · exact absurd hroot (hlist items ending)
    · exact hobject
  obtain ⟨heventKeys, heventNames⟩ := names_of_parts hroot heventParts
  obtain ⟨hstateKeys, hstateNames⟩ := names_of_parts hroot hstateParts
  -- a name of both layouts is that of the rules or of the time
  have hshared : ∀ name, name ∈ Layout.event.keys → name ∈ Layout.processState.keys →
      name = "rules" ∨ name = "currentTime" := by
    intro name he hs
    simp only [keys, List.mem_cons, List.not_mem_nil, or_false] at he hs
    rcases he with rfl | rfl | rfl | rfl | rfl
    · exact Or.inl rfl
    · simp at hs
    · simp at hs
    · simp at hs
    · exact Or.inr rfl
  have hmember : ∀ member ∈ members, member.1 = .ok "rules" ∨ member.1 = .ok "currentTime" := by
    intro member hm
    obtain ⟨eventName, he, heventName⟩ := heventKeys member hm
    obtain ⟨stateName, hs, hstateName⟩ := hstateKeys member hm
    obtain rfl : eventName = stateName := Except.ok.inj (heventName.symm.trans hstateName)
    rw [heventName]
    exact (hshared eventName he hs).imp (congrArg Except.ok) (congrArg Except.ok)
  have honly : ∀ name, (∃ member ∈ members, member.1 = .ok name) → name = "rules" ∨ name = "currentTime" := by
    rintro name ⟨member, hm, hname⟩
    exact (hmember member hm).imp (fun h => Except.ok.inj (hname.symm.trans h)) (fun h => Except.ok.inj (hname.symm.trans h))
  refine ⟨⟨members, ending, hroot, hmember⟩, ?_⟩
  rw [heventContext, hstateContext, contextOf_eq_nil fun part hp => honly part.1 (heventNames part hp),
    contextOf_eq_nil fun part hp => honly part.1 (hstateNames part hp)]
  exact ⟨rfl, rfl⟩

def bareBody : List UInt8 := "\x7b\"rules\":[],\"currentTime\":\"2024-05-01T10:00:00Z\"\x7d".toUTF8.toList

/-- The rules and the time alone are read in both layouts, without data. -/
theorem empty_of_read_both_bareBody :
    ∃ event state, Layout.event.read bareBody = .ok event ∧ Layout.processState.read bareBody = .ok state ∧
      event.context.entries = [("context", .null), ("environment", .null),
        ("event", .mapping [("payload", .null), ("sender", .null), ("signers", .null)])] ∧
      state.context.entries = [("delta", .mapping [("content", .null), ("sender", .null), ("signers", .null)]),
        ("environmentState", .null), ("processState", .null)] := by
  have hdocument : Document.ofBytes bareBody =
      ⟨.object [(.ok "rules", .list [] none), (.ok "currentTime", .text "2024-05-01T10:00:00Z")] none, none⟩ := by cbv
  have hevent : Layout.event.read bareBody = .ok ⟨[], Request.contextOf .event [], ⟨1714557600, 0, 0⟩⟩ := by
    rw [Layout.read, hdocument]
    cbv
  have hstate : Layout.processState.read bareBody =
      .ok ⟨[], Request.contextOf .processState [], ⟨1714557600, 0, 0⟩⟩ := by
    rw [Layout.read, hdocument]
    cbv
  have hlist : ∀ items ending, (Document.ofBytes bareBody).root ≠ .list items ending := by
    intro items ending h
    rw [hdocument] at h
    cases h
  exact ⟨_, _, hevent, hstate, (empty_of_read_both hlist hevent hstate).2⟩

/-- A body that is a list: no rules, an object and a time at the places of the fields. -/
def listBody : List UInt8 := "[[],\x7b\"id\":1\x7d,null,null,\"2024-05-01T10:00:00Z\"]".toUTF8.toList

/-- A list is read in both layouts, and its data is the context in one and the process state in the other. -/
theorem listBody_read_both :
    Layout.event.read listBody =
      .ok ⟨[], ⟨[("context", .mapping [("id", .int 1)]), ("environment", .null),
        ("event", .mapping [("payload", .null), ("sender", .null), ("signers", .null)])]⟩, ⟨1714557600, 0, 0⟩⟩ ∧
    Layout.processState.read listBody =
      .ok ⟨[], ⟨[("delta", .mapping [("content", .null), ("sender", .null), ("signers", .null)]),
        ("environmentState", .null), ("processState", .mapping [("id", .int 1)])]⟩, ⟨1714557600, 0, 0⟩⟩ := by
  constructor
  · cbv
  · cbv

end Layout

end Rulebook
