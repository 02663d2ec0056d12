/-
  Rulebook.Proofs.Request.Strays — names that are none of the layout's.

  A request has no names but those of its layout: another one at the top is refused. The
  change in it is not as strict. What stands there under another name is a stray, and it
  leaves no trace: not in the context, and not in the answer. The payload of an event
  that is put in the delta of a process state is such a stray, and so is a field whose
  name is misspelt; the rules then see null where the data should be.
  - `parts_pruned`, `not_stray_pruned`: the parts of a request are those that are left
    without strays, and then there are none.
  - `straysPass_of_ofDocument`: in a body that is JSON every stray can be passed over.
  - `read_strays`: a body is read as though the strays of its change were not there.
  - `payloadBody_read`: a delta whose only data is a payload.
-/

import Rulebook.Proofs.Json.Skip
import Rulebook.Proofs.Request.Whole

namespace Rulebook

open Json (Content Tree Document Flaw Member)

namespace Layout

/-! ## The strays of a change -/

/-- What stands in the change of a request under a name that is none of its fields. -/
inductive Stray (layout : Layout) (members : List Member) (name : String) (tree : Tree) : Prop where
  | intro {fields : List Member} {ending : Option Flaw} (change : (.ok layout.change, .object fields ending) ∈ members)
    (field : (.ok name, tree) ∈ fields) (foreign : layout.changeField? name = none)

def StraysPass (layout : Layout) (members : List Member) : Prop :=
  ∀ name tree, layout.Stray members name tree → tree.skip = .ok ()

/-- Whether a member of a change is no stray: it is named for a field, or its name is broken. -/
def keeps (layout : Layout) (field : Member) : Bool :=
  match field.1 with
  | .ok name => (layout.changeField? name).isSome
  | .error _ => true

def prunedChange (layout : Layout) : Tree → Tree
  | .object fields ending => .object (fields.filter layout.keeps) ending
  | tree => tree

def pruned (layout : Layout) (member : Member) : Member :=
  (member.1, if member.1 = .ok layout.change then layout.prunedChange member.2 else member.2)

theorem keeps_eq (layout : Layout) (field : Member) : layout.keeps field = !layout.changeRecord.isStray field := by
  unfold keeps Json.Record.isStray
  cases field.1 with
  | error flaw => rfl
  | ok name => simp [← find?_changeRecord]

theorem isStray_changeRecord_iff {layout : Layout} {field : Member} :
    layout.changeRecord.isStray field = true ↔ ∃ name, field.1 = .ok name ∧ layout.changeField? name = none := by
  simp only [Json.Record.isStray_iff, ← find?_changeRecord, Option.map_eq_none_iff]

/-- A change is open. -/
theorem open_changeRecord (layout : Layout) : layout.changeRecord.closed = false := by
  cases layout with
  | event => rfl
  | processState => rfl

/-- Nothing is left to pass over when the strays are gone. -/
theorem not_stray_pruned (layout : Layout) (members : List Member) (name : String) (tree : Tree) :
    ¬ layout.Stray (members.map layout.pruned) name tree := by
  intro hstray
  obtain ⟨hchange, hfield, hforeign⟩ := hstray
  obtain ⟨⟨key, old⟩, -, heq⟩ := List.mem_map.mp hchange
  rw [pruned, Prod.mk.injEq] at heq
  obtain ⟨rfl, heq⟩ := heq
  rw [if_pos rfl] at heq
  cases old with
  | object fields ending =>
    obtain ⟨rfl, -⟩ := Tree.object.inj heq
    have hkept := (List.mem_filter.mp hfield).2
    simp [keeps, hforeign] at hkept
  | scalar s => cases heq
  | text s => cases heq
  | flawed flaw => cases heq
  | list items ending => cases heq

/-! ## The change -/

/-- A change is taken as though its strays were not there. -/
theorem takeChange_prunedChange {layout : Layout} {tree : Tree}
    (h : ∀ fields ending, tree = .object fields ending → ∀ name stray, (.ok name, stray) ∈ fields →
      layout.changeField? name = none → stray.skip = .ok ()) :
    Request.takeChange layout (layout.prunedChange tree) = Request.takeChange layout tree := by
  cases tree with
  | object fields ending =>
    have hfilter : fields.filter layout.keeps = fields.filter fun field => !layout.changeRecord.isStray field :=
      List.filter_congr fun field _ => layout.keeps_eq field
    have hskip : ∀ field ∈ fields, layout.changeRecord.isStray field = true → field.2.skip = .ok () := by
      rintro ⟨_, stray⟩ hfield hstray
      obtain ⟨name, rfl, hforeign⟩ := isStray_changeRecord_iff.mp hstray
      exact h fields ending rfl name stray hfield hforeign
    simp only [Request.takeChange, prunedChange, Tree.optional, Tree.record, hfilter,
      Json.Record.ofMembers_filter layout.open_changeRecord hskip]
  | scalar s => rfl
  | text s => rfl
  | flawed flaw => rfl
  | list items ending => rfl

/-- A change that is taken has no strays but those that can be passed over. -/
theorem skip_of_takeChange {layout : Layout} {fields : List Member} {ending : Option Flaw} {value : Value}
    (h : Request.takeChange layout (.object fields ending) = .ok value) {name : String} {stray : Tree}
    (hfield : (.ok name, stray) ∈ fields) (hforeign : layout.changeField? name = none) : stray.skip = .ok () := by
  obtain ⟨_, hoptional, -⟩ := bind_eq_ok_iff.mp h
  obtain ⟨_, hrecord, -⟩ := map_eq_ok_iff.mp hoptional
  obtain ⟨_, hmembers, -⟩ := bind_eq_ok_iff.mp hrecord
  exact Json.Record.skip_of_ofMembers layout.open_changeRecord hmembers hfield
    (isStray_changeRecord_iff.mpr ⟨name, rfl, hforeign⟩)

theorem takePart_change (layout : Layout) (tree : Tree) :
    Request.takePart layout layout.change tree = (Request.takeChange layout tree).map .data := by
  obtain ⟨hrules, htime, -⟩ := layout.sections_ne
  rw [Request.takePart, if_neg hrules, if_neg htime, if_pos rfl]

/-! ## Whole requests -/

/-- A part is taken from a member as it is without strays. -/
theorem takePart_pruned {layout : Layout} {members : List Member} (h : layout.StraysPass members) {member : Member}
    (hm : member ∈ members) {name : String} (hname : member.1 = .ok name) :
    Request.takePart layout name (layout.pruned member).2 = Request.takePart layout name member.2 := by
  obtain ⟨_, tree⟩ := member
  obtain rfl : _ = Except.ok name := hname
  by_cases hchange : name = layout.change
  · subst hchange
    have hskip : ∀ fields ending, tree = .object fields ending → ∀ name stray, (.ok name, stray) ∈ fields →
        layout.changeField? name = none → stray.skip = .ok () := by
      rintro fields ending rfl name stray hfield hforeign
      exact h name stray ⟨hm, hfield, hforeign⟩
    rw [pruned, if_pos rfl, takePart_change, takePart_change, takeChange_prunedChange hskip]
  · have hne : (Except.ok name : Json.Name) ≠ .ok layout.change := fun heq => hchange (Except.ok.inj heq)
    rw [pruned, if_neg hne]

/-- The parts of a request are those that it has without the strays of its change. -/
theorem parts_pruned {layout : Layout} {members : List Member} (h : layout.StraysPass members) (ending : Option Flaw)
    (rest : Option Json.Fault) :
    layout.parts ⟨.object (members.map layout.pruned) ending, rest⟩ = layout.parts ⟨.object members ending, rest⟩ := by
  have htake : ∀ member ∈ members, ∀ name field, member.1 = .ok name →
      layout.record.fields.find? (·.answers name) = some field →
        Request.takePart layout field.name (layout.pruned member).2 = Request.takePart layout field.name member.2 := by
    intro member hm name field hname hfind
    -- no field of a request has another name
    have hkey := layout.find?_record name
    rw [hfind, Option.map_some] at hkey
    split at hkey
    · rw [Option.some.inj hkey]
      exact takePart_pruned h hm hname
    · cases hkey
  have hnames : ∀ member ∈ members, (layout.pruned member).1 = member.1 := fun member _ => rfl
  have hmembers := Json.Record.ofMembers_map layout.closed_record hnames htake []
  simp only [parts, Document.decode, Tree.record, hmembers]

/-- A request that is read has no strays but those that can be passed over. -/
theorem straysPass_of_parts {layout : Layout} {document : Document} {members : List Member} {ending : Option Flaw}
    (hroot : document.root = .object members ending) {parts : Json.Taken Request.Part}
    (h : layout.parts document = .ok parts) : layout.StraysPass members := by
  intro name tree hstray
  obtain ⟨hchange, hfield, hforeign⟩ := hstray
  have htakes := takes_of_parts hroot h
  obtain ⟨⟨partName, part⟩, -, htake⟩ := exists_of_mem_right (List.Forall₂.flip htakes) hchange
  obtain ⟨hname, -, hpart⟩ := name_of_takes htake
  obtain rfl : layout.change = partName := Except.ok.inj hname
  rw [takePart_change] at hpart
  obtain ⟨value, hvalue, -⟩ := map_eq_ok_iff.mp hpart
  exact skip_of_takeChange hvalue hfield hforeign

/-- The strays of a document that is JSON throughout can be passed over. -/
theorem straysPass_of_ofDocument {layout : Layout} {document : Document} {members : List Member} {ending : Option Flaw}
    (hroot : document.root = .object members ending) {depth : Nat} {content : Content}
    (h : Content.ofDocument depth document = .ok content) : layout.StraysPass members := by
  intro name tree hstray
  obtain ⟨hchange, hfield, -⟩ := hstray
  obtain ⟨hobject, -⟩ := Document.decode_eq_ok_iff.mp h
  rw [hroot] at hobject
  cases Content.ofTree_eq_ok_iff.mp hobject with
  | object parts =>
    obtain ⟨⟨_, entry⟩, -, -, hentry⟩ := exists_of_mem_right (List.Forall₂.flip parts) hchange
    cases Content.ofTree_eq_ok_iff.mp hentry with
    | object parts =>
      obtain ⟨⟨_, content⟩, -, -, hcontent⟩ := exists_of_mem_right (List.Forall₂.flip parts) hfield
      exact Content.skip_of_ofTree hcontent

/-- A body without parts is refused as none of the layout. -/
theorem read_misfit {layout : Layout} {body : List UInt8} (h : ∀ parts, layout.parts (.ofBytes body) ≠ .ok parts) :
    ∃ fault, layout.read body = .error (.misfit layout fault) := by
  cases hparts : layout.parts (.ofBytes body) with
  | ok parts => exact absurd hparts (h parts)
  | error fault => exact ⟨fault, by rw [read, request, hparts]⟩

/-- A body that is an object is refused when a name in it is none of the layout's. In its change
    other names are no fault: the body has the outcome, be it a request or a fault, that it has
    without what stands under them, when there are none left. It is refused for their sake only where the text is so broken
    that they cannot be passed over, which is never so in a body that is JSON. -/
theorem read_strays (layout : Layout) (body : List UInt8) {members : List Member} {ending : Option Flaw}
    (hroot : (Document.ofBytes body).root = .object members ending) :
    (∀ name tree, (.ok name, tree) ∈ members → name ∉ layout.keys →
      ∃ fault, layout.read body = .error (.misfit layout fault)) ∧
    (layout.StraysPass members →
      layout.read body = layout.request ⟨.object (members.map layout.pruned) ending, (Document.ofBytes body).ending⟩) ∧
    (∀ name tree, ¬ layout.Stray (members.map layout.pruned) name tree) ∧
    (¬ layout.StraysPass members → ∃ fault, layout.read body = .error (.misfit layout fault)) ∧
    ∀ depth content, Content.ofDocument depth (.ofBytes body) = .ok content → layout.StraysPass members := by
  refine ⟨?_, ?_, layout.not_stray_pruned members, ?_, ?_⟩
  · intro name tree hm hforeign
    refine read_misfit fun parts hparts => ?_
    obtain ⟨key, hkey, hname⟩ := (names_of_parts hroot hparts).1 _ hm
    obtain rfl : name = key := Except.ok.inj hname
    exact hforeign hkey
  · intro hpass
    have hdocument : Document.ofBytes body = ⟨.object members ending, (Document.ofBytes body).ending⟩ := by
      rw [← hroot]
    rw [read, request, request, parts_pruned hpass, ← hdocument]
  · intro hblocked
    exact read_misfit fun parts hparts => hblocked (straysPass_of_parts hroot hparts)
  · intro depth content hcontent
    exact straysPass_of_ofDocument hroot hcontent

def misspeltBody : List UInt8 :=
  "\x7b\"rules\":[\"a\"],\"event\":\x7b\"contents\":[7],\"sender\":\"u\"\x7d,\"currentTime\":\"2024-05-01T10:00:00Z\"\x7d".toUTF8.toList

def misspeltMembers : List Member :=
  [(.ok "rules", .list [.text "a"] none),
    (.ok "event", .object [(.ok "contents", .list [.scalar (.number (.int 7))] none), (.ok "sender", .text "u")] none),
    (.ok "currentTime", .text "2024-05-01T10:00:00Z")]

/-- What stands under the misspelt name is a stray, and the body is read without it: the event has a
    sender and no payload. -/
theorem read_strays_misspelt :
    Layout.event.Stray misspeltMembers "contents" (.list [.scalar (.number (.int 7))] none) ∧
      Layout.event.read misspeltBody = .ok ⟨["a"], ⟨[("context", .null), ("environment", .null),
        ("event", .mapping [("payload", .null), ("sender", .string "u"), ("signers", .null)])]⟩, ⟨1714557600, 0, 0⟩⟩ := by
  have hdocument : Document.ofBytes misspeltBody = ⟨.object misspeltMembers none, none⟩ := by cbv
  have hroot : (Document.ofBytes misspeltBody).root = .object misspeltMembers none := by rw [hdocument]
  have hdata : Content.ofDocument Json.maxDepth (.ofBytes misspeltBody) = .ok (.object [("rules", .list [.text "a"]),
      ("event", .object [("contents", .list [.unsigned 7]), ("sender", .text "u")]),
      ("currentTime", .text "2024-05-01T10:00:00Z")]) := by
    rw [hdocument]
    cbv
  obtain ⟨-, hread, -, -, hpass⟩ := read_strays .event misspeltBody hroot
  refine ⟨⟨List.mem_cons_of_mem _ (List.mem_cons_self ..), List.mem_cons_self .., by decide⟩, ?_⟩
  rw [hread (hpass _ _ hdata), hdocument]
  cbv

def payloadBody : List UInt8 :=
  "\x7b\"rules\":[],\"delta\":\x7b\"payload\":1\x7d,\"currentTime\":\"2024-05-01T10:00:00Z\"\x7d".toUTF8.toList

def payloadMembers : List Member :=
  [(.ok "rules", .list [] none), (.ok "delta", .object [(.ok "payload", .scalar (.number (.int 1)))] none),
    (.ok "currentTime", .text "2024-05-01T10:00:00Z")]

/-- A payload is none of the fields of a delta, and a delta of nothing else is not refused: it is read as
    a delta without data. -/
theorem payloadBody_read :
    (Document.ofBytes payloadBody).root = .object payloadMembers none ∧
      Layout.processState.Stray payloadMembers "payload" (.scalar (.number (.int 1))) ∧
      Layout.processState.read payloadBody =
        .ok ⟨[], ⟨[("delta", .mapping [("content", .null), ("sender", .null), ("signers", .null)]),
          ("environmentState", .null), ("processState", .null)]⟩, ⟨1714557600, 0, 0⟩⟩ := by
  have hdocument : Document.ofBytes payloadBody = ⟨.object payloadMembers none, none⟩ := by cbv
  refine ⟨by rw [hdocument], ?_, ?_⟩
  · exact ⟨List.mem_cons_of_mem _ (List.mem_cons_self ..), List.mem_cons_self .., by decide⟩
  · rw [read, hdocument]
    cbv

end Layout

end Rulebook
