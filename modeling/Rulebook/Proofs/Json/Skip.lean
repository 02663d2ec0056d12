/-
  Rulebook.Proofs.Json.Skip — what a decoder passes over.

  A value that nobody asks for is not read, so it may be broken in places where a reader
  would stop. Whatever can be read can be passed over as well, however deep it is.
  - `Content.skip_of_ofTree`: data that can be gathered can be skipped.

  The strays of an object are the members that are no field of the record. A record that
  is open passes over them: it takes an object only if they can be skipped
  (`Record.skip_of_ofMembers`), and then as though they were not there
  (`Record.ofMembers_filter`). A record that is closed refuses them.
-/

import Rulebook.Proofs.Json.Content

namespace Rulebook.Json

/-! ## Skipping -/

namespace Tree

theorem skipItems_eq_ok {items : List Tree} (h : ∀ item ∈ items, item.skip = .ok ()) : skipItems items = .ok () := by
  induction items with
  | nil => rfl
  | cons item rest ih =>
    rw [skipItems, h item (by simp), ih fun other ho => h other (by simp [ho])]
    rfl

theorem skipMembers_eq_ok {members : List Member}
    (h : ∀ member ∈ members, (∃ name, member.1 = .ok name) ∧ member.2.skip = .ok ()) : skipMembers members = .ok () := by
  induction members with
  | nil => rfl
  | cons member rest ih =>
    obtain ⟨⟨name, hname⟩, hskip⟩ := h member (by simp)
    rw [skipMembers, hname, hskip, ih fun other ho => h other (by simp [ho])]
    rfl

end Tree

theorem Content.skip_of_ofTree {depth : Nat} {tree : Tree} {content : Content}
    (h : ofTree depth tree = .ok content) : tree.skip = .ok () := by
  induction tree generalizing depth content with
  | scalar s => rfl
  | text s => rfl
  | flawed flaw => cases h
  | list items ending ih =>
    cases ofTree_eq_ok_iff.mp h with
    | @list depth _ contents parts =>
      have hitems : ∀ item ∈ items, item.skip = .ok () := by
        intro item hi
        obtain ⟨content, -, hcontent⟩ := exists_of_mem_right (List.Forall₂.flip parts) hi
        exact ih item hi hcontent
      rw [Tree.skip, Tree.skipItems_eq_ok hitems]
      rfl
  | object members ending ih =>
    cases ofTree_eq_ok_iff.mp h with
    | @object depth _ entries parts =>
      have hmembers : ∀ member ∈ members, (∃ name, member.1 = .ok name) ∧ member.2.skip = .ok () := by
        intro member hm
        obtain ⟨entry, -, hname, hcontent⟩ := exists_of_mem_right (List.Forall₂.flip parts) hm
        exact ⟨⟨entry.1, hname⟩, ih member hm hcontent⟩
      rw [Tree.skip, Tree.skipMembers_eq_ok hmembers]
      rfl

/-! ## Strays -/

variable {α : Type} {record : Record} {take : String → Tree → Except Fault α}

/-- Whether a member stands for no field of a record, under a name that can be read. -/
def Record.isStray (record : Record) (member : Member) : Bool :=
  match member.1 with
  | .ok name => (record.fields.find? (·.answers name)).isNone
  | .error _ => false

theorem Record.isStray_iff {member : Member} :
    record.isStray member = true ↔ ∃ name, member.1 = .ok name ∧ record.fields.find? (·.answers name) = none := by
  unfold Record.isStray
  cases member.1 with
  | error flaw => simp
  | ok name => simp

/-- An open record that is taken has passed over all strays. -/
theorem Record.skip_of_ofMembers (hopen : record.closed = false) {members : List Member} {taken result : Taken α}
    (h : record.ofMembers take taken members = .ok result) {member : Member} (hm : member ∈ members)
    (hstray : record.isStray member = true) : member.2.skip = .ok () := by
  induction members generalizing taken with
  | nil => cases hm
  | cons first rest ih =>
    rw [Record.ofMembers] at h
    obtain ⟨name, hname, h⟩ := bind_eq_ok_iff.mp h
    cases hfind : record.fields.find? (·.answers name) with
    | some field =>
      -- a field is no stray, so the stray stands behind it
      have hne : member ≠ first := by
        rintro rfl
        obtain ⟨name', hname', hnone⟩ := Record.isStray_iff.mp hstray
        rw [hname'] at hname
        obtain rfl : name' = name := Except.ok.inj hname
        rw [hfind] at hnone
        cases hnone
      have hrest : member ∈ rest := (List.mem_cons.mp hm).resolve_left hne
      simp only [hfind] at h
      split at h
      · cases h
      · obtain ⟨-, -, h⟩ := bind_eq_ok_iff.mp h
        obtain ⟨value, -, h⟩ := bind_eq_ok_iff.mp h
        exact ih h hrest
    | none =>
      simp only [hfind, hopen, Bool.false_eq_true, if_false] at h
      obtain ⟨_, hskip, h⟩ := bind_eq_ok_iff.mp h
      rcases List.mem_cons.mp hm with rfl | hm
      · exact hskip
      · exact ih h hm

/-- An open record is taken from an object as though its strays were not there, if they can be skipped. -/
theorem Record.ofMembers_filter (hopen : record.closed = false) {members : List Member}
    (h : ∀ member ∈ members, record.isStray member = true → member.2.skip = .ok ()) (taken : Taken α) :
    record.ofMembers take taken (members.filter fun member => !record.isStray member) =
      record.ofMembers take taken members := by
  induction members generalizing taken with
  | nil => rfl
  | cons member rest ih =>
    have ih := ih fun other ho => h other (by simp [ho])
    by_cases hstray : record.isStray member = true
    · have hskip := h member (by simp) hstray
      obtain ⟨name, hname, hnone⟩ := Record.isStray_iff.mp hstray
      have hcons : record.ofMembers take taken (member :: rest) = record.ofMembers take taken rest := by
        rw [Record.ofMembers, hname, hskip]
        simp only [Name.read, bind, Except.bind, hnone, hopen, Bool.false_eq_true, if_false]
      rw [List.filter_cons_of_neg (by simp [hstray]), ih, hcons]
    · rw [List.filter_cons_of_pos (by simp [hstray])]
      simp only [Record.ofMembers, ih]

/-- A closed record looks at nothing but the names and what it takes under them. -/
theorem Record.ofMembers_map (hclosed : record.closed = true) {change : Member → Member} {members : List Member}
    (hname : ∀ member ∈ members, (change member).1 = member.1)
    (htake : ∀ member ∈ members, ∀ name field, member.1 = .ok name → record.fields.find? (·.answers name) = some field →
      take field.name (change member).2 = take field.name member.2) (taken : Taken α) :
    record.ofMembers take taken (members.map change) = record.ofMembers take taken members := by
  induction members generalizing taken with
  | nil => rfl
  | cons member rest ih =>
    have ih := ih (fun other ho => hname other (by simp [ho])) fun other ho => htake other (by simp [ho])
    rw [List.map_cons, Record.ofMembers, Record.ofMembers, hname member (by simp)]
    cases hm : member.1 with
    | error flaw => rfl
    | ok name =>
      cases hfind : record.fields.find? (·.answers name) with
      | none => simp only [Name.read, bind, Except.bind, hfind, hclosed, if_true, throw, throwThe, MonadExceptOf.throw]
      | some field =>
        have hsame := htake member (by simp) name field hm hfind
        simp only [Name.read, bind, Except.bind, hfind, hsame, ih]

end Rulebook.Json
