/-
  Rulebook.Proofs.Json.Decode — what a decoder takes, and when.

  A decoder goes on only as long as every step succeeds, so what it takes can be told from
  what stands in the tree. An object is taken as a record when every name in it is that of a
  field, no field stands twice, and the value of each is taken.
  - `Document.decode_eq_ok_iff`: a document is taken when its root is and nothing follows.
  - `Record.ofMembers_eq_ok_iff`: the parts of a record from the members of an object.
-/

import Rulebook.Json.Decode
import Rulebook.Proofs.Steps

namespace Rulebook.Json

/-! ## Documents -/

theorem ended_eq_ok_iff {ending : Option Flaw} {done : Unit} : ended ending = .ok done ↔ ending = none := by
  cases ending with
  | none => simp [ended]
  | some flaw => simp [ended]

theorem Document.decode_eq_ok_iff {α : Type} {document : Document} {take : Tree → Except Fault α} {a : α} :
    document.decode take = .ok a ↔ take document.root = .ok a ∧ document.ending = none := by
  unfold Document.decode
  cases document.ending with
  | none => simp [bind_eq_ok_iff, pure, Except.pure]
  | some fault => simp [bind_eq_ok_iff, throw, throwThe, MonadExceptOf.throw]

/-! ## Shapes -/

theorem Tree.mismatch_ne_ok {α : Type} (tree : Tree) (expected : String) (a : α) : tree.mismatch expected ≠ .ok a := by
  unfold Tree.mismatch
  intro h
  obtain ⟨found, -, hthrow⟩ := bind_eq_ok_iff.mp h
  cases hthrow

theorem Tree.string_eq_ok_iff {tree : Tree} {s : String} : tree.string = .ok s ↔ tree = .text s := by
  unfold Tree.string
  split
  · simp
  · rename_i hne
    constructor
    · intro h
      exact absurd h (tree.mismatch_ne_ok _ _)
    · intro h
      exact absurd h (hne s)

theorem Tree.items_eq_ok_iff {α : Type} {item : Tree → Except Fault α} {tree : Tree} {items : List α} :
    tree.items item = .ok items ↔
      ∃ trees, tree = .list trees none ∧ List.Forall₂ (fun tree a => item tree = .ok a) trees items := by
  unfold Tree.items
  split
  · rename_i trees ending
    simp only [bind_eq_ok_iff, mapM_eq_ok_iff, ended_eq_ok_iff, pure, Except.pure, Except.ok.injEq, Tree.list.injEq]
    constructor
    · rintro ⟨as, has, -, rfl, rfl⟩
      exact ⟨trees, ⟨rfl, rfl⟩, has⟩
    · rintro ⟨_, ⟨rfl, rfl⟩, has⟩
      exact ⟨items, has, (), rfl, rfl⟩
  · rename_i hne
    constructor
    · intro h
      exact absurd h (tree.mismatch_ne_ok _ _)
    · rintro ⟨trees, rfl, -⟩
      exact absurd rfl (hne trees none)

theorem Tree.optional_eq_ok_iff {α : Type} {present : Tree → Except Fault α} {tree : Tree} {found : Option α} :
    tree.optional present = .ok found ↔
      tree = .scalar .null ∧ found = none ∨
        tree ≠ .scalar .null ∧ ∃ a, present tree = .ok a ∧ found = some a := by
  unfold Tree.optional
  split
  · simp [eq_comm]
  · rename_i hne
    have hnull : tree ≠ .scalar .null := fun h => hne h
    simp only [map_eq_ok_iff, hnull, false_and, false_or, ne_eq, not_false_eq_true, true_and]
    constructor
    · rintro ⟨a, ha, rfl⟩
      exact ⟨a, ha, rfl⟩
    · rintro ⟨a, ha, rfl⟩
      exact ⟨a, ha, rfl⟩

/-! ## Records -/

variable {α : Type}

/-- A member is taken as a part: as the field that answers to its name, with what is taken there. -/
def Record.Takes (record : Record) (take : String → Tree → Except Fault α) (member : Member) (part : String × α) : Prop :=
  ∃ name field, member.1 = .ok name ∧ record.fields.find? (·.answers name) = some field ∧
    part.1 = field.name ∧ take field.name member.2 = .ok part.2

def Record.Knows (record : Record) (members : List Member) : Prop :=
  ∀ member ∈ members, ∀ name, member.1 = .ok name → (record.fields.find? (·.answers name)).isSome = true

/-- The first member of an object is taken as a part, which stands for no field that is taken before, and so is the rest. -/
theorem Record.ofMembers_cons_eq_ok_iff {record : Record} {take : String → Tree → Except Fault α} {member : Member}
    (h : record.closed = true ∨ record.Knows [member]) {taken result : Taken α} {rest : List Member} :
    record.ofMembers take taken (member :: rest) = .ok result ↔
      ∃ part, record.Takes take member part ∧ part.1 ∉ taken.map Prod.fst ∧
        record.ofMembers take (taken ++ [part]) rest = .ok result := by
  have hany : ∀ name : String, taken.any (·.1 == name) = true ↔ name ∈ taken.map Prod.fst := by
    intro name
    simp [List.any_eq_true]
  rw [Record.ofMembers, bind_eq_ok_iff]
  constructor
  · rintro ⟨name, hname, hrest⟩
    have hok : member.1 = .ok name := by
      cases hm : member.1 with
      | error flaw => simp [Name.read, hm] at hname
      | ok name' => simpa [Name.read, hm] using hname
    cases hfield : record.fields.find? (·.answers name) with
    | none =>
      rcases h with hclosed | hknows
      · simp [hfield, hclosed, throw, throwThe, MonadExceptOf.throw, bind, Except.bind] at hrest
      · simpa [hfield] using hknows member (by simp) name hok
    | some field =>
      by_cases htaken : taken.any (·.1 == field.name) = true
      · simp [hfield, htaken, throw, throwThe, MonadExceptOf.throw, bind, Except.bind] at hrest
      · simp only [hfield, htaken, Bool.false_eq_true, if_false, bind_eq_ok_iff] at hrest
        obtain ⟨a, ha, hmore⟩ := hrest
        exact ⟨(field.name, a), ⟨name, field, hok, hfield, rfl, ha⟩, fun hmem => htaken ((hany _).mpr hmem), hmore⟩
  · rintro ⟨⟨fieldName, a⟩, ⟨name, field, hok, hfield, rfl, ha⟩, hnew, hmore⟩
    have htaken : taken.any (·.1 == field.name) = false := by
      rw [← Bool.not_eq_true, hany]
      exact hnew
    refine ⟨name, by rw [hok]; rfl, ?_⟩
    simp only [hfield, htaken, Bool.false_eq_true, if_false, bind_eq_ok_iff]
    exact ⟨a, ha, hmore⟩

/-- The members of an object are taken as parts one by one, no two of them for one field. -/
theorem Record.ofMembers_eq_ok_iff {record : Record} {take : String → Tree → Except Fault α} {members : List Member}
    (h : record.closed = true ∨ record.Knows members) {taken result : Taken α} :
    record.ofMembers take taken members = .ok result ↔
      ∃ parts, List.Forall₂ (record.Takes take) members parts ∧ (parts.map Prod.fst).Nodup ∧
        (∀ part ∈ parts, part.1 ∉ taken.map Prod.fst) ∧ result = taken ++ parts := by
  induction members generalizing taken with
  | nil => simp [Record.ofMembers, eq_comm]
  | cons member rest ih =>
    have hfirst : record.closed = true ∨ record.Knows [member] :=
      h.imp_right fun hknows other ho => hknows other (by simp_all)
    have hothers : record.closed = true ∨ record.Knows rest :=
      h.imp_right fun hknows other ho => hknows other (by simp [ho])
    rw [Record.ofMembers_cons_eq_ok_iff hfirst]
    simp only [ih hothers, List.forall₂_cons_left_iff]
    constructor
    · rintro ⟨part, htakes, hnew, parts, hparts, hnodup, hfresh, rfl⟩
      refine ⟨part :: parts, ⟨part, parts, htakes, hparts, rfl⟩, ?_, ?_, by simp⟩
      · rw [List.map_cons, List.nodup_cons]
        refine ⟨?_, hnodup⟩
        intro hmem
        obtain ⟨other, ho, heq⟩ := List.mem_map.mp hmem
        exact hfresh other ho (by simp [heq])
      · intro other ho
        rcases List.mem_cons.mp ho with rfl | ho
        · exact hnew
        · exact fun hmem => hfresh other ho (by simp [hmem])
    · rintro ⟨_, ⟨part, parts, htakes, hparts, rfl⟩, hnodup, hfresh, rfl⟩
      rw [List.map_cons, List.nodup_cons] at hnodup
      refine ⟨part, htakes, hfresh part (by simp), parts, hparts, hnodup.2, ?_, by simp⟩
      intro other ho hmem
      rw [List.map_append, List.mem_append] at hmem
      rcases hmem with hmem | hmem
      · exact hfresh other (by simp [ho]) hmem
      · have heq : other.1 = part.1 := by simpa using hmem
        exact hnodup.1 (heq ▸ List.mem_map_of_mem ho)

/-- An object is taken as a record when it does not stop early and its members are taken as parts. -/
theorem Tree.record_object_eq_ok_iff {record : Record} {take : String → Tree → Except Fault α} {members : List Member}
    (h : record.closed = true ∨ record.Knows members) {ending : Option Flaw} {parts : Taken α} :
    (Tree.object members ending).record record take = .ok parts ↔
      ending = none ∧ List.Forall₂ (record.Takes take) members parts ∧ (parts.map Prod.fst).Nodup := by
  simp only [Tree.record, bind_eq_ok_iff, Record.ofMembers_eq_ok_iff h, ended_eq_ok_iff, pure, Except.pure,
    Except.ok.injEq]
  constructor
  · rintro ⟨_, ⟨parts, hparts, hnodup, -, rfl⟩, -, rfl, rfl⟩
    exact ⟨rfl, hparts, hnodup⟩
  · rintro ⟨rfl, hparts, hnodup⟩
    exact ⟨parts, ⟨parts, hparts, hnodup, by simp, rfl⟩, (), rfl, rfl⟩

end Rulebook.Json
