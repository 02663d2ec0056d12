/-
  Rulebook.Proofs.Json.Content — what is gathered where any data may stand.

  A value is read by gathering what the text holds and trying one shape after the other.
  Whatever is gathered fits some shape (`Value.ofContent_eq`), so trying never fails, and a
  number is of the kind that is tried first.
  - `Content.ofTree_eq_ok_iff`: what is gathered from a tree, shape by shape.
  - `Value.ofTree_eq`: the value of a tree is that of what is gathered.
  - `Value.ofTree_list`, `Value.ofTree_object`: the value of a list or an object from those
    of its parts.
-/

import Rulebook.Context
import Rulebook.Proofs.Datum
import Rulebook.Proofs.Json.Decode
import Rulebook.Proofs.Json.Finite

namespace Rulebook

open Json (Content Tree Fault Member Name ended ended_eq_ok_iff)

/-! ## Entries whose values are replaced -/

namespace Entries

variable {α β : Type}

def mapSnd (f : α → β) (entries : List (String × α)) : List (String × β) :=
  entries.map fun entry => (entry.1, f entry.2)

end Entries

namespace Json

/-! ## Gathering -/

/-- Induction on what is gathered, with the statement for each item of a list and each member of an object. -/
@[elab_as_elim, induction_eliminator]
theorem Content.induct {motive : Content → Prop} (null : motive .null) (boolean : ∀ b, motive (.boolean b))
    (unsigned : ∀ n, motive (.unsigned n)) (negative : ∀ n, motive (.negative n)) (float : ∀ x, motive (.float x))
    (text : ∀ s, motive (.text s)) (list : ∀ items, (∀ item ∈ items, motive item) → motive (.list items))
    (object : ∀ members, (∀ member ∈ members, motive member.2) → motive (.object members)) (content : Content) :
    motive content :=
  @Content.rec motive (fun items => ∀ item ∈ items, motive item)
    (fun members => ∀ member ∈ members, motive member.2) (fun member => motive member.2) null boolean unsigned
    negative float text list object (by simp)
    (fun item items hitem hitems => List.forall_mem_cons.mpr ⟨hitem, hitems⟩) (by simp)
    (fun member members hmember hmembers => List.forall_mem_cons.mpr ⟨hmember, hmembers⟩)
    (fun _ _ h => h) content

def Content.ofMember (depth : Nat) (member : Member) : Except Fault (String × Content) := do
  let name ← Name.read member.1
  let value ← Content.ofTree depth member.2
  return (name, value)

theorem Content.ofTrees_eq (depth : Nat) (items : List Tree) :
    ofTrees depth items = items.mapM (ofTree depth) := by
  induction items with
  | nil => rfl
  | cons item rest ih => rw [ofTrees, ih, List.mapM_cons]

theorem Content.ofMembers_eq (depth : Nat) (members : List Member) :
    ofMembers depth members = members.mapM (ofMember depth) := by
  induction members with
  | nil => rfl
  | cons member rest ih =>
    rw [ofMembers, ih, List.mapM_cons, ofMember]
    simp only [bind_assoc, pure_bind]

end Json

/-! ## Fitting -/

/-- A number that is gathered is of the kind that JSON data is asked for first. -/
theorem Json.Content.number?_ofNumber (n : Number) : (ofNumber n).number? = some n.settled := by
  cases n with
  | int n =>
    by_cases hneg : n.toInt < 0
    · simp only [ofNumber, hneg, if_true]
      rfl
    · have hhigh := n.toInt_lt
      have hsmall : n.toInt.toNat < 18446744073709551616 := by omega
      have hword : (UInt64.ofNat n.toInt.toNat).toNat = n.toInt.toNat := by
        rw [UInt64.toNat_ofNat', Nat.mod_eq_of_lt hsmall]
      have hle : n.toInt.toNat ≤ 9223372036854775807 := by omega
      have hback : Int64.ofNat n.toInt.toNat = n := by
        rw [← Int64.ofInt_eq_ofNat, Int.toNat_of_nonneg (by omega), Int64.ofInt_toInt]
      simp only [ofNumber, hneg, if_false, number?, int64?, hword, hle, if_true, hback]
      rfl
  | uint n =>
    simp only [ofNumber, number?, int64?, Number.settled, Number.int64?]
    by_cases hle : n.toNat ≤ 9223372036854775807
    · simp only [hle, if_true]
      rfl
    · simp only [hle, if_false]
      rfl
  | float x => rfl

namespace Value

@[simp] theorem ofContent_null : ofContent .null = some .null := rfl

@[simp] theorem ofContent_boolean (b : Bool) : ofContent (.boolean b) = some (.boolean b) := rfl

@[simp] theorem ofContent_text (s : String) : ofContent (.text s) = some (.string s) := rfl

theorem ofContent_number {content : Content} {n : Number} (h : content.number? = some n) :
    ofContent content = some (.number n) := by
  cases content with
  | unsigned m => simp [ofContent, Content.null?, Content.boolean?, h]
  | negative m => simp [ofContent, Content.null?, Content.boolean?, h]
  | float x => simp [ofContent, Content.null?, Content.boolean?, h]
  | null => cases h
  | boolean b => cases h
  | text s => cases h
  | list items => cases h
  | object members => cases h

theorem ofContent_list (items : List Content) :
    ofContent (.list items) = (itemsOfContent items).map .sequence := by
  simp [ofContent, Content.null?, Content.boolean?, Content.number?, Content.int64?, Content.uint64?,
    Content.float?, Content.text?]

theorem ofContent_object (members : List (String × Content)) :
    ofContent (.object members) = (entriesOfContent [] members).map .mapping := by
  simp [ofContent, Content.null?, Content.boolean?, Content.number?, Content.int64?, Content.uint64?,
    Content.float?, Content.text?]

end Value

namespace Json

def Content.value (content : Content) : Value := (Value.ofContent content).getD .null

end Json

namespace Value

theorem itemsOfContent_eq {items : List Content} (h : ∀ item ∈ items, ofContent item = some item.value) :
    itemsOfContent items = some (items.map Content.value) := by
  induction items with
  | nil => rfl
  | cons item rest ih =>
    rw [itemsOfContent, h item (by simp), ih fun other ho => h other (by simp [ho])]
    rfl

theorem entriesOfContent_eq {members : List (String × Content)}
    (h : ∀ member ∈ members, ofContent member.2 = some member.2.value) (done : List (String × Value)) :
    entriesOfContent done members =
      some ((Entries.mapSnd Content.value members).foldl (fun done entry => Entries.put done entry.1 entry.2) done) := by
  induction members generalizing done with
  | nil => rfl
  | cons member rest ih =>
    rw [entriesOfContent, h member (by simp)]
    exact ih (fun other ho => h other (by simp [ho])) _

/-- What is gathered always fits some shape. -/
theorem ofContent_eq (content : Content) : ofContent content = some content.value := by
  have hvalue : ∀ {content : Content} {value : Value}, ofContent content = some value →
      ofContent content = some content.value := by
    intro content value h
    rw [Content.value, h]
    rfl
  induction content with
  | null => rfl
  | boolean b => rfl
  | unsigned n => exact hvalue (ofContent_number (Content.number?_ofNumber (.uint n)))
  | negative n => exact hvalue (ofContent_number (n := .int n) rfl)
  | float x => exact hvalue (ofContent_number (n := .float x) rfl)
  | text s => rfl
  | list items ih =>
    have hitems := itemsOfContent_eq ih
    exact hvalue (by rw [ofContent_list, hitems]; rfl)
  | object members ih =>
    have hmembers := entriesOfContent_eq ih []
    exact hvalue (by rw [ofContent_object, hmembers]; rfl)

end Value

namespace Json

@[simp] theorem Content.value_null : Content.null.value = .null := rfl

@[simp] theorem Content.value_boolean (b : Bool) : (Content.boolean b).value = .boolean b := rfl

@[simp] theorem Content.value_text (s : String) : (Content.text s).value = .string s := rfl

@[simp] theorem Content.value_ofNumber (n : Number) : (ofNumber n).value = .number n.settled := by
  rw [value, Value.ofContent_number (number?_ofNumber n)]
  rfl

@[simp] theorem Content.value_list (items : List Content) :
    (Content.list items).value = .sequence (items.map value) := by
  rw [value, Value.ofContent_list, Value.itemsOfContent_eq fun item _ => Value.ofContent_eq item]
  rfl

@[simp] theorem Content.value_object (members : List (String × Content)) :
    (Content.object members).value = .ofEntries (Entries.mapSnd value members) := by
  rw [value, Value.ofContent_object, Value.entriesOfContent_eq fun member _ => Value.ofContent_eq member.2]
  rfl

end Json

/-! ## What is gathered -/

namespace Json.Content

variable {depth : Nat} {tree : Tree}

theorem ofMember_eq_ok_iff {member : Member} {entry : String × Content} :
    ofMember depth member = .ok entry ↔ member.1 = .ok entry.1 ∧ ofTree depth member.2 = .ok entry.2 := by
  obtain ⟨name, content⟩ := entry
  have hname : ∀ found, Name.read member.1 = .ok found ↔ member.1 = .ok found := by
    intro found
    cases member.1 with
    | error flaw => simp [Name.read]
    | ok given => simp [Name.read]
  simp only [ofMember, bind_eq_ok_iff, hname, pure, Except.pure, Except.ok.injEq, Prod.mk.injEq]
  constructor
  · rintro ⟨_, hfound, _, hcontent, rfl, rfl⟩
    exact ⟨hfound, hcontent⟩
  · rintro ⟨hfound, hcontent⟩
    exact ⟨name, hfound, content, hcontent, rfl, rfl⟩

/-- What is gathered from a tree that has no flaw, shape by shape. -/
inductive Gathered : Nat → Tree → Content → Prop where
  | null (depth : Nat) : Gathered depth (.scalar .null) .null
  | boolean (depth : Nat) (b : Bool) : Gathered depth (.scalar (.boolean b)) (.boolean b)
  | number (depth : Nat) {n : Number} {content : Content} (written : content = ofNumber n) :
    Gathered depth (.scalar (.number n)) content
  | text (depth : Nat) (s : String) : Gathered depth (.text s) (.text s)
  | list {depth : Nat} {items : List Tree} {contents : List Content}
    (parts : List.Forall₂ (fun item c => ofTree depth item = .ok c) items contents) :
    Gathered (depth + 1) (.list items none) (.list contents)
  | object {depth : Nat} {members : List Member} {entries : List (String × Content)}
    (parts : List.Forall₂ (fun member entry => member.1 = .ok entry.1 ∧ ofTree depth member.2 = .ok entry.2)
      members entries) :
    Gathered (depth + 1) (.object members none) (.object entries)

theorem ofTree_eq_ok_iff {content : Content} : ofTree depth tree = .ok content ↔ Gathered depth tree content := by
  constructor
  · intro h
    cases tree with
    | scalar s =>
      cases s with
      | null => obtain rfl := Except.ok.inj h; exact .null depth
      | boolean b => obtain rfl := Except.ok.inj h; exact .boolean depth b
      | number n => exact .number depth (Except.ok.inj h).symm
    | text s => obtain rfl := Except.ok.inj h; exact .text depth s
    | flawed flaw => cases h
    | list items ending =>
      cases depth with
      | zero => cases h
      | succ depth =>
        rw [ofTree, if_neg (by omega), Nat.add_sub_cancel, ofTrees_eq] at h
        obtain ⟨contents, hcontents, h⟩ := bind_eq_ok_iff.mp h
        obtain ⟨_, hending, h⟩ := bind_eq_ok_iff.mp h
        obtain rfl := ended_eq_ok_iff.mp hending
        obtain rfl := Except.ok.inj h
        exact .list (mapM_eq_ok_iff.mp hcontents)
    | object members ending =>
      cases depth with
      | zero => cases h
      | succ depth =>
        rw [ofTree, if_neg (by omega), Nat.add_sub_cancel, ofMembers_eq] at h
        obtain ⟨entries, hentries, h⟩ := bind_eq_ok_iff.mp h
        obtain ⟨_, hending, h⟩ := bind_eq_ok_iff.mp h
        obtain rfl := ended_eq_ok_iff.mp hending
        obtain rfl := Except.ok.inj h
        exact .object ((mapM_eq_ok_iff.mp hentries).imp fun member entry => ofMember_eq_ok_iff.mp)
  · intro h
    cases h with
    | null => rfl
    | boolean depth b => rfl
    | number depth written => rw [written]; rfl
    | text depth s => rfl
    | @list depth items contents parts =>
      rw [ofTree, if_neg (by omega), Nat.add_sub_cancel, ofTrees_eq, mapM_eq_ok_iff.mpr parts]
      rfl
    | @object depth members entries parts =>
      have hentries : members.mapM (ofMember depth) = .ok entries :=
        mapM_eq_ok_iff.mpr (parts.imp fun member entry => ofMember_eq_ok_iff.mpr)
      rw [ofTree, if_neg (by omega), Nat.add_sub_cancel, ofMembers_eq, hentries]
      rfl

theorem ofTree_object_eq_ok_iff {members : List Member} {ending : Option Json.Flaw} {content : Content} :
    ofTree (depth + 1) (.object members ending) = .ok content ↔
      ending = none ∧ ∃ entries, content = .object entries ∧
        List.Forall₂ (fun member entry => member.1 = .ok entry.1 ∧ ofTree depth member.2 = .ok entry.2)
          members entries := by
  rw [ofTree_eq_ok_iff]
  constructor
  · intro h
    cases h with
    | object parts => exact ⟨rfl, _, rfl, parts⟩
  · rintro ⟨rfl, entries, rfl, parts⟩
    exact .object parts

theorem ofNumber_ne {content : Content} (h : content.number? = none) (n : Number) : content ≠ ofNumber n := by
  rintro rfl
  rw [number?_ofNumber] at h
  cases h

theorem ofTree_eq_null_iff : ofTree depth tree = .ok .null ↔ tree = .scalar .null := by
  rw [ofTree_eq_ok_iff]
  constructor
  · intro h
    cases h with
    | null => rfl
    | number depth written => exact absurd written (ofNumber_ne rfl _)
  · rintro rfl
    exact .null depth

theorem ofTree_eq_text_iff {s : String} : ofTree depth tree = .ok (.text s) ↔ tree = .text s := by
  rw [ofTree_eq_ok_iff]
  constructor
  · intro h
    cases h with
    | text => rfl
    | number depth written => exact absurd written (ofNumber_ne rfl _)
  · rintro rfl
    exact .text depth s

theorem ofTree_eq_list_iff {contents : List Content} :
    ofTree (depth + 1) tree = .ok (.list contents) ↔
      ∃ items, tree = .list items none ∧ List.Forall₂ (fun item c => ofTree depth item = .ok c) items contents := by
  rw [ofTree_eq_ok_iff]
  constructor
  · intro h
    cases h with
    | list parts => exact ⟨_, rfl, parts⟩
    | number depth written => exact absurd written (ofNumber_ne rfl _)
  · rintro ⟨items, rfl, parts⟩
    exact .list parts

theorem ofTree_eq_texts_iff {texts : List String} :
    ofTree (depth + 1) tree = .ok (.list (texts.map .text)) ↔ tree = .list (texts.map .text) none := by
  have hitems : ∀ items : List Tree,
      List.Forall₂ (fun item c => ofTree depth item = .ok c) items (texts.map .text) ↔ items = texts.map .text := by
    intro items
    simp only [List.forall₂_map_right_iff, ofTree_eq_text_iff, forall₂_eq_map_iff]
  simp only [ofTree_eq_list_iff, hitems]
  constructor
  · rintro ⟨_, rfl, rfl⟩
    rfl
  · rintro rfl
    exact ⟨_, rfl, rfl⟩

end Json.Content

namespace Value

/-- The value of a tree is the value that is gathered. -/
theorem ofTree_eq (depth : Nat) (tree : Tree) : ofTree depth tree = (Content.ofTree depth tree).map Content.value := by
  unfold ofTree
  cases Content.ofTree depth tree with
  | error fault => rfl
  | ok content =>
    simp only [bind, Except.bind, ofContent_eq]
    rfl

/-! ## The parts of a value -/

theorem mapM_map_value (depth : Nat) (items : List Tree) :
    (items.mapM (Content.ofTree depth)).map (List.map Content.value) = items.mapM (ofTree depth) := by
  induction items with
  | nil => rfl
  | cons item rest ih =>
    rw [List.mapM_cons, List.mapM_cons, ← ih, ofTree_eq]
    cases Content.ofTree depth item with
    | error fault => rfl
    | ok content =>
      cases rest.mapM (Content.ofTree depth) with
      | error fault => rfl
      | ok contents => rfl

theorem mapM_ofMember (depth : Nat) (members : List Member) (done : List (String × Value)) :
    (members.mapM (Content.ofMember depth)).map (fun contents =>
        (Entries.mapSnd Content.value contents).foldl (fun done entry => Entries.put done entry.1 entry.2) done) =
      Context.ofMembers depth done members := by
  induction members generalizing done with
  | nil => rfl
  | cons member rest ih =>
    rw [List.mapM_cons, Context.ofMembers, Content.ofMember, ofTree_eq]
    cases Name.read member.1 with
    | error fault => rfl
    | ok name =>
      cases Content.ofTree depth member.2 with
      | error fault => rfl
      | ok content =>
        have hrest := ih (Entries.put done name content.value)
        cases hm : rest.mapM (Content.ofMember depth) with
        | error fault =>
          rw [hm] at hrest
          exact hrest
        | ok contents =>
          rw [hm] at hrest
          exact hrest

theorem ofTree_scalar (depth : Nat) (n : Number) : ofTree depth (.scalar (.number n)) = .ok (.number n.settled) := by
  rw [ofTree_eq, Content.ofTree, Except.map, Content.value_ofNumber]

theorem ofTree_list (depth : Nat) (items : List Tree) (ending : Option Json.Flaw) :
    ofTree depth (.list items ending) =
      if depth = 0 then .error .tooDeep
      else do
        let values ← items.mapM (ofTree (depth - 1))
        ended ending
        return .sequence values := by
  rw [ofTree_eq, Content.ofTree]
  by_cases hd : depth = 0
  · simp only [hd, if_true]
    rfl
  simp only [hd, if_false]
  rw [Content.ofTrees_eq, ← mapM_map_value]
  cases items.mapM (Content.ofTree (depth - 1)) with
  | error fault => rfl
  | ok contents =>
    cases ended ending with
    | error fault => rfl
    | ok _ => simp [bind, Except.bind, Except.map, pure, Except.pure]

theorem ofTree_object (depth : Nat) (members : List Member) (ending : Option Json.Flaw) :
    ofTree depth (.object members ending) =
      if depth = 0 then .error .tooDeep
      else do
        let entries ← Context.ofMembers (depth - 1) [] members
        ended ending
        return .mapping entries := by
  rw [ofTree_eq, Content.ofTree]
  by_cases hd : depth = 0
  · simp only [hd, if_true]
    rfl
  simp only [hd, if_false]
  rw [Content.ofMembers_eq, ← mapM_ofMember]
  cases members.mapM (Content.ofMember (depth - 1)) with
  | error fault => rfl
  | ok contents =>
    cases ended ending with
    | error fault => rfl
    | ok _ => simp [bind, Except.bind, Except.map, pure, Except.pure, ofEntries, Entries.ofList]

end Value

end Rulebook
