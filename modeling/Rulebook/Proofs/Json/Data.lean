/-
  Rulebook.Proofs.Json.Data — the two ways from JSON text to a value.

  A value is read either directly or by reading JSON data first and turning it into a value.
  The kind of number that is tried first is the one that JSON data is asked for first. A
  float that is not finite would be null as JSON data and stay a number otherwise, but no
  text holds one. Of one name the last member counts on either way, whether the members are
  sorted out before they become values or after (`Entries.ofList_mapSnd`).

  The ways part at an object that starts with the name that is reserved for text in a
  string: read directly it is an object like others, and as JSON data it is what the text
  holds (`Value.raw_readings`), or nothing.
  - `Value.ofTree_eq_map`: without such objects both ways give the same value of a tree with
    finite floats, or the same fault.
  - `Value.ofText_eq_map`: they give the same of a text.
-/

import Rulebook.Proofs.Json.RoundTrip

namespace Rulebook

open Json (Tree Fault Flaw Scalar Member Document rawName)

/-! ## Entries whose values are replaced -/

namespace Entries

variable {α β : Type}

theorem put_mapSnd (f : α → β) (entries : List (String × α)) (name : String) (value : α) :
    put (mapSnd f entries) name (f value) = mapSnd f (put entries name value) := by
  induction entries with
  | nil => rfl
  | cons entry rest ih =>
    obtain ⟨other, old⟩ := entry
    simp only [mapSnd, List.map_cons, put] at ih ⊢
    by_cases hlt : name < other
    · simp only [hlt, if_true, List.map_cons]
    simp only [hlt, if_false]
    by_cases heq : name = other
    · simp only [heq, if_true, List.map_cons]
    · simp only [heq, if_false, List.map_cons, ih]

theorem foldl_put_mapSnd (f : α → β) (entries done : List (String × α)) :
    (mapSnd f entries).foldl (fun done entry => put done entry.1 entry.2) (mapSnd f done) =
      mapSnd f (entries.foldl (fun done entry => put done entry.1 entry.2) done) := by
  induction entries generalizing done with
  | nil => rfl
  | cons entry rest ih =>
    have hput := put_mapSnd f done entry.1 entry.2
    simp only [mapSnd, List.map_cons, List.foldl_cons] at hput ih ⊢
    rw [hput, ih]

/-- It does not matter whether values are replaced before the entries are sorted out or after. -/
theorem ofList_mapSnd (f : α → β) (entries : List (String × α)) :
    ofList (mapSnd f entries) = mapSnd f (ofList entries) :=
  foldl_put_mapSnd f entries []

end Entries

/-! ## Trees without reserved names -/

namespace Json

/-- Trees in which no object starts with the reserved name. -/
inductive Tree.RawFree : Tree → Prop where
  | scalar (s : Scalar) : RawFree (.scalar s)
  | text (s : String) : RawFree (.text s)
  | flawed (flaw : Flaw) : RawFree (.flawed flaw)
  | list {items : List Tree} {ending : Option Flaw} (parts : ∀ item ∈ items, RawFree item) : RawFree (.list items ending)
  | object {members : List Member} {ending : Option Flaw} (first : members.head?.map Prod.fst ≠ some (.ok rawName))
    (parts : ∀ member ∈ members, RawFree member.2) : RawFree (.object members ending)

theorem raw?_eq_none {members : List Member} (h : members.head?.map Prod.fst ≠ some (.ok rawName)) :
    raw? members = none := by
  unfold raw?
  split
  · rename_i name tree rest
    rw [if_neg]
    rintro rfl
    exact h rfl
  · rfl

theorem ofTree_object {members : List Member} (h : raw? members = none) (depth : Nat) (ending : Option Flaw) :
    ofTree depth (.object members ending) =
      if depth = 0 then .error .tooDeep
      else do
        let members ← ofMembers (depth - 1) members
        ended ending
        return .object (Entries.ofList members) := by
  rw [ofTree]
  split
  · rfl
  split
  · rename_i hraw
    cases h.symm.trans hraw
  · rename_i hraw
    cases h.symm.trans hraw
  · rfl

/-- An object that starts with the reserved name is the data of the text behind it, unless more stands in it. -/
theorem ofTree_raw (depth : Nat) (text : String) (rest : List Member) (ending : Option Flaw) :
    ofTree (depth + 1) (.object ((.ok rawName, .text text) :: rest) ending) = do
      let json ← ofText text
      rawEnd rest ending
      return json := by
  have hraw : raw? ((.ok rawName, .text text) :: rest) = some (.text text, rest) := by
    rw [raw?, if_pos rfl]
  rw [ofTree, if_neg (Nat.succ_ne_zero depth)]
  split
  · rename_i text' rest' h
    cases hraw.symm.trans h
    unfold ofText ofDocument Document.decode
    cases ofTree maxDepth (Document.ofText text).root with
    | error fault => rfl
    | ok json =>
      cases (Document.ofText text).ending with
      | none => rfl
      | some fault => rfl
  · rename_i tree rest' hne h
    cases hraw.symm.trans h
    exact absurd rfl (hne text)
  · rename_i h
    cases hraw.symm.trans h

/-- Behind the reserved name nothing but text may stand. -/
theorem ofTree_raw_mismatch {tree : Tree} (h : ∀ text, tree ≠ .text text) (depth : Nat) (rest : List Member)
    (ending : Option Flaw) :
    ofTree (depth + 1) (.object ((.ok rawName, tree) :: rest) ending) = tree.mismatch "raw value" := by
  have hraw : raw? ((.ok rawName, tree) :: rest) = some (tree, rest) := by
    rw [raw?, if_pos rfl]
  rw [ofTree, if_neg (Nat.succ_ne_zero depth)]
  split
  · rename_i text rest' hsome
    cases hraw.symm.trans hsome
    exact absurd rfl (h text)
  · rename_i hsome
    cases hraw.symm.trans hsome
    rfl
  · rename_i hnone
    cases hraw.symm.trans hnone

end Json

namespace Value

/-! ## Both ways -/

theorem entriesOfJson_eq (members : List (String × Json)) : entriesOfJson members = Entries.mapSnd ofJson members := by
  induction members with
  | nil => rfl
  | cons member rest ih =>
    rw [entriesOfJson, ih]
    rfl

/-- The entries of JSON members that have been sorted out are those of the members as they were. -/
theorem ofJson_object (members : List (String × Json)) :
    ofJson (.object (Entries.ofList members)) =
      .mapping ((Entries.mapSnd ofJson members).foldl (fun done entry => Entries.put done entry.1 entry.2) []) := by
  have hsorted := Entries.ofList_of_perm (Entries.sorted_ofList members) (.refl _)
  rw [ofJson, entriesOfJson_eq, Entries.ofList_mapSnd, hsorted, ← Entries.ofList_mapSnd]
  rfl

/-- A number that is no infinity, and not what is no number, is a number of JSON data too. -/
theorem ofTree_scalar_eq_map (depth : Nat) {n : Number} (h : ∀ x, n = .float x → x.isFinite = true) :
    ofTree depth (.scalar (.number n)) = (Json.ofTree depth (.scalar (.number n))).map ofJson := by
  rw [ofTree_scalar, Json.ofTree]
  cases n with
  | int n => rfl
  | uint n => rfl
  | float x =>
    rw [Json.ofNumber, if_pos (h x rfl)]
    rfl

theorem mapM_ofTree {depth : Nat} {items : List Tree}
    (h : ∀ item ∈ items, ofTree depth item = (Json.ofTree depth item).map ofJson) :
    items.mapM (ofTree depth) = (Json.ofTrees depth items).map itemsOfJson := by
  induction items with
  | nil => rw [Json.ofTrees]; rfl
  | cons item rest ih =>
    rw [List.mapM_cons, Json.ofTrees, h item (by simp), ih fun other ho => h other (by simp [ho])]
    cases Json.ofTree depth item with
    | error fault => rfl
    | ok json =>
      cases Json.ofTrees depth rest with
      | error fault => rfl
      | ok jsons => rfl

theorem ofMembers_eq {depth : Nat} {members : List Member}
    (h : ∀ member ∈ members, ofTree depth member.2 = (Json.ofTree depth member.2).map ofJson)
    (done : List (String × Value)) :
    Context.ofMembers depth done members =
      (Json.ofMembers depth members).map fun jsons =>
        (Entries.mapSnd ofJson jsons).foldl (fun done entry => Entries.put done entry.1 entry.2) done := by
  induction members generalizing done with
  | nil => rw [Json.ofMembers]; rfl
  | cons member rest ih =>
    have hrest := ih fun other ho => h other (by simp [ho])
    rw [Context.ofMembers, Json.ofMembers, h member (by simp)]
    cases member.1 with
    | error flaw => rfl
    | ok name =>
      cases Json.ofTree depth member.2 with
      | error fault => rfl
      | ok json =>
        show Context.ofMembers depth (Entries.put done name (ofJson json)) rest = _
        rw [hrest]
        cases Json.ofMembers depth rest with
        | error fault => rfl
        | ok jsons => rfl

/-- The value of a tree in which no object starts with the reserved name is the value of its JSON data, and a fault in
    one is the same fault in the other. -/
theorem ofTree_eq_map {tree : Tree} (hfinite : tree.FloatsFinite) (hfree : tree.RawFree) (depth : Nat) :
    ofTree depth tree = (Json.ofTree depth tree).map ofJson := by
  induction tree generalizing depth with
  | scalar s =>
    cases s with
    | null => rw [Json.ofTree]; rfl
    | boolean b => rw [Json.ofTree]; rfl
    | number n =>
      cases hfinite with
      | scalar finite => exact ofTree_scalar_eq_map depth fun x hx => finite x (by rw [hx])
  | text s => rw [Json.ofTree]; rfl
  | flawed flaw => rw [Json.ofTree]; rfl
  | list items ending ih =>
    cases hfinite with | list hitems => ?_
    cases hfree with | list hparts => ?_
    rw [ofTree_list, mapM_ofTree fun item hi => ih item hi (hitems item hi) (hparts item hi) (depth - 1), Json.ofTree]
    by_cases hd : depth = 0
    · simp only [hd, if_true]
      rfl
    simp only [hd, if_false]
    cases Json.ofTrees (depth - 1) items with
    | error fault => rfl
    | ok jsons =>
      cases ending with
      | none => rfl
      | some flaw => rfl
  | object members ending ih =>
    cases hfinite with | object hmembers => ?_
    cases hfree with | object hfirst hparts => ?_
    rw [ofTree_object, Json.ofTree_object (Json.raw?_eq_none hfirst),
      ofMembers_eq fun member hm => ih member hm (hmembers member hm) (hparts member hm) (depth - 1)]
    by_cases hd : depth = 0
    · simp only [hd, if_true]
      rfl
    simp only [hd, if_false]
    cases Json.ofMembers (depth - 1) members with
    | error fault => rfl
    | ok jsons =>
      cases ending with
      | none => exact congrArg Except.ok (ofJson_object jsons).symm
      | some flaw => rfl

/-- The value of a text in which no object starts with the reserved name is the value of its JSON data, and a fault in
    one is the same fault in the other. -/
theorem ofText_eq_map {text : String} (h : (Document.ofText text).root.RawFree) :
    ofText text = (Json.ofText text).map ofJson := by
  unfold ofText Json.ofText Json.ofDocument Json.Document.decode
  rw [ofTree_eq_map (Json.floatsFinite_ofText text) h]
  cases Json.ofTree Json.maxDepth (Json.Document.ofText text).root with
  | error fault => rfl
  | ok json =>
    cases (Json.Document.ofText text).ending with
    | none => rfl
    | some fault => rfl

def secondText : String := "\x7b\"a\":[],\"$serde_json::private::RawValue\":\"1\"\x7d"

/-- Behind another name the reserved one is a name like others, and the text is read as the same mapping both ways. -/
theorem ofText_eq_map_second :
    (Document.ofText secondText).root.RawFree ∧
      ofText secondText = .ok (.mapping [(rawName, .string "1"), ("a", .sequence [])]) ∧
      (Json.ofText secondText).map ofJson = .ok (.mapping [(rawName, .string "1"), ("a", .sequence [])]) := by
  have hdocument : Document.ofText secondText =
      ⟨.object [(.ok "a", .list [] none), (.ok rawName, .text "1")] none, none⟩ := by cbv
  have hfree : (Document.ofText secondText).root.RawFree := by
    rw [hdocument]
    refine .object (by decide) (List.forall_mem_cons.mpr ⟨.list (List.forall_mem_nil _), ?_⟩)
    exact List.forall_mem_singleton.mpr (.text "1")
  have hread : ofText secondText = .ok (.mapping [(rawName, .string "1"), ("a", .sequence [])]) := by
    rw [ofText, hdocument]
    cbv
  exact ⟨hfree, hread, (ofText_eq_map hfree).symm.trans hread⟩

/-! ## Where the ways part -/

def rawText (text : String) : String := (Value.mapping [(rawName, .string text)]).toJson.toText

/-- The text of a mapping of nothing but a string under the reserved name is read as that mapping, but as JSON data it is
    what the string holds. -/
theorem raw_readings (text : String) :
    ofText (rawText text) = .ok (.mapping [(rawName, .string text)]) ∧ Json.ofText (rawText text) = Json.ofText text := by
  have hnumbers : (Value.mapping [(rawName, .string text)]).toJson.ReadsNumbers := by
    simp [Json.ReadsNumbers, toJson, entriesToJson, Json.numbers, Json.memberNumbers]
  have hdocument : Document.ofText (rawText text) = ⟨.object [(.ok rawName, .text text)] none, none⟩ :=
    Json.ofText_toText hnumbers
  have hroot : Json.ofTree Json.maxDepth (.object [(.ok rawName, .text text)] none) = _ := Json.ofTree_raw 126 text [] none
  refine ⟨by rw [ofText, hdocument]; rfl, ?_⟩
  conv_lhs => rw [Json.ofText, Json.ofDocument, hdocument, Json.Document.decode, hroot]
  cases Json.ofText text with
  | error fault => rfl
  | ok json => rfl

/-- A text that is a mapping when it is read directly and a boolean as JSON data, and one that is a mapping and no
    JSON data at all. -/
theorem readings_differ :
    (ofText "\x7b\"$serde_json::private::RawValue\":\"true\"\x7d" = .ok (.mapping [(rawName, .string "true")]) ∧
      (Json.ofText "\x7b\"$serde_json::private::RawValue\":\"true\"\x7d").map ofJson = .ok (.boolean true)) ∧
    ofText "\x7b\"$serde_json::private::RawValue\":5\x7d" = .ok (.mapping [(rawName, .int 5)]) ∧
      Json.ofText "\x7b\"$serde_json::private::RawValue\":5\x7d" = .error (.invalidType "integer `5`" "raw value") := by
  have htext : "\x7b\"$serde_json::private::RawValue\":\"true\"\x7d" = rawText "true" := by decide
  obtain ⟨hdirect, hdata⟩ := raw_readings "true"
  have htrue : Json.ofText "true" = .ok (.boolean true) := by
    have hdocument : Document.ofText "true" = ⟨.scalar (.boolean true), none⟩ := by cbv
    rw [Json.ofText, Json.ofDocument, hdocument, Json.Document.decode, Json.ofTree]
    rfl
  have hdocument : Document.ofText "\x7b\"$serde_json::private::RawValue\":5\x7d" =
      ⟨.object [(.ok rawName, .scalar (.number (.int 5)))] none, none⟩ := by cbv
  have hroot : Json.ofTree Json.maxDepth (.object [(.ok rawName, .scalar (.number (.int 5)))] none) = _ :=
    Json.ofTree_raw_mismatch (fun text => Tree.noConfusion) 126 [] none
  rw [htext, hdata, htrue]
  refine ⟨⟨hdirect, rfl⟩, by rw [ofText, hdocument]; cbv, ?_⟩
  rw [Json.ofText, Json.ofDocument, hdocument, Json.Document.decode, hroot]
  rfl

end Value

end Rulebook
