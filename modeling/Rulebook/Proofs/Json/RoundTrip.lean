/-
  Rulebook.Proofs.Json.RoundTrip — what is read from JSON text is written so that it is read again.

  A value that is read from a text has a shape that not every value has (`ReadWithin`): its
  mappings ascend in their names, it lies no deeper than texts are read, its floats are
  finite, and an unsigned integer in it is one only because it must. Written as a text,
  such a value is read as itself (`ofText_toText`) if its floats are. That is a condition
  on the floats in the value, for not each float is read as it was written: the reader
  gathers digits into 64 bits and scales them by a power of ten, which may round.
  - `readWithin_of_ofText`: what is read from a text has this shape.
  - `ofTree_tree`: what has this shape is read as itself where it has been written.
  - `Context.ofText_eq_ok_iff`: a context is read where a mapping is.
  - `readsInside_int`, `readsInside_uint`: an integer of 64 bits keeps its value inside other
    data, as deep as texts are read.
-/

import Rulebook.Proofs.Json.Decode
import Rulebook.Proofs.Json.Float
import Rulebook.Proofs.Json.Tree

namespace Rulebook

open Json (Tree Fault Member Name ended ended_eq_ok_iff)

namespace Value

/-! ## The shape of what is read -/

/-- Values that are read where at most `depth` lists and objects may stand inside each other. -/
inductive ReadWithin : Nat → Value → Prop where
  | null (depth : Nat) : ReadWithin depth .null
  | boolean (depth : Nat) (b : Bool) : ReadWithin depth (.boolean b)
  | int (depth : Nat) (n : Int64) : ReadWithin depth (.int n)
  | uint (depth : Nat) {n : UInt64} (large : 9223372036854775807 < n.toNat) : ReadWithin depth (.uint n)
  | float (depth : Nat) {x : Float} (finite : x.isFinite = true) : ReadWithin depth (.float x)
  | string (depth : Nat) (text : String) : ReadWithin depth (.string text)
  | sequence {depth : Nat} {items : List Value} (within : ∀ item ∈ items, ReadWithin depth item) :
    ReadWithin (depth + 1) (.sequence items)
  | mapping {depth : Nat} {entries : List (String × Value)} (sorted : Entries.Sorted entries)
    (within : ∀ entry ∈ entries, ReadWithin depth entry.2) : ReadWithin (depth + 1) (.mapping entries)

theorem readWithin_settled (depth : Nat) {n : Number} (h : ∀ x, n = .float x → x.isFinite = true) :
    ReadWithin depth (.number n.settled) := by
  cases n with
  | int n => exact .int depth n
  | uint n =>
    by_cases hle : n.toNat ≤ 9223372036854775807
    · simp only [Number.settled, Number.int64?, hle, if_true]
      exact .int depth _
    · simp only [Number.settled, Number.int64?, Number.uint64?, hle, if_false]
      exact .uint depth (by omega)
  | float x => exact .float depth (h x rfl)

theorem readWithin_ofMembers {depth : Nat} {members : List Member}
    (hread : ∀ member ∈ members, ∀ value, ofTree depth member.2 = .ok value → ReadWithin depth value)
    {done entries : List (String × Value)} (hsorted : Entries.Sorted done)
    (hwithin : ∀ entry ∈ done, ReadWithin depth entry.2) (h : Context.ofMembers depth done members = .ok entries) :
    Entries.Sorted entries ∧ ∀ entry ∈ entries, ReadWithin depth entry.2 := by
  induction members generalizing done with
  | nil =>
    obtain rfl : done = entries := Except.ok.inj h
    exact ⟨hsorted, hwithin⟩
  | cons member rest ih =>
    rw [Context.ofMembers] at h
    obtain ⟨name, -, h⟩ := bind_eq_ok_iff.mp h
    obtain ⟨value, hvalue, h⟩ := bind_eq_ok_iff.mp h
    refine ih (fun other ho => hread other (by simp [ho])) (Entries.sorted_put hsorted name value) ?_ h
    intro entry he
    rcases Entries.mem_put he with rfl | he
    · exact hread member (by simp) value hvalue
    · exact hwithin entry he

theorem readWithin_of_ofTree {tree : Tree} (hfinite : tree.FloatsFinite) {depth : Nat} {value : Value}
    (h : ofTree depth tree = .ok value) : ReadWithin depth value := by
  induction tree generalizing depth value with
  | scalar s =>
    cases s with
    | null =>
      obtain rfl : Value.null = value := Except.ok.inj h
      exact .null depth
    | boolean b =>
      obtain rfl : Value.boolean b = value := Except.ok.inj h
      exact .boolean depth b
    | number n =>
      rw [ofTree_scalar] at h
      obtain rfl : Value.number n.settled = value := Except.ok.inj h
      cases hfinite with
      | scalar finite => exact readWithin_settled depth fun x hx => finite x (by rw [hx])
  | text s =>
    obtain rfl : Value.string s = value := Except.ok.inj h
    exact .string depth s
  | flawed flaw => cases h
  | list items ending ih =>
    cases hfinite with | list hitems => ?_
    rw [ofTree_list] at h
    cases depth with
    | zero => cases h
    | succ depth =>
      rw [if_neg (by omega)] at h
      obtain ⟨values, hvalues, h⟩ := bind_eq_ok_iff.mp h
      obtain ⟨-, -, h⟩ := bind_eq_ok_iff.mp h
      obtain rfl : Value.sequence values = value := Except.ok.inj h
      refine .sequence fun item hi => ?_
      obtain ⟨tree, ht, htree⟩ := exists_of_mem_right (mapM_eq_ok_iff.mp hvalues) hi
      exact ih tree ht (hitems tree ht) htree
  | object members ending ih =>
    cases hfinite with | object hmembers => ?_
    rw [ofTree_object] at h
    cases depth with
    | zero => cases h
    | succ depth =>
      rw [if_neg (by omega)] at h
      obtain ⟨entries, hentries, h⟩ := bind_eq_ok_iff.mp h
      obtain ⟨-, -, h⟩ := bind_eq_ok_iff.mp h
      obtain rfl : Value.mapping entries = value := Except.ok.inj h
      have hempty : Entries.Sorted ([] : List (String × Value)) := List.Pairwise.nil
      obtain ⟨hsorted, hwithin⟩ :=
        readWithin_ofMembers (fun member hm value => ih member hm (hmembers member hm)) hempty (by simp) hentries
      exact .mapping hsorted hwithin

/-! ## Reading what is written -/

/-- Whether each float in a value is finite. -/
def FloatsFinite (value : Value) : Prop := ∀ x, .float x ∈ value.toJson.numbers → x.isFinite = true

/-- Whether each float in a value is read as itself where its text stands alone. -/
def FloatsReadBack (value : Value) : Prop :=
  ∀ x, .float x ∈ value.toJson.numbers → ofText (Value.float x).toJson.toText = .ok (.float x)

theorem itemsToJson_eq (items : List Value) : itemsToJson items = items.map toJson := by
  induction items with
  | nil => rfl
  | cons item rest ih => rw [itemsToJson, ih, List.map_cons]

theorem entriesToJson_eq (entries : List (String × Value)) : entriesToJson entries = Entries.mapSnd toJson entries := by
  induction entries with
  | nil => rfl
  | cons entry rest ih =>
    rw [entriesToJson, ih]
    rfl

theorem itemTrees_toJson (items : List Value) :
    Json.itemTrees (itemsToJson items) = items.map fun item => item.toJson.tree := by
  induction items with
  | nil => rfl
  | cons item rest ih => rw [itemsToJson, Json.itemTrees, ih, List.map_cons]

theorem ReadWithin.floatsFinite {depth : Nat} {value : Value} (h : ReadWithin depth value) : value.FloatsFinite := by
  induction h with
  | null depth => simp [FloatsFinite, toJson, Json.numbers]
  | boolean depth b => simp [FloatsFinite, toJson, Json.numbers]
  | int depth n => simp [FloatsFinite, Value.int, toJson, Json.numbers]
  | uint depth large => simp [FloatsFinite, Value.uint, toJson, Json.numbers]
  | string depth text => simp [FloatsFinite, toJson, Json.numbers]
  | float depth finite =>
    intro x hx
    obtain rfl : x = _ := by simpa [Value.float, toJson, Json.numbers] using hx
    exact finite
  | sequence within ih =>
    intro x hx
    rw [toJson, itemsToJson_eq, Json.mem_numbers_list_iff] at hx
    obtain ⟨json, hjson, hx⟩ := hx
    obtain ⟨item, hi, rfl⟩ := List.mem_map.mp hjson
    exact ih item hi x hx
  | mapping sorted within ih =>
    intro x hx
    rw [toJson, entriesToJson_eq, Json.mem_numbers_object_iff] at hx
    obtain ⟨member, hmember, hx⟩ := hx
    obtain ⟨entry, he, rfl⟩ := List.mem_map.mp hmember
    exact ih entry he x hx

theorem ofMembers_memberTrees {depth : Nat} {entries : List (String × Value)}
    (h : ∀ entry ∈ entries, ofTree depth entry.2.toJson.tree = .ok entry.2) (done : List (String × Value)) :
    Context.ofMembers depth done (Json.memberTrees (entriesToJson entries)) =
      .ok (entries.foldl (fun done entry => Entries.put done entry.1 entry.2) done) := by
  induction entries generalizing done with
  | nil => rfl
  | cons entry rest ih =>
    have hvalue := h entry (by simp)
    rw [entriesToJson, Json.memberTrees, Context.ofMembers]
    simp only [Name.read, hvalue, bind, Except.bind, List.foldl_cons]
    exact ih (fun other ho => h other (by simp [ho])) _

/-- What has the shape of what is read is read as itself where it has been written. -/
theorem ofTree_tree {depth : Nat} {value : Value} (h : ReadWithin depth value) :
    ofTree depth value.toJson.tree = .ok value := by
  induction h with
  | null depth => rfl
  | boolean depth b => rfl
  | int depth n => exact ofTree_scalar depth (.int n)
  | @uint depth n large =>
    have hscalar := ofTree_scalar depth (.uint n)
    have hlarge : ¬ n.toNat ≤ 9223372036854775807 := by omega
    have hsettled : (Number.uint n).settled = .uint n := by
      simp only [Number.settled, Number.int64?, Number.uint64?, hlarge, if_false]
    rw [hsettled] at hscalar
    simp only [Value.uint, toJson, Json.tree, Json.reread, hlarge, if_false]
    exact hscalar
  | @float depth x finite =>
    have hx := Json.isNaN_or_isInf_of_isFinite finite
    simp only [Value.float, toJson, Json.tree, Json.reread, hx, Bool.false_eq_true, if_false]
    exact ofTree_scalar depth (.float x)
  | string depth text => rfl
  | @sequence depth items within ih =>
    have hitems : (items.map fun item => item.toJson.tree).mapM (ofTree depth) = .ok items := by
      rw [mapM_eq_ok_iff, List.forall₂_map_left_iff, List.forall₂_same]
      exact ih
    rw [toJson, Json.tree, ofTree_list, if_neg (by omega), itemTrees_toJson, Nat.add_sub_cancel, hitems]
    rfl
  | @mapping depth entries sorted within ih =>
    have hentries := ofMembers_memberTrees ih []
    have hofList : entries.foldl (fun done entry => Entries.put done entry.1 entry.2) [] = entries :=
      Entries.ofList_of_perm sorted (.refl _)
    rw [hofList] at hentries
    rw [toJson, Json.tree, ofTree_object, if_neg (by omega), Nat.add_sub_cancel, hentries]
    rfl

theorem readsNumbers_toJson {value : Value} (hfinite : value.FloatsFinite) (hback : value.FloatsReadBack) :
    value.toJson.ReadsNumbers := by
  intro n hn
  cases n with
  | int n => exact Json.readsBack_int n
  | uint n => exact Json.readsBack_uint n
  | float x => exact Json.readsBack_float (hfinite x hn) (hback x hn)

theorem ofText_eq_ok_iff {text : String} {value : Value} :
    ofText text = .ok value ↔
      ofTree Json.maxDepth (Json.Document.ofText text).root = .ok value ∧ (Json.Document.ofText text).ending = none :=
  Json.Document.decode_eq_ok_iff

/-- What has the shape of what is read is read as itself when its text is. -/
theorem ofText_toText {value : Value} (h : ReadWithin Json.maxDepth value) (hback : value.FloatsReadBack) :
    ofText value.toJson.toText = .ok value := by
  rw [ofText_eq_ok_iff, Json.ofText_toText (readsNumbers_toJson h.floatsFinite hback)]
  exact ⟨ofTree_tree h, rfl⟩

theorem readWithin_of_ofText {text : String} {value : Value} (h : ofText text = .ok value) :
    ReadWithin Json.maxDepth value :=
  readWithin_of_ofTree (Json.floatsFinite_ofText text) (ofText_eq_ok_iff.mp h).1

end Value

/-! ## Contexts -/

namespace Context

theorem ofTree_eq_ok_iff {depth : Nat} {tree : Tree} {context : Context} :
    ofTree depth tree = .ok context ↔ Value.ofTree depth tree = .ok context.toValue := by
  cases tree with
  | scalar s =>
    refine iff_of_false (Tree.mismatch_ne_ok _ _ _) fun h => ?_
    cases s with
    | null => cases h
    | boolean b => cases h
    | number n => cases (Value.ofTree_scalar depth n).symm.trans h
  | text s => exact iff_of_false (Tree.mismatch_ne_ok _ _ _) nofun
  | flawed flaw => exact iff_of_false (Tree.mismatch_ne_ok _ _ _) nofun
  | list items ending =>
    refine iff_of_false (Tree.mismatch_ne_ok _ _ _) fun h => ?_
    rw [Value.ofTree_list] at h
    split at h
    · cases h
    · obtain ⟨values, -, h⟩ := bind_eq_ok_iff.mp h
      obtain ⟨-, -, h⟩ := bind_eq_ok_iff.mp h
      cases h
  | object members ending =>
    rw [ofTree, Value.ofTree_object]
    split
    · exact iff_of_false nofun nofun
    · simp only [bind_eq_ok_iff, pure, Except.pure, Except.ok.injEq, toValue, Value.mapping.injEq]
      constructor
      · rintro ⟨entries, hentries, done, hdone, rfl⟩
        exact ⟨entries, hentries, done, hdone, rfl⟩
      · rintro ⟨_, hentries, done, hdone, rfl⟩
        exact ⟨context.entries, hentries, done, hdone, rfl⟩

theorem ofText_eq_ok_iff {text : String} {context : Context} :
    ofText text = .ok context ↔ Value.ofText text = .ok context.toValue := by
  unfold ofText Value.ofText
  rw [Json.Document.decode_eq_ok_iff, Json.Document.decode_eq_ok_iff, ofTree_eq_ok_iff]

end Context

/-! ## Inside other data -/

/-- A value inside lists of one item and objects of one member, the outermost first: a list for
    none, an object for the name of its member. -/
def Value.inside (value : Value) : List (Option String) → Value
  | [] => value
  | none :: shells => .sequence [value.inside shells]
  | some name :: shells => .mapping [(name, value.inside shells)]

def Json.textInside (text : List Char) : List (Option String) → List Char
  | [] => text
  | none :: shells => '[' :: (textInside text shells ++ [']'])
  | some name :: shells => '\x7b' :: (written name.toList ++ ':' :: textInside text shells ++ ['\x7d'])

/-- Whether a text is read as a value inside other data, as deep as texts are read. -/
def Json.ReadsInside (text : List Char) (value : Value) : Prop :=
  ∀ shells, Value.ofText (String.ofList (textInside text shells)) =
    if shells.length ≤ maxDepth then .ok (value.inside shells) else .error .tooDeep

namespace Value

theorem compact_inside (value : Value) (shells : List (Option String)) :
    (value.inside shells).toJson.compact = Json.textInside value.toJson.compact shells := by
  induction shells with
  | nil => rfl
  | cons shell shells ih =>
    cases shell with
    | none => simp [inside, toJson, itemsToJson, Json.compact, Json.compactItems, Json.textInside, ih]
    | some name => simp [inside, toJson, entriesToJson, Json.compact, Json.compactMembers, Json.textInside, ih]

theorem numbers_inside (value : Value) (shells : List (Option String)) :
    (value.inside shells).toJson.numbers = value.toJson.numbers := by
  induction shells with
  | nil => rfl
  | cons shell shells ih =>
    cases shell with
    | none => simp [inside, toJson, itemsToJson, Json.numbers, Json.itemNumbers, ih]
    | some name => simp [inside, toJson, entriesToJson, Json.numbers, Json.memberNumbers, ih]

theorem readWithin_inside {depth : Nat} {value : Value} (h : ReadWithin depth value) (shells : List (Option String)) :
    ReadWithin (depth + shells.length) (value.inside shells) := by
  induction shells with
  | nil => exact h
  | cons shell shells ih =>
    cases shell with
    | none => exact .sequence (by simpa [inside] using ih)
    | some name => exact .mapping (by simp [Entries.Sorted]) (by simpa [inside] using ih)

theorem ofTree_inside_tooDeep {depth : Nat} (value : Value) {shells : List (Option String)}
    (h : depth < shells.length) : ofTree depth (value.inside shells).toJson.tree = .error .tooDeep := by
  induction shells generalizing depth with
  | nil => cases h
  | cons shell shells ih =>
    cases depth with
    | zero =>
      cases shell with
      | none => rfl
      | some name => rfl
    | succ depth =>
      have hinner := ih (Nat.lt_of_succ_lt_succ h)
      cases shell with
      | none =>
        rw [inside, toJson, Json.tree, ofTree_list, if_neg (by omega), itemTrees_toJson, Nat.add_sub_cancel,
          List.map_cons, List.mapM_cons, hinner]
        rfl
      | some name =>
        rw [inside, toJson, Json.tree, ofTree_object, if_neg (by omega), entriesToJson, Json.memberTrees,
          Context.ofMembers, Nat.add_sub_cancel, hinner]
        rfl

/-- A value without floats that may lie at any depth is read from its text inside other data. -/
theorem readsInside_compact {value : Value} (h : ∀ depth, ReadWithin depth value)
    (hfloats : ∀ x, .float x ∉ value.toJson.numbers) : Json.ReadsInside value.toJson.compact value := by
  intro shells
  have hfinite := (readWithin_inside (h 0) shells).floatsFinite
  have hback : (value.inside shells).FloatsReadBack := by
    intro x hx
    rw [numbers_inside] at hx
    exact absurd hx (hfloats x)
  rw [← compact_inside]
  by_cases hdepth : shells.length ≤ Json.maxDepth
  · rw [if_pos hdepth]
    have hwithin := readWithin_inside (h (Json.maxDepth - shells.length)) shells
    rw [Nat.sub_add_cancel hdepth] at hwithin
    exact ofText_toText hwithin hback
  · have hroot := ofTree_inside_tooDeep value (Nat.lt_of_not_le hdepth)
    have hdocument := Json.ofText_toText (readsNumbers_toJson hfinite hback)
    rw [if_neg hdepth, ofText, ← Json.toText, hdocument, Json.Document.decode, hroot]
    rfl

theorem readsInside_int (n : Int64) : Json.ReadsInside (Text.decimal n.toInt) (.int n) := by
  have hfloats : ∀ x, .float x ∉ (Value.int n).toJson.numbers := by simp [Value.int, toJson, Json.numbers]
  have hinside : Json.ReadsInside (Value.int n).toJson.compact (.int n) :=
    readsInside_compact (fun depth => .int depth n) hfloats
  exact hinside

theorem readsInside_uint {n : UInt64} (large : 9223372036854775807 < n.toNat) :
    Json.ReadsInside (Text.numeral n.toNat) (.uint n) := by
  have hfloats : ∀ x, .float x ∉ (Value.uint n).toJson.numbers := by simp [Value.uint, toJson, Json.numbers]
  have hinside : Json.ReadsInside (Value.uint n).toJson.compact (.uint n) :=
    readsInside_compact (fun depth => .uint depth large) hfloats
  exact hinside

/-- What is read is written so that it is read again, as a value and as a context, and each
    integer that 64 bits hold is read as itself at any depth, signed if it can be. -/
theorem written_reads_again :
    (∀ text value, ofText text = .ok value → value.FloatsReadBack →
      ofText value.toJson.toText = .ok value ∧
        (ofText value.toJson.toText).map (·.toJson.toText) = .ok value.toJson.toText) ∧
    (∀ text context, Context.ofText text = .ok context → context.toValue.FloatsReadBack →
      Context.ofText context.toValue.toJson.toText = .ok context ∧
        (Context.ofText context.toValue.toJson.toText).map (·.toValue.toJson.toText) =
          .ok context.toValue.toJson.toText) ∧
    ∀ n : Int, -9223372036854775808 ≤ n → n ≤ 18446744073709551615 →
      (n ≤ 9223372036854775807 ∧ ∃ i : Int64, i.toInt = n ∧ Json.ReadsInside (Text.decimal n) (.int i)) ∨
      (9223372036854775807 < n ∧ ∃ u : UInt64, (u.toNat : Int) = n ∧ Json.ReadsInside (Text.decimal n) (.uint u)) := by
  refine ⟨fun text value h hback => ?_, fun text context h hback => ?_, fun n hlow hhigh => ?_⟩
  · have hagain := ofText_toText (readWithin_of_ofText h) hback
    exact ⟨hagain, by rw [hagain]; rfl⟩
  · have hagain := ofText_toText (readWithin_of_ofText (Context.ofText_eq_ok_iff.mp h)) hback
    have hcontext := Context.ofText_eq_ok_iff.mpr hagain
    exact ⟨hcontext, by rw [hcontext]; rfl⟩
  · by_cases hsigned : n ≤ 9223372036854775807
    · have hexact : (Int64.ofInt n).toInt = n := Int64.toInt_ofInt_of_le (by omega) (by omega)
      have hinside := readsInside_int (Int64.ofInt n)
      rw [hexact] at hinside
      exact Or.inl ⟨hsigned, _, hexact, hinside⟩
    · have hexact : (UInt64.ofNat n.toNat).toNat = n.toNat := by
        rw [UInt64.toNat_ofNat', Nat.mod_eq_of_lt (by omega)]
      have hdecimal : Text.decimal n = Text.numeral (UInt64.ofNat n.toNat).toNat := by
        rw [hexact, Text.decimal, if_neg (by omega), show n.natAbs = n.toNat by omega]
      have hinside := readsInside_uint (n := UInt64.ofNat n.toNat) (by omega)
      rw [← hdecimal] at hinside
      exact Or.inr ⟨by omega, _, by omega, hinside⟩

deriving instance DecidableEq for Json.Token

def mixedText : String :=
  "\x7b\"b\":0,\"a\":[1.5,18446744073709551615,\"\\n\"],\"b\":-9223372036854775808\x7d"

def mixedEntries : List (String × Value) :=
  [("a", .sequence [.float 1.5, .uint 18446744073709551615, .string "\n"]), ("b", .int (-9223372036854775808))]

/-- The text with numbers of all kinds is written so that it is read again, and so is its greatest integer. -/
theorem written_reads_again_mixed :
    (ofText mixedText = .ok (.mapping mixedEntries) ∧
      ofText (Value.mapping mixedEntries).toJson.toText = .ok (.mapping mixedEntries)) ∧
    (Context.ofText mixedText = .ok ⟨mixedEntries⟩ ∧
      Context.ofText (Context.mk mixedEntries).toValue.toJson.toText = .ok ⟨mixedEntries⟩) ∧
    ∃ u : UInt64, (u.toNat : Int) = 18446744073709551615 ∧
      Json.ReadsInside (Text.decimal 18446744073709551615) (.uint u) := by
  have htokens : Json.tokens (mixedText.toList.map some) =
      [.openObject, .text (.ok "b"), .colon, .scalar (.ok (.number (.int 0))), .comma, .text (.ok "a"), .colon,
        .openList, .scalar (.ok (.number (.float 1.5))), .comma,
        .scalar (.ok (.number (.uint 18446744073709551615))), .comma, .text (.ok "\n"), .closeList, .comma,
        .text (.ok "b"), .colon, .scalar (.ok (.number (.int (-9223372036854775808)))), .closeObject] := by
    decide +kernel
  have hread : ofText mixedText = .ok (.mapping mixedEntries) := by
    rw [ofText, Json.Document.ofText, Json.Document.ofSymbols, htokens]
    rfl
  have hfloat : Json.tokens ((Value.float 1.5).toJson.toText.toList.map some) = [.scalar (.ok (.number (.float 1.5)))] := by
    decide +kernel
  have hone : ∀ x, .float x ∈ (Value.mapping mixedEntries).toJson.numbers → x = 1.5 := by
    intro x hx
    simpa [mixedEntries, Value.float, Value.int, Value.uint, toJson, entriesToJson, itemsToJson, Json.numbers,
      Json.memberNumbers, Json.itemNumbers] using hx
  have hback : (Value.mapping mixedEntries).FloatsReadBack := by
    intro x hx
    rw [hone x hx, ofText, Json.Document.ofText, Json.Document.ofSymbols, hfloat]
    rfl
  have hcontext : Context.ofText mixedText = .ok ⟨mixedEntries⟩ := Context.ofText_eq_ok_iff.mpr hread
  obtain ⟨hvalues, hcontexts, hintegers⟩ := written_reads_again
  refine ⟨⟨hread, (hvalues _ _ hread hback).1⟩, ⟨hcontext, (hcontexts _ _ hcontext hback).1⟩, ?_⟩
  rcases hintegers 18446744073709551615 (by omega) (by omega) with ⟨hsigned, -⟩ | ⟨-, hunsigned⟩
  · omega
  · exact hunsigned

end Value

end Rulebook
