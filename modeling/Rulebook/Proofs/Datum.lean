/-
  Rulebook.Proofs.Datum — values that become data of the engine come back as themselves.

  The engine keeps the entries of a map in no order that one can rely on: between a value
  and what comes back of it, the entries of every map, at any depth, may change places
  (`Datum.Reordered`), when the map is built and again when it is gone through. What comes
  back is the same value nevertheless, since a mapping lists its entries in ascending
  order of their names whatever order they are put in.
  - `Entries.ofList_of_perm`: entries in ascending order are put back in that order.
  - `Datum.Reordered.trans`: changing places twice is changing places once.
  - `Datum.reordered_arranged`: an arrangement only changes places.
  - `Datum.toEntries_of_paired`: map entries become the mapping entries of their values.
  - `Datum.toValue_of_reordered`, `Datum.toItems_of_reordered`: a value comes back as
    itself, and so do the values of a list.
-/

import Mathlib.Data.List.Perm.Basic
import Rulebook.Expr.Datum

namespace Rulebook

/-! ## Entries in another order -/

namespace Entries

variable {α : Type}

theorem perm_put {entries : List (String × α)} {name : String} (value : α) (h : name ∉ entries.map Prod.fst) :
    (put entries name value).Perm ((name, value) :: entries) := by
  induction entries with
  | nil => exact .refl _
  | cons entry rest ih =>
    obtain ⟨other, old⟩ := entry
    simp only [List.map_cons, List.mem_cons, not_or] at h
    simp only [put]
    split
    · exact .refl _
    · rw [if_neg h.1]
      exact ((ih h.2).cons _).trans (.swap _ _ _)

/-- Entries of names that are all new are added one by one. -/
theorem perm_foldl_put (entries : List (String × α)) {done : List (String × α)}
    (h : ((done ++ entries).map Prod.fst).Nodup) :
    (entries.foldl (fun done entry => put done entry.1 entry.2) done).Perm (done ++ entries) := by
  induction entries generalizing done with
  | nil => rw [List.append_nil]; exact .refl _
  | cons entry rest ih =>
    have hmove : (entry :: done ++ rest).Perm (done ++ entry :: rest) := List.perm_middle.symm
    have hnew : entry.1 ∉ done.map Prod.fst := by
      have hn := (hmove.map Prod.fst).nodup_iff.mpr h
      intro hm
      exact (List.nodup_cons.mp hn).1 (by simp_all)
    have hput : (put done entry.1 entry.2 ++ rest).Perm (entry :: done ++ rest) :=
      (perm_put entry.2 hnew).append_right rest
    have hnodup : ((put done entry.1 entry.2 ++ rest).map Prod.fst).Nodup :=
      ((hput.trans hmove).map Prod.fst).nodup_iff.mpr h
    exact (ih hnodup).trans (hput.trans hmove)

theorem Sorted.nodup {entries : List (String × α)} (h : Sorted entries) : (entries.map Prod.fst).Nodup :=
  List.Pairwise.imp (fun hlt => String.ne_of_lt hlt) h

/-- There is one way to list entries in ascending order. -/
theorem Sorted.eq_of_perm {entries other : List (String × α)} (h : Sorted entries) (ho : Sorted other)
    (hp : entries.Perm other) : entries = other := by
  have hpairs : ∀ {l : List (String × α)}, Sorted l → l.Pairwise fun a b => a.1 < b.1 := List.pairwise_map.mp
  refine hp.eq_of_pairwise (fun a b _ _ hab hba => ?_) (hpairs h) (hpairs ho)
  exact absurd (String.lt_trans hab hba) (String.lt_irrefl _)

/-- Entries in ascending order are put back in that order, in whatever order they are taken. -/
theorem ofList_of_perm {entries other : List (String × α)} (h : Sorted entries) (hp : other.Perm entries) :
    ofList other = entries := by
  have hnodup : (([] ++ other).map Prod.fst).Nodup := (hp.map Prod.fst).nodup_iff.mpr h.nodup
  exact (sorted_ofList other).eq_of_perm h ((perm_foldl_put other hnodup).trans hp)

theorem get?_of_mem {entries : List (String × α)} (once : (entries.map Prod.fst).Nodup) {name : String} {value : α}
    (h : (name, value) ∈ entries) : get? entries name = some value := by
  induction entries with
  | nil => cases h
  | cons entry rest ih =>
    rw [List.map_cons, List.nodup_cons] at once
    rw [get?_cons]
    rcases List.mem_cons.mp h with rfl | h
    · rw [if_pos rfl]
    · have hname : name ∈ rest.map Prod.fst := List.mem_map_of_mem (f := Prod.fst) h
      have hne : entry.1 ≠ name := by
        rintro rfl
        exact once.1 hname
      rw [if_neg hne]
      exact ih once.2 h

theorem mem_of_get? {entries : List (String × α)} {name : String} {value : α} (h : get? entries name = some value) :
    (name, value) ∈ entries := by
  obtain ⟨entry, hf, rfl⟩ := Option.map_eq_some_iff.mp h
  have hname : entry.1 = name := eq_of_beq (List.find?_some (p := fun entry : String × α => entry.1 == name) hf)
  rw [← hname]
  exact List.mem_of_find?_eq_some hf

theorem eq_of_mem {entries : List (String × α)} (once : (entries.map Prod.fst).Nodup) {name : String} {value other : α}
    (h : (name, value) ∈ entries) (ho : (name, other) ∈ entries) : value = other :=
  Option.some.inj ((get?_of_mem once h).symm.trans (get?_of_mem once ho))

end Entries

/-! ## Values -/

namespace Value

/-- Induction on a value, with the statement for each item of a sequence and each entry of a mapping. -/
@[elab_as_elim, induction_eliminator]
theorem induct {motive : Value → Prop} (null : motive .null) (boolean : ∀ b, motive (.boolean b))
    (number : ∀ n, motive (.number n)) (string : ∀ text, motive (.string text))
    (sequence : ∀ items, (∀ item ∈ items, motive item) → motive (.sequence items))
    (mapping : ∀ entries, (∀ entry ∈ entries, motive entry.2) → motive (.mapping entries)) (value : Value) :
    motive value :=
  @Value.rec motive (fun items => ∀ item ∈ items, motive item) (fun entries => ∀ entry ∈ entries, motive entry.2)
    (fun entry => motive entry.2) null boolean number string sequence mapping (by simp)
    (fun _ _ hitem hitems => List.forall_mem_cons.mpr ⟨hitem, hitems⟩) (by simp)
    (fun _ _ hentry hentries => List.forall_mem_cons.mpr ⟨hentry, hentries⟩)
    (fun _ _ h => h) value

theorem orderedItems_iff {items : List Value} : OrderedItems items ↔ ∀ item ∈ items, item.Ordered := by
  induction items with
  | nil => simp [OrderedItems]
  | cons item rest ih => simp [OrderedItems, ih]

theorem orderedEntries_iff {entries : List (String × Value)} :
    OrderedEntries entries ↔ ∀ entry ∈ entries, entry.2.Ordered := by
  induction entries with
  | nil => simp [OrderedEntries]
  | cons entry rest ih => simp [OrderedEntries, ih]

end Value

/-! ## Data in another order -/

namespace Datum

mutual
/-- A datum as another, but for the order of the entries of maps at any depth. -/
inductive Reordered : Datum → Datum → Prop where
  | same (datum : Datum) : Reordered datum datum
  | list {items items' : List Datum} : ReorderedItems items items' → Reordered (.list items) (.list items')
  | map {entries entries' shuffled : List (Key × Datum)} : ReorderedEntries entries entries' →
      entries'.Perm shuffled → Reordered (.map entries) (.map shuffled)
inductive ReorderedItems : List Datum → List Datum → Prop where
  | nil : ReorderedItems [] []
  | cons {item item' : Datum} {rest rest' : List Datum} : Reordered item item' → ReorderedItems rest rest' →
      ReorderedItems (item :: rest) (item' :: rest')
inductive ReorderedEntries : List (Key × Datum) → List (Key × Datum) → Prop where
  | nil : ReorderedEntries [] []
  | cons {key : Key} {datum datum' : Datum} {rest rest' : List (Key × Datum)} : Reordered datum datum' →
      ReorderedEntries rest rest' → ReorderedEntries ((key, datum) :: rest) ((key, datum') :: rest')
end

theorem ReorderedItems.refl (items : List Datum) : ReorderedItems items items := by
  induction items with
  | nil => exact .nil
  | cons item rest ih => exact .cons (.same item) ih

theorem ReorderedEntries.refl (entries : List (Key × Datum)) : ReorderedEntries entries entries := by
  induction entries with
  | nil => exact .nil
  | cons entry rest ih => exact .cons (.same entry.2) ih

theorem Reordered.items {items : List Datum} {datum : Datum} (h : Reordered (.list items) datum) :
    ∃ items', datum = .list items' ∧ ReorderedItems items items' := by
  cases h with
  | same => exact ⟨items, rfl, .refl items⟩
  | list h => exact ⟨_, rfl, h⟩

theorem Reordered.entries {entries : List (Key × Datum)} {datum : Datum} (h : Reordered (.map entries) datum) :
    ∃ entries' shuffled, datum = .map shuffled ∧ ReorderedEntries entries entries' ∧ entries'.Perm shuffled := by
  cases h with
  | same => exact ⟨entries, entries, rfl, .refl entries, .refl entries⟩
  | map h hp => exact ⟨_, _, rfl, h, hp⟩

theorem reorderedEntries_iff {entries entries' : List (Key × Datum)} :
    ReorderedEntries entries entries' ↔ List.Forall₂ (fun a b => a.1 = b.1 ∧ Reordered a.2 b.2) entries entries' := by
  constructor
  · intro h
    induction entries generalizing entries' with
    | nil =>
      cases h
      exact .nil
    | cons entry rest ih =>
      cases h with
      | cons hentry hrest => exact .cons ⟨rfl, hentry⟩ (ih hrest)
  · intro h
    induction h with
    | nil => exact .nil
    | @cons a b _ _ hentry _ ih =>
      obtain ⟨key, datum⟩ := a
      obtain ⟨key', datum'⟩ := b
      obtain ⟨rfl, hd⟩ : key = key' ∧ Reordered datum datum' := hentry
      exact .cons hd ih

/-- Entries that have changed places may have their data reordered first, and change places then. -/
theorem ReorderedEntries.of_perm {entries mixed mixed' : List (Key × Datum)} (hp : entries.Perm mixed)
    (h : ReorderedEntries mixed mixed') : ∃ entries', ReorderedEntries entries entries' ∧ entries'.Perm mixed' := by
  obtain ⟨entries', he, hp'⟩ := List.perm_comp_forall₂ hp (reorderedEntries_iff.mp h)
  exact ⟨entries', reorderedEntries_iff.mpr he, hp'⟩

mutual
theorem Reordered.trans {a b c : Datum} : Reordered a b → Reordered b c → Reordered a c
  | .same _, h => h
  | .list h, h' => by
    obtain ⟨items, rfl, hitems⟩ := h'.items
    exact .list (h.trans hitems)
  | .map h hp, h' => by
    obtain ⟨entries, shuffled, rfl, hentries, hp'⟩ := h'.entries
    obtain ⟨moved, hmoved, hp''⟩ := hentries.of_perm hp
    exact .map (h.trans hmoved) (hp''.trans hp')
theorem ReorderedItems.trans {a b c : List Datum} : ReorderedItems a b → ReorderedItems b c → ReorderedItems a c
  | .nil, h => h
  | .cons hitem hrest, h => by
    cases h with
    | cons hitem' hrest' => exact .cons (hitem.trans hitem') (hrest.trans hrest')
theorem ReorderedEntries.trans {a b c : List (Key × Datum)} :
    ReorderedEntries a b → ReorderedEntries b c → ReorderedEntries a c
  | .nil, h => h
  | .cons hentry hrest, h => by
    cases h with
    | cons hentry' hrest' => exact .cons (hentry.trans hentry') (hrest.trans hrest')
end

mutual
/-- An arrangement changes the order of maps and nothing else. -/
theorem reordered_arranged (arrangement : Arrangement) : (datum : Datum) → Reordered datum (datum.arranged arrangement)
  | .list items => .list (reorderedItems_arranged arrangement items)
  | .map entries => .map (reorderedEntries_arranged arrangement entries) (arrangement.perm _).symm
  | .null | .boolean _ | .int _ | .uint _ | .float _ | .string _ | .bytes _ | .duration _ | .timestamp _
  | .function _ _ => .same _
theorem reorderedItems_arranged (arrangement : Arrangement) :
    (items : List Datum) → ReorderedItems items (arrangedItems arrangement items)
  | [] => .nil
  | item :: rest => .cons (reordered_arranged arrangement item) (reorderedItems_arranged arrangement rest)
theorem reorderedEntries_arranged (arrangement : Arrangement) :
    (entries : List (Key × Datum)) → ReorderedEntries entries (arrangedEntries arrangement entries)
  | [] => .nil
  | (_, datum) :: rest => .cons (reordered_arranged arrangement datum) (reorderedEntries_arranged arrangement rest)
end

theorem ofItems_eq_map (items : List Value) : ofItems items = items.map ofValue := by
  induction items with
  | nil => rfl
  | cons item items ih => rw [ofItems, ih, List.map_cons]

theorem arrangedItems_eq_map (arrangement : Arrangement) (items : List Datum) :
    arrangedItems arrangement items = items.map (arranged arrangement) := by
  induction items with
  | nil => rfl
  | cons item rest ih => rw [arrangedItems, ih, List.map_cons]

/-! ## The way back -/

/-- Whether a map entry becomes a mapping entry: the text of its key is the name, and its datum the value. -/
def Paired (entry : Key × Datum) (entry' : String × Value) : Prop :=
  entry.1.text = entry'.1 ∧ entry.2.toValue = .ok entry'.2

/-- Map entries become mapping entries, put one after the other. -/
theorem toEntries_of_paired {entries : List (Key × Datum)} {entries' : List (String × Value)}
    (h : List.Forall₂ Paired entries entries') (done : List (String × Value)) :
    toEntries done entries = .ok (entries'.foldl (fun done entry => Entries.put done entry.1 entry.2) done) := by
  induction h generalizing done with
  | nil => rfl
  | cons hentry _ ih =>
    obtain ⟨hkey, hvalue⟩ := hentry
    simp only [toEntries, List.foldl_cons, hvalue, hkey]
    exact ih _

variable {items : List Value} {entries : List (String × Value)}

theorem toItems_of_reordered_of {data : List Datum}
    (ih : ∀ item ∈ items, ∀ datum, Reordered (ofValue item) datum → datum.toValue = .ok item)
    (h : ReorderedItems (ofItems items) data) : toItems data = .ok items := by
  induction items generalizing data with
  | nil =>
    cases h
    rfl
  | cons item rest ihr =>
    cases h with
    | cons hitem hrest =>
      have hi := ih item (List.mem_cons_self ..) _ hitem
      have hr := ihr (fun other ho => ih other (List.mem_cons_of_mem _ ho)) hrest
      simp only [toItems, hi, hr]
      rfl

theorem paired_of_reordered_of {data : List (Key × Datum)}
    (ih : ∀ entry ∈ entries, ∀ datum, Reordered (ofValue entry.2) datum → datum.toValue = .ok entry.2)
    (h : ReorderedEntries (ofEntries entries) data) : List.Forall₂ Paired data entries := by
  induction entries generalizing data with
  | nil =>
    cases h
    exact .nil
  | cons entry rest ihr =>
    cases h with
    | cons hentry hrest =>
      exact .cons ⟨rfl, ih entry (List.mem_cons_self ..) _ hentry⟩
        (ihr (fun other ho => ih other (List.mem_cons_of_mem _ ho)) hrest)

/-- The datum of a value, with its maps in any order, becomes that value again. -/
theorem toValue_of_reordered {value : Value} (h : value.Ordered) {datum : Datum}
    (hd : Reordered (ofValue value) datum) : datum.toValue = .ok value := by
  induction value generalizing datum with
  | null => cases hd; rfl
  | boolean b => cases hd; rfl
  | number n => cases n <;> cases hd <;> rfl
  | string text => cases hd; rfl
  | sequence items ih =>
    obtain ⟨data, rfl, hitems⟩ := hd.items
    have hall := Value.orderedItems_iff.mp h
    have hback := toItems_of_reordered_of (fun item hm datum => ih item hm (hall item hm)) hitems
    simp only [toValue, hback]
    rfl
  | mapping entries ih =>
    obtain ⟨data, shuffled, rfl, hentries, hp⟩ := hd.entries
    obtain ⟨hsorted, hrest⟩ := h
    have hall := Value.orderedEntries_iff.mp hrest
    have hpaired := paired_of_reordered_of (fun entry hm datum => ih entry hm (hall entry hm)) hentries
    -- what has changed places in the map has changed places in the mapping entries
    obtain ⟨entries', hpaired', hp'⟩ := List.perm_comp_forall₂ hp.symm hpaired
    have hback := toEntries_of_paired hpaired' []
    have hput : entries'.foldl (fun done entry => Entries.put done entry.1 entry.2) [] = entries :=
      Entries.ofList_of_perm hsorted hp'
    simp only [toValue, hback, hput]
    rfl

/-- So does the datum of a value as an engine has it. -/
theorem toValue_arranged {value : Value} (h : value.Ordered) (arrangement : Arrangement) :
    ((ofValue value).arranged arrangement).toValue = .ok value :=
  toValue_of_reordered h (reordered_arranged arrangement _)

theorem toItems_of_reordered (h : Value.OrderedItems items) {data : List Datum}
    (hd : ReorderedItems (ofItems items) data) : toItems data = .ok items := by
  have hall := Value.orderedItems_iff.mp h
  exact toItems_of_reordered_of (fun item hm _ => toValue_of_reordered (hall item hm)) hd

/-- A value becomes a datum, whose maps are built in one order and gone through in another, and the
    datum becomes the same value again. -/
theorem toValue_ofValue {value : Value} (h : value.Ordered) {built read : Datum}
    (hb : Reordered (ofValue value) built) (hr : Reordered built read) : read.toValue = .ok value :=
  toValue_of_reordered h (hb.trans hr)

def nested : Value :=
  .mapping [("a", .sequence [.int 1, .uint 1, .float (0.0 / 0.0)]), ("b", .mapping [("x", .null), ("y", .boolean true)])]

theorem toValue_ofValue_nested :
    toValue (.map [(.string "b", .map [(.string "y", .boolean true), (.string "x", .null)]),
      (.string "a", .list [.int 1, .uint 1, .float (0.0 / 0.0)])]) = .ok nested := by
  have h : nested.Ordered := by
    exact ⟨by decide, ⟨trivial, trivial, trivial, trivial⟩, ⟨by decide, trivial, trivial, trivial⟩, trivial⟩
  -- the inner map is built the other way round, the outer one is gone through so
  have hb : Reordered (ofValue nested) (.map [(.string "a", .list [.int 1, .uint 1, .float (0.0 / 0.0)]),
      (.string "b", .map [(.string "y", .boolean true), (.string "x", .null)])]) :=
    .map (.cons (.same _) (.cons (.map (.cons (.same _) (.cons (.same _) .nil)) (.swap _ _ _)) .nil)) (.refl _)
  exact toValue_ofValue h hb (.map (.refl _) (.swap _ _ _))

end Datum

end Rulebook
