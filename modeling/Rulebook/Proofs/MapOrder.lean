/-
  Rulebook.Proofs.MapOrder — what the order of a map's entries can change.

  A map keeps keys of four kinds apart, and a mapping has their texts for names: keys of
  one text are one name, under which the entry that is taken last stays. So the value of a
  map can hang on the order in which its entries are taken, at any depth, and it does just
  where two entries of one map have one text and different values. It has an entry for
  each of the map's just where no two texts are the same.
  - `Entries.ofList_congr`: entries that agree on each name are put alike in any order.
  - `Datum.toEntries_eq_ok_iff`: which entries a mapping is made of.
  - `Datum.toValue_of_reordered_of_unambiguous`, `Datum.unambiguous_of_reordered`: one value
    in every order, and what that takes.
  - `Datum.toValue_map_account`: both for a map whose entries all have values.
-/

import Mathlib.Data.List.Nodup
import Rulebook.Extension.Registry
import Rulebook.Proofs.Datum
import Rulebook.Proofs.Steps

namespace Rulebook

/-! ## Entries that agree -/

namespace Entries

variable {α : Type} {entries other : List (String × α)} {name : String} {value : α}

/-- Whether entries of one name have one value. -/
def Agree (entries : List (String × α)) : Prop := ∀ a ∈ entries, ∀ b ∈ entries, a.1 = b.1 → a.2 = b.2

theorem get?_ofList (entries : List (String × α)) (name : String) :
    get? (ofList entries) name = (entries.filter fun entry => entry.1 == name).getLast?.map Prod.snd := by
  rw [ofList, get?_foldl_put, get?_nil, Option.or_none]

theorem get?_ofList_concat (entries : List (String × α)) (name : String) (value : α) :
    get? (ofList (entries ++ [(name, value)])) name = some value := by
  simp [get?_ofList]

theorem get?_ofList_of_mem (h : Agree entries) (hm : (name, value) ∈ entries) : get? (ofList entries) name = some value := by
  have hfilter : (name, value) ∈ entries.filter fun entry => entry.1 == name := List.mem_filter.mpr ⟨hm, beq_self_eq_true _⟩
  rw [get?_ofList]
  cases hlast : (entries.filter fun entry => entry.1 == name).getLast? with
  | none =>
    rw [List.getLast?_eq_none_iff.mp hlast] at hfilter
    cases hfilter
  | some last =>
    obtain ⟨hlm, hname⟩ := List.mem_filter.mp (List.mem_of_getLast? hlast)
    exact congrArg some (h last hlm (name, value) hm (eq_of_beq hname))

theorem Sorted.ext (h : Sorted entries) (ho : Sorted other) (hget : ∀ name, get? entries name = get? other name) :
    entries = other := by
  have hnodup : ∀ {l : List (String × α)}, Sorted l → l.Nodup := fun hl => List.Nodup.of_map _ hl.nodup
  refine h.eq_of_perm ho ((List.perm_ext_iff_of_nodup (hnodup h) (hnodup ho)).mpr fun entry => ⟨fun hm => ?_, fun hm => ?_⟩)
  · exact mem_of_get? ((hget _).symm.trans (get?_of_mem h.nodup hm))
  · exact mem_of_get? ((hget _).trans (get?_of_mem ho.nodup hm))

/-- Entries that agree are put alike, in whatever order they are taken. -/
theorem ofList_congr (h : Agree entries) (hp : entries.Perm other) : ofList entries = ofList other := by
  have ho : Agree other := fun a ha b hb => h a (hp.mem_iff.mpr ha) b (hp.mem_iff.mpr hb)
  refine (sorted_ofList entries).ext (sorted_ofList other) fun name => ?_
  by_cases hm : ∃ value, (name, value) ∈ entries
  · obtain ⟨value, hm⟩ := hm
    rw [get?_ofList_of_mem h hm, get?_ofList_of_mem ho (hp.mem_iff.mp hm)]
  · have hnone {l : List (String × α)} (hl : l.Perm entries) : get? (ofList l) name = none := by
      have hfilter : (l.filter fun entry => entry.1 == name) = [] := by
        refine List.filter_eq_nil_iff.mpr fun entry he hname => hm ⟨entry.2, ?_⟩
        rw [← eq_of_beq hname]
        exact hl.mem_iff.mp he
      rw [get?_ofList, hfilter]
      rfl
    rw [hnone (.refl _), hnone hp.symm]

/-- As many entries are left as there were just where no name stands twice. -/
theorem perm_ofList_iff : (ofList entries).Perm entries ↔ (entries.map Prod.fst).Nodup := by
  constructor
  · intro h
    exact (h.map Prod.fst).nodup_iff.mp (sorted_ofList entries).nodup
  · intro h
    exact perm_foldl_put entries h

end Entries

/-! ## Data -/

namespace Datum

def IsAtom : Datum → Prop
  | .list _ => False
  | .map _ => False
  | _ => True

/-- Induction on a datum, with the statement for each item of a list and each entry of a map. -/
@[elab_as_elim]
theorem induct {motive : Datum → Prop} (atom : ∀ datum, datum.IsAtom → motive datum)
    (list : ∀ items, (∀ item ∈ items, motive item) → motive (.list items))
    (map : ∀ entries, (∀ entry ∈ entries, motive entry.2) → motive (.map entries)) (datum : Datum) : motive datum :=
  @Datum.rec motive (fun items => ∀ item ∈ items, motive item) (fun entries => ∀ entry ∈ entries, motive entry.2)
    (fun entry => motive entry.2) (atom _ trivial) (fun _ => atom _ trivial) (fun _ => atom _ trivial)
    (fun _ => atom _ trivial) (fun _ => atom _ trivial) (fun _ => atom _ trivial) (fun _ => atom _ trivial) list map
    (fun _ => atom _ trivial) (fun _ => atom _ trivial) (fun _ _ _ => atom _ trivial) (by simp)
    (fun _ _ hitem hitems => List.forall_mem_cons.mpr ⟨hitem, hitems⟩) (by simp)
    (fun _ _ hentry hentries => List.forall_mem_cons.mpr ⟨hentry, hentries⟩) (fun _ _ h => h) datum

mutual
/-- Whether no map in a datum has entries of one text with different values. -/
def Unambiguous : Datum → Prop
  | .list items => UnambiguousItems items
  | .map entries =>
    (∀ a ∈ entries, ∀ b ∈ entries, a.1.text = b.1.text → a.2.toValue = b.2.toValue) ∧ UnambiguousEntries entries
  | _ => True
def UnambiguousItems : List Datum → Prop
  | [] => True
  | item :: rest => item.Unambiguous ∧ UnambiguousItems rest
def UnambiguousEntries : List (Key × Datum) → Prop
  | [] => True
  | entry :: rest => entry.2.Unambiguous ∧ UnambiguousEntries rest
end

/-- Whether a mapping has an entry for each one of a map, of its text and its value, and no other. -/
def OneForEach (entries : List (Key × Datum)) (mapping : List (String × Value)) : Prop :=
  ∃ pairs, List.Forall₂ Paired entries pairs ∧ mapping.Perm pairs

variable {datum read : Datum} {items items' : List Datum} {entries entries' : List (Key × Datum)} {value : Value}

theorem unambiguousItems_iff : UnambiguousItems items ↔ ∀ item ∈ items, item.Unambiguous := by
  induction items with
  | nil => simp [UnambiguousItems]
  | cons item rest ih => simp [UnambiguousItems, ih]

theorem unambiguousEntries_iff : UnambiguousEntries entries ↔ ∀ entry ∈ entries, entry.2.Unambiguous := by
  induction entries with
  | nil => simp [UnambiguousEntries]
  | cons entry rest ih => simp [UnambiguousEntries, ih]

/-- Keys of different texts make no map ambiguous. -/
theorem unambiguous_of_nodup (hn : (entries.map (·.1.text)).Nodup) (h : ∀ entry ∈ entries, entry.2.Unambiguous) :
    (map entries).Unambiguous := by
  refine ⟨fun a ha b hb htext => ?_, unambiguousEntries_iff.mpr h⟩
  rw [List.inj_on_of_nodup_map hn ha hb htext]

/-! ## What a value is made of -/

theorem toItems_eq_ok_iff {values : List Value} :
    toItems items = .ok values ↔ List.Forall₂ (fun item value => item.toValue = .ok value) items values := by
  induction items generalizing values with
  | nil => simp [toItems, eq_comm]
  | cons item rest ih =>
    simp only [toItems, bind_eq_ok_iff, ih, List.forall₂_cons_left_iff, pure, Except.pure, Except.ok.injEq]
    constructor
    · rintro ⟨value, hvalue, more, hmore, rfl⟩
      exact ⟨value, more, hvalue, hmore, rfl⟩
    · rintro ⟨value, more, hvalue, hmore, rfl⟩
      exact ⟨value, hvalue, more, hmore, rfl⟩

theorem toEntries_eq_ok_iff {done result : List (String × Value)} : toEntries done entries = .ok result ↔
    ∃ pairs, List.Forall₂ Paired entries pairs ∧
      pairs.foldl (fun done entry => Entries.put done entry.1 entry.2) done = result := by
  induction entries generalizing done with
  | nil => simp [toEntries]
  | cons entry rest ih =>
    simp only [toEntries, bind_eq_ok_iff, ih, List.forall₂_cons_left_iff]
    constructor
    · rintro ⟨value, hvalue, pairs, hpairs, hresult⟩
      exact ⟨(entry.1.text, value) :: pairs, ⟨_, _, ⟨rfl, hvalue⟩, hpairs, rfl⟩, hresult⟩
    · rintro ⟨_, ⟨⟨name, value⟩, pairs, ⟨rfl, hvalue⟩, hpairs, rfl⟩, hresult⟩
      exact ⟨value, hvalue, pairs, hpairs, hresult⟩

theorem toValue_list_eq_ok_iff : (list items).toValue = .ok value ↔
    ∃ values, List.Forall₂ (fun item value => item.toValue = .ok value) items values ∧ .sequence values = value := by
  simp only [toValue, map_eq_ok_iff, toItems_eq_ok_iff]

theorem toValue_map_eq_ok_iff : (map entries).toValue = .ok value ↔
    ∃ pairs, List.Forall₂ Paired entries pairs ∧ .mapping (Entries.ofList pairs) = value := by
  simp only [toValue, map_eq_ok_iff, toEntries_eq_ok_iff, Entries.ofList]
  constructor
  · rintro ⟨_, ⟨pairs, hpairs, rfl⟩, hvalue⟩
    exact ⟨pairs, hpairs, hvalue⟩
  · rintro ⟨pairs, hpairs, hvalue⟩
    exact ⟨_, ⟨pairs, hpairs, rfl⟩, hvalue⟩

/-! ## One value in every order -/

theorem reorderedItems_iff : ReorderedItems items items' ↔ List.Forall₂ Reordered items items' := by
  constructor
  · intro h
    induction items generalizing items' with
    | nil =>
      cases h
      exact .nil
    | cons item rest ih =>
      cases h with
      | cons hitem hrest => exact .cons hitem (ih hrest)
  · intro h
    induction h with
    | nil => exact .nil
    | cons hitem _ ih => exact .cons hitem ih

theorem Reordered.eq_of_isAtom (h : datum.IsAtom) (hr : Reordered datum read) : read = datum := by
  cases hr with
  | same => rfl
  | list => exact h.elim
  | map => exact h.elim

/-- Entries that become mapping entries agree where those of one text have one value. -/
theorem agree_of_paired {pairs : List (String × Value)} (hp : List.Forall₂ Paired entries pairs)
    (h : ∀ a ∈ entries, ∀ b ∈ entries, a.1.text = b.1.text → a.2.toValue = b.2.toValue) : Entries.Agree pairs := by
  intro x hx y hy hname
  obtain ⟨a, ha, htext, hvalue⟩ := exists_of_mem_right hp hx
  obtain ⟨b, hb, htext', hvalue'⟩ := exists_of_mem_right hp hy
  have hsame := h a ha b hb (htext.trans (hname.trans htext'.symm))
  exact Except.ok.inj (hvalue.symm.trans (hsame.trans hvalue'))

theorem toValue_of_reordered_of_unambiguous (h : datum.Unambiguous) (hv : datum.toValue = .ok value)
    (hr : Reordered datum read) : read.toValue = .ok value := by
  induction datum using induct generalizing read value with
  | atom datum hatom => rwa [hr.eq_of_isAtom hatom]
  | list items ih =>
    obtain ⟨items', rfl, hitems⟩ := hr.items
    obtain ⟨values, hvalues, rfl⟩ := toValue_list_eq_ok_iff.mp hv
    have hall := unambiguousItems_iff.mp h
    refine toValue_list_eq_ok_iff.mpr ⟨values, ?_, rfl⟩
    exact forall₂_of_common (reorderedItems_iff.mp hitems) hvalues fun item hm _ _ hread hvalue =>
      ih item hm (hall item hm) hvalue hread
  | map entries ih =>
    obtain ⟨entries', shuffled, rfl, hentries, hp⟩ := hr.entries
    obtain ⟨pairs, hpairs, rfl⟩ := toValue_map_eq_ok_iff.mp hv
    obtain ⟨hagree, hrest⟩ := h
    have hall := unambiguousEntries_iff.mp hrest
    have hread : List.Forall₂ Paired entries' pairs :=
      forall₂_of_common (reorderedEntries_iff.mp hentries) hpairs fun entry hm _ _ hkey hpair =>
        ⟨hkey.1 ▸ hpair.1, ih entry hm (hall entry hm) hpair.2 hkey.2⟩
    -- what has changed places in the map changes places among the pairs
    obtain ⟨pairs', hpairs', hp'⟩ := List.perm_comp_forall₂ hp.symm hread
    refine toValue_map_eq_ok_iff.mpr ⟨pairs', hpairs', ?_⟩
    rw [Entries.ofList_congr (agree_of_paired hpairs hagree) hp'.symm]

/-! ## Entries taken last -/

/-- An entry can be taken last, with its datum in another order. -/
theorem exists_reordered_last {entry : Key × Datum} (hm : entry ∈ entries) (hr : Reordered entry.2 read) :
    ∃ rest, Reordered (map entries) (map (rest ++ [(entry.1, read)])) := by
  obtain ⟨before, after, rfl⟩ := List.append_of_mem hm
  have hfront : Reordered (map (before ++ entry :: after)) (map (entry :: (before ++ after))) :=
    .map (.refl _) List.perm_middle
  have hlast : Reordered (map (entry :: (before ++ after))) (map (before ++ after ++ [(entry.1, read)])) :=
    .map (.cons hr (.refl _)) (List.perm_append_singleton _ _).symm
  exact ⟨_, hfront.trans hlast⟩

/-- The value of the entry that is taken last stays. -/
theorem get?_of_last {mapping : List (String × Value)} {rest : List (Key × Datum)} {key : Key}
    (h : (map (rest ++ [(key, datum)])).toValue = .ok (.mapping mapping)) :
    ∃ value, datum.toValue = .ok value ∧ Entries.get? mapping key.text = some value := by
  obtain ⟨pairs, hpairs, hmapping⟩ := toValue_map_eq_ok_iff.mp h
  obtain rfl := Value.mapping.inj hmapping
  obtain ⟨front, last, _, rfl, -, ⟨hname, hvalue⟩, hnil⟩ := exists_of_forall₂_append hpairs
  cases hnil
  refine ⟨last.2, hvalue, ?_⟩
  rw [hname]
  exact Entries.get?_ofList_concat front last.1 last.2

theorem unambiguous_of_reordered (h : ∀ read, Reordered datum read → read.toValue = .ok value) : datum.Unambiguous := by
  induction datum using induct generalizing value with
  | atom datum hatom => cases datum <;> trivial
  | list items ih =>
    obtain ⟨values, hvalues, rfl⟩ := toValue_list_eq_ok_iff.mp (h _ (.same _))
    refine unambiguousItems_iff.mpr fun item hm => ?_
    obtain ⟨before, after, rfl⟩ := List.append_of_mem hm
    obtain ⟨front, value, back, rfl, hlength, -, -⟩ := exists_of_forall₂_append hvalues
    have hone : ∀ read, Reordered item read → read.toValue = .ok value := by
      intro read hr
      have hread : Reordered (list (before ++ item :: after)) (list (before ++ read :: after)) := by
        have hsame (rest : List Datum) : List.Forall₂ Reordered rest rest := List.forall₂_same.mpr fun _ _ => .same _
        exact .list (reorderedItems_iff.mpr (List.rel_append (hsame before) (.cons hr (hsame after))))
      obtain ⟨_, hvalues', hsame⟩ := toValue_list_eq_ok_iff.mp (h _ hread)
      obtain ⟨front', value', back', rfl, hlength', hvalue', -⟩ := exists_of_forall₂_append hvalues'
      obtain ⟨-, hcons⟩ := List.append_inj (Value.sequence.inj hsame) (hlength'.trans hlength.symm)
      rw [hvalue', (List.cons.inj hcons).1]
    exact ih item hm hone
  | map entries ih =>
    obtain ⟨pairs, -, rfl⟩ := toValue_map_eq_ok_iff.mp (h _ (.same _))
    have hlast : ∀ entry ∈ entries, ∀ read, Reordered entry.2 read →
        ∃ value, read.toValue = .ok value ∧ Entries.get? (Entries.ofList pairs) entry.1.text = some value := by
      intro entry hm read hr
      obtain ⟨rest, hrest⟩ := exists_reordered_last hm hr
      exact get?_of_last (h _ hrest)
    refine ⟨fun a ha b hb htext => ?_, unambiguousEntries_iff.mpr fun entry hm => ?_⟩
    · obtain ⟨value, hvalue, hget⟩ := hlast a ha a.2 (.same _)
      obtain ⟨value', hvalue', hget'⟩ := hlast b hb b.2 (.same _)
      rw [htext] at hget
      rw [hvalue, hvalue', Option.some.inj (hget.symm.trans hget')]
    · obtain ⟨value, -, hget⟩ := hlast entry hm entry.2 (.same _)
      have hone : ∀ read, Reordered entry.2 read → read.toValue = .ok value := by
        intro read hr
        obtain ⟨value', hvalue', hget'⟩ := hlast entry hm read hr
        rw [hvalue', Option.some.inj (hget'.symm.trans hget)]
      exact ih entry hm hone

/-! ## Maps -/

theorem rightUnique_paired : Relator.RightUnique Paired := by
  rintro entry ⟨name, value⟩ ⟨name', value'⟩ ⟨rfl, hvalue⟩ ⟨rfl, hvalue'⟩
  exact congrArg _ (Except.ok.inj (hvalue.symm.trans hvalue'))

/-- A mapping has an entry for each one of a map just where no two keys have one text. -/
theorem oneForEach_iff {pairs : List (String × Value)} (hp : List.Forall₂ Paired entries pairs) :
    OneForEach entries (Entries.ofList pairs) ↔ (entries.map (·.1.text)).Nodup := by
  have hnames : entries.map (·.1.text) = pairs.map Prod.fst := by
    induction hp with
    | nil => rfl
    | cons hentry _ ih => rw [List.map_cons, List.map_cons, hentry.1, ih]
  rw [hnames, ← Entries.perm_ofList_iff]
  constructor
  · rintro ⟨others, hothers, hperm⟩
    rwa [← List.right_unique_forall₂' rightUnique_paired hp hothers] at hperm
  · intro h
    exact ⟨pairs, hp, h⟩

/-- A map whose entries all have values becomes a mapping. The mapping is the same in every order in which entries are
    taken, at any depth, just where no text has different values, and it has an entry for each one of the map just where
    no two keys have one text. -/
theorem toValue_map_account (h : ∀ entry ∈ entries, ∃ value, entry.2.toValue = .ok value) :
    ∃ mapping, (map entries).toValue = .ok (.mapping mapping) ∧
      ((∀ read, Reordered (map entries) read → read.toValue = .ok (.mapping mapping)) ↔ (map entries).Unambiguous) ∧
      (OneForEach entries mapping ↔ (entries.map (·.1.text)).Nodup) := by
  obtain ⟨pairs, hpairs⟩ : ∃ pairs, List.Forall₂ Paired entries pairs := by
    refine exists_forall₂ fun entry hm => ?_
    obtain ⟨value, hvalue⟩ := h entry hm
    exact ⟨(entry.1.text, value), rfl, hvalue⟩
  have hvalue : (map entries).toValue = .ok (.mapping (Entries.ofList pairs)) :=
    toValue_map_eq_ok_iff.mpr ⟨pairs, hpairs, rfl⟩
  refine ⟨_, hvalue, ⟨unambiguous_of_reordered, fun hu read hr => ?_⟩, oneForEach_iff hpairs⟩
  exact toValue_of_reordered_of_unambiguous hu hvalue hr

def mixed : List (Key × Datum) :=
  [(.int 3, .boolean true), (.boolean false, .map [(.uint 7, .null), (.string "x", .int 1)]), (.string "a", .null)]

/-- Their texts are different, so its mapping is one, and has an entry for each. -/
theorem toValue_map_account_mixed :
    ∃ mapping, (∀ read, Reordered (map mixed) read → read.toValue = .ok (.mapping mapping)) ∧ OneForEach mixed mapping := by
  have hvalues : ∀ entry ∈ mixed, ∃ value, entry.2.toValue = .ok value := by
    simp only [mixed, List.forall_mem_cons]
    exact ⟨⟨_, rfl⟩, ⟨_, rfl⟩, ⟨_, rfl⟩, nofun⟩
  have hinner : ∀ entry ∈ [(Key.uint 7, Datum.null), (.string "x", .int 1)], entry.2.Unambiguous := by
    simp only [List.forall_mem_cons]
    exact ⟨trivial, trivial, nofun⟩
  have houter : ∀ entry ∈ mixed, entry.2.Unambiguous := by
    simp only [mixed, List.forall_mem_cons]
    exact ⟨trivial, unambiguous_of_nodup (by decide) hinner, trivial, nofun⟩
  obtain ⟨mapping, -, hall, hone⟩ := toValue_map_account hvalues
  exact ⟨mapping, hall.mpr (unambiguous_of_nodup (by decide) houter), hone.mpr (by decide)⟩

/-- A number and its text are keys of one text: of their entries one is left, and their order decides which. -/
theorem keys_of_one_text :
    Reordered (map [(.int 1, .int 10), (.string "1", .int 20)]) (map [(.string "1", .int 20), (.int 1, .int 10)]) ∧
      (map [(.int 1, .int 10), (.string "1", .int 20)]).toValue = .ok (.mapping [("1", .int 20)]) ∧
      (map [(.string "1", .int 20), (.int 1, .int 10)]).toValue = .ok (.mapping [("1", .int 10)]) ∧
      (map [(.int 1, .boolean true), (.string "1", .boolean true)]).toValue = .ok (.mapping [("1", .boolean true)]) :=
  ⟨.map (.refl _) (.swap _ _ _), rfl, rfl, rfl⟩

end Datum

end Rulebook
