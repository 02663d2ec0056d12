/-
  Rulebook.Proofs.Definitions — what a registry keeps of the definitions it is made from.

  Of each name the last definition stays, and nothing else does: not how often a name is
  defined, nor where in the list. So a registry is a map from names to definitions, and
  its look-up, its listing, its names and its size are four views of this map.
  - `Extension.isLast_iff`: the last definition of a name, as it is looked for.
  - `Registry.isMapOf_ofList`: the views of a registry agree with its definitions.
  - `Registry.ofList_congr`: lists with the same last definitions make one registry.
  - `Registry.definitions_account`: both, and that rules are rewritten and answered alike.
-/

import Mathlib.Data.List.Dedup
import Rulebook.Proofs.MapOrder
import Rulebook.Proofs.Registry

namespace Rulebook

open Rulebook.Time (Timestamp)

variable {definitions others : List Extension} {name : String} {extension : Extension}

/-- A definition has a name, and none behind it in the list has the same. -/
def Extension.IsLast (definitions : List Extension) (name : String) (extension : Extension) : Prop :=
  ∃ before after, definitions = before ++ extension :: after ∧ extension.name = name ∧ ∀ other ∈ after, other.name ≠ name

theorem Extension.isLast_iff :
    IsLast definitions name extension ↔
      (definitions.filter fun other => other.name == name).getLast? = some extension := by
  rw [List.getLast?_eq_head?_reverse, ← List.filter_reverse, List.head?_filter, List.find?_eq_some_iff_append]
  constructor
  · rintro ⟨before, after, rfl, hname, hafter⟩
    exact ⟨by simpa using hname, after.reverse, before.reverse, by simp, by simpa using hafter⟩
  · rintro ⟨hname, after, before, hreverse, hafter⟩
    refine ⟨before.reverse, after.reverse, ?_, by simpa using hname, by simpa using hafter⟩
    rw [← List.reverse_reverse definitions, hreverse]
    simp

namespace Registry

/-- The views of a registry agree with a list of definitions, of which the last of each name counts. -/
structure IsMapOf (registry : Registry) (definitions : List Extension) : Prop where
  resolved : ∀ name extension, registry.resolve name = some extension ↔ Extension.IsLast definitions name extension
  missing : ∀ name, registry.resolve name = none ↔ ∀ extension ∈ definitions, extension.name ≠ name
  ascending : registry.toList.Pairwise fun a b => a.name < b.name
  listed : ∀ extension, extension ∈ registry.toList ↔ Extension.IsLast definitions extension.name extension
  named : registry.names = registry.toList.map Extension.name
  defined : ∀ name, name ∈ registry.names ↔ ∃ extension ∈ definitions, extension.name = name
  counted : registry.size = registry.toList.length ∧ registry.size = (definitions.map Extension.name).dedup.length
  empty : registry.isEmpty = true ↔ definitions = []

theorem resolve_eq_some_iff : (ofList definitions).resolve name = some extension ↔
    Extension.IsLast definitions name extension := by
  rw [resolve_ofList, Extension.isLast_iff]

theorem resolve_eq_none_iff : (ofList definitions).resolve name = none ↔
    ∀ extension ∈ definitions, extension.name ≠ name := by
  rw [resolve_ofList, List.getLast?_eq_none_iff, List.filter_eq_nil_iff]
  simp

theorem mem_toList_iff_resolve :
    extension ∈ (ofList definitions).toList ↔ (ofList definitions).resolve extension.name = some extension := by
  constructor
  · intro h
    obtain ⟨⟨name, extension⟩, hm, rfl⟩ := List.mem_map.mp h
    obtain rfl : name = extension.name := (mem_entries hm).2
    exact Entries.get?_of_mem (Entries.sorted_ofList _).nodup hm
  · intro h
    exact List.mem_map.mpr ⟨_, Entries.mem_of_get? h, rfl⟩

theorem mem_names_iff : name ∈ (ofList definitions).names ↔ ∃ extension ∈ definitions, extension.name = name := by
  constructor
  · intro h
    obtain ⟨entry, hm, rfl⟩ := List.mem_map.mp h
    exact ⟨entry.2, (mem_entries hm).1, (mem_entries hm).2.symm⟩
  · rintro ⟨extension, hm, hname⟩
    obtain ⟨last, hlast⟩ := Option.ne_none_iff_exists'.mp fun hnone => resolve_eq_none_iff.mp hnone extension hm hname
    exact List.mem_map.mpr ⟨_, Entries.mem_of_get? hlast, rfl⟩

theorem size_ofList (definitions : List Extension) :
    (ofList definitions).size = (definitions.map Extension.name).dedup.length := by
  have hnodup : (ofList definitions).names.Nodup := (Entries.sorted_ofList _).nodup
  have hperm : (ofList definitions).names.Perm (definitions.map Extension.name).dedup := by
    refine (List.perm_ext_iff_of_nodup hnodup (List.nodup_dedup _)).mpr fun name => ?_
    rw [mem_names_iff, List.mem_dedup, List.mem_map]
  rw [← hperm.length_eq, names, List.length_map]
  rfl

theorem isMapOf_ofList (definitions : List Extension) : (ofList definitions).IsMapOf definitions where
  resolved _ _ := resolve_eq_some_iff
  missing _ := resolve_eq_none_iff
  ascending := sorted_toList definitions
  listed _ := mem_toList_iff_resolve.trans resolve_eq_some_iff
  named := names_ofList definitions
  defined _ := mem_names_iff
  counted := ⟨(List.length_map _).symm, size_ofList definitions⟩
  empty := by
    have hsize : (ofList definitions).isEmpty = true ↔ (ofList definitions).size = 0 := by
      rw [isEmpty, List.isEmpty_iff, size, List.length_eq_zero_iff]
    rw [hsize, size_ofList, List.length_eq_zero_iff, List.dedup_eq_nil, List.map_eq_nil_iff]

/-- Lists with the same last definition of every name make one registry. -/
theorem ofList_congr (h : ∀ name extension, Extension.IsLast definitions name extension ↔ Extension.IsLast others name extension) :
    ofList definitions = ofList others := by
  have hentries : (ofList definitions).entries = (ofList others).entries := by
    refine Entries.Sorted.ext (Entries.sorted_ofList _) (Entries.sorted_ofList _) fun name => ?_
    refine Option.ext fun extension => ?_
    exact resolve_eq_some_iff.trans ((h name extension).trans resolve_eq_some_iff.symm)
  exact congrArg Registry.mk hentries

/-- A registry is the map of its definitions in which the last of each name counts, and rules see nothing else of
    them: with the same last definition of every name all rules are rewritten alike and have the same answers. -/
theorem definitions_account (definitions : List Extension) :
    (ofList definitions).IsMapOf definitions ∧
      ∀ others, (∀ name extension, Extension.IsLast definitions name extension ↔ Extension.IsLast others name extension) →
        (∀ rule, Feel.translate (ofList definitions) rule = Feel.translate (ofList others) rule) ∧
          ∀ arrangement dialect context clock rule,
            (Engine.arranging arrangement dialect).session (ofList definitions) context clock rule =
              (Engine.arranging arrangement dialect).session (ofList others) context clock rule := by
  refine ⟨isMapOf_ofList definitions, fun others h => ?_⟩
  rw [ofList_congr h]
  exact ⟨fun _ => rfl, fun _ _ _ _ _ => rfl⟩

def fixedCheck (name : String) (answer : Bool) : Extension := ⟨name, "", [], fun _ => .ok answer⟩

/-- A definition that is replaced by a later one makes no difference, and neither does the order of the names. -/
theorem definitions_account_replaced :
    (∀ name extension,
      Extension.IsLast [fixedCheck "is ok" false, fixedCheck "is" true, fixedCheck "is ok" true] name extension ↔
        Extension.IsLast [fixedCheck "is ok" true, fixedCheck "is" true] name extension) ∧
      Feel.translate (ofList [fixedCheck "is ok" false, fixedCheck "is" true, fixedCheck "is ok" true]) "is ok()" =
        Feel.translate (ofList [fixedCheck "is ok" true, fixedCheck "is" true]) "is ok()" := by
  have hlast : ∀ name extension,
      Extension.IsLast [fixedCheck "is ok" false, fixedCheck "is" true, fixedCheck "is ok" true] name extension ↔
        Extension.IsLast [fixedCheck "is ok" true, fixedCheck "is" true] name extension := by
    intro name extension
    rw [Extension.isLast_iff, Extension.isLast_iff]
    by_cases hok : "is ok" = name
    · subst hok
      simp [fixedCheck]
    · by_cases his : "is" = name
      · subst his
        simp [fixedCheck]
      · simp [fixedCheck, hok, his]
  exact ⟨hlast, ((definitions_account _).2 _ hlast).1 "is ok()"⟩

end Registry

end Rulebook
