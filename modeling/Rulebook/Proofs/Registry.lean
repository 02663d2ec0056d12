/-
  Rulebook.Proofs.Registry — which definition a name or an identifier leads to.

  A registry of definitions with distinct names lists them all, each under its own name,
  in ascending order of names. The name of a definition leads back to it, and its
  identifier leads to the last definition in that order that has the same identifier.
  - `eq_or_rel_of_find?`: what is found first comes before anything else that could be.
  - `Registry.mem_toList_iff`, `Registry.sorted_toList`: what a registry lists, and how.
  - `Registry.resolve_of_mem`: a definition is found by its name.
  - `Registry.function?_of_last`: the function that an identifier stands for.
-/

import Mathlib.Data.List.Nodup
import Rulebook.Engine

namespace Rulebook

theorem eq_or_rel_of_find? {α : Type} {R : α → α → Prop} {p : α → Bool} {l : List α} {a b : α} (hl : l.Pairwise R)
    (h : l.find? p = some a) (hb : b ∈ l) (hp : p b = true) : a = b ∨ R a b := by
  obtain ⟨-, before, after, rfl, hbefore⟩ := List.find?_eq_some_iff_append.mp h
  rcases List.mem_append.mp hb with hb | hb
  · have hn := hbefore b hb
    rw [hp] at hn
    cases hn
  · rcases List.mem_cons.mp hb with rfl | hb
    · exact Or.inl rfl
    · exact Or.inr (List.rel_of_pairwise_cons (List.pairwise_append.mp hl).2.1 hb)

theorem Entries.mem_foldl_put {α : Type} {entries done : List (String × α)} {entry : String × α}
    (h : entry ∈ entries.foldl (fun done entry => put done entry.1 entry.2) done) : entry ∈ entries ∨ entry ∈ done := by
  induction entries generalizing done with
  | nil => exact Or.inr h
  | cons first rest ih =>
    rcases ih h with hm | hm
    · exact Or.inl (List.mem_cons_of_mem _ hm)
    · rcases mem_put hm with rfl | hm
      · exact Or.inl (List.mem_cons_self ..)
      · exact Or.inr hm

namespace Registry

variable {definitions : List Extension} {extension : Extension}

theorem mem_entries {entry : String × Extension} (h : entry ∈ (ofList definitions).entries) :
    entry.2 ∈ definitions ∧ entry.1 = entry.2.name := by
  rcases Entries.mem_foldl_put h with hm | hm
  · obtain ⟨extension, hextension, rfl⟩ := List.mem_map.mp hm
    exact ⟨hextension, rfl⟩
  · cases hm

theorem names_ofList (definitions : List Extension) :
    (ofList definitions).names = (ofList definitions).toList.map Extension.name := by
  unfold names toList
  rw [List.map_map]
  exact List.map_congr_left fun entry hm => (mem_entries hm).2

theorem sorted_toList (definitions : List Extension) :
    (ofList definitions).toList.Pairwise fun a b => a.name < b.name := by
  rw [← List.pairwise_map, ← names_ofList]
  exact sorted_ofList_names definitions

theorem resolve_of_mem (hn : (definitions.map Extension.name).Nodup) (h : extension ∈ definitions) :
    (ofList definitions).resolve extension.name = some extension := by
  rw [resolve_ofList]
  cases hl : (definitions.filter fun other => other.name == extension.name).getLast? with
  | none =>
    have hmem : extension ∈ definitions.filter fun other => other.name == extension.name :=
      List.mem_filter.mpr ⟨h, beq_self_eq_true _⟩
    rw [List.getLast?_eq_none_iff.mp hl] at hmem
    cases hmem
  | some other =>
    obtain ⟨hm, he⟩ := List.mem_filter.mp (List.mem_of_getLast? hl)
    rw [List.inj_on_of_nodup_map hn hm h (eq_of_beq he)]

theorem mem_toList_iff (hn : (definitions.map Extension.name).Nodup) :
    extension ∈ (ofList definitions).toList ↔ extension ∈ definitions := by
  constructor
  · intro h
    obtain ⟨entry, hm, rfl⟩ := List.mem_map.mp h
    exact (mem_entries hm).1
  · intro h
    obtain ⟨entry, hf, he⟩ := Option.map_eq_some_iff.mp (resolve_of_mem hn h)
    exact List.mem_map.mpr ⟨entry, List.mem_of_find?_eq_some hf, he⟩

theorem function?_of_last {registry : Registry} (hs : registry.toList.Pairwise fun a b => a.name < b.name)
    (h : extension ∈ registry.toList)
    (last : ∀ other ∈ registry.toList, other.identifier = extension.identifier → ¬extension.name < other.name) :
    registry.function? extension.identifier = some extension.function := by
  have hmem : extension ∈ registry.toList.reverse := List.mem_reverse.mpr h
  unfold function?
  cases hf : registry.toList.reverse.find? fun other => other.identifier == extension.identifier with
  | none =>
    have hnot := List.find?_eq_none.mp hf extension hmem
    simp at hnot
  | some other =>
    have hother : other ∈ registry.toList := List.mem_reverse.mp (List.mem_of_find?_eq_some hf)
    have hsame := List.find?_some hf
    rcases eq_or_rel_of_find? (List.pairwise_reverse.mpr hs) hf hmem (beq_self_eq_true _) with rfl | hlt
    · rfl
    · exact absurd hlt (last other hother (eq_of_beq hsame))

end Registry

end Rulebook
