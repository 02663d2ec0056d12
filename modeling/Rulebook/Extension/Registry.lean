/-
  Rulebook.Extension.Registry — the extensions that rules may call.

  A registry is made from a list of definitions, of which the last of each name counts,
  and lists them in ascending order of their names. A name is looked up exactly as it is.
  - `resolve_ofList`: the definition found is the last one of that name.
  - `sorted_ofList_names`: names ascend strictly, so each is listed once.
-/

import Rulebook.Extension.Basic

namespace Rulebook

/-- Extensions by name, in ascending order of their names. -/
structure Registry where
  entries : List (String × Extension)

namespace Registry

def ofList (definitions : List Extension) : Registry :=
  ⟨Entries.ofList (definitions.map fun extension => (extension.name, extension))⟩

def resolve (registry : Registry) (name : String) : Option Extension := Entries.get? registry.entries name

def toList (registry : Registry) : List Extension := registry.entries.map Prod.snd

def names (registry : Registry) : List String := registry.entries.map Prod.fst

def size (registry : Registry) : Nat := registry.entries.length

def isEmpty (registry : Registry) : Bool := registry.entries.isEmpty

def toJson (registry : Registry) : Json := .list (registry.toList.map Extension.toJson)

end Registry

theorem Entries.get?_foldl_put {α : Type} (entries done : List (String × α)) (name : String) :
    Entries.get? (entries.foldl (fun done entry => Entries.put done entry.1 entry.2) done) name =
      ((entries.filter fun entry => entry.1 == name).getLast?.map Prod.snd).or (Entries.get? done name) := by
  induction entries generalizing done with
  | nil => simp
  | cons entry rest ih =>
    rw [List.foldl_cons, ih]
    by_cases h : entry.1 = name
    · subst h
      rw [Entries.get?_put_self, List.filter_cons_of_pos (by simp)]
      cases hr : rest.filter (fun e => e.1 == entry.1) with
      | nil => simp
      | cons first more =>
        rw [List.getLast?_cons_cons]
        cases hl : (first :: more).getLast? with
        | none => simp at hl
        | some last => simp
    · rw [Entries.get?_put_of_ne _ _ (Ne.symm h), List.filter_cons_of_neg (by simpa using h)]

theorem Registry.resolve_ofList (definitions : List Extension) (name : String) :
    (Registry.ofList definitions).resolve name =
      (definitions.filter fun extension => extension.name == name).getLast? := by
  unfold Registry.resolve Registry.ofList Entries.ofList
  rw [Entries.get?_foldl_put]
  simp [List.filter_map, Function.comp_def]

theorem Registry.sorted_ofList_names (definitions : List Extension) :
    (Registry.ofList definitions).names.Pairwise (· < ·) :=
  Entries.sorted_ofList _

end Rulebook
