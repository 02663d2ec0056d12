/-
  Rulebook.Proofs.Settings.Search — finding a file of settings is the same as naming it.

  Settings that nobody names are looked for under four paths in turn. The search reads each
  of them and goes on only where there is nothing, so the first path under which there is
  anything decides: with its text, or with the fault that it has none. What stands under the
  later paths is never looked at.
  - `firstPath?_eq_some`, `firstPath?_eq_none`: the first path, by what stands under the four.
  - `load_found`: what is found comes to what its text comes to.
  - `load_congr`: no later path has a say.
  - `found_as_named`: the whole, with the standard settings where nothing is found.
-/

import Rulebook.Proofs.Settings.Save

namespace Rulebook.Settings

variable {folder : Folder} {root path : String} {before after : List String}

/-- Whether a path is the first under a root under which there is anything, with others before and after it. -/
structure IsFirst (folder : Folder) (root : String) (before : List String) (path : String) (after : List String) :
    Prop where
  paths : candidates root = before ++ path :: after
  passed : ∀ earlier ∈ before, folder.read earlier = .missing
  present : folder.read path ≠ .missing

theorem firstPath?_eq_some (h : IsFirst folder root before path after) : firstPath? folder root = some path := by
  rw [firstPath?, List.find?_eq_some_iff_append]
  refine ⟨by simpa using h.present, before, after, h.paths, ?_⟩
  intro earlier he
  simp [h.passed earlier he]

theorem firstPath?_eq_none (h : ∀ path ∈ candidates root, folder.read path = .missing) :
    firstPath? folder root = none := by
  rw [firstPath?, List.find?_eq_none]
  intro path hp
  simp [h path hp]

theorem load_first (h : IsFirst folder root before path after) :
    load folder root none = load folder root (some path) := by
  rw [load_none, firstPath?_eq_some h]

/-- What is found comes to what its text comes to, or to a fault if it is no text. -/
theorem load_found (h : IsFirst folder root before path after) :
    load folder root none =
      match folder.text? path with
      | none => .error (.unread path)
      | some text => ofText path text := by
  rw [load_first h]
  rfl

/-- Where the first path and those before it are read the same, that path is the first again. -/
theorem IsFirst.congr {other : Folder} (h : IsFirst folder root before path after)
    (hsame : ∀ earlier ∈ before ++ [path], other.read earlier = folder.read earlier) :
    IsFirst other root before path after where
  paths := h.paths
  passed := by
    intro earlier he
    rw [hsame earlier (by simp [he]), h.passed earlier he]
  present := by
    rw [hsame path (by simp)]
    exact h.present

/-- So the settings are the same. -/
theorem load_congr {other : Folder} (h : IsFirst folder root before path after)
    (hsame : ∀ earlier ∈ before ++ [path], other.read earlier = folder.read earlier) :
    load other root none = load folder root none := by
  have htext : other.text? path = folder.text? path := by
    rw [Folder.text?, Folder.text?, hsame path (by simp)]
  rw [load_found (h.congr hsame), load_found h, htext]

/-- Settings that are looked for are those of the first of four paths under which there is anything,
    as if that path had been named: its text decides, or the fault that it has none, and nothing under a
    later path does. Where there is nothing at all, they are the standard ones, which are those of the
    text that explains them. -/
theorem found_as_named (folder : Folder) (root : String) :
    candidates root = ["rules.toml", "rules.yml", "rules.yaml", "rules.json"].map (Path.join root) ∧
    (∀ before path after, IsFirst folder root before path after →
      load folder root none = load folder root (some path) ∧
        (folder.text? path = none → load folder root none = .error (.unread path)) ∧
        (∀ text, folder.text? path = some text → load folder root none = ofText path text) ∧
        ∀ other : Folder, (∀ earlier ∈ before ++ [path], other.read earlier = folder.read earlier) →
          load other root none = load folder root none) ∧
    ((∀ path ∈ candidates root, folder.read path = .missing) → load folder root none = .ok (standard, [])) ∧
    Format.toml.read Format.sample = .ok standard := by
  refine ⟨rfl, ?_, ?_, read_sample⟩
  · intro before path after hfirst
    have hfound := load_found hfirst
    refine ⟨load_first hfirst, ?_, ?_, ?_⟩
    · intro htext
      rw [hfound, htext]
    · intro text htext
      rw [hfound, htext]
    · intro other hsame
      exact load_congr hfirst hsame
  · intro hnothing
    rw [load_none, firstPath?_eq_none hnothing]

/-- A folder called `rules.yml` is not passed over for a file that could be loaded, whatever that holds. -/
theorem found_as_named_blocked :
    let broken : Folder :=
      ⟨[(["rules.yml"], .folder), (["rules.json"], .file (Text.Utf8.encode (Format.json.write standard)))]⟩
    let changed : Folder := ⟨[(["rules.yml"], .folder), (["rules.json"], .file [])]⟩
    load broken "." none = .error (.unread "./rules.yml") ∧ load changed "." none = load broken "." none ∧
      load broken "." (some "./rules.json") = .ok (standard, []) ∧ load .empty "." none = .ok (standard, []) := by
  intro broken changed
  obtain ⟨-, hfound, -, -⟩ := found_as_named broken "."
  obtain ⟨-, hbroken, -, hchanged⟩ := hfound ["./rules.toml"] "./rules.yml" ["./rules.yaml", "./rules.json"]
    ⟨by decide, by decide, by decide⟩
  obtain ⟨-, -, hempty, -⟩ := found_as_named .empty "."
  have hjson : IsSource broken "." (some "./rules.json") "./rules.json" (Format.json.write standard) :=
    ⟨rfl, Text.Utf8.decode?_encode _⟩
  have hloaded : load broken "." (some "./rules.json") = .ok (standard, []) := by
    rw [load_of_isSource hjson, ofText_of_read rfl (read_write .json standard)]
    rfl
  exact ⟨hbroken (by decide), hchanged changed (by decide), hloaded, hempty (by decide)⟩

end Rulebook.Settings
