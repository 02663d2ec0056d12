/-
  Rulebook.Proofs.Settings.Save — what is saved is loaded.

  The extension of a path decides the format both ways, and what is written in a format is
  read in it. So settings with a limit come back as they were, the address with its zone
  and every limit of 64 bits included, and from any of the formats the same. A path with
  another extension is refused before anything is written.
  - `read_write`: in a format, what is written is read.
  - `formatOf_eq_ok_iff`: the extensions that name a format.
  - `load_of_save`, `saving_unsupported`: the two ways of saving.
  - `saves_loadably`: the whole.
-/

import Rulebook.Proofs.Settings.Load

namespace Rulebook.Settings

variable {settings : Settings} {folder written : Folder} {root path : String} {format : Format}

theorem read_write (format : Format) (settings : Settings) : format.read (format.write settings) = .ok settings := by
  obtain ⟨node, hdata, hholds⟩ := format.holds_characters (areDistinct_all settings)
  rw [format.write_eq, format.read_eq hdata, ofNode_of_holds hholds, overlaid_all]

/-! ## Paths -/

/-- Whether the extension of a path names a format. -/
def IsSupported (path : String) : Prop := (Path.extension? path).getD "" ∈ ["toml", "yml", "yaml", "json"]

theorem formatOf_eq_ok_iff : (∃ format, formatOf path = .ok format) ↔ IsSupported path := by
  unfold formatOf IsSupported Format.ofExtension?
  generalize (Path.extension? path).getD "" = extension
  simp only [List.mem_cons, List.not_mem_nil, or_false]
  split_ifs <;> simp [*, ← or_assoc]

theorem formatOf_eq_error (h : ¬IsSupported path) :
    formatOf path = .error (.unsupported ((Path.extension? path).getD "")) := by
  rw [← formatOf_eq_ok_iff] at h
  unfold formatOf at h ⊢
  dsimp only at h ⊢
  split at h
  · exact absurd ⟨_, rfl⟩ h
  · rfl

/-! ## Saving and loading -/

theorem saved_writing_eq_ok_iff {text : List Char} {fault : Fault} :
    (Saving.writing folder path text fault).saved = .ok written ↔
      folder.write? path (Text.Utf8.encode text) = some written := by
  unfold Saving.writing
  cases folder.write? path (Text.Utf8.encode text) with
  | none => simp [Saving.saved, Except.map]
  | some after => simp [Saving.saved, Except.map]

theorem saving_eq (hformat : formatOf path = .ok format) :
    saving settings folder path = .writing folder path (format.write settings) (.unwritten path) := by
  rw [saving, hformat]

/-- Under a path with another extension nothing is written. -/
theorem saving_unsupported (h : ¬IsSupported path) :
    saving settings folder path = ⟨.error (.unsupported ((Path.extension? path).getD "")), folder⟩ := by
  rw [saving, formatOf_eq_error h]

/-- Settings are saved where a file can be written under a path with one of the extensions. -/
theorem exists_save (hpath : IsSupported path) (hadmits : folder.admits path = true) :
    ∃ written, save settings folder path = .ok written := by
  obtain ⟨format, hformat⟩ := formatOf_eq_ok_iff.mpr hpath
  refine ⟨folder.put (Path.names path) (.file (Text.Utf8.encode (format.write settings))), ?_⟩
  rw [save, saving_eq hformat, saved_writing_eq_ok_iff, Folder.write?, if_pos hadmits]

/-- Settings with a limit that are saved are loaded. -/
theorem load_of_save (hlimit : settings.server.maxBody ≠ 0) (hsave : save settings folder path = .ok written) :
    load written root (some path) = .ok (settings, settings.warnings) := by
  cases hformat : formatOf path with
  | error fault =>
    rw [save, saving, hformat] at hsave
    cases hsave
  | ok format =>
    rw [save, saving_eq hformat, saved_writing_eq_ok_iff] at hsave
    have hread := Folder.read_write_self hsave
    have htext : Folder.text? written path = some (format.write settings) := by
      simp only [Folder.text?, hread, Text.Utf8.decode?_encode]
    rw [load_of_isSource ⟨rfl, htext⟩, ofText_of_read hformat (read_write format settings), if_neg hlimit]

/-- Settings with a limit are loaded as they are saved, under every path and in every format, and the same from
    each. Under a path with another extension nothing is saved, and all files stay. -/
theorem saves_loadably (settings : Settings) (hlimit : settings.server.maxBody ≠ 0) :
    (∀ folder path root, IsSupported path → folder.admits path = true → ∃ written,
      save settings folder path = .ok written ∧ load written root (some path) = .ok (settings, settings.warnings)) ∧
    (∀ folder path, ¬IsSupported path →
      save settings folder path = .error (.unsupported ((Path.extension? path).getD "")) ∧
        (saving settings folder path).folder = folder) ∧
    ∀ folder path root written folder' path' root' written', save settings folder path = .ok written →
      save settings folder' path' = .ok written' →
      load written root (some path) = load written' root' (some path') := by
  refine ⟨fun folder path root hpath hadmits => ?_, fun folder path hpath => ?_, ?_⟩
  · obtain ⟨written, hsave⟩ := exists_save hpath hadmits
    exact ⟨written, hsave, load_of_save hlimit hsave⟩
  · have hsaving : saving settings folder path = _ := saving_unsupported hpath
    exact ⟨by rw [save, hsaving]; rfl, by rw [hsaving]⟩
  · intro folder path root written folder' path' root' written' hsave hsave'
    rw [load_of_save hlimit hsave, load_of_save hlimit hsave']

/-- Settings with a zone and the greatest limit are saved and loaded as YAML, and nothing is saved as text. -/
theorem saves_loadably_zone :
    let address : Address := .v6 ⟨[0xfe80, 0, 0, 0, 0, 0, 0, 1], rfl⟩ 7 80
    let settings : Settings := ⟨.cel, .processState, ⟨address, 18446744073709551615⟩⟩
    (∃ written, save settings .empty "a.yml" = .ok written ∧
      load written "" (some "a.yml") = .ok (settings, settings.warnings)) ∧
      (saving settings .empty "a.txt").folder = .empty := by
  intro address settings
  obtain ⟨hsaved, hrefused, -⟩ := saves_loadably settings (by decide)
  exact ⟨hsaved .empty "a.yml" "" (by unfold IsSupported; decide) (by decide),
    (hrefused .empty "a.txt" (by unfold IsSupported; decide)).2⟩

end Rulebook.Settings
