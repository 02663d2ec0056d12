/-
  Rulebook.Proofs.Settings.Load — a file lies over the standard settings, field by field.

  Whichever path is named or found first, in whichever of the formats, and however the
  text is written: if its data holds some settings, these are loaded over the standard
  ones, and what is not there has its standard value. Only a limit of zero is refused.
  Such a text exists for any of the settings in any order and any format
  (`holds_characters`). Data with another name in it is refused in every format, and the
  first of them is told where only settings stand before it.

  The standard settings are also written down as a text with explanations. Both are the
  same, so that it does not matter which of the two a default is taken from.
  - `load_of_holds`, `load_of_strays`: what is loaded, and what is refused.
  - `read_sample`: the standard settings and the text that explains them.
  - `loads_over_standard`: the whole.
-/

import Rulebook.Proofs.Settings.Written
import Rulebook.Proofs.Utf8
import Rulebook.Settings.Store

namespace Rulebook.Settings

variable {folder : Folder} {root file : String} {path : Option String} {text : List Char} {format : Format}

/-- Whether a text is what settings are loaded from: that of the path, or else of the first that is found. -/
structure IsSource (folder : Folder) (root : String) (path : Option String) (file : String) (text : List Char) :
    Prop where
  file_eq : (path <|> firstPath? folder root) = some file
  text_eq : folder.text? file = some text

theorem load_of_isSource (h : IsSource folder root path file text) :
    load folder root path = ofText file text := by
  obtain ⟨hfile, htext⟩ := h
  cases path with
  | some path =>
    cases hfile
    simp only [load, loadFile, htext]
  | none =>
    have hfirst : firstPath? folder root = some file := hfile
    rw [load_none, hfirst]
    simp only [load, loadFile, htext]

/-- Settings that a text holds are loaded over the standard ones, unless they say that the limit is zero. -/
theorem load_of_holds (hsource : IsSource folder root path file text) (hformat : formatOf file = .ok format)
    {node : Node} (hdata : format.data? text = some node) {given : List Setting}
    (hholds : Holds format.convention given node) :
    load folder root path =
      if (overlaid given).server.maxBody = 0 then .error (.refused noBodyMessage)
      else .ok (overlaid given, (overlaid given).warnings) := by
  have hread : format.read text = .ok (overlaid given) := by
    rw [format.read_eq hdata, ofNode_of_holds hholds]
  rw [load_of_isSource hsource, ofText_of_read hformat hread]

theorem load_of_strays (hsource : IsSource folder root path file text) (hformat : formatOf file = .ok format)
    {entries : List (String × Node)} (hdata : format.data? text = some (.table entries)) (h : Strays entries) :
    ∃ cause, load folder root path = .error (.unparsed format file cause) := by
  obtain ⟨cause, hcause⟩ := exists_cause_of_strays h format.convention
  refine ⟨cause, ?_⟩
  rw [load_of_isSource hsource, ofText, hformat]
  simp only [format.read_eq hdata, hcause]

/-- The first other name is told, behind any settings. -/
theorem load_of_first_stray (hsource : IsSource folder root path file text) (hformat : formatOf file = .ok format)
    {given : List Setting} {before after : List (String × Node)} {name : String} {node : Node}
    (hdata : format.data? text = some (.table (before ++ (name, node) :: after)))
    (hholds : Holds format.convention given (.table before))
    (h : name ∉ ["dialect", "context_schema", "server"]) :
    load folder root path =
      .error (.unparsed format file (.unknownField name ["dialect", "context_schema", "server"])) := by
  obtain ⟨_, hrecord, hsaid, hdistinct⟩ := hholds
  cases hrecord with
  | table =>
    rw [load_of_isSource hsource, ofText, hformat]
    simp only [format.read_eq hdata, ofNode_stray hsaid hdistinct h]

theorem read_sample : Format.toml.read Format.sample = .ok standard := by
  have hholds := holds_recordOf .toml (areDistinct_all standard)
  rw [Format.read_eq Format.data?_sample]
  exact ofNode_of_holds hholds

/-- Settings from a file are those that it gives over the standard ones, whatever its format; other names, of
    which the first is told, and a limit of zero are refused, and warnings are given for a great limit and for an address that is any. -/
theorem loads_over_standard :
    (∀ (format : Format) (given : List Setting), AreDistinct given →
      ∃ node, format.data? (format.characters given) = some node ∧ Holds format.convention given node) ∧
    (∀ folder root path file text format node given, IsSource folder root path file text →
      formatOf file = .ok format → format.data? text = some node → Holds format.convention given node →
      LieOver given (overlaid given) ∧ load folder root path =
        if (overlaid given).server.maxBody = 0 then .error (.refused noBodyMessage)
        else .ok (overlaid given, (overlaid given).warnings)) ∧
    (∀ folder root path file text format entries, IsSource folder root path file text →
      formatOf file = .ok format → format.data? text = some (.table entries) → Strays entries →
      ∃ cause, load folder root path = .error (.unparsed format file cause)) ∧
    (∀ folder root path file text format given before name node after, IsSource folder root path file text →
      formatOf file = .ok format → format.data? text = some (.table (before ++ (name, node) :: after)) →
      Holds format.convention given (.table before) → name ∉ ["dialect", "context_schema", "server"] →
      load folder root path =
        .error (.unparsed format file (.unknownField name ["dialect", "context_schema", "server"]))) ∧
    (∀ folder root path settings warnings, load folder root path = .ok (settings, warnings) →
      settings.server.maxBody ≠ 0 ∧ warnings =
        (if 67108864 < settings.server.maxBody.toNat then
          [s!"server.max_body_bytes is {settings.server.maxBody.toNat} bytes; requests this large are unusual for rule evaluation"]
        else []) ++
        (if settings.server.listen.isAny then
          [s!"server.listen ({String.ofList settings.server.listen.text}) accepts connections on every network interface"]
        else [])) ∧
    Format.toml.read Format.sample = .ok standard := by
  refine ⟨fun format given => format.holds_characters, ?_, ?_, ?_, ?_, read_sample⟩
  · intro folder root path file text format node given hsource hformat hdata hholds
    exact ⟨lieOver_overlaid hholds.areDistinct, load_of_holds hsource hformat hdata hholds⟩
  · intro folder root path file text format entries hsource hformat hdata hstrays
    exact load_of_strays hsource hformat hdata hstrays
  · intro folder root path file text format given before name node after hsource hformat hdata hholds hname
    exact load_of_first_stray hsource hformat hdata hholds hname
  · intro folder root path settings warnings hload
    obtain ⟨hlimit, hwarnings⟩ := (check_eq_ok_iff _ _).mp (check_of_load hload)
    exact ⟨hlimit, hwarnings.symm⟩

/-- A limit alone is loaded over the standard settings from a file that is looked for, and a port is none of them. -/
theorem loads_over_standard_limit :
    let folder : Folder := ⟨[
      (["rules.yaml"], .file (Text.Utf8.encode (Format.yaml.characters [.server [.maxBody 1]]))),
      (["port.toml"], .file (Text.Utf8.encode (Toml.Line.definition "port" (.scalar (.size 1))).characters))]⟩
    load folder "" none = .ok ({ standard with server := { standard.server with maxBody := 1 } }, []) ∧
      load folder "" (some "port.toml") =
        .error (.unparsed .toml "port.toml" (.unknownField "port" ["dialect", "context_schema", "server"])) := by
  intro folder
  obtain ⟨hwritten, hloaded, -, hstray, -, -⟩ := loads_over_standard
  refine ⟨?_, ?_⟩
  · obtain ⟨node, hdata, hholds⟩ := hwritten .yaml [.server [.maxBody 1]] ⟨by decide, by simp [ServerSetting.name]⟩
    have hsource : IsSource folder "" none "rules.yaml" (Format.yaml.characters [.server [.maxBody 1]]) :=
      ⟨by decide +kernel, Text.Utf8.decode?_encode _⟩
    exact (hloaded folder "" none "rules.yaml" _ .yaml node _ hsource rfl hdata hholds).2
  · have hsource : IsSource folder "" (some "port.toml") "port.toml"
        (Toml.Line.definition "port" (.scalar (.size 1))).characters := ⟨rfl, Text.Utf8.decode?_encode _⟩
    refine hstray folder "" (some "port.toml") "port.toml" _ .toml [] [] "port" (.size 1) [] hsource rfl ?_ ?_ (by decide)
    · have hplain : (Toml.Line.definition "port" (.scalar (.size 1))).IsPlain :=
        ⟨by unfold Toml.IsName; decide, trivial⟩
      have hread := Toml.read?_lines (List.forall_mem_singleton.mpr hplain)
      rw [List.flatMap_singleton] at hread
      exact hread
    · exact ⟨[], .table [], .nil, List.nodup_nil⟩

end Rulebook.Settings
