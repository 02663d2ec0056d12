/-
  Rulebook.Proofs.Settings.Written — settings are read from the text that they are written as.

  Some settings in any order have a text in each format (`Format.characters`): lines in
  TOML, where the server is a table in braces unless it comes last and has a header,
  blocks in YAML, and the members of an object in JSON. All settings together have the
  text that is saved. The data of such a text is a record of the settings' entries, one
  for each and in their order, so that it holds them.
  - `write_eq`: what is saved is the text of all settings.
  - `data?_characters`: the data of the text of some settings.
  - `holds_characters`: it holds these settings.
  - `data?_sample`: the text that explains the standard settings holds them.
-/

import Rulebook.Proofs.Json.Tree
import Rulebook.Proofs.Settings.Overlay
import Rulebook.Proofs.Settings.Toml
import Rulebook.Proofs.Settings.Yaml
import Rulebook.Settings.Format

namespace Rulebook.Settings

/-! ## Entries -/

def ServerSetting.entry : ServerSetting → String × Node
  | .listen address => ("listen", .text (String.ofList address.text))
  | .maxBody n => ("max_body_bytes", .size n.toNat)

/-- The record of entries, which is nothing where a record without fields may be. -/
def recordOf (convention : Convention) (entries : List (String × Node)) : Node :=
  if entries.isEmpty && convention.bare then .nothing else .table entries

def Setting.entry (convention : Convention) : Setting → String × Node
  | .dialect choice => ("dialect", .text choice.name)
  | .layout choice => ("context_schema", .text choice.name)
  | .server given => ("server", recordOf convention (given.map ServerSetting.entry))

def names : List String := ["dialect", "context_schema", "server", "listen", "max_body_bytes"]

theorem Setting.name_mem_names (setting : Setting) : setting.name ∈ names := by
  cases setting <;> simp [Setting.name, names]

theorem ServerSetting.name_mem_names (setting : ServerSetting) : setting.name ∈ names := by
  cases setting <;> simp [ServerSetting.name, names]

theorem isRecord_recordOf (convention : Convention) (entries : List (String × Node)) :
    IsRecord convention entries (recordOf convention entries) := by
  unfold recordOf
  split
  · rename_i h
    simp only [Bool.and_eq_true, List.isEmpty_iff] at h
    rw [h.1]
    exact .nothing h.2
  · exact .table entries

theorem ServerSetting.said_entry (setting : ServerSetting) : setting.Said setting.entry := by
  cases setting with
  | listen address => exact .listen (by rw [String.toList_ofList, Address.ofText?_text])
  | maxBody n => exact .maxBody n

theorem Setting.said_entry {convention : Convention} {setting : Setting}
    (h : ∀ inner, setting = .server inner → (inner.map ServerSetting.name).Nodup) :
    setting.Said convention (setting.entry convention) := by
  cases setting with
  | dialect choice => exact .dialect choice
  | layout choice => exact .layout choice
  | server given =>
    refine .server (isRecord_recordOf ..) ?_ (h given rfl)
    rw [List.forall₂_map_right_iff]
    exact List.forall₂_same.mpr fun setting _ => setting.said_entry

/-- The record of the entries of settings holds them. -/
theorem holds_recordOf (convention : Convention) {given : List Setting} (h : AreDistinct given) :
    Holds convention given (recordOf convention (given.map (Setting.entry convention))) := by
  refine ⟨_, isRecord_recordOf .., ?_, h.1⟩
  rw [List.forall₂_map_right_iff]
  exact List.forall₂_same.mpr fun setting hmem =>
    Setting.said_entry fun inner heq => h.2 inner (heq ▸ hmem)

/-! ## TOML -/

def ServerSetting.scalar : ServerSetting → Toml.Scalar
  | .listen address => .text address.text
  | .maxBody n => .size n.toNat

def Setting.value : Setting → Toml.Value
  | .dialect choice => .scalar (.text choice.name.toList)
  | .layout choice => .scalar (.text choice.name.toList)
  | .server given => .braces (given.map fun setting => (setting.name, setting.scalar))

/-- The lines of settings: the server has a header if it comes last. -/
def lines : List Setting → List Toml.Line
  | [] => []
  | [.server given] =>
    .blank :: .header "server" :: given.map fun setting => .definition setting.name (.scalar setting.scalar)
  | setting :: rest => .definition setting.name setting.value :: lines rest

theorem isPlain_scalar (setting : ServerSetting) : setting.scalar.IsPlain := by
  have hall : ∀ c ∈ Address.characters, Toml.isInk c = true ∧ c ≠ '"' ∧ c ≠ '\\' := by decide
  cases setting with
  | listen address => exact ⟨address.text_ne_nil, fun c hc => hall c (address.text_subset hc)⟩
  | maxBody n => trivial

theorem isName_of_mem {name : String} (h : name ∈ names) : Toml.IsName name := by
  have hall : ∀ name ∈ names, name.toList ≠ [] ∧ Toml.isBare name.toList = true := by decide
  exact hall name h

theorem isPlain_value (setting : Setting)
    (h : ∀ inner, setting = .server inner → (inner.map ServerSetting.name).Nodup) : setting.value.IsPlain := by
  cases setting with
  | dialect choice =>
    cases choice <;> refine ⟨by decide, ?_⟩ <;> unfold Toml.IsPlain <;> decide
  | layout choice =>
    cases choice <;> refine ⟨by decide, ?_⟩ <;> unfold Toml.IsPlain <;> decide
  | server given =>
    refine ⟨?_, ?_⟩
    · intro member hmember
      obtain ⟨setting, -, rfl⟩ := List.mem_map.mp hmember
      exact ⟨isName_of_mem setting.name_mem_names, isPlain_scalar setting⟩
    · simpa [Function.comp_def] using h given rfl

theorem AreDistinct.tail {setting : Setting} {given : List Setting} (h : AreDistinct (setting :: given)) :
    AreDistinct given :=
  ⟨(List.nodup_cons.mp h.1).2, fun inner hmem => h.2 inner (List.mem_cons_of_mem _ hmem)⟩

theorem AreDistinct.head {setting : Setting} {given : List Setting} (h : AreDistinct (setting :: given)) :
    ∀ inner, setting = .server inner → (inner.map ServerSetting.name).Nodup :=
  fun inner heq => h.2 inner (heq ▸ List.mem_cons_self)

theorem isPlain_lines {given : List Setting} (h : AreDistinct given) : ∀ line ∈ lines given, line.IsPlain := by
  fun_induction lines given with
  | case1 => simp
  | case2 given =>
    intro line hline
    simp only [List.mem_cons, List.mem_map] at hline
    obtain rfl | rfl | ⟨setting, -, rfl⟩ := hline
    · trivial
    · exact isName_of_mem (by decide)
    · exact ⟨isName_of_mem setting.name_mem_names, isPlain_scalar setting⟩
  | case3 setting given hlast ih =>
    intro line hline
    obtain rfl | hline := List.mem_cons.mp hline
    · exact ⟨isName_of_mem setting.name_mem_names, isPlain_value setting h.head⟩
    · exact ih h.tail line hline

theorem nodes_eq_map (entries : Toml.Entries) :
    Toml.nodes entries = entries.map fun entry => (entry.1, entry.2.node) := by
  induction entries with
  | nil => rfl
  | cons entry entries ih =>
    rw [List.map_cons, ← ih]
    rfl

theorem node_scalar (setting : ServerSetting) : (setting.name, setting.scalar.node) = setting.entry := by
  cases setting <;> rfl

theorem node_value (setting : Setting) : (setting.name, setting.value.node) = setting.entry .toml := by
  cases setting with
  | dialect choice => simp [Setting.name, Setting.value, Setting.entry, Toml.Value.node, Toml.Scalar.node]
  | layout choice => simp [Setting.name, Setting.value, Setting.entry, Toml.Value.node, Toml.Scalar.node]
  | server given =>
    simp [Setting.name, Setting.value, Setting.entry, Toml.Value.node, recordOf, Convention.toml, Function.comp_def,
      node_scalar]

/-- The settings of a server come behind those that are there under its header. -/
theorem run_server {entries : Toml.Entries} (hfresh : "server" ∉ entries.map Prod.fst)
    (given : List ServerSetting) (inner : Toml.Entries)
    (h : (inner.map Prod.fst ++ given.map ServerSetting.name).Nodup) :
    Toml.run (given.map fun setting => .definition setting.name (.scalar setting.scalar)) ["server"]
        (entries ++ [("server", .table .named inner)]) =
      some (["server"], entries ++ [("server", .table .named
        (inner ++ given.map fun setting => (setting.name, .value setting.scalar.node)))]) := by
  induction given generalizing inner with
  | nil => simp [Toml.run]
  | cons setting given ih =>
    have hmore := ih (inner ++ [(setting.name, .value setting.scalar.node)]) (by simpa using h)
    have hdefine := Toml.defineUnder_append hfresh (Toml.not_mem_of_nodup h) .named setting.scalar.node
    simp only [List.map_cons, Toml.run, Toml.Line.run, Toml.Value.node, hdefine, Option.map_some, Option.bind_some]
    rw [hmore]
    simp

/-- The entries of settings come behind those that are there. -/
theorem run_lines (given : List Setting) (entries : Toml.Entries)
    (h : (entries.map Prod.fst ++ given.map Setting.name).Nodup)
    (hserver : ∀ inner, .server inner ∈ given → (inner.map ServerSetting.name).Nodup) :
    ∃ header more, Toml.run (lines given) [] entries = some (header, entries ++ more) ∧
      Toml.nodes more = given.map (Setting.entry .toml) := by
  fun_induction lines given generalizing entries with
  | case1 => exact ⟨[], [], by simp [Toml.run], rfl⟩
  | case2 given =>
    have hfresh : "server" ∉ entries.map Prod.fst := Toml.not_mem_of_nodup h
    have hrun := run_server hfresh given [] (by simpa using hserver given (by simp))
    refine ⟨["server"], [("server", .table .named (given.map fun setting =>
      (setting.name, .value setting.scalar.node)))], ?_, ?_⟩
    · simp only [Toml.run, Toml.Line.run, Toml.header_append hfresh, Option.map_some, Option.bind_some, hrun,
        List.nil_append]
    · have hentries : Toml.nodes (given.map fun setting => (setting.name, .value setting.scalar.node)) =
          given.map ServerSetting.entry := by
        rw [nodes_eq_map, List.map_map]
        exact List.map_congr_left fun setting _ => node_scalar setting
      simp [Toml.nodes, Toml.Item.node, hentries, Setting.entry, recordOf, Convention.toml]
  | case3 setting given hlast ih =>
    have hfresh := Toml.not_mem_of_nodup h
    obtain ⟨header, more, hrun, hnodes⟩ := ih (entries ++ [(setting.name, .value setting.value.node)])
      (by simpa using h) fun inner hmem => hserver inner (List.mem_cons_of_mem _ hmem)
    refine ⟨header, (setting.name, .value setting.value.node) :: more, ?_, ?_⟩
    · simp only [Toml.run, Toml.Line.run, Toml.Entries.defineUnder, Toml.define_append hfresh, Option.map_some,
        Option.bind_some, hrun]
      simp
    · rw [List.map_cons, ← hnodes, ← node_value]
      rfl

theorem data?_toml {given : List Setting} (h : AreDistinct given) :
    Toml.read? ((lines given).flatMap Toml.Line.characters) =
      some (recordOf .toml (given.map (Setting.entry .toml))) := by
  obtain ⟨header, more, hrun, hnodes⟩ := run_lines given [] h.1 h.2
  rw [Toml.read?_lines (isPlain_lines h), hrun]
  simp [hnodes, recordOf, Convention.toml]

/-! ## YAML -/

def ServerSetting.row : ServerSetting → String × Yaml.Scalar
  | .listen (.v4 a b c d port) => ("listen", .plain (Address.v4 a b c d port).text)
  | .listen (.v6 groups zone port) => ("listen", .quoted (Address.v6 groups zone port).text)
  | .maxBody n => ("max_body_bytes", .size n.toNat)

def Setting.block : Setting → Yaml.Block
  | .dialect choice => .inline ("dialect", .plain choice.name.toList)
  | .layout choice => .inline ("context_schema", .plain choice.name.toList)
  | .server given => .nested "server" (given.map ServerSetting.row)

instance : DecidablePred Yaml.IsSolid := fun _ => inferInstanceAs (Decidable (_ ∧ _ ∧ _))

theorem isSolid_of_mem_text {address : Address} {c : Char} (h : c ∈ address.text) :
    Yaml.IsSolid c ∧ c ≠ '\'' := by
  have hall : ∀ c ∈ Address.characters, Yaml.IsSolid c ∧ c ≠ '\'' := by decide
  exact hall c (address.text_subset h)

theorem isPlain_word {text more : List Char} {c : Char} (htext : text = c :: more)
    (hc : (Yaml.startsPlain c && c != '.') = true)
    (hall : (text.all fun c => decide (Yaml.IsSolid c) && c != ':') = true) : Yaml.IsPlain text := by
  simp only [List.all_eq_true, Bool.and_eq_true, decide_eq_true_eq, bne_iff_ne] at hall hc
  exact ⟨⟨c, more, htext, hc⟩, fun d hd => (hall d hd).1, fun hlast => (hall _ (List.mem_of_getLast? hlast)).2 rfl⟩

theorem isPlain_of_mem {name : String} (h : name ∈ names) : Yaml.IsPlain name.toList := by
  simp only [names, List.mem_cons, List.not_mem_nil, or_false] at h
  rcases h with rfl | rfl | rfl | rfl | rfl <;> exact isPlain_word rfl (by decide) (by decide)

theorem number?_eq_none {text : List Char} (h : '.' ∈ text) : Yaml.number? text = none := by
  have hnone : ∀ base digits, '.' ∈ digits → Yaml.numberIn? base digits = none := by
    intro base digits hmem
    have hall : digits.all (Text.isDigitIn base) = false := List.all_eq_false.mpr ⟨'.', hmem, nofun⟩
    simp [Yaml.numberIn?, hall]
  unfold Yaml.number?
  split
  · dsimp only
    split <;> first | rfl | exact hnone _ _ (by simp_all)
  · dsimp only
    split <;> first | rfl | exact hnone _ _ (by simp_all)

theorem isPlain_v4 (a b c d : UInt8) (port : UInt16) : Yaml.IsPlain (Address.v4 a b c d port).text := by
  refine ⟨?_, fun e he => (isSolid_of_mem_text he).1, ?_⟩
  · obtain ⟨e, more, heq, hstarts⟩ := (Yaml.isPlain_numeral a.toNat).starts
    have htext : ∃ rest, (Address.v4 a b c d port).text = Text.numeral a.toNat ++ rest := by
      simp [Address.text, Address.dotted]
    obtain ⟨rest, htext⟩ := htext
    exact ⟨e, more ++ rest, by rw [htext, heq, List.cons_append], hstarts⟩
  · have hne : Text.numeral port.toNat ≠ [] := Nat.toDigits_ne_nil
    have htext : (Address.v4 a b c d port).text = Address.dotted a b c d ++ ':' :: (Text.numeral port.toNat).dropLast ++
        [(Text.numeral port.toNat).getLast hne] := by
      rw [List.append_assoc, List.cons_append, List.dropLast_append_getLast]
      rfl
    have hlast := (Yaml.isPlain_numeral port.toNat).last
    rw [List.getLast?_eq_some_getLast hne] at hlast
    rwa [htext, List.getLast?_concat]

theorem isRow_row (setting : ServerSetting) : Yaml.IsRow setting.row := by
  cases setting with
  | listen address =>
    cases address with
    | v4 a b c d port =>
      have hpoint : '.' ∈ (Address.v4 a b c d port).text := by simp [Address.text, Address.dotted]
      exact ⟨isPlain_of_mem (ServerSetting.name_mem_names (.listen (.v4 a b c d port))),
        isPlain_v4 a b c d port, number?_eq_none hpoint⟩
    | v6 groups zone port =>
      exact ⟨isPlain_of_mem (ServerSetting.name_mem_names (.listen (.v6 groups zone port))),
        Address.text_ne_nil _, fun c hc => isSolid_of_mem_text hc⟩
  | maxBody n =>
    exact ⟨isPlain_of_mem (ServerSetting.name_mem_names (.maxBody n)), Nat.le_of_lt_succ n.toNat_lt⟩

theorem isPlain_block (setting : Setting) : setting.block.IsPlain := by
  cases setting with
  | dialect choice =>
    refine ⟨isPlain_of_mem (Setting.name_mem_names (.dialect choice)), ?_⟩
    cases choice <;> exact ⟨isPlain_word rfl (by decide) (by decide), by decide⟩
  | layout choice =>
    refine ⟨isPlain_of_mem (Setting.name_mem_names (.layout choice)), ?_⟩
    cases choice <;> exact ⟨isPlain_word rfl (by decide) (by decide), by decide⟩
  | server given =>
    refine ⟨isPlain_of_mem (by decide), fun row hrow => ?_⟩
    obtain ⟨setting, -, rfl⟩ := List.mem_map.mp hrow
    exact isRow_row setting

theorem entry_row (setting : ServerSetting) : Yaml.rowEntry setting.row = setting.entry := by
  cases setting with
  | listen address => cases address <;> rfl
  | maxBody n => rfl

theorem entry_block (setting : Setting) : setting.block.entry = setting.entry .yaml := by
  cases setting with
  | dialect choice => simp [Setting.block, Setting.entry, Yaml.Block.entry, Yaml.rowEntry, Yaml.Scalar.node]
  | layout choice => simp [Setting.block, Setting.entry, Yaml.Block.entry, Yaml.rowEntry, Yaml.Scalar.node]
  | server given =>
    cases given with
    | nil => rfl
    | cons setting given =>
      simp [Setting.block, Setting.entry, Yaml.Block.entry, recordOf, entry_row]

theorem data?_yaml (given : List Setting) :
    Yaml.read? ((given.map Setting.block).flatMap Yaml.Block.characters) =
      some (recordOf .yaml (given.map (Setting.entry .yaml))) := by
  have hplain : ∀ block ∈ given.map Setting.block, block.IsPlain := by
    intro block hblock
    obtain ⟨setting, -, rfl⟩ := List.mem_map.mp hblock
    exact isPlain_block setting
  have hentries : (given.map Setting.block).map Yaml.Block.entry = given.map (Setting.entry .yaml) := by
    rw [List.map_map]
    exact List.map_congr_left fun setting _ => entry_block setting
  rw [Yaml.read?_blocks hplain, hentries]
  simp [recordOf, Convention.yaml]

/-! ## JSON -/

def ServerSetting.member : ServerSetting → String × Json
  | .listen address => ("listen", .string (String.ofList address.text))
  | .maxBody n => ("max_body_bytes", .number (.uint n))

def Setting.member : Setting → String × Json
  | .dialect choice => ("dialect", .string choice.name)
  | .layout choice => ("context_schema", .string choice.name)
  | .server given => ("server", .object (given.map ServerSetting.member))

open Json in
theorem ofJson?_indented {json : Json} (h : json.ReadsNumbers) :
    Node.ofJson? (json.indented 0) = Node.ofTree json.tree := by
  have hread := ofText_of_isCut (isCut_indented h 0)
  rw [Document.ofText, String.toList_ofList] at hread
  simp [Node.ofJson?, hread]

theorem readsNumbers_member (setting : Setting) : setting.member.2.ReadsNumbers := by
  intro n hn
  cases setting with
  | dialect choice => cases hn
  | layout choice => cases hn
  | server given =>
    obtain ⟨member, hmember, hn⟩ := Json.mem_numbers_object_iff.mp hn
    obtain ⟨setting, -, rfl⟩ := List.mem_map.mp hmember
    cases setting with
    | listen address => cases hn
    | maxBody limit =>
      rw [List.mem_singleton.mp hn]
      exact Json.readsBack_uint limit

theorem ofMembers_map {τ : Type} {member : τ → String × Json} {entry : τ → String × Node}
    (h : ∀ setting, (member setting).1 = (entry setting).1 ∧
      Node.ofTree (member setting).2.tree = some (entry setting).2) (given : List τ) :
    Node.ofMembers (Json.memberTrees (given.map member)) = some (given.map entry) := by
  induction given with
  | nil => rfl
  | cons setting given ih =>
    obtain ⟨hname, hnode⟩ := h setting
    simp only [List.map_cons, Json.memberTrees, Node.ofMembers, ih, hname, hnode]

theorem ofTree_uint (n : UInt64) : Node.ofTree (Json.number (.uint n)).tree = some (.size n.toNat) := by
  simp only [Json.tree, Json.reread]
  split
  · have hvalue : (Int64.ofNat n.toNat).toInt = n.toNat := Int64.toInt_ofNat_of_lt (by omega)
    simp [Node.ofTree, Node.ofNumber, hvalue]
  · rfl

theorem ofTree_serverMember (setting : ServerSetting) :
    setting.member.1 = setting.entry.1 ∧ Node.ofTree setting.member.2.tree = some setting.entry.2 := by
  cases setting with
  | listen address => exact ⟨rfl, rfl⟩
  | maxBody n => exact ⟨rfl, ofTree_uint n⟩

theorem ofTree_member (setting : Setting) :
    setting.member.1 = (setting.entry .json).1 ∧ Node.ofTree setting.member.2.tree = some (setting.entry .json).2 := by
  cases setting with
  | dialect choice => exact ⟨rfl, rfl⟩
  | layout choice => exact ⟨rfl, rfl⟩
  | server given =>
    refine ⟨rfl, ?_⟩
    have hmembers := ofMembers_map ofTree_serverMember given
    simp [Setting.member, Setting.entry, Json.tree, Node.ofTree, hmembers, recordOf, Convention.json]

theorem data?_json (given : List Setting) :
    Node.ofJson? ((Json.object (given.map Setting.member)).indented 0) =
      some (recordOf .json (given.map (Setting.entry .json))) := by
  have hnumbers : (Json.object (given.map Setting.member)).ReadsNumbers := by
    intro n hn
    obtain ⟨member, hmember, hn⟩ := Json.mem_numbers_object_iff.mp hn
    obtain ⟨setting, -, rfl⟩ := List.mem_map.mp hmember
    exact readsNumbers_member setting n hn
  have hmembers := ofMembers_map ofTree_member given
  rw [ofJson?_indented hnumbers]
  simp [Json.tree, Node.ofTree, hmembers, recordOf, Convention.json]

/-! ## All formats -/

namespace Format

/-- Some settings as text, in the order in which they are given. -/
def characters (format : Format) (given : List Setting) : List Char :=
  match format with
  | .toml => (lines given).flatMap Toml.Line.characters
  | .yaml => (given.map Setting.block).flatMap Yaml.Block.characters
  | .json => (Json.object (given.map Setting.member)).indented 0

theorem read_eq {format : Format} {text : List Char} {node : Node} (h : format.data? text = some node) :
    format.read text = ofNode format.convention node := by
  rw [read, h]

/-- What is saved is the text of all settings. -/
theorem write_eq (format : Format) (settings : Settings) : format.write settings = format.characters settings.all := by
  cases format with
  | toml =>
    have hlines : lines settings.all =
        [.definition "dialect" (.scalar (.text settings.dialect.name.toList)),
          .definition "context_schema" (.scalar (.text settings.layout.name.toList)), .blank, .header "server",
          .definition "listen" (.scalar (.text settings.server.listen.text)),
          .definition "max_body_bytes" (.scalar (.size settings.server.maxBody.toNat))] := rfl
    simp only [write, characters, hlines]
    unfold tomlText
    simp [Toml.Line.characters, Toml.definitionCharacters, Toml.Value.characters, Toml.Scalar.characters]
  | yaml =>
    obtain ⟨dialect, layout, ⟨listen, maxBody⟩⟩ := settings
    simp only [write, characters]
    unfold yamlText
    cases listen <;> simp [yamlAddress, Settings.all, Setting.block, ServerSetting.row, Yaml.Block.characters,
      Yaml.rowCharacters, Yaml.Scalar.characters]
  | json => rfl

theorem data?_characters (format : Format) {given : List Setting} (h : AreDistinct given) :
    format.data? (format.characters given) =
      some (recordOf format.convention (given.map (Setting.entry format.convention))) := by
  cases format with
  | toml => exact data?_toml h
  | yaml => exact data?_yaml given
  | json => exact data?_json given

theorem holds_characters (format : Format) {given : List Setting} (h : AreDistinct given) :
    ∃ node, format.data? (format.characters given) = some node ∧ Holds format.convention given node :=
  ⟨_, format.data?_characters h, holds_recordOf format.convention h⟩

/-! ## The sample -/

def sampleLines : List Toml.Line :=
  [.comment " Configuration for rule-evaluator".toList, .blank,
    .comment " Surface syntax of the rules: \"feel\" or \"cel\"".toList,
    .definition "dialect" (.scalar (.text "feel".toList)), .blank,
    .comment " Request layout accepted by \x60evaluate\x60 and the HTTP endpoint: \"event\" or \"process-state\"".toList,
    .definition "context_schema" (.scalar (.text "event".toList)), .blank, .header "server",
    .comment " Address the HTTP endpoint listens on".toList,
    .definition "listen" (.scalar (.text "127.0.0.1:8080".toList)), .blank,
    .comment " Largest accepted request body, in bytes".toList,
    .definition "max_body_bytes" (.scalar (.size 1048576))]

theorem append_lines {text rest : List Char} {line : Toml.Line} {lines : List Toml.Line}
    (h : line.characters = text) (hrest : rest = lines.flatMap Toml.Line.characters) :
    text ++ rest = (line :: lines).flatMap Toml.Line.characters := by
  rw [← h, hrest, List.flatMap_cons]

theorem sample_eq : sample = sampleLines.flatMap Toml.Line.characters := by
  unfold sample sampleLines
  simp only [String.toList_append, List.append_assoc]
  -- A comment is compared as characters: its text is the same literal without the mark and the line end.
  refine append_lines ((congrArg ('#' :: · ++ ['\n']) String.toList_ofList).trans String.toList_ofList.symm) ?_
  refine append_lines String.toList_ofList.symm ?_
  refine append_lines ((congrArg ('#' :: · ++ ['\n']) String.toList_ofList).trans String.toList_ofList.symm) ?_
  refine append_lines rfl (append_lines String.toList_ofList.symm ?_)
  refine append_lines ((congrArg ('#' :: · ++ ['\n']) String.toList_ofList).trans String.toList_ofList.symm) ?_
  refine append_lines rfl (append_lines String.toList_ofList.symm (append_lines rfl ?_))
  refine append_lines ((congrArg ('#' :: · ++ ['\n']) String.toList_ofList).trans String.toList_ofList.symm) ?_
  refine append_lines rfl (append_lines String.toList_ofList.symm ?_)
  refine append_lines ((congrArg ('#' :: · ++ ['\n']) String.toList_ofList).trans String.toList_ofList.symm) ?_
  rfl

theorem isPlain_sampleLines : ∀ line ∈ sampleLines, line.IsPlain := by
  have hnames : ∀ name ∈ names, Toml.IsName name := fun name => isName_of_mem
  have hfeel : (Toml.Value.scalar (.text "feel".toList)).IsPlain := isPlain_value (.dialect .feel) nofun
  have hevent : (Toml.Value.scalar (.text "event".toList)).IsPlain := isPlain_value (.layout .event) nofun
  have hlisten : (Toml.Value.scalar (.text "127.0.0.1:8080".toList)).IsPlain :=
    isPlain_scalar (.listen Server.standard.listen)
  simp only [sampleLines, List.forall_mem_cons]
  refine ⟨?_, trivial, ?_, ⟨hnames _ (by decide), hfeel⟩, trivial, ?_, ⟨hnames _ (by decide), hevent⟩, trivial,
    hnames _ (by decide), ?_, ⟨hnames _ (by decide), hlisten⟩, trivial, ?_, ⟨hnames _ (by decide), trivial⟩, by simp⟩
  all_goals exact List.all_eq_true.mp ((congrArg (List.all · Toml.isInk) String.toList_ofList).trans rfl)

/-- The text that explains the standard settings holds them. -/
theorem data?_sample : Format.toml.data? sample = some (recordOf .toml (standard.all.map (Setting.entry .toml))) := by
  rw [sample_eq, data?, Toml.read?_lines isPlain_sampleLines]
  rfl

end Format

end Rulebook.Settings
