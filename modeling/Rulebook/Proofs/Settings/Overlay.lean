/-
  Rulebook.Proofs.Settings.Overlay — settings lie over the standard ones, one by one.

  Settings are given one by one, in any order and as few as one likes: `overlaid` puts them on
  top of the standard ones. Data holds them (`Holds`) if it is a record of entries, each
  with the name of a setting and a value that says it. How the data was written does not
  matter, nor in which format, up to what the format takes for a record without fields.
  - `lieOver_overlaid`: settings are what is given, and the standard ones otherwise.
  - `setFields_append`: entries that say settings change a record as the settings do, in
    front of others.
  - `ofNode_of_holds`: the settings of data that holds some are those over the standard ones.
  - `exists_cause_of_strays`: data with any other name in it, also under the server, is
    refused.
  - `ofNode_stray`: the first name that is no setting is named as the cause.
-/

import Mathlib.Data.List.Forall2
import Rulebook.Settings.Basic

namespace Rulebook.Settings

/-! ## Settings one by one -/

inductive ServerSetting where
  | listen (address : Address)
  | maxBody (n : UInt64)
  deriving DecidableEq

/-- A setting, of which the server's may be any number. -/
inductive Setting where
  | dialect (choice : Dialect)
  | layout (choice : Layout)
  | server (given : List ServerSetting)
  deriving DecidableEq

def ServerSetting.name : ServerSetting → String
  | .listen _ => "listen"
  | .maxBody _ => "max_body_bytes"

def ServerSetting.apply : ServerSetting → Server → Server
  | .listen address, server => { server with listen := address }
  | .maxBody n, server => { server with maxBody := n }

def overlaidServer (given : List ServerSetting) : Server :=
  given.foldl (fun server setting => setting.apply server) .standard

def Setting.name : Setting → String
  | .dialect _ => "dialect"
  | .layout _ => "context_schema"
  | .server _ => "server"

def Setting.apply : Setting → Settings → Settings
  | .dialect choice, settings => { settings with dialect := choice }
  | .layout choice, settings => { settings with layout := choice }
  | .server given, settings => { settings with server := overlaidServer given }

/-- Some settings over the standard ones. -/
def overlaid (given : List Setting) : Settings := given.foldl (fun settings setting => setting.apply settings) standard

def all (settings : Settings) : List Setting :=
  [.dialect settings.dialect, .layout settings.layout,
    .server [.listen settings.server.listen, .maxBody settings.server.maxBody]]

theorem overlaid_all (settings : Settings) : overlaid settings.all = settings := rfl

def AreDistinct (given : List Setting) : Prop :=
  (given.map Setting.name).Nodup ∧
    ∀ inner, .server inner ∈ given → (inner.map ServerSetting.name).Nodup

theorem areDistinct_all (settings : Settings) : AreDistinct settings.all := by
  refine ⟨by simp [all, Setting.name], fun inner hmem => ?_⟩
  obtain rfl : inner = [.listen settings.server.listen, .maxBody settings.server.maxBody] := by
    simpa [all] using hmem
  simp [ServerSetting.name]

/-- Whether a value is the one that is said, and the default if none is. -/
def IsSaidOr {α : Type} (said : α → Prop) (default value : α) : Prop :=
  (∀ a, said a → value = a) ∧ ((∀ a, ¬said a) → value = default)

/-- Whether settings are what is given and the standard ones otherwise. -/
structure LieOver (given : List Setting) (settings : Settings) : Prop where
  dialect : IsSaidOr (fun choice => .dialect choice ∈ given) standard.dialect settings.dialect
  layout : IsSaidOr (fun choice => .layout choice ∈ given) standard.layout settings.layout
  listen : IsSaidOr (fun address => ∃ inner, .server inner ∈ given ∧ .listen address ∈ inner)
    standard.server.listen settings.server.listen
  maxBody : IsSaidOr (fun n => ∃ inner, .server inner ∈ given ∧ .maxBody n ∈ inner)
    standard.server.maxBody settings.server.maxBody

/-- What a field has become after changes, of which at most one is of this field. -/
theorem get_foldl {σ τ α β : Type} (apply : τ → σ → σ) (get : σ → α) (name : τ → String) (make : β → τ) (value : β → α)
    {label : String} (hname : ∀ b, name (make b) = label) (hmake : ∀ b s, get (apply (make b) s) = value b)
    (hkeep : ∀ t, (∀ b, t ≠ make b) → ∀ s, get (apply t s) = get s) {given : List τ}
    (hdistinct : (given.map name).Nodup) (s : σ) :
    (∀ b, make b ∈ given → get (given.foldl (fun s t => apply t s) s) = value b) ∧
      ((∀ b, make b ∉ given) → get (given.foldl (fun s t => apply t s) s) = get s) := by
  induction given generalizing s with
  | nil => exact ⟨nofun, fun _ => rfl⟩
  | cons t given ih =>
    rw [List.map_cons, List.nodup_cons] at hdistinct
    obtain ⟨hsaid, hunsaid⟩ := ih hdistinct.2 (apply t s)
    rw [List.foldl_cons]
    by_cases ht : ∃ b, t = make b
    · obtain ⟨b, rfl⟩ := ht
      have hnone : ∀ c, make c ∉ given := fun c hc =>
        hdistinct.1 (List.mem_map.mpr ⟨_, hc, (hname c).trans (hname b).symm⟩)
      refine ⟨fun c hc => ?_, fun hno => absurd List.mem_cons_self (hno b)⟩
      rcases List.mem_cons.mp hc with heq | hc
      · rw [hunsaid hnone, ← heq, hmake]
      · exact absurd hc (hnone c)
    · have hother : ∀ b, t ≠ make b := fun b heq => ht ⟨b, heq⟩
      refine ⟨fun c hc => hsaid c ((List.mem_cons.mp hc).resolve_left fun heq => hother c heq.symm), fun hno => ?_⟩
      rw [hunsaid fun b hb => hno b (List.mem_cons_of_mem _ hb), hkeep t hother]

theorem overlaidServer_listen {given : List ServerSetting} (h : (given.map ServerSetting.name).Nodup) :
    IsSaidOr (fun address => .listen address ∈ given) standard.server.listen (overlaidServer given).listen := by
  refine get_foldl ServerSetting.apply Server.listen ServerSetting.name .listen id (fun _ => rfl) (fun _ _ => rfl)
    (fun setting hother _ => ?_) h Server.standard
  cases setting with
  | listen address => exact absurd rfl (hother address)
  | maxBody n => rfl

theorem overlaidServer_maxBody {given : List ServerSetting} (h : (given.map ServerSetting.name).Nodup) :
    IsSaidOr (fun n => .maxBody n ∈ given) standard.server.maxBody (overlaidServer given).maxBody := by
  refine get_foldl ServerSetting.apply Server.maxBody ServerSetting.name .maxBody id (fun _ => rfl) (fun _ _ => rfl)
    (fun setting hother _ => ?_) h Server.standard
  cases setting with
  | listen address => rfl
  | maxBody n => exact absurd rfl (hother n)

theorem overlaid_server {given : List Setting} (h : (given.map Setting.name).Nodup) :
    (∀ inner, .server inner ∈ given → (overlaid given).server = overlaidServer inner) ∧
      ((∀ inner, .server inner ∉ given) → (overlaid given).server = standard.server) := by
  refine get_foldl Setting.apply Settings.server Setting.name .server overlaidServer (fun _ => rfl) (fun _ _ => rfl)
    (fun setting hother _ => ?_) h standard
  cases setting with
  | dialect choice => rfl
  | layout choice => rfl
  | server inner => exact absurd rfl (hother inner)

/-- What is said in the server's settings, or else the standard value, is the field of the server. -/
theorem isSaidOr_server {α : Type} {get : Server → α} {make : α → ServerSetting} {given : List Setting}
    (h : AreDistinct given)
    (hinner : ∀ inner : List ServerSetting, (inner.map ServerSetting.name).Nodup →
      IsSaidOr (fun a => make a ∈ inner) (get standard.server) (get (overlaidServer inner))) :
    IsSaidOr (fun a => ∃ inner, .server inner ∈ given ∧ make a ∈ inner) (get standard.server)
      (get (overlaid given).server) := by
  obtain ⟨hsaid, hunsaid⟩ := overlaid_server h.1
  refine ⟨?_, fun hno => ?_⟩
  · rintro a ⟨inner, hmem, ha⟩
    rw [hsaid inner hmem]
    exact (hinner inner (h.2 inner hmem)).1 a ha
  · by_cases hserver : ∃ inner, .server inner ∈ given
    · obtain ⟨inner, hmem⟩ := hserver
      rw [hsaid inner hmem]
      exact (hinner inner (h.2 inner hmem)).2 fun a ha => hno a ⟨inner, hmem, ha⟩
    · rw [hunsaid fun inner hmem => hserver ⟨inner, hmem⟩]

/-- Settings that are given once each lie over the standard ones, in whichever order they come. -/
theorem lieOver_overlaid {given : List Setting} (h : AreDistinct given) : LieOver given (overlaid given) where
  dialect := by
    refine get_foldl Setting.apply Settings.dialect Setting.name .dialect id (fun _ => rfl) (fun _ _ => rfl)
      (fun setting hother _ => ?_) h.1 standard
    cases setting with
    | dialect choice => exact absurd rfl (hother choice)
    | layout choice => rfl
    | server inner => rfl
  layout := by
    refine get_foldl Setting.apply Settings.layout Setting.name .layout id (fun _ => rfl) (fun _ _ => rfl)
      (fun setting hother _ => ?_) h.1 standard
    cases setting with
    | dialect choice => rfl
    | layout choice => exact absurd rfl (hother choice)
    | server inner => rfl
  listen := isSaidOr_server h fun _ => overlaidServer_listen
  maxBody := isSaidOr_server h fun _ => overlaidServer_maxBody

/-! ## Data that holds settings -/

variable {convention : Convention} {node : Node} {entries : List (String × Node)}

/-- Whether data is a record of entries: a table, or nothing if that is a record without fields. -/
inductive IsRecord (convention : Convention) : List (String × Node) → Node → Prop where
  | table (entries : List (String × Node)) : IsRecord convention entries (.table entries)
  | nothing (h : convention.bare = true) : IsRecord convention [] .nothing

inductive ServerSetting.Said : ServerSetting → String × Node → Prop where
  | listen {text : String} {address : Address} (h : Address.ofText? text.toList = some address) :
    Said (.listen address) ("listen", .text text)
  | maxBody (n : UInt64) : Said (.maxBody n) ("max_body_bytes", .size n.toNat)

inductive Setting.Said (convention : Convention) : Setting → String × Node → Prop where
  | dialect (choice : Dialect) : Said convention (.dialect choice) ("dialect", .text choice.name)
  | layout (choice : Layout) : Said convention (.layout choice) ("context_schema", .text choice.name)
  | server {given : List ServerSetting} {entries : List (String × Node)} {node : Node}
    (hrecord : IsRecord convention entries node) (hsaid : List.Forall₂ ServerSetting.Said given entries)
    (hdistinct : (given.map ServerSetting.name).Nodup) : Said convention (.server given) ("server", node)

/-- Whether data holds settings, each of them once. -/
def Holds (convention : Convention) (given : List Setting) (node : Node) : Prop :=
  ∃ entries, IsRecord convention entries node ∧ List.Forall₂ (Setting.Said convention) given entries ∧
    (given.map Setting.name).Nodup

theorem ServerSetting.Said.name_eq {setting : ServerSetting} {entry : String × Node} (h : setting.Said entry) :
    entry.1 = setting.name := by
  cases h <;> rfl

theorem Setting.Said.name_eq {setting : Setting} {entry : String × Node} (h : setting.Said convention entry) :
    entry.1 = setting.name := by
  cases h <;> rfl

theorem Holds.areDistinct {given : List Setting} (h : Holds convention given node) : AreDistinct given := by
  obtain ⟨entries, -, hsaid, hdistinct⟩ := h
  refine ⟨hdistinct, fun inner hmem => ?_⟩
  obtain ⟨i, hi, heq⟩ := List.mem_iff_getElem.mp hmem
  have hentry := List.Forall₂.get hsaid hi (hsaid.length_eq ▸ hi)
  rw [List.get_eq_getElem, heq] at hentry
  generalize entries.get _ = entry at hentry
  cases hentry with
  | server _ _ hdistinct => exact hdistinct

/-! ## Fields -/

variable {α τ : Type} {fields : List (Field α)} {done : List String} {record : α}

/-- Whether an entry sets a field of a record to what a change makes of the record. -/
def Sets (fields : List (Field α)) (change : α → α) (entry : String × Node) : Prop :=
  ∃ field, fields.find? (·.name == entry.1) = some field ∧ ∀ record, field.set entry.2 record = .ok (change record)

/-- Entries that set each its field, each field once, are read one by one in front of others. -/
theorem setFields_append {apply : τ → α → α} {name : τ → String} {given : List τ} {said : List (String × Node)}
    (hsaid : List.Forall₂ (fun setting entry => entry.1 = name setting ∧ Sets fields (apply setting) entry) given said)
    (hdistinct : (given.map name).Nodup) (hnew : ∀ setting ∈ given, name setting ∉ done) (record : α)
    (rest : List (String × Node)) :
    setFields fields done record (said ++ rest) =
      setFields fields ((given.map name).reverse ++ done) (given.foldl (fun record setting => apply setting record) record)
        rest := by
  induction hsaid generalizing done record with
  | nil => rfl
  | @cons setting entry given said hentry _ ih =>
    obtain ⟨hname, field, hfind, hset⟩ := hentry
    obtain ⟨hfirst, hothers⟩ := List.nodup_cons.mp hdistinct
    have hdone : done.contains entry.1 = false := by
      rw [hname, List.contains_eq_mem, decide_eq_false_iff_not]
      exact hnew setting List.mem_cons_self
    have hnew' : ∀ other ∈ given, name other ∉ entry.1 :: done := by
      intro other hother hmem
      rcases List.mem_cons.mp hmem with heq | hmem
      · exact hfirst (List.mem_map.mpr ⟨other, hother, heq.trans hname⟩)
      · exact hnew other (List.mem_cons_of_mem _ hother) hmem
    obtain ⟨key, node⟩ := entry
    rw [List.cons_append, setFields, hfind]
    simp only [hdone, Bool.false_eq_true, if_false, hset, bind, Except.bind]
    rw [ih hothers hnew', List.foldl_cons, List.map_cons, List.reverse_cons, List.append_assoc, ← hname]
    rfl

/-- An entry that no field can be set to ends a record, if nothing before it does. -/
theorem exists_cause_of_mem {entries : List (String × Node)}
    (h : ∃ entry ∈ entries, ∀ field, fields.find? (·.name == entry.1) = some field →
      ∀ record, ∃ cause, field.set entry.2 record = .error cause) (done : List String) (record : α) :
    ∃ cause, setFields fields done record entries = .error cause := by
  obtain ⟨entry, hmem, hrefused⟩ := h
  induction entries generalizing done record with
  | nil => cases hmem
  | cons first rest ih =>
    obtain ⟨name, node⟩ := first
    rw [setFields]
    cases hfind : fields.find? (·.name == name) with
    | none => exact ⟨_, rfl⟩
    | some field =>
      simp only
      split
      · exact ⟨_, rfl⟩
      · cases hset : field.set node record with
        | error cause => exact ⟨cause, rfl⟩
        | ok changed =>
          rcases List.mem_cons.mp hmem with rfl | hmem
          · obtain ⟨cause, hcause⟩ := hrefused field hfind record
            cases hset.symm.trans hcause
          · exact ih (name :: done) changed hmem

theorem record_eq_setFields (h : IsRecord convention entries node) (default : α) :
    node.record convention fields default = setFields fields [] default entries := by
  cases h with
  | table entries => rfl
  | nothing hbare =>
    unfold Node.record Node.entries
    rw [if_pos hbare]
    rfl

theorem find?_eq_none {β : Type} (key : β → String) {items : List β} {name : String} (h : name ∉ items.map key) :
    items.find? (key · == name) = none := by
  rw [List.find?_eq_none]
  intro item hmem heq
  exact h (beq_iff_eq.mp heq ▸ List.mem_map_of_mem hmem)

/-! ## Settings of data -/

theorem ServerSetting.Said.sets {setting : ServerSetting} {entry : String × Node} (h : setting.Said entry) :
    entry.1 = setting.name ∧ Sets [listenField, maxBodyField] setting.apply entry := by
  refine ⟨h.name_eq, ?_⟩
  cases h with
  | listen h => exact ⟨listenField, rfl, fun server => by simp [listenField, Field.reading, Node.text?, h, apply]⟩
  | maxBody n =>
    exact ⟨maxBodyField, rfl, fun server => by simp [maxBodyField, Field.reading, Node.size?, n.toNat_lt_size, apply]⟩

/-- The server of data that holds settings of it. -/
theorem record_server_of_said {given : List ServerSetting} (hrecord : IsRecord convention entries node)
    (hsaid : List.Forall₂ ServerSetting.Said given entries) (hdistinct : (given.map ServerSetting.name).Nodup) :
    node.record convention [listenField, maxBodyField] .standard = .ok (overlaidServer given) := by
  have hset := setFields_append (hsaid.imp fun _ _ h => h.sets) hdistinct (fun _ _ => List.not_mem_nil) Server.standard []
  rw [List.append_nil] at hset
  rw [record_eq_setFields hrecord, hset]
  rfl

theorem Setting.Said.sets {setting : Setting} {entry : String × Node} (h : setting.Said convention entry) :
    entry.1 = setting.name ∧
      Sets [dialectField convention, layoutField convention, serverField convention] setting.apply entry := by
  refine ⟨h.name_eq, ?_⟩
  cases h with
  | dialect choice =>
    refine ⟨dialectField convention, rfl, fun settings => ?_⟩
    simp [dialectField, Field.reading, Node.choice?, Dialect.ofName?_name, apply]
  | layout choice =>
    refine ⟨layoutField convention, rfl, fun settings => ?_⟩
    simp [layoutField, Field.reading, Node.choice?, Layout.ofName?_name, apply]
  | server hrecord hsaid hdistinct =>
    refine ⟨serverField convention, rfl, fun settings => ?_⟩
    simp only [serverField, record_server_of_said hrecord hsaid hdistinct]
    rfl

/-- The settings of data that holds some are those over the standard ones. -/
theorem ofNode_of_holds {given : List Setting} (h : Holds convention given node) :
    ofNode convention node = .ok (overlaid given) := by
  obtain ⟨entries, hrecord, hsaid, hdistinct⟩ := h
  have hset := setFields_append (hsaid.imp fun _ _ h => h.sets) hdistinct (fun _ _ => List.not_mem_nil) standard []
  rw [List.append_nil] at hset
  rw [ofNode, record_eq_setFields hrecord, hset]
  rfl

/-! ## Other names -/

/-- Data with a name in it that is none of the settings', also under the server. -/
def Strays (entries : List (String × Node)) : Prop :=
  (∃ entry ∈ entries, entry.1 ∉ ["dialect", "context_schema", "server"]) ∨
    ∃ inner, ("server", .table inner) ∈ entries ∧ ∃ entry ∈ inner, entry.1 ∉ ["listen", "max_body_bytes"]

/-- Data with another name in it is refused. -/
theorem exists_cause_of_strays (h : Strays entries) (convention : Convention) :
    ∃ cause, ofNode convention (.table entries) = .error cause := by
  refine exists_cause_of_mem ?_ [] standard
  obtain ⟨entry, hmem, hunknown⟩ | ⟨inner, hmem, entry, hinner, hunknown⟩ := h
  · refine ⟨entry, hmem, fun field hfind => ?_⟩
    cases hfind.symm.trans (find?_eq_none Field.name hunknown)
  · refine ⟨("server", .table inner), hmem, fun field hfind settings => ?_⟩
    obtain ⟨cause, hcause⟩ : ∃ cause, setFields [listenField, maxBodyField] [] .standard inner = .error cause := by
      refine exists_cause_of_mem ⟨entry, hinner, fun field hfind => ?_⟩ [] _
      cases hfind.symm.trans (find?_eq_none Field.name hunknown)
    obtain rfl : serverField convention = field := Option.some.inj hfind
    refine ⟨cause, ?_⟩
    simp only [serverField, record_eq_setFields (.table inner), hcause]
    rfl

/-- The first other name is told, behind any settings. -/
theorem ofNode_stray {given : List Setting} {before after : List (String × Node)} {name : String}
    (hsaid : List.Forall₂ (Setting.Said convention) given before) (hdistinct : (given.map Setting.name).Nodup)
    (h : name ∉ ["dialect", "context_schema", "server"]) :
    ofNode convention (.table (before ++ (name, node) :: after)) =
      .error (.unknownField name ["dialect", "context_schema", "server"]) := by
  have hset := setFields_append (hsaid.imp fun _ _ h => h.sets) hdistinct (fun _ _ => List.not_mem_nil) standard
    ((name, node) :: after)
  rw [ofNode, record_eq_setFields (.table _), hset, setFields, find?_eq_none Field.name h]
  rfl

example : (ofNode .toml (.table [("dialect", .text "feel"), ("strict", .other)])).mapError Cause.message? =
    .error (some "unknown field `strict`, expected one of `dialect`, `context_schema`, `server`") := by rfl

end Rulebook.Settings
