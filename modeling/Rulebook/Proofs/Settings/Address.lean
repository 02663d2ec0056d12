/-
  Rulebook.Proofs.Settings.Address — an address is read from the text that it is written as.

  Digits are read up to what is no digit, so a numeral is read whole in front of a point,
  a colon, a percent sign or a bracket (`Numeral.read?_toDigits`). Where groups are
  written no decimal numbers are found, since no group is followed by a point
  (`octets?_group`). The groups in front of two colons and those behind them are read one
  after the other, and what is missing between them was a run of zeros.
  - `groups?_groupsText`: groups in each of their three forms.
  - `ofText?_text`: addresses of both kinds, with any zone and any port.
-/

import Mathlib.Data.List.TakeWhile
import Mathlib.Data.Nat.Digits.Defs
import Mathlib.Tactic.Conv
import Rulebook.Settings.Address

namespace Rulebook

open Rulebook.Text (hexValue? isDigitIn valueIn numeral)

namespace Text

theorem takeWhile_append_stop {p : Char → Bool} {text rest : List Char} (ht : ∀ c ∈ text, p c = true)
    (hr : rest.head?.any p = false) :
    (text ++ rest).takeWhile p = text ∧ (text ++ rest).dropWhile p = rest := by
  rw [List.takeWhile_append_of_pos ht, List.dropWhile_append_of_pos ht]
  cases rest with
  | nil => simp
  | cons c rest =>
    have hc : p c = false := by simpa using hr
    simp [hc]

/-! ## Digits in a base -/

variable {base n d : Nat}

theorem hexValue?_digitChar (h : d < 16) : hexValue? d.digitChar = some d := by
  have hall : ∀ e : Fin 16, hexValue? (Nat.digitChar e.val) = some e.val := by decide
  exact hall ⟨d, h⟩

/-- What holds of the digits of a base holds of the characters of its numerals. -/
theorem forall_mem_toDigits (h1 : 1 < base) (p : Char → Prop) (hp : ∀ d < base, p d.digitChar) {c : Char}
    (h : c ∈ Nat.toDigits base n) : p c := by
  induction n using Nat.strongRecOn with
  | _ n ih =>
    by_cases hn : n < base
    · rw [Nat.toDigits_of_lt_base hn] at h
      exact List.mem_singleton.mp h ▸ hp n hn
    · rw [Nat.toDigits_of_base_le h1 (Nat.le_of_not_lt hn)] at h
      rcases List.mem_append.mp h with h | h
      · exact ih (n / base) (Nat.div_lt_self (by omega) h1) h
      · exact List.mem_singleton.mp h ▸ hp _ (Nat.mod_lt _ (by omega))

theorem isDigitIn_of_mem_toDigits (h1 : 1 < base) (hb : base ≤ 16) {c : Char} (h : c ∈ Nat.toDigits base n) :
    isDigitIn base c = true := by
  refine forall_mem_toDigits h1 (isDigitIn base · = true) (fun d hd => ?_) h
  rw [isDigitIn, hexValue?_digitChar (by omega)]
  simpa using hd

theorem valueIn_toDigits (h1 : 1 < base) (hb : base ≤ 16) (n : Nat) : valueIn base (Nat.toDigits base n) = n := by
  induction n using Nat.strongRecOn with
  | _ n ih =>
    by_cases hn : n < base
    · rw [Nat.toDigits_of_lt_base hn, valueIn]
      simp [hexValue?_digitChar (show n < 16 by omega)]
    · have hlast : n % base < 16 := Nat.lt_of_lt_of_le (Nat.mod_lt _ (by omega)) hb
      have hfront := ih (n / base) (Nat.div_lt_self (by omega) h1)
      rw [valueIn] at hfront ⊢
      rw [Nat.toDigits_of_base_le h1 (Nat.le_of_not_lt hn), List.foldl_append, hfront]
      simp [hexValue?_digitChar hlast, Nat.div_add_mod]

theorem head?_toDigits (h1 : 1 < base) (hb : base ≤ 16) (h : 0 < n) : (Nat.toDigits base n).head? ≠ some '0' := by
  induction n using Nat.strongRecOn with
  | _ n ih =>
    by_cases hn : n < base
    · rw [Nat.toDigits_of_lt_base hn]
      have hall : ∀ e : Fin 16, 0 < e.val → Nat.digitChar e.val ≠ '0' := by decide
      simpa using hall ⟨n, by omega⟩ h
    · have hfront := ih (n / base) (Nat.div_lt_self h h1) (Nat.div_pos (Nat.le_of_not_lt hn) (by omega))
      rw [Nat.toDigits_of_base_le h1 (Nat.le_of_not_lt hn), List.head?_append]
      cases hd : (Nat.toDigits base (n / base)).head? with
      | none => exact absurd (List.head?_eq_none_iff.mp hd) Nat.toDigits_ne_nil
      | some c => rwa [hd] at hfront

theorem isDigitIn_of_mem_numeral {c : Char} (h : c ∈ numeral n) : isDigitIn 10 c = true :=
  isDigitIn_of_mem_toDigits (by decide) (by decide) h

theorem numeral_ne_zero_cons (n : Nat) (c : Char) (rest : List Char) : numeral n ≠ '0' :: c :: rest := by
  intro heq
  rcases Nat.eq_zero_or_pos n with rfl | hpos
  · cases heq
  · exact head?_toDigits (by decide) (by decide) hpos (congrArg List.head? heq)

end Text

namespace Address

/-! ## Numerals -/

variable {n : Nat} {rest : List Char} {kind : Numeral}

def Ends (kind : Numeral) (rest : List Char) : Prop := rest.head?.any (isDigitIn kind.base) = false

theorem Numeral.read?_toDigits (h1 : 1 < kind.base) (hb : kind.base ≤ 16) (hm : n ≤ kind.most)
    (hd : ∀ most, kind.digits = some most → 0 < most ∧ n < kind.base ^ most) (hr : Ends kind rest) :
    kind.read? (Nat.toDigits kind.base n ++ rest) = some (n, rest) := by
  have hdigits : ∀ c ∈ Nat.toDigits kind.base n, isDigitIn kind.base c = true := fun _ =>
    Text.isDigitIn_of_mem_toDigits h1 hb
  obtain ⟨htake, hdrop⟩ := Text.takeWhile_append_stop hdigits hr
  have hvalue := Text.valueIn_toDigits h1 hb n
  have hzero : ((Nat.toDigits kind.base n).head? != some '0' || (Nat.toDigits kind.base n).length == 1) = true := by
    rcases Nat.eq_zero_or_pos n with rfl | hpos
    · simp
    · simp [Text.head?_toDigits h1 hb hpos]
  have hadmits : kind.admits (Nat.toDigits kind.base n) = true := by
    unfold admits
    rw [Bool.or_assoc, hzero, hvalue, decide_eq_true hm]
    cases hdigits : kind.digits with
    | none => simp
    | some most =>
      have hlength := Nat.toDigits_length kind.base n most (hd most hdigits).1 (hd most hdigits).2
      simp [hlength]
  simp only [read?, htake, hdrop, hadmits, hvalue, if_true]

theorem Numeral.read?_eq_none (hr : Ends kind rest) : kind.read? rest = none := by
  have htake : rest.takeWhile (isDigitIn kind.base) = [] := by
    cases rest with
    | nil => rfl
    | cons c rest => simpa [Ends] using hr
  simp [read?, htake, admits]

theorem Numeral.read?_octet (a : UInt8) (hr : Ends .octet rest) :
    Numeral.octet.read? (numeral a.toNat ++ rest) = some (a.toNat, rest) :=
  read?_toDigits (by decide) (by decide) (Nat.le_of_lt_succ a.toNat_lt)
    (fun most h => by cases h; exact ⟨by decide, Nat.lt_trans a.toNat_lt (by decide)⟩) hr

theorem Numeral.read?_group (group : UInt16) (hr : Ends .group rest) :
    Numeral.group.read? (Nat.toDigits 16 group.toNat ++ rest) = some (group.toNat, rest) :=
  read?_toDigits (by decide) (by decide) (Nat.le_of_lt_succ group.toNat_lt)
    (fun most h => by cases h; exact ⟨by decide, group.toNat_lt⟩) hr

theorem port?_numeral (port : UInt16) : port? (':' :: numeral port.toNat) = some port := by
  have hread : Numeral.port.read? (numeral port.toNat ++ []) = some (port.toNat, []) :=
    Numeral.read?_toDigits (by decide) (by decide) (Nat.le_of_lt_succ port.toNat_lt) nofun rfl
  rw [List.append_nil] at hread
  simp [port?, after?, hread]

theorem zone?_zoneText (zone : UInt32) (rest : List Char) :
    zone? (zoneText zone ++ ']' :: rest) = (zone, ']' :: rest) := by
  unfold zoneText
  by_cases hz : zone = 0
  · rw [if_pos hz, hz]
    rfl
  · have hread : Numeral.zone.read? (numeral zone.toNat ++ ']' :: rest) = some (zone.toNat, ']' :: rest) :=
      Numeral.read?_toDigits (by decide) (by decide) (Nat.le_of_lt_succ zone.toNat_lt) nofun rfl
    rw [if_neg hz]
    simp [zone?, after?, hread]

/-! ## Decimal numbers -/

theorem octets?_dotted (a b c d : UInt8) (hr : Ends .octet rest) :
    octets? (dotted a b c d ++ rest) = some ((a, b, c, d), rest) := by
  have hpoint : ∀ more : List Char, Ends .octet ('.' :: more) := fun _ => rfl
  simp [octets?, dotted, List.append_assoc, Numeral.read?_octet _ (hpoint _), Numeral.read?_octet _ hr, after?]

theorem octets?_eq_none {text : List Char} (h : (text.dropWhile (isDigitIn 10)).head? ≠ some '.') :
    octets? text = none := by
  have hpoint : after? '.' (text.dropWhile (isDigitIn 10)) = none := by
    cases hrest : text.dropWhile (isDigitIn 10) with
    | nil => rfl
    | cons c rest =>
      have hc : c ≠ '.' := by simpa [hrest] using h
      simp [after?, hc]
  cases hread : Numeral.octet.read? text with
  | none => simp [octets?, hread]
  | some found =>
    have hfound : found.2 = text.dropWhile (isDigitIn 10) := by
      simp only [Numeral.read?] at hread
      split at hread
      · cases hread
        rfl
      · cases hread
    simp [octets?, hread, hfound, hpoint]

/-! ## Groups -/

/-- What may stand behind groups: two colons, a zone, or the bracket. -/
def Stops (rest : List Char) : Prop := ∃ c more, rest = c :: more ∧ (c = ':' ∨ c = '%' ∨ c = ']')

theorem Stops.ends_group (h : Stops rest) : Ends .group rest := by
  obtain ⟨c, more, rfl, rfl | rfl | rfl⟩ := h <;> rfl

theorem Stops.ends_octet (h : Stops rest) : Ends .octet rest := by
  obtain ⟨c, more, rfl, rfl | rfl | rfl⟩ := h <;> rfl

/-- A group is not followed by a point, whether it has letters in it or not. -/
theorem octets?_group (group : UInt16) (hr : Stops rest) :
    octets? (Nat.toDigits 16 group.toNat ++ rest) = none := by
  apply octets?_eq_none
  rw [List.dropWhile_append]
  split
  · obtain ⟨c, more, rfl, rfl | rfl | rfl⟩ := hr <;>
      rw [List.dropWhile_cons_of_neg (by decide)] <;> simp
  · rename_i hleft
    intro hhead
    cases hdrop : (Nat.toDigits 16 group.toNat).dropWhile (isDigitIn 10) with
    | nil => simp [hdrop] at hleft
    | cons c left =>
      rw [hdrop, List.cons_append, List.head?_cons, Option.some.injEq] at hhead
      have hmem : c ∈ Nat.toDigits 16 group.toNat :=
        (List.dropWhile_sublist _).subset (by rw [hdrop]; exact List.mem_cons_self)
      have hdigit := Text.isDigitIn_of_mem_toDigits (by decide) (by decide) hmem
      rw [hhead] at hdigit
      exact absurd hdigit (by decide)

def colons (groups : List UInt16) : List Char := groups.flatMap fun group => ':' :: Nat.toDigits 16 group.toNat

theorem joined_cons (group : UInt16) (groups : List UInt16) :
    joined (group :: groups) = Nat.toDigits 16 group.toNat ++ colons groups := by
  induction groups generalizing group with
  | nil => simp [joined, colons]
  | cons next groups ih => simp [joined, ih next, colons]

theorem stops_colons (groups : List UInt16) (hr : Stops rest) : Stops (colons groups ++ rest) := by
  cases groups with
  | nil => exact hr
  | cons group groups =>
    exact ⟨':', Nat.toDigits 16 group.toNat ++ (colons groups ++ rest), by simp [colons], .inl rfl⟩

theorem groupsFrom_colons (groups : List UInt16) (hn : groups.length ≤ n) (hr : Stops rest)
    (hstop : groupsFrom (n - groups.length) false rest = ([], false, rest)) :
    groupsFrom n false (colons groups ++ rest) = (groups, false, rest) := by
  induction groups generalizing n with
  | nil => exact hstop
  | cons group groups ih =>
    cases n with
    | zero => simp at hn
    | succ n =>
      have hbehind := stops_colons groups hr
      have hoctets := octets?_group group hbehind
      have hread := Numeral.read?_group group hbehind.ends_group
      have hmore := ih (n := n) (by simpa using hn) (by simpa using hstop)
      have hcolons : colons (group :: groups) ++ rest =
          ':' :: (Nat.toDigits 16 group.toNat ++ (colons groups ++ rest)) := by
        simp [colons]
      rw [hcolons]
      simp [groupsFrom, separated, after?, hoctets, hread, hmore]

theorem groupsFrom_joined (groups : List UInt16) (hn : groups.length ≤ n) (hr : Stops rest)
    (hstop : groupsFrom (n - groups.length) groups.isEmpty rest = ([], false, rest)) :
    groupsFrom n true (joined groups ++ rest) = (groups, false, rest) := by
  cases groups with
  | nil => exact hstop
  | cons group groups =>
    cases n with
    | zero => simp at hn
    | succ n =>
      have hbehind := stops_colons groups hr
      have hoctets := octets?_group group hbehind
      have hread := Numeral.read?_group group hbehind.ends_group
      have hmore := groupsFrom_colons (n := n) groups (by simpa using hn) hr (by simpa using hstop)
      rw [joined_cons, List.append_assoc]
      simp [groupsFrom, separated, hoctets, hread, hmore]

theorem groupsFrom_first (n : Nat) (hr : Stops rest) : groupsFrom n true rest = ([], false, rest) := by
  have hoctets : octets? rest = none := by simp [octets?, Numeral.read?_eq_none hr.ends_octet]
  cases n with
  | zero => rfl
  | succ n => simp [groupsFrom, separated, hoctets, Numeral.read?_eq_none hr.ends_group]

theorem groupsFrom_next (n : Nat) (h : rest.head? ≠ some ':' ∨ ∃ more, rest = ':' :: ':' :: more) :
    groupsFrom n false rest = ([], false, rest) := by
  cases n with
  | zero => rfl
  | succ n =>
    obtain h | ⟨more, rfl⟩ := h
    · have hcolon : after? ':' rest = none := by
        cases rest with
        | nil => rfl
        | cons c rest =>
          have hc : c ≠ ':' := by simpa using h
          simp [after?, hc]
      simp [groupsFrom, separated, hcolon]
    · have hgroup : Numeral.group.read? (':' :: more) = none := Numeral.read?_eq_none rfl
      have hoctet : Numeral.octet.read? (':' :: more) = none := Numeral.read?_eq_none rfl
      simp [groupsFrom, separated, after?, octets?, hgroup, hoctet]

theorem zone_cases (zone : UInt32) (rest : List Char) :
    ∃ c more, zoneText zone ++ ']' :: rest = c :: more ∧ (c = '%' ∨ c = ']') := by
  unfold zoneText
  split
  · exact ⟨']', rest, rfl, .inr rfl⟩
  · exact ⟨'%', _, rfl, .inl rfl⟩

theorem stops_zone (zone : UInt32) (rest : List Char) : Stops (zoneText zone ++ ']' :: rest) := by
  obtain ⟨c, more, heq, hc⟩ := zone_cases zone rest
  exact ⟨c, more, heq, .inr hc⟩

theorem groupsFrom_zone (n : Nat) (first : Bool) (zone : UInt32) (rest : List Char) :
    groupsFrom n first (zoneText zone ++ ']' :: rest) = ([], false, zoneText zone ++ ']' :: rest) := by
  cases first with
  | true => exact groupsFrom_first n (stops_zone zone rest)
  | false =>
    obtain ⟨c, more, heq, rfl | rfl⟩ := zone_cases zone rest <;> rw [heq] <;>
      exact groupsFrom_next n (.inl (by simp))

/-- Zeros between the groups in front and those behind are what two colons stand for. -/
theorem groups?_missing {front back : List UInt16} {size : Nat} (hlength : front.length + size + back.length = 8)
    (hsize : 1 < size) (zone : UInt32) (rest : List Char) :
    groups? (joined front ++ ':' :: ':' :: joined back ++ (zoneText zone ++ ']' :: rest)) =
      some (front ++ List.replicate size 0 ++ back, zoneText zone ++ ']' :: rest) := by
  have hfront : groupsFrom 8 true (joined front ++ ':' :: ':' :: (joined back ++ (zoneText zone ++ ']' :: rest))) =
      (front, false, ':' :: ':' :: (joined back ++ (zoneText zone ++ ']' :: rest))) := by
    apply groupsFrom_joined front (by omega) ⟨':', _, rfl, .inl rfl⟩
    cases front.isEmpty with
    | true => exact groupsFrom_first _ ⟨':', _, rfl, .inl rfl⟩
    | false => exact groupsFrom_next _ (.inr ⟨_, rfl⟩)
  have hback : groupsFrom (7 - front.length) true (joined back ++ (zoneText zone ++ ']' :: rest)) =
      (back, false, zoneText zone ++ ']' :: rest) :=
    groupsFrom_joined back (by omega) (stops_zone zone rest) (groupsFrom_zone ..)
  have hmissing : 8 - front.length - back.length = size := by omega
  have hfew : front.length ≠ 8 := by omega
  rw [List.append_assoc, List.cons_append, List.cons_append]
  simp [groups?, hfront, hback, hmissing, hfew, after?]

/-- The groups in front of a run of zeros, the run, and those behind it. -/
theorem take_zeros_drop (groups : List UInt16) (start : Nat) :
    groups.take start ++ List.replicate (zerosAt groups start) 0 ++ groups.drop (start + zerosAt groups start) =
      groups := by
  have hzeros : (groups.drop start).takeWhile (· == 0) = List.replicate (zerosAt groups start) 0 :=
    List.eq_replicate_iff.mpr ⟨rfl, fun group hgroup => by simpa using List.mem_takeWhile_imp hgroup⟩
  have hleft : (groups.drop start).drop (zerosAt groups start) = (groups.drop start).dropWhile (· == 0) := by
    conv_lhs => rw [← List.takeWhile_append_dropWhile (p := (· == 0)) (l := groups.drop start)]
    exact List.drop_left
  rw [List.append_assoc, ← hzeros, ← List.drop_drop, hleft, List.takeWhile_append_dropWhile, List.take_append_drop]

theorem groups?_compressed {groups : List UInt16} (hlength : groups.length = 8) (zone : UInt32) (rest : List Char) :
    groups? (compressed groups ++ (zoneText zone ++ ']' :: rest)) = some (groups, zoneText zone ++ ']' :: rest) := by
  simp only [compressed]
  generalize longestZeros groups = start
  split
  · rename_i hsize
    have hall := take_zeros_drop groups start
    have hsum := congrArg List.length hall
    rw [List.length_append, List.length_append, List.length_replicate, hlength] at hsum
    rw [groups?_missing hsum hsize, hall]
  · have hread : groupsFrom 8 true (joined groups ++ (zoneText zone ++ ']' :: rest)) =
        (groups, false, zoneText zone ++ ']' :: rest) :=
      groupsFrom_joined groups (by omega) (stops_zone zone rest) (groupsFrom_zone ..)
    simp [groups?, hread, hlength]

theorem groupOf_bytes (group : UInt16) : groupOf (upper group) (lower group) = group := by
  have hlt := group.toNat_lt
  apply UInt16.toNat_inj.mp
  simp only [groupOf, upper, lower, UInt16.toNat_ofNat', UInt8.toNat_ofNat']
  omega

theorem groups?_groupsText {groups : List UInt16} (hlength : groups.length = 8) (zone : UInt32) (rest : List Char) :
    groups? (groupsText groups ++ (zoneText zone ++ ']' :: rest)) = some (groups, zoneText zone ++ ']' :: rest) := by
  unfold groupsText
  split
  · rename_i g h
    have hdotted := octets?_dotted (upper g) (lower g) (upper h) (lower h) (stops_zone zone rest).ends_octet
    have hgroup : ∀ more, Numeral.group.read? ('f' :: 'f' :: 'f' :: 'f' :: ':' :: more) = some (0xffff, ':' :: more) :=
      fun more => Numeral.read?_group 0xffff (show Ends .group (':' :: more) from rfl)
    have hnone : ∀ more, octets? ('f' :: 'f' :: 'f' :: 'f' :: ':' :: more) = none :=
      fun more => octets?_group 0xffff ⟨':', more, rfl, .inl rfl⟩
    have hfront : ∀ more, groupsFrom 8 true (':' :: more) = ([], false, ':' :: more) :=
      fun more => groupsFrom_first 8 ⟨':', more, rfl, .inl rfl⟩
    have hback : groupsFrom 7 true ('f' :: 'f' :: 'f' :: 'f' :: ':' ::
        (dotted (upper g) (lower g) (upper h) (lower h) ++ (zoneText zone ++ ']' :: rest))) =
        ([0xffff, g, h], true, zoneText zone ++ ']' :: rest) := by
      simp [groupsFrom, separated, hnone, hgroup, after?, hdotted, groupOf_bytes]
    simp [groups?, hfront, after?, hback]
  · exact groups?_compressed hlength zone rest

/-- An address is read from the text that it is written as. -/
theorem ofText?_text (address : Address) : ofText? address.text = some address := by
  cases address with
  | v4 a b c d port =>
    have hread := octets?_dotted a b c d (show Ends .octet (':' :: numeral port.toNat) from rfl)
    simp [ofText?, text, v4?, hread, port?_numeral]
  | v6 groups zone port =>
    have hbracket : ∀ more, v4? ('[' :: more) = none := by
      intro more
      have hoctet : Numeral.octet.read? ('[' :: more) = none := Numeral.read?_eq_none rfl
      simp [v4?, octets?, hoctet]
    have hread := groups?_groupsText groups.length_list zone (':' :: numeral port.toNat)
    have hlength := groups.length_list
    simp [ofText?, text, hbracket, v6?, after?, hread, zone?_zoneText, port?_numeral, hlength]

/-! ## Characters -/

def characters : List Char := "0123456789abcdef.:%[]".toList

theorem digits_subset (base n : Nat) (h1 : 1 < base) (hb : base ≤ 16) : Nat.toDigits base n ⊆ characters :=
  have hall : ∀ d : Fin 16, Nat.digitChar d.val ∈ characters := by decide
  fun _ hc => Text.forall_mem_toDigits h1 (· ∈ characters) (fun d hd => hall ⟨d, by omega⟩) hc

theorem dotted_subset (a b c d : UInt8) : dotted a b c d ⊆ characters := by
  have hpoint : '.' ∈ characters := by decide
  simp [dotted, numeral, digits_subset, hpoint]

theorem joined_subset (groups : List UInt16) : joined groups ⊆ characters := by
  have hcolon : ':' ∈ characters := by decide
  fun_induction joined groups with
  | case1 => simp
  | case2 group => exact digits_subset 16 group.toNat (by decide) (by decide)
  | case3 group rest hne ih => simp [digits_subset, hcolon, ih]

theorem groupsText_subset (groups : List UInt16) : groupsText groups ⊆ characters := by
  have hcolon : ':' ∈ characters := by decide
  have hfront : "::ffff:".toList ⊆ characters := by decide
  unfold groupsText
  split
  · exact List.append_subset.mpr ⟨hfront, dotted_subset ..⟩
  · simp only [compressed]
    split
    · simp [joined_subset, hcolon]
    · exact joined_subset groups

theorem text_subset (address : Address) : address.text ⊆ characters := by
  have hother : ':' ∈ characters ∧ '%' ∈ characters ∧ '[' ∈ characters ∧ ']' ∈ characters := by decide
  cases address with
  | v4 a b c d port => simp [text, dotted_subset, numeral, digits_subset, hother]
  | v6 groups zone port =>
    have hzone : zoneText zone ⊆ characters := by
      unfold zoneText
      split <;> simp [numeral, digits_subset, hother]
    simp [text, groupsText_subset, hzone, numeral, digits_subset, hother]

theorem text_ne_nil (address : Address) : address.text ≠ [] := by
  cases address <;> simp [text]

end Address

end Rulebook
