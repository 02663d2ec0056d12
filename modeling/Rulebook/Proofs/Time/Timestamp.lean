/-
  Rulebook.Proofs.Time.Timestamp — a time is read from its own text.

  A text has room for the years of four digits, for offsets of whole minutes within a day,
  and for a second 60 at the end of a minute (`Timestamp.Shown`). What is written for a
  field is as long as the reader takes the field to be, and in its range, so that a time
  with room in a text comes back from it. Every time that is read has room.
  - `read_fieldsText`: what a date, a time of day and an offset are read as.
  - `read_shortText`: the text of a time is read as the time.
  - `shown_of_read`: which times are read at all.
-/

import Rulebook.Proofs.Steps
import Rulebook.Proofs.Text
import Rulebook.Proofs.Time.Calendar
import Rulebook.Proofs.Utf8
import Rulebook.Time.Timestamp

namespace Rulebook

namespace Time.Timestamp

open Rulebook.Text (digitsPadded length_digitsPadded le_length_digitsPadded isDigit_of_mem_digitsPadded
  ofDigitChars_digitsPadded le_nine_of_isDigit ofDigitChars_lt)

variable {t : Timestamp} {text digits rest : List Char} {n m count low high : Nat} {c : Char}

/-! ## Fields -/

theorem takeDigits_append (digits : List Char) (h : ∀ c ∈ digits, c.isDigit = true) (n : Nat) (rest : List Char) :
    takeDigits n digits.length (digits ++ rest) = .ok (Nat.ofDigitChars 10 digits n, rest) := by
  induction digits generalizing n with
  | nil => rfl
  | cons c digits ih =>
    obtain ⟨hc, hdigits⟩ := List.forall_mem_cons.mp h
    rw [List.length_cons, List.cons_append, takeDigits, if_pos hc, ih hdigits, Nat.ofDigitChars_cons]

theorem takeDigits_digitsPadded (hcount : 0 < count) (h : n < 10 ^ count) (rest : List Char) :
    takeDigits 0 count (digitsPadded 10 count n ++ rest) = .ok (n, rest) := by
  have htake := takeDigits_append (digitsPadded 10 count n) (fun _ => isDigit_of_mem_digitsPadded) 0 rest
  rwa [length_digitsPadded hcount h, ofDigitChars_digitsPadded] at htake

theorem takeField_digitsPadded (hcount : 0 < count) (h : n < 10 ^ count) (hlow : low ≤ n) (hhigh : n ≤ high)
    (rest : List Char) : takeField count low high (digitsPadded 10 count n ++ rest) = .ok (n, rest) := by
  rw [takeField, takeDigits_digitsPadded hcount h]
  exact if_pos ⟨hlow, hhigh⟩

theorem takeMark_cons {marks : List Char} (h : marks.contains c = true) (rest : List Char) :
    takeMark marks (c :: rest) = .ok rest :=
  if_pos h

theorem takePair_digitsPadded (h : n < 100) (rest : List Char) :
    ∃ d d', takePair (digitsPadded 10 2 n ++ rest) = .ok (d, d', rest) ∧ 10 * d + d' = n := by
  obtain ⟨c, c', hdigits⟩ := List.length_eq_two.mp (length_digitsPadded (by decide : 0 < 2) h)
  have hdigit : ∀ x ∈ [c, c'], x.isDigit = true := fun x hx => isDigit_of_mem_digitsPadded (hdigits ▸ hx)
  have hvalue := ofDigitChars_digitsPadded 2 n
  rw [hdigits, Nat.ofDigitChars_cons, Nat.ofDigitChars_cons, Nat.ofDigitChars_nil, Nat.mul_zero, Nat.zero_add] at hvalue
  refine ⟨_, _, ?_, hvalue⟩
  rw [hdigits]
  exact if_pos (by simp [hdigit c, hdigit c'])

/-! ## Fractions -/

/-- Digits after a point are read as far as they go, and filled up to nine. -/
theorem takeFraction_point (hcount : 0 < count ∧ count ≤ 9) (h : n < 10 ^ count) (hc : c.isDigit = false)
    (rest : List Char) :
    takeFraction ('.' :: (digitsPadded 10 count n ++ c :: rest)) = .ok (n * 10 ^ (9 - count), c :: rest) := by
  have hlength := length_digitsPadded hcount.1 h
  have hdigit : ∀ x ∈ digitsPadded 10 count n, x.isDigit = true := fun _ => isDigit_of_mem_digitsPadded
  have hvalue := ofDigitChars_digitsPadded count n
  generalize digitsPadded 10 count n = digits at *
  have htake : (digits ++ c :: rest).takeWhile Char.isDigit = digits := by
    rw [List.takeWhile_append_of_pos hdigit, List.takeWhile_cons_of_neg (by simp [hc]), List.append_nil]
  have hdrop : (digits ++ c :: rest).dropWhile Char.isDigit = c :: rest := by
    rw [List.dropWhile_append_of_pos hdigit, List.dropWhile_cons_of_neg (by simp [hc])]
  have hnine : (digits ++ List.replicate 9 '0').take 9 = digits ++ List.replicate (9 - count) '0' := by
    rw [List.take_append, hlength, List.take_of_length_le (by omega), List.take_replicate]
    congr 2
    omega
  have hread : Nat.ofDigitChars 10 ((digits ++ List.replicate 9 '0').take 9) 0 = n * 10 ^ (9 - count) := by
    rw [hnine, Nat.ofDigitChars_append, hvalue, Nat.ofDigitChars_replicate_zero, Nat.mul_comm]
  obtain ⟨d, digits, rfl⟩ := List.exists_cons_of_length_pos (hlength ▸ hcount.1)
  simp only [takeFraction, htake, hdrop]
  exact congrArg (fun nanos => Except.ok (nanos, c :: rest)) hread

theorem takeFraction_fractionText (h : n < second) (hc : c.isDigit = false) (hp : c ≠ '.') (rest : List Char) :
    takeFraction (fractionText n ++ c :: rest) = .ok (n, c :: rest) := by
  unfold fractionText
  unfold second at h
  split_ifs with hzero hmilli hmicro
  · rw [List.nil_append, takeFraction, hzero]
    rintro _ ⟨⟩
    exact hp rfl
  · rw [List.cons_append, takeFraction_point (by decide) (by omega) hc]
    exact congrArg (fun n => Except.ok (n, c :: rest)) (Nat.div_mul_cancel (Nat.dvd_of_mod_eq_zero hmilli))
  · rw [List.cons_append, takeFraction_point (by decide) (by omega) hc]
    exact congrArg (fun n => Except.ok (n, c :: rest)) (Nat.div_mul_cancel (Nat.dvd_of_mod_eq_zero hmicro))
  · rw [List.cons_append, takeFraction_point (by decide) h hc, Nat.sub_self, Nat.pow_zero, Nat.mul_one]

/-! ## Offsets -/

/-- A whole number of minutes, less than a day of them. -/
def IsOffset (offset : Int) : Prop := ∃ minutes : Int, offset = 60 * minutes ∧ -1440 < minutes ∧ minutes < 1440

theorem takeOffset_signed {sign : Char} {hours minutes : Nat} (hsign : sign = '+' ∨ sign = '-') (hhours : hours < 24)
    (hminutes : minutes < 60) :
    takeOffset (sign :: (digitsPadded 10 2 hours ++ ':' :: digitsPadded 10 2 minutes)) =
      .ok (if sign = '+' then hours * 3600 + minutes * 60 else -(hours * 3600 + minutes * 60), []) := by
  obtain ⟨d, d', hfirst, rfl⟩ := takePair_digitsPadded (n := hours) (by omega) (':' :: digitsPadded 10 2 minutes)
  obtain ⟨m, m', hsecond, rfl⟩ := takePair_digitsPadded (n := minutes) (by omega) []
  have hzulu : ¬(sign = 'Z' ∨ sign = 'z') := by rcases hsign with rfl | rfl <;> decide
  have hsigned : ¬¬(sign = '+' ∨ sign = '-' ∨ sign = '\u2212') := by rcases hsign with rfl | rfl <;> decide
  have hm : ¬6 ≤ m := by omega
  have hd : ¬24 ≤ 10 * d + d' := by omega
  have hmark (rest : List Char) : takeMark [':'] (':' :: rest) = .ok rest := takeMark_cons rfl rest
  rw [List.append_nil] at hsecond
  simp only [takeOffset, if_neg hzulu, if_neg hsigned, hfirst, hmark, hsecond, bind, Except.bind, if_neg hm, if_neg hd]
  simp only [Nat.cast_add, Nat.cast_mul]
  rfl

theorem takeOffset_offsetText {offset : Int} (h : IsOffset offset) :
    takeOffset (offsetText offset) = .ok (offset, []) := by
  obtain ⟨minutes, rfl, hlow, hhigh⟩ := h
  have hround : ((60 * minutes).natAbs + 30) / 60 = minutes.natAbs := by omega
  rcases lt_or_ge minutes 0 with hwest | heast
  · rw [offsetText, hround, if_pos (by omega), takeOffset_signed (Or.inr rfl) (by omega) (by omega), if_neg (by decide)]
    congr 2
    omega
  · rw [offsetText, hround, if_neg (by omega), takeOffset_signed (Or.inl rfl) (by omega) (by omega), if_pos rfl]
    congr 2
    omega

/-! ## Texts -/

def fieldsText (date : Date) (hour minute sec : Nat) (rest : List Char) : List Char :=
  digitsPadded 10 4 date.year.toNat ++ '-' :: (digitsPadded 10 2 date.month ++ '-' :: (digitsPadded 10 2 date.day ++
    'T' :: (digitsPadded 10 2 hour ++ ':' :: (digitsPadded 10 2 minute ++ ':' :: (digitsPadded 10 2 sec ++ rest)))))

theorem length_fieldsText (date : Date) (hour minute sec : Nat) (rest : List Char) :
    19 ≤ (Text.Utf8.encode (fieldsText date hour minute sec rest)).length := by
  refine Nat.le_trans ?_ (Text.Utf8.length_le_length_encode _)
  have hyear := le_length_digitsPadded 4 date.year.toNat
  have hmonth := le_length_digitsPadded 2 date.month
  have hday := le_length_digitsPadded 2 date.day
  have hhour := le_length_digitsPadded 2 hour
  have hminute := le_length_digitsPadded 2 minute
  have hsec := le_length_digitsPadded 2 sec
  simp only [fieldsText, List.length_append, List.length_cons]
  omega

/-- A date of the calendar and a time of day are read field by field. -/
theorem read_fieldsText {date : Date} {hour minute sec nanos : Nat} {offset : Int} {behind : List Char}
    (hyear : 0 ≤ date.year ∧ date.year ≤ 9999) (hdate : date.isValid = true) (hhour : hour ≤ 23) (hminute : minute ≤ 59)
    (hsec : sec ≤ 60) (hfraction : takeFraction rest = .ok (nanos, behind))
    (hoffset : takeOffset behind = .ok (offset, [])) :
    read (fieldsText date hour minute sec rest) =
      .ok ⟨date.dayNumber * daySeconds + (hour * 3600 + minute * 60 + (sec - if sec = 60 then 1 else 0 : Nat)) - offset,
        nanos + (if sec = 60 then 1 else 0) * second, offset⟩ := by
  obtain ⟨year, month, day⟩ := date
  obtain ⟨hlow, hhigh⟩ := hyear
  obtain ⟨year, rfl⟩ := Int.eq_ofNat_of_zero_le hlow
  replace hhigh : year < 10 ^ 4 := by
    have hyear : (year : Int) ≤ 9999 := hhigh
    omega
  obtain ⟨⟨hfirst, htwelve⟩, hday, hlast⟩ := Date.isValid_iff.mp hdate
  have hmost : day ≤ 31 := (le_daysInMonth_iff.mp hlast).1
  rw [read, if_neg (Nat.not_lt.mpr (length_fieldsText ..)), fieldsText, Int.toNat_natCast]
  refine bind_eq_ok_iff.mpr ⟨_, takeDigits_digitsPadded (by decide) hhigh _, ?_⟩
  refine bind_eq_ok_iff.mpr ⟨_, takeMark_cons rfl _, ?_⟩
  refine bind_eq_ok_iff.mpr ⟨_, takeField_digitsPadded (by decide) (by omega) hfirst htwelve _, ?_⟩
  refine bind_eq_ok_iff.mpr ⟨_, takeMark_cons rfl _, ?_⟩
  refine bind_eq_ok_iff.mpr ⟨_, takeField_digitsPadded (by decide) (by omega) hday hmost _, ?_⟩
  refine bind_eq_ok_iff.mpr ⟨_, takeMark_cons rfl _, ?_⟩
  refine bind_eq_ok_iff.mpr ⟨_, takeField_digitsPadded (by decide) (by omega) (Nat.zero_le _) hhour _, ?_⟩
  refine bind_eq_ok_iff.mpr ⟨_, takeMark_cons rfl _, ?_⟩
  refine bind_eq_ok_iff.mpr ⟨_, takeField_digitsPadded (by decide) (by omega) (Nat.zero_le _) hminute _, ?_⟩
  refine bind_eq_ok_iff.mpr ⟨_, takeMark_cons rfl _, ?_⟩
  refine bind_eq_ok_iff.mpr ⟨_, takeField_digitsPadded (by decide) (by omega) (Nat.zero_le _) hsec _, ?_⟩
  refine bind_eq_ok_iff.mpr ⟨_, hfraction, bind_eq_ok_iff.mpr ⟨_, hoffset, ?_⟩⟩
  simp only [ne_eq, not_true_eq_false, if_false, hdate, Bool.not_true, Bool.false_eq_true]
  rfl

/-- The times that a text has room for: in years of four digits, at whole minutes from universal time. -/
structure Shown (t : Timestamp) : Prop where
  year : 0 ≤ t.date.year ∧ t.date.year ≤ 9999
  offset : IsOffset t.offset
  nanos : t.nanos < second ∨ t.nanos < 2 * second ∧ t.secondOfMinute = 59

theorem shortText_eq (h : Shown t) :
    let leap := if second ≤ t.nanos then 1 else 0
    t.shortText = fieldsText t.date t.hour t.minute (t.secondOfMinute + leap)
      (fractionText (t.nanos - leap * second) ++ if t.offset = 0 then ['Z'] else offsetText t.offset) := by
  simp only [shortText, localText, yearText, if_pos h.year, fieldsText, List.append_assoc, List.cons_append]

/-! ## A time and its text -/

theorem secondOfDay_lt (t : Timestamp) : t.secondOfDay < 86400 := by
  unfold secondOfDay daySeconds
  omega

/-- The moment of a time is that of its date and time of day. -/
theorem localSeconds_eq (t : Timestamp) :
    t.localSeconds = t.date.dayNumber * daySeconds + (t.hour * 3600 + t.minute * 60 + t.secondOfMinute : Nat) := by
  have hsplit : t.hour * 3600 + t.minute * 60 + t.secondOfMinute = t.secondOfDay := by
    unfold hour minute secondOfMinute
    omega
  rw [date, Date.dayNumber_ofDayNumber, hsplit, secondOfDay, daySeconds]
  omega

theorem exists_cons_of_offset (offset : Int) :
    ∃ c rest, (if offset = 0 then ['Z'] else offsetText offset) = c :: rest ∧ c.isDigit = false ∧ c ≠ '.' := by
  unfold offsetText
  split_ifs
  · exact ⟨_, _, rfl, by decide, by decide⟩
  · exact ⟨_, _, rfl, by decide, by decide⟩
  · exact ⟨_, _, rfl, by decide, by decide⟩

theorem takeOffset_shortText (h : IsOffset t.offset) :
    takeOffset (if t.offset = 0 then ['Z'] else offsetText t.offset) = .ok (t.offset, []) := by
  split_ifs with hzero
  · rw [hzero]
    rfl
  · exact takeOffset_offsetText h

/-- Nanoseconds of a second or more are shown as the second 60. -/
theorem exists_leap (h : t.nanos < second ∨ t.nanos < 2 * second ∧ t.secondOfMinute = 59) :
    ∃ leap, (if second ≤ t.nanos then 1 else 0) = leap ∧ leap * second ≤ t.nanos ∧ t.nanos - leap * second < second ∧
      t.secondOfMinute + leap ≤ 60 ∧ (if t.secondOfMinute + leap = 60 then 1 else 0) = leap := by
  have hlt : t.secondOfMinute < 60 := Nat.mod_lt _ (by decide)
  by_cases hleap : second ≤ t.nanos
  · have hlast : t.secondOfMinute = 59 := by omega
    exact ⟨1, if_pos hleap, by omega, by omega, by omega, if_pos (by omega)⟩
  · exact ⟨0, if_neg hleap, by omega, by omega, by omega, if_neg (by omega)⟩

/-- A time is read from its own text. -/
theorem read_shortText (h : Shown t) : read t.shortText = .ok t := by
  obtain ⟨leap, hleap, hle, hlt, hsixty, hsec⟩ := exists_leap h.nanos
  obtain ⟨c, rest, hcons, hdigit, hpoint⟩ := exists_cons_of_offset t.offset
  have hfraction := takeFraction_fractionText hlt hdigit hpoint rest
  rw [← hcons] at hfraction
  have hhour : t.hour ≤ 23 := by
    have hday := secondOfDay_lt t
    unfold hour
    omega
  have hminute : t.minute ≤ 59 := Nat.le_of_lt_succ (Nat.mod_lt _ (by decide))
  have hread := read_fieldsText h.year (Date.isValid_ofDayNumber _) hhour hminute hsixty hfraction
    (takeOffset_shortText h.offset)
  rw [hsec, Nat.add_sub_cancel, Nat.sub_add_cancel hle] at hread
  have hseconds : t.date.dayNumber * daySeconds + (t.hour * 3600 + t.minute * 60 + t.secondOfMinute) - t.offset =
      t.seconds := by
    have hlocal := localSeconds_eq t
    rw [localSeconds] at hlocal
    push_cast at hlocal
    omega
  rw [hseconds] at hread
  rw [shortText_eq h, hleap]
  exact hread

/-! ## What is read -/

/-- Digits that are taken stand at the front of the text. -/
theorem exists_of_takeDigits (h : takeDigits n count text = .ok (m, rest)) :
    ∃ digits, text = digits ++ rest ∧ digits.length = count ∧ (∀ c ∈ digits, c.isDigit = true) ∧
      m = Nat.ofDigitChars 10 digits n := by
  induction count generalizing n text with
  | zero =>
    obtain ⟨rfl, rfl⟩ := Prod.mk.inj (Except.ok.inj h)
    exact ⟨[], rfl, rfl, by simp, rfl⟩
  | succ count ih =>
    cases text with
    | nil => cases h
    | cons c text =>
      rw [takeDigits] at h
      split_ifs at h with hc
      obtain ⟨digits, rfl, hlength, hdigits, rfl⟩ := ih h
      exact ⟨c :: digits, rfl, by rw [List.length_cons, hlength], List.forall_mem_cons.mpr ⟨hc, hdigits⟩, rfl⟩

theorem lt_of_takeDigits (h : takeDigits 0 count text = .ok (m, rest)) : m < 10 ^ count := by
  obtain ⟨digits, -, rfl, hdigits, rfl⟩ := exists_of_takeDigits h
  have hlt := ofDigitChars_lt hdigits 0
  rwa [Nat.zero_add, Nat.one_mul] at hlt

theorem bounds_of_takeField (h : takeField count low high text = .ok (m, rest)) : low ≤ m ∧ m ≤ high := by
  obtain ⟨⟨n, behind⟩, -, hif⟩ := bind_eq_ok_iff.mp h
  simp only at hif
  split_ifs at hif with hbounds
  obtain ⟨rfl, -⟩ := Prod.mk.inj (Except.ok.inj hif)
  exact hbounds

theorem bounds_of_takePair {d d' : Nat} (h : takePair text = .ok (d, d', rest)) : d ≤ 9 ∧ d' ≤ 9 := by
  match text, h with
  | c :: c' :: text, h =>
    rw [takePair] at h
    split_ifs at h with hdigits
    obtain ⟨rfl, hinj⟩ := Prod.mk.inj (Except.ok.inj h)
    obtain ⟨rfl, -⟩ := Prod.mk.inj hinj
    obtain ⟨hc, hc'⟩ := Bool.and_eq_true_iff.mp hdigits
    exact ⟨le_nine_of_isDigit hc, le_nine_of_isDigit hc'⟩

theorem nine_lt_second (h : ∀ c ∈ digits, c.isDigit = true) :
    Nat.ofDigitChars 10 ((digits ++ List.replicate 9 '0').take 9) 0 < second := by
  have hnine : ∀ c ∈ (digits ++ List.replicate 9 '0').take 9, c.isDigit = true := by
    intro c hc
    rcases List.mem_append.mp (List.mem_of_mem_take hc) with hdigit | hzero
    · exact h c hdigit
    · rw [List.eq_of_mem_replicate hzero]
      decide
  have hlength : ((digits ++ List.replicate 9 '0').take 9).length = 9 := by
    rw [List.length_take, List.length_append, List.length_replicate]
    omega
  have hlt := ofDigitChars_lt hnine 0
  rwa [hlength] at hlt

theorem lt_of_takeFraction (h : takeFraction text = .ok (n, rest)) : n < second := by
  unfold takeFraction at h
  split at h
  · dsimp only at h
    split at h
    · cases h
    · cases h
    · obtain ⟨rfl, -⟩ := Prod.mk.inj (Except.ok.inj h)
      exact nine_lt_second fun c hc => List.mem_takeWhile_imp hc
  · obtain ⟨rfl, -⟩ := Prod.mk.inj (Except.ok.inj h)
    decide

theorem isOffset_of_takeOffset {offset : Int} (h : takeOffset text = .ok (offset, rest)) : IsOffset offset := by
  cases text with
  | nil => cases h
  | cons sign text =>
    simp only [takeOffset] at h
    split at h
    · obtain ⟨rfl, -⟩ := Prod.mk.inj (Except.ok.inj h)
      exact ⟨0, rfl, by decide, by decide⟩
    split at h
    · cases h
    simp only [bind_eq_ok_iff] at h
    obtain ⟨⟨d, d', _⟩, hhours, _, -, ⟨m, m', _⟩, hminutes, h⟩ := h
    dsimp only at h
    split at h
    · cases h
    split at h
    · cases h
    obtain ⟨rfl, -⟩ := Prod.mk.inj (Except.ok.inj h)
    obtain ⟨-, hm'⟩ := bounds_of_takePair hminutes
    by_cases hsign : sign = '+'
    · exact ⟨(60 * (10 * d + d') + (10 * m + m') : Nat), by rw [if_pos hsign]; omega, by omega, by omega⟩
    · exact ⟨-(60 * (10 * d + d') + (10 * m + m') : Nat), by rw [if_neg hsign]; omega, by omega, by omega⟩

/-- The date and the time of day that a moment is made of are those that a clock at the offset shows. -/
theorem date_of_dayNumber {date : Date} {clock : Nat} (hdate : date.isValid = true) (hclock : clock < 86400)
    (nanos : Nat) (offset : Int) :
    let t : Timestamp := ⟨date.dayNumber * daySeconds + clock - offset, nanos, offset⟩
    t.date = date ∧ t.secondOfDay = clock := by
  intro t
  have hlocal : t.localSeconds = date.dayNumber * 86400 + clock := Int.sub_add_cancel _ _
  constructor
  · have hday : (date.dayNumber * 86400 + (clock : Int)) / 86400 = date.dayNumber := by omega
    rw [Timestamp.date, hlocal, daySeconds, hday, Date.ofDayNumber_dayNumber hdate]
  · rw [secondOfDay, hlocal, daySeconds]
    omega

/-- Every time that a text is read as is one that a text shows. -/
theorem shown_of_read (h : read text = .ok t) : Shown t := by
  unfold read at h
  split at h
  · cases h
  simp only [bind_eq_ok_iff] at h
  obtain ⟨⟨year, _⟩, hyear, _, -, ⟨month, _⟩, -, _, -, ⟨day, _⟩, -, _, -, ⟨hour, _⟩, hhour, _, -,
    ⟨minute, _⟩, hminute, _, -, ⟨sec, _⟩, hsec, ⟨nanos, _⟩, hfraction, ⟨offset, _⟩, hoffset, h⟩ := h
  dsimp only at h
  split at h
  · cases h
  split at h
  · cases h
  rename_i hvalid
  obtain rfl := Except.ok.inj h
  replace hvalid : Date.isValid ⟨year, month, day⟩ = true := by simpa using hvalid
  replace hyear := lt_of_takeDigits hyear
  replace hhour := (bounds_of_takeField hhour).2
  replace hminute := (bounds_of_takeField hminute).2
  replace hsec := (bounds_of_takeField hsec).2
  replace hfraction := lt_of_takeFraction hfraction
  have hclock : hour * 3600 + minute * 60 + (sec - if sec = 60 then 1 else 0) < 86400 := by split_ifs <;> omega
  have hshown := date_of_dayNumber hvalid hclock (nanos + (if sec = 60 then 1 else 0) * second) offset
  push_cast at hshown
  obtain ⟨hdate, hday⟩ := hshown
  refine ⟨?_, isOffset_of_takeOffset hoffset, ?_⟩
  · rw [hdate]
    exact ⟨Int.natCast_nonneg _, Int.ofNat_le.mpr (Nat.le_of_lt_succ hyear)⟩
  · rw [secondOfMinute, hday]
    by_cases hsixty : sec = 60
    · simp only [if_pos hsixty]
      omega
    · simp only [if_neg hsixty]
      omega

theorem read_written (h : read text = .ok t) : read t.shortText = .ok t := read_shortText (shown_of_read h)

end Time.Timestamp

end Rulebook
