/-
  Rulebook.Proofs.Json.Float — a float that is read back alone is read back anywhere.

  A number ends where its text ends, or before something that no number goes on with. So
  what is scanned of a number that stands alone is scanned of it before any such rest,
  part by part (`scanExponent_append`, `scanFraction_append`, `scanWhole_append`). The
  text of a float starts with a digit or a minus, hence it is cut into a number token if
  it is read as a float at all.
  - `readsBack_float`: a finite float whose text alone is read as that float is read
    again wherever it has been written.
-/

import Rulebook.Proofs.Json.Content
import Rulebook.Proofs.Json.Token

namespace Rulebook.Json

/-! ## The end of a number -/

theorem spanDigits_append_rest {rest : List Symbol} (hr : EndsNumber rest) (text : List Symbol) :
    spanDigits (text ++ rest) = ((spanDigits text).1, (spanDigits text).2 ++ rest) := by
  fun_induction spanDigits text with
  | case1 c more hc ds after he ih =>
    rw [List.cons_append, spanDigits, if_pos hc, ih, he]
  | case2 c more hc => rw [List.cons_append, spanDigits, if_neg hc]
  | case3 text hne =>
    cases text with
    | nil =>
      have hnone : ∀ c ∈ ([] : List Char), c.isDigit = true := by simp
      exact spanDigits_append hnone hr
    | cons s more =>
      cases s with
      | none => rfl
      | some c => exact absurd rfl (hne c more)

def exponentSign : List Symbol → Bool × List Symbol
  | some '-' :: after => (true, after)
  | some '+' :: after => (false, after)
  | after => (false, after)

theorem exponentSign_append (s : Symbol) (text rest : List Symbol) :
    exponentSign (s :: text ++ rest) = ((exponentSign (s :: text)).1, (exponentSign (s :: text)).2 ++ rest) := by
  by_cases hminus : s = some '-'
  · subst hminus
    rfl
  by_cases hplus : s = some '+'
  · subst hplus
    rfl
  · unfold exponentSign
    simp [hminus, hplus]

theorem scanExponent_mark {c : Char} (hc : c = 'e' ∨ c = 'E') (literal : Literal) (text : List Symbol) :
    scanExponent literal (some c :: text) =
      match spanDigits (exponentSign text).2 with
      | ([], after) => (.error (.noDigit after), [])
      | (ds, after) => (.ok { literal with exponent := some ((exponentSign text).1, ds) }, after) := by
  simp only [scanExponent, if_pos hc]
  rfl

theorem scanExponent_other {s : Symbol} (hs : s ≠ some 'e' ∧ s ≠ some 'E') (literal : Literal) (text : List Symbol) :
    scanExponent literal (s :: text) = (.ok literal, s :: text) := by
  cases s with
  | none => rfl
  | some c =>
    have hc : ¬ (c = 'e' ∨ c = 'E') := by
      rintro (rfl | rfl)
      · exact hs.1 rfl
      · exact hs.2 rfl
    simp only [scanExponent, if_neg hc]

theorem scanExponent_append {rest : List Symbol} (hr : EndsNumber rest) {literal found : Literal}
    {text after : List Symbol} (h : scanExponent literal text = (.ok found, after)) :
    scanExponent literal (text ++ rest) = (.ok found, after ++ rest) := by
  cases text with
  | nil =>
    obtain ⟨rfl, rfl⟩ : literal = found ∧ [] = after := by simpa [scanExponent] using h
    exact scanExponent_ends literal hr
  | cons s text =>
    by_cases hs : s = some 'e' ∨ s = some 'E'
    · obtain ⟨c, rfl, hc⟩ : ∃ c, s = some c ∧ (c = 'e' ∨ c = 'E') := by
        rcases hs with rfl | rfl
        · exact ⟨'e', rfl, Or.inl rfl⟩
        · exact ⟨'E', rfl, Or.inr rfl⟩
      cases text with
      | nil =>
        rw [scanExponent_mark hc] at h
        cases h
      | cons t text =>
        rw [List.cons_append, scanExponent_mark hc, exponentSign_append, spanDigits_append_rest hr]
        rw [scanExponent_mark hc] at h
        cases hd : spanDigits (exponentSign (t :: text)).2 with
        | mk ds left =>
          rw [hd] at h
          cases ds with
          | nil => cases h
          | cons d ds =>
            obtain ⟨hfound, rfl⟩ := Prod.mk.inj h
            cases hfound
            rfl
    · rw [not_or] at hs
      rw [scanExponent_other hs] at h
      obtain ⟨hfound, rfl⟩ := Prod.mk.inj h
      rw [List.cons_append, scanExponent_other hs, hfound]

theorem scanFraction_append {rest : List Symbol} (hr : EndsNumber rest) {literal found : Literal}
    {text after : List Symbol} (h : scanFraction literal text = (.ok found, after)) :
    scanFraction literal (text ++ rest) = (.ok found, after ++ rest) := by
  cases text with
  | nil =>
    obtain ⟨rfl, rfl⟩ : literal = found ∧ [] = after := by simpa [scanFraction, scanExponent] using h
    exact scanFraction_ends literal hr
  | cons s text =>
    by_cases hs : s = some '.'
    · subst hs
      simp only [List.cons_append, scanFraction] at h ⊢
      rw [spanDigits_append_rest hr]
      cases hd : spanDigits text with
      | mk ds left =>
        rw [hd] at h
        cases ds with
        | nil => cases h
        | cons d ds => exact scanExponent_append hr h
    · have hother : ∀ more, scanFraction literal (s :: more) = scanExponent literal (s :: more) := by
        intro more
        unfold scanFraction
        split
        · rename_i heq
          exact absurd (List.cons.inj heq).1 hs
        · rfl
      rw [hother] at h
      rw [List.cons_append, hother, ← List.cons_append]
      exact scanExponent_append hr h

theorem scanWhole_append {rest : List Symbol} (hr : EndsNumber rest) {negative : Bool} {found : Literal}
    {text after : List Symbol} (h : scanWhole negative text = (.ok found, after)) :
    scanWhole negative (text ++ rest) = (.ok found, after ++ rest) := by
  unfold scanWhole at h ⊢
  rw [spanDigits_append_rest hr]
  cases hd : spanDigits text with
  | mk ds left =>
    rw [hd] at h
    match ds, h with
    | [], h => cases h
    | 0 :: _ :: _, h => cases h
    | [0], h => exact scanFraction_append hr h
    | (d + 1) :: ds, h => exact scanFraction_append hr h

/-- What is scanned of a number that stands alone is scanned of it before a rest that it does not go on with. -/
theorem scanNumber_append {rest : List Symbol} (hr : EndsNumber rest) {negative : Bool} {s : Scalar}
    {text after : List Symbol} (h : scanNumber negative text = (.scalar (.ok s), after)) :
    scanNumber negative (text ++ rest) = (.scalar (.ok s), after ++ rest) := by
  unfold scanNumber at h ⊢
  cases hw : scanWhole negative text with
  | mk found left =>
    rw [hw] at h
    cases found with
    | error flaw => cases h
    | ok literal =>
      rw [scanWhole_append hr hw]
      simp only at h ⊢
      cases hn : literal.number with
      | error fault => simp [hn] at h
      | ok n =>
        simp only [hn, Prod.mk.injEq] at h ⊢
        exact ⟨h.1, by rw [h.2]⟩

/-- Blanks at the end of a text stand between its last token and those of what follows. -/
theorem tokens_append_of_blank {text : List Symbol} (h : tokens text = []) (rest : List Symbol) :
    tokens (text ++ rest) = tokens rest := by
  induction text with
  | nil => rfl
  | cons s text ih =>
    cases s with
    | none => simp [tokens] at h
    | some c =>
      by_cases hs : isSpace c = true
      · rw [tokens_space hs] at h
        rw [List.cons_append, tokens_space hs, ih h]
      · rw [tokens_cons (by simpa using hs)] at h
        cases h

end Rulebook.Json

/-! ## The text of a float -/

namespace Rulebook.Decimal

theorem withPoint_eq_cons (fraction : Bool) {n : List Char} (hne : n ≠ []) (hn : ∀ c ∈ n, c.isDigit = true)
    (whole : Int) : ∃ c rest, withPoint fraction n whole = c :: rest ∧ c.isDigit = true := by
  unfold withPoint
  by_cases hw : whole ≤ 0
  · rw [if_pos hw]
    exact ⟨'0', _, rfl, rfl⟩
  rw [if_neg hw]
  obtain ⟨k, hk⟩ : ∃ k, whole.toNat = k + 1 := ⟨whole.toNat - 1, by omega⟩
  cases n with
  | nil => exact absurd rfl hne
  | cons c n =>
    have hc : c.isDigit = true := hn c (by simp)
    simp only [hk, List.take_succ_cons, List.drop_succ_cons, List.cons_append]
    split
    · split
      · exact ⟨c, _, rfl, hc⟩
      · exact ⟨c, _, rfl, hc⟩
    · exact ⟨c, _, rfl, hc⟩

theorem withExponent_eq_cons (plus : Bool) {n : List Char} (hne : n ≠ []) (hn : ∀ c ∈ n, c.isDigit = true)
    (exponent : Int) : ∃ c rest, withExponent plus n exponent = c :: rest ∧ c.isDigit = true := by
  cases n with
  | nil => exact absurd rfl hne
  | cons c n =>
    have hc : c.isDigit = true := hn c (by simp)
    cases n with
    | nil => exact ⟨c, _, rfl, hc⟩
    | cons d n => exact ⟨c, _, rfl, hc⟩

theorem Layout.write_eq_cons (layout : Layout) (d : Decimal) :
    ∃ c rest, layout.write d = c :: rest ∧ c.isDigit = true := by
  have hne : Nat.toDigits 10 d.digits ≠ [] := Text.numeral_ne_nil d.digits
  have hdigits : ∀ c ∈ Nat.toDigits 10 d.digits, c.isDigit = true := fun c hc => Text.isDigit_of_mem_numeral hc
  have hform : ∀ (positional : Bool) (whole exponent : Int), ∃ c rest,
      (if positional then withPoint layout.fraction (Nat.toDigits 10 d.digits) whole
        else withExponent layout.plus (Nat.toDigits 10 d.digits) exponent) = c :: rest ∧ c.isDigit = true := by
    intro positional whole exponent
    cases positional with
    | true => exact withPoint_eq_cons _ hne hdigits _
    | false => exact withExponent_eq_cons _ hne hdigits _
  exact hform _ _ _

end Rulebook.Decimal

namespace Rulebook.Json

theorem isNaN_or_isInf_of_isFinite {x : Float} (h : x.isFinite = true) : (x.isNaN || x.isInf) = false := by
  unfold Float.isFinite Float.Model.isFinite at h
  unfold Float.isNaN Float.Model.isNaN Float.isInf Float.Model.isInf
  cases hx : x.toModel.unpack with
  | infinity sign => simp [hx, Float.Model.UnpackedFloat.isFinite] at h
  | notANumber => simp [hx, Float.Model.UnpackedFloat.isFinite] at h
  | zero sign => rfl
  | finite sign mantissa exponent hpos => rfl

/-- A finite float is written as a number: digits, with a minus in front of them or without. -/
theorem writtenNumber_float {x : Float} (h : x.isFinite = true) :
    ∃ (negative : Bool) (c : Char) (rest : List Char), c.isDigit = true ∧
      writtenNumber (.float x) = if negative then '-' :: c :: rest else c :: rest := by
  have hfinite := isNaN_or_isInf_of_isFinite h
  obtain ⟨hnan, hinf⟩ := Bool.or_eq_false_iff.mp hfinite
  obtain ⟨c, rest, hwrite, hc⟩ :=
    Decimal.Layout.json.write_eq_cons ((Decimal.Dyadic.ofBits x.toBits).shortest Decimal.Layout.json.tie)
  refine ⟨Decimal.isNegative x, c, rest, hc, ?_⟩
  simp only [writtenNumber, Decimal.Layout.text, hnan, hinf, hwrite, Bool.or_self, Bool.false_eq_true, if_false]

theorem scanNumber_scalar (negative : Bool) (text : List Symbol) :
    ∃ content, (scanNumber negative text).1 = .scalar content := by
  unfold scanNumber
  split
  · exact ⟨_, rfl⟩
  · split
    · exact ⟨_, rfl⟩
    · exact ⟨_, rfl⟩

theorem tokens_number (negative : Bool) {c : Char} (hc : c.isDigit = true) (rest : List Symbol) :
    tokens (if negative then some '-' :: some c :: rest else some c :: rest) =
      (scanNumber negative (some c :: rest)).1 :: tokens (scanNumber negative (some c :: rest)).2 := by
  cases negative with
  | false =>
    obtain ⟨hspace, hnext⟩ := next_digit hc rest
    simp only [Bool.false_eq_true, if_false]
    rw [tokens_cons hspace, hnext]
  | true =>
    have hnext : Token.next '-' (some c :: rest) = scanNumber true (some c :: rest) := by
      simp [Token.next, show Token.mark? '-' = none by decide]
    simp only [if_true]
    rw [tokens_cons (by decide), hnext]

theorem eq_scalar_of_ofText {text : List Char} {content : Except Flaw Scalar} {more : List Token}
    (htokens : tokens (text.map some) = .scalar content :: more) {value : Value}
    (h : Value.ofText (String.ofList text) = .ok value) :
    ∃ s, content = .ok s ∧ more = [] ∧ Value.ofTree maxDepth (.scalar s) = .ok value := by
  have hdocument : Document.ofText (String.ofList text) = Document.read (.scalar content :: more) .value [] := by
    rw [Document.ofText, Document.ofSymbols, String.toList_ofList, htokens]
  rw [Value.ofText, hdocument] at h
  cases content with
  | error flaw =>
    have hread : ∃ ending, Document.read (.scalar (.error flaw) :: more) .value [] = ⟨.flawed flaw, ending⟩ := by
      cases more with
      | nil => exact ⟨_, rfl⟩
      | cons token more => exact ⟨_, rfl⟩
    obtain ⟨ending, hread⟩ := hread
    rw [hread] at h
    cases h
  | ok s =>
    cases more with
    | nil =>
      refine ⟨s, rfl, rfl, ?_⟩
      cases hs : Value.ofTree maxDepth (.scalar s) with
      | error fault => simp [Document.read, Next.ofToken?, Document.decode, hs, bind, Except.bind] at h
      | ok value' =>
        simpa [Document.read, Next.ofToken?, Document.decode, hs, bind, Except.bind, pure, Except.pure] using h
    | cons token more =>
      cases hs : Value.ofTree maxDepth (.scalar s) with
      | error fault => simp [Document.read, Next.ofToken?, Document.decode, hs, bind, Except.bind] at h
      | ok value' => simp [Document.read, Next.ofToken?, Document.decode, hs, bind, Except.bind] at h

theorem eq_float_of_ofTree {depth : Nat} {s : Scalar} {x : Float}
    (h : Value.ofTree depth (.scalar s) = .ok (.float x)) : s = .number (.float x) := by
  cases s with
  | null => cases h
  | boolean b => cases h
  | number n =>
    rw [Value.ofTree_scalar] at h
    have hsettled : n.settled = .float x := Value.number.inj (Except.ok.inj h)
    cases n with
    | int n => cases hsettled
    | uint n =>
      by_cases hle : n.toNat ≤ 9223372036854775807
      · simp [Number.settled, Number.int64?, hle] at hsettled
      · simp [Number.settled, Number.int64?, Number.uint64?, hle] at hsettled
    | float y => exact congrArg Scalar.number hsettled

/-- A finite float whose text alone is read as that float is read again wherever it has been written. -/
theorem readsBack_float {x : Float} (hx : x.isFinite = true)
    (h : Value.ofText (Value.float x).toJson.toText = .ok (.float x)) : ReadsBack (.float x) := by
  obtain ⟨negative, c, text, hc, hwritten⟩ := writtenNumber_float hx
  have htokens : ∀ rest : List Symbol, tokens ((writtenNumber (.float x)).map some ++ rest) =
      (scanNumber negative (some c :: text.map some ++ rest)).1 ::
        tokens (scanNumber negative (some c :: text.map some ++ rest)).2 := by
    intro rest
    have hsymbols : (writtenNumber (.float x)).map some ++ rest =
        if negative then some '-' :: some c :: (text.map some ++ rest) else some c :: (text.map some ++ rest) := by
      rw [hwritten]
      cases negative with
      | false => rfl
      | true => rfl
    rw [hsymbols, tokens_number negative hc]
    rfl
  have halone := htokens []
  rw [List.append_nil, List.append_nil] at halone
  cases hscan : scanNumber negative (some c :: text.map some) with
  | mk token after =>
    rw [hscan] at halone
    obtain ⟨content, rfl⟩ : ∃ content, token = .scalar content := by
      simpa [hscan] using scanNumber_scalar negative (some c :: text.map some)
    obtain ⟨s, rfl, hafter, hvalue⟩ := eq_scalar_of_ofText halone h
    have hs : s = .number (.float x) := eq_float_of_ofTree hvalue
    subst hs
    intro rest hr
    rw [htokens rest, scanNumber_append hr hscan]
    simp only [reread, isNaN_or_isInf_of_isFinite hx, Bool.false_eq_true, if_false]
    rw [tokens_append_of_blank hafter]

end Rulebook.Json
