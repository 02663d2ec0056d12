/-
  Rulebook.Proofs.Feel.Positions — rewriting by positions, with every access checked.

  The rewriting goes on with what is left of a rule, so it cannot reach beyond the rule. The
  same rewriting may keep the rule whole and count positions in it; then it looks up
  characters, cuts slices, counts open brackets and lowers numbers, and each of these may
  go wrong. Here every one of them is checked, and what goes wrong is an outcome of its own
  (`Breach`): an access or a slice outside of the text, a bracket closed where none is open,
  a number lowered out of its 64 bits, a loop that does not move on, and an index whose
  text is no shorter than the one it is in. The last two are what ends the recursion.

  A position stands for what follows it (`place`), and one lemma for each reader says that
  in front of what is left of a text it comes to the position that the rewriting goes on from.
  - `moveAt_place`: what stands at a position is the step of the rewriting there.
  - `run_place`: from any position the run ends without a breach, as the rewriting does.
  - `translate_checked`: no rule breaches a check, and neither does a batch of rules.
-/

import Rulebook.Batch
import Rulebook.Proofs.Feel.Parts

namespace Rulebook.Feel.Positions

open Rulebook.Text (isBlank isWordStart isWordChar skipBlank firstInk leadingWord afterWord trim decimal readInt64)
open Rulebook.Time (Timestamp)

inductive Breach where
  | access (position : Nat)
  | slice (start stop : Nat)
  | depth
  | range (n : Int)
  | stall (position next : Nat)
  | nesting (inner outer : Nat)
  deriving DecidableEq, Repr

/-- A result, unless a check is breached on the way to it. -/
abbrev Checked := Except Breach

/-! ## Characters and slices -/

def charAt (text : List Char) (i : Nat) : Checked Char :=
  match text[i]? with
  | some c => .ok c
  | none => .error (.access i)

def charBefore (text : List Char) : Nat → Checked (Option Char)
  | 0 => .ok none
  | i + 1 => (charAt text i).map some

def slice (text : List Char) (start stop : Nat) : Checked (List Char) :=
  if start ≤ stop ∧ stop ≤ text.length then .ok ((text.drop start).take (stop - start)) else .error (.slice start stop)

/-! ## Looking ahead -/

/-- The first position from `start` on whose character has not a property, or the end of the text. -/
def endOf (p : Char → Bool) (text : List Char) (start : Nat) : Checked Nat := do
  let rest ← slice text start text.length
  match rest.findIdx? fun c => !p c with
  | some offset => return start + offset
  | none => return text.length

def inkFrom (text : List Char) (start : Nat) : Checked (Option Char) := do
  let i ← endOf isBlank text start
  return text[i]?

def callEnd? (text : List Char) (start : Nat) : Checked (Option Nat) := do
  let opening ← endOf isBlank text start
  if text[opening]? = some '(' then
    let closing ← endOf isBlank text (opening + 1)
    return if text[closing]? = some ')' then some (closing + 1) else none
  else return none

/-- The position of the quote that closes a literal, looked for from `i` on. -/
def quote? (text : List Char) (i : Nat) : Checked (Option Nat) :=
  if _h : i < text.length then do
    let c ← charAt text i
    if c = '\\' then quote? text (i + 2)
    else if c = '"' then return some i
    else quote? text (i + 1)
  else return none
termination_by text.length - i

/-- The position of the bracket that closes the last of `depth` open brackets, looked for from `i` on. -/
def closing? (text : List Char) (depth i : Nat) : Checked (Option Nat) :=
  if _h : i < text.length then do
    let c ← charAt text i
    if c = '"' then
      match ← quote? text (i + 1) with
      | none => return none
      | some quote => if _hq : i < quote + 1 then closing? text depth (quote + 1) else throw (.stall i (quote + 1))
    else if c = '[' then closing? text (depth + 1) (i + 1)
    else if c = ']' then
      match depth with
      | 0 => throw .depth
      | 1 => return some i
      | depth + 2 => closing? text (depth + 1) (i + 1)
    else closing? text depth (i + 1)
  else return none
termination_by text.length - i

/-! ## Names of several words -/

/-- The position behind words with blanks between them; before the first of them none are needed. -/
def wordsEnd? (text : List Char) (isFirst : Bool) (i : Nat) : List (List Char) → Checked (Option Nat)
  | [] => return some i
  | word :: words => do
    let start ← if isFirst then pure i else endOf isBlank text i
    if !isFirst && start == i then return none
    else if start + word.length ≤ text.length ∧ (text.drop start).take word.length = word then
      wordsEnd? text false (start + word.length) words
    else return none

def phraseEnd? (text : List Char) (i : Nat) (phrase : Phrase) : Checked (Option Nat) := do
  match ← wordsEnd? text true i phrase.words with
  | none => return none
  | some stop =>
    if text[stop]?.any isWordChar then return none
    else
      let ink ← inkFrom text stop
      return if ink = some '(' then some stop else none

def phraseAt? (text : List Char) (i : Nat) : List Phrase → Checked (Option (List Char × Nat))
  | [] => return none
  | phrase :: phrases => do
    match ← phraseEnd? text i phrase with
    | some stop => return some (phrase.identifier, stop)
    | none => phraseAt? text i phrases

/-! ## The run -/

/-- What stands at a position: a part that `written` replaces, an index up to its bracket, or a literal that
    is never closed. -/
inductive Move where
  | write (written : List Char) (next : Nat)
  | index (close : Nat)
  | unclosed

def wordMove (text word : List Char) (stop : Nat) : Checked Move := do
  if word = "and".toList then return .write "&&".toList stop
  else if word = "or".toList then return .write "||".toList stop
  else if word = "not".toList then
    let ink ← inkFrom text stop
    return if ink = some '(' then .write ['!'] stop else .write word stop
  else if word = "now".toList then
    let after ← callEnd? text stop
    return .write word (after.getD stop)
  else return .write word stop

def nameMove (phrases : List Phrase) (text : List Char) (i : Nat) : Checked Move := do
  match ← phraseAt? text i phrases with
  | some (identifier, stop) => return .write identifier stop
  | none =>
    let stop ← endOf isWordChar text i
    let word ← slice text i stop
    wordMove text word stop

/-- The move at a character that opens neither a literal nor an index. -/
def plainMove (phrases : List Phrase) (text : List Char) (i : Nat) (c : Char) : Checked Move := do
  if c = '=' then
    let previous ← charBefore text i
    return .write (if joinsOperator previous text[i + 1]?.toList then ['='] else ['=', '=']) (i + 1)
  else if isWordStart c then
    let previous ← charBefore text i
    if continues previous then return .write [c] (i + 1) else nameMove phrases text i
  else return .write [c] (i + 1)

def moveAt (phrases : List Phrase) (text out : List Char) (i : Nat) : Checked Move := do
  let c ← charAt text i
  if c = '"' then
    match ← quote? text (i + 1) with
    | some quote => return .write (← slice text i (quote + 1)) (quote + 1)
    | none => return .unclosed
  else
    let close ← if c = '[' ∧ opensIndex out = true then closing? text 0 i else pure none
    match close with
    | some close => return .index close
    | none => plainMove phrases text i c

/-- A number, lowered by one within 64 bits. -/
def decrement (n : Int) : Checked Int :=
  if -9223372036854775808 ≤ n - 1 ∧ n - 1 ≤ 9223372036854775807 then .ok (n - 1) else .error (.range n)

def lower (index : List Char) (position : Nat) : Checked (Except Fault (List Char)) := do
  let index := trim index
  if index.head? = some '"' then return .ok index
  else
    match readInt64 index with
    | .ok n =>
      if 1 ≤ n then return .ok (decimal (← decrement n)) else return .error (.indexBelowOne n position)
    | .error _ => return .ok ('(' :: (index ++ ") - 1".toList))

/-- Rewrites a text from a position on, with `out` written so far in reverse. -/
def run (phrases : List Phrase) (text out : List Char) (i : Nat) : Checked (Except Fault (List Char)) :=
  if _h : i < text.length then do
    match ← moveAt phrases text out i with
    | .write written next =>
      if _hn : i < next then run phrases text (written.reverse ++ out) next else throw (.stall i next)
    | .index close =>
      let inner ← slice text (i + 1) close
      if _hi : inner.length < text.length then
        match ← run phrases inner [] 0 with
        | .error fault => return .error fault
        | .ok index =>
          match ← lower index i with
          | .error fault => return .error fault
          | .ok index =>
            if _hc : i < close + 1 then run phrases text (']' :: (index.reverse ++ '[' :: out)) (close + 1)
            else throw (.stall i (close + 1))
      else throw (.nesting inner.length text.length)
    | .unclosed => return .error (.unclosedLiteral i)
  else return .ok out.reverse
termination_by (text.length, text.length - i)

/-- A rule rewritten for the engine, with the extensions of a registry. -/
def translate (registry : Registry) (rule : String) : Checked (Except Fault String) := do
  let result ← run (Phrase.ofRegistry registry) rule.toList [] 0
  return result.map String.ofList

/-- The outcomes of a batch, one for each rule, unless a rule breaches a check. -/
def classify (arrangement : Arrangement) (registry : Registry) (rules : List String) (context : Context)
    (clock : Timestamp) : Checked (List Outcome) :=
  rules.mapM fun rule => do
    match ← translate registry rule with
    | .error fault => return .ofAnswer (.error (Failure.notRewritten fault).message)
    | .ok source =>
      return .ofAnswer ((answer (Expr.Scope.ofBatch arrangement registry context clock) rule source).mapError Failure.message)

/-! ## Positions and what follows them -/

variable {text rest xs ys : List Char} {c : Char} {phrases : List Phrase}

def place (text rest : List Char) : Nat := text.length - rest.length

theorem ok_bind {α β : Type} (a : α) (next : α → Checked β) : (Except.ok a >>= next) = next a := rfl

theorem pure_eq_ok {α : Type} (a : α) : (pure a : Checked α) = .ok a := rfl

theorem suffix_of_cons (h : c :: rest <:+ text) : rest <:+ text := (List.suffix_cons c rest).trans h

theorem suffix_of_append (h : xs ++ ys <:+ text) : ys <:+ text := (List.suffix_append xs ys).trans h

theorem drop_place (h : rest <:+ text) : text.drop (place text rest) = rest := (List.suffix_iff_eq_drop.mp h).symm

theorem place_nil : place text [] = text.length := rfl

theorem place_le : place text rest ≤ text.length := Nat.sub_le _ _

theorem place_append (h : xs ++ ys <:+ text) : place text ys = place text (xs ++ ys) + xs.length := by
  have hle := h.length_le
  simp only [place, List.length_append] at hle ⊢
  omega

theorem place_cons (h : c :: rest <:+ text) : place text (c :: rest) + 1 = place text rest :=
  (place_append (show [c] ++ rest <:+ text from h)).symm

theorem place_lt (h : c :: rest <:+ text) : place text (c :: rest) < text.length := by
  rw [Nat.lt_iff_add_one_le, place_cons h]
  exact place_le

theorem getElem?_place (h : rest <:+ text) : text[place text rest]? = rest.head? := by
  rw [← List.head?_drop, drop_place h]

theorem charAt_place (h : c :: rest <:+ text) : charAt text (place text (c :: rest)) = .ok c := by
  rw [charAt, getElem?_place h]
  rfl

theorem slice_place (h : xs ++ ys <:+ text) : slice text (place text (xs ++ ys)) (place text ys) = .ok xs := by
  have hplace := place_append h
  rw [slice, if_pos ⟨by omega, place_le⟩, drop_place h, hplace, Nat.add_sub_cancel_left, List.take_left]

theorem charBefore_length (before rest : List Char) :
    charBefore (before.reverse ++ rest) before.length = .ok before.head? := by
  cases before with
  | nil => rfl
  | cons c before =>
    have hc : charAt ((c :: before).reverse ++ rest) before.length = .ok c := by
      simp [charAt]
    rw [List.length_cons, charBefore, hc]
    rfl

/-! ## Looking ahead, from a position -/

theorem endOf_place (p : Char → Bool) (h : rest <:+ text) :
    endOf p text (place text rest) = .ok (place text (rest.dropWhile p)) := by
  have hslice : slice text (place text rest) text.length = .ok rest := by
    have hwhole : rest ++ [] <:+ text := by rwa [List.append_nil]
    have hcut := slice_place hwhole
    rwa [List.append_nil] at hcut
  rw [endOf, hslice, ok_bind]
  clear hslice
  induction rest with
  | nil => rfl
  | cons c rest ih =>
    rw [List.findIdx?_cons, List.dropWhile_cons]
    cases hp : p c with
    | false => rfl
    | true =>
      have hih := ih (suffix_of_cons h)
      rw [← place_cons h] at hih
      simp only [Bool.not_true, Bool.false_eq_true, if_false, if_true]
      rw [← hih]
      cases rest.findIdx? fun c => !p c with
      | none => rfl
      | some offset => simp only [Option.map_some, Nat.add_comm offset 1, Nat.add_assoc]

theorem skip_place (h : rest <:+ text) :
    endOf isBlank text (place text rest) = .ok (place text (skipBlank rest)) := endOf_place isBlank h

theorem skip_suffix (h : rest <:+ text) : skipBlank rest <:+ text := (skipBlank_suffix rest).trans h

theorem inkFrom_place (h : rest <:+ text) : inkFrom text (place text rest) = .ok (firstInk rest) := by
  rw [inkFrom, skip_place h, ok_bind, getElem?_place (skip_suffix h)]
  rfl

theorem callEnd?_place (h : rest <:+ text) :
    callEnd? text (place text rest) = .ok ((emptyCall? rest).map (place text)) := by
  have hopen := skip_suffix h
  rw [callEnd?, skip_place h, ok_bind, getElem?_place hopen, emptyCall?]
  cases hskip : skipBlank rest with
  | nil => rfl
  | cons c more =>
    rw [hskip] at hopen
    have hmore := suffix_of_cons hopen
    have hclose := skip_suffix hmore
    simp only [List.head?_cons, Option.some.injEq]
    split
    · rw [place_cons hopen, skip_place hmore, ok_bind, getElem?_place hclose]
      cases hskip' : skipBlank more with
      | nil => rfl
      | cons d after =>
        rw [hskip'] at hclose
        simp only [List.head?_cons, Option.some.injEq]
        split
        · rw [place_cons hclose]
          rfl
        · rfl
    · rfl

theorem quote?_place (h : rest <:+ text) :
    quote? text (place text rest) = .ok ((literal? rest).map fun (_, left) => place text ('"' :: left)) := by
  fun_induction literal? rest with
  | case1 =>
    rw [quote?, dif_neg (by rw [place_nil]; exact Nat.lt_irrefl _)]
    rfl
  | case2 rest =>
    rw [quote?, dif_pos (place_lt h), charAt_place h, ok_bind, if_neg (by decide), if_pos rfl]
    rfl
  | case3 =>
    -- the backslash is the last character, and the position behind the one that it takes is no longer in the text
    rw [quote?, dif_pos (place_lt h), charAt_place h, ok_bind, if_pos rfl, quote?, dif_neg]
    · rfl
    · have hnext := place_cons h
      rw [place_nil] at hnext
      omega
  | case4 d rest hq ih =>
    have hrest := suffix_of_cons h
    have hnext : place text ('\\' :: d :: rest) + 2 = place text rest := by
      rw [← place_cons hrest, ← place_cons h]
    rw [quote?, dif_pos (place_lt h), charAt_place h, ok_bind, if_pos rfl, hnext, ih (suffix_of_cons hrest),
      Option.map_map]
    rfl
  | case5 c rest hq hb ih =>
    rw [quote?, dif_pos (place_lt h), charAt_place h, ok_bind, if_neg hb, if_neg hq, place_cons h,
      ih (suffix_of_cons h), Option.map_map]
    rfl

/-- A literal ends with a quote, and what is left follows it. -/
theorem quote_suffix {content left : List Char} (h : literal? rest = some (content, left)) : '"' :: left <:+ rest := by
  obtain ⟨init, rfl⟩ := (isContent_of_literal? h).exists_init
  exact ⟨init, by rw [← literal?_append h]; simp⟩

/-- With one bracket open more than those that are counted, the bracket that closes it is found. -/
theorem closing?_place {depth : Nat} (h : rest <:+ text) :
    closing? text (depth + 1) (place text rest) =
      .ok ((bracket? depth rest).map fun (_, after) => place text (']' :: after)) := by
  fun_induction bracket? depth rest with
  | case1 =>
    rw [closing?.eq_def, dif_neg (by rw [place_nil]; exact Nat.lt_irrefl _)]
    rfl
  | case2 depth rest hl =>
    rw [closing?.eq_def, dif_pos (place_lt h), charAt_place h, ok_bind, if_pos rfl, place_cons h,
      quote?_place (suffix_of_cons h), hl]
    rfl
  | case3 depth rest content left hl ih =>
    have hrest := suffix_of_cons h
    have hquote := (quote_suffix hl).trans hrest
    have hmoves : place text ('"' :: rest) < place text left := by
      have hsuffix : content ++ left <:+ text := by rwa [literal?_append hl]
      have hlater := place_append hsuffix
      rw [literal?_append hl] at hlater
      have hnext := place_cons h
      omega
    rw [closing?.eq_def, dif_pos (place_lt h), charAt_place h, ok_bind, if_pos rfl, place_cons h,
      quote?_place hrest, hl]
    simp only [Option.map_some, ok_bind, place_cons hquote, dif_pos hmoves]
    rw [ih (suffix_of_cons hquote), Option.map_map]
    rfl
  | case4 rest hq =>
    rw [closing?.eq_def, dif_pos (place_lt h), charAt_place h, ok_bind, if_neg (by decide), if_neg (by decide), if_pos rfl]
    rfl
  | case5 rest depth hq ih =>
    rw [closing?.eq_def, dif_pos (place_lt h), charAt_place h, ok_bind, if_neg (by decide), if_neg (by decide), if_pos rfl,
      place_cons h, Option.map_map]
    exact ih (suffix_of_cons h)
  | case6 depth c rest hq hc ih =>
    rw [closing?.eq_def, dif_pos (place_lt h), charAt_place h, ok_bind, if_neg hq, if_neg hc, place_cons h, Option.map_map]
    have hih := ih (suffix_of_cons h)
    by_cases ho : c = '['
    · rw [if_pos ho, if_pos ho]
      rw [dif_pos ho] at hih
      exact hih
    · rw [if_neg ho, if_neg ho]
      rw [dif_neg ho] at hih
      exact hih

/-! ## Names of several words, from a position -/

/-- A word stands at a position where the text goes on for its length and the slice of that length is the word. -/
theorem afterWord?_place (word : List Char) (h : rest <:+ text) :
    afterWord? word rest =
      if place text rest + word.length ≤ text.length ∧ (text.drop (place text rest)).take word.length = word then
        some (rest.drop word.length)
      else none := by
  rw [drop_place h]
  cases hw : afterWord? word rest with
  | some left =>
    have hsuffix : word ++ left <:+ text := by rwa [afterWord?_append hw]
    have hlater := place_append hsuffix
    rw [afterWord?_append hw] at hlater
    rw [← hlater, ← afterWord?_append hw, List.take_left, List.drop_left, if_pos ⟨place_le, rfl⟩]
  | none =>
    refine (if_neg ?_).symm
    rintro ⟨-, htake⟩
    have hrest := List.take_append_drop word.length rest
    rw [htake] at hrest
    rw [← hrest, afterWord?_self] at hw
    cases hw

/-- Behind a word the next one is looked for like a first one, if blanks stand before it. -/
theorem wordsEnd?_later {left : List Char} (v : List Char) (words : List (List Char)) (h : left <:+ text) :
    wordsEnd? text false (place text left) (v :: words) =
      if left.head?.any isBlank then wordsEnd? text true (place text (skipBlank left)) (v :: words) else .ok none := by
  rw [wordsEnd?.eq_def, wordsEnd?.eq_def]
  simp only [Bool.false_eq_true, if_false, if_true, skip_place h, pure_eq_ok, ok_bind, Bool.not_false, Bool.not_true,
    Bool.true_and, Bool.false_and, beq_iff_eq]
  cases left with
  | nil => exact if_pos rfl
  | cons c rest =>
    cases hb : isBlank c with
    | false =>
      rw [Text.skipBlank_cons hb]
      simp [hb]
    | true =>
      have hskip : skipBlank (c :: rest) = skipBlank rest := by simp [skipBlank, hb]
      have hmoves : place text (skipBlank rest) ≠ place text (c :: rest) := by
        have hnext := place_cons h
        have hlater := Text.skip_length_le rest
        have hle := h.length_le
        simp only [place, List.length_cons] at hle hnext ⊢
        omega
      simp [hskip, hmoves, hb]

theorem wordsEnd?_place (words : List (List Char)) (h : rest <:+ text) :
    wordsEnd? text true (place text rest) words = .ok ((afterWords? words rest).map (place text)) := by
  induction words generalizing rest with
  | nil => rfl
  | cons word words ih =>
    have hword := afterWord?_place word h
    rw [wordsEnd?]
    simp only [if_true, pure_eq_ok, ok_bind, Bool.not_true, Bool.false_and, Bool.false_eq_true, if_false]
    split
    · rename_i hw
      rw [if_pos hw] at hword
      have hsuffix : word ++ rest.drop word.length <:+ text := by rwa [afterWord?_append hword]
      have hplace := place_append hsuffix
      rw [afterWord?_append hword] at hplace
      have hleft := suffix_of_append hsuffix
      rw [← hplace]
      generalize rest.drop word.length = left at hword hleft
      cases words with
      | nil =>
        rw [afterWords?, hword]
        rfl
      | cons v words =>
        rw [wordsEnd?_later v words hleft, afterWords?_cons_cons, hword, Option.bind_some]
        cases left with
        | nil => rfl
        | cons c more =>
          cases hb : isBlank c with
          | false => simp [hb]
          | true =>
            have hskip : skipBlank (c :: more) = skipBlank more := by simp [skipBlank, hb]
            simp only [List.head?_cons, Option.any_some, hb, if_true, hskip]
            exact ih (skip_suffix (suffix_of_cons hleft))
    · rename_i hw
      rw [if_neg hw] at hword
      cases words with
      | nil =>
        rw [afterWords?, hword]
        rfl
      | cons v words =>
        rw [afterWords?_cons_cons, hword]
        rfl

theorem phraseEnd?_place (phrase : Phrase) (h : rest <:+ text) :
    phraseEnd? text (place text rest) phrase = .ok ((phrase.after? rest).map (place text)) := by
  rw [phraseEnd?, wordsEnd?_place _ h, Phrase.after?]
  cases hw : afterWords? phrase.words rest with
  | none => rfl
  | some left =>
    have hleft := (afterWords?_suffix hw).trans h
    simp only [Option.map_some, ok_bind, getElem?_place hleft]
    split
    · rfl
    · rw [inkFrom_place hleft, ok_bind]
      split
      · rfl
      · rfl

theorem phraseAt?_place (phrases : List Phrase) (h : rest <:+ text) :
    phraseAt? text (place text rest) phrases =
      .ok ((Phrase.find? phrases rest).map fun (identifier, left) => (identifier, place text left)) := by
  induction phrases with
  | nil => rfl
  | cons phrase phrases ih =>
    rw [phraseAt?, phraseEnd?_place phrase h, Phrase.find?, List.findSome?_cons]
    cases hp : phrase.after? rest with
    | none => exact ih
    | some left => rfl

/-! ## Moves -/

def Move.ofStep (text : List Char) : Step → Move
  | .write written after => .write written (place text after)
  | .index _ after => .index (place text (']' :: after))
  | .unclosed => .unclosed

theorem wordMove_place (word : List Char) (h : rest <:+ text) :
    wordMove text word (place text rest) = .ok (.ofStep text (wordStep word rest)) := by
  unfold wordMove wordStep
  by_cases hand : word = "and".toList
  · rw [if_pos hand, if_pos hand]
    rfl
  rw [if_neg hand, if_neg hand]
  by_cases hor : word = "or".toList
  · rw [if_pos hor, if_pos hor]
    rfl
  rw [if_neg hor, if_neg hor]
  by_cases hnot : word = "not".toList
  · have hnow : word ≠ "now".toList := by rw [hnot]; decide
    rw [if_pos hnot, inkFrom_place h, ok_bind, if_neg hnow]
    by_cases hink : firstInk rest = some '('
    · rw [if_pos hink, if_pos ⟨hnot, hink⟩]
      rfl
    · rw [if_neg hink, if_neg fun hc => hink hc.2]
      rfl
  have hcall : ¬(word = "not".toList ∧ firstInk rest = some '(') := fun hc => hnot hc.1
  rw [if_neg hnot, if_neg hcall]
  by_cases hnow : word = "now".toList
  · rw [if_pos hnow, callEnd?_place h, ok_bind, if_pos hnow]
    cases emptyCall? rest with
    | none => rfl
    | some after => rfl
  · rw [if_neg hnow, if_neg hnow]
    rfl

theorem nameMove_place (h : c :: rest <:+ text) :
    nameMove phrases text (place text (c :: rest)) = .ok (.ofStep text
      (match Phrase.find? phrases (c :: rest) with
      | some (identifier, after) => .write identifier after
      | none => wordStep (leadingWord (c :: rest)) (afterWord (c :: rest)))) := by
  rw [nameMove, phraseAt?_place phrases h]
  cases Phrase.find? phrases (c :: rest) with
  | some found => rfl
  | none =>
    have hsplit := Text.leadingWord_append_afterWord (c :: rest)
    have hafter : afterWord (c :: rest) <:+ text := (List.dropWhile_suffix _).trans h
    have hsuffix : leadingWord (c :: rest) ++ afterWord (c :: rest) <:+ text := by rwa [hsplit]
    have hslice := slice_place hsuffix
    rw [hsplit] at hslice
    simp only [Option.map_none, ok_bind, endOf_place isWordChar h]
    rw [show (c :: rest).dropWhile isWordChar = afterWord (c :: rest) from rfl, hslice, ok_bind]
    exact wordMove_place _ hafter

theorem plainMove_place {previous : Option Char} (h : c :: rest <:+ text)
    (hprevious : charBefore text (place text (c :: rest)) = .ok previous) :
    plainMove phrases text (place text (c :: rest)) c = .ok (.ofStep text
      (if c = '=' then .write (if joinsOperator previous rest then ['='] else ['=', '=']) rest
      else if isWordStart c && !continues previous then
        match Phrase.find? phrases (c :: rest) with
        | some (identifier, after) => .write identifier after
        | none => wordStep (leadingWord (c :: rest)) (afterWord (c :: rest))
      else .write [c] rest)) := by
  have hjoins : joinsOperator previous rest.head?.toList = joinsOperator previous rest := by
    cases rest <;> rfl
  rw [plainMove, hprevious, ok_bind, ok_bind, place_cons h, getElem?_place (suffix_of_cons h), hjoins]
  by_cases he : c = '='
  · rw [if_pos he, if_pos he]
    rfl
  rw [if_neg he, if_neg he]
  cases hw : isWordStart c with
  | false => rfl
  | true =>
    cases hgo : continues previous with
    | true => rfl
    | false => exact nameMove_place h

/-- What stands at a position is the step of the rewriting there. -/
theorem moveAt_place (before out : List Char) (ht : text = before.reverse ++ c :: rest) :
    moveAt phrases text out before.length = .ok (.ofStep text (step phrases before out c rest)) := by
  have h : c :: rest <:+ text := ⟨_, ht.symm⟩
  have hrest := suffix_of_cons h
  have hplace : before.length = place text (c :: rest) := by simp [place, ht]
  have hprevious : charBefore text (place text (c :: rest)) = .ok before.head? := by
    rw [← hplace, ht, charBefore_length]
  have hplain : plainMove phrases text (place text (c :: rest)) c = _ := plainMove_place h hprevious
  rw [hplace, moveAt, charAt_place h, ok_bind, step]
  by_cases hq : c = '"'
  · rw [if_pos hq, if_pos hq, place_cons h, quote?_place hrest]
    cases hl : literal? rest with
    | none => rfl
    | some cut =>
      obtain ⟨content, left⟩ := cut
      have hquote := (quote_suffix hl).trans hrest
      have hsuffix : c :: content ++ left <:+ text := by rwa [List.cons_append, literal?_append hl]
      have hslice := slice_place hsuffix
      rw [List.cons_append, literal?_append hl] at hslice
      simp only [Option.map_some, ok_bind, place_cons hquote, hslice]
      rfl
  rw [if_neg hq, if_neg hq]
  by_cases hb : c = '['
  · subst hb
    have hlist : plainMove phrases text (place text ('[' :: rest)) '[' = .ok (.ofStep text (.write ['['] rest)) := hplain
    have hfirst : closing? text 0 (place text ('[' :: rest)) = closing? text 1 (place text rest) := by
      rw [closing?.eq_def, dif_pos (place_lt h), charAt_place h, ok_bind, if_neg (by decide), if_pos rfl, place_cons h]
    rw [if_pos rfl]
    cases ho : opensIndex out with
    | false =>
      rw [if_neg (by simp), pure_eq_ok, ok_bind]
      exact hlist
    | true =>
      rw [if_pos ⟨rfl, rfl⟩, if_pos rfl, hfirst, closing?_place hrest]
      cases bracket? 0 rest with
      | none => exact hlist
      | some cut => rfl
  · rw [if_neg fun hc => hb hc.1, if_neg hb]
    exact hplain

/-! ## The run -/

/-- A number that has been read is lowered within its 64 bits, since only one above zero is lowered. -/
theorem lower_eq (index : List Char) (position : Nat) : lower index position = .ok (lowered index position) := by
  unfold lower lowered
  simp only
  split
  · rfl
  · cases hn : readInt64 (trim index) with
    | error fault => rfl
    | ok n =>
      obtain ⟨-, hlow, hhigh⟩ := Text.readInt64_eq_ok_iff.mp hn
      simp only
      by_cases hone : 1 ≤ n
      · rw [if_pos hone, if_pos hone, decrement, if_pos ⟨by omega, by omega⟩, ok_bind]
        rfl
      · rw [if_neg hone, if_neg hone]
        rfl

/-- The run goes into an index and comes out behind its bracket. -/
theorem run_index {before out inner after : List Char} (ht : text = before.reverse ++ c :: rest)
    (hs : step phrases before out c rest = .index inner after) :
    run phrases text out before.length = (do
      match ← run phrases inner [] 0 with
      | .error fault => return .error fault
      | .ok index =>
        match ← lower index before.length with
        | .error fault => return .error fault
        | .ok index =>
          run phrases text (']' :: (index.reverse ++ '[' :: out)) ((consumed (c :: rest) after).reverse ++ before).length) := by
  obtain ⟨-, -, hb⟩ := step_index hs
  have hrest := bracket?_append hb
  have hplace : before.length = place text (c :: rest) := by simp [place, ht]
  have hsuffix : c :: (inner ++ ']' :: after) <:+ text := by rw [hrest]; exact ⟨_, ht.symm⟩
  have hclose := suffix_of_append (suffix_of_cons hsuffix)
  have hslice : slice text (before.length + 1) (place text (']' :: after)) = .ok inner := by
    rw [hplace, ← hrest, place_cons hsuffix]
    exact slice_place (suffix_of_cons hsuffix)
  have hshorter : inner.length < text.length := by
    have hle := hsuffix.length_le
    simp only [List.length_cons, List.length_append] at hle
    omega
  have hnext : place text (']' :: after) + 1 = ((consumed (c :: rest) after).reverse ++ before).length := by
    have hread : c :: rest = c :: inner ++ [']'] ++ after := by rw [← hrest]; simp
    rw [place_cons hclose, hread, consumed_append]
    simp only [place, ht, hread, List.length_append, List.length_reverse]
    omega
  have hmoves : before.length < ((consumed (c :: rest) after).reverse ++ before).length := by
    rw [← hnext]
    have hlater := place_append (suffix_of_cons hsuffix)
    have hfirst := place_cons hsuffix
    rw [hrest] at hlater hfirst
    omega
  rw [run, dif_pos (by simp [ht]), moveAt_place before out ht, hs]
  simp only [ok_bind, Move.ofStep, hslice, dif_pos hshorter, hnext, dif_pos hmoves]

/-- From any position the run ends without a breach, as the rewriting does. -/
theorem run_place (before out : List Char) (ht : text = before.reverse ++ rest) :
    run phrases text out before.length = .ok (scan phrases before out rest) := by
  fun_induction scan phrases before out rest generalizing text with
  | case1 before out =>
    rw [run, dif_neg (by simp [ht])]
    rfl
  | case2 before out c rest written after hs ih =>
    obtain ⟨read, hread, -⟩ := exists_part hs
    have hconsumed : consumed (c :: rest) after = read := by rw [hread, consumed_append]
    have hmoves : before.length < place text after := by
      have hshorter := step_write_length_le hs
      simp only [place, ht, List.length_append, List.length_reverse, List.length_cons]
      omega
    rw [hconsumed] at ih ⊢
    have htext : text = (read.reverse ++ before).reverse ++ after := by simp [ht, ← hread]
    have hplace : place text after = (read.reverse ++ before).length := by
      rw [place, htext, List.length_append, Nat.add_sub_cancel, List.length_reverse]
    rw [run, dif_pos (by simp [ht]), moveAt_place before out ht, hs]
    simp only [ok_bind, Move.ofStep, dif_pos hmoves]
    rw [hplace]
    exact ih htext
  | case3 before out c rest inner after hs fault hi inside =>
    have hin : run phrases inner [] 0 = .ok (scan phrases [] [] inner) := inside rfl
    rw [run_index ht hs, hin, hi]
    rfl
  | case4 before out c rest inner after hs index hi fault hl inside =>
    have hin : run phrases inner [] 0 = .ok (scan phrases [] [] inner) := inside rfl
    rw [run_index ht hs, hin, hi]
    simp only [ok_bind, lower_eq, hl]
    rfl
  | case5 before out c rest inner after hs index hi low hl inside ih =>
    obtain ⟨-, -, hb⟩ := step_index hs
    have hread : c :: rest = c :: inner ++ [']'] ++ after := by rw [← bracket?_append hb]; simp
    have hin : run phrases inner [] 0 = .ok (scan phrases [] [] inner) := inside rfl
    rw [run_index ht hs, hin, hi]
    simp only [ok_bind, lower_eq, hl]
    refine ih ?_
    rw [ht, hread, consumed_append]
    simp
  | case6 before out c rest hs =>
    rw [run, dif_pos (by simp [ht]), moveAt_place before out ht, hs]
    rfl

/-! ## Rules and batches -/

theorem translate_eq (registry : Registry) (rule : String) : translate registry rule = .ok (Feel.translate registry rule) := by
  rw [translate, show run _ rule.toList [] 0 = _ from run_place [] [] rfl, ok_bind]
  rfl

/-- The outcomes of a batch come about without a breach, whatever its rules are. -/
theorem classify_eq (arrangement : Arrangement) (registry : Registry) (rules : List String) (context : Context)
    (clock : Timestamp) :
    classify arrangement registry rules context clock =
      .ok ((Evaluator.mk (.arranging arrangement .feel) registry).classify rules context clock) := by
  unfold classify Evaluator.classify
  induction rules with
  | nil => rfl
  | cons rule rules ih =>
    rw [List.mapM_cons, translate_eq, ih, List.map_cons]
    have hsession : (Engine.arranging arrangement .feel).session registry context clock rule =
        match Feel.translate registry rule with
        | .error fault => .error (.notRewritten fault)
        | .ok source => answer (Expr.Scope.ofBatch arrangement registry context clock) rule source := by
      cases h : Feel.translate registry rule <;> simp [Engine.arranging, Dialect.source, h, bind, Except.bind]
    rw [Outcome.ofSession, hsession]
    cases Feel.translate registry rule with
    | error fault => rfl
    | ok source => rfl

/-- No rule breaches a check: with positions every rule is rewritten, or refused, as it is without them. So every
    batch of rules has its outcomes, one for each rule, whatever its rules are. -/
theorem translate_checked (registry : Registry) :
    (∀ rule, translate registry rule = .ok (Feel.translate registry rule)) ∧
      ∀ arrangement rules context clock, classify arrangement registry rules context clock =
        .ok ((Evaluator.mk (.arranging arrangement .feel) registry).classify rules context clock) :=
  ⟨translate_eq registry, fun arrangement => classify_eq arrangement registry⟩

end Rulebook.Feel.Positions
