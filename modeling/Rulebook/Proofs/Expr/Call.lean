/-
  Rulebook.Proofs.Expr.Call — a call of a function with names as arguments.

  Such a call is a name, and further names in brackets with a comma and a blank between
  them. It is read as what it says, however many arguments it has, and its value is what
  the function of that name makes of the data of the others.
  - `tokens?_call`: the tokens of a call are its names, brackets and commas.
  - `parseExpr_of_simple`: a simple expression with no operator behind it is an expression.
  - `parse?_call`: the text of a call is read as the call.
  - `eval_call`: the value of a call is the answer of the function.
-/

import Rulebook.Expr.Eval
import Rulebook.Expr.Parse
import Rulebook.Proofs.Feel.Term

namespace Rulebook.Expr

open Rulebook.Feel (bracketed)
open Rulebook.Text (isWordStart isWordChar IsWord)

/-! ## Words as tokens -/

variable {word rest : List Char}

/-- What may follow a word: nothing that makes it longer or a prefix of a literal. -/
def Stops (rest : List Char) : Prop := rest.head?.any (fun c => isWordChar c || isQuote c) = false

theorem Stops.notWord (h : Stops rest) : rest.head?.any isWordChar = false := by
  cases rest with
  | nil => rfl
  | cons c rest => simp_all [Stops]

theorem not_isQuote_of_isWordChar {c : Char} (h : isWordChar c = true) : isQuote c = false := by
  have hd : c ≠ '"' := Text.ne_of_class h (by decide)
  have hs : c ≠ '\'' := Text.ne_of_class h (by decide)
  simp [isQuote, hd, hs]

theorem quotedLength?_eq_none {text : List Char} (h : text.head?.any isQuote = false) (raw : Bool) :
    quotedLength? raw text = none := by
  cases text with
  | nil => rfl
  | cons c text =>
    have hc : ¬(c = '"' ∨ c = '\'') := by simpa [isQuote] using h
    rw [quotedLength?, if_neg hc]

theorem noQuote (hw : ∀ c ∈ word, isWordChar c = true) (hr : Stops rest) : (word ++ rest).head?.any isQuote = false := by
  cases word with
  | nil =>
    cases rest with
    | nil => rfl
    | cons c rest => simp_all [Stops]
  | cons c word => exact not_isQuote_of_isWordChar (hw c (List.mem_cons_self ..))

theorem textLength?_eq_none (hw : ∀ c ∈ word, isWordChar c = true) (hr : Stops rest) :
    textLength? (word ++ rest) = none := by
  have hq := noQuote hw hr
  cases ht : word ++ rest with
  | nil => rfl
  | cons c more =>
    rw [ht] at hq
    rw [textLength?]
    split
    · rename_i hc
      cases word with
      | nil =>
        -- what stops a word is no letter
        obtain rfl : rest = c :: more := ht
        rcases hc with rfl | rfl
        · cases hr
        · cases hr
      | cons d word =>
        rw [List.cons_append] at ht
        obtain ⟨-, rfl⟩ := List.cons.inj ht
        rw [quotedLength?_eq_none (noQuote (fun e he => hw e (List.mem_cons_of_mem _ he)) hr)]
        rfl
    · exact quotedLength?_eq_none hq false

theorem bytesLength?_eq_none (hw : IsWord word) (hr : Stops rest) : bytesLength? (word ++ rest) = none := by
  obtain ⟨c, more, rfl, -, hmore⟩ := hw.exists_cons
  rw [List.cons_append, bytesLength?, textLength?_eq_none hmore hr]
  simp

theorem number?_eq_none {c : Char} (hc : isWordStart c = true) (text : List Char) : number? (c :: text) = none := by
  have hdigit := (Text.not_isDigit_of_isWordStart hc).1
  have hdot : c ≠ '.' := Text.ne_of_class hc (by decide)
  have hzero : c ≠ '0' := Text.ne_of_class hc (by decide)
  have hwhole : spanLength Char.isDigit (c :: text) = 0 := by simp [spanLength, hdigit]
  have hpart : fractionLength (c :: text) = 0 := by simp [fractionLength, hdot]
  simp [number?, hwhole, hpart, hzero]

theorem token?_word (hw : IsWord word) (hr : Stops rest) :
    token? (word ++ rest) = some (.name (String.ofList word), word.length) := by
  have hbytes := bytesLength?_eq_none hw hr
  have htext := textLength?_eq_none hw.2 hr
  have hspan : spanLength inName (word ++ rest) = word.length := congrArg List.length (Text.leadingWord_append hw.2 hr.notWord)
  obtain ⟨c, more, rfl, hc, -⟩ := hw.exists_cons
  have hstart : (c :: (more ++ rest)).head?.any startsName = true := hc
  rw [List.cons_append] at hbytes htext hspan ⊢
  rw [token?, hbytes, htext, number?_eq_none hc]
  simp only [hstart, if_true, hspan]
  simp

/-! ## Tokens one after the other -/

theorem lex_skip (skip : Nat) (text : List Char) : lex false skip text = lex false 0 (text.drop skip) := by
  induction text generalizing skip with
  | nil => cases skip <;> rfl
  | cons c text ih =>
    cases skip with
    | zero => rfl
    | succ skip => exact ih skip

theorem lex_token {c : Char} {text : List Char} {token : Token} (hc : isWordChar c = true)
    (h : token? (c :: text ++ rest) = some (token, (c :: text).length)) :
    lex false 0 (c :: text ++ rest) = (lex false 0 rest).map (token :: ·) := by
  have hspace : isSpace c = false := by
    cases hs : isSpace c with
    | false => rfl
    | true =>
      simp only [isSpace, Bool.or_eq_true, beq_iff_eq] at hs
      rcases hs with (((rfl | rfl) | rfl) | rfl) | rfl <;> cases hc
  have hslash : c ≠ '/' := Text.ne_of_class hc (by decide)
  rw [List.cons_append] at h ⊢
  rw [lex]
  simp only [Bool.false_eq_true, if_false, hspace, hslash, false_and, h]
  rw [lex_skip]
  simp

theorem lex_word (hw : IsWord word) (hr : Stops rest) :
    lex false 0 (word ++ rest) = (lex false 0 rest).map (.name (String.ofList word) :: ·) := by
  have htoken := token?_word hw hr
  obtain ⟨c, more, rfl, hc, -⟩ := hw.exists_cons
  exact lex_token (Text.isWordChar_of_isWordStart hc) htoken

theorem lex_open (rest : List Char) : lex false 0 ('(' :: rest) = (lex false 0 rest).map (.mark "(" :: ·) := rfl

theorem lex_comma (rest : List Char) : lex false 0 (',' :: ' ' :: rest) = (lex false 0 rest).map (.mark "," :: ·) := rfl

def argsText : List (List Char) → List Char
  | [] => []
  | name :: rest => name ++ rest.flatMap (',' :: ' ' :: ·)

def moreTokens (names : List String) : List Token := names.flatMap (fun name => [.mark ",", .name name]) ++ [.mark ")"]

def argTokens : List String → List Token
  | [] => [.mark ")"]
  | name :: rest => .name name :: moreTokens rest

variable {function : String} {args : List String}

theorem stops_more (args : List (List Char)) : Stops (args.flatMap (',' :: ' ' :: ·) ++ [')']) := by
  cases args with
  | nil => rfl
  | cons _ _ => rfl

theorem lex_moreArgs (h : ∀ arg ∈ args, IsWord arg.toList) :
    lex false 0 ((args.map String.toList).flatMap (',' :: ' ' :: ·) ++ [')']) = some (moreTokens args) := by
  induction args with
  | nil => rfl
  | cons arg args ih =>
    have hstops := stops_more (args.map String.toList)
    rw [List.map_cons, List.flatMap_cons, List.append_assoc, List.cons_append, List.cons_append, lex_comma,
      lex_word (h arg (List.mem_cons_self ..)) hstops, ih fun other ho => h other (List.mem_cons_of_mem _ ho)]
    simp [moreTokens]

def callText (function : List Char) (args : List String) : List Char :=
  function ++ bracketed (argsText (args.map String.toList))

theorem tokens?_call (hf : IsWord function.toList) (h : ∀ arg ∈ args, IsWord arg.toList) :
    tokens? (callText function.toList args) = some (.name function :: .mark "(" :: argTokens args) := by
  have hargs : lex false 0 (argsText (args.map String.toList) ++ [')']) = some (argTokens args) := by
    cases args with
    | nil => rfl
    | cons arg args =>
      have hstops := stops_more (args.map String.toList)
      rw [List.map_cons, argsText, List.append_assoc, lex_word (h arg (List.mem_cons_self ..)) hstops,
        lex_moreArgs fun other ho => h other (List.mem_cons_of_mem _ ho)]
      simp [argTokens]
  have hopen : Stops ('(' :: (argsText (args.map String.toList) ++ [')'])) := rfl
  rw [tokens?, callText, bracketed, lex_word hf hopen, lex_open, hargs]
  simp

/-! ## Reading -/

variable {e : Expr} {tokens left : List Token} {n : Nat}

/-- What may follow an expression that stands as an argument, in brackets, as an index or as a rule. -/
def Closes (left : List Token) : Prop :=
  left = [] ∨ (∃ more, left = .mark "," :: more) ∨ (∃ more, left = .mark ")" :: more) ∨ ∃ more, left = .mark "]" :: more

theorem closes_more (args : List String) (left : List Token) : Closes (moreTokens args ++ left) := by
  cases args with
  | nil => exact Or.inr (Or.inr (Or.inl ⟨left, rfl⟩))
  | cons arg args => exact Or.inr (Or.inl ⟨_, rfl⟩)

theorem moreMember_closes (h : Closes left) : moreMember (n + 1) e left = some (e, left) := by
  rcases h with rfl | ⟨more, rfl⟩ | ⟨more, rfl⟩ | ⟨more, rfl⟩ <;> simp [moreMember]

theorem moreProduct_closes (h : Closes left) : moreProduct (n + 1) e left = some (e, left) := by
  rcases h with rfl | ⟨more, rfl⟩ | ⟨more, rfl⟩ | ⟨more, rfl⟩ <;> simp [moreProduct, product?]

theorem moreSum_closes (h : Closes left) : moreSum (n + 1) e left = some (e, left) := by
  rcases h with rfl | ⟨more, rfl⟩ | ⟨more, rfl⟩ | ⟨more, rfl⟩ <;> simp [moreSum, sum?]

theorem moreComparison_closes (h : Closes left) : moreComparison (n + 1) e left = some (e, left) := by
  rcases h with rfl | ⟨more, rfl⟩ | ⟨more, rfl⟩ | ⟨more, rfl⟩ <;> simp [moreComparison, comparison?]

theorem moreBoth_closes (h : Closes left) : moreBoth (n + 1) e left = some (e, left) := by
  rcases h with rfl | ⟨more, rfl⟩ | ⟨more, rfl⟩ | ⟨more, rfl⟩ <;> simp [moreBoth]

theorem moreEither_closes (h : Closes left) : moreEither (n + 1) e left = some (e, left) := by
  rcases h with rfl | ⟨more, rfl⟩ | ⟨more, rfl⟩ | ⟨more, rfl⟩ <;> simp [moreEither]

theorem parseMember_of_simple (h : parseSimple (n + 1) tokens = some (e, left)) (hc : Closes left) :
    parseMember (n + 2) tokens = some (e, left) := by
  rw [parseMember, h]
  exact moreMember_closes hc

theorem parseSigned_of_member {name : String} (h : parseMember n (.name name :: tokens) = some (e, left)) :
    parseSigned (n + 1) (.name name :: tokens) = some (e, left) := by
  simp [parseSigned, h]

theorem parseProduct_of_signed (h : parseSigned (n + 1) tokens = some (e, left)) (hc : Closes left) :
    parseProduct (n + 2) tokens = some (e, left) := by
  rw [parseProduct, h]
  exact moreProduct_closes hc

theorem parseSum_of_product (h : parseProduct (n + 1) tokens = some (e, left)) (hc : Closes left) :
    parseSum (n + 2) tokens = some (e, left) := by
  rw [parseSum, h]
  exact moreSum_closes hc

theorem parseComparison_of_sum (h : parseSum (n + 1) tokens = some (e, left)) (hc : Closes left) :
    parseComparison (n + 2) tokens = some (e, left) := by
  rw [parseComparison, h]
  exact moreComparison_closes hc

theorem parseBoth_of_comparison (h : parseComparison (n + 1) tokens = some (e, left)) (hc : Closes left) :
    parseBoth (n + 2) tokens = some (e, left) := by
  rw [parseBoth, h]
  exact moreBoth_closes hc

theorem parseEither_of_both (h : parseBoth (n + 1) tokens = some (e, left)) (hc : Closes left) :
    parseEither (n + 2) tokens = some (e, left) := by
  rw [parseEither, h]
  exact moreEither_closes hc

theorem parseExpr_of_either (h : parseEither n tokens = some (e, left)) (hc : Closes left) :
    parseExpr (n + 1) tokens = some (e, left) := by
  rw [parseExpr, h]
  rcases hc with rfl | ⟨more, rfl⟩ | ⟨more, rfl⟩ | ⟨more, rfl⟩ <;> rfl

/-- A simple expression that starts with a name and has no operator behind it is an expression. -/
theorem parseExpr_of_simple {name : String} (h : parseSimple (n + 1) (.name name :: tokens) = some (e, left))
    (hc : Closes left) : parseExpr (n + 9) (.name name :: tokens) = some (e, left) := by
  have hsigned := parseSigned_of_member (parseMember_of_simple h hc)
  have hcomparison := parseComparison_of_sum (parseSum_of_product (parseProduct_of_signed hsigned hc) hc) hc
  exact parseExpr_of_either (parseEither_of_both (parseBoth_of_comparison hcomparison hc) hc) hc

theorem literal?_name {name : String} (h : isPlainName name = true) : literal? (.name name) = none := by
  simp only [isPlainName, Bool.and_eq_true, bne_iff_ne] at h
  simp [literal?, h]

theorem parseSimple_name {name : String} (h : isPlainName name = true) :
    parseSimple (n + 1) (.name name :: tokens) = parseNamed n "" (.name name :: tokens) := by
  simp [parseSimple, literal?_name h]

theorem parseExpr_ident {name : String} (h : isPlainName name = true) (hc : Closes left) :
    parseExpr (n + 10) (.name name :: left) = some (.ident name, left) := by
  refine parseExpr_of_simple ?_ hc
  rw [parseSimple_name h]
  rcases hc with rfl | ⟨more, rfl⟩ | ⟨more, rfl⟩ | ⟨more, rfl⟩ <;> simp [parseNamed, afterMessageName?, h]

theorem moreArgs_names (h : ∀ arg ∈ args, isPlainName arg = true) (done : List Expr) (hn : args.length + 11 ≤ n) :
    moreArgs n done (moreTokens args ++ left) = some (done.reverse ++ args.map .ident, left) := by
  induction args generalizing n done with
  | nil =>
    obtain ⟨k, rfl⟩ := Nat.exists_eq_add_of_le hn
    simp [moreArgs, moreTokens, Nat.add_comm _ k]
  | cons arg args ih =>
    obtain ⟨k, rfl⟩ : ∃ k, n = k + 11 := Nat.exists_eq_add_of_le' (by omega)
    have harg := parseExpr_ident (n := k) (h arg (List.mem_cons_self ..)) (closes_more args left)
    have hrest := ih (n := k + 10) (fun other ho => h other (List.mem_cons_of_mem _ ho)) (.ident arg :: done)
      (by rw [List.length_cons] at hn; omega)
    have htokens : moreTokens (arg :: args) ++ left = .mark "," :: .name arg :: (moreTokens args ++ left) := by
      simp [moreTokens]
    rw [htokens, moreArgs]
    simp [harg, hrest]

theorem parseArgs_names (h : ∀ arg ∈ args, isPlainName arg = true) (hn : args.length + 11 ≤ n) :
    parseArgs n (argTokens args ++ left) = some (args.map .ident, left) := by
  obtain ⟨k, rfl⟩ : ∃ k, n = k + 11 := Nat.exists_eq_add_of_le' (by omega)
  cases args with
  | nil => simp [argTokens, parseArgs]
  | cons arg args =>
    have harg := parseExpr_ident (n := k) (h arg (List.mem_cons_self ..)) (closes_more args left)
    have hrest : moreArgs (k + 10) [.ident arg] (moreTokens args ++ left) =
        some (.ident arg :: args.map .ident, left) :=
      moreArgs_names (fun other ho => h other (List.mem_cons_of_mem _ ho)) [.ident arg]
        (by rw [List.length_cons] at hn; omega)
    simp [argTokens, parseArgs, harg, hrest]

theorem length_moreTokens (args : List String) : args.length < (moreTokens args).length := by
  induction args with
  | nil => exact Nat.one_pos
  | cons arg args ih =>
    have htokens : moreTokens (arg :: args) = .mark "," :: .name arg :: moreTokens args := by simp [moreTokens]
    simp only [htokens, List.length_cons]
    omega

theorem length_argTokens (args : List String) : args.length ≤ (argTokens args).length := by
  cases args with
  | nil => exact Nat.zero_le _
  | cons arg args => exact Nat.succ_le_succ (Nat.le_of_lt (length_moreTokens args))

/-- The text of a call is read as the call, unless the call is a form of its own. -/
theorem parse?_call (hf : IsWord function.toList) (hp : isPlainName function = true)
    (h : ∀ arg ∈ args, IsWord arg.toList ∧ isPlainName arg = true)
    (hcall : ofCall function (args.map .ident) = some (.call function (args.map .ident))) :
    parse? (callText function.toList args) = some (.call function (args.map .ident)) := by
  have hargs : ∀ left, afterMessageName? (.name function :: .mark "(" :: left) = none := by
    simp [afterMessageName?, hp]
  have hlength := length_argTokens args
  obtain ⟨k, hk, hfuel⟩ : ∃ k, args.length + 11 ≤ k ∧
      20 * ((argTokens args).length + 1 + 1 + 1) = k + 1 + 1 + 8 := ⟨20 * (argTokens args).length + 50, by omega, by omega⟩
  have hsimple : parseSimple (k + 1 + 1) (.name function :: .mark "(" :: argTokens args) =
      some (.call function (args.map .ident), []) := by
    have hread : parseArgs k (argTokens args ++ []) = some (args.map .ident, []) :=
      parseArgs_names (fun arg ha => (h arg ha).2) hk
    rw [List.append_nil] at hread
    rw [parseSimple_name hp, parseNamed, hargs]
    simp [hp, hread, hcall]
  rw [parse?, tokens?_call hf fun arg ha => (h arg ha).1]
  simp [hfuel, parseExpr_of_simple hsimple (Or.inl rfl)]

/-! ## Evaluating -/

theorem evalArgs_idents {scope : Scope} {data : List Datum} (h : args.map scope.data = data.map some) :
    evalArgs (args.map .ident) scope = data.map .ok := by
  induction args generalizing data with
  | nil =>
    obtain rfl : data = [] := by simpa using h.symm
    rfl
  | cons arg args ih =>
    cases data with
    | nil => cases h
    | cons datum data =>
      obtain ⟨hfirst, hrest⟩ := List.cons.inj h
      rw [List.map_cons, evalArgs, eval, hfirst, ih hrest]
      rfl

theorem eval_call {scope : Scope} {data : List Datum} {answer : Call → Except Fault Datum}
    (hf : scope.functions function = some answer) (h : args.map scope.data = data.map some) :
    eval (.call function (args.map .ident)) scope = answer ⟨function, none, data.map .ok⟩ := by
  have hearly : earlyFault (data.map .ok) = .ok () := by
    match data with
    | [] => rfl
    | [_] => rfl
    | [_, _] => rfl
    | _ :: _ :: _ :: _ => rfl
  rw [eval, evalArgs_idents h]
  simp only [hearly, functionOf, hf]
  rfl

end Rulebook.Expr
