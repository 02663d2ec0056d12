/-
  Rulebook.Proofs.Expr.Extended — expressions with more fuel, and in front of a closing
  bracket.

  What is read of some tokens is read of them too with a closing bracket behind, and with
  more fuel: no level of expressions takes a closing bracket that it has not opened, and
  none looks past one. All levels call each other, so this is one statement for each of
  them (`Extends`), proved for all of them at once along the fuel, with one lemma for each
  level that takes the others one unit below.
  - `Refines.bind`: what two computations have in common goes on through their steps.
  - `parseExpr_nothing`: no expression starts with a comma, or where there is nothing.
  - `parseExpr_append`: the statement for expressions.
-/

import Rulebook.Proofs.Expr.Call

namespace Rulebook.Expr

variable {α β : Type} {k n : Nat} {more tokens left : List Token}

/-! ## Steps in common -/

/-- Where one computation succeeds the other does, with what `extend` makes of its result. -/
def Refines (extend : α → α) (p q : Option α) : Prop := ∀ a, p = some a → q = some (extend a)

theorem Refines.none {extend : α → α} {q : Option α} : Refines extend none q := nofun

theorem Refines.some {extend : α → α} {a : α} {q : Option α} (h : q = some (extend a)) : Refines extend (some a) q := by
  intro b hb
  rw [← Option.some.inj hb, h]

theorem Refines.refl {p : Option α} : Refines id p p := fun _ => id

theorem Refines.bind {extend : α → α} {extend' : β → β} {p q : Option α} {f g : α → Option β} (h : Refines extend p q)
    (hf : ∀ a, Refines extend' (f a) (g (extend a))) : Refines extend' (p >>= f) (q >>= g) := by
  intro b hb
  obtain ⟨a, ha, hfa⟩ := Option.bind_eq_some_iff.mp hb
  exact Option.bind_eq_some_iff.mpr ⟨extend a, h a ha, hf a b hfa⟩

def behind (more : List Token) (read : α × List Token) : α × List Token := (read.1, read.2 ++ more)

/-! ## Where nothing starts -/

def StartsNothing (tokens : List Token) : Prop := tokens = [] ∨ ∃ rest, tokens = .mark "," :: rest

theorem parseSimple_nothing (h : StartsNothing tokens) (n : Nat) : parseSimple n tokens = none := by
  have hnamed : ∀ n rest, parseNamed n "" (.mark "," :: rest) = none := by
    intro n rest
    cases n <;> simp [parseNamed, afterMessageName?]
  cases n with
  | zero => rfl
  | succ n => rcases h with rfl | ⟨rest, rfl⟩ <;> simp [parseSimple, literal?, hnamed]

theorem parseMember_nothing (h : StartsNothing tokens) (n : Nat) : parseMember n tokens = none := by
  cases n <;> simp [parseMember, parseSimple_nothing h]

theorem parseSigned_nothing (h : StartsNothing tokens) (n : Nat) : parseSigned n tokens = none := by
  have hmember := parseMember_nothing h
  cases n with
  | zero => rfl
  | succ n => rcases h with rfl | ⟨rest, rfl⟩ <;> simp [parseSigned, hmember]

theorem parseProduct_nothing (h : StartsNothing tokens) (n : Nat) : parseProduct n tokens = none := by
  cases n <;> simp [parseProduct, parseSigned_nothing h]

theorem parseSum_nothing (h : StartsNothing tokens) (n : Nat) : parseSum n tokens = none := by
  cases n <;> simp [parseSum, parseProduct_nothing h]

theorem parseComparison_nothing (h : StartsNothing tokens) (n : Nat) : parseComparison n tokens = none := by
  cases n <;> simp [parseComparison, parseSum_nothing h]

theorem parseBoth_nothing (h : StartsNothing tokens) (n : Nat) : parseBoth n tokens = none := by
  cases n <;> simp [parseBoth, parseComparison_nothing h]

theorem parseEither_nothing (h : StartsNothing tokens) (n : Nat) : parseEither n tokens = none := by
  cases n <;> simp [parseEither, parseBoth_nothing h]

theorem parseExpr_nothing (h : StartsNothing tokens) (n : Nat) : parseExpr n tokens = none := by
  cases n <;> simp [parseExpr, parseEither_nothing h]

/-! ## One step -/

theorem parseSigned_negate {u : Token} (hu : takesMinus u = false) (ts : List Token) :
    parseSigned (n + 1) (.mark "-" :: u :: ts) =
      (parseMember n ((u :: ts).dropWhile (· == .mark "-")) >>= fun (e, rest) => some (.negate e, rest)) := by
  rw [parseSigned, List.head?_cons, Option.any_some, hu]
  rfl

theorem moreMember_call (e : Expr) (name : String) (ts : List Token) :
    moreMember (n + 1) e (.mark "." :: .name name :: .mark "(" :: ts) =
      if isPlainName name then
        parseArgs n ts >>= fun (args, rest) => ofMethod e name args >>= fun e => moreMember n e rest
      else none := by
  rw [moreMember]

theorem moreMember_name (e : Expr) (name : String) {ts : List Token} (h : ts.head? ≠ some (.mark "(")) :
    moreMember (n + 1) e (.mark "." :: .name name :: ts) =
      if isPlainName name then moreMember n (.member e name) ts else none := by
  rw [moreMember]
  rintro rest rfl
  exact h rfl

theorem parseNamed_message {dot : String} {ts rest : List Token} (h : afterMessageName? ts = some rest) :
    parseNamed (n + 1) dot ts = (parseFields n true rest >>= fun rest => some (.message, rest)) := by
  simp only [parseNamed.eq_def, h]
  rfl

theorem parseNamed_call {dot name : String} {ts : List Token} (h : afterMessageName? (.name name :: .mark "(" :: ts) = none) :
    parseNamed (n + 1) dot (.name name :: .mark "(" :: ts) =
      if isPlainName name then
        parseArgs n ts >>= fun (args, rest) => ofCall (dot ++ name) args >>= fun e => some (e, rest)
      else none := by
  simp only [parseNamed.eq_def, h]
  rfl

theorem parseNamed_ident {dot name : String} {ts : List Token} (h : afterMessageName? (.name name :: ts) = none)
    (hopen : ts.head? ≠ some (.mark "(")) :
    parseNamed (n + 1) dot (.name name :: ts) = if isPlainName name then some (.ident name, ts) else none := by
  simp only [parseNamed.eq_def, h]
  split
  · rename_i heq
    simp only [List.cons.injEq] at heq
    exact absurd (by rw [heq.2]; rfl) hopen
  · rename_i heq
    cases heq
    rfl
  · simp_all

theorem parseArgs_argument {ts : List Token} (h : ∀ rest, ts ≠ .mark ")" :: rest) :
    parseArgs (n + 1) ts = (parseExpr n ts >>= fun (e, rest) => moreArgs n [e] rest) := by
  rw [parseArgs]
  exact h

theorem parseItems_item {ts : List Token} (done : List Expr) (hclose : ∀ rest, ts ≠ .mark "]" :: rest)
    (hcomma : ∀ rest, ts ≠ .mark "," :: .mark "]" :: rest) :
    parseItems (n + 1) done ts = (parseExpr n ts >>= fun (e, rest) =>
      match rest with
      | .mark "," :: rest => parseItems n (e :: done) rest
      | .mark "]" :: rest => some ((e :: done).reverse, rest)
      | _ => none) := by
  rw [parseItems]
  · rfl
  · exact hclose
  · exact hcomma

theorem parseEntries_entry {ts : List Token} (done : List (Expr × Expr)) (hclose : ∀ rest, ts ≠ .mark "\x7d" :: rest)
    (hcomma : ∀ rest, ts ≠ .mark "," :: .mark "\x7d" :: rest) :
    parseEntries (n + 1) done ts = (parseExpr n ts >>= fun (key, rest) =>
      match rest with
      | .mark ":" :: rest => parseExpr n rest >>= fun (value, rest) =>
        match rest with
        | .mark "," :: rest => parseEntries n ((key, value) :: done) rest
        | .mark "\x7d" :: rest => some (((key, value) :: done).reverse, rest)
        | _ => none
      | _ => none) := by
  rw [parseEntries]
  · rfl
  · exact hclose
  · exact hcomma

def namesField : Token → Bool
  | .name name => isPlainName name
  | .quotedName _ => true
  | _ => false

theorem parseFields_field {field : Token} (first : Bool) (hfield : field ≠ .mark "\x7d") (ts : List Token) :
    parseFields (n + 1) first (field :: .mark ":" :: ts) =
      if namesField field then
        parseExpr n ts >>= fun (_, rest) =>
          match rest with
          | .mark "," :: rest => parseFields n false rest
          | .mark "\x7d" :: rest => some rest
          | _ => none
      else none := by
  cases field with
  | name name =>
    rw [parseFields]
    · by_cases hname : isPlainName name = true
      · rw [if_neg (by simp [hname]), namesField, if_pos hname]
        rfl
      · rw [if_pos (by simp [hname]), namesField, if_neg hname]
        rfl
  | quotedName name =>
    rw [parseFields]
    · rfl
  | mark | int | uint | float | string | bytes =>
    rw [parseFields]
    · simp [namesField]
    all_goals simp_all

/-! ## One level from those below -/

/-- With the fuel `n`, every level reads with `more` behind its tokens, and `k` more units, what it reads without. -/
structure Extends (k : Nat) (more : List Token) (n : Nat) : Prop where
  expr : ∀ ts, Refines (behind more) (parseExpr n ts) (parseExpr (k + n) (ts ++ more))
  either : ∀ ts, Refines (behind more) (parseEither n ts) (parseEither (k + n) (ts ++ more))
  eithers : ∀ e ts, Refines (behind more) (moreEither n e ts) (moreEither (k + n) e (ts ++ more))
  both : ∀ ts, Refines (behind more) (parseBoth n ts) (parseBoth (k + n) (ts ++ more))
  boths : ∀ e ts, Refines (behind more) (moreBoth n e ts) (moreBoth (k + n) e (ts ++ more))
  comparison : ∀ ts, Refines (behind more) (parseComparison n ts) (parseComparison (k + n) (ts ++ more))
  comparisons : ∀ e ts, Refines (behind more) (moreComparison n e ts) (moreComparison (k + n) e (ts ++ more))
  sum : ∀ ts, Refines (behind more) (parseSum n ts) (parseSum (k + n) (ts ++ more))
  sums : ∀ e ts, Refines (behind more) (moreSum n e ts) (moreSum (k + n) e (ts ++ more))
  product : ∀ ts, Refines (behind more) (parseProduct n ts) (parseProduct (k + n) (ts ++ more))
  products : ∀ e ts, Refines (behind more) (moreProduct n e ts) (moreProduct (k + n) e (ts ++ more))
  signed : ∀ ts, Refines (behind more) (parseSigned n ts) (parseSigned (k + n) (ts ++ more))
  member : ∀ ts, Refines (behind more) (parseMember n ts) (parseMember (k + n) (ts ++ more))
  members : ∀ e ts, Refines (behind more) (moreMember n e ts) (moreMember (k + n) e (ts ++ more))
  simple : ∀ ts, Refines (behind more) (parseSimple n ts) (parseSimple (k + n) (ts ++ more))
  named : ∀ dot ts, Refines (behind more) (parseNamed n dot ts) (parseNamed (k + n) dot (ts ++ more))
  args : ∀ ts, Refines (behind more) (parseArgs n ts) (parseArgs (k + n) (ts ++ more))
  arguments : ∀ done ts, Refines (behind more) (moreArgs n done ts) (moreArgs (k + n) done (ts ++ more))
  items : ∀ done ts, Refines (behind more) (parseItems n done ts) (parseItems (k + n) done (ts ++ more))
  entries : ∀ done ts, Refines (behind more) (parseEntries n done ts) (parseEntries (k + n) done (ts ++ more))
  fields : ∀ first ts, Refines (· ++ more) (parseFields n first ts) (parseFields (k + n) first (ts ++ more))

/-- No tokens, or some that start with a closing bracket, round or square. -/
inductive Shuts : List Token → Prop where
  | nothing : Shuts []
  | round (left : List Token) : Shuts (.mark ")" :: left)
  | square (left : List Token) : Shuts (.mark "]" :: left)

theorem Shuts.closes (h : Shuts more) : Closes more := by
  cases h with
  | nothing => exact Or.inl rfl
  | round left => exact Or.inr (Or.inr (Or.inl ⟨left, rfl⟩))
  | square left => exact Or.inr (Or.inr (Or.inr ⟨left, rfl⟩))

theorem head?_append_ne {ts : List Token} (hm : Shuts more) (h : ts.head? ≠ some (.mark "(")) :
    (ts ++ more).head? ≠ some (.mark "(") := by
  cases ts with
  | nil => cases hm <;> simp
  | cons t ts => exact h

namespace Extends

variable {ts : List Token} {e : Expr}

theorem zero : Extends k more 0 := by
  constructor <;> intros <;> exact .none

theorem either_succ (h : Extends k more n) (ts : List Token) :
    Refines (behind more) (parseEither (n + 1) ts) (parseEither (k + (n + 1)) (ts ++ more)) :=
  (h.both ts).bind fun (a, rest) => h.eithers a rest

theorem both_succ (h : Extends k more n) (ts : List Token) :
    Refines (behind more) (parseBoth (n + 1) ts) (parseBoth (k + (n + 1)) (ts ++ more)) :=
  (h.comparison ts).bind fun (a, rest) => h.boths a rest

theorem comparison_succ (h : Extends k more n) (ts : List Token) :
    Refines (behind more) (parseComparison (n + 1) ts) (parseComparison (k + (n + 1)) (ts ++ more)) :=
  (h.sum ts).bind fun (a, rest) => h.comparisons a rest

theorem sum_succ (h : Extends k more n) (ts : List Token) :
    Refines (behind more) (parseSum (n + 1) ts) (parseSum (k + (n + 1)) (ts ++ more)) :=
  (h.product ts).bind fun (a, rest) => h.sums a rest

theorem product_succ (h : Extends k more n) (ts : List Token) :
    Refines (behind more) (parseProduct (n + 1) ts) (parseProduct (k + (n + 1)) (ts ++ more)) :=
  (h.signed ts).bind fun (a, rest) => h.products a rest

theorem member_succ (h : Extends k more n) (ts : List Token) :
    Refines (behind more) (parseMember (n + 1) ts) (parseMember (k + (n + 1)) (ts ++ more)) :=
  (h.simple ts).bind fun (e, rest) => h.members e rest

theorem eithers_succ (h : Extends k more n) (hm : Shuts more) (e : Expr) (ts : List Token) :
    Refines (behind more) (moreEither (n + 1) e ts) (moreEither (k + (n + 1)) e (ts ++ more)) := by
  cases ts with
  | nil => exact .some (moreEither_closes hm.closes)
  | cons t ts =>
    by_cases ht : t = .mark "||"
    · subst ht
      exact (h.both ts).bind fun read => h.eithers (.either e read.1) read.2
    · have hother : ∀ n ts, moreEither (n + 1) e (t :: ts) = some (e, t :: ts) := by simp [moreEither, ht]
      rw [hother]
      exact .some (hother _ _)

theorem boths_succ (h : Extends k more n) (hm : Shuts more) (e : Expr) (ts : List Token) :
    Refines (behind more) (moreBoth (n + 1) e ts) (moreBoth (k + (n + 1)) e (ts ++ more)) := by
  cases ts with
  | nil => exact .some (moreBoth_closes hm.closes)
  | cons t ts =>
    by_cases ht : t = .mark "&&"
    · subst ht
      exact (h.comparison ts).bind fun read => h.boths (.both e read.1) read.2
    · have hother : ∀ n ts, moreBoth (n + 1) e (t :: ts) = some (e, t :: ts) := by simp [moreBoth, ht]
      rw [hother]
      exact .some (hother _ _)

theorem comparisons_succ (h : Extends k more n) (hm : Shuts more) (e : Expr) (ts : List Token) :
    Refines (behind more) (moreComparison (n + 1) e ts) (moreComparison (k + (n + 1)) e (ts ++ more)) := by
  cases ts with
  | nil => exact .some (moreComparison_closes hm.closes)
  | cons t ts =>
    rw [List.cons_append, moreComparison, ← Nat.add_assoc, moreComparison]
    cases comparison? t with
    | none => exact .some rfl
    | some op => exact (h.sum ts).bind fun read => h.comparisons (.binary op e read.1) read.2

theorem sums_succ (h : Extends k more n) (hm : Shuts more) (e : Expr) (ts : List Token) :
    Refines (behind more) (moreSum (n + 1) e ts) (moreSum (k + (n + 1)) e (ts ++ more)) := by
  cases ts with
  | nil => exact .some (moreSum_closes hm.closes)
  | cons t ts =>
    rw [List.cons_append, moreSum, ← Nat.add_assoc, moreSum]
    cases sum? t with
    | none => exact .some rfl
    | some op => exact (h.product ts).bind fun read => h.sums (.binary op e read.1) read.2

theorem products_succ (h : Extends k more n) (hm : Shuts more) (e : Expr) (ts : List Token) :
    Refines (behind more) (moreProduct (n + 1) e ts) (moreProduct (k + (n + 1)) e (ts ++ more)) := by
  cases ts with
  | nil => exact .some (moreProduct_closes hm.closes)
  | cons t ts =>
    rw [List.cons_append, moreProduct, ← Nat.add_assoc, moreProduct]
    cases product? t with
    | none => exact .some rfl
    | some op => exact (h.signed ts).bind fun read => h.products (.binary op e read.1) read.2

theorem expr_succ (h : Extends k more n) (hm : Shuts more) (ts : List Token) :
    Refines (behind more) (parseExpr (n + 1) ts) (parseExpr (k + (n + 1)) (ts ++ more)) := by
  refine (h.either ts).bind ?_
  rintro ⟨condition, rest⟩
  cases rest with
  | nil =>
    refine .some ?_
    cases hm <;> rfl
  | cons t rest =>
    by_cases ht : t = .mark "?"
    · subst ht
      refine (h.either rest).bind ?_
      rintro ⟨a, rest⟩
      cases rest with
      | nil => exact .none
      | cons t rest =>
        by_cases ht : t = .mark ":"
        · subst ht
          exact (h.expr rest).bind fun _ => .some rfl
        · simp [behind, ht, Refines]
    · simp [behind, ht, Refines]

theorem dropSigns (h : Extends k more n) (sign : Token) (ts : List Token) :
    Refines (behind more) (parseMember n (ts.dropWhile (· == sign)))
      (parseMember (k + n) ((ts ++ more).dropWhile (· == sign))) := by
  by_cases hall : ts.dropWhile (· == sign) = []
  · rw [hall, parseMember_nothing (Or.inl rfl)]
    exact .none
  · have hdrop : (ts ++ more).dropWhile (· == sign) = ts.dropWhile (· == sign) ++ more := by
      rw [List.dropWhile_append, if_neg (by simpa using hall)]
    rw [hdrop]
    exact h.member _

theorem signed_succ (h : Extends k more n) (ts : List Token) :
    Refines (behind more) (parseSigned (n + 1) ts) (parseSigned (k + (n + 1)) (ts ++ more)) := by
  cases ts with
  | nil =>
    rw [parseSigned_nothing (Or.inl rfl)]
    exact .none
  | cons t ts =>
    by_cases hnot : t = .mark "!"
    · subst hnot
      exact (h.dropSigns (.mark "!") ts).bind fun _ => .some rfl
    by_cases hminus : t = .mark "-"
    · subst hminus
      cases ts with
      | nil =>
        have hnone : parseSigned (n + 1) [.mark "-"] = none := by
          simp [parseSigned, parseMember_nothing (Or.inl rfl)]
        rw [hnone]
        exact .none
      | cons u ts =>
        -- a minus before a number belongs to the number, and is left to the levels below
        cases hu : takesMinus u with
        | true =>
          have hread : ∀ n ts, parseSigned (n + 1) (.mark "-" :: u :: ts) = parseMember n (.mark "-" :: u :: ts) := by
            simp [parseSigned, hu]
          rw [hread]
          exact (hread _ _).symm ▸ h.member (.mark "-" :: u :: ts)
        | false =>
          rw [← Nat.add_assoc, List.cons_append, List.cons_append, parseSigned_negate hu, parseSigned_negate hu]
          exact (h.dropSigns (.mark "-") (u :: ts)).bind fun _ => .some rfl
    · have hread : ∀ n ts, parseSigned (n + 1) (t :: ts) = parseMember n (t :: ts) := by
        intro n ts
        simp [parseSigned, hnot, hminus]
      rw [hread]
      exact (hread _ _).symm ▸ h.member (t :: ts)

theorem dotted_succ (h : Extends k more n) (hm : Shuts more) (e : Expr) (ts : List Token) :
    Refines (behind more) (moreMember (n + 1) e (.mark "." :: ts)) (moreMember (k + (n + 1)) e (.mark "." :: (ts ++ more))) := by
  cases ts with
  | nil => exact .none
  | cons t ts =>
    cases t with
    | name name =>
      rw [List.cons_append, ← Nat.add_assoc]
      by_cases hopen : ts.head? = some (.mark "(")
      · obtain ⟨ts, rfl⟩ := List.head?_eq_some_iff.mp hopen
        rw [List.cons_append, moreMember_call, moreMember_call]
        split
        · exact (h.args ts).bind fun read => .bind .refl fun e => h.members e read.2
        · exact .none
      · rw [moreMember_name e name hopen, moreMember_name e name (head?_append_ne hm hopen)]
        split
        · exact h.members (.member e name) ts
        · exact .none
    | quotedName name => exact h.members (.member e name) ts
    | mark | int | uint | float | string | bytes => exact .none

theorem members_succ (h : Extends k more n) (hm : Shuts more) (e : Expr) (ts : List Token) :
    Refines (behind more) (moreMember (n + 1) e ts) (moreMember (k + (n + 1)) e (ts ++ more)) := by
  cases ts with
  | nil => exact .some (moreMember_closes hm.closes)
  | cons t ts =>
    by_cases hdot : t = .mark "."
    · subst hdot
      exact h.dotted_succ hm e ts
    by_cases hopen : t = .mark "["
    · subst hopen
      refine (h.expr ts).bind ?_
      rintro ⟨index, rest⟩
      cases rest with
      | nil => exact .none
      | cons u rest =>
        by_cases hu : u = .mark "]"
        · subst hu
          exact h.members (.item e index) rest
        · simp [behind, hu, Refines]
    · have hother : ∀ n ts, moreMember (n + 1) e (t :: ts) = some (e, t :: ts) := by simp [moreMember, hdot, hopen]
      rw [hother]
      exact .some (hother _ _)

/-- The name of a message is not completed by a closing bracket. -/
theorem afterMessageName?_append (hm : Shuts more) (ts : List Token) :
    afterMessageName? (ts ++ more) = (afterMessageName? ts).map (· ++ more) := by
  fun_induction afterMessageName? ts with
  | case1 name hname rest ih => simp [afterMessageName?, hname, ih]
  | case2 name hname rest => simp [afterMessageName?, hname]
  | case3 name rest hname hdot hbrace =>
    cases rest with
    | nil => cases hm <;> simp [afterMessageName?]
    | cons t rest => simp_all [afterMessageName?]
  | case4 name rest hname =>
    rw [List.cons_append, afterMessageName?.eq_def]
    simp [hname]
  | case5 ts hname =>
    cases ts with
    | nil => cases hm <;> simp [afterMessageName?]
    | cons t rest => simp_all [afterMessageName?]

theorem named_succ (h : Extends k more n) (hm : Shuts more) (dot : String) (ts : List Token) :
    Refines (behind more) (parseNamed (n + 1) dot ts) (parseNamed (k + (n + 1)) dot (ts ++ more)) := by
  have hmessage := afterMessageName?_append hm ts
  cases hname : afterMessageName? ts with
  | some rest =>
    rw [hname] at hmessage
    rw [← Nat.add_assoc, parseNamed_message hname, parseNamed_message hmessage]
    exact (h.fields true rest).bind fun rest => .some rfl
  | none =>
    rw [hname] at hmessage
    cases ts with
    | nil =>
      have hnone : parseNamed (n + 1) dot [] = none := by simp [parseNamed, afterMessageName?]
      rw [hnone]
      exact .none
    | cons t ts =>
      cases t with
      | name name =>
        rw [List.cons_append] at hmessage ⊢
        rw [← Nat.add_assoc]
        by_cases hopen : ts.head? = some (.mark "(")
        · obtain ⟨ts, rfl⟩ := List.head?_eq_some_iff.mp hopen
          rw [List.cons_append] at hmessage ⊢
          rw [parseNamed_call hname, parseNamed_call hmessage]
          split
          · exact (h.args ts).bind fun _ => .bind .refl fun _ => .some rfl
          · exact .none
        · rw [parseNamed_ident hname hopen, parseNamed_ident hmessage (head?_append_ne hm hopen)]
          split
          · exact .some rfl
          · exact .none
      | quotedName | mark | int | uint | float | string | bytes =>
        simp only [parseNamed, hname]
        exact .none

theorem simple_succ (h : Extends k more n) (ts : List Token) :
    Refines (behind more) (parseSimple (n + 1) ts) (parseSimple (k + (n + 1)) (ts ++ more)) := by
  cases ts with
  | nil => exact .none
  | cons t ts =>
    by_cases hround : t = .mark "("
    · subst hround
      refine (h.expr ts).bind ?_
      rintro ⟨e, rest⟩
      cases rest with
      | nil => exact .none
      | cons u rest =>
        by_cases hu : u = .mark ")"
        · subst hu
          exact .some rfl
        · simp [behind, hu, Refines]
    by_cases hsquare : t = .mark "["
    · subst hsquare
      exact (h.items [] ts).bind fun _ => .some rfl
    by_cases hbrace : t = .mark "\x7b"
    · subst hbrace
      exact (h.entries [] ts).bind fun _ => .some rfl
    by_cases hdot : t = .mark "."
    · subst hdot
      exact h.named "." ts
    by_cases hminus : t = .mark "-"
    · subst hminus
      cases ts with
      | nil =>
        have hnone : parseSimple (n + 1) [.mark "-"] = none := by
          cases n <;> simp [parseSimple, literal?, parseNamed, afterMessageName?]
        rw [hnone]
        exact .none
      | cons number ts =>
        have hread : ∀ n ts, parseSimple (n + 1) (.mark "-" :: number :: ts) = (negative? number).map fun e => (e, ts) := by
          intro n ts
          rw [parseSimple]
        rw [← Nat.add_assoc, List.cons_append, List.cons_append, hread, hread]
        cases negative? number with
        | none => exact .none
        | some e => exact .some rfl
    · have hread : ∀ n ts, parseSimple (n + 1) (t :: ts) =
          ((literal? t).map fun e => (e, ts)).or (parseNamed n "" (t :: ts)) := by
        intro n ts
        cases hl : literal? t <;> simp [parseSimple, hminus, hl]
      rw [← Nat.add_assoc, List.cons_append, hread, hread]
      cases literal? t with
      | some e => exact .some rfl
      | none => exact h.named "" (t :: ts)

theorem args_succ (h : Extends k more n) (ts : List Token) :
    Refines (behind more) (parseArgs (n + 1) ts) (parseArgs (k + (n + 1)) (ts ++ more)) := by
  cases ts with
  | nil =>
    have hnone : parseArgs (n + 1) [] = none := by simp [parseArgs, parseExpr_nothing (Or.inl rfl)]
    rw [hnone]
    exact .none
  | cons t ts =>
    by_cases ht : t = .mark ")"
    · subst ht
      exact .some rfl
    · have hopen : ∀ more rest, t :: more ≠ .mark ")" :: rest := by simp [ht]
      rw [← Nat.add_assoc, List.cons_append, parseArgs_argument (hopen _), parseArgs_argument (hopen _)]
      exact (h.expr (t :: ts)).bind fun read => h.arguments [read.1] read.2

theorem arguments_succ (h : Extends k more n) (done : List Expr) (ts : List Token) :
    Refines (behind more) (moreArgs (n + 1) done ts) (moreArgs (k + (n + 1)) done (ts ++ more)) := by
  cases ts with
  | nil => exact .none
  | cons t ts =>
    by_cases hclose : t = .mark ")"
    · subst hclose
      exact .some rfl
    by_cases hcomma : t = .mark ","
    · subst hcomma
      exact (h.expr ts).bind fun read => h.arguments (read.1 :: done) read.2
    · have hnone : moreArgs (n + 1) done (t :: ts) = none := by simp [moreArgs, hclose, hcomma]
      rw [hnone]
      exact .none

theorem items_succ (h : Extends k more n) (done : List Expr) (ts : List Token) :
    Refines (behind more) (parseItems (n + 1) done ts) (parseItems (k + (n + 1)) done (ts ++ more)) := by
  cases ts with
  | nil =>
    rw [parseItems_item done (by simp) (by simp), parseExpr_nothing (Or.inl rfl)]
    exact .none
  | cons t ts =>
    by_cases hclose : t = .mark "]"
    · subst hclose
      exact .some rfl
    by_cases hcomma : t = .mark ","
    · subst hcomma
      by_cases hend : ts.head? = some (.mark "]")
      · obtain ⟨ts, rfl⟩ := List.head?_eq_some_iff.mp hend
        rw [← Nat.add_assoc, List.cons_append, List.cons_append, parseItems, parseItems]
        split
        · exact .some rfl
        · exact .none
      · -- such a comma might end a list in front of a bracket, but alone nothing is read of it
        rw [parseItems_item done (by simp) (by rintro rest ⟨⟩; exact hend rfl), parseExpr_nothing (Or.inr ⟨ts, rfl⟩)]
        exact .none
    · have hread : ∀ n ts, parseItems (n + 1) done (t :: ts) = _ := fun n ts =>
        parseItems_item done (by simp [hclose]) (by simp [hcomma])
      rw [← Nat.add_assoc, List.cons_append, hread, hread]
      refine (h.expr (t :: ts)).bind ?_
      rintro ⟨e, rest⟩
      cases rest with
      | nil => exact .none
      | cons u rest =>
        by_cases hcomma : u = .mark ","
        · subst hcomma
          exact h.items (e :: done) rest
        by_cases hclose : u = .mark "]"
        · subst hclose
          exact .some rfl
        · simp [behind, hcomma, hclose, Refines]

theorem entries_succ (h : Extends k more n) (done : List (Expr × Expr)) (ts : List Token) :
    Refines (behind more) (parseEntries (n + 1) done ts) (parseEntries (k + (n + 1)) done (ts ++ more)) := by
  cases ts with
  | nil =>
    rw [parseEntries_entry done (by simp) (by simp), parseExpr_nothing (Or.inl rfl)]
    exact .none
  | cons t ts =>
    by_cases hclose : t = .mark "\x7d"
    · subst hclose
      exact .some rfl
    by_cases hcomma : t = .mark ","
    · subst hcomma
      by_cases hend : ts.head? = some (.mark "\x7d")
      · obtain ⟨ts, rfl⟩ := List.head?_eq_some_iff.mp hend
        rw [← Nat.add_assoc, List.cons_append, List.cons_append, parseEntries, parseEntries]
        split
        · exact .some rfl
        · exact .none
      · rw [parseEntries_entry done (by simp) (by rintro rest ⟨⟩; exact hend rfl), parseExpr_nothing (Or.inr ⟨ts, rfl⟩)]
        exact .none
    · have hread : ∀ n ts, parseEntries (n + 1) done (t :: ts) = _ := fun n ts =>
        parseEntries_entry done (by simp [hclose]) (by simp [hcomma])
      rw [← Nat.add_assoc, List.cons_append, hread, hread]
      refine (h.expr (t :: ts)).bind ?_
      rintro ⟨key, rest⟩
      cases rest with
      | nil => exact .none
      | cons u rest =>
        by_cases hcolon : u = .mark ":"
        · subst hcolon
          refine (h.expr rest).bind ?_
          rintro ⟨value, rest⟩
          cases rest with
          | nil => exact .none
          | cons u rest =>
            by_cases hcomma : u = .mark ","
            · subst hcomma
              exact h.entries ((key, value) :: done) rest
            by_cases hclose : u = .mark "\x7d"
            · subst hclose
              exact .some rfl
            · simp [behind, hcomma, hclose, Refines]
        · simp [behind, hcolon, Refines]

theorem fields_succ (h : Extends k more n) (first : Bool) (ts : List Token) :
    Refines (· ++ more) (parseFields (n + 1) first ts) (parseFields (k + (n + 1)) first (ts ++ more)) := by
  cases ts with
  | nil => exact .none
  | cons t ts =>
    by_cases hclose : t = .mark "\x7d"
    · subst hclose
      exact .some rfl
    cases ts with
    | nil =>
      have hnone : parseFields (n + 1) first [t] = none := by simp [parseFields, hclose]
      rw [hnone]
      exact .none
    | cons u ts =>
      by_cases hcolon : u = .mark ":"
      · subst hcolon
        rw [← Nat.add_assoc, List.cons_append, List.cons_append, parseFields_field first hclose,
          parseFields_field first hclose]
        split
        · refine (h.expr ts).bind ?_
          rintro ⟨value, rest⟩
          cases rest with
          | nil => exact .none
          | cons u rest =>
            by_cases hcomma : u = .mark ","
            · subst hcomma
              exact h.fields false rest
            by_cases hend : u = .mark "\x7d"
            · subst hend
              exact .some rfl
            · simp [behind, hcomma, hend, Refines]
        · exact .none
      by_cases hend : t = .mark "," ∧ u = .mark "\x7d"
      · obtain ⟨rfl, rfl⟩ := hend
        rw [← Nat.add_assoc, List.cons_append, List.cons_append, parseFields, parseFields]
        split
        · exact .some rfl
        · exact .none
      · have hnone : parseFields (n + 1) first (t :: u :: ts) = none := by simp_all [parseFields]
        rw [hnone]
        exact .none

theorem succ (h : Extends k more n) (hm : Shuts more) : Extends k more (n + 1) where
  expr := h.expr_succ hm
  either := h.either_succ
  eithers := h.eithers_succ hm
  both := h.both_succ
  boths := h.boths_succ hm
  comparison := h.comparison_succ
  comparisons := h.comparisons_succ hm
  sum := h.sum_succ
  sums := h.sums_succ hm
  product := h.product_succ
  products := h.products_succ hm
  signed := h.signed_succ
  member := h.member_succ
  members := h.members_succ hm
  simple := h.simple_succ
  named := h.named_succ hm
  args := h.args_succ
  arguments := h.arguments_succ
  items := h.items_succ
  entries := h.entries_succ
  fields := h.fields_succ

theorem all (hm : Shuts more) (n : Nat) : Extends k more n := by
  induction n with
  | zero => exact zero
  | succ n ih => exact ih.succ hm

end Extends

/-- An expression is read as well with more fuel, and in front of a closing bracket. -/
theorem parseExpr_append {e : Expr} (h : parseExpr n tokens = some (e, left)) (hm : Shuts more) (k : Nat) :
    parseExpr (k + n) (tokens ++ more) = some (e, left ++ more) :=
  (Extends.all hm n).expr tokens (e, left) h

end Rulebook.Expr
