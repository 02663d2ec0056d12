/-
  Rulebook.Json.Leaf — where the leaves of a tree come from.

  Scalars and strings come into a tree from the tokens of its text and from nowhere else:
  what has been read, and what waits for the value that is being read, is made of tokens
  of the text at every step (`madeOf_read`). So the tree of a text is made of its tokens.
  - `madeOf_ofSymbols`: what holds for the tokens of a text holds for its tree.
  - `longest_ofText`: a string in the tree of a text is shorter than the text.
-/

import Rulebook.Json.Tree

namespace Rulebook.Json

/-- Induction on a tree, with the statement for each item of a list and each member of an object. -/
@[elab_as_elim, induction_eliminator]
theorem Tree.induct {motive : Tree → Prop} (scalar : ∀ s, motive (.scalar s)) (text : ∀ s, motive (.text s))
    (flawed : ∀ flaw, motive (.flawed flaw))
    (list : ∀ items ending, (∀ item ∈ items, motive item) → motive (.list items ending))
    (object : ∀ members ending, (∀ member ∈ members, motive member.2) → motive (.object members ending))
    (tree : Tree) : motive tree :=
  @Tree.rec motive (fun items => ∀ item ∈ items, motive item) (fun members => ∀ member ∈ members, motive member.2)
    (fun member => motive member.2) scalar text flawed (fun items ending h => list items ending h)
    (fun members ending h => object members ending h) (by simp)
    (fun item items hitem hitems => List.forall_mem_cons.mpr ⟨hitem, hitems⟩) (by simp)
    (fun member members hmember hmembers => List.forall_mem_cons.mpr ⟨hmember, hmembers⟩)
    (fun _ _ h => h) tree

variable {p : Token → Prop} {flaw : Flaw} {stack : List Frame}

/-! ## Trees that are made of tokens -/

/-- Trees whose scalars and strings are tokens of a kind. -/
inductive Tree.MadeOf (p : Token → Prop) : Tree → Prop where
  | scalar {s : Scalar} (token : p (.scalar (.ok s))) : MadeOf p (.scalar s)
  | text {s : String} (token : p (.text (.ok s))) : MadeOf p (.text s)
  | flawed (flaw : Flaw) : MadeOf p (.flawed flaw)
  | list {items : List Tree} {ending : Option Flaw} (parts : ∀ item ∈ items, MadeOf p item) :
    MadeOf p (.list items ending)
  | object {members : List Member} {ending : Option Flaw} (parts : ∀ member ∈ members, MadeOf p member.2) :
    MadeOf p (.object members ending)

def Next.MadeOf (p : Token → Prop) : Next → Prop
  | .nextName done => ∀ member ∈ done, member.2.MadeOf p
  | .colon done _ => ∀ member ∈ done, member.2.MadeOf p
  | .after tree => tree.MadeOf p
  | _ => True

def Frame.MadeOf (p : Token → Prop) : Frame → Prop
  | .item done => ∀ item ∈ done, item.MadeOf p
  | .member done _ => ∀ member ∈ done, member.2.MadeOf p

theorem Tree.MadeOf.reverse_list {done : List Tree} (h : ∀ item ∈ done, item.MadeOf p) {ending : Option Flaw} :
    (Tree.list done.reverse ending).MadeOf p :=
  .list fun item hi => h item (List.mem_reverse.mp hi)

theorem Tree.MadeOf.reverse_object {done : List Member} (h : ∀ member ∈ done, member.2.MadeOf p) {ending : Option Flaw} :
    (Tree.object done.reverse ending).MadeOf p :=
  .object fun member hm => h member (List.mem_reverse.mp hm)

theorem Tree.MadeOf.close {tree : Tree} (h : tree.MadeOf p) (hstack : ∀ frame ∈ stack, frame.MadeOf p) :
    (tree.close flaw stack).MadeOf p := by
  induction stack generalizing tree with
  | nil => exact h
  | cons frame stack ih =>
    obtain ⟨hframe, hrest⟩ := List.forall_mem_cons.mp hstack
    cases frame with
    | item done => exact ih (.reverse_list (List.forall_mem_cons.mpr ⟨h, hframe⟩)) hrest
    | member done name => exact ih (.reverse_object (List.forall_mem_cons.mpr ⟨h, hframe⟩)) hrest

theorem madeOf_stop (hstack : ∀ frame ∈ stack, frame.MadeOf p) : (Document.stop flaw stack).root.MadeOf p :=
  (Tree.MadeOf.flawed flaw).close hstack

theorem madeOf_stopList {done : List Tree} (hdone : ∀ item ∈ done, item.MadeOf p)
    (hstack : ∀ frame ∈ stack, frame.MadeOf p) : (Document.stopList flaw done stack).root.MadeOf p :=
  (Tree.MadeOf.reverse_list hdone).close hstack

theorem madeOf_stopObject {done : List Member} (hdone : ∀ member ∈ done, member.2.MadeOf p)
    (hstack : ∀ frame ∈ stack, frame.MadeOf p) : (Document.stopObject flaw done stack).root.MadeOf p :=
  (Tree.MadeOf.reverse_object hdone).close hstack

theorem madeOf_ofToken? {token : Token} {next : Next} (htoken : p token) (h : Next.ofToken? token = some next) :
    next.MadeOf p := by
  unfold Next.ofToken? at h
  split at h
  all_goals cases h
  · trivial
  · trivial
  · exact .text htoken
  · exact .flawed _
  · exact .scalar htoken
  · exact .flawed _

/-- What is read stays made of tokens of a kind, if all tokens are of that kind. -/
theorem madeOf_read {ts : List Token} (hts : ∀ token ∈ ts, p token) {next : Next} (hnext : next.MadeOf p)
    (hstack : ∀ frame ∈ stack, frame.MadeOf p) : (Document.read ts next stack).root.MadeOf p := by
  fun_induction Document.read ts next stack with
  | case1 | case3 | case11 | case17 => exact madeOf_stop hstack
  | case2 => exact madeOf_stopList (List.forall_mem_nil _) hstack
  | case4 | case20 => exact madeOf_stopObject (List.forall_mem_nil _) hstack
  | case5 | case21 | case23 => exact madeOf_stopObject hnext hstack
  | case6 | case25 => exact madeOf_stop (List.forall_mem_cons.mpr ⟨hnext, hstack⟩)
  | case7 | case26 => exact hnext
  | case8 | case29 =>
    obtain ⟨hframe, hrest⟩ := List.forall_mem_cons.mp hstack
    exact madeOf_stopList (List.forall_mem_cons.mpr ⟨hnext, hframe⟩) hrest
  | case9 | case32 =>
    obtain ⟨hframe, hrest⟩ := List.forall_mem_cons.mp hstack
    exact madeOf_stopObject (List.forall_mem_cons.mpr ⟨hnext, hframe⟩) hrest
  | case10 token rest stack next hof ih =>
    obtain ⟨htoken, hrest⟩ := List.forall_mem_cons.mp hts
    exact ih hrest (madeOf_ofToken? htoken hof) hstack
  | case12 rest stack ih => exact ih (List.forall_mem_cons.mp hts).2 (.list (List.forall_mem_nil _)) hstack
  | case13 token rest stack hclose next hof ih =>
    obtain ⟨htoken, hrest⟩ := List.forall_mem_cons.mp hts
    exact ih hrest (madeOf_ofToken? htoken hof) (List.forall_mem_cons.mpr ⟨List.forall_mem_nil _, hstack⟩)
  | case14 => exact madeOf_stop (List.forall_mem_cons.mpr ⟨List.forall_mem_nil _, hstack⟩)
  | case15 =>
    obtain ⟨hframe, hrest⟩ := List.forall_mem_cons.mp hstack
    exact madeOf_stopList hframe hrest
  | case16 token rest stack hclose next hof ih =>
    obtain ⟨htoken, hrest⟩ := List.forall_mem_cons.mp hts
    exact ih hrest (madeOf_ofToken? htoken hof) hstack
  | case18 rest stack ih => exact ih (List.forall_mem_cons.mp hts).2 (.object (List.forall_mem_nil _)) hstack
  | case19 rest stack name ih => exact ih (List.forall_mem_cons.mp hts).2 (List.forall_mem_nil _) hstack
  | case22 rest done stack name ih => exact ih (List.forall_mem_cons.mp hts).2 hnext hstack
  | case24 rest done name stack ih =>
    exact ih (List.forall_mem_cons.mp hts).2 trivial (List.forall_mem_cons.mpr ⟨hnext, hstack⟩)
  | case27 rest tree done stack ih =>
    obtain ⟨hframe, hrest⟩ := List.forall_mem_cons.mp hstack
    have hitem : (Frame.item (tree :: done)).MadeOf p := List.forall_mem_cons.mpr ⟨hnext, hframe⟩
    exact ih (List.forall_mem_cons.mp hts).2 trivial (List.forall_mem_cons.mpr ⟨hitem, hrest⟩)
  | case28 rest tree done stack ih =>
    obtain ⟨hframe, hrest⟩ := List.forall_mem_cons.mp hstack
    exact ih (List.forall_mem_cons.mp hts).2 (.reverse_list (List.forall_mem_cons.mpr ⟨hnext, hframe⟩)) hrest
  | case30 rest tree done name stack ih =>
    obtain ⟨hframe, hrest⟩ := List.forall_mem_cons.mp hstack
    have hmembers : ∀ member ∈ (name, tree) :: done, member.2.MadeOf p := List.forall_mem_cons.mpr ⟨hnext, hframe⟩
    exact ih (List.forall_mem_cons.mp hts).2 hmembers hrest
  | case31 rest tree done name stack ih =>
    obtain ⟨hframe, hrest⟩ := List.forall_mem_cons.mp hstack
    have hmembers : ∀ member ∈ (name, tree) :: done, member.2.MadeOf p := List.forall_mem_cons.mpr ⟨hnext, hframe⟩
    exact ih (List.forall_mem_cons.mp hts).2 (.reverse_object hmembers) hrest

/-- What holds for the tokens of a text holds for the scalars and strings of its tree, also where the text is broken. -/
theorem madeOf_ofSymbols {text : List Symbol} (h : ∀ token ∈ tokens text, p token) :
    (Document.ofSymbols text).root.MadeOf p :=
  madeOf_read h trivial (List.forall_mem_nil _)

/-! ## The length of strings -/

mutual
/-- One more than the length of the longest string, or nothing if there is none. -/
def Tree.longest : Tree → Nat
  | .text s => s.length + 1
  | .list items _ => Tree.longestItem items
  | .object members _ => Tree.longestMember members
  | _ => 0
def Tree.longestItem : List Tree → Nat
  | [] => 0
  | item :: rest => max item.longest (Tree.longestItem rest)
def Tree.longestMember : List (Except Flaw String × Tree) → Nat
  | [] => 0
  | member :: rest => max member.2.longest (Tree.longestMember rest)
end

/-- A token that is a string shorter than a number, or no string. -/
def Token.ShorterThan (n : Nat) (token : Token) : Prop := ∀ s, token = .text (.ok s) → s.length < n

theorem Tree.MadeOf.longest_le {n : Nat} {tree : Tree} (h : tree.MadeOf (Token.ShorterThan n)) : tree.longest ≤ n := by
  induction tree with
  | scalar s => exact Nat.zero_le n
  | text s =>
    cases h with
    | text token => exact token s rfl
  | flawed flaw => exact Nat.zero_le n
  | list items ending ih =>
    cases h with
    | list parts =>
      rw [longest]
      induction items with
      | nil => exact Nat.zero_le n
      | cons item rest ihr =>
        obtain ⟨hitem, hrest⟩ := List.forall_mem_cons.mp parts
        obtain ⟨ihitem, ihrest⟩ := List.forall_mem_cons.mp ih
        exact Nat.max_le.mpr ⟨ihitem hitem, ihr ihrest hrest⟩
  | object members ending ih =>
    cases h with
    | object parts =>
      rw [longest]
      induction members with
      | nil => exact Nat.zero_le n
      | cons member rest ihr =>
        obtain ⟨hmember, hrest⟩ := List.forall_mem_cons.mp parts
        obtain ⟨ihmember, ihrest⟩ := List.forall_mem_cons.mp ih
        exact Nat.max_le.mpr ⟨ihmember hmember, ihr ihrest hrest⟩

/-- The characters of a string are read from as many symbols at least, and its closing quote from one more. -/
theorem scanText_length_lt {done : List Char} {fault : Option Fault} {stray : Bool} {text : List Symbol} {s : String}
    (h : (scanText done fault stray text).1 = .ok s) : s.length < done.length + text.length := by
  fun_induction scanText done fault stray text with
  | case1 | case3 | case4 | case6 | case7 | case10 | case12 | case13 => cases h
  | case2 done fault stray rest ih =>
    have := ih h
    simp only [List.length_cons]
    omega
  | case5 done rest =>
    obtain rfl := Except.ok.inj h
    simp
  | case8 =>
    rename_i hu _ ih
    have hrest := ih h
    have hmore := Unit16.ofNumber_length_le hu
    simp only [List.length_cons, List.length_drop] at *
    omega
  | case9 =>
    rename_i ih
    have hrest := ih h
    simp only [List.length_cons, List.length_drop] at *
    omega
  | case11 =>
    rename_i ih
    have hrest := ih h
    simp only [List.length_cons] at *
    omega
  | case14 =>
    rename_i ih
    have hrest := ih h
    simp only [List.length_cons] at *
    omega

theorem Token.mark?_ne_text {c : Char} {content : Except Flaw String} : Token.mark? c ≠ some (.text content) := by
  unfold Token.mark?
  repeat' split
  all_goals simp

theorem scanNumber_ne_text {negative : Bool} {text : List Symbol} {content : Except Flaw String} :
    (scanNumber negative text).1 ≠ .text content := by
  unfold scanNumber
  split
  · simp
  · split <;> simp

theorem scanIdent_ne_text {scalar : Scalar} {expected : List Char} {text : List Symbol} {content : Except Flaw String} :
    (scanIdent scalar expected text).1 ≠ .text content := by
  fun_induction scanIdent scalar expected text with
  | case3 _ _ _ ih => exact ih
  | _ => simp

theorem Token.word_ne_text {c : Char} {rest : List Symbol} {content : Except Flaw String} :
    (Token.word c rest).1 ≠ .text content := by
  unfold Token.word
  split
  · exact scanIdent_ne_text
  split
  · exact scanIdent_ne_text
  split
  · exact scanIdent_ne_text
  · simp

theorem Token.shorterThan_next (c : Char) (rest : List Symbol) : (Token.next c rest).1.ShorterThan rest.length := by
  intro s hs
  unfold Token.next at hs
  split at hs
  · rename_i mark hmark
    exact absurd (hmark.trans (congrArg some hs)) Token.mark?_ne_text
  split at hs
  · have htext := scanText_length_lt (Token.text.inj hs)
    simpa using htext
  split at hs
  · exact absurd hs scanNumber_ne_text
  split at hs
  · exact absurd hs scanNumber_ne_text
  · exact absurd hs Token.word_ne_text

/-- A string in a text is shorter than the text. -/
theorem shorterThan_tokens {n : Nat} {text : List Symbol} (h : text.length ≤ n) :
    ∀ token ∈ tokens text, token.ShorterThan n := by
  fun_induction tokens text with
  | case1 => exact List.forall_mem_nil _
  | case2 rest =>
    intro token ht
    obtain rfl := List.mem_singleton.mp ht
    exact nofun
  | case3 c rest hspace ih => exact ih (by simp only [List.length_cons] at h; omega)
  | case4 c rest hspace ih =>
    have hrest := Token.next_length_le c rest
    simp only [List.length_cons] at h
    refine List.forall_mem_cons.mpr ⟨fun s hs => ?_, ih (by omega)⟩
    have hshorter := Token.shorterThan_next c rest s hs
    omega

theorem longest_ofText (text : String) : (Document.ofText text).root.longest ≤ text.length := by
  refine Tree.MadeOf.longest_le (madeOf_ofSymbols (shorterThan_tokens (Nat.le_of_eq ?_)))
  rw [List.length_map, String.length_toList]

end Rulebook.Json
