/-
  Rulebook.Proofs.Json.Tree — data that is written is read as the same data.

  Both forms of a text are cut into the same tokens (`marks`): they differ in blanks only,
  and behind a value stands a comma, a bracket, a brace, a line break or nothing, none of
  which goes on with a number. Those tokens are read as one value, whatever waits for it
  (`isRead`): by induction on the data, an item of a list leaves the list waiting for
  the next one, a member of an object the object.
  - `isCut_compact`, `isCut_indented`: the two forms are cut into the same tokens.
  - `ofText_toText`, `ofText_indented`, `ofText_toIndented`: both are read as the tree of the data.
-/

import Rulebook.Proofs.Json.Token

namespace Rulebook.Json

/-- Induction on data, with the statement for each item of a list and each member of an object. -/
@[elab_as_elim, induction_eliminator]
theorem induct {motive : Json → Prop} (null : motive .null) (boolean : ∀ b, motive (.boolean b))
    (number : ∀ n, motive (.number n)) (string : ∀ text, motive (.string text))
    (list : ∀ items, (∀ item ∈ items, motive item) → motive (.list items))
    (object : ∀ members, (∀ member ∈ members, motive member.2) → motive (.object members)) (json : Json) :
    motive json :=
  @Json.rec motive (fun items => ∀ item ∈ items, motive item) (fun members => ∀ member ∈ members, motive member.2)
    (fun member => motive member.2) null boolean number string list object (by simp)
    (fun item items hitem hitems => List.forall_mem_cons.mpr ⟨hitem, hitems⟩) (by simp)
    (fun member members hmember hmembers => List.forall_mem_cons.mpr ⟨hmember, hmembers⟩)
    (fun _ _ h => h) json

mutual
def numbers : Json → List Number
  | .number n => [n]
  | .list items => itemNumbers items
  | .object members => memberNumbers members
  | _ => []
def itemNumbers : List Json → List Number
  | [] => []
  | item :: rest => item.numbers ++ itemNumbers rest
def memberNumbers : List (String × Json) → List Number
  | [] => []
  | member :: rest => member.2.numbers ++ memberNumbers rest
end

mutual
/-- The tokens in which data is written. -/
def marks : Json → List Token
  | .null => [.scalar (.ok .null)]
  | .boolean b => [.scalar (.ok (.boolean b))]
  | .number n => [.scalar (.ok (reread n))]
  | .string text => [.text (.ok text)]
  | .list items => .openList :: (itemMarks items ++ [.closeList])
  | .object members => .openObject :: (memberMarks members ++ [.closeObject])
def itemMarks : List Json → List Token
  | [] => []
  | [item] => item.marks
  | item :: rest => item.marks ++ .comma :: itemMarks rest
def memberMarks : List (String × Json) → List Token
  | [] => []
  | [member] => .text (.ok member.1) :: .colon :: member.2.marks
  | member :: rest => .text (.ok member.1) :: .colon :: (member.2.marks ++ .comma :: memberMarks rest)
end

mutual
/-- The tree that data is read as where it has been written. -/
def tree : Json → Tree
  | .null => .scalar .null
  | .boolean b => .scalar (.boolean b)
  | .number n => .scalar (reread n)
  | .string text => .text text
  | .list items => .list (itemTrees items) none
  | .object members => .object (memberTrees members) none
def itemTrees : List Json → List Tree
  | [] => []
  | item :: rest => item.tree :: itemTrees rest
def memberTrees : List (String × Json) → List (Except Flaw String × Tree)
  | [] => []
  | member :: rest => (.ok member.1, member.2.tree) :: memberTrees rest
end

/-! ## Reading tokens -/

theorem read_value {token : Token} {next : Next} (h : Next.ofToken? token = some next) (rest : List Token)
    (stack : List Frame) : Document.read (token :: rest) .value stack = Document.read rest next stack := by
  simp only [Document.read, h]

theorem read_firstItem {token : Token} {next : Next} (h : Next.ofToken? token = some next) (rest : List Token)
    (stack : List Frame) :
    Document.read (token :: rest) .firstItem stack = Document.read (token :: rest) .value (.item [] :: stack) := by
  rw [read_value h]
  cases token <;> simp_all [Document.read, Next.ofToken?]

theorem read_nextItem {token : Token} {next : Next} (h : Next.ofToken? token = some next) (rest : List Token)
    (stack : List Frame) :
    Document.read (token :: rest) .nextItem stack = Document.read (token :: rest) .value stack := by
  rw [read_value h]
  cases token <;> simp_all [Document.read, Next.ofToken?]

theorem marks_eq_cons (json : Json) :
    ∃ token rest next, json.marks = token :: rest ∧ Next.ofToken? token = some next := by
  cases json with
  | null => exact ⟨_, _, _, rfl, rfl⟩
  | boolean b => exact ⟨_, _, _, rfl, rfl⟩
  | number n => exact ⟨_, _, _, rfl, rfl⟩
  | string text => exact ⟨_, _, _, rfl, rfl⟩
  | list items => exact ⟨_, _, _, rfl, rfl⟩
  | object members => exact ⟨_, _, _, rfl, rfl⟩

theorem itemMarks_eq_cons (item : Json) (rest : List Json) :
    ∃ token more next, itemMarks (item :: rest) = token :: more ∧ Next.ofToken? token = some next := by
  obtain ⟨token, more, next, hm, hn⟩ := marks_eq_cons item
  cases rest with
  | nil => exact ⟨token, more, next, hm, hn⟩
  | cons other rest => exact ⟨token, more ++ .comma :: itemMarks (other :: rest), next, by simp [itemMarks, hm], hn⟩

theorem itemMarks_cons_cons (item next : Json) (rest : List Json) :
    itemMarks (item :: next :: rest) = item.marks ++ .comma :: itemMarks (next :: rest) := by
  simp [itemMarks]

theorem memberMarks_cons_cons (member next : String × Json) (rest : List (String × Json)) :
    memberMarks (member :: next :: rest) =
      .text (.ok member.1) :: .colon :: (member.2.marks ++ .comma :: memberMarks (next :: rest)) := by
  simp [memberMarks]

/-- Data that is read as its tree, whatever waits for it and follows it. -/
def IsRead (json : Json) : Prop :=
  ∀ ts stack, Document.read (json.marks ++ ts) .value stack = Document.read ts (.after json.tree) stack

/-- The items of a list join those that are read before them. -/
theorem read_itemMarks {items : List Json} (hne : items ≠ []) (h : ∀ item ∈ items, IsRead item) (done : List Tree)
    (ts : List Token) (stack : List Frame) :
    Document.read (itemMarks items ++ .closeList :: ts) .value (.item done :: stack) =
      Document.read ts (.after (.list (done.reverse ++ itemTrees items) none)) stack := by
  induction items generalizing done with
  | nil => exact absurd rfl hne
  | cons item rest ih =>
    have hitem : IsRead item := h item (by simp)
    cases rest with
    | nil =>
      rw [itemMarks, hitem]
      simp [Document.read, itemTrees]
    | cons next rest =>
      have hrest := ih (by simp) (fun other ho => h other (by simp [ho])) (item.tree :: done)
      obtain ⟨token, more, n, hm, hn⟩ := itemMarks_eq_cons next rest
      have hcomma : Document.read (.comma :: (itemMarks (next :: rest) ++ .closeList :: ts)) (.after item.tree)
          (.item done :: stack) =
          Document.read (itemMarks (next :: rest) ++ .closeList :: ts) .value (.item (item.tree :: done) :: stack) := by
        rw [hm, List.cons_append, ← read_nextItem hn]
        simp only [Document.read]
      rw [itemMarks_cons_cons, List.append_assoc, List.cons_append, hitem, hcomma, hrest]
      simp [itemTrees]

/-- The members of an object join those that are read before them. -/
theorem read_memberMarks {members : List (String × Json)} (hne : members ≠ []) (h : ∀ member ∈ members, IsRead member.2)
    (done : List Member) (ts : List Token) (stack : List Frame) :
    Document.read (memberMarks members ++ .closeObject :: ts) (.nextName done) stack =
      Document.read ts (.after (.object (done.reverse ++ memberTrees members) none)) stack := by
  induction members generalizing done with
  | nil => exact absurd rfl hne
  | cons member rest ih =>
    have hmember : IsRead member.2 := h member (by simp)
    cases rest with
    | nil =>
      simp only [memberMarks, List.cons_append, Document.read]
      rw [hmember]
      simp [Document.read, memberTrees]
    | cons next rest =>
      have hrest := ih (by simp) (fun other ho => h other (by simp [ho])) ((.ok member.1, member.2.tree) :: done)
      rw [memberMarks_cons_cons]
      simp only [List.cons_append, List.append_assoc, Document.read]
      rw [hmember]
      simp only [Document.read]
      rw [hrest]
      simp [memberTrees]

theorem isRead (json : Json) : IsRead json := by
  induction json with
  | null => exact fun _ _ => rfl
  | boolean b => exact fun _ _ => rfl
  | number n => exact fun _ _ => rfl
  | string text => exact fun _ _ => rfl
  | list items ih =>
    intro ts stack
    simp only [marks, List.cons_append, List.append_assoc, List.nil_append]
    rw [read_value rfl]
    cases items with
    | nil => simp [itemMarks, itemTrees, tree, Document.read]
    | cons item rest =>
      obtain ⟨token, more, next, hm, hn⟩ := itemMarks_eq_cons item rest
      have hfirst : Document.read (itemMarks (item :: rest) ++ .closeList :: ts) .firstItem stack =
          Document.read (itemMarks (item :: rest) ++ .closeList :: ts) .value (.item [] :: stack) := by
        rw [hm, List.cons_append, read_firstItem hn]
      rw [hfirst, read_itemMarks (by simp) ih]
      rfl
  | object members ih =>
    intro ts stack
    simp only [marks, List.cons_append, List.append_assoc, List.nil_append]
    rw [read_value rfl]
    cases members with
    | nil => simp [memberMarks, memberTrees, tree, Document.read]
    | cons member rest =>
      have hfirst : Document.read (memberMarks (member :: rest) ++ .closeObject :: ts) .firstName stack =
          Document.read (memberMarks (member :: rest) ++ .closeObject :: ts) (.nextName []) stack := by
        cases rest with
        | nil => simp [memberMarks, Document.read]
        | cons next rest => simp [memberMarks_cons_cons, Document.read]
      rw [hfirst, read_memberMarks (by simp) ih]
      rfl

/-! ## Cutting text into tokens -/

/-- Data whose numbers are read again where they have been written. -/
def ReadsNumbers (json : Json) : Prop := ∀ n ∈ json.numbers, ReadsBack n

theorem mem_numbers_list_iff {items : List Json} {n : Number} :
    n ∈ (Json.list items).numbers ↔ ∃ item ∈ items, n ∈ item.numbers := by
  rw [numbers]
  induction items with
  | nil => simp [itemNumbers]
  | cons first rest ih => simp [itemNumbers, ih]

theorem mem_numbers_object_iff {members : List (String × Json)} {n : Number} :
    n ∈ (Json.object members).numbers ↔ ∃ member ∈ members, n ∈ member.2.numbers := by
  rw [numbers]
  induction members with
  | nil => simp [memberNumbers]
  | cons first rest ih => simp [memberNumbers, ih]

theorem ReadsNumbers.item {items : List Json} (h : ReadsNumbers (.list items)) {item : Json} (hi : item ∈ items) :
    ReadsNumbers item :=
  fun n hn => h n (mem_numbers_list_iff.mpr ⟨item, hi, hn⟩)

theorem ReadsNumbers.member {members : List (String × Json)} (h : ReadsNumbers (.object members))
    {member : String × Json} (hm : member ∈ members) : ReadsNumbers member.2 :=
  fun n hn => h n (mem_numbers_object_iff.mpr ⟨member, hm, hn⟩)

/-- A text that is cut into tokens, whatever follows it that no number goes on with. -/
def IsCut (text : List Char) (marks : List Token) : Prop :=
  ∀ rest, EndsNumber rest → tokens (text.map some ++ rest) = marks ++ tokens rest

theorem scanIdent_append (scalar : Scalar) (word : List Char) (rest : List Symbol) :
    scanIdent scalar word (word.map some ++ rest) = (.scalar (.ok scalar), rest) := by
  induction word with
  | nil => rw [scanIdent]; rfl
  | cons c word ih =>
    simp only [List.map_cons, List.cons_append, scanIdent, if_true]
    exact ih

theorem isCut_keyword (c : Char) (word : List Char) (scalar : Scalar) (hs : isSpace c = false)
    (h : ∀ rest, Token.next c rest = scanIdent scalar word rest) : IsCut (c :: word) [.scalar (.ok scalar)] := by
  intro rest _
  simp only [List.map_cons, List.cons_append]
  rw [tokens_cons hs, h, scanIdent_append]
  rfl

theorem isCut_null : IsCut "null".toList [.scalar (.ok .null)] :=
  isCut_keyword 'n' ['u', 'l', 'l'] .null rfl fun _ => rfl

theorem isCut_boolean (b : Bool) : IsCut (Json.boolean b).compact (Json.boolean b).marks := by
  cases b with
  | false => exact isCut_keyword 'f' ['a', 'l', 's', 'e'] (.boolean false) rfl fun _ => rfl
  | true => exact isCut_keyword 't' ['r', 'u', 'e'] (.boolean true) rfl fun _ => rfl

theorem isCut_written (text : String) : IsCut (written text.toList) [.text (.ok text)] := by
  intro rest _
  rw [tokens_written, String.ofList_toList]
  rfl

theorem isCut_number {n : Number} (h : ReadsBack n) : IsCut (writtenNumber n) [.scalar (.ok (reread n))] := by
  intro rest hr
  exact h rest hr

theorem tokens_member (name : String) {text : List Char} {marks : List Token} (h : IsCut text marks)
    {rest : List Symbol} (hr : EndsNumber rest) :
    tokens ((written name.toList).map some ++ some ':' :: (text.map some ++ rest)) =
      .text (.ok name) :: .colon :: (marks ++ tokens rest) := by
  rw [tokens_written, String.ofList_toList, tokens_mark rfl rfl, h rest hr]

/-! ## The compact form -/

theorem isCut_compactItems {items : List Json} (h : ∀ item ∈ items, IsCut item.compact item.marks) :
    IsCut (compactItems items) (itemMarks items) := by
  induction items with
  | nil => intro rest _; rfl
  | cons item items ih =>
    have hitem := h item (by simp)
    intro rest hr
    cases items with
    | nil => exact hitem rest hr
    | cons next items =>
      have hrest := ih (fun other ho => h other (by simp [ho])) rest hr
      have hcomma : EndsNumber (some ',' :: ((compactItems (next :: items)).map some ++ rest)) :=
        EndsNumber.cons (by decide) _
      simp only [compactItems, itemMarks_cons_cons, List.map_append, List.map_cons, List.append_assoc,
        List.cons_append]
      rw [hitem _ hcomma, tokens_mark rfl rfl, hrest]

theorem isCut_compactMembers {members : List (String × Json)}
    (h : ∀ member ∈ members, IsCut member.2.compact member.2.marks) :
    IsCut (compactMembers members) (memberMarks members) := by
  induction members with
  | nil => intro rest _; rfl
  | cons member members ih =>
    have hmember := h member (by simp)
    intro rest hr
    cases members with
    | nil =>
      simp only [compactMembers, memberMarks, List.map_append, List.map_cons, List.append_assoc, List.cons_append]
      exact tokens_member member.1 hmember hr
    | cons next members =>
      have hrest := ih (fun other ho => h other (by simp [ho])) rest hr
      have hcomma : EndsNumber (some ',' :: ((compactMembers (next :: members)).map some ++ rest)) :=
        EndsNumber.cons (by decide) _
      simp only [compactMembers, memberMarks_cons_cons, List.map_append, List.map_cons, List.append_assoc,
        List.cons_append]
      rw [tokens_member member.1 hmember hcomma, tokens_mark rfl rfl, hrest]

theorem isCut_compact {json : Json} (h : json.ReadsNumbers) : IsCut json.compact json.marks := by
  induction json with
  | null => exact isCut_null
  | boolean b => exact isCut_boolean b
  | number n => exact isCut_number (h n (by simp [numbers]))
  | string text => exact isCut_written text
  | list items ih =>
    have hitems := isCut_compactItems fun item hi => ih item hi (h.item hi)
    intro rest hr
    have hclose : EndsNumber (some ']' :: rest) := EndsNumber.cons (by decide) rest
    simp only [compact, marks, List.map_cons, List.map_append, List.map_nil, List.cons_append, List.append_assoc,
      List.nil_append]
    rw [tokens_mark rfl rfl, hitems _ hclose, tokens_mark rfl rfl]
  | object members ih =>
    have hmembers := isCut_compactMembers fun member hm => ih member hm (h.member hm)
    intro rest hr
    have hclose : EndsNumber (some '\x7d' :: rest) := EndsNumber.cons (by decide) rest
    simp only [compact, marks, List.map_cons, List.map_append, List.map_nil, List.cons_append, List.append_assoc,
      List.nil_append]
    rw [tokens_mark rfl rfl, hmembers _ hclose, tokens_mark rfl rfl]

/-! ## The indented form -/

theorem endsNumber_newLine (depth : Nat) (rest : List Symbol) : EndsNumber ((newLine depth).map some ++ rest) :=
  EndsNumber.cons (by decide) _

theorem isCut_indentedItems {depth : Nat} {items : List Json}
    (h : ∀ item ∈ items, IsCut (item.indented depth) item.marks) :
    IsCut (indentedItems depth items) (itemMarks items) := by
  induction items with
  | nil => intro rest _; rfl
  | cons item items ih =>
    have hitem := h item (by simp)
    intro rest hr
    cases items with
    | nil =>
      simp only [indentedItems, itemMarks, List.map_append, List.append_assoc]
      rw [tokens_newLine, hitem rest hr]
    | cons next items =>
      have hrest := ih (fun other ho => h other (by simp [ho])) rest hr
      have hcomma : EndsNumber (some ',' :: ((indentedItems depth (next :: items)).map some ++ rest)) :=
        EndsNumber.cons (by decide) _
      simp only [indentedItems, itemMarks_cons_cons, List.map_append, List.map_cons, List.append_assoc,
        List.cons_append] at hcomma hrest ⊢
      rw [tokens_newLine, hitem _ hcomma, tokens_mark rfl rfl, hrest]

theorem isCut_indentedMembers {depth : Nat} {members : List (String × Json)}
    (h : ∀ member ∈ members, IsCut (member.2.indented depth) member.2.marks) :
    IsCut (indentedMembers depth members) (memberMarks members) := by
  induction members with
  | nil => intro rest _; rfl
  | cons member members ih =>
    have hmember : IsCut (' ' :: member.2.indented depth) member.2.marks := by
      intro rest hr
      simp only [List.map_cons, List.cons_append]
      rw [tokens_space (by decide)]
      exact h member (by simp) rest hr
    intro rest hr
    cases members with
    | nil =>
      simp only [indentedMembers, memberMarks, List.map_append, List.map_cons, List.append_assoc, List.cons_append]
      rw [tokens_newLine]
      exact tokens_member member.1 hmember hr
    | cons next members =>
      have hrest := ih (fun other ho => h other (by simp [ho])) rest hr
      have hcomma : EndsNumber (some ',' :: ((indentedMembers depth (next :: members)).map some ++ rest)) :=
        EndsNumber.cons (by decide) _
      have hfirst := tokens_member member.1 hmember hcomma
      simp only [indentedMembers, memberMarks_cons_cons, List.map_append, List.map_cons, List.append_assoc,
        List.cons_append] at hfirst hrest ⊢
      rw [tokens_newLine, hfirst, tokens_mark rfl rfl, hrest]

theorem isCut_indented {json : Json} (h : json.ReadsNumbers) (depth : Nat) :
    IsCut (json.indented depth) json.marks := by
  induction json generalizing depth with
  | null => exact isCut_null
  | boolean b =>
    cases b with
    | false => exact isCut_boolean false
    | true => exact isCut_boolean true
  | number n => exact isCut_number (h n (by simp [numbers]))
  | string text => exact isCut_written text
  | list items ih =>
    have hitems := isCut_indentedItems fun item hi => ih item hi (h.item hi) (depth + 1)
    intro rest hr
    cases items with
    | nil => exact isCut_compact h rest hr
    | cons item items =>
      simp only [indented, marks, List.map_cons, List.map_append, List.map_nil, List.cons_append, List.append_assoc,
        List.nil_append]
      rw [tokens_mark rfl rfl, hitems _ (endsNumber_newLine depth _), tokens_newLine, tokens_mark rfl rfl]
  | object members ih =>
    have hmembers := isCut_indentedMembers fun member hm => ih member hm (h.member hm) (depth + 1)
    intro rest hr
    cases members with
    | nil => exact isCut_compact h rest hr
    | cons member members =>
      simp only [indented, marks, List.map_cons, List.map_append, List.map_nil, List.cons_append, List.append_assoc,
        List.nil_append]
      rw [tokens_mark rfl rfl, hmembers _ (endsNumber_newLine depth _), tokens_newLine, tokens_mark rfl rfl]

/-! ## Reading the text of data -/

theorem ofText_of_isCut {json : Json} {text : List Char} (h : IsCut text json.marks) :
    Document.ofText (String.ofList text) = ⟨json.tree, none⟩ := by
  have htokens := h [] EndsNumber.nil
  rw [List.append_nil] at htokens
  unfold Document.ofText Document.ofSymbols
  rw [String.toList_ofList, htokens, isRead json]
  simp [tokens, Document.read]

/-- The compact text of data is read as that data. -/
theorem ofText_toText {json : Json} (h : json.ReadsNumbers) : Document.ofText json.toText = ⟨json.tree, none⟩ :=
  ofText_of_isCut (isCut_compact h)

theorem ofText_indented {json : Json} (h : json.ReadsNumbers) :
    Document.ofText json.toIndented = ⟨json.tree, none⟩ :=
  ofText_of_isCut (isCut_indented h 0)

theorem ofText_toIndented {json : Json} (h : json.ReadsNumbers) :
    Document.ofText (json.toIndented ++ "\n") = ⟨json.tree, none⟩ := by
  have hcut : IsCut (json.indented 0 ++ ['\n']) json.marks := by
    intro rest hr
    simp only [List.map_append, List.map_cons, List.map_nil, List.append_assoc, List.cons_append, List.nil_append]
    rw [isCut_indented h 0 _ (EndsNumber.cons (by decide) rest), tokens_space (by decide)]
  have htext : json.toIndented ++ "\n" = String.ofList (json.indented 0 ++ ['\n']) := by
    rw [toIndented, String.ofList_append]
  rw [htext]
  exact ofText_of_isCut hcut

end Rulebook.Json
