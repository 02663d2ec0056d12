/-
  Rulebook.Value — the data that rules judge.

  A value is null, a boolean, a number, a string, a sequence, or a mapping from names to
  values. Numbers keep the kind they were written with: a signed integer of 64 bits, an
  unsigned one, or a float. A mapping lists its entries in ascending order of their
  names, each name once; `put` and `ofEntries` build such lists, and of two entries of
  one name the later stays. `Ordered` says that a value is so at every depth.
  - `get?_put_self` / `get?_put_of_ne`: what an entry changes, and what it leaves.
  - `sorted_put` / `sorted_ofList`: mappings stay in ascending order of names.
-/

namespace Rulebook

/-- A number, with the kind it was written in. -/
inductive Number where
  | int (n : Int64)
  | uint (n : UInt64)
  | float (x : Float)
  deriving DecidableEq

inductive Value where
  | null
  | boolean (b : Bool)
  | number (n : Number)
  | string (text : String)
  | sequence (items : List Value)
  | mapping (entries : List (String × Value))
  deriving Inhabited

inductive Kind where
  | null
  | boolean
  | number
  | string
  | sequence
  | mapping
  deriving DecidableEq, Repr

def Kind.name : Kind → String
  | .null => "Null"
  | .boolean => "Boolean"
  | .number => "Number"
  | .string => "String"
  | .sequence => "Sequence"
  | .mapping => "Mapping"

/-! ## Entries in ascending order of their names -/

namespace Entries

variable {α : Type}

def get? (entries : List (String × α)) (name : String) : Option α :=
  (entries.find? fun entry => entry.1 == name).map Prod.snd

def contains (entries : List (String × α)) (name : String) : Bool := (get? entries name).isSome

/-- Sets the entry of a name, at its place in the order. -/
def put (entries : List (String × α)) (name : String) (value : α) : List (String × α) :=
  match entries with
  | [] => [(name, value)]
  | (other, old) :: rest =>
    if name < other then (name, value) :: (other, old) :: rest
    else if name = other then (name, value) :: rest
    else (other, old) :: put rest name value

/-- The entries of a list in any order; of one name the last counts. -/
def ofList (entries : List (String × α)) : List (String × α) :=
  entries.foldl (fun done entry => put done entry.1 entry.2) []

def Sorted (entries : List (String × α)) : Prop := (entries.map Prod.fst).Pairwise (· < ·)

instance (entries : List (String × α)) : Decidable (Sorted entries) :=
  inferInstanceAs (Decidable (List.Pairwise _ _))

@[simp] theorem get?_nil (name : String) : get? ([] : List (String × α)) name = none := rfl

theorem get?_cons (entry : String × α) (rest : List (String × α)) (name : String) :
    get? (entry :: rest) name = if entry.1 = name then some entry.2 else get? rest name := by
  by_cases h : entry.1 = name
  · simp [get?, h]
  · simp [get?, h]

theorem get?_put_self (entries : List (String × α)) (name : String) (value : α) :
    get? (put entries name value) name = some value := by
  induction entries with
  | nil => simp [put, get?_cons]
  | cons entry rest ih =>
    obtain ⟨other, old⟩ := entry
    simp only [put]
    split
    · simp [get?_cons]
    · split
      · simp [get?_cons]
      · rename_i h
        simp only [get?_cons]
        rw [if_neg (fun e => h e.symm), ih]

theorem get?_put_of_ne (entries : List (String × α)) {name other : String} (value : α) (h : other ≠ name) :
    get? (put entries name value) other = get? entries other := by
  induction entries with
  | nil => simp [put, get?_cons, h.symm]
  | cons entry rest ih =>
    obtain ⟨first, old⟩ := entry
    simp only [put]
    split
    · simp [get?_cons, h.symm]
    · split
      · rename_i e
        subst e
        simp [get?_cons, h.symm]
      · simp only [get?_cons, ih]

theorem mem_put {entries : List (String × α)} {name : String} {value : α} {entry : String × α}
    (h : entry ∈ put entries name value) : entry = (name, value) ∨ entry ∈ entries := by
  induction entries with
  | nil => simpa [put] using h
  | cons first rest ih =>
    obtain ⟨other, old⟩ := first
    simp only [put] at h
    split at h
    · simpa using h
    · split at h
      · rcases List.mem_cons.1 h with h | h
        · exact .inl h
        · exact .inr (List.mem_cons_of_mem _ h)
      · rcases List.mem_cons.1 h with h | h
        · exact .inr (by simp [h])
        · exact (ih h).imp id (List.mem_cons_of_mem _)

theorem sorted_put {entries : List (String × α)} (h : Sorted entries) (name : String) (value : α) :
    Sorted (put entries name value) := by
  induction entries with
  | nil => simp [put, Sorted]
  | cons entry rest ih =>
    obtain ⟨other, old⟩ := entry
    simp only [Sorted, List.map_cons, List.pairwise_cons] at h ⊢
    simp only [put]
    split
    · rename_i hlt
      simp only [List.map_cons, List.pairwise_cons]
      refine ⟨fun n hn => ?_, h⟩
      rcases List.mem_cons.1 hn with hn | hn
      · exact hn ▸ hlt
      · exact String.lt_trans hlt (h.1 n hn)
    · split
      · rename_i e
        subst e
        simpa using h
      · rename_i hlt hne
        have hgt : other < name := Decidable.byContradiction fun h =>
          hne (String.le_antisymm (String.not_lt.1 h) (String.not_lt.1 hlt))
        simp only [List.map_cons, List.pairwise_cons]
        refine ⟨fun n hn => ?_, ih h.2⟩
        obtain ⟨e, he, rfl⟩ := List.mem_map.1 hn
        rcases mem_put he with he | he
        · exact he ▸ hgt
        · exact h.1 _ (List.mem_map_of_mem he)

theorem sorted_foldl_put (entries : List (String × α)) {done : List (String × α)} (h : Sorted done) :
    Sorted (entries.foldl (fun done entry => put done entry.1 entry.2) done) := by
  induction entries generalizing done with
  | nil => exact h
  | cons entry rest ih => exact ih (sorted_put h _ _)

theorem sorted_ofList (entries : List (String × α)) : Sorted (ofList entries) :=
  sorted_foldl_put entries List.Pairwise.nil

end Entries

/-! ## Looking at a value -/

namespace Value

def kind : Value → Kind
  | .null => .null
  | .boolean _ => .boolean
  | .number _ => .number
  | .string _ => .string
  | .sequence _ => .sequence
  | .mapping _ => .mapping

def int (n : Int64) : Value := .number (.int n)

def uint (n : UInt64) : Value := .number (.uint n)

def float (x : Float) : Value := .number (.float x)

/-- The mapping of a list of entries in any order; of one name the last counts. -/
def ofEntries (entries : List (String × Value)) : Value := .mapping (Entries.ofList entries)

def boolean? : Value → Option Bool
  | .boolean b => some b
  | _ => none

def string? : Value → Option String
  | .string text => some text
  | _ => none

def sequence? : Value → Option (List Value)
  | .sequence items => some items
  | _ => none

def mapping? : Value → Option (List (String × Value))
  | .mapping entries => some entries
  | _ => none

def isNull : Value → Bool
  | .null => true
  | _ => false

mutual
/-- Whether every mapping in a value ascends in its names. -/
def Ordered : Value → Prop
  | .sequence items => OrderedItems items
  | .mapping entries => Entries.Sorted entries ∧ OrderedEntries entries
  | _ => True
def OrderedItems : List Value → Prop
  | [] => True
  | item :: rest => item.Ordered ∧ OrderedItems rest
def OrderedEntries : List (String × Value) → Prop
  | [] => True
  | entry :: rest => entry.2.Ordered ∧ OrderedEntries rest
end

/-- Whether two numbers are of one kind and equal; no float equals NaN. -/
def sameNumber : Number → Number → Bool
  | .int a, .int b => a == b
  | .uint a, .uint b => a == b
  | .float a, .float b => a == b
  | _, _ => false

mutual
def same : Value → Value → Bool
  | .null, .null => true
  | .boolean a, .boolean b => a == b
  | .number a, .number b => sameNumber a b
  | .string a, .string b => a == b
  | .sequence as, .sequence bs => sameItems as bs
  | .mapping as, .mapping bs => sameEntries as bs
  | _, _ => false
def sameItems : List Value → List Value → Bool
  | [], [] => true
  | a :: as, b :: bs => same a b && sameItems as bs
  | _, _ => false
def sameEntries : List (String × Value) → List (String × Value) → Bool
  | [], [] => true
  | a :: as, b :: bs => a.1 == b.1 && same a.2 b.2 && sameEntries as bs
  | _, _ => false
end

instance : BEq Value := ⟨same⟩

end Value

end Rulebook
