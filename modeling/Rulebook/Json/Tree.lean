/-
  Rulebook.Json.Tree — JSON text read as far as it goes.

  A text becomes a tree whatever it holds. Where it is broken a flaw stands in its
  place, and a list or an object that ends too early says so; a text is JSON when its
  tree has no flaw. Whoever asks the tree for data walks it in the order of the text, so
  the first of two faults is the one that is met.

  The tokens are read one by one. Opened lists and objects wait on a stack until the
  value that is being read is complete; a fault completes them all.
-/

import Rulebook.Json.Token
import Rulebook.Text.Utf8

namespace Rulebook.Json

/-- The data of a text, with its flaws in place. An ending is the flaw at which a list or an object stops. -/
inductive Tree where
  | scalar (s : Scalar)
  | text (s : String)
  | flawed (f : Flaw)
  | list (items : List Tree) (ending : Option Flaw)
  | object (members : List (Except Flaw String × Tree)) (ending : Option Flaw)

abbrev Name := Except Flaw String

abbrev Member := Name × Tree

/-- A text: its value, and the fault of what follows the value. -/
structure Document where
  root : Tree
  ending : Option Fault

/-- What waits for a value: a list with the items before it, or an object with the members
    before it; both in reverse. -/
inductive Frame where
  | item (done : List Tree)
  | member (done : List Member) (name : Name)

/-- What may come next: a value, at the start of a list also its end, after a comma in a list no
    end; a name; a colon; or what follows a value. -/
inductive Next where
  | value
  | firstItem
  | nextItem
  | firstName
  | nextName (done : List Member)
  | colon (done : List Member) (name : Name)
  | after (value : Tree)

/-- The tree of a value that is complete, in the containers that wait for it, when the text stops there. -/
def Tree.close (tree : Tree) (flaw : Flaw) : List Frame → Tree
  | [] => tree
  | .item done :: stack => (Tree.list (tree :: done).reverse (some flaw)).close flaw stack
  | .member done name :: stack => (Tree.object ((name, tree) :: done).reverse (some flaw)).close flaw stack

def Document.stop (flaw : Flaw) (stack : List Frame) : Document := ⟨(Tree.flawed flaw).close flaw stack, none⟩

def Document.stopList (flaw : Flaw) (done : List Tree) (stack : List Frame) : Document :=
  ⟨(Tree.list done.reverse (some flaw)).close flaw stack, none⟩

def Document.stopObject (flaw : Flaw) (done : List Member) (stack : List Frame) : Document :=
  ⟨(Tree.object done.reverse (some flaw)).close flaw stack, none⟩

/-- What comes next once a token has started a value, if it can start one. -/
def Next.ofToken? : Token → Option Next
  | .openList => some .firstItem
  | .openObject => some .firstName
  | .text (.ok s) => some (.after (.text s))
  | .text (.error flaw) => some (.after (.flawed flaw))
  | .scalar (.ok s) => some (.after (.scalar s))
  | .scalar (.error flaw) => some (.after (.flawed flaw))
  | _ => none

/-- Reads the rest of a text, its tokens, with what may come next and what waits for it. -/
def Document.read : List Token → Next → List Frame → Document
  | [], .value, stack => .stop (.stop (.breaksOff .value)) stack
  | [], .firstItem, stack => .stopList (.stop (.breaksOff .list)) [] stack
  | [], .nextItem, stack => .stop (.stop (.breaksOff .value)) stack
  | [], .firstName, stack => .stopObject (.stop (.breaksOff .object)) [] stack
  | [], .nextName done, stack => .stopObject ⟨.breaksOff .value, some (.breaksOff .object)⟩ done stack
  | [], .colon done name, stack => .stop (.stop (.breaksOff .object)) (.member done name :: stack)
  | [], .after tree, [] => ⟨tree, none⟩
  | [], .after tree, .item done :: stack => .stopList (.stop (.breaksOff .list)) (tree :: done) stack
  | [], .after tree, .member done name :: stack =>
    .stopObject (.stop (.breaksOff .object)) ((name, tree) :: done) stack
  | token :: rest, .value, stack =>
    match Next.ofToken? token with
    | some next => read rest next stack
    | none => .stop (.stop .expectedValue) stack
  | .closeList :: rest, .firstItem, stack => read rest (.after (.list [] none)) stack
  | token :: rest, .firstItem, stack =>
    match Next.ofToken? token with
    | some next => read rest next (.item [] :: stack)
    | none => .stop (.stop .expectedValue) (.item [] :: stack)
  | .closeList :: _, .nextItem, .item done :: stack =>
    .stopList ⟨.trailingComma, some .expectedValue⟩ done stack
  | token :: rest, .nextItem, stack =>
    match Next.ofToken? token with
    | some next => read rest next stack
    | none => .stop (.stop .expectedValue) stack
  | token :: rest, .firstName, stack =>
    match token with
    | .closeObject => read rest (.after (.object [] none)) stack
    | .text name => read rest (.colon [] name) stack
    | _ => .stopObject (.stop .keyNotString) [] stack
  | token :: rest, .nextName done, stack =>
    match token with
    | .closeObject => .stopObject ⟨.trailingComma, some .keyNotString⟩ done stack
    | .text name => read rest (.colon done name) stack
    | _ => .stopObject (.stop .keyNotString) done stack
  | token :: rest, .colon done name, stack =>
    match token with
    | .colon => read rest .value (.member done name :: stack)
    | _ => .stop (.stop .expectedColon) (.member done name :: stack)
  | _ :: _, .after tree, [] => ⟨tree, some .trailingCharacters⟩
  | token :: rest, .after tree, .item done :: stack =>
    match token with
    | .comma => read rest .nextItem (.item (tree :: done) :: stack)
    | .closeList => read rest (.after (.list (tree :: done).reverse none)) stack
    | _ => .stopList (.stop .expectedListEnd) (tree :: done) stack
  | token :: rest, .after tree, .member done name :: stack =>
    match token with
    | .comma => read rest (.nextName ((name, tree) :: done)) stack
    | .closeObject => read rest (.after (.object ((name, tree) :: done).reverse none)) stack
    | _ => .stopObject (.stop .expectedObjectEnd) ((name, tree) :: done) stack

def Document.ofSymbols (text : List Symbol) : Document := Document.read (tokens text) .value []

def Document.ofBytes (bytes : List UInt8) : Document := Document.ofSymbols (Text.Utf8.symbols bytes)

/-- The document of a text without stray bytes. -/
def Document.ofText (text : String) : Document := Document.ofSymbols (text.toList.map some)

/-! ## Skipping -/

mutual
def Tree.skip : Tree → Except Fault Unit
  | .scalar _ => .ok ()
  | .text _ => .ok ()
  | .flawed flaw => flaw.skipped.elim (.ok ()) .error
  | .list items ending => do
    Tree.skipItems items
    (ending.bind Flaw.skipped).elim (.ok ()) .error
  | .object members ending => do
    Tree.skipMembers members
    (ending.bind Flaw.skipped).elim (.ok ()) .error
def Tree.skipItems : List Tree → Except Fault Unit
  | [] => .ok ()
  | item :: rest => do
    item.skip
    Tree.skipItems rest
def Tree.skipMembers : List (Except Flaw String × Tree) → Except Fault Unit
  | [] => .ok ()
  | member :: rest => do
    match member.1 with
    | .error flaw => flaw.skipped.elim (.ok ()) .error
    | .ok _ => .ok ()
    member.2.skip
    Tree.skipMembers rest
end

end Rulebook.Json
