/-
  Rulebook.Folder — a folder of files, as a value.

  The names in a path stand between slashes, and a point by itself adds nothing; a slash
  in front is a name of its own. Reading finds the bytes of a file, or that nothing is
  there, or that what is there is no file. Writing needs the folder of the file to be
  there.
  - `read_write_self`: what has been written is read.
-/

import Rulebook.Text.Utf8

namespace Rulebook

/-! ## Paths -/

namespace Path

/-- The names in a path, split at slashes, after the characters `done` of the first in reverse. -/
def splitFrom (done : List Char) : List Char → List (List Char)
  | [] => [done.reverse]
  | c :: rest => if c = '/' then done.reverse :: splitFrom [] rest else splitFrom (c :: done) rest

def pieces (path : String) : List (List Char) := splitFrom [] path.toList

def names (path : String) : List String :=
  (if path.toList.head? = some '/' then ["/"] else []) ++
    ((pieces path).filter fun piece => piece != [] && piece != ['.']).map String.ofList

/-- Whether a path can only be that of a folder. -/
def isFolder (path : String) : Bool :=
  match (pieces path).getLast? with
  | some piece => piece == [] || piece == ['.']
  | none => true

def join (root name : String) : String :=
  if root = "" ∨ root.toList.getLast? = some '/' then root ++ name else root ++ "/" ++ name

/-- What stands behind the last point of a name, unless the point is the first character. -/
def extensionOf? (name : List Char) : Option (List Char) :=
  let tail := name.reverse.takeWhile (· != '.')
  let head := (name.reverse.drop tail.length).drop 1
  if name.contains '.' ∧ head ≠ [] ∧ name ≠ ['.', '.'] then some tail.reverse else none

def extension? (path : String) : Option String :=
  ((names path).getLast?.bind fun name => extensionOf? name.toList).map String.ofList

end Path

/-! ## Files -/

inductive Entry where
  | file (bytes : List UInt8)
  | folder
  deriving DecidableEq, Repr

/-- The entries of a folder, by the names of their paths. -/
structure Folder where
  entries : List (List String × Entry)

inductive Reading where
  | bytes (bytes : List UInt8)
  | missing
  | blocked
  deriving DecidableEq, Repr

namespace Folder

def empty : Folder := ⟨[]⟩

/-- What stands under names; the folder itself under none. -/
def at? (folder : Folder) (names : List String) : Option Entry :=
  if names = [] then some .folder else (folder.entries.find? (·.1 == names)).map Prod.snd

/-- Whether a file stands where names lead through. -/
def isThroughFile (folder : Folder) (names : List String) : Bool :=
  (List.range names.length).any fun n =>
    match folder.at? (names.take n) with
    | some (.file _) => true
    | _ => false

def read (folder : Folder) (path : String) : Reading :=
  let names := Path.names path
  if path = "" then .missing
  else if folder.isThroughFile names then .blocked
  else
    match folder.at? names with
    | none => .missing
    | some .folder => .blocked
    | some (.file bytes) => if Path.isFolder path then .blocked else .bytes bytes

def text? (folder : Folder) (path : String) : Option (List Char) :=
  match folder.read path with
  | .bytes bytes => Text.Utf8.decode? bytes
  | _ => none

def put (folder : Folder) (names : List String) (entry : Entry) : Folder :=
  ⟨(names, entry) :: folder.entries.filter (·.1 != names)⟩

def admits (folder : Folder) (path : String) : Bool :=
  let names := Path.names path
  names != [] && !Path.isFolder path && !folder.isThroughFile names &&
    folder.at? names.dropLast == some .folder && folder.at? names != some .folder

/-- The folder after a file has been written, if it can be. -/
def write? (folder : Folder) (path : String) (bytes : List UInt8) : Option Folder :=
  if folder.admits path then some (folder.put (Path.names path) (.file bytes)) else none

theorem at?_put_self (folder : Folder) {names : List String} (entry : Entry) (h : names ≠ []) :
    (folder.put names entry).at? names = some entry := by
  simp [at?, put, h]

theorem at?_put_of_ne (folder : Folder) {names other : List String} (entry : Entry) (h : other ≠ names) :
    (folder.put names entry).at? other = folder.at? other := by
  have hnames : (names == other) = false := by simpa using fun e => h e.symm
  unfold at? put
  simp only [List.find?_cons, hnames, List.find?_filter]
  congr 3
  funext e
  by_cases he : e.1 = other <;> simp [he, h]

theorem isThroughFile_put_self (folder : Folder) (names : List String) (entry : Entry) :
    (folder.put names entry).isThroughFile names = folder.isThroughFile names := by
  unfold isThroughFile
  have h : ∀ n ∈ List.range names.length,
      (folder.put names entry).at? (names.take n) = folder.at? (names.take n) := by
    intro n hn
    apply at?_put_of_ne
    intro e
    have hlen := congrArg List.length e
    rw [List.mem_range] at hn
    rw [List.length_take] at hlen
    omega
  rw [Bool.eq_iff_iff, List.any_eq_true, List.any_eq_true]
  constructor
  · rintro ⟨n, hn, hfile⟩
    exact ⟨n, hn, by rwa [h n hn] at hfile⟩
  · rintro ⟨n, hn, hfile⟩
    exact ⟨n, hn, by rwa [h n hn]⟩

theorem read_write_self {folder written : Folder} {path : String} {bytes : List UInt8}
    (h : folder.write? path bytes = some written) : written.read path = .bytes bytes := by
  unfold write? at h
  split at h
  · rename_i hadmits
    cases h
    simp only [admits, Bool.and_eq_true, bne_iff_ne, Bool.not_eq_true'] at hadmits
    obtain ⟨⟨⟨⟨hnames, hfolder⟩, hthrough⟩, -⟩, -⟩ := hadmits
    have hpath : path ≠ "" := by
      rintro rfl
      exact hnames rfl
    simp [read, hpath, isThroughFile_put_self, hthrough, at?_put_self, hnames, hfolder]
  · cases h

end Folder

end Rulebook
