import Mathlib.Data.List.DropRight
import Oasys.ForStd.FileSystem

/-!
# Directory trees and paths

How a path is read: cut at the slashes, each name but the last one leads into a directory,
an empty name and `.` stay where they are, and `..` goes up. There are no links, and no
limits on the lengths of names. `openFile` gives the file that a path names for writing, in
a directory of the tree.

A name is an `Entry` if it means a file of its directory and nothing else. The main result
is that a path which ends in one names that file, whatever else is in the tree
(`openFile_entry`).
-/

/-- What a tree has under a name. -/
inductive DirNode where
  | file
  | dir
  deriving DecidableEq, Repr

/-- The errors of `openFile`. -/
inductive Errno where
  | ENOENT
  | ENOTDIR
  | EISDIR
  | EEXIST
  deriving DecidableEq, Repr

/-- A tree of directories. What it has is found under the names on the way from the root. -/
structure DirTree where
  node : List (List UInt8) → Option DirNode
  root : node [] = some .dir
  closed : ∀ way name, (node (way ++ [name])).isSome → node way = some .dir

namespace DirTree

/-- The byte between names. -/
def slash : UInt8 := 47

/-- The name of a directory in itself. -/
def dot : List UInt8 := [46]

/-- The name of the directory above. -/
def dotdot : List UInt8 := [46, 46]

/-- The name means a file of its directory, and nothing else. -/
def Entry (name : List UInt8) : Prop :=
  slash ∉ name ∧ name ≠ [] ∧ name ≠ dot ∧ name ≠ dotdot

instance (name : List UInt8) : Decidable (Entry name) :=
  inferInstanceAs (Decidable (_ ∧ _ ∧ _ ∧ _))

/-- A directory of the tree. -/
abbrev Dir (t : DirTree) := { way : List (List UInt8) // t.node way = some .dir }

theorem node_dropLast (t : DirTree) {way : List (List UInt8)} (h : t.node way = some .dir) :
    t.node way.dropLast = some .dir := by
  cases way using List.reverseRecOn with
  | nil => exact t.root
  | append_singleton way name =>
    rw [List.dropLast_concat]
    apply t.closed way name
    rw [h]
    rfl

/-- The directory above, which is the root itself above the root. -/
def above (t : DirTree) (d : t.Dir) : t.Dir := ⟨d.1.dropLast, t.node_dropLast d.2⟩

/-- From a directory to the one with the name. -/
def enter (t : DirTree) (d : t.Dir) (name : List UInt8) : Except Errno t.Dir :=
  if name = [] ∨ name = dot then .ok d
  else if name = dotdot then .ok (t.above d)
  else
    match h : t.node (d.1 ++ [name]) with
    | none => .error .ENOENT
    | some .file => .error .ENOTDIR
    | some .dir => .ok ⟨d.1 ++ [name], h⟩

/-- From directory to directory. -/
def walk (t : DirTree) (d : t.Dir) (names : List (List UInt8)) : Except Errno t.Dir :=
  names.foldlM t.enter d

/-- Where a path starts, given the working directory. -/
def start (t : DirTree) (cwd : t.Dir) (path : List UInt8) : t.Dir :=
  if path.head? = some slash then ⟨[], t.root⟩ else cwd

/-- `open`, to write, of a name in a directory. -/
def openEntry (t : DirTree) (d : t.Dir) (name : List UInt8) (flags : OpenFlags) :
    Except Errno (t.Dir × List UInt8) :=
  match t.node (d.1 ++ [name]) with
  | none => if flags.creat then .ok (d, name) else .error .ENOENT
  | some .file => if flags.creat && flags.excl then .error .EEXIST else .ok (d, name)
  | some .dir => if flags.creat && flags.excl then .error .EEXIST else .error .EISDIR

/-- `open`, to write, with the directory of the file and its name there. Only a directory has
    slashes behind its name. -/
def openFile (t : DirTree) (cwd : t.Dir) (path : List UInt8) (flags : OpenFlags) :
    Except Errno (t.Dir × List UInt8) :=
  if path = [] then .error .ENOENT
  else do
    let names := (path.splitOn slash).rdropWhile (· = [])
    let d ← t.walk (t.start cwd path) names.dropLast
    let name := names.getLast?.getD dot
    if name = dot ∨ name = dotdot then .error .EISDIR
    else if (path.splitOn slash).getLast? = some [] then
      if flags.creat then .error .EISDIR
      else
        let _ ← t.enter d name
        .error .EISDIR
    else t.openEntry d name flags

variable {t : DirTree} {cwd d : t.Dir} {path name : List UInt8}

theorem start_append (path rest : List UInt8) :
    t.start cwd (path ++ slash :: rest) = t.start cwd (path ++ [slash]) := by
  cases path <;> rfl

/-- A path that ends in an entry of a directory names that entry. -/
theorem openFile_entry (hname : Entry name) (flags : OpenFlags)
    (hdir : t.walk (t.start cwd (path ++ [slash])) (path.splitOn slash) = .ok d) :
    t.openFile cwd (path ++ slash :: name) flags = t.openEntry d name flags := by
  obtain ⟨hslash, hne, hdot, hdotdot⟩ := hname
  -- the last piece of the path is the name
  have hsplit : (path ++ slash :: name).splitOn slash = path.splitOn slash ++ [name] := by
    rw [List.splitOn_append_cons_self, List.splitOn_eq_singleton hslash]
  have hnames : (path.splitOn slash ++ [name]).rdropWhile (· = []) =
      path.splitOn slash ++ [name] := List.rdropWhile_concat_neg _ _ _ (by simpa using hne)
  unfold openFile
  rw [if_neg (by simp), hsplit, hnames, start_append]
  simp only [List.dropLast_concat, List.getLast?_concat, Option.getD_some, hdir, bind, Except.bind]
  simp [hne, hdot, hdotdot]

/-- To make a file that is an entry of a directory never lacks one. -/
theorem openFile_entry_creat (hname : Entry name) {flags : OpenFlags} (hcreat : flags.creat = true)
    (hdir : t.walk (t.start cwd (path ++ [slash])) (path.splitOn slash) = .ok d) :
    t.openFile cwd (path ++ slash :: name) flags = .ok (d, name) ∨
      (flags.excl = true ∧ t.openFile cwd (path ++ slash :: name) flags = .error .EEXIST) ∨
      t.openFile cwd (path ++ slash :: name) flags = .error .EISDIR := by
  rw [openFile_entry hname flags hdir]
  unfold openEntry
  split
  · simp [hcreat]
  · by_cases hexcl : flags.excl = true <;> simp [hcreat, hexcl]
  · by_cases hexcl : flags.excl = true <;> simp [hcreat, hexcl]

end DirTree
