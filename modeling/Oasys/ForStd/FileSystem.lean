import Mathlib.Data.List.AList
import Mathlib.Logic.Function.Basic

/-!
# Files, names and descriptors

A file system as a program sees it through system calls that meet no I/O error. A file is
an inode with its bytes; a directory gives names to inodes, and several names may share
one; a descriptor stands for an open file, an inode with an offset, and keeps its inode
whatever happens to the names. `openFile` hands out the lowest descriptor that is free;
what a descriptor was opened for, to read or to write, is left to the program to observe.
-/

/-- An open file. -/
structure OpenFile where
  inode : Nat
  offset : Nat
  deriving DecidableEq, Repr

/-- The flags of `openFile`. As on Linux, `excl` has no effect without `creat`. -/
structure OpenFlags where
  creat : Bool := false
  excl : Bool := false
  trunc : Bool := false
  deriving DecidableEq, Repr

/-- A file system. -/
structure FileSystem (Name : Type) [DecidableEq Name] where
  dir : AList fun _ : Name => Nat
  data : Nat → List UInt8
  files : Nat → Option OpenFile
  /-- The number of the next inode. -/
  next : Nat
  /-- The descriptors from here on are free. -/
  limit : Nat
  dir_lt : ∀ name i, dir.lookup name = some i → i < next
  files_lt : ∀ fd f, files fd = some f → f.inode < next
  free : ∀ fd, limit ≤ fd → files fd = none

namespace FileSystem

variable {Name : Type} [DecidableEq Name]

/-- No files, and no descriptors. -/
def empty : FileSystem Name where
  dir := ∅
  data := fun _ => []
  files := fun _ => none
  next := 0
  limit := 0
  dir_lt := by
    intro name i h
    rw [AList.lookup_empty] at h
    cases h
  files_lt := nofun
  free := fun _ _ => rfl

/-! ### Bytes -/

/-- `bytes` with `new` at `offset`; a gap before it is filled with zeros. -/
def writeAt (bytes : List UInt8) (offset : Nat) (new : List UInt8) : List UInt8 :=
  if new = [] then bytes
  else bytes.take offset ++ List.replicate (offset - bytes.length) 0 ++ new ++
    bytes.drop (offset + new.length)

/-- `bytes` cut or filled with zeros to `size`. -/
def resize (bytes : List UInt8) (size : Nat) : List UInt8 :=
  bytes.take size ++ List.replicate (size - bytes.length) 0

/-! ### Changes of one component -/

/-- The bytes of an inode change. -/
def setData (fs : FileSystem Name) (inode : Nat) (bytes : List UInt8) : FileSystem Name :=
  { fs with data := Function.update fs.data inode bytes }

/-- A descriptor is given an open file. -/
def setFile (fs : FileSystem Name) (fd : Nat) (f : OpenFile) (h : f.inode < fs.next) :
    FileSystem Name :=
  { fs with
    files := Function.update fs.files fd (some f)
    limit := max fs.limit (fd + 1)
    files_lt := by
      intro fd' f' hf'
      by_cases hfd : fd' = fd
      · rw [hfd, Function.update_self] at hf'
        exact Option.some.inj hf' ▸ h
      · rw [Function.update_of_ne hfd] at hf'
        exact fs.files_lt fd' f' hf'
    free := by
      intro fd' hlimit
      rw [Function.update_of_ne (by omega)]
      exact fs.free fd' (by omega) }

/-- An open descriptor gets another offset. -/
def setOffset (fs : FileSystem Name) (fd offset : Nat) : FileSystem Name :=
  { fs with
    files := Function.update fs.files fd ((fs.files fd).map fun f => { f with offset })
    files_lt := by
      intro fd' f' hf'
      by_cases hfd : fd' = fd
      · rw [hfd, Function.update_self] at hf'
        obtain ⟨f, hf, rfl⟩ := Option.map_eq_some_iff.1 hf'
        exact fs.files_lt fd f hf
      · rw [Function.update_of_ne hfd] at hf'
        exact fs.files_lt fd' f' hf'
    free := by
      intro fd' hlimit
      by_cases hfd : fd' = fd
      · rw [hfd, Function.update_self, fs.free fd (hfd ▸ hlimit)]
        rfl
      · rw [Function.update_of_ne hfd]
        exact fs.free fd' hlimit }

/-- `close`, which does nothing to a descriptor that is not open. -/
def close (fs : FileSystem Name) (fd : Nat) : FileSystem Name :=
  { fs with
    files := Function.update fs.files fd none
    files_lt := by
      intro fd' f' hf'
      by_cases hfd : fd' = fd
      · rw [hfd, Function.update_self] at hf'
        cases hf'
      · rw [Function.update_of_ne hfd] at hf'
        exact fs.files_lt fd' f' hf'
    free := by
      intro fd' hlimit
      by_cases hfd : fd' = fd
      · rw [hfd, Function.update_self]
      · rw [Function.update_of_ne hfd]
        exact fs.free fd' hlimit }

/-- A name is given to an inode. -/
def setName (fs : FileSystem Name) (name : Name) (inode : Nat) (h : inode < fs.next) :
    FileSystem Name :=
  { fs with
    dir := fs.dir.insert name inode
    dir_lt := by
      intro name' i hi
      by_cases hname : name' = name
      · rw [hname, AList.lookup_insert] at hi
        exact Option.some.inj hi ▸ h
      · rw [AList.lookup_insert_ne hname] at hi
        exact fs.dir_lt name' i hi }

/-- A name goes. -/
def dropName (fs : FileSystem Name) (name : Name) : FileSystem Name :=
  { fs with
    dir := fs.dir.erase name
    dir_lt := by
      intro name' i hi
      by_cases hname : name' = name
      · rw [hname, AList.lookup_erase] at hi
        cases hi
      · rw [AList.lookup_erase_ne hname] at hi
        exact fs.dir_lt name' i hi }

/-- A new inode without bytes gets a name. -/
def create (fs : FileSystem Name) (name : Name) : FileSystem Name :=
  { fs with
    dir := fs.dir.insert name fs.next
    data := Function.update fs.data fs.next []
    next := fs.next + 1
    dir_lt := by
      intro name' i hi
      by_cases hname : name' = name
      · rw [hname, AList.lookup_insert] at hi
        exact Option.some.inj hi ▸ Nat.lt_succ_self _
      · rw [AList.lookup_insert_ne hname] at hi
        exact Nat.lt_succ_of_lt (fs.dir_lt name' i hi)
    files_lt := fun fd f hf => Nat.lt_succ_of_lt (fs.files_lt fd f hf) }

/-! ### The system calls -/

/-- The first free descriptor from `fd` on, where one of the next `n` or the one after them
    is. -/
def lowestFrom (files : Nat → Option OpenFile) : Nat → Nat → Nat
  | 0, fd => fd
  | n + 1, fd => if (files fd).isNone then fd else lowestFrom files n (fd + 1)

/-- The lowest free descriptor. -/
def lowest (fs : FileSystem Name) : Nat := lowestFrom fs.files fs.limit 0

/-- The lowest free descriptor is given the inode. -/
def attach (fs : FileSystem Name) (inode : Nat) (h : inode < fs.next) : Nat × FileSystem Name :=
  (fs.lowest, fs.setFile fs.lowest ⟨inode, 0⟩ h)

/-- `open`, `none` where it fails. -/
def openFile (fs : FileSystem Name) (name : Name) (flags : OpenFlags) :
    Option (Nat × FileSystem Name) :=
  match h : fs.dir.lookup name with
  | some i =>
    if flags.creat && flags.excl then none
    else if flags.trunc then some ((fs.setData i []).attach i (fs.dir_lt name i h))
    else some (fs.attach i (fs.dir_lt name i h))
  | none =>
    if flags.creat then some ((fs.create name).attach fs.next (Nat.lt_succ_self _)) else none

/-- `read` of at most `n` bytes. -/
def read (fs : FileSystem Name) (fd n : Nat) : Option (List UInt8 × FileSystem Name) :=
  match fs.files fd with
  | none => none
  | some f =>
    let bytes := ((fs.data f.inode).drop f.offset).take n
    some (bytes, fs.setOffset fd (f.offset + bytes.length))

def write (fs : FileSystem Name) (fd : Nat) (bytes : List UInt8) : Option (FileSystem Name) :=
  match fs.files fd with
  | none => none
  | some f =>
    some ((fs.setData f.inode (writeAt (fs.data f.inode) f.offset bytes)).setOffset fd
      (f.offset + bytes.length))

/-- `lseek(fd, offset, SEEK_SET)`. -/
def seek (fs : FileSystem Name) (fd offset : Nat) : Option (FileSystem Name) :=
  match fs.files fd with
  | none => none
  | some _ => some (fs.setOffset fd offset)

/-- `lseek(fd, 0, SEEK_END)`, with the offset. -/
def seekEnd (fs : FileSystem Name) (fd : Nat) : Option (Nat × FileSystem Name) :=
  match fs.files fd with
  | none => none
  | some f => some ((fs.data f.inode).length, fs.setOffset fd (fs.data f.inode).length)

/-- `ftruncate`. -/
def truncate (fs : FileSystem Name) (fd size : Nat) : Option (FileSystem Name) :=
  match fs.files fd with
  | none => none
  | some f => some (fs.setData f.inode (resize (fs.data f.inode) size))

def unlink (fs : FileSystem Name) (name : Name) : Option (FileSystem Name) :=
  if (fs.dir.lookup name).isSome then some (fs.dropName name) else none

/-- `link`, which gives a file one more name. -/
def link (fs : FileSystem Name) (old new : Name) : Option (FileSystem Name) :=
  match h : fs.dir.lookup old with
  | none => none
  | some i =>
    if (fs.dir.lookup new).isSome then none else some (fs.setName new i (fs.dir_lt old i h))

/-- `rename`, which leaves two names of one inode as they are. -/
def rename (fs : FileSystem Name) (old new : Name) : Option (FileSystem Name) :=
  match h : fs.dir.lookup old with
  | none => none
  | some i =>
    if fs.dir.lookup new = some i then some fs
    else some ((fs.setName new i (fs.dir_lt old i h)).dropName old)

/-- The size that `stat` gives. -/
def size (fs : FileSystem Name) (name : Name) : Option Nat :=
  (fs.dir.lookup name).map fun i => (fs.data i).length

/-! ### Descriptors -/

variable {fs fs' fs'' : FileSystem Name} {name : Name} {fd i : Nat}

/-- A search that starts below the first descriptor that must be free finds a free one. -/
private theorem lowestFrom_free (files : Nat → Option OpenFile) (n fd : Nat)
    (hfree : files (fd + n) = none) : files (lowestFrom files n fd) = none := by
  induction n generalizing fd with
  | zero => exact hfree
  | succ n ih =>
    unfold lowestFrom
    split
    · rename_i hnone
      exact Option.isNone_iff_eq_none.1 hnone
    · apply ih
      rwa [Nat.add_right_comm, Nat.add_assoc]

@[simp] theorem files_lowest (fs : FileSystem Name) : fs.files fs.lowest = none := by
  apply lowestFrom_free
  exact fs.free _ (by omega)

/-- The descriptor stands for an open file of the inode. -/
def Opened (fs : FileSystem Name) (fd i : Nat) : Prop := ∃ off, fs.files fd = some ⟨i, off⟩

/-! ### What a change leaves alone -/

/-- `fs'` differs from `fs` in the bytes of the inode `i` and in the descriptors that are free
    or stand for `i`. -/
structure Touches (fs fs' : FileSystem Name) (i : Nat) : Prop where
  dir : fs'.dir = fs.dir
  data : ∀ j, j ≠ i → fs'.data j = fs.data j
  files : ∀ fd f, fs.files fd = some f → f.inode ≠ i → fs'.files fd = some f

theorem Touches.refl (fs : FileSystem Name) (i : Nat) : Touches fs fs i :=
  ⟨rfl, fun _ _ => rfl, fun _ _ hf _ => hf⟩

theorem Touches.trans (h : Touches fs fs' i) (h' : Touches fs' fs'' i) : Touches fs fs'' i where
  dir := h'.dir.trans h.dir
  data j hj := (h'.data j hj).trans (h.data j hj)
  files fd f hf hi := h'.files fd f (h.files fd f hf hi) hi

theorem touches_setData (fs : FileSystem Name) (i : Nat) (bytes : List UInt8) :
    Touches fs (fs.setData i bytes) i where
  dir := rfl
  data _ hj := Function.update_of_ne hj _ _
  files _ _ hf _ := hf

theorem touches_setOffset (hfd : ∀ f, fs.files fd = some f → f.inode = i) (offset : Nat) :
    Touches fs (fs.setOffset fd offset) i where
  dir := rfl
  data _ _ := rfl
  files fd' f hf hi := by
    apply (Function.update_of_ne _ _ _).trans hf
    rintro rfl
    exact hi (hfd f hf)

/-- A free descriptor is given out, and the inode may have been emptied. -/
theorem touches_update {g : Option OpenFile} (hfree : fs.files fd = none) (hdir : fs'.dir = fs.dir)
    (hdata : ∀ j, j ≠ i → fs'.data j = fs.data j)
    (hfiles : fs'.files = Function.update fs.files fd g) : Touches fs fs' i where
  dir := hdir
  data := hdata
  files fd' f hf _ := by
    rw [hfiles, Function.update_of_ne, hf]
    -- the descriptor has been free
    rintro rfl
    rw [hfree] at hf
    cases hf

theorem touches_close (hfd : ∀ f, fs.files fd = some f → f.inode = i) :
    Touches fs (fs.close fd) i where
  dir := rfl
  data _ _ := rfl
  files fd' f hf hi := by
    apply (Function.update_of_ne _ _ _).trans hf
    rintro rfl
    exact hi (hfd f hf)

theorem Opened.touches {j : Nat} (h : Opened fs fd j) (ht : Touches fs fs' i) (hne : j ≠ i) :
    Opened fs' fd j := by
  obtain ⟨off, hfile⟩ := h
  exact ⟨off, ht.files fd _ hfile hne⟩

theorem Opened.inode_eq (h : Opened fs fd i) {f : OpenFile} (hf : fs.files fd = some f) :
    f.inode = i := by
  obtain ⟨off, hfile⟩ := h
  rw [hfile] at hf
  rw [← Option.some.inj hf]

theorem Opened.ne {fd' j : Nat} (h : Opened fs fd i) (h' : Opened fs fd' j) (hne : i ≠ j) :
    fd ≠ fd' := by
  rintro rfl
  obtain ⟨off, hfile⟩ := h
  exact hne (h'.inode_eq hfile)

theorem Opened.congr (h : Opened fs fd i) (hfiles : fs'.files = fs.files) : Opened fs' fd i := by
  obtain ⟨off, hfile⟩ := h
  exact ⟨off, by rw [hfiles, hfile]⟩

theorem Opened.update {fd' j : Nat} {f : Option OpenFile} (h : Opened fs fd j)
    (hfree : fs.files fd' = none) (hfiles : fs'.files = Function.update fs.files fd' f) :
    Opened fs' fd j := by
  obtain ⟨off, hfile⟩ := h
  refine ⟨off, ?_⟩
  rw [hfiles, Function.update_of_ne, hfile]
  rintro rfl
  rw [hfree] at hfile
  cases hfile

theorem Opened.close {fd' : Nat} (h : Opened fs fd i) (hne : fd ≠ fd') :
    Opened (fs.close fd') fd i := by
  obtain ⟨off, hfile⟩ := h
  exact ⟨off, (Function.update_of_ne hne _ _).trans hfile⟩

theorem Opened.setOffset (h : Opened fs fd i) (offset : Nat) :
    Opened (fs.setOffset fd offset) fd i := by
  obtain ⟨off, hfile⟩ := h
  refine ⟨offset, ?_⟩
  show Function.update fs.files fd _ fd = _
  rw [Function.update_self, hfile]
  rfl

/-! ### What the calls do through a descriptor -/

theorem writeAt_length (bytes new : List UInt8) :
    writeAt bytes bytes.length new = bytes ++ new := by
  unfold writeAt
  split
  · rename_i hnil
    rw [hnil, List.append_nil]
  · rw [List.take_length, Nat.sub_self, List.replicate_zero, List.append_nil,
      List.drop_eq_nil_of_le (by omega), List.append_nil]

theorem writeAt_zero (bytes new : List UInt8) :
    writeAt bytes 0 new = new ++ bytes.drop new.length := by
  unfold writeAt
  split
  · rename_i hnil
    rw [hnil]
    rfl
  · rw [List.take_zero, Nat.zero_sub, List.replicate_zero, Nat.zero_add]
    rfl

/-- Two writes, the second one where the first one ends. -/
theorem writeAt_writeAt (bytes a b : List UInt8) (offset : Nat) :
    writeAt (writeAt bytes offset a) (offset + a.length) b = writeAt bytes offset (a ++ b) := by
  by_cases ha : a = []
  · subst ha
    simp [writeAt]
  by_cases hb : b = []
  · subst hb
    simp [writeAt]
  have hab : a ++ b ≠ [] := by simp [ha]
  unfold writeAt
  rw [if_neg ha, if_neg hb, if_neg hab, ← List.append_assoc _ a b]
  -- the second write keeps what goes up to the end of the first one
  have hfront : (bytes.take offset ++ List.replicate (offset - bytes.length) 0 ++ a).length =
      offset + a.length := by
    simp only [List.length_append, List.length_take, List.length_replicate]
    omega
  generalize bytes.take offset ++ List.replicate (offset - bytes.length) 0 ++ a = front at hfront
  rw [← hfront, List.take_left, List.drop_length_add_append, List.drop_drop]
  simp [hfront, Nat.add_assoc]

theorem files_setOffset {f : OpenFile} (hfile : fs.files fd = some f) (offset : Nat) :
    (fs.setOffset fd offset).files = Function.update fs.files fd (some { f with offset }) := by
  show Function.update fs.files fd ((fs.files fd).map _) = _
  rw [hfile]
  rfl

theorem read_eq {f : OpenFile} (hfile : fs.files fd = some f) (n : Nat) :
    fs.read fd n = some (((fs.data f.inode).drop f.offset).take n,
      fs.setOffset fd (f.offset + (((fs.data f.inode).drop f.offset).take n).length)) := by
  unfold FileSystem.read
  rw [hfile]

theorem write_eq {f : OpenFile} (hfile : fs.files fd = some f) (bytes : List UInt8) :
    fs.write fd bytes = some ((fs.setData f.inode
      (writeAt (fs.data f.inode) f.offset bytes)).setOffset fd (f.offset + bytes.length)) := by
  unfold FileSystem.write
  rw [hfile]

theorem Opened.read (h : Opened fs fd i) {n : Nat} {bytes : List UInt8}
    (hread : fs.read fd n = some (bytes, fs')) :
    Touches fs fs' i ∧ Opened fs' fd i ∧ fs'.data = fs.data := by
  unfold FileSystem.read at hread
  split at hread
  · cases hread
  obtain ⟨-, rfl⟩ := Prod.mk.inj (Option.some.inj hread)
  exact ⟨touches_setOffset (fun _ => h.inode_eq) _, h.setOffset _, rfl⟩

theorem Opened.write (h : Opened fs fd i) {bytes : List UInt8}
    (hwrite : fs.write fd bytes = some fs') : Touches fs fs' i ∧ Opened fs' fd i := by
  unfold FileSystem.write at hwrite
  split at hwrite
  · cases hwrite
  rename_i f hfile
  obtain rfl := Option.some.inj hwrite
  obtain rfl := h.inode_eq hfile
  have h' : Opened (fs.setData f.inode (writeAt (fs.data f.inode) f.offset bytes)) fd f.inode := h
  exact ⟨(touches_setData fs _ _).trans (touches_setOffset (fun _ => h'.inode_eq) _),
    h'.setOffset _⟩

theorem Opened.seek (h : Opened fs fd i) {offset : Nat} (hseek : fs.seek fd offset = some fs') :
    Touches fs fs' i ∧ Opened fs' fd i ∧ fs'.data = fs.data := by
  unfold FileSystem.seek at hseek
  split at hseek
  · cases hseek
  obtain rfl := Option.some.inj hseek
  exact ⟨touches_setOffset (fun _ => h.inode_eq) _, h.setOffset _, rfl⟩

theorem Opened.seekEnd (h : Opened fs fd i) {offset : Nat}
    (hseek : fs.seekEnd fd = some (offset, fs')) :
    Touches fs fs' i ∧ Opened fs' fd i := by
  unfold FileSystem.seekEnd at hseek
  split at hseek
  · cases hseek
  obtain ⟨-, rfl⟩ := Prod.mk.inj (Option.some.inj hseek)
  exact ⟨touches_setOffset (fun _ => h.inode_eq) _, h.setOffset _⟩

theorem Opened.truncate (h : Opened fs fd i) {size : Nat}
    (htruncate : fs.truncate fd size = some fs') : Touches fs fs' i ∧ Opened fs' fd i := by
  unfold FileSystem.truncate at htruncate
  split at htruncate
  · cases htruncate
  rename_i f hfile
  obtain rfl := Option.some.inj htruncate
  obtain rfl := h.inode_eq hfile
  exact ⟨touches_setData fs _ _, h⟩

/-! ### What the calls do to a name -/

/-- `open` of a name that is there gives out a descriptor of its inode. -/
theorem openFile_present (hname : fs.dir.lookup name = some i) {flags : OpenFlags}
    (hflags : (flags.creat && flags.excl) = false) :
    fs.openFile name flags = some (
      if flags.trunc then (fs.setData i []).attach i (fs.dir_lt name i hname)
      else fs.attach i (fs.dir_lt name i hname)) := by
  unfold openFile
  split
  · rename_i i' hlookup
    obtain rfl := Option.some.inj (hlookup.symm.trans hname)
    rw [hflags]
    cases flags.trunc <;> rfl
  · rename_i hlookup
    rw [hname] at hlookup
    cases hlookup

theorem openFile_present_spec (hname : fs.dir.lookup name = some i) (flags : OpenFlags)
    (hflags : (flags.creat && flags.excl) = false) :
    ∃ fd fs', fs.openFile name flags = some (fd, fs') ∧ fs.files fd = none ∧ fs'.dir = fs.dir ∧
      fs'.data = (if flags.trunc then Function.update fs.data i [] else fs.data) ∧
      fs'.files = Function.update fs.files fd (some ⟨i, 0⟩) ∧ fs'.next = fs.next := by
  rw [openFile_present hname hflags]
  cases flags.trunc with
  | true => exact ⟨_, _, rfl, files_lowest (fs.setData i []), rfl, rfl, rfl, rfl⟩
  | false => exact ⟨_, _, rfl, files_lowest fs, rfl, rfl, rfl, rfl⟩

theorem openFile_spec (hname : fs.dir.lookup name = some i) :
    ∃ fd fs', fs.openFile name {} = some (fd, fs') ∧ fs.files fd = none ∧ fs'.dir = fs.dir ∧
      fs'.data = fs.data ∧ fs'.files = Function.update fs.files fd (some ⟨i, 0⟩) ∧
      fs'.next = fs.next :=
  openFile_present_spec hname {} rfl

/-- `open` that makes a file under a name that is not there. -/
theorem openFile_new_spec (hname : fs.dir.lookup name = none) (flags : OpenFlags)
    (hcreat : flags.creat = true) :
    ∃ fd fs', fs.openFile name flags = some (fd, fs') ∧
      fs.files fd = none ∧ fs'.dir = fs.dir.insert name fs.next ∧
      fs'.data = Function.update fs.data fs.next [] ∧
      fs'.files = Function.update fs.files fd (some ⟨fs.next, 0⟩) := by
  refine ⟨(fs.create name).lowest, (fs.create name).setFile (fs.create name).lowest ⟨fs.next, 0⟩
    (Nat.lt_succ_self _), ?_, files_lowest (fs.create name), rfl, rfl, rfl⟩
  unfold openFile
  split
  · rename_i i' hlookup
    rw [hname] at hlookup
    cases hlookup
  · rw [if_pos hcreat]
    rfl

theorem openFile_absent (hname : fs.dir.lookup name = none) {flags : OpenFlags}
    (hcreat : flags.creat = false) : fs.openFile name flags = none := by
  unfold openFile
  split
  · rename_i i' hlookup
    rw [hname] at hlookup
    cases hlookup
  · rw [hcreat]
    rfl

theorem openFile_exclusive (hname : fs.dir.lookup name = some i) {flags : OpenFlags}
    (hcreat : flags.creat = true) (hexcl : flags.excl = true) : fs.openFile name flags = none := by
  unfold openFile
  split
  · rw [hcreat, hexcl]
    rfl
  · rename_i hlookup
    rw [hname] at hlookup
    cases hlookup

/-- `link` of a file to a name that is not there. -/
theorem link_spec {old new : Name} (hold : fs.dir.lookup old = some i)
    (hnew : fs.dir.lookup new = none) :
    ∃ fs', fs.link old new = some fs' ∧ fs'.dir = fs.dir.insert new i ∧ fs'.data = fs.data := by
  refine ⟨fs.setName new i (fs.dir_lt old i hold), ?_, rfl, rfl⟩
  unfold link
  split
  · rename_i hlookup
    rw [hold] at hlookup
    cases hlookup
  · rename_i i' hlookup
    obtain rfl := Option.some.inj (hlookup.symm.trans hold)
    rw [hnew]
    rfl

theorem link_absent {old new : Name} (hold : fs.dir.lookup old = none) :
    fs.link old new = none := by
  unfold link
  split
  · rfl
  · rename_i i' hlookup
    rw [hold] at hlookup
    cases hlookup

/-- `rename` of a file over another. -/
theorem rename_spec {old new : Name} {j : Nat} (hold : fs.dir.lookup old = some j)
    (hnew : fs.dir.lookup new = some i) (hne : i ≠ j) :
    ∃ fs', fs.rename old new = some fs' ∧ fs'.dir = (fs.dir.insert new j).erase old ∧
      fs'.data = fs.data ∧ fs'.files = fs.files := by
  refine ⟨(fs.setName new j (fs.dir_lt old j hold)).dropName old, ?_, rfl, rfl, rfl⟩
  unfold rename
  split
  · rename_i hlookup
    rw [hold] at hlookup
    cases hlookup
  · rename_i j' hlookup
    obtain rfl := Option.some.inj (hlookup.symm.trans hold)
    rw [if_neg fun hsame => hne (Option.some.inj (hnew.symm.trans hsame))]

/-! ### One name for each file -/

/-- No inode has two names. -/
def Linkless (fs : FileSystem Name) : Prop :=
  ∀ name name' i, fs.dir.lookup name = some i → fs.dir.lookup name' = some i → name = name'

theorem Linkless.congr (h : Linkless fs) (hdir : fs'.dir = fs.dir) : Linkless fs' := by
  unfold Linkless
  rw [hdir]
  exact h

theorem linkless_empty : Linkless (empty : FileSystem Name) := by
  intro name name' i h
  rw [show (empty : FileSystem Name).dir = ∅ from rfl, AList.lookup_empty] at h
  cases h

/-- A name for a new inode. -/
theorem Linkless.insert (h : Linkless fs) {name : Name}
    (hdir : fs'.dir = fs.dir.insert name fs.next) : Linkless fs' := by
  intro a b i ha hb
  rw [hdir] at ha hb
  -- no name that was there has the new inode
  have hnew : ∀ c, c ≠ name → fs.dir.lookup c = some fs.next → False := fun c _ hlookup =>
    Nat.lt_irrefl _ (fs.dir_lt c _ hlookup)
  by_cases hna : a = name
  · by_cases hnb : b = name
    · rw [hna, hnb]
    · rw [hna, AList.lookup_insert] at ha
      rw [AList.lookup_insert_ne hnb, ← Option.some.inj ha] at hb
      exact (hnew b hnb hb).elim
  · rw [AList.lookup_insert_ne hna] at ha
    by_cases hnb : b = name
    · rw [hnb, AList.lookup_insert] at hb
      rw [← Option.some.inj hb] at ha
      exact (hnew a hna ha).elim
    · rw [AList.lookup_insert_ne hnb] at hb
      exact h a b i ha hb

/-- A name less. -/
theorem Linkless.erase (h : Linkless fs) {name : Name} (hdir : fs'.dir = fs.dir.erase name) :
    Linkless fs' := by
  intro a b i ha hb
  rw [hdir] at ha hb
  by_cases hna : a = name
  · rw [hna, AList.lookup_erase] at ha
    cases ha
  · by_cases hnb : b = name
    · rw [hnb, AList.lookup_erase] at hb
      cases hb
    · rw [AList.lookup_erase_ne hna] at ha
      rw [AList.lookup_erase_ne hnb] at hb
      exact h a b i ha hb

/-- The bytes under a name. -/
def content (fs : FileSystem Name) (name : Name) : Option (List UInt8) :=
  (fs.dir.lookup name).map fs.data

theorem content_congr (hdir : fs'.dir = fs.dir) (hdata : fs'.data = fs.data) :
    fs'.content = fs.content := by
  funext name
  rw [content, content, hdir, hdata]

theorem content_eq (hname : fs.dir.lookup name = some i) : fs.content name = some (fs.data i) := by
  rw [content, hname]
  rfl

/-- A change to one inode leaves the bytes under the other names alone. -/
theorem Touches.content (h : Touches fs fs' i) (hlinks : Linkless fs)
    (hname : fs.dir.lookup name = some i) {other : Name} (hne : other ≠ name) :
    fs'.content other = fs.content other := by
  unfold FileSystem.content
  rw [h.dir]
  cases hother : fs.dir.lookup other with
  | none => rfl
  | some j =>
    have hij : j ≠ i := by
      rintro rfl
      exact hne (hlinks _ _ _ hother hname)
    rw [Option.map_some, Option.map_some, h.data j hij]

end FileSystem
