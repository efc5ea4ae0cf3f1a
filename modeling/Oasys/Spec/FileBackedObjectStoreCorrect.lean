import Oasys.Spec.FileBackedObjectBytes
import Oasys.Storage.FileBackedObjectStore

/-!
# FileBackedObjectStore is a map

The objects of a store are the files of its directory, and under any sequence of calls they
are what a map from keys to byte strings has (`Sim`): the calls return what they return on
the map, and `get_object_names` finds its keys, whatever the order that `readdir` goes in.
`get_stats` does not count them: its loop counts the two directories that every directory
has and the end of the directory as well, so it is off by three in every state.
-/

namespace Oasys.FileBackedObjectStore

open FileSystem

/-! ### The runs -/

/-- The key is the name of a file, and not of a directory. -/
def ValidKey (key : String) : Prop :=
  '/' ∉ key.toList ∧ '\x00' ∉ key.toList ∧ key ≠ "" ∧ key ≠ "." ∧ key ≠ ".."

instance (key : String) : Decidable (ValidKey key) :=
  inferInstanceAs (Decidable (_ ∧ _ ∧ _ ∧ _ ∧ _))

/-- A map from keys to byte strings. -/
abbrev Objects := AList fun _ : String => List UInt8

inductive Op where
  | newObject (key : String)
  | copyObject (src dest : String)
  | delObject (key : String)
  /-- `write_bytes` through a handle that is used for nothing else. -/
  | writeBytes (key : String) (cur_offset offset : Nat) (buf : List UInt8)
  deriving DecidableEq, Repr

/-- A call on the store. -/
def exec (s : FileBackedObjectStore) (fs : FileSystem String) :
    Op → Except Fault (Int × FileSystem String)
  | .newObject key => s.newObject fs key
  | .copyObject src dest => s.copyObject fs src dest
  | .delObject key => s.delObject fs key
  | .writeBytes key cur_offset offset buf => do
    let o ← s.getHandle fs key cur_offset
    let (fs, o) ← o.writeBytes fs offset buf
    pure (buf.length, o.destroy fs)

/-- The same call on a map. -/
def onMap (m : Objects) : Op → Int × Objects
  | .newObject key => if key ∈ m then (-1, m) else (0, m.insert key [])
  | .copyObject src dest =>
    match m.lookup src with
    | none => (-1, m)
    | some bytes => if dest ∈ m then (-1, m) else (0, m.insert dest bytes)
  | .delObject key => if key ∈ m then (0, m.erase key) else (-1, m)
  | .writeBytes key _ offset buf =>
    (buf.length, m.insert key (writeAt ((m.lookup key).getD []) offset buf))

/-- The keys are valid, an object that is written to is there, and the kernel writes what
    it is asked to. -/
def Proper (m : Objects) : Op → Prop
  | .newObject key | .delObject key => ValidKey key
  | .copyObject src dest => ValidKey src ∧ ValidKey dest
  | .writeBytes key _ offset buf => ValidKey key ∧ key ∈ m ∧ buf.length ≤ maxRwCount ∧
      offset + buf.length < FileBackedObject.maxOffset

instance (m : Objects) (op : Op) : Decidable (Proper m op) :=
  match op with
  | .newObject key | .delObject key => inferInstanceAs (Decidable (ValidKey key))
  | .copyObject src dest => inferInstanceAs (Decidable (ValidKey src ∧ ValidKey dest))
  | .writeBytes key _ offset buf => inferInstanceAs (Decidable (ValidKey key ∧ key ∈ m ∧
      buf.length ≤ maxRwCount ∧ offset + buf.length < FileBackedObject.maxOffset))

/-- The files, and the map that the same calls have made. -/
structure State where
  fs : FileSystem String
  objects : Objects

/-- A store whose directory is empty to begin with, under any sequence of proper calls that
    return. What else is in the file system does not matter. -/
def system (s : FileBackedObjectStore) : TransitionSystem State Op where
  init st := (∀ key, ValidKey key → st.fs.dir.lookup (s.objectPath key) = none) ∧ st.objects = ∅
  step st op st' := Proper st.objects op ∧ ∃ ret, s.exec st.fs op = .ok (ret, st'.fs) ∧
    st'.objects = (onMap st.objects op).2

/-- What `readdir` returns for the directory of the store, in any order. -/
structure Lists (s : FileBackedObjectStore) (fs : FileSystem String) (dir : List String) :
    Prop where
  nodup : dir.Nodup
  mem_iff : ∀ name, name ∈ dir ↔ name = "." ∨ name = ".." ∨
    ValidKey name ∧ (fs.dir.lookup (s.objectPath name)).isSome

/-! ### What a map promises -/

/-- The store is the map, to every call but `get_stats`. -/
structure AsMap (s : FileBackedObjectStore) (st : State) : Prop where
  /-- A call returns what it returns on the map. -/
  answers : ∀ op, Proper st.objects op →
    ∃ fs', s.exec st.fs op = .ok ((onMap st.objects op).1, fs')
  objectExists_eq : ∀ key, ValidKey key → s.objectExists st.fs key = decide (key ∈ st.objects)
  content_eq : ∀ key, ValidKey key → st.fs.content (s.objectPath key) = st.objects.lookup key
  /-- The names are the keys, each once. -/
  names : ∀ dir, s.Lists st.fs dir → (getObjectNames dir).Perm st.objects.keys

def Counts (s : FileBackedObjectStore) (st : State) : Prop :=
  ∀ dir, s.Lists st.fs dir → (getStats dir).total_objects_.toNat = st.objects.keys.length

/-! ### The two scans of the directory -/

def dots : List String := [".", ".."]

theorem namesLoop_eq (dir names : List String) :
    namesLoop dir names = names ++ dir.filter (· ∉ dots) := by
  induction dir generalizing names with
  | nil => simp [namesLoop]
  | cons d_name dir ih =>
    rw [namesLoop, ih]
    by_cases hdot : d_name = "." ∨ d_name = ".."
    · rw [if_pos hdot, List.filter_cons_of_neg]
      simpa [dots, or_iff_not_imp_left] using hdot
    · rw [if_neg hdot, List.filter_cons_of_pos, List.append_assoc, List.singleton_append]
      simpa [dots] using hdot

theorem statsLoop_total (dir : List String) (stats : Stats) :
    (statsLoop dir stats).total_objects_.toNat =
      (stats.total_objects_.toNat + dir.length + 1) % 2 ^ 32 := by
  induction dir generalizing stats with
  | nil => simp [statsLoop]
  | cons d_name dir ih =>
    rw [statsLoop, ih]
    simp only [UInt32.toNat_add, UInt32.toNat_one, List.length_cons]
    omega

/-! ### The files are those of the map -/

/-- The files of the directory are the objects of the map, and their inodes have no other
    name. -/
structure Sim (s : FileBackedObjectStore) (fs : FileSystem String) (m : Objects) : Prop where
  content : ∀ key, ValidKey key → fs.content (s.objectPath key) = m.lookup key
  valid : ∀ key ∈ m, ValidKey key
  alone : ∀ key, ValidKey key → ∀ i name, fs.dir.lookup (s.objectPath key) = some i →
    fs.dir.lookup name = some i → name = s.objectPath key

section Sim

variable {s : FileBackedObjectStore} {fs fs' : FileSystem String} {m : Objects}
  {key key' : String} {i : Nat}

@[simp] theorem objectPath_inj : s.objectPath key = s.objectPath key' ↔ key = key' := by
  simp [objectPath]

theorem Sim.mem_iff (h : s.Sim fs m) (hkey : ValidKey key) :
    key ∈ m ↔ (fs.dir.lookup (s.objectPath key)).isSome := by
  rw [← AList.lookup_isSome, ← h.content key hkey, FileSystem.content, Option.isSome_map]

theorem Sim.objectExists (h : s.Sim fs m) (hkey : ValidKey key) :
    s.objectExists fs key = decide (key ∈ m) := by
  rw [Bool.eq_iff_iff, decide_eq_true_iff, h.mem_iff hkey, FileBackedObjectStore.objectExists,
    FileSystem.size, Option.isSome_map]

theorem Sim.lookup_none (h : s.Sim fs m) (hkey : ValidKey key) (hnew : key ∉ m) :
    fs.dir.lookup (s.objectPath key) = none := by
  rw [h.mem_iff hkey] at hnew
  simpa using hnew

theorem Sim.lookup_some (h : s.Sim fs m) (hkey : ValidKey key) {bytes : List UInt8}
    (hbytes : m.lookup key = some bytes) :
    ∃ i, fs.dir.lookup (s.objectPath key) = some i ∧ fs.data i = bytes := by
  rw [← h.content key hkey, FileSystem.content] at hbytes
  exact Option.map_eq_some_iff.1 hbytes

theorem Sim.insert_new (h : s.Sim fs m) (hkey : ValidKey key) {bytes : List UInt8}
    (hdir : fs'.dir = fs.dir.insert (s.objectPath key) fs.next)
    (hdata : fs'.data = Function.update fs.data fs.next bytes) :
    s.Sim fs' (m.insert key bytes) where
  content key' hkey' := by
    by_cases heq : key' = key
    · subst heq
      simp [FileSystem.content, hdir, hdata]
    · have hpath : s.objectPath key' ≠ s.objectPath key := by simpa using heq
      rw [AList.lookup_insert_ne heq, ← h.content key' hkey', FileSystem.content,
        FileSystem.content, hdir, AList.lookup_insert_ne hpath]
      -- the inodes that were there are not the new one
      cases hlookup : fs.dir.lookup (s.objectPath key') with
      | none => rfl
      | some j =>
        have hlt := fs.dir_lt _ j hlookup
        rw [Option.map_some, Option.map_some, hdata, Function.update_of_ne (by omega)]
  valid key' hmem := by
    rw [AList.mem_insert] at hmem
    obtain rfl | hmem := hmem
    · exact hkey
    · exact h.valid key' hmem
  alone key' hkey' i name hi hname := by
    rw [hdir] at hi hname
    by_cases heq : key' = key
    · subst heq
      rw [AList.lookup_insert] at hi
      obtain rfl := Option.some.inj hi
      by_contra hne
      rw [AList.lookup_insert_ne hne] at hname
      exact Nat.lt_irrefl _ (fs.dir_lt _ _ hname)
    · have hpath : s.objectPath key' ≠ s.objectPath key := by simpa using heq
      rw [AList.lookup_insert_ne hpath] at hi
      have hlt := fs.dir_lt _ i hi
      have hne : name ≠ s.objectPath key := by
        rintro rfl
        rw [AList.lookup_insert, Option.some.injEq] at hname
        omega
      rw [AList.lookup_insert_ne hne] at hname
      exact h.alone key' hkey' i name hi hname

theorem Sim.erase (h : s.Sim fs m) (hdir : fs'.dir = fs.dir.erase (s.objectPath key))
    (hdata : fs'.data = fs.data) : s.Sim fs' (m.erase key) where
  content key' hkey' := by
    by_cases heq : key' = key
    · subst heq
      simp [FileSystem.content, hdir]
    · have hpath : s.objectPath key' ≠ s.objectPath key := by simpa using heq
      rw [AList.lookup_erase_ne heq, ← h.content key' hkey', FileSystem.content,
        FileSystem.content, hdir, hdata, AList.lookup_erase_ne hpath]
  valid key' hmem := h.valid key' (AList.mem_erase.1 hmem).2
  alone key' hkey' i name hi hname := by
    rw [hdir] at hi hname
    -- a name that is left was there
    have hkept : ∀ {a : String}, (fs.dir.erase (s.objectPath key)).lookup a = some i →
        fs.dir.lookup a = some i := by
      intro a ha
      by_cases heq : a = s.objectPath key
      · rw [heq, AList.lookup_erase] at ha
        cases ha
      · rwa [AList.lookup_erase_ne heq] at ha
    exact h.alone key' hkey' i name (hkept hi) (hkept hname)

theorem Sim.update (h : s.Sim fs m) (hkey : ValidKey key)
    (hi : fs.dir.lookup (s.objectPath key) = some i) (hdir : fs'.dir = fs.dir)
    (hdata : ∀ j, j ≠ i → fs'.data j = fs.data j) :
    s.Sim fs' (m.insert key (fs'.data i)) where
  content key' hkey' := by
    rw [FileSystem.content, hdir]
    by_cases heq : key' = key
    · subst heq
      rw [hi, AList.lookup_insert]
      rfl
    · rw [AList.lookup_insert_ne heq, ← h.content key' hkey', FileSystem.content]
      cases hlookup : fs.dir.lookup (s.objectPath key') with
      | none => rfl
      | some j =>
        have hji : j ≠ i := by
          rintro rfl
          have hsame := h.alone key hkey j _ hi hlookup
          exact heq (objectPath_inj.1 hsame)
        rw [Option.map_some, Option.map_some, hdata j hji]
  valid key' hmem' := by
    rw [AList.mem_insert] at hmem'
    obtain rfl | hmem' := hmem'
    · exact hkey
    · exact h.valid key' hmem'
  alone key' hkey' := by
    rw [hdir]
    exact h.alone key' hkey'

/-! ### The calls -/

theorem Sim.newObject (h : s.Sim fs m) (hkey : ValidKey key) :
    ∃ fs', s.newObject fs key = .ok ((onMap m (.newObject key)).1, fs') ∧
      s.Sim fs' (onMap m (.newObject key)).2 := by
  unfold FileBackedObjectStore.newObject onMap
  rw [h.objectExists hkey]
  by_cases hmem : key ∈ m
  · simp only [hmem, decide_true, if_true]
    exact ⟨fs, rfl, h⟩
  · simp only [hmem, decide_false, Bool.false_eq_true, if_false]
    obtain ⟨fd, fs₁, hopen, -, hdir, hdata, -⟩ :=
      openFile_new_spec (h.lookup_none hkey hmem) { creat := true, excl := true } rfl
    rw [hopen]
    exact ⟨fs₁.close fd, rfl, h.insert_new hkey hdir hdata⟩

theorem Sim.delObject (h : s.Sim fs m) (hkey : ValidKey key) :
    ∃ fs', s.delObject fs key = .ok ((onMap m (.delObject key)).1, fs') ∧
      s.Sim fs' (onMap m (.delObject key)).2 := by
  unfold FileBackedObjectStore.delObject onMap
  rw [h.objectExists hkey]
  by_cases hmem : key ∈ m
  · simp only [hmem, decide_true, Bool.not_true, Bool.false_eq_true, if_true, if_false]
    rw [unlink, if_pos ((h.mem_iff hkey).1 hmem)]
    exact ⟨_, rfl, h.erase rfl rfl⟩
  · simp only [hmem, decide_false, Bool.not_false, if_true, if_false]
    exact ⟨fs, rfl, h⟩

theorem Sim.copyObject (h : s.Sim fs m) {src dest : String} (hsrc : ValidKey src)
    (hdest : ValidKey dest) :
    ∃ fs', s.copyObject fs src dest = .ok ((onMap m (.copyObject src dest)).1, fs') ∧
      s.Sim fs' (onMap m (.copyObject src dest)).2 := by
  unfold FileBackedObjectStore.copyObject onMap
  rw [h.objectExists hsrc, h.objectExists hdest]
  cases hbytes : m.lookup src with
  | none =>
    have hmem : src ∉ m := AList.lookup_eq_none.1 hbytes
    simp only [hbytes, hmem, decide_false, Bool.not_false, if_true]
    exact ⟨fs, rfl, h⟩
  | some bytes =>
    have hmem : src ∈ m := by
      rw [← AList.lookup_isSome, hbytes]
      rfl
    simp only [hbytes, hmem, decide_true, Bool.not_true, Bool.false_eq_true, if_false,
      decide_eq_true_eq]
    by_cases hthere : dest ∈ m
    · simp only [hthere, if_true]
      exact ⟨fs, rfl, h⟩
    · simp only [hthere, if_false]
      obtain ⟨i, hi, hdata⟩ := h.lookup_some hsrc hbytes
      obtain ⟨fs', hcopy, hdir', hdata', -⟩ :=
        FileBackedObject.fastCopy_spec hi (h.lookup_none hdest hthere)
      rw [hcopy]
      exact ⟨fs', rfl, h.insert_new hdest hdir' (by rw [hdata', hdata])⟩

theorem Sim.writeBytes (h : s.Sim fs m) {cur_offset offset : Nat} {buf : List UInt8}
    (hproper : Proper m (.writeBytes key cur_offset offset buf)) :
    ∃ fs', s.exec fs (.writeBytes key cur_offset offset buf) =
        .ok ((onMap m (.writeBytes key cur_offset offset buf)).1, fs') ∧
      s.Sim fs' (onMap m (.writeBytes key cur_offset offset buf)).2 := by
  obtain ⟨hkey, hmem, hlength, hfits⟩ := hproper
  obtain ⟨bytes, hbytes⟩ := Option.isSome_iff_exists.1 (AList.lookup_isSome.2 hmem)
  obtain ⟨i, hi, hdata⟩ := h.lookup_some hkey hbytes
  -- the handle is at the inode of the key, without a descriptor
  have hholds : FileBackedObject.Holds fs (.new (s.objectPath key) cur_offset) i bytes :=
    ⟨⟨rfl, hi, nofun⟩, hdata, nofun⟩
  obtain ⟨fs', o', hwrite, hholds'⟩ := hholds.write hlength hfits
  have ht : Touches fs fs' i := (FileBackedObject.writeBytes_stays hholds.at_ hwrite).touches
  have hassert : assert (s.objectExists fs key) = .ok () := by
    rw [h.objectExists hkey, decide_eq_true hmem]
    rfl
  obtain ⟨hdir, hsame, -⟩ := FileBackedObject.destroy_spec fs' o'
  refine ⟨o'.destroy fs', ?_, ?_⟩
  · show (s.getHandle fs key cur_offset >>= _) = _
    rw [FileBackedObjectStore.getHandle, hassert, ok_bind, pure_eq_ok, ok_bind, hwrite, ok_bind]
    rfl
  · have hsim : s.Sim (o'.destroy fs') _ := h.update hkey hi (hdir.trans ht.dir) fun j hj => by
      rw [hsame, ht.data j hj]
    rw [hsame, hholds'.data] at hsim
    show s.Sim _ (m.insert key (writeAt ((m.lookup key).getD []) offset buf))
    rwa [hbytes]

/-- A proper call returns what it returns on the map, and the files are those of the map
    again. -/
theorem Sim.exec (h : s.Sim fs m) {op : Op} (hproper : Proper m op) :
    ∃ fs', s.exec fs op = .ok ((onMap m op).1, fs') ∧ s.Sim fs' (onMap m op).2 := by
  cases op with
  | newObject key => exact h.newObject hproper
  | copyObject src dest => exact h.copyObject hproper.1 hproper.2
  | delObject key => exact h.delObject hproper
  | writeBytes key cur_offset offset buf => exact h.writeBytes hproper

/-! ### What the scans find -/

theorem ValidKey.not_mem_dots (h : ValidKey key) : key ∉ dots := by
  obtain ⟨-, -, -, hdot, hdotdot⟩ := h
  simp [dots, hdot, hdotdot]

theorem Sim.lists (h : s.Sim fs m) : s.Lists fs (dots ++ m.keys) where
  nodup := by
    rw [List.nodup_append]
    refine ⟨by decide, m.nodupKeys, ?_⟩
    rintro name hdot _ hmem rfl
    exact (h.valid name hmem).not_mem_dots hdot
  mem_iff name := by
    constructor
    · intro hname
      obtain hdot | hmem := List.mem_append.1 hname
      · simp only [dots, List.mem_cons, List.not_mem_nil, or_false] at hdot
        tauto
      · have hkey := h.valid name hmem
        exact .inr (.inr ⟨hkey, (h.mem_iff hkey).1 hmem⟩)
    · rintro (rfl | rfl | ⟨hkey, hthere⟩)
      · simp [dots]
      · simp [dots]
      · exact List.mem_append_right _ ((h.mem_iff hkey).2 hthere)

theorem Sim.perm (h : s.Sim fs m) {dir : List String} (hdir : s.Lists fs dir) :
    dir.Perm (dots ++ m.keys) := by
  rw [List.perm_ext_iff_of_nodup hdir.nodup h.lists.nodup]
  intro name
  rw [hdir.mem_iff, h.lists.mem_iff]

theorem Sim.names (h : s.Sim fs m) {dir : List String} (hdir : s.Lists fs dir) :
    (getObjectNames dir).Perm m.keys := by
  rw [getObjectNames, namesLoop_eq, List.nil_append]
  have hperm := (h.perm hdir).filter (· ∉ dots)
  have hkeys : m.keys.filter (· ∉ dots) = m.keys := by
    apply List.filter_eq_self.2
    intro name hmem
    simpa using (h.valid name hmem).not_mem_dots
  have hdots : dots.filter (· ∉ dots) = [] := by decide
  rw [List.filter_append, hdots, hkeys, List.nil_append] at hperm
  exact hperm

theorem Sim.total_objects (h : s.Sim fs m) {dir : List String} (hdir : s.Lists fs dir) :
    (getStats dir).total_objects_.toNat = (m.keys.length + 3) % 2 ^ 32 := by
  rw [getStats, statsLoop_total, (h.perm hdir).length_eq]
  simp only [UInt32.toNat_zero, List.length_append, dots, List.length_cons, List.length_nil]
  congr 1
  omega

end Sim

/-! ### Whole runs -/

variable {s : FileBackedObjectStore} {st : State}

theorem sim_of_reachable (h : (system s).Reachable st) : s.Sim st.fs st.objects := by
  refine h.invariant (P := fun st => s.Sim st.fs st.objects) ?_ ?_
  · intro st hinit
    obtain ⟨hempty, hobjects⟩ := hinit
    have hnone : ∀ key, ValidKey key → st.fs.content (s.objectPath key) = none := by
      intro key hkey
      rw [content, hempty key hkey]
      rfl
    refine ⟨fun key hkey => ?_, ?_, ?_⟩
    · rw [hnone key hkey, hobjects, AList.lookup_empty]
    · rw [hobjects]
      exact fun key hmem => absurd hmem (AList.notMem_empty key)
    · intro key hkey i name hi
      rw [hempty key hkey] at hi
      cases hi
  · intro st op st' hsim _ hstep
    obtain ⟨hproper, ret, hexec, hobjects⟩ := hstep
    obtain ⟨fs', hexec', hsim'⟩ := hsim.exec hproper
    obtain ⟨-, rfl⟩ := Prod.mk.inj (Except.ok.inj (hexec'.symm.trans hexec))
    rwa [hobjects]

/-- In every state the store is the map to all calls but `get_stats`, and `get_stats` counts
    something else than the objects, whatever the order that `readdir` goes in. -/
theorem asMap_and_miscounts (h : (system s).Reachable st) :
    s.AsMap st ∧ (∃ dir, s.Lists st.fs dir) ∧ ∀ dir, s.Lists st.fs dir →
      (getStats dir).total_objects_.toNat ≠ st.objects.keys.length := by
  have hsim := sim_of_reachable h
  refine ⟨⟨?_, ?_, hsim.content, fun dir hdir => hsim.names hdir⟩, ⟨_, hsim.lists⟩, ?_⟩
  · intro op hproper
    obtain ⟨fs', hexec, -⟩ := hsim.exec hproper
    exact ⟨fs', hexec⟩
  · exact fun key hkey => hsim.objectExists hkey
  · intro dir hdir
    rw [hsim.total_objects hdir]
    omega

/-- An object, and a copy of it. -/
theorem asMap_and_miscounts_copy : ∃ st : State, st.objects.lookup "b" = some [7] ∧
    AsMap ⟨"r"⟩ st ∧ (∃ dir, Lists ⟨"r"⟩ st.fs dir) ∧ ∀ dir, Lists ⟨"r"⟩ st.fs dir →
      (getStats dir).total_objects_.toNat ≠ st.objects.keys.length := by
  have hstart : (system ⟨"r"⟩).Reachable ⟨FileSystem.empty, ∅⟩ := .init ⟨fun _ _ => rfl, rfl⟩
  have hnew : (system ⟨"r"⟩).Reachable ⟨_, _⟩ :=
    .step (a := .newObject "a") hstart trivial ⟨by decide, 0, rfl, rfl⟩
  have hwrite : (system ⟨"r"⟩).Reachable ⟨_, _⟩ :=
    .step (a := .writeBytes "a" 0 0 [7]) hnew trivial ⟨by decide, 1, rfl, rfl⟩
  have hcopy : (system ⟨"r"⟩).Reachable ⟨_, _⟩ :=
    .step (a := .copyObject "a" "b") hwrite trivial ⟨by decide, 0, rfl, rfl⟩
  exact ⟨_, rfl, asMap_and_miscounts hcopy⟩

/-- `get_stats` does not count the objects: the store that has none has three of them. -/
theorem not_asMap_and_counts : ¬ ∀ s st, (system s).Reachable st → s.AsMap st ∧ s.Counts st := by
  intro h
  have hstart : (system ⟨"r"⟩).Reachable ⟨FileSystem.empty, ∅⟩ := .init ⟨fun _ _ => rfl, rfl⟩
  obtain ⟨-, hcounts⟩ := h _ _ hstart
  have hlists := (sim_of_reachable hstart).lists
  have hzero := hcounts _ hlists
  revert hzero
  decide

end Oasys.FileBackedObjectStore
