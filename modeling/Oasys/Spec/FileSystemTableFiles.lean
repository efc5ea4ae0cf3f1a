import Oasys.Spec.FileSystemTableCache

/-!
# FileSystemTable: the files

What `put`, `del` and `get_common` do to the bytes under the names. They do it the same way
whether the descriptor comes from the cache or not: a descriptor of the cache is moved to
the start, and an opened one stands there.
-/

namespace Oasys.FileSystemTable

open FileSystem (Opened Touches Linkless)

variable {s s' : State} {fs fs' : FileSystem Path} {name : Path} {fd i : Nat}
  {flags : DurableStoreFlags}

/-- A call holds a descriptor with which it can start to read or write. -/
structure Ready (s : State) (name : Path) (fd i : Nat) : Prop extends Held s name fd i where
  start : s.cache_ = none → s.fs.files fd = some ⟨i, 0⟩

theorem Idle.ready (h : Idle s) (hnew : Uncached s name)
    (hname : s.fs.dir.lookup name = some i) (hfile : s.fs.files fd = some ⟨i, 0⟩)
    (hlow : Evictable s name) :
    ∃ s', s.putAndPin name fd = .ok (fd, s') ∧ Ready s' name fd i ∧
      s'.fs.content = s.fs.content := by
  obtain ⟨s', hput, hheld, hfile', hcontent⟩ := h.putAndPin hnew hname hfile hlow
  exact ⟨s', hput, ⟨hheld, fun _ => hfile'⟩, hcontent⟩

/-! ### get_common -/

theorem openForGet_absent (h : Idle s) (hname : s.fs.dir.lookup name = none) :
    openForGet s name = .ok (none, s) := by
  have hopen : s.fs.openFile name {} = none := FileSystem.openFile_absent hname rfl
  unfold openForGet
  simp only [getAndPin_uncached (h.uncached hname), bind, Except.bind, hopen]
  rfl

theorem openForGet_present (h : Idle s) (hname : s.fs.dir.lookup name = some i)
    (hlow : Evictable s name) :
    ∃ fd s', openForGet s name = .ok (some fd, s') ∧ Ready s' name fd i ∧
      s'.fs.content = s.fs.content := by
  unfold openForGet
  by_cases hcached : Uncached s name
  · -- the file is opened, and goes into the cache if there is one
    obtain ⟨fd, fs', hopen, hfree, hdir, hdata, hfiles, -⟩ := FileSystem.openFile_spec hname
    have hidle : Idle { s with fs := fs' } :=
      h.opened (h.links.congr hdir) (fun other j hother => hdir ▸ hother) hfree hfiles
    obtain ⟨s', hput, hready, hcontent⟩ := hidle.ready hcached (hdir ▸ hname)
      (by rw [hfiles, Function.update_self]) hlow
    refine ⟨fd, s', ?_, hready, hcontent.trans (FileSystem.content_congr hdir hdata)⟩
    simp only [getAndPin_uncached hcached, bind, Except.bind, hopen, hput]
    rfl
  · -- the cache has a descriptor
    obtain ⟨fd, s', hget, hheld, hfs, hsome⟩ := h.getAndPin hname hcached
    refine ⟨fd, s', ?_, ⟨hheld, fun hnone => ?_⟩, by rw [hfs]⟩
    · simp only [hget, bind, Except.bind]
      rfl
    · rw [hnone] at hsome
      cases hsome

private theorem fill_eq {b : ExpandableBuffer} {bytes : List UInt8} (hb : b.len_ ≤ b.buf_len_)
    (hle : bytes.length ≤ 4096) :
    ∃ p b₁ b₂, (b.reserve (b.len_ + 4096)).endBuf = .ok p ∧
      (b.reserve (b.len_ + 4096)).store p bytes = .ok b₁ ∧
      b₁.setLen (b₁.len_ + bytes.length) = .ok b₂ ∧ b₂.len_ ≤ b₂.buf_len_ ∧
      b₂.bytes.take b₂.len_ = b.bytes.take b.len_ ++ bytes := by
  obtain ⟨more, hmore, hcap, hlen⟩ := b.bytes_reserve (b.len_ + 4096)
  have hend : (b.reserve (b.len_ + 4096)).endBuf = .ok (b.reserve (b.len_ + 4096)).len_ :=
    ExpandableBuffer.endBuf_eq (by omega)
  have hfront : (b.bytes.take b.len_).length = b.len_ := List.length_take_of_le hb
  obtain ⟨b₁, hstore, hlen₁, hcap₁, htake⟩ := ExpandableBuffer.store_eq bytes []
    (hlen.trans hfront.symm) (by rw [hmore, hfront, List.take_append_of_le_length hb])
    (by rw [hfront, List.append_nil, hcap]; omega)
  rw [List.append_nil] at hstore
  have hset : b₁.setLen (b₁.len_ + bytes.length) =
      .ok { b₁ with len_ := b₁.len_ + bytes.length } := by
    unfold ExpandableBuffer.setLen
    rw [decide_eq_true (by omega)]
    rfl
  refine ⟨_, b₁, _, hend, hstore, hset, ?_, ?_⟩
  · show b₁.len_ + bytes.length ≤ b₁.buf_len_
    omega
  · rw [List.length_append, hfront] at htake
    show b₁.bytes.take (b₁.len_ + bytes.length) = _
    rw [hlen₁, hlen]
    exact htake

private theorem take_append_drop_length (l : List UInt8) (n : Nat) :
    l.take n ++ l.drop (l.take n).length = l := by
  rw [List.length_take]
  rcases Nat.le_total n l.length with h | h
  · rw [Nat.min_eq_left h, List.take_append_drop]
  · rw [Nat.min_eq_right h, List.take_of_length_le h, List.drop_length, List.append_nil]

theorem openForGet_high (h : Idle s) (hname : s.fs.dir.lookup name = some i)
    (hhigh : ¬ Evictable s name) : openForGet s name = .error .assertFailed := by
  obtain ⟨fd, fs', hopen, -⟩ := FileSystem.openFile_spec hname
  obtain ⟨hcached, herror⟩ := h.putAndPin_high hhigh fs' fd
  unfold openForGet
  simp only [getAndPin_uncached hcached, bind, Except.bind, hopen, herror]

/-- The loop reads what is left of the file behind what is in the buffer. -/
theorem readLoop_eq {fuel off : Nat} {b : ExpandableBuffer} (hb : b.len_ ≤ b.buf_len_)
    (hfile : fs.files fd = some ⟨i, off⟩) (hfuel : (fs.data i).length - off < fuel) :
    ∃ fs' b', readLoop fd fuel fs b = .ok (fs', b') ∧ Touches fs fs' i ∧ Opened fs' fd i ∧
      fs'.data = fs.data ∧
      b'.bytes.take b'.len_ = b.bytes.take b.len_ ++ (fs.data i).drop off := by
  -- the induction is on the fuel; what is in the buffer and where the descriptor stands move on
  induction fuel generalizing fs b off with
  | zero => exact absurd hfuel (Nat.not_lt_zero _)
  | succ fuel ih =>
    have hread := FileSystem.read_eq hfile 4096
    have hopened : Opened fs fd i := ⟨off, hfile⟩
    obtain ⟨htouches, hopened', hdata⟩ := hopened.read hread
    have hrest := take_append_drop_length ((fs.data i).drop off) 4096
    have hdone : ((fs.data i).drop off).take 4096 = [] → (fs.data i).drop off = [] := fun h =>
      (List.take_eq_nil_iff.1 h).resolve_left (by omega)
    have hle : (((fs.data i).drop off).take 4096).length ≤ 4096 := List.length_take_le _ _
    have hshort : (((fs.data i).drop off).take 4096).length ≤ (fs.data i).length - off := by
      rw [List.length_take, List.length_drop]
      exact Nat.min_le_right ..
    have hmoved := FileSystem.files_setOffset hfile
      (off + (((fs.data i).drop off).take 4096).length)
    generalize ((fs.data i).drop off).take 4096 = bytes at *
    obtain ⟨p, b₁, b₂, hend, hstore, hset, hb₂, htake⟩ := fill_eq hb hle
    unfold readLoop
    simp only [hend, bind, Except.bind, hread, hstore, hset]
    by_cases hpos : bytes.length > 0
    · obtain ⟨fs', b', hloop, htouches', ho, hd, htaken⟩ := ih hb₂
        (show (fs.setOffset fd (off + bytes.length)).files fd = some ⟨i, off + bytes.length⟩ by
          rw [hmoved, Function.update_self])
        (by rw [hdata]; omega)
      rw [if_pos hpos]
      refine ⟨fs', b', hloop, htouches.trans htouches', ho, hd.trans hdata, ?_⟩
      rw [List.drop_drop] at hrest
      rw [htaken, hdata, htake, List.append_assoc, hrest]
    · -- nothing was left to read
      have hnil : bytes = [] := List.length_eq_zero_iff.1 (by omega)
      rw [if_neg hpos]
      refine ⟨_, b₂, rfl, htouches, hopened', hdata, ?_⟩
      rw [htake, hnil, hdone hnil]

section

variable {T : FileSystemTable} {key : SerializableObject} {bytes : List UInt8}

theorem getCommon_absent (hkey : T.filename key = .ok (some name)) (h : Idle s)
    (hname : s.fs.dir.lookup name = none) (buf : ExpandableBuffer) :
    T.getCommon s key buf = .ok (.DS_NOTFOUND, buf, s) := by
  unfold getCommon
  simp only [hkey, bind, Except.bind, openForGet_absent h hname]
  rfl

theorem getCommon_present (hkey : T.filename key = .ok (some name)) (h : Idle s)
    (hcontent : s.fs.content name = some bytes) (hlow : Evictable s name) :
    ∃ buf s', T.getCommon s key scratch = .ok (.DS_OK, buf, s') ∧ Idle s' ∧
      s'.fs.content = s.fs.content ∧ buf.bytes.take buf.len_ = bytes := by
  obtain ⟨i, hname, rfl⟩ := Option.map_eq_some_iff.1 hcontent
  obtain ⟨fd, s₁, hopen, hready, hcontent₁⟩ := openForGet_present h hname hlow
  obtain ⟨s₂, hrewind, hheld, hfile, hcontent₂⟩ := hready.rewind hready.start
  -- the size of the file is the number of its bytes
  have hsize : s₂.fs.size name = some (s₂.fs.data i).length := by
    rw [FileSystem.size, hheld.file]
    rfl
  have hbytes : s₂.fs.data i = s.fs.data i := by
    have hsame := FileSystem.content_eq hheld.file
    rw [hcontent₂, hcontent₁, hcontent] at hsame
    exact (Option.some.inj hsame).symm
  obtain ⟨fs', buf, hloop, htouches, hopened, hdata, htake⟩ := readLoop_eq
    (show scratch.len_ ≤ scratch.buf_len_ from Nat.zero_le _) hfile
    (show (s₂.fs.data i).length - 0 < (s₂.fs.data i).length + 1 by omega)
  obtain ⟨s', hrelease, hidle, hcontent'⟩ := (hheld.touches htouches hopened).release
  refine ⟨buf, s', ?_, hidle, ?_, ?_⟩
  · unfold getCommon
    simp only [hkey, bind, Except.bind, hopen, hrewind, hsize, Option.getD_some, hloop, hrelease]
    rfl
  · rw [hcontent', FileSystem.content_congr htouches.dir hdata, hcontent₂, hcontent₁]
  · rw [htake, hbytes]
    rfl

/-! ### put -/

theorem openForPut_missing (h : Idle s) (hname : s.fs.dir.lookup name = none)
    (hcreate : flags.DS_CREATE = false) :
    openForPut s name flags = .ok (.error .DS_NOTFOUND, s) := by
  have hopen : s.fs.openFile name (openFlags flags) = none :=
    FileSystem.openFile_absent hname hcreate
  unfold openForPut
  simp only [getAndPin_uncached (h.uncached hname), bind, Except.bind, hopen, hname, hcreate]
  rfl

theorem openForPut_exists (h : Idle s) (hname : s.fs.dir.lookup name = some i)
    (hflags : flags.DS_CREATE = true ∨ ¬ Uncached s name) (hexcl : flags.DS_EXCL = true) :
    ∃ s', openForPut s name flags = .ok (.error .DS_EXISTS, s') ∧ Idle s' ∧
      s'.fs.content = s.fs.content := by
  unfold openForPut
  by_cases hcached : Uncached s name
  · have hopen : s.fs.openFile name (openFlags flags) = none :=
      FileSystem.openFile_exclusive hname (hflags.resolve_right (not_not.2 hcached)) hexcl
    refine ⟨s, ?_, h, rfl⟩
    simp only [getAndPin_uncached hcached, bind, Except.bind, hopen, hname, hexcl]
    rfl
  · -- the descriptor in the cache says that the file is there
    obtain ⟨fd, s₁, hget, hheld, hfs, -⟩ := h.getAndPin hname hcached
    obtain ⟨s', hunpin, hidle, hfs'⟩ := hheld.unpin
    refine ⟨s', ?_, hidle, by rw [hfs', hfs]⟩
    simp only [hget, bind, Except.bind, hexcl, if_true, hunpin]
    rfl

theorem openForPut_high (h : Idle s) (hopen : (s.fs.openFile name (openFlags flags)).isSome = true)
    (hhigh : ¬ Evictable s name) : openForPut s name flags = .error .assertFailed := by
  obtain ⟨⟨fd, fs'⟩, hsome⟩ := Option.isSome_iff_exists.1 hopen
  obtain ⟨hcached, herror⟩ := h.putAndPin_high hhigh fs' fd
  unfold openForPut
  simp only [getAndPin_uncached hcached, bind, Except.bind, hsome, herror]

/-- The bytes that are there once the file is open: those of before with a descriptor of the
    cache, and none with one that was just opened. -/
def atStart (s : State) (name : Path) : List UInt8 :=
  if Uncached s name then [] else (s.fs.content name).getD []

/-- A file that is there. Without `DS_CREATE`, `open` takes it although it is to be new. -/
theorem openForPut_present (h : Idle s) (hname : s.fs.dir.lookup name = some i)
    (hflags : flags.DS_EXCL = false ∨ flags.DS_CREATE = false ∧ Uncached s name)
    (hlow : Evictable s name) :
    ∃ fd s', openForPut s name flags = .ok (.ok fd, s') ∧ Ready s' name fd i ∧
      s'.fs.content name = some (atStart s name) ∧
      ∀ other, other ≠ name → s'.fs.content other = s.fs.content other := by
  unfold openForPut
  by_cases hcached : Uncached s name
  · obtain ⟨fd, fs', hopen, hfree, hdir, hdata, hfiles, -⟩ :=
      FileSystem.openFile_present_spec hname (openFlags flags) (by
        cases hflags with
        | inl hexcl => simp [openFlags, hexcl]
        | inr hmissing => simp [openFlags, hmissing.1])
    have htouches : Touches s.fs fs' i := by
      refine FileSystem.touches_update hfree hdir (fun j hj => ?_) hfiles
      rw [hdata]
      exact Function.update_of_ne hj _ _
    have hidle : Idle { s with fs := fs' } :=
      h.opened (h.links.congr hdir) (fun other j hother => hdir ▸ hother) hfree hfiles
    obtain ⟨s', hput, hready, hcontent⟩ := hidle.ready hcached (hdir ▸ hname)
      (by rw [hfiles, Function.update_self]) hlow
    refine ⟨fd, s', ?_, hready, ?_, fun other hother => ?_⟩
    · simp only [getAndPin_uncached hcached, bind, Except.bind, hopen, hput]
      rfl
    · rw [hcontent, atStart, if_pos hcached, FileSystem.content, hdir, hname, Option.map_some,
        hdata, if_pos (show (openFlags flags).trunc = true from rfl), Function.update_self]
    · rw [hcontent]
      exact htouches.content h.links hname hother
  · have hexcl : flags.DS_EXCL = false := hflags.resolve_right fun hmissing => hcached hmissing.2
    obtain ⟨fd, s', hget, hheld, hfs, hsome⟩ := h.getAndPin hname hcached
    refine ⟨fd, s', ?_, ⟨hheld, fun hnone => ?_⟩, ?_, fun _ _ => by rw [hfs]⟩
    · simp only [hget, bind, Except.bind, hexcl]
      rfl
    · rw [hnone] at hsome
      cases hsome
    · rw [hfs, atStart, if_neg hcached, FileSystem.content_eq hname, Option.getD_some]

theorem openForPut_new (h : Idle s) (hname : s.fs.dir.lookup name = none)
    (hcreate : flags.DS_CREATE = true) (hlow : Evictable s name) :
    ∃ fd s', openForPut s name flags = .ok (.ok fd, s') ∧ Ready s' name fd s.fs.next ∧
      s'.fs.content name = some (atStart s name) ∧
      ∀ other, other ≠ name → s'.fs.content other = s.fs.content other := by
  obtain ⟨fd, fs', hopen, hfree, hdir, hdata, hfiles⟩ :=
    FileSystem.openFile_new_spec hname (openFlags flags) hcreate
  have hold : ∀ other, other ≠ name → fs'.dir.lookup other = s.fs.dir.lookup other := by
    intro other hother
    rw [hdir, AList.lookup_insert_ne hother]
  have hidle : Idle { s with fs := fs' } := by
    apply h.opened (h.links.insert hdir) _ hfree hfiles
    intro other j hother
    rw [hold, hother]
    rintro rfl
    rw [hname] at hother
    cases hother
  obtain ⟨s', hput, hready, hcontent⟩ := hidle.ready (h.uncached hname)
    (by rw [hdir, AList.lookup_insert]) (by rw [hfiles, Function.update_self]) hlow
  refine ⟨fd, s', ?_, hready, ?_, fun other hother => ?_⟩
  · unfold openForPut
    simp only [getAndPin_uncached (h.uncached hname), bind, Except.bind, hopen, hput]
    rfl
  · rw [hcontent, atStart, if_pos (h.uncached hname), FileSystem.content, hdir, AList.lookup_insert,
      Option.map_some, hdata, Function.update_self]
  · rw [hcontent, FileSystem.content, hold other hother, FileSystem.content]
    cases hlookup : s.fs.dir.lookup other with
    | none => rfl
    | some j =>
      -- the new inode is none that has a name
      have hlt := s.fs.dir_lt other j hlookup
      rw [Option.map_some, Option.map_some, hdata, Function.update_of_ne (Nat.ne_of_lt hlt)]

theorem Held.write (h : Held s name fd i) (hfile : s.fs.files fd = some ⟨i, 0⟩)
    (image : List UInt8) :
    ∃ fs', s.fs.write fd image = some fs' ∧ Held { s with fs := fs' } name fd i ∧
      fs'.content name = some (image ++ ((s.fs.content name).getD []).drop image.length) ∧
      ∀ other, other ≠ name → fs'.content other = s.fs.content other := by
  have hwrite := FileSystem.write_eq hfile image
  obtain ⟨htouches, hopened⟩ := h.opened.write hwrite
  have hheld := h.touches htouches hopened
  refine ⟨_, hwrite, hheld, ?_, ?_⟩
  · rw [FileSystem.content_eq hheld.file, FileSystem.content_eq h.file, Option.getD_some]
    show some (Function.update s.fs.data i _ i) = _
    rw [Function.update_self, FileSystem.writeAt_zero]
  · exact fun other hother => htouches.content h.links h.file hother

variable {typecode : UInt32} {data : SerializableObject} {image : List UInt8}

theorem put_missing (hkey : T.filename key = .ok (some name))
    (hdata : T.marshal typecode data = .ok (some image)) (h : Idle s)
    (hname : s.fs.dir.lookup name = none) (hcreate : flags.DS_CREATE = false) :
    T.put s key typecode data flags = .ok (.DS_NOTFOUND, s) := by
  unfold put
  simp only [hkey, hdata, bind, Except.bind, openForPut_missing h hname hcreate]
  rfl

theorem put_exists (hkey : T.filename key = .ok (some name))
    (hdata : T.marshal typecode data = .ok (some image)) (h : Idle s)
    (hname : s.fs.dir.lookup name = some i)
    (hflags : flags.DS_CREATE = true ∨ ¬ Uncached s name) (hexcl : flags.DS_EXCL = true) :
    ∃ s', T.put s key typecode data flags = .ok (.DS_EXISTS, s') ∧ Idle s' ∧
      s'.fs.content = s.fs.content := by
  obtain ⟨s', hopen, hidle, hcontent⟩ := openForPut_exists h hname hflags hexcl
  refine ⟨s', ?_, hidle, hcontent⟩
  unfold put
  simp only [hkey, hdata, bind, Except.bind, hopen]
  rfl

theorem put_stores (hkey : T.filename key = .ok (some name))
    (hdata : T.marshal typecode data = .ok (some image)) (h : Idle s) (hlow : Evictable s name)
    (hflags : match s.fs.dir.lookup name with
      | some _ => flags.DS_EXCL = false ∨ flags.DS_CREATE = false ∧ Uncached s name
      | none => flags.DS_CREATE = true) :
    ∃ s' rest, T.put s key typecode data flags = .ok (.DS_OK, s') ∧ Idle s' ∧
      s'.fs.content name = some (image ++ rest) ∧
      ∀ other, other ≠ name → s'.fs.content other = s.fs.content other := by
  have hopens : ∃ fd i s₁, openForPut s name flags = .ok (.ok fd, s₁) ∧ Ready s₁ name fd i ∧
      ∀ other, other ≠ name → s₁.fs.content other = s.fs.content other := by
    cases hname : s.fs.dir.lookup name with
    | some i =>
      rw [hname] at hflags
      obtain ⟨fd, s₁, hopen, hready, -, hothers⟩ := openForPut_present h hname hflags hlow
      exact ⟨fd, i, s₁, hopen, hready, hothers⟩
    | none =>
      rw [hname] at hflags
      obtain ⟨fd, s₁, hopen, hready, -, hothers⟩ := openForPut_new h hname hflags hlow
      exact ⟨fd, _, s₁, hopen, hready, hothers⟩
  obtain ⟨fd, i, s₁, hopen, hready, hcontent₁⟩ := hopens
  obtain ⟨s₂, hrewind, hheld, hfile, hcontent₂⟩ := hready.rewind hready.start
  obtain ⟨fs', hwrite, hheld', himage, hothers⟩ := hheld.write hfile image
  obtain ⟨s', hrelease, hidle, hcontent'⟩ := hheld'.release
  refine ⟨s', ((s₂.fs.content name).getD []).drop image.length, ?_, hidle, ?_,
    fun other hother => ?_⟩
  · unfold put
    simp only [hkey, hdata, bind, Except.bind, hopen, hrewind, hwrite, hrelease]
    rfl
  · rw [hcontent']
    exact himage
  · rw [hcontent']
    exact (hothers other hother).trans (by rw [hcontent₂, hcontent₁ other hother])

/-! ### del -/

theorem del_absent (hkey : T.filename key = .ok (some name)) (h : Idle s)
    (hname : s.fs.dir.lookup name = none) :
    ∃ s', T.del s key = .ok (.DS_NOTFOUND, s') ∧ Idle s' ∧ s'.fs.content = s.fs.content := by
  obtain ⟨s', hclose, hidle, -, hdir, hdata⟩ := h.closeCached name
  refine ⟨s', ?_, hidle, FileSystem.content_congr hdir hdata⟩
  have hunlink : s'.fs.unlink name = none := by
    rw [FileSystem.unlink, hdir, hname]
    rfl
  unfold del
  simp only [hkey, bind, Except.bind, hclose, hunlink]
  rfl

theorem del_present (hkey : T.filename key = .ok (some name)) (h : Idle s)
    (hname : s.fs.dir.lookup name = some i) :
    ∃ s', T.del s key = .ok (.DS_OK, s') ∧ Idle s' ∧ s'.fs.content name = none ∧
      ∀ other, other ≠ name → s'.fs.content other = s.fs.content other := by
  obtain ⟨s₁, hclose, hidle, hgone, hdir, hdata⟩ := h.closeCached name
  have hunlink : s₁.fs.unlink name = some (s₁.fs.dropName name) := by
    rw [FileSystem.unlink, hdir, hname]
    rfl
  have hother : ∀ other, other ≠ name →
      (s₁.fs.dropName name).dir.lookup other = s₁.fs.dir.lookup other := fun other hother =>
    AList.lookup_erase_ne hother
  refine ⟨{ s₁ with fs := s₁.fs.dropName name }, ?_, ⟨hidle.links.erase rfl, ?_⟩, ?_, ?_⟩
  · unfold del
    simp only [hkey, bind, Except.bind, hclose, hunlink]
    rfl
  · intro c hc
    refine (hidle.cached c hc).mono (fun n hn => hother _ ?_) (fun _ _ _ _ _ _ ho => ho)
    -- the name is not in the cache any more
    exact (hidle.cached c hc).indexed.key_ne (hgone c hc) hn
  · rw [FileSystem.content]
    show ((s₁.fs.dir.erase name).lookup name).map _ = none
    rw [AList.lookup_erase]
    rfl
  · intro other hne
    rw [FileSystem.content, hother other hne, ← FileSystem.content_congr hdir hdata]
    rfl

end

end Oasys.FileSystemTable
