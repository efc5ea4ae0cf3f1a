import Oasys.Spec.FileBackedObjectCorrect

/-!
# Durability of FileBackedObject transactions

`commit` calls `fsync_data` on the transaction object, which has a descriptor only while it
is held open: every write closes the one it has opened. Without a descriptor nothing is
written to the disk before the name of the original goes to the new file. And an original
that is held open goes on reading the file it has open.

`Careful` has both objects as they must be at a commit. The reads of the original then
return what was committed; for that the offset that the object remembers has to be the
offset of its descriptor.
-/

namespace Oasys.FileBackedObject

open FileSystem

/-! ### The runs -/

namespace Durable

/-- An object, the transaction on it, and what commits have promised. -/
structure State where
  fs : FileSystem String
  original : FileBackedObject
  /-- `tx_file_` of the transaction, if there is one. -/
  tx_file_ : Option FileBackedObject
  /-- Something has been written through the transaction since its file was last written to
      the disk. -/
  unsynced : Bool
  /-- A file with such writes has replaced the original. -/
  lost : Bool
  /-- What the last commit made the original hold, until the original is written to. -/
  committed : Option (List UInt8)

inductive Op where
  | startTx (INIT_BLANK : Bool) (cur_offset : Nat)
  | txWrite (offset : Nat) (buf : List UInt8)
  | txAppend (buf : List UInt8)
  | txTruncate (size : Nat)
  | txRead (offset length : Nat)
  | txFsyncData
  | txOpenScope
  | txCloseScope
  | write (offset : Nat) (buf : List UInt8)
  | append (buf : List UInt8)
  | truncate (size : Nat)
  | read (offset length : Nat)
  | fsyncData
  | openScope
  | closeScope
  | commit
  | abort
  /-- The destructor of the transaction. -/
  | destroyTx
  deriving DecidableEq, Repr

/-- `fsync_data` reaches the file that the object has its name from. -/
def syncs (fs : FileSystem String) (o : FileBackedObject) : Bool :=
  (o.fsyncData fs).isSome && o.fsyncData fs = fs.dir.lookup o.filename_

/-- A member of the transaction object. -/
def State.onTx (s : State) (writes : Bool) (f : FileSystem String → FileBackedObject →
    Except Fault (FileSystem String × FileBackedObject)) : Except Fault State :=
  match s.tx_file_ with
  | none => throw .nullDeref
  | some tx_file_ => do
    let (fs, tx_file_) ← f s.fs tx_file_
    pure { s with fs, tx_file_ := some tx_file_, unsynced := s.unsynced || writes }

def State.onOriginal (s : State) (writes : Bool) (f : FileSystem String → FileBackedObject →
    Except Fault (FileSystem String × FileBackedObject)) : Except Fault State := do
  let (fs, original) ← f s.fs s.original
  pure { s with fs, original, committed := if writes then none else s.committed }

def State.commit (s : State) : Except Fault State :=
  match s.tx_file_ with
  | none => pure s
  | some tx_file_ => do
    let (fs, original) ← Tx.commit s.fs s.original tx_file_
    pure
      { fs, original
        tx_file_ := none
        unsynced := false
        lost := s.lost || (s.unsynced && !syncs s.fs tx_file_)
        committed := content s.fs tx_file_ }

/-- What a call leaves. -/
def exec (s : State) : Op → Except Fault State
  | .startTx INIT_BLANK cur_offset => do
    let (fs, tx_file_) ← Tx.start s.fs s.original INIT_BLANK cur_offset
    pure { s with fs, tx_file_ := some tx_file_, unsynced := false }
  | .txWrite offset buf => s.onTx true fun fs o => writeBytes fs o offset buf
  | .txAppend buf => s.onTx true fun fs o => appendBytes fs o buf
  | .txTruncate size => s.onTx true fun fs o => FileBackedObject.truncate fs o size
  | .txRead offset length => s.onTx false fun fs o => Prod.snd <$> readBytes fs o offset length
  | .txFsyncData =>
    match s.tx_file_ with
    | none => throw .nullDeref
    | some tx_file_ => pure { s with unsynced := s.unsynced && !syncs s.fs tx_file_ }
  | .txOpenScope => s.onTx false FileBackedObject.openScope
  | .txCloseScope => s.onTx false fun fs o => pure (FileBackedObject.closeScope fs o)
  | .write offset buf => s.onOriginal true fun fs o => writeBytes fs o offset buf
  | .append buf => s.onOriginal true fun fs o => appendBytes fs o buf
  | .truncate size => s.onOriginal true fun fs o => FileBackedObject.truncate fs o size
  | .read offset length =>
    s.onOriginal false fun fs o => Prod.snd <$> readBytes fs o offset length
  | .fsyncData => pure s
  | .openScope => s.onOriginal false FileBackedObject.openScope
  | .closeScope => s.onOriginal false fun fs o => pure (FileBackedObject.closeScope fs o)
  | .commit => s.commit
  | .abort =>
    match s.tx_file_ with
    | none => throw .nullDeref
    | some tx_file_ => do
      let fs ← Tx.abort s.fs tx_file_
      pure { s with fs, tx_file_ := none, unsynced := false }
  | .destroyTx => s.commit

/-- One transaction at a time, `abort` only while there is one, and no file of the original
    that outgrows an `off_t`. -/
def Enabled (s : State) : Op → Prop
  | .startTx _ _ => s.tx_file_ = none
  | .abort => s.tx_file_ ≠ none
  | .write offset buf => offset + buf.length < maxOffset
  | .append buf => ∀ bytes, content s.fs s.original = some bytes →
      bytes.length + buf.length < maxOffset
  | _ => True

/-- An object whose file is there, in any directory, under any sequence of calls that
    return. -/
def system : TransitionSystem State Op where
  init s := (∃ i, At s.fs s.original i) ∧ s.original.fd_ = none ∧ s.tx_file_ = none ∧
    s.lost = false ∧ s.committed = none
  step s op s' := Enabled s op ∧ exec s op = .ok s'

/-- A commit finds the transaction object with a descriptor, or nothing to write to the
    disk, and the original not held open. A file that has the name of the transaction
    already is not the original itself, and no offset is negative as an `off_t`. -/
def Careful (s : State) : Op → Prop
  | .startTx _ _ =>
    s.fs.dir.lookup (Tx.filename s.original) ≠ s.fs.dir.lookup s.original.filename_
  | .commit | .destroyTx => ∀ t, s.tx_file_ = some t →
      (t.fd_ ≠ none ∨ s.unsynced = false) ∧
        (s.original.fd_ = none ∨ s.original.open_count_ ≤ 0)
  | .read offset _ => offset < maxOffset
  | _ => True

/-! ### What commits promise -/

/-- The bytes that a read at `offset` returns of `bytes`. -/
def slice (bytes : List UInt8) (offset length : Nat) : List UInt8 :=
  (bytes.drop offset).take (min length maxRwCount)

/-- Nothing has replaced the original before it was on the disk, and what was committed is
    what reads return. -/
structure Kept (s : State) : Prop where
  synced : s.lost = false
  visible : ∀ bytes, s.committed = some bytes → ∀ offset length, offset < maxOffset →
    ∃ fs' o', readBytes s.fs s.original offset length =
      .ok (slice bytes offset length, fs', o')

end Durable

/-! ### Members keep the offset -/

section Aligned

variable {fs fs' : FileSystem String} {o o' : FileBackedObject} {i j fd offset : Nat}

theorem Aligned.touches (h : Aligned fs o) (hat : At fs o i) (ht : Touches fs fs' j)
    (hne : i ≠ j) : Aligned fs' o := by
  intro fd f hfd hf
  obtain ⟨off, hfile⟩ := hat.opened fd hfd
  rw [ht.files fd _ hfile hne] at hf
  rw [← Option.some.inj hf]
  exact h fd _ hfd hfile

theorem openFd_aligned (hat : At fs o i) (h : Aligned fs o)
    (hopen : openFd fs o = .ok (fd, fs', o')) : Aligned fs' o' := by
  cases hfd : o.fd_ with
  | some fd₀ =>
    rw [openFd_open hat hfd] at hopen
    cases hopen
    exact h
  | none =>
    obtain ⟨fd₁, fs₁, hopen₁, -, -, -, hfiles⟩ := openFd_closed hat hfd
    rw [hopen₁] at hopen
    cases hopen
    intro fd' f hfd' hf
    obtain rfl := Option.some.inj hfd'
    rw [hfiles, Function.update_self] at hf
    rw [← Option.some.inj hf]

theorem close_aligned (h : Aligned fs o) : Aligned (close fs o).1 (close fs o).2 := by
  unfold close
  split
  · exact h
  · split
    · exact h
    · exact fun _ _ hnone => nomatch hnone

theorem seekTo_eq (hat : At fs o i) (h : Aligned fs o) (hfd : o.fd_ = some fd)
    (hoffset : offset < maxOffset) :
    ∃ fs', seekTo fs o fd offset = .ok (fs', { o with cur_offset_ := offset }) ∧
      fs'.data = fs.data ∧ fs'.files fd = some ⟨i, offset⟩ := by
  obtain ⟨off, hfile⟩ := hat.opened fd hfd
  unfold seekTo
  split
  · rename_i hsame
    have hoff : off = o.cur_offset_ := h fd _ hfd hfile
    refine ⟨fs, ?_, rfl, ?_⟩
    · rw [← hsame]
      rfl
    · rw [hfile, hoff, hsame]
  · have hmoved : fs.seek fd offset = some (fs.setOffset fd offset) := by
      unfold FileSystem.seek
      rw [hfile]
    refine ⟨fs.setOffset fd offset, ?_, rfl, ?_⟩
    · rw [hmoved]
      rfl
    · rw [files_setOffset hfile, Function.update_self]

theorem readBytes_eq (hat : At fs o i) (h : Aligned fs o) (hoffset : offset < maxOffset)
    (length : Nat) :
    ∃ fs' o', readBytes fs o offset length =
      .ok (Durable.slice (fs.data i) offset length, fs', o') ∧ Aligned fs' o' := by
  obtain ⟨fd, fs₁, o₁, hopen, hstays, hfd, hdata₁⟩ := openFd_ok hat
  obtain ⟨fs₂, hseek, hdata₂, hfile⟩ :=
    seekTo_eq hstays.stays (openFd_aligned hat h hopen) hfd hoffset
  have hread := read_eq hfile (min length maxRwCount)
  dsimp only at hread
  have hbuf : ((fs₂.data i).drop offset).take (min length maxRwCount) =
      Durable.slice (fs.data i) offset length := by
    rw [hdata₂, hdata₁]
    rfl
  rw [hbuf] at hread
  -- the offset is far from the end of a `size_t`
  have haligned : Aligned (fs₂.setOffset fd (offset + (Durable.slice (fs.data i) offset
      length).length)) { o₁ with
        cur_offset_ := (offset + (Durable.slice (fs.data i) offset length).length) % 2 ^ 64 } := by
    intro fd' f hfd' hf
    obtain rfl := Option.some.inj (hfd.symm.trans hfd')
    rw [files_setOffset hfile, Function.update_self] at hf
    rw [← Option.some.inj hf]
    have hlength : (Durable.slice (fs.data i) offset length).length ≤ maxRwCount :=
      Nat.le_trans (List.length_take_le _ _) (Nat.min_le_right _ _)
    unfold maxOffset at hoffset
    unfold maxRwCount at hlength
    dsimp only
    omega
  refine ⟨_, _, ?_, close_aligned haligned⟩
  unfold readBytes
  rw [hopen]
  show (seekTo fs₁ o₁ fd offset >>= _) = _
  rw [hseek]
  dsimp only [bind, Except.bind]
  rw [hread]
  rfl

theorem writeBytes_aligned {buf : List UInt8} (hat : At fs o i) (h : Aligned fs o)
    (hfits : offset + buf.length < maxOffset)
    (hwrite : writeBytes fs o offset buf = .ok (fs', o')) : Aligned fs' o' := by
  obtain ⟨⟨fd, fs₁, o₁⟩, hopen, hrest⟩ := bind_eq_ok.1 hwrite
  obtain ⟨hstays, hfd, -⟩ := openFd_stays hat hopen
  have hoffset : offset < maxOffset := by omega
  obtain ⟨fs₂, hseek, -, hfile⟩ :=
    seekTo_eq hstays.stays (openFd_aligned hat h hopen) hfd hoffset
  obtain ⟨_, hmoved, hrest⟩ := bind_eq_ok.1 hrest
  obtain rfl := Except.ok.inj (hseek.symm.trans hmoved)
  obtain ⟨-, -, hrest⟩ := bind_eq_ok.1 hrest
  dsimp only at hrest
  rw [write_eq hfile] at hrest
  have hclosed := Except.ok.inj hrest
  have hfile' : (fs₂.setData i (writeAt (fs₂.data i) offset buf)).files fd =
      some ⟨i, offset⟩ := hfile
  -- both the offset of the descriptor and `cur_offset_` have moved by what was written
  have haligned : Aligned ((fs₂.setData i (writeAt (fs₂.data i) offset buf)).setOffset fd
      (offset + buf.length)) { o₁ with cur_offset_ := (offset + buf.length) % 2 ^ 64 } := by
    intro fd' f hfd' hf
    obtain rfl := Option.some.inj (hfd.symm.trans hfd')
    rw [files_setOffset hfile', Function.update_self] at hf
    rw [← Option.some.inj hf]
    unfold maxOffset at hfits
    dsimp only
    omega
  have hclose := close_aligned haligned
  rw [hclosed] at hclose
  exact hclose

theorem appendBytes_aligned {buf : List UInt8} (hat : At fs o i)
    (hfits : (fs.data i).length + buf.length < maxOffset)
    (happend : appendBytes fs o buf = .ok (fs', o')) : Aligned fs' o' := by
  obtain ⟨⟨fd, fs₁, o₁⟩, hopen, hrest⟩ := bind_eq_ok.1 happend
  obtain ⟨hstays, hfd, hdata⟩ := openFd_stays hat hopen
  obtain ⟨off, hfile⟩ := hstays.stays.opened fd hfd
  have hmoved : fs₁.seekEnd fd =
      some ((fs.data i).length, fs₁.setOffset fd (fs.data i).length) := by
    unfold FileSystem.seekEnd
    rw [hfile]
    dsimp only
    rw [hdata]
  dsimp only at hrest
  rw [hmoved] at hrest
  -- from the end of the file it is a write
  have hstays₂ := hstays.stays.through { o₁ with cur_offset_ := (fs.data i).length } hfd
    (touches_setOffset (fun f hf => (hstays.stays.opened fd hfd).inode_eq hf) (fs.data i).length)
    ((hstays.stays.opened fd hfd).setOffset _) rfl rfl rfl
  refine writeBytes_aligned hstays₂.stays ?_ hfits hrest
  intro fd' f hfd' hf
  obtain rfl := Option.some.inj (hfd.symm.trans hfd')
  rw [files_setOffset hfile, Function.update_self] at hf
  rw [← Option.some.inj hf]

theorem truncate_aligned {size : Nat} (hat : At fs o i) (h : Aligned fs o)
    (htruncate : truncate fs o size = .ok (fs', o')) : Aligned fs' o' := by
  obtain ⟨⟨fd, fs₁, o₁⟩, hopen, hrest⟩ := bind_eq_ok.1 htruncate
  obtain ⟨hstays, hfd, -⟩ := openFd_stays hat hopen
  obtain ⟨-, -, hrest⟩ := bind_eq_ok.1 hrest
  obtain ⟨off, hfile⟩ := hstays.stays.opened fd hfd
  unfold FileSystem.truncate at hrest
  rw [hfile] at hrest
  have hclosed := Except.ok.inj hrest
  have haligned : Aligned fs₁ o₁ := openFd_aligned hat h hopen
  have hsized : Aligned (fs₁.setData i (resize (fs₁.data i) size)) o₁ := haligned
  have hclose := close_aligned hsized
  rw [hclosed] at hclose
  exact hclose

theorem openScope_aligned (hat : At fs o i) (h : Aligned fs o)
    (hopen : openScope fs o = .ok (fs', o')) : Aligned fs' o' := by
  have hcount : At fs { o with open_count_ := o.open_count_ + 1 } i :=
    ⟨hat.linked, hat.name, hat.opened⟩
  obtain ⟨⟨fd, fs₁, o₁⟩, hopen₁, hrest⟩ := bind_eq_ok.1 hopen
  obtain ⟨rfl, rfl⟩ := Prod.mk.inj (Except.ok.inj hrest)
  exact openFd_aligned hcount h hopen₁

theorem closeScope_aligned (h : Aligned fs o) :
    Aligned (closeScope fs o).1 (closeScope fs o).2 := by
  unfold closeScope
  dsimp only
  split
  · exact close_aligned (o := { o with open_count_ := o.open_count_ - 1 }) h
  · exact h

end Aligned

/-! ### The run -/

namespace Durable

/-- The original is at an inode, whose bytes are those of the last commit, and the
    transaction object is at another one. -/
structure Inv (s : State) (i : Nat) : Prop where
  original : At s.fs s.original i
  aligned : Aligned s.fs s.original
  tx : ∀ t, s.tx_file_ = some t → t.filename_ = Tx.filename s.original ∧ ∃ j, j ≠ i ∧ At s.fs t j
  synced : s.lost = false
  committed : ∀ bytes, s.committed = some bytes → bytes = s.fs.data i

section Run

variable {s s' : State} {i : Nat} {op : Op}

theorem Inv.onTx (h : Inv s i) {writes : Bool} {f : FileSystem String → FileBackedObject →
      Except Fault (FileSystem String × FileBackedObject)}
    (hf : ∀ {fs o fs' o' j}, At fs o j → f fs o = .ok (fs', o') → Stays fs o fs' o' j)
    (hexec : s.onTx writes f = .ok s') : Inv s' i := by
  unfold State.onTx at hexec
  split at hexec
  · cases hexec
  rename_i t ht
  obtain ⟨⟨fs', t'⟩, hrun, hrest⟩ := bind_eq_ok.1 hexec
  obtain rfl := Except.ok.inj hrest
  obtain ⟨hname, j, hne, hat⟩ := h.tx t ht
  have hstays := hf hat hrun
  refine ⟨h.original.touches hstays.touches hne.symm,
    h.aligned.touches h.original hstays.touches hne.symm, fun t'' ht'' => ?_, h.synced,
    fun bytes hbytes => ?_⟩
  · obtain rfl := Option.some.inj ht''
    exact ⟨hstays.name.trans hname, j, hne, hstays.stays⟩
  · show bytes = fs'.data i
    rw [hstays.touches.data i hne.symm]
    exact h.committed bytes hbytes

theorem Inv.onOriginal (h : Inv s i) {writes : Bool} {f : FileSystem String →
      FileBackedObject → Except Fault (FileSystem String × FileBackedObject)}
    (hexec : s.onOriginal writes f = .ok s')
    (hf : ∀ fs' o', f s.fs s.original = .ok (fs', o') → Stays s.fs s.original fs' o' i ∧
      Aligned fs' o' ∧ (writes = false → fs'.data = s.fs.data)) : Inv s' i := by
  obtain ⟨⟨fs', o'⟩, hrun, hrest⟩ := bind_eq_ok.1 hexec
  obtain rfl := Except.ok.inj hrest
  obtain ⟨hstays, haligned, hdata⟩ := hf fs' o' hrun
  refine ⟨hstays.stays, haligned, fun t ht => ?_, h.synced, fun bytes hbytes => ?_⟩
  · obtain ⟨hname, j, hne, hat⟩ := h.tx t ht
    refine ⟨?_, j, hne, hat.touches hstays.touches hne⟩
    rw [hname]
    show s.original.filename_ ++ ".tx" = o'.filename_ ++ ".tx"
    rw [hstays.name]
  · cases hwrites : writes with
    | true =>
      -- a write to the original ends what the commit has promised
      subst hwrites
      cases hbytes
    | false =>
      subst hwrites
      show bytes = fs'.data i
      rw [hdata rfl]
      exact h.committed bytes hbytes

theorem syncs_eq {fs : FileSystem String} {t : FileBackedObject} {j : Nat} (ht : At fs t j)
    (hfd : t.fd_ ≠ none) : syncs fs t = true := by
  obtain ⟨fd, hfd⟩ := Option.ne_none_iff_exists'.1 hfd
  obtain ⟨off, hfile⟩ := ht.opened fd hfd
  have hsync : t.fsyncData fs = some j := by
    unfold fsyncData
    rw [hfd, Option.bind_some, hfile]
    rfl
  unfold syncs
  rw [hsync, ht.name]
  simp

theorem Inv.commit (h : Inv s i) (hcareful : Careful s .commit) (hexec : s.commit = .ok s') :
    ∃ j, Inv s' j := by
  unfold State.commit at hexec
  split at hexec
  · obtain rfl := Except.ok.inj hexec
    exact ⟨i, h⟩
  rename_i t ht
  obtain ⟨hname, j, hne, hat⟩ := h.tx t ht
  obtain ⟨hsynced, hopen⟩ := hcareful t ht
  obtain ⟨fs', o', hcommit, hat', haligned, hdata⟩ :=
    commit_spec h.original hat hname hne.symm hopen
  obtain ⟨_, hrun, hrest⟩ := bind_eq_ok.1 hexec
  obtain rfl := Except.ok.inj (hcommit.symm.trans hrun)
  obtain rfl := Except.ok.inj hrest
  refine ⟨j, hat', haligned, (fun _ hnone => nomatch hnone), ?_, fun bytes hbytes => ?_⟩
  · -- what was not on the disk is by the `fsync_data` of the commit
    show (s.lost || (s.unsynced && !syncs s.fs t)) = false
    rw [h.synced]
    cases hsynced with
    | inl hfd => rw [syncs_eq hat hfd, Bool.not_true, Bool.and_false, Bool.or_false]
    | inr hclean => rw [hclean, Bool.false_and, Bool.or_false]
  · show bytes = fs'.data j
    rw [hdata]
    exact (Option.some.inj (hat.content.symm.trans hbytes)).symm

theorem Inv.startTx (h : Inv s i) {INIT_BLANK : Bool} {cur_offset : Nat}
    (hcareful : Careful s (.startTx INIT_BLANK cur_offset))
    (hexec : exec s (.startTx INIT_BLANK cur_offset) = .ok s') : Inv s' i := by
  obtain ⟨⟨fs', t⟩, hstart, hrest⟩ := bind_eq_ok.1 hexec
  obtain rfl := Except.ok.inj hrest
  obtain ⟨hname, horig, hdata, hfiles, j, hne, hat⟩ := start_at h.original (by
    intro hlookup
    exact hcareful (hlookup.trans h.original.name.symm)) hstart
  refine ⟨horig, fun fd f hfd hf => ?_, fun t' ht' => ?_, h.synced, fun bytes hbytes => ?_⟩
  · rw [hfiles] at hf
    exact h.aligned fd f hfd hf
  · obtain rfl := Option.some.inj ht'
    exact ⟨hname, j, hne, hat⟩
  · show bytes = fs'.data i
    rw [hdata]
    exact h.committed bytes hbytes

theorem Inv.step (h : Inv s i) (henabled : Enabled s op) (hcareful : Careful s op)
    (hexec : exec s op = .ok s') : ∃ j, Inv s' j := by
  -- what goes to the copy leaves the original alone; what goes to the original keeps it aligned
  cases op with
  | startTx INIT_BLANK cur_offset => exact ⟨i, h.startTx hcareful hexec⟩
  | txWrite offset buf => exact ⟨i, h.onTx writeBytes_stays hexec⟩
  | txAppend buf => exact ⟨i, h.onTx appendBytes_stays hexec⟩
  | txTruncate size => exact ⟨i, h.onTx truncate_stays hexec⟩
  | txRead offset length =>
    refine ⟨i, h.onTx (f := fun fs o => Prod.snd <$> readBytes fs o offset length) ?_ hexec⟩
    intro fs o fs' o' j hat hrun
    obtain ⟨⟨buf, fs₁, o₁⟩, hread, hsnd⟩ := map_eq_ok.1 hrun
    obtain ⟨rfl, rfl⟩ := Prod.mk.inj hsnd
    exact (readBytes_stays hat hread).1
  | txFsyncData =>
    change (match s.tx_file_ with
      | none => throw Fault.nullDeref
      | some t => pure { s with unsynced := s.unsynced && !syncs s.fs t }) = Except.ok s' at hexec
    split at hexec
    · cases hexec
    · obtain rfl := Except.ok.inj hexec
      exact ⟨i, h.original, h.aligned, h.tx, h.synced, h.committed⟩
  | txOpenScope => exact ⟨i, h.onTx (fun hat hrun => (openScope_stays hat hrun).1) hexec⟩
  | txCloseScope =>
    refine ⟨i, h.onTx (f := fun fs o => pure (closeScope fs o)) ?_ hexec⟩
    intro fs o fs' o' j hat hrun
    have hstays := (closeScope_stays hat).1
    rwa [Except.ok.inj hrun] at hstays
  | write offset buf =>
    have hexec : s.onOriginal true (fun fs o => writeBytes fs o offset buf) = .ok s' := hexec
    refine ⟨i, h.onOriginal hexec fun fs' o' hrun => ⟨writeBytes_stays h.original hrun,
      writeBytes_aligned h.original h.aligned henabled hrun, nofun⟩⟩
  | append buf =>
    have hexec : s.onOriginal true (fun fs o => appendBytes fs o buf) = .ok s' := hexec
    have hfits := henabled _ h.original.content
    exact ⟨i, h.onOriginal hexec fun fs' o' hrun => ⟨appendBytes_stays h.original hrun,
      appendBytes_aligned h.original hfits hrun, nofun⟩⟩
  | truncate size =>
    have hexec : s.onOriginal true (fun fs o => FileBackedObject.truncate fs o size) =
      .ok s' := hexec
    exact ⟨i, h.onOriginal hexec fun fs' o' hrun => ⟨truncate_stays h.original hrun,
      truncate_aligned h.original h.aligned hrun, nofun⟩⟩
  | read offset length =>
    have hexec : s.onOriginal false (fun fs o => Prod.snd <$> readBytes fs o offset length) =
      .ok s' := hexec
    refine ⟨i, h.onOriginal hexec fun fs' o' hrun => ?_⟩
    obtain ⟨⟨buf, fs₁, o₁⟩, hread, hsnd⟩ := map_eq_ok.1 hrun
    obtain ⟨rfl, rfl⟩ := Prod.mk.inj hsnd
    obtain ⟨hstays, hdata⟩ := readBytes_stays h.original hread
    obtain ⟨fs₂, o₂, hread₂, haligned⟩ := readBytes_eq h.original h.aligned hcareful length
    obtain ⟨-, rfl, rfl⟩ : _ ∧ fs₂ = fs₁ ∧ o₂ = o₁ := by
      simpa using Except.ok.inj (hread₂.symm.trans hread)
    exact ⟨hstays, haligned, fun _ => hdata⟩
  | fsyncData =>
    obtain rfl := Except.ok.inj hexec
    exact ⟨i, h⟩
  | openScope =>
    have hexec : s.onOriginal false FileBackedObject.openScope = .ok s' := hexec
    exact ⟨i, h.onOriginal hexec fun fs' o' hrun => ⟨(openScope_stays h.original hrun).1,
      openScope_aligned h.original h.aligned hrun, fun _ => (openScope_stays h.original hrun).2⟩⟩
  | closeScope =>
    have hexec : s.onOriginal false (fun fs o => pure (FileBackedObject.closeScope fs o)) =
      .ok s' := hexec
    refine ⟨i, h.onOriginal hexec fun fs' o' hrun => ?_⟩
    obtain ⟨hstays, hdata⟩ := closeScope_stays h.original
    have haligned := closeScope_aligned h.aligned
    rw [Except.ok.inj hrun] at hstays hdata haligned
    exact ⟨hstays, haligned, fun _ => hdata⟩
  | commit => exact h.commit hcareful hexec
  | destroyTx => exact h.commit hcareful hexec
  | abort =>
    change (match s.tx_file_ with
      | none => throw Fault.nullDeref
      | some t => do
        let fs ← Tx.abort s.fs t
        pure { s with fs, tx_file_ := none, unsynced := false }) = Except.ok s' at hexec
    split at hexec
    · cases hexec
    rename_i t ht
    obtain ⟨fs', hrun, hrest⟩ := bind_eq_ok.1 hexec
    obtain rfl := Except.ok.inj hrest
    obtain ⟨hname, j, hne, hat⟩ := h.tx t ht
    obtain ⟨fs₁, habort, horig, hdata, -, hfiles⟩ := abort_spec h.original hat hname hne.symm
    obtain rfl := Except.ok.inj (habort.symm.trans hrun)
    refine ⟨i, horig, fun fd f hfd hf => ?_, (fun _ hnone => nomatch hnone), h.synced,
      fun bytes hbytes => ?_⟩
    · obtain ⟨off, hfile⟩ := h.original.opened fd hfd
      rw [hfiles fd ⟨off, hfile⟩] at hf
      exact h.aligned fd f hfd hf
    · show bytes = fs₁.data i
      rw [hdata]
      exact h.committed bytes hbytes

theorem Inv.kept (h : Inv s i) : Kept s where
  synced := h.synced
  visible bytes hbytes offset length hoffset := by
    obtain ⟨fs', o', hread, -⟩ := readBytes_eq h.original h.aligned hoffset length
    rw [h.committed bytes hbytes]
    exact ⟨fs', o', hread⟩

theorem lost_of_closed {t : FileBackedObject} (ht : s.tx_file_ = some t) (hfd : t.fd_ = none)
    (hunsynced : s.unsynced = true) (hexec : exec s .commit = .ok s') : s'.lost = true := by
  have hexec : s.commit = .ok s' := hexec
  unfold State.commit at hexec
  rw [ht] at hexec
  obtain ⟨⟨fs', o'⟩, -, hrest⟩ := bind_eq_ok.1 hexec
  obtain rfl := Except.ok.inj hrest
  have hsyncs : syncs s.fs t = false := by
    unfold syncs fsyncData
    rw [hfd]
    rfl
  show (s.lost || (s.unsynced && !syncs s.fs t)) = true
  rw [hunsynced, hsyncs, Bool.not_false, Bool.and_true, Bool.or_true]

end Run

/-- In every run whose steps are careful, what replaces the original is on the disk before it
    does, and reads of the original return what was committed. -/
theorem kept_of_careful {s : State} (hs : system.ReachableWith Careful s) : Kept s := by
  obtain ⟨i, hinv⟩ : ∃ i, Inv s i := by
    apply hs.invariant
    · rintro s ⟨⟨i, hat⟩, hfd, htx, hlost, hcommitted⟩
      refine ⟨i, hat, fun fd f hsome => ?_, fun t ht => ?_, hlost, fun bytes hbytes => ?_⟩
      · rw [hfd] at hsome
        cases hsome
      · rw [htx] at ht
        cases ht
      · rw [hcommitted] at hbytes
        cases hbytes
    · rintro s op s' ⟨i, hinv⟩ hcareful ⟨henabled, hexec⟩
      exact hinv.step henabled hcareful hexec
  exact hinv.kept

/-- An object on the file of a directory. -/
def State.new (fs : FileSystem String) (filename : String) : State where
  fs := fs
  original := .new filename 0
  tx_file_ := none
  unsynced := false
  lost := false
  committed := none

/-- A copy that is held open while it is written to and committed. -/
theorem kept_of_careful_scope : ∃ s : State, s.committed = some [1, 9] ∧ Kept s := by
  have hstart : system.ReachableWith Careful _ :=
    .step (a := .startTx false 0)
      (.init ⟨⟨0, rfl, rfl, nofun⟩, rfl, rfl, rfl, rfl⟩ :
        system.ReachableWith Careful (.new (directory "a" [1, 2]) "a"))
      (fun heq : none = some 0 => nomatch heq) ⟨rfl, rfl⟩
  have hscope : system.ReachableWith Careful _ :=
    .step (a := .txOpenScope) hstart trivial ⟨trivial, rfl⟩
  have hwrite : system.ReachableWith Careful _ :=
    .step (a := .txWrite 1 [9]) hscope trivial ⟨trivial, rfl⟩
  have hcommit : system.ReachableWith Careful _ :=
    .step (a := .commit) hwrite
      (fun _ ht => Option.some.inj ht ▸ ⟨.inl (Option.some_ne_none _), .inl rfl⟩) ⟨trivial, rfl⟩
  exact ⟨_, rfl, kept_of_careful hcommit⟩

/-- Without the condition they are not: a write closes the descriptor it has opened, and the
    commit finds none. -/
theorem not_kept_closed : ¬ ∀ s : State, system.Reachable s → Kept s := by
  intro h
  have hstart : system.Reachable _ :=
    .step (a := .startTx true 0)
      (.init ⟨⟨0, rfl, rfl, nofun⟩, rfl, rfl, rfl, rfl⟩ :
        system.Reachable (.new (directory "a" [1, 2]) "a")) trivial ⟨rfl, rfl⟩
  have hwrite : system.Reachable _ :=
    .step (a := .txWrite 0 [9]) hstart trivial ⟨trivial, rfl⟩
  have hcommit : system.Reachable _ :=
    .step (a := .commit) hwrite trivial ⟨trivial, rfl⟩
  have hlost := (h _ hcommit).synced
  cases hlost

end Durable

end Oasys.FileBackedObject
