import Oasys.ForStd.Transition
import Oasys.Storage.FileBackedObject

/-!
# FileBackedObject transactions

A transaction object is a file of its own, so what is written through it touches neither
the bytes of the original nor the descriptor the original may hold; `commit` moves the name
of the original over to that file. `At` ties an object to the inode of its file, and every
member is shown to keep an object at its inode and to touch no other.

Two things take this apart: a file that already has the name of the transaction, and an
original that is held open across the commit. `Careful` excludes them.
-/

namespace Oasys.FileBackedObject

open FileSystem

/-! ### The runs -/

/-- An object, and the transaction on it. -/
structure State where
  fs : FileSystem String
  original : FileBackedObject
  /-- `tx_file_` of the transaction, if there is one. -/
  tx_file_ : Option FileBackedObject
  /-- What the original held when the transaction started. -/
  before : Option (List UInt8)

inductive Op where
  | startTx (INIT_BLANK : Bool) (cur_offset : Nat)
  | txWrite (offset : Nat) (buf : List UInt8)
  | txAppend (buf : List UInt8)
  | txTruncate (size : Nat)
  | txRead (offset length : Nat)
  | txOpenScope
  | txCloseScope
  | read (offset length : Nat)
  | openScope
  | closeScope
  | commit
  | abort
  /-- The destructor of the transaction. -/
  | destroyTx
  deriving DecidableEq, Repr

/-- The call is of a member of an object, and not of the transaction. -/
def Op.isMember : Op → Bool
  | .startTx _ _ | .commit | .abort | .destroyTx => false
  | _ => true

/-- What an object holds: the bytes of the file it has open, or else of the file it would
    open. -/
def content (fs : FileSystem String) (o : FileBackedObject) : Option (List UInt8) :=
  match o.fd_ with
  | some fd => (fs.files fd).map fun f => fs.data f.inode
  | none => (fs.dir.lookup o.filename_).map fs.data

/-- A member of the transaction object. -/
def State.onTx (s : State) (f : FileSystem String → FileBackedObject →
    Except Fault (FileSystem String × FileBackedObject)) : Except Fault State :=
  match s.tx_file_ with
  | none => throw .nullDeref
  | some tx_file_ => do
    let (fs, tx_file_) ← f s.fs tx_file_
    pure { s with fs, tx_file_ := some tx_file_ }

def State.onOriginal (s : State) (f : FileSystem String → FileBackedObject →
    Except Fault (FileSystem String × FileBackedObject)) : Except Fault State := do
  let (fs, original) ← f s.fs s.original
  pure { s with fs, original }

def State.commit (s : State) : Except Fault State :=
  match s.tx_file_ with
  | none => pure s
  | some tx_file_ => do
    let (fs, original) ← Tx.commit s.fs s.original tx_file_
    pure { s with fs, original, tx_file_ := none }

/-- What a call leaves. -/
def exec (s : State) : Op → Except Fault State
  | .startTx INIT_BLANK cur_offset => do
    let (fs, tx_file_) ← Tx.start s.fs s.original INIT_BLANK cur_offset
    pure { s with fs, tx_file_ := some tx_file_, before := content s.fs s.original }
  | .txWrite offset buf => s.onTx fun fs o => writeBytes fs o offset buf
  | .txAppend buf => s.onTx fun fs o => appendBytes fs o buf
  | .txTruncate size => s.onTx fun fs o => truncate fs o size
  | .txRead offset length => s.onTx fun fs o => Prod.snd <$> readBytes fs o offset length
  | .txOpenScope => s.onTx openScope
  | .txCloseScope => s.onTx fun fs o => pure (closeScope fs o)
  | .read offset length => s.onOriginal fun fs o => Prod.snd <$> readBytes fs o offset length
  | .openScope => s.onOriginal openScope
  | .closeScope => s.onOriginal fun fs o => pure (closeScope fs o)
  | .commit => s.commit
  | .abort =>
    match s.tx_file_ with
    | none => throw .nullDeref
    | some tx_file_ => do
      let fs ← Tx.abort s.fs tx_file_
      pure { s with fs, tx_file_ := none }
  | .destroyTx => s.commit

/-- One transaction at a time, and `abort` only while there is one. -/
def Enabled (s : State) : Op → Prop
  | .startTx _ _ => s.tx_file_ = none
  | .abort => s.tx_file_ ≠ none
  | _ => True

/-- The object `o` is not unlinked, its name is of the inode `i`, and so is the file it may
    have open. -/
structure At (fs : FileSystem String) (o : FileBackedObject) (i : Nat) : Prop where
  linked : o.unlinked = false
  name : fs.dir.lookup o.filename_ = some i
  opened : ∀ fd, o.fd_ = some fd → Opened fs fd i

/-- An object whose file is there, in any directory, under any sequence of calls that
    return. -/
def system : TransitionSystem State Op where
  init s := (∃ i, At s.fs s.original i) ∧ s.tx_file_ = none
  step s op s' := Enabled s op ∧ exec s op = .ok s'

/-- A transaction starts where no file has its name, and is committed where the original is
    not held open. -/
def Careful (s : State) : Op → Prop
  | .startTx _ _ => s.fs.dir.lookup (Tx.filename s.original) = none
  | .commit | .destroyTx =>
    s.tx_file_ = none ∨ s.original.fd_ = none ∨ s.original.open_count_ ≤ 0
  | _ => True

/-! ### What transactions promise -/

/-- While there is a transaction, the original holds what it held before. -/
def Isolated (s : State) : Prop :=
  s.tx_file_ ≠ none → s.before ≠ none ∧ content s.fs s.original = s.before

/-- What a call does to the contents. -/
def Transacts (s : State) : Op → Except Fault State → Prop
  | .startTx INIT_BLANK _, res => ∃ s' tx_file_, res = .ok s' ∧ s'.tx_file_ = some tx_file_ ∧
      content s'.fs tx_file_ = (if INIT_BLANK then some [] else content s.fs s.original) ∧
      content s'.fs s'.original = content s.fs s.original
  | .commit, res | .destroyTx, res => ∃ s', res = .ok s' ∧ s'.tx_file_ = none ∧
      content s'.fs s'.original = s.tx_file_.elim (content s.fs s.original) (content s.fs)
  | .abort, res => ∃ s', res = .ok s' ∧ s'.tx_file_ = none ∧
      content s'.fs s'.original = content s.fs s.original ∧
      s'.fs.dir.lookup (Tx.filename s.original) = none
  | _, res => ∀ s', res = .ok s' → content s'.fs s'.original = content s.fs s.original

/-! ### Members keep an object at its inode -/

/-- The object is still at its inode, under its name, and no other inode has been touched. -/
structure Stays (fs : FileSystem String) (o : FileBackedObject) (fs' : FileSystem String)
    (o' : FileBackedObject) (i : Nat) : Prop where
  touches : Touches fs fs' i
  stays : At fs' o' i
  name : o'.filename_ = o.filename_

section Members

variable {fs fs' fs'' : FileSystem String} {o o' o'' : FileBackedObject} {i fd : Nat}

theorem Stays.trans (h : Stays fs o fs' o' i) (h' : Stays fs' o' fs'' o'' i) :
    Stays fs o fs'' o'' i where
  touches := h.touches.trans h'.touches
  stays := h'.stays
  name := h'.name.trans h.name

theorem At.stays (h : At fs o i) (htouches : Touches fs fs' i) (hname : o'.filename_ = o.filename_)
    (hlinked : o'.unlinked = o.unlinked) (hfd : ∀ fd, o'.fd_ = some fd → Opened fs' fd i) :
    Stays fs o fs' o' i where
  touches := htouches
  stays :=
    { linked := hlinked.trans h.linked
      name := by rw [htouches.dir, hname, h.name]
      opened := hfd }
  name := hname

theorem At.content (h : At fs o i) : content fs o = some (fs.data i) := by
  unfold FileBackedObject.content
  split
  · rename_i fd hfd
    obtain ⟨off, hfile⟩ := h.opened fd hfd
    rw [hfile]
    rfl
  · rw [h.name]
    rfl

/-- The descriptor of the object, if it has one, stands at `cur_offset_`. -/
def Aligned (fs : FileSystem String) (o : FileBackedObject) : Prop :=
  ∀ fd f, o.fd_ = some fd → fs.files fd = some f → f.offset = o.cur_offset_

theorem At.touches {j : Nat} (h : At fs o j) (ht : Touches fs fs' i) (hne : j ≠ i) :
    At fs' o j where
  linked := h.linked
  name := by rw [ht.dir, h.name]
  opened fd hfd := (h.opened fd hfd).touches ht hne

theorem At.assert_linked (h : At fs o i) : assert (!o.unlinked) = .ok () := by
  rw [h.linked]
  rfl

theorem openFd_open (h : At fs o i) (hfd : o.fd_ = some fd) : openFd fs o = .ok (fd, fs, o) := by
  unfold openFd
  rw [h.assert_linked, hfd]
  rfl

theorem openFd_closed (h : At fs o i) (hfd : o.fd_ = none) :
    ∃ fd fs', openFd fs o = .ok (fd, fs', { o with fd_ := some fd, cur_offset_ := 0 }) ∧
      fs.files fd = none ∧ fs'.dir = fs.dir ∧ fs'.data = fs.data ∧
      fs'.files = Function.update fs.files fd (some ⟨i, 0⟩) := by
  obtain ⟨fd, fs', hopen, hfree, hdir, hdata, hfiles, -⟩ := openFile_spec h.name
  refine ⟨fd, fs', ?_, hfree, hdir, hdata, hfiles⟩
  simp only [openFd, h.assert_linked, hfd, hopen, ok_bind]
  rfl

theorem openFd_ok (h : At fs o i) :
    ∃ fd fs' o', openFd fs o = .ok (fd, fs', o') ∧ Stays fs o fs' o' i ∧ o'.fd_ = some fd ∧
      fs'.data = fs.data := by
  cases hfd : o.fd_ with
  | some fd =>
    exact ⟨fd, fs, o, openFd_open h hfd, h.stays (.refl fs i) rfl rfl h.opened, hfd, rfl⟩
  | none =>
    obtain ⟨fd, fs', hopen, hfree, hdir, hdata, hfiles⟩ := openFd_closed h hfd
    have htouches : Touches fs fs' i := 
      touches_update hfree hdir (fun j _ => congrFun hdata j) hfiles
    have hopened : Opened fs' fd i := ⟨0, by rw [hfiles, Function.update_self]⟩
    refine ⟨fd, fs', _, hopen, h.stays htouches rfl rfl ?_, rfl, hdata⟩
    intro fd' hfd'
    exact Option.some.inj hfd' ▸ hopened

theorem openFd_stays (h : At fs o i) (hopen : openFd fs o = .ok (fd, fs', o')) :
    Stays fs o fs' o' i ∧ o'.fd_ = some fd ∧ fs'.data = fs.data := by
  obtain ⟨fd₁, fs₁, o₁, hok, hstays, hfd, hdata⟩ := openFd_ok h
  rw [hok] at hopen
  cases hopen
  exact ⟨hstays, hfd, hdata⟩

theorem close_stays (h : At fs o i) : Stays fs o (close fs o).1 (close fs o).2 i ∧
    (close fs o).1.data = fs.data := by
  unfold close
  split
  · exact ⟨h.stays (.refl fs i) rfl rfl h.opened, rfl⟩
  rename_i fd hfd
  split
  · exact ⟨h.stays (.refl fs i) rfl rfl h.opened, rfl⟩
  · have htouches : Touches fs (fs.close fd) i :=
      touches_close fun f hf => (h.opened fd hfd).inode_eq hf
    exact ⟨h.stays htouches rfl rfl (fun _ hnone => nomatch hnone), rfl⟩

theorem At.through (h : At fs o i) (o' : FileBackedObject) (hfd : o.fd_ = some fd)
    (htouches : Touches fs fs' i) (hopened : Opened fs' fd i) (hname : o'.filename_ = o.filename_)
    (hlinked : o'.unlinked = o.unlinked) (hfd' : o'.fd_ = o.fd_) : Stays fs o fs' o' i := by
  apply h.stays htouches hname hlinked
  intro fd' hsome
  rw [hfd', hfd] at hsome
  exact Option.some.inj hsome ▸ hopened

theorem seekTo_stays {offset : Nat} (h : At fs o i) (hfd : o.fd_ = some fd)
    (hseek : seekTo fs o fd offset = .ok (fs', o')) :
    Stays fs o fs' o' i ∧ o'.fd_ = some fd ∧ fs'.data = fs.data := by
  have hnothing := h.through { o with cur_offset_ := offset } hfd (.refl fs i) (h.opened fd hfd)
    rfl rfl rfl
  unfold seekTo at hseek
  -- the object is at the offset already
  split at hseek
  · obtain ⟨rfl, rfl⟩ := Prod.mk.inj (Except.ok.inj hseek)
    exact ⟨h.through o hfd (.refl fs i) (h.opened fd hfd) rfl rfl rfl, hfd, rfl⟩
  -- `lseek` moves it, or refuses an offset that is negative as an `off_t`
  split at hseek
  · split at hseek
    · cases hseek
    · rename_i fs₁ hmoved
      obtain ⟨rfl, rfl⟩ := Prod.mk.inj (Except.ok.inj hseek)
      obtain ⟨htouches, hopened, hdata⟩ := (h.opened fd hfd).seek hmoved
      exact ⟨h.through _ hfd htouches hopened rfl rfl rfl, hfd, hdata⟩
  · split at hseek
    · cases hseek
    · obtain ⟨-, -, hdone⟩ := bind_eq_ok.1 hseek
      obtain ⟨rfl, rfl⟩ := Prod.mk.inj (Except.ok.inj hdone)
      exact ⟨hnothing, hfd, rfl⟩

theorem readBytes_stays {offset length : Nat} {buf : List UInt8} (h : At fs o i)
    (hread : readBytes fs o offset length = .ok (buf, fs', o')) :
    Stays fs o fs' o' i ∧ fs'.data = fs.data := by
  obtain ⟨⟨fd, fs₁, o₁⟩, hopen, hrest⟩ := bind_eq_ok.1 hread
  obtain ⟨hstays₁, hfd₁, hdata₁⟩ := openFd_stays h hopen
  obtain ⟨⟨fs₂, o₂⟩, hseek, hrest⟩ := bind_eq_ok.1 hrest
  obtain ⟨hstays₂, hfd₂, hdata₂⟩ := seekTo_stays hstays₁.stays hfd₁ hseek
  dsimp only at hrest
  split at hrest
  · cases hrest
  rename_i bytes fs₃ hbytes
  obtain ⟨rfl, hclosed⟩ := Prod.mk.inj (Except.ok.inj hrest)
  obtain ⟨htouches, hopened, hdata₃⟩ := (hstays₂.stays.opened fd hfd₂).read hbytes
  have hstays₃ := hstays₂.stays.through
    { o₂ with cur_offset_ := (o₂.cur_offset_ + bytes.length) % 2 ^ 64 } hfd₂ htouches hopened
    rfl rfl rfl
  obtain ⟨hstays₄, hdata₄⟩ := close_stays hstays₃.stays
  rw [hclosed] at hstays₄ hdata₄
  exact ⟨((hstays₁.trans hstays₂).trans hstays₃).trans hstays₄,
    by rw [hdata₄, hdata₃, hdata₂, hdata₁]⟩

theorem writeBytes_stays {offset : Nat} {buf : List UInt8} (h : At fs o i)
    (hwrite : writeBytes fs o offset buf = .ok (fs', o')) : Stays fs o fs' o' i := by
  obtain ⟨⟨fd, fs₁, o₁⟩, hopen, hrest⟩ := bind_eq_ok.1 hwrite
  obtain ⟨hstays₁, hfd₁, -⟩ := openFd_stays h hopen
  obtain ⟨⟨fs₂, o₂⟩, hseek, hrest⟩ := bind_eq_ok.1 hrest
  obtain ⟨hstays₂, hfd₂, -⟩ := seekTo_stays hstays₁.stays hfd₁ hseek
  obtain ⟨-, -, hrest⟩ := bind_eq_ok.1 hrest
  split at hrest
  · cases hrest
  rename_i fs₃ hwritten
  have hclosed := Except.ok.inj hrest
  obtain ⟨htouches, hopened⟩ := (hstays₂.stays.opened fd hfd₂).write hwritten
  have hstays₃ := hstays₂.stays.through
    { o₂ with cur_offset_ := (o₂.cur_offset_ + buf.length) % 2 ^ 64 } hfd₂ htouches hopened
    rfl rfl rfl
  have hstays₄ := (close_stays hstays₃.stays).1
  rw [hclosed] at hstays₄
  exact ((hstays₁.trans hstays₂).trans hstays₃).trans hstays₄

theorem appendBytes_stays {buf : List UInt8} (h : At fs o i)
    (happend : appendBytes fs o buf = .ok (fs', o')) : Stays fs o fs' o' i := by
  obtain ⟨⟨fd, fs₁, o₁⟩, hopen, hrest⟩ := bind_eq_ok.1 happend
  obtain ⟨hstays₁, hfd₁, -⟩ := openFd_stays h hopen
  dsimp only at hrest
  split at hrest
  · cases hrest
  rename_i off fs₂ hmoved
  obtain ⟨htouches, hopened⟩ := (hstays₁.stays.opened fd hfd₁).seekEnd hmoved
  have hstays₂ := hstays₁.stays.through { o₁ with cur_offset_ := off } hfd₁
    htouches hopened rfl rfl rfl
  exact (hstays₁.trans hstays₂).trans (writeBytes_stays hstays₂.stays hrest)

theorem truncate_stays {size : Nat} (h : At fs o i)
    (htruncate : truncate fs o size = .ok (fs', o')) : Stays fs o fs' o' i := by
  obtain ⟨⟨fd, fs₁, o₁⟩, hopen, hrest⟩ := bind_eq_ok.1 htruncate
  obtain ⟨hstays₁, hfd₁, -⟩ := openFd_stays h hopen
  obtain ⟨-, -, hrest⟩ := bind_eq_ok.1 hrest
  split at hrest
  · cases hrest
  rename_i fs₂ hsized
  have hclosed := Except.ok.inj hrest
  obtain ⟨htouches, hopened⟩ := (hstays₁.stays.opened fd hfd₁).truncate hsized
  have hstays₂ := hstays₁.stays.through o₁ hfd₁ htouches hopened rfl rfl rfl
  have hstays₃ := (close_stays hstays₂.stays).1
  rw [hclosed] at hstays₃
  exact (hstays₁.trans hstays₂).trans hstays₃

theorem openScope_stays (h : At fs o i) (hopen : openScope fs o = .ok (fs', o')) :
    Stays fs o fs' o' i ∧ fs'.data = fs.data := by
  have hcount : At fs { o with open_count_ := o.open_count_ + 1 } i := ⟨h.linked, h.name, h.opened⟩
  obtain ⟨⟨fd, fs₁, o₁⟩, hopen₁, hrest⟩ := bind_eq_ok.1 hopen
  obtain ⟨rfl, rfl⟩ := Prod.mk.inj (Except.ok.inj hrest)
  obtain ⟨hstays₁, -, hdata₁⟩ := openFd_stays hcount hopen₁
  exact ⟨⟨hstays₁.touches, hstays₁.stays, hstays₁.name⟩, hdata₁⟩

theorem closeScope_stays (h : At fs o i) :
    Stays fs o (closeScope fs o).1 (closeScope fs o).2 i ∧ (closeScope fs o).1.data = fs.data := by
  have hcount : At fs { o with open_count_ := o.open_count_ - 1 } i := ⟨h.linked, h.name, h.opened⟩
  unfold closeScope
  simp only
  split
  · obtain ⟨hstays, hdata⟩ := close_stays hcount
    exact ⟨⟨hstays.touches, hstays.stays, hstays.name⟩, hdata⟩
  · exact ⟨h.stays (.refl fs i) rfl rfl h.opened, rfl⟩

end Members

/-! ### Copying a file -/

/-- A round of a loop that copies a file, where `n` bytes have been copied: the next ones are
    read, and so many of them written. -/
theorem copy_round {src dest i j n : Nat} (ask m : Nat) (hfds : src ≠ dest)
    {fs : FileSystem String} (hsrc : fs.files src = some ⟨i, n⟩)
    (hdest : fs.files dest = some ⟨j, n⟩) (hn : n ≤ (fs.data i).length)
    (hcopied : fs.data j = (fs.data i).take n) :
    ∃ buf fs₁ fs₂, fs.read src ask = some (buf, fs₁) ∧
      fs₁.write dest (buf.take m) = some fs₂ ∧
      buf.length = min ask ((fs.data i).length - n) ∧ fs₂.dir = fs.dir ∧
      fs₂.data = Function.update fs.data j ((fs.data i).take (n + min m buf.length)) ∧
      fs₂.files = Function.update (Function.update fs.files src (some ⟨i, n + buf.length⟩)) dest
        (some ⟨j, n + min m buf.length⟩) := by
  let buf := ((fs.data i).drop n).take ask
  have hlength : buf.length = min ask ((fs.data i).length - n) := by
    rw [List.length_take, List.length_drop]
  have hmoved := files_setOffset hsrc (n + buf.length)
  have hdest' : (fs.setOffset src (n + buf.length)).files dest = some ⟨j, n⟩ := by
    rw [hmoved, Function.update_of_ne hfds.symm, hdest]
  have hput : (buf.take m).length = min m buf.length := List.length_take
  -- what is written is what comes next
  have hwritten : writeAt (fs.data j) n (buf.take m) =
      (fs.data i).take (n + min m buf.length) := by
    have hbuf : ((fs.data i).drop n).take (min m buf.length) = buf.take m := by
      rw [List.take_take]
      apply List.take_eq_take_iff.2
      rw [List.length_drop, hlength]
      omega
    have happend := writeAt_length (fs.data j) (buf.take m)
    rw [hcopied, List.length_take, Nat.min_eq_left hn] at happend
    rw [hcopied, happend, List.take_add, hbuf]
  refine ⟨buf, _, _, read_eq hsrc _, write_eq hdest' (buf.take m), hlength, rfl, ?_, ?_⟩
  · show Function.update fs.data j (writeAt (fs.data j) n (buf.take m)) = _
    rw [hwritten]
  · have hdest₁ : ((fs.setOffset src (n + buf.length)).setData j
        (writeAt (fs.data j) n (buf.take m))).files dest = some ⟨j, n⟩ := hdest'
    have hmoved₁ := files_setOffset hdest₁ (n + (buf.take m).length)
    rw [hput] at hmoved₁
    rw [hput]
    apply hmoved₁.trans
    show Function.update (fs.setOffset src (n + buf.length)).files dest _ = _
    rw [hmoved]

/-- The loop of `fast_copy` copies what is left, and leaves everything but the copy and the
    two descriptors as it was. -/
theorem copyLoop_spec {src dest i j : Nat} (hne : i ≠ j) (hfds : src ≠ dest) {fuel n : Nat}
    {fs : FileSystem String} (hsrc : fs.files src = some ⟨i, n⟩)
    (hdest : fs.files dest = some ⟨j, n⟩) (hn : n ≤ (fs.data i).length)
    (hcopied : fs.data j = (fs.data i).take n) (hfuel : (fs.data i).length - n < fuel) :
    ∃ fs' a b, FileUtils.copyLoop src dest fuel fs = .ok fs' ∧ fs'.dir = fs.dir ∧
      fs'.data = Function.update fs.data j (fs.data i) ∧
      fs'.files = Function.update (Function.update fs.files src (some a)) dest (some b) := by
  -- the induction is on the fuel, of which a round that reads something uses up one
  induction fuel generalizing n fs with
  | zero => exact absurd hfuel (Nat.not_lt_zero _)
  | succ fuel ih =>
    obtain ⟨buf, fs₁, fs₂, hread, hwrite, hlength, hdir₂, hdata₂, hfiles₂⟩ :=
      copy_round FileUtils.BUFSIZE FileUtils.BUFSIZE hfds hsrc hdest hn hcopied
    rw [List.take_of_length_le (by omega)] at hwrite
    rw [Nat.min_eq_right (by omega)] at hdata₂ hfiles₂
    have hi : fs₂.data i = fs.data i := by rw [hdata₂, Function.update_of_ne hne]
    unfold FileUtils.copyLoop
    rw [hread]
    dsimp only
    rw [hwrite]
    dsimp only
    split
    · -- another round
      have hsrc₂ : fs₂.files src = some ⟨i, n + buf.length⟩ := by
        rw [hfiles₂, Function.update_of_ne hfds, Function.update_self]
      have hdest₂ : fs₂.files dest = some ⟨j, n + buf.length⟩ := by
        rw [hfiles₂, Function.update_self]
      obtain ⟨fs', a, b, hrun, hdir, hdata, hfiles⟩ := ih hsrc₂ hdest₂ (by rw [hi]; omega)
        (by rw [hi, hdata₂, Function.update_self]) (by rw [hi]; omega)
      refine ⟨fs', a, b, hrun, hdir.trans hdir₂, ?_, ?_⟩
      · rw [hdata, hi, hdata₂, Function.update_idem]
      · rw [hfiles, hfiles₂, Function.update_comm hfds.symm, Function.update_idem,
          Function.update_idem]
    · -- nothing was left to read
      refine ⟨fs₂, _, _, rfl, hdir₂, ?_, hfiles₂⟩
      unfold FileUtils.BUFSIZE at hlength
      rw [hdata₂, List.take_of_length_le (by omega)]

/-- `fast_copy` to a name that is not there makes a file with the bytes of the source, and
    closes what it has opened. -/
theorem fastCopy_spec {fs : FileSystem String} {src_filename dest_filename : String} {i : Nat}
    (hsrc : fs.dir.lookup src_filename = some i) (hdest : fs.dir.lookup dest_filename = none) :
    ∃ fs', FileUtils.fastCopy fs src_filename dest_filename = .ok (some fs') ∧
      fs'.dir = fs.dir.insert dest_filename fs.next ∧
      fs'.data = Function.update fs.data fs.next (fs.data i) ∧ fs'.files = fs.files := by
  -- the source is opened first, so the copy gets another descriptor
  obtain ⟨src, fs₁, hopen₁, hfree₁, hdir₁, hdata₁, hfiles₁, hnext₁⟩ := openFile_spec hsrc
  have hdest₁ : fs₁.dir.lookup dest_filename = none := by rw [hdir₁, hdest]
  obtain ⟨dest, fs₂, hopen₂, hfree₂, hdir₂, hdata₂, hfiles₂⟩ :=
    openFile_new_spec hdest₁ { creat := true, excl := true } rfl
  rw [hdir₁, hnext₁] at hdir₂
  rw [hdata₁, hnext₁] at hdata₂
  have hne : i ≠ fs.next := Nat.ne_of_lt (fs.dir_lt _ i hsrc)
  have hfds : src ≠ dest := by
    rintro rfl
    rw [hfiles₁, Function.update_self] at hfree₂
    cases hfree₂
  have hsrc₂ : fs₂.files src = some ⟨i, 0⟩ := by
    rw [hfiles₂, Function.update_of_ne hfds, hfiles₁, Function.update_self]
  have hdest₂ : fs₂.files dest = some ⟨fs.next, 0⟩ := by
    rw [hfiles₂, Function.update_self, hnext₁]
  have hi : fs₂.data i = fs.data i := by rw [hdata₂, Function.update_of_ne hne]
  have hsize : fs₂.size src_filename = some (fs.data i).length := by
    have hnames : src_filename ≠ dest_filename := by
      rintro rfl
      rw [hsrc] at hdest
      cases hdest
    unfold FileSystem.size
    rw [hdir₂, AList.lookup_insert_ne hnames, hsrc, Option.map_some, hi]
  have hfuel : (fs₂.data i).length - 0 < (fs.data i).length + 1 := by
    rw [hi]
    omega
  obtain ⟨fs₃, a, b, hrun, hdir₃, hdata₃, hfiles₃⟩ := copyLoop_spec (n := 0) hne hfds hsrc₂ hdest₂
    (Nat.zero_le _) (by rw [hdata₂, Function.update_self, List.take_zero]) hfuel
  refine ⟨(fs₃.close src).close dest, ?_, hdir₃.trans hdir₂, ?_, ?_⟩
  · unfold FileUtils.fastCopy
    rw [hopen₁]
    dsimp only
    rw [hopen₂]
    dsimp only
    rw [hsize]
    show (FileUtils.copyLoop src dest _ fs₂ >>= _) = _
    rw [Option.getD_some, hrun]
    rfl
  · show fs₃.data = _
    rw [hdata₃, hi, hdata₂, Function.update_idem]
  · -- both descriptors have been free
    show Function.update (Function.update fs₃.files src none) dest none = fs.files
    rw [hfiles₃, hfiles₂, hfiles₁]
    funext fd
    by_cases hd : fd = dest
    · rw [hd, Function.update_self]
      rw [hfiles₁, Function.update_of_ne hfds.symm] at hfree₂
      exact hfree₂.symm
    · by_cases hs : fd = src
      · rw [hs, Function.update_of_ne hfds, Function.update_self, hfree₁]
      · simp only [Function.update_of_ne hd, Function.update_of_ne hs]

/-! ### The transaction -/

section Tx

variable {fs fs' : FileSystem String} {o t o' : FileBackedObject} {i j : Nat}

theorem filename_ne (o : FileBackedObject) : Tx.filename o ≠ o.filename_ := by
  intro heq
  have hlength := congrArg String.length heq
  rw [Tx.filename, String.length_append] at hlength
  have hsuffix : ".tx".length = 3 := by decide
  omega

/-- A transaction that starts where no file has its name gets a file of its own, empty or
    with the bytes of the original, which stays as it is. -/
theorem start_spec (h : At fs o i) (hnew : fs.dir.lookup (Tx.filename o) = none)
    (INIT_BLANK : Bool) (cur_offset : Nat) :
    ∃ fs' t j, Tx.start fs o INIT_BLANK cur_offset = .ok (fs', t) ∧ At fs' t j ∧
      t.filename_ = Tx.filename o ∧ j ≠ i ∧ At fs' o i ∧ fs'.data i = fs.data i ∧
      fs'.data j = (if INIT_BLANK then [] else fs.data i) ∧ fs'.files = fs.files := by
  have hne : fs.next ≠ i := (Nat.ne_of_lt (fs.dir_lt _ i h.name)).symm
  -- whatever made the file, the names, the bytes and the descriptors are these
  have hmade : ∀ fs' : FileSystem String, ∀ bytes,
      fs'.dir = fs.dir.insert (Tx.filename o) fs.next →
      fs'.data = Function.update fs.data fs.next bytes → fs'.files = fs.files →
      At fs' (new (Tx.filename o) cur_offset) fs.next ∧ At fs' o i ∧
        fs'.data i = fs.data i ∧ fs'.data fs.next = bytes := by
    intro fs' bytes hdir hdata hfiles
    refine ⟨⟨rfl, ?_, fun _ hnone => by cases hnone⟩, ⟨h.linked, ?_, ?_⟩, ?_, ?_⟩
    · rw [hdir]
      exact AList.lookup_insert _
    · rw [hdir, AList.lookup_insert_ne (filename_ne o).symm, h.name]
    · exact fun fd hfd => (h.opened fd hfd).congr hfiles
    · rw [hdata, Function.update_of_ne hne.symm]
    · rw [hdata, Function.update_self]
  cases INIT_BLANK with
  | true =>
    obtain ⟨fd, fs', hopen, hfree, hdir, hdata, hfiles⟩ :=
      openFile_new_spec hnew { creat := true, excl := true } rfl
    have hclosed : (fs'.close fd).files = fs.files := by
      show Function.update fs'.files fd none = fs.files
      rw [hfiles, Function.update_idem, ← hfree, Function.update_eq_self]
    obtain ⟨htx, horig, hi, hj⟩ := hmade (fs'.close fd) [] hdir hdata hclosed
    refine ⟨fs'.close fd, _, fs.next, ?_, htx, rfl, hne, horig, hi, hj, hclosed⟩
    simp only [Tx.start, if_true, hopen, pure_eq_ok]
  | false =>
    obtain ⟨fs', hcopy, hdir, hdata, hfiles⟩ := fastCopy_spec h.name hnew
    obtain ⟨htx, horig, hi, hj⟩ := hmade fs' _ hdir hdata hfiles
    refine ⟨fs', _, fs.next, ?_, htx, rfl, hne, horig, hi, hj, hfiles⟩
    show (FileUtils.fastCopy fs o.filename_ (Tx.filename o) >>= _) = _
    rw [hcopy]
    rfl

/-- A transaction that has started is on a file of its own, if the file that has its name
    already is not that of the original. -/
theorem start_at (h : At fs o i) (hother : fs.dir.lookup (Tx.filename o) ≠ some i)
    {INIT_BLANK : Bool} {cur_offset : Nat}
    (hstart : Tx.start fs o INIT_BLANK cur_offset = .ok (fs', t)) :
    t.filename_ = Tx.filename o ∧ At fs' o i ∧ fs'.data i = fs.data i ∧ fs'.files = fs.files ∧
      ∃ j, j ≠ i ∧ At fs' t j := by
  cases hk : fs.dir.lookup (Tx.filename o) with
  | none =>
    obtain ⟨fs₁, t₁, j, hok, hat, hname, hne, horig, hi, -, hfiles⟩ :=
      start_spec h hk INIT_BLANK cur_offset
    obtain ⟨rfl, rfl⟩ := Prod.mk.inj (Except.ok.inj (hok.symm.trans hstart))
    exact ⟨hname, horig, hi, hfiles, j, hne, hat⟩
  | some k =>
    -- only a blank transaction takes the file that is there
    have hfails : fs.openFile (Tx.filename o) { creat := true, excl := true } = none :=
      openFile_exclusive hk rfl rfl
    cases INIT_BLANK with
    | true =>
      simp only [Tx.start, if_true, hfails] at hstart
      obtain ⟨rfl, rfl⟩ := Prod.mk.inj (Except.ok.inj hstart)
      refine ⟨rfl, h, rfl, rfl, k, ?_, rfl, hk, fun _ hnone => by cases hnone⟩
      rintro rfl
      exact hother hk
    | false =>
      obtain ⟨src, fs₁, hopen, -, hdir₁, -⟩ := openFile_spec h.name
      have hfails₁ : fs₁.openFile (Tx.filename o) { creat := true, excl := true } = none :=
        openFile_exclusive (by rw [hdir₁, hk]) rfl rfl
      have hcopy : FileUtils.fastCopy fs o.filename_ (Tx.filename o) = .ok none := by
        unfold FileUtils.fastCopy
        rw [hopen]
        dsimp only
        rw [hfails₁]
        rfl
      change (FileUtils.fastCopy fs o.filename_ (Tx.filename o) >>= _) = _ at hstart
      rw [hcopy] at hstart
      cases hstart

/-- `reload()` of an object that is not held open goes to the file that has its name now. A
    descriptor that is not the object's own is as it was. -/
theorem reload_spec (hlinked : o.unlinked = false) (hname : fs.dir.lookup o.filename_ = some j)
    (hopen : o.fd_ = none ∨ o.open_count_ ≤ 0) :
    ∃ fd fs' o', reload fs o = .ok (fs', o') ∧ o'.fd_ = some fd ∧ At fs' o' j ∧
      Aligned fs' o' ∧ fs'.data = fs.data ∧
      ∀ fd' k, Opened fs fd' k → o.fd_ ≠ some fd' → fd ≠ fd' := by
  -- the object has no descriptor once it is closed
  have hclosed : ∃ fs₁, close fs o = (fs₁, { o with fd_ := none }) ∧ fs₁.dir = fs.dir ∧
      fs₁.data = fs.data ∧
      ∀ fd' k, Opened fs fd' k → o.fd_ ≠ some fd' → Opened fs₁ fd' k := by
    cases hfd : o.fd_ with
    | none =>
      refine ⟨fs, ?_, rfl, rfl, fun _ _ h _ => h⟩
      unfold close
      rw [hfd]
      exact congrArg (Prod.mk fs) (by rw [← hfd])
    | some fd =>
      have hcount : ¬ o.open_count_ > 0 := by
        cases hopen with
        | inl hnone =>
          rw [hfd] at hnone
          cases hnone
        | inr hcount => omega
      refine ⟨fs.close fd, ?_, rfl, rfl, fun fd' k hopened hne => ?_⟩
      · unfold close
        rw [hfd]
        exact if_neg hcount
      · apply hopened.close
        rintro rfl
        exact hne rfl
  obtain ⟨fs₁, hclose, hdir₁, hdata₁, hother⟩ := hclosed
  have hat : At fs₁ { o with fd_ := none } j :=
    ⟨hlinked, by rw [hdir₁, hname], fun _ hnone => nomatch hnone⟩
  obtain ⟨fd, fs₂, hopened, hfree, hdir₂, hdata₂, hfiles₂⟩ := openFd_closed hat rfl
  refine ⟨fd, fs₂, { o with fd_ := some fd, cur_offset_ := 0 }, ?_, rfl, ⟨hlinked, ?_, ?_⟩,
    ?_, hdata₂.trans hdata₁, ?_⟩
  · unfold reload
    rw [hclose]
    show (openFd fs₁ { o with fd_ := none } >>= _) = _
    rw [hopened]
    rfl
  · rw [hdir₂, hdir₁, hname]
  · intro fd' hfd'
    obtain rfl := Option.some.inj hfd'
    exact ⟨0, by rw [hfiles₂, Function.update_self]⟩
  · intro fd' f hfd' hf
    obtain rfl := Option.some.inj hfd'
    rw [hfiles₂, Function.update_self] at hf
    rw [← Option.some.inj hf]
  · rintro fd' k hk hne rfl
    obtain ⟨off, hfile⟩ := hother fd k hk hne
    rw [hfree] at hfile
    cases hfile

theorem destroy_spec (fs : FileSystem String) (t : FileBackedObject) :
    (t.destroy fs).dir = fs.dir ∧ (t.destroy fs).data = fs.data ∧
      ∀ fd, t.fd_ ≠ some fd → (t.destroy fs).files fd = fs.files fd := by
  unfold destroy
  split
  · exact ⟨rfl, rfl, fun _ _ => rfl⟩
  · rename_i fd' hfd'
    refine ⟨rfl, rfl, fun fd hown => Function.update_of_ne ?_ _ _⟩
    rintro rfl
    exact hown hfd'

/-- `commit` moves the name of the original to the file of the transaction, and the original
    with it where it is not held open. -/
theorem commit_spec (h : At fs o i) (ht : At fs t j) (hname : t.filename_ = Tx.filename o)
    (hne : i ≠ j) (hopen : o.fd_ = none ∨ o.open_count_ ≤ 0) :
    ∃ fs' o', Tx.commit fs o t = .ok (fs', o') ∧ At fs' o' j ∧ Aligned fs' o' ∧
      fs'.data j = fs.data j := by
  have hnames : o.filename_ ≠ t.filename_ := by
    rw [hname]
    exact (filename_ne o).symm
  -- `rename`, `reload` of the original, and the destructor of the transaction
  obtain ⟨fs₁, hrename, hdir₁, hdata₁, hfiles₁⟩ := rename_spec ht.name h.name hne
  have hlookup₁ : fs₁.dir.lookup o.filename_ = some j := by
    rw [hdir₁, AList.lookup_erase_ne hnames, AList.lookup_insert]
  obtain ⟨fd, fs₂, o', hreload, hfd, hat, haligned, hdata₂, hother⟩ :=
    reload_spec h.linked hlookup₁ hopen
  -- the descriptor of the transaction is another than the one the original has now
  have hown : t.fd_ ≠ some fd := by
    intro hfd'
    have hopened : Opened fs₁ fd j := (ht.opened fd hfd').congr hfiles₁
    have hkept : o.fd_ ≠ some fd := fun hsame =>
      (h.opened fd hsame).ne (ht.opened fd hfd') hne rfl
    exact hother fd j hopened hkept rfl
  obtain ⟨hdir₃, hdata₃, hkeeps⟩ := destroy_spec fs₂ t
  refine ⟨t.destroy fs₂, o', ?_, ⟨hat.linked, by rw [hdir₃, hat.name], ?_⟩, ?_, ?_⟩
  · unfold Tx.commit
    rw [hrename]
    show (reload fs₁ o >>= _) = _
    rw [hreload]
    rfl
  · intro fd' hfd'
    obtain rfl : fd = fd' := Option.some.inj (hfd.symm.trans hfd')
    obtain ⟨off, hfile⟩ := hat.opened fd hfd
    exact ⟨off, (hkeeps fd hown).trans hfile⟩
  · intro fd' f hfd' hf
    obtain rfl : fd = fd' := Option.some.inj (hfd.symm.trans hfd')
    rw [hkeeps fd hown] at hf
    exact haligned fd f hfd hf
  · rw [hdata₃, hdata₂, hdata₁]

/-- `abort` drops the name of the transaction, and closes its descriptor. -/
theorem abort_ok (ht : At fs t j) :
    ∃ fs', Tx.abort fs t = .ok fs' ∧ fs'.dir = fs.dir.erase t.filename_ ∧ fs'.data = fs.data ∧
      (fs'.files = fs.files ∨
        ∃ fd, t.fd_ = some fd ∧ fs'.files = Function.update fs.files fd none) := by
  have hunlink : ∀ fs' : FileSystem String, fs'.dir = fs.dir →
      fs'.unlink t.filename_ = some (fs'.dropName t.filename_) := by
    intro fs' hdir
    apply if_pos
    rw [hdir, ht.name]
    rfl
  cases hfd : t.fd_ with
  | none =>
    refine ⟨fs.dropName t.filename_, ?_, rfl, rfl, .inl rfl⟩
    unfold Tx.abort unlink
    rw [hfd]
    dsimp only
    rw [hunlink fs rfl]
    simp [destroy, hfd]
  | some fd =>
    by_cases hzero : fd = 0
    · -- `unlink()` leaves the descriptor 0 to the destructor
      refine ⟨(fs.dropName t.filename_).close fd, ?_, rfl, rfl, .inr ⟨fd, rfl, rfl⟩⟩
      unfold Tx.abort unlink
      rw [hfd]
      dsimp only
      rw [if_neg (not_not.2 hzero), hunlink fs rfl]
      simp [destroy, hfd]
    · refine ⟨(fs.close fd).dropName t.filename_, ?_, rfl, rfl, .inr ⟨fd, rfl, rfl⟩⟩
      unfold Tx.abort unlink
      rw [hfd]
      dsimp only
      rw [if_pos hzero]
      dsimp only
      rw [hunlink (fs.close fd) rfl]
      rfl

theorem abort_spec (h : At fs o i) (ht : At fs t j) (hname : t.filename_ = Tx.filename o)
    (hne : i ≠ j) :
    ∃ fs', Tx.abort fs t = .ok fs' ∧ At fs' o i ∧ fs'.data i = fs.data i ∧
      fs'.dir.lookup (Tx.filename o) = none ∧
      ∀ fd, Opened fs fd i → fs'.files fd = fs.files fd := by
  obtain ⟨fs', habort, hdir, hdata, hfiles⟩ := abort_ok ht
  rw [hname] at hdir
  have hkeeps : ∀ fd, Opened fs fd i → fs'.files fd = fs.files fd := by
    intro fd hfd
    obtain hsame | ⟨fd', hfd', hclosed⟩ := hfiles
    · rw [hsame]
    · rw [hclosed, Function.update_of_ne (hfd.ne (ht.opened fd' hfd') hne)]
  refine ⟨fs', habort, ⟨h.linked, ?_, fun fd hfd => ?_⟩, by rw [hdata], ?_, hkeeps⟩
  · rw [hdir, AList.lookup_erase_ne (filename_ne o).symm, h.name]
  · obtain ⟨off, hfile⟩ := h.opened fd hfd
    exact ⟨off, (hkeeps fd ⟨off, hfile⟩).trans hfile⟩
  · rw [hdir, AList.lookup_erase]

end Tx

/-! ### The run -/

/-- The transaction object is at an inode of its own. -/
structure Inv (s : State) (i : Nat) : Prop where
  original : At s.fs s.original i
  tx : ∀ t, s.tx_file_ = some t → t.filename_ = Tx.filename s.original ∧
    s.before = some (s.fs.data i) ∧ ∃ j, j ≠ i ∧ At s.fs t j

section Run

variable {s s' : State} {i : Nat} {op : Op}

theorem Inv.onTx (h : Inv s i) {f : FileSystem String → FileBackedObject →
      Except Fault (FileSystem String × FileBackedObject)}
    (hf : ∀ {fs o fs' o' j}, At fs o j → f fs o = .ok (fs', o') → Stays fs o fs' o' j)
    (hexec : s.onTx f = .ok s') : Inv s' i ∧ s'.fs.data i = s.fs.data i := by
  unfold State.onTx at hexec
  split at hexec
  · cases hexec
  rename_i t ht
  obtain ⟨⟨fs', t'⟩, hrun, hrest⟩ := bind_eq_ok.1 hexec
  obtain rfl := Except.ok.inj hrest
  obtain ⟨hname, hbefore, j, hne, hat⟩ := h.tx t ht
  have hstays := hf hat hrun
  -- the transaction touches its own inode only, which is not the original's
  have hdata := hstays.touches.data i hne.symm
  refine ⟨⟨h.original.touches hstays.touches hne.symm, fun t'' ht'' => ?_⟩, hdata⟩
  obtain rfl := Option.some.inj ht''
  exact ⟨hstays.name.trans hname, by rw [hdata]; exact hbefore, j, hne, hstays.stays⟩

theorem Inv.onOriginal (h : Inv s i) {f : FileSystem String → FileBackedObject →
      Except Fault (FileSystem String × FileBackedObject)}
    (hf : ∀ {fs o fs' o' j}, At fs o j → f fs o = .ok (fs', o') →
      Stays fs o fs' o' j ∧ fs'.data = fs.data)
    (hexec : s.onOriginal f = .ok s') : Inv s' i ∧ s'.fs.data i = s.fs.data i := by
  obtain ⟨⟨fs', o'⟩, hrun, hrest⟩ := bind_eq_ok.1 hexec
  obtain rfl := Except.ok.inj hrest
  -- the original has moved its descriptor, and has written nothing
  obtain ⟨hstays, hdata⟩ := hf h.original hrun
  refine ⟨⟨hstays.stays, fun t ht => ?_⟩, congrFun hdata i⟩
  obtain ⟨hname, hbefore, j, hne, hat⟩ := h.tx t ht
  refine ⟨?_, ?_, j, hne, hat.touches hstays.touches hne⟩
  · rw [hname]
    show s.original.filename_ ++ ".tx" = o'.filename_ ++ ".tx"
    rw [hstays.name]
  · show s.before = some (fs'.data i)
    rw [hdata, hbefore]

theorem Inv.commit (h : Inv s i) (hcareful : Careful s .commit) :
    ∃ s' j, s.commit = .ok s' ∧ Inv s' j ∧ s'.tx_file_ = none ∧
      some (s'.fs.data j) = s.tx_file_.elim (some (s.fs.data i)) (content s.fs) := by
  unfold State.commit
  cases htx : s.tx_file_ with
  | none =>
    exact ⟨s, i, rfl, h, htx, rfl⟩
  | some t =>
    obtain ⟨hname, -, j, hne, hat⟩ := h.tx t htx
    have hopen : s.original.fd_ = none ∨ s.original.open_count_ ≤ 0 := by
      cases hcareful with
      | inl hnone =>
        rw [htx] at hnone
        cases hnone
      | inr hopen => exact hopen
    obtain ⟨fs', o', hcommit, hat', -, hdata⟩ := commit_spec h.original hat hname hne.symm hopen
    refine ⟨{ s with fs := fs', original := o', tx_file_ := none }, j, ?_,
      ⟨hat', fun _ hnone => nomatch hnone⟩, rfl, ?_⟩
    · show (Tx.commit s.fs s.original t >>= _) = _
      rw [hcommit]
      rfl
    · show some (fs'.data j) = content s.fs t
      rw [hdata, hat.content]

/-- The members of the transaction object, and those of the original that write nothing,
    leave the original's bytes as they are. -/
theorem Inv.member (h : Inv s i) (hexec : exec s op = .ok s') (hop : op.isMember = true) :
    Inv s' i ∧ s'.fs.data i = s.fs.data i := by
  cases op with
  | txWrite offset buf => exact h.onTx writeBytes_stays hexec
  | txAppend buf => exact h.onTx appendBytes_stays hexec
  | txTruncate size => exact h.onTx truncate_stays hexec
  | txRead offset length =>
    refine h.onTx (f := fun fs o => Prod.snd <$> readBytes fs o offset length) ?_ hexec
    intro fs o fs' o' j hat hrun
    obtain ⟨⟨buf, fs₁, o₁⟩, hread, hsnd⟩ := map_eq_ok.1 hrun
    obtain ⟨rfl, rfl⟩ := Prod.mk.inj hsnd
    exact (readBytes_stays hat hread).1
  | txOpenScope => exact h.onTx (fun hat hrun => (openScope_stays hat hrun).1) hexec
  | txCloseScope =>
    refine h.onTx (f := fun fs o => pure (closeScope fs o)) ?_ hexec
    intro fs o fs' o' j hat hrun
    have hstays := (closeScope_stays hat).1
    rwa [Except.ok.inj hrun] at hstays
  | read offset length =>
    refine h.onOriginal (f := fun fs o => Prod.snd <$> readBytes fs o offset length) ?_ hexec
    intro fs o fs' o' j hat hrun
    obtain ⟨⟨buf, fs₁, o₁⟩, hread, hsnd⟩ := map_eq_ok.1 hrun
    obtain ⟨rfl, rfl⟩ := Prod.mk.inj hsnd
    exact readBytes_stays hat hread
  | openScope => exact h.onOriginal openScope_stays hexec
  | closeScope =>
    refine h.onOriginal (f := fun fs o => pure (closeScope fs o)) ?_ hexec
    intro fs o fs' o' j hat hrun
    have hstays := closeScope_stays hat
    rwa [Except.ok.inj hrun] at hstays
  | _ => cases hop

theorem Inv.step (h : Inv s i) (henabled : Enabled s op) (hcareful : Careful s op) :
    Transacts s op (exec s op) ∧ ∀ s', exec s op = .ok s' → ∃ j, Inv s' j := by
  have hcontent := h.original.content
  cases hop : op.isMember with
  | true =>
    refine ⟨?_, fun s' hexec => ⟨i, (h.member hexec hop).1⟩⟩
    -- a member of one of the objects leaves the bytes of the original alone
    have hkeeps : ∀ s', exec s op = .ok s' →
        content s'.fs s'.original = content s.fs s.original := by
      intro s' hexec
      obtain ⟨hinv, hdata⟩ := h.member hexec hop
      rw [hinv.original.content, hdata, hcontent]
    cases op <;> first | exact hkeeps | cases hop
  | false =>
    cases op with
    | startTx INIT_BLANK cur_offset =>
      obtain ⟨fs', t, j, hstart, hat, hname, hne, horig, hi, hj, -⟩ :=
        start_spec h.original hcareful INIT_BLANK cur_offset
      have hexec : exec s (.startTx INIT_BLANK cur_offset) = .ok { s with
          fs := fs', tx_file_ := some t, before := content s.fs s.original } := by
        show (Tx.start s.fs s.original INIT_BLANK cur_offset >>= _) = _
        rw [hstart]
        rfl
      refine ⟨⟨_, t, hexec, rfl, ?_, ?_⟩, fun s' hs' => ⟨i, ?_⟩⟩
      · show content fs' t = _
        rw [hat.content, hj, hcontent]
        cases INIT_BLANK <;> rfl
      · show content fs' s.original = _
        rw [horig.content, hi, hcontent]
      · rw [hexec] at hs'
        obtain rfl := Except.ok.inj hs'
        refine ⟨horig, fun t' ht' => ?_⟩
        obtain rfl := Option.some.inj ht'
        refine ⟨hname, ?_, j, hne, hat⟩
        show content s.fs s.original = some (fs'.data i)
        rw [hcontent, hi]
    | commit =>
      obtain ⟨s₁, j, hcommit, hinv, htx, hdata⟩ := h.commit hcareful
      refine ⟨⟨s₁, hcommit, htx, ?_⟩, fun s' hs' => ⟨j, ?_⟩⟩
      · rw [hinv.original.content, hdata, hcontent]
      · rw [show exec s .commit = s.commit from rfl, hcommit] at hs'
        exact Except.ok.inj hs' ▸ hinv
    | destroyTx =>
      obtain ⟨s₁, j, hcommit, hinv, htx, hdata⟩ := h.commit hcareful
      refine ⟨⟨s₁, hcommit, htx, ?_⟩, fun s' hs' => ⟨j, ?_⟩⟩
      · rw [hinv.original.content, hdata, hcontent]
      · rw [show exec s .destroyTx = s.commit from rfl, hcommit] at hs'
        exact Except.ok.inj hs' ▸ hinv
    | abort =>
      obtain ⟨t, ht⟩ := Option.ne_none_iff_exists'.1 henabled
      obtain ⟨hname, -, j, hne, hat⟩ := h.tx t ht
      obtain ⟨fs', habort, horig, hi, hgone, -⟩ := abort_spec h.original hat hname hne.symm
      have hexec : exec s .abort = .ok { s with fs := fs', tx_file_ := none } := by
        unfold exec
        rw [ht]
        show (Tx.abort s.fs t >>= _) = _
        rw [habort]
        rfl
      refine ⟨⟨_, hexec, rfl, ?_, hgone⟩, fun s' hs' => ⟨i, ?_⟩⟩
      · show content fs' s.original = _
        rw [horig.content, hi, hcontent]
      · rw [hexec] at hs'
        obtain rfl := Except.ok.inj hs'
        exact ⟨horig, fun _ hnone => nomatch hnone⟩
    | _ => cases hop

end Run

/-- In every run whose steps are careful, the original is isolated from the transaction, and
    the next careful call does what it should. -/
theorem transacts_of_careful {s : State} (hs : system.ReachableWith Careful s) :
    Isolated s ∧ ∀ op, Enabled s op → Careful s op → Transacts s op (exec s op) := by
  obtain ⟨i, hinv⟩ : ∃ i, Inv s i := by
    apply hs.invariant
    · rintro s ⟨⟨i, hat⟩, htx⟩
      exact ⟨i, hat, fun t ht => by rw [htx] at ht; cases ht⟩
    · rintro s op s' ⟨i, hinv⟩ hcareful ⟨henabled, hexec⟩
      exact (hinv.step henabled hcareful).2 s' hexec
  refine ⟨fun htx => ?_, fun op henabled hcareful => (hinv.step henabled hcareful).1⟩
  obtain ⟨t, ht⟩ := Option.ne_none_iff_exists'.1 htx
  obtain ⟨-, hbefore, -⟩ := hinv.tx t ht
  rw [hbefore, hinv.original.content]
  exact ⟨Option.some_ne_none _, rfl⟩

def directory (filename : String) (bytes : List UInt8) : FileSystem String :=
  (FileSystem.empty.create filename).setData 0 bytes

/-- An object on the file of a directory. -/
def State.new (fs : FileSystem String) (filename : String) : State where
  fs := fs
  original := .new filename 0
  tx_file_ := none
  before := none

/-- A copy that has been written to. -/
theorem transacts_of_careful_copy : ∃ s : State, content s.fs s.original = some [1, 2] ∧
    s.tx_file_.bind (content s.fs) = some [1, 9] ∧ Isolated s ∧
      Transacts s .commit (exec s .commit) := by
  have hstart : system.ReachableWith Careful _ :=
    .step (a := .startTx false 0) (.init ⟨⟨0, rfl, rfl, nofun⟩, rfl⟩ :
      system.ReachableWith Careful (.new (directory "a" [1, 2]) "a")) rfl ⟨rfl, rfl⟩
  have hwrite : system.ReachableWith Careful _ :=
    .step (a := .txWrite 1 [9]) hstart trivial ⟨trivial, rfl⟩
  obtain ⟨hisolated, hnext⟩ := transacts_of_careful hwrite
  exact ⟨_, rfl, rfl, hisolated, hnext .commit trivial (.inr (.inl rfl))⟩

/-- Without the condition they do not: a blank transaction starts with the bytes of a file
    that was left over. -/
theorem not_transacts_left_over : ¬ ∀ s : State, system.Reachable s →
    Isolated s ∧ ∀ op, Enabled s op → Transacts s op (exec s op) := by
  intro h
  let fs := ((directory "a" [1, 2]).create "a.tx").setData 1 [7]
  have hinit : system.Reachable (.new fs "a") := .init ⟨⟨0, rfl, rfl, nofun⟩, rfl⟩
  obtain ⟨s', tx_file_, hexec, htx, hblank, -⟩ := (h _ hinit).2 (.startTx true 0) rfl
  obtain rfl := Except.ok.inj hexec
  obtain rfl := Option.some.inj htx
  cases hblank

/-! ### Where the conditions do not hold -/

section Careless

variable {fs : FileSystem String} {o t : FileBackedObject} {i j k fd : Nat}

/-- Where a file has the name of the transaction already, a blank transaction starts with its
    bytes. -/
theorem start_left_over (hk : fs.dir.lookup (Tx.filename o) = some k) (cur_offset : Nat) :
    ∃ t, Tx.start fs o true cur_offset = .ok (fs, t) ∧ content fs t = some (fs.data k) := by
  have hfails : fs.openFile (Tx.filename o) { creat := true, excl := true } = none :=
    openFile_exclusive hk rfl rfl
  refine ⟨new (Tx.filename o) cur_offset, ?_, ?_⟩
  · simp only [Tx.start, if_true, hfails, pure_eq_ok]
  · show (fs.dir.lookup (Tx.filename o)).map fs.data = _
    rw [hk]
    rfl

/-- An original that is held open keeps its file across a commit, and what it held. -/
theorem commit_held_open (h : At fs o i) (ht : At fs t j) (hne : i ≠ j)
    (hfd : o.fd_ = some fd) (hopen : o.open_count_ > 0) :
    ∃ fs' o', Tx.commit fs o t = .ok (fs', o') ∧ content fs' o' = some (fs.data i) := by
  obtain ⟨fs₁, hrename, -, hdata₁, hfiles₁⟩ := rename_spec ht.name h.name hne
  have hopened : Opened fs₁ fd i := (h.opened fd hfd).congr hfiles₁
  have hreload : reload fs₁ o = .ok (fs₁, o) := by
    have hclose : close fs₁ o = (fs₁, o) := by
      unfold close
      rw [hfd]
      exact if_pos hopen
    unfold reload
    rw [hclose]
    show (openFd fs₁ o >>= _) = _
    unfold openFd
    rw [h.assert_linked, hfd]
    rfl
  refine ⟨t.destroy fs₁, o, ?_, ?_⟩
  · unfold Tx.commit
    rw [hrename]
    show (reload fs₁ o >>= _) = _
    rw [hreload]
    rfl
  · -- its descriptor is not the one that the transaction closes
    have hown : t.fd_ ≠ some fd := fun hsame =>
      (h.opened fd hfd).ne (ht.opened fd hsame) hne rfl
    obtain ⟨-, hdata, hkeeps⟩ := destroy_spec fs₁ t
    obtain ⟨off, hfile⟩ := hopened
    unfold content
    rw [hfd]
    show ((t.destroy fs₁).files fd).map _ = _
    rw [hkeeps fd hown, hfile, hdata, hdata₁]
    rfl

end Careless

end Oasys.FileBackedObject
