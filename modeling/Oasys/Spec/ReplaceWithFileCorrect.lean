import Oasys.Spec.FileBackedObjectCorrect

/-!
# replace_with_file

`replace_with_file` unlinks the file of the object before it has another one for it, and
nothing brings that back: every way out that returns false leaves the object unlinked. It
also returns true behind a copy that has stopped halfway. So it replaces the file, or leaves
everything as it was, exactly if every call that it depends on goes well.
-/

namespace Oasys.FileBackedObject

open FileSystem FileIOClient

/-! ### The copy -/

def chunk (r : Round) : Nat :=
  match r.read with
  | none => 0
  | some more => min (more + 1) bufSize

def got (rounds : Nat → Round) : Nat → Nat
  | 0 => 0
  | k + 1 => got rounds k + chunk (rounds k)

/-- A round with bytes left reads without an error, and writes what it has read. -/
def Clean (rounds : Nat → Round) (len k : Nat) : Prop :=
  got rounds k < len →
    (rounds k).read.isSome ∧ min (chunk (rounds k)) (len - got rounds k) ≤ (rounds k).write

/-- No call of the copy of a file of that length goes wrong, and the `int` that counts its bytes
    does not overflow where that is undefined. -/
def CopiesAll (B : Build) (rounds : Nat → Round) (len : Nat) : Prop :=
  (B.wrapv = true ∨ len < 2 ^ 31) ∧ ∀ k, Clean rounds len k

theorem arith_of_wrapv {B : Build} (h : B.wrapv = true) (z : Int) :
    ∃ z', IntType.int.arith B z = .ok z' :=
  ⟨_, IntType.arith_of_wraps (by decide) (fun hu => by simp [hu.2.2] at h) z⟩

theorem arith_of_nat {B : Build} (n : Nat) (hB : B.wrapv = false) :
    (n < 2 ^ 31 ∧ IntType.int.arith B (n : Int) = .ok (n : Int)) ∨
      (2 ^ 31 ≤ n ∧ IntType.int.arith B (n : Int) = .error .overflow) := by
  have hmin : IntType.int.min = -2147483648 := by decide
  have hmax : IntType.int.max = 2147483647 := by decide
  by_cases hn : n < 2 ^ 31
  · refine .inl ⟨hn, IntType.arith_of_inRange B ?_⟩
    rw [IntType.InRange, hmin, hmax]
    omega
  · refine .inr ⟨by omega, IntType.arith_of_undefined ⟨by decide, by decide, hB⟩ ?_⟩
    rw [IntType.InRange, hmin, hmax]
    omega

/-- How the copy of a file of the inode `i` to one of `j` can end: with a proper part of the
    bytes, with all of them, or with the overflow. -/
inductive Copied (B : Build) (rounds : Nat → Round) (fs : FileSystem String) (i j k : Nat) :
    Except Fault (Option Int × FileSystem String) → Prop
  | part (ret : Option Int) (fs' : FileSystem String) (m : Nat) (hm : m < (fs.data i).length)
      (hdir : fs'.dir = fs.dir) (hdata : fs'.data = Function.update fs.data j ((fs.data i).take m))
      (hunclean : ∃ k' ≥ k, ¬ Clean rounds (fs.data i).length k') :
      Copied B rounds fs i j k (.ok (ret, fs'))
  | all (ret : Option Int) (fs' : FileSystem String) (hdir : fs'.dir = fs.dir)
      (hdata : fs'.data = Function.update fs.data j (fs.data i))
      (hclean : ∀ k' ≥ k, Clean rounds (fs.data i).length k')
      (hlength : B.wrapv = true ∨ (fs.data i).length < 2 ^ 31) :
      Copied B rounds fs i j k (.ok (ret, fs'))
  | overflow (hB : B.wrapv = false) (hlength : 2 ^ 31 ≤ (fs.data i).length) :
      Copied B rounds fs i j k (.error .overflow)

theorem Copied.round {B : Build} {rounds : Nat → Round} {fs fs₂ : FileSystem String}
    {i j k : Nat} {bytes : List UInt8} {result : Except Fault (Option Int × FileSystem String)}
    (hne : i ≠ j) (hclean : Clean rounds (fs.data i).length k) (hdir : fs₂.dir = fs.dir)
    (hdata : fs₂.data = Function.update fs.data j bytes)
    (h : Copied B rounds fs₂ i j (k + 1) result) : Copied B rounds fs i j k result := by
  have hi : fs₂.data i = fs.data i := by rw [hdata, Function.update_of_ne hne]
  cases h with
  | part ret fs' m hm hdir' hdata' hunclean =>
    rw [hi] at hm hdata' hunclean
    obtain ⟨k', hk', hunclean⟩ := hunclean
    refine .part ret fs' m hm (hdir'.trans hdir) ?_ ⟨k', by omega, hunclean⟩
    rw [hdata', hdata, Function.update_idem]
  | all ret fs' hdir' hdata' hclean' hlength =>
    rw [hi] at hdata' hclean' hlength
    refine .all ret fs' (hdir'.trans hdir) ?_ (fun k' hk' => ?_) hlength
    · rw [hdata', hdata, Function.update_idem]
    · rcases Nat.eq_or_lt_of_le hk' with rfl | hlt
      · exact hclean
      · exact hclean' k' hlt
  | overflow hB hlength =>
    rw [hi] at hlength
    exact .overflow hB hlength

theorem le_got_of_le (rounds : Nat → Round) {k k' : Nat} (h : k ≤ k') :
    got rounds k ≤ got rounds k' := by
  induction k' with
  | zero => rw [Nat.le_zero.1 h]
  | succ k' ih =>
    rcases Nat.eq_or_lt_of_le h with rfl | hlt
    · exact Nat.le_refl _
    · exact Nat.le_trans (ih (by omega)) (Nat.le_add_right _ _)

/-- The loop of `copy_contents`, where the rounds before `k` have copied what they could get. -/
theorem copyContents_spec {B : Build} {rounds : Nat → Round} (fuel : Nat) {src dest i j : Nat}
    (hne : i ≠ j) (hfds : src ≠ dest) {k n : Nat} {total : Int} {fs : FileSystem String}
    (hsrc : fs.files src = some ⟨i, n⟩) (hdest : fs.files dest = some ⟨j, n⟩)
    (hn : n = min (got rounds k) (fs.data i).length) (hcopied : fs.data j = (fs.data i).take n)
    (htotal : B.wrapv = true ∨ (total = n ∧ n < 2 ^ 31))
    (hfuel : (fs.data i).length - n < fuel) :
    Copied B rounds fs i j k (copyContents B rounds src dest fuel k total fs) := by
  -- the induction is on the fuel, of which a round that reads something uses up one
  induction fuel generalizing n k total fs with
  | zero => exact absurd hfuel (Nat.not_lt_zero _)
  | succ fuel ih =>
    have hupdate : fs.data = Function.update fs.data j ((fs.data i).take n) := by
      rw [← hcopied, Function.update_eq_self]
    -- where the loop ends without another write
    have hstop : ∀ ret fs', fs'.dir = fs.dir → fs'.data = fs.data →
        (n < (fs.data i).length → ¬ Clean rounds (fs.data i).length k) →
        Copied B rounds fs i j k (.ok (ret, fs')) := by
      intro ret fs' hdir hdata hunclean
      rcases Nat.lt_or_ge n (fs.data i).length with hlt | hge
      · exact .part ret fs' n hlt hdir (hdata.trans hupdate) ⟨k, Nat.le_refl _, hunclean hlt⟩
      · rw [List.take_of_length_le hge] at hupdate
        refine .all ret fs' hdir (hdata.trans hupdate) (fun k' hk' hlt => ?_) ?_
        · have := le_got_of_le rounds hk'
          omega
        · rcases htotal with hB | ⟨-, hsmall⟩
          · exact .inl hB
          · exact .inr (by omega)
    rw [copyContents]
    cases hread : (rounds k).read with
    | none =>
      refine hstop none fs rfl rfl fun hlt hclean => ?_
      have := (hclean (by omega)).1
      simp [hread] at this
    | some more =>
      obtain ⟨buf, fs₁, fs₂, hbuf, hwrite, hlength, hdir₂, hdata₂, hfiles₂⟩ :=
        copy_round (min (more + 1) bufSize) (rounds k).write hfds hsrc hdest (by omega) hcopied
      have hchunk : chunk (rounds k) = min (more + 1) bufSize := by rw [chunk, hread]
      have hpos : 0 < bufSize := by decide
      have hopened : Opened fs src i := ⟨n, hsrc⟩
      obtain ⟨htouches₁, -, hdata₁⟩ := hopened.read hbuf
      simp only [hbuf]
      by_cases hempty : buf.length = 0
      · rw [if_pos hempty]
        exact hstop (some total) fs₁ htouches₁.dir hdata₁ fun hlt => by omega
      rw [if_neg hempty]
      simp only [hwrite]
      by_cases hshort : (rounds k).write < buf.length
      · -- the write has stopped halfway
        rw [if_pos hshort]
        rw [Nat.min_eq_left (by omega)] at hdata₂
        refine .part none fs₂ _ (by omega) hdir₂ hdata₂ ⟨k, Nat.le_refl _, fun hclean => ?_⟩
        have := (hclean (by omega)).2
        omega
      rw [if_neg hshort]
      rw [Nat.min_eq_right (by omega)] at hdata₂ hfiles₂
      have hclean : Clean rounds (fs.data i).length k := fun _ => ⟨by simp [hread], by omega⟩
      have hi : fs₂.data i = fs.data i := by rw [hdata₂, Function.update_of_ne hne]
      have hsrc₂ : fs₂.files src = some ⟨i, n + buf.length⟩ := by
        rw [hfiles₂, Function.update_of_ne hfds, Function.update_self]
      have hdest₂ : fs₂.files dest = some ⟨j, n + buf.length⟩ := by
        rw [hfiles₂, Function.update_self]
      have hgot : n + buf.length = min (got rounds (k + 1)) (fs.data i).length := by
        rw [got]
        omega
      have hrest : ∀ total' : Int, B.wrapv = true ∨ (total' = (n + buf.length : Nat) ∧
          n + buf.length < 2 ^ 31) → Copied B rounds fs i j k
            (copyContents B rounds src dest fuel (k + 1) total' fs₂) := fun total' htotal' =>
        (ih hsrc₂ hdest₂ (by rw [hi]; exact hgot) (by rw [hi, hdata₂, Function.update_self])
          htotal' (by rw [hi]; omega)).round hne hclean hdir₂ hdata₂
      rcases htotal with hB | ⟨rfl, hsmall⟩
      · obtain ⟨total', harith⟩ := arith_of_wrapv hB (total + buf.length)
        rw [harith, ok_bind]
        exact hrest total' (.inl hB)
      · cases hB : B.wrapv with
        | true =>
          obtain ⟨total', harith⟩ := arith_of_wrapv hB (n + buf.length)
          rw [harith, ok_bind]
          exact hrest total' (.inl hB)
        | false =>
          rcases arith_of_nat (n + buf.length) hB with ⟨hfits, harith⟩ | ⟨hover, harith⟩
          · rw [← Nat.cast_add, harith, ok_bind]
            exact hrest _ (.inr ⟨rfl, hfits⟩)
          · rw [← Nat.cast_add, harith]
            exact .overflow hB (by omega)

/-! ### The object -/

/-- The object can be read and written, at every offset that the kernel takes. -/
def Usable (fs : FileSystem String) (o : FileBackedObject) : Prop :=
  (∀ offset length, offset < maxOffset → ∃ r, readBytes fs o offset length = .ok r) ∧
    ∀ offset buf, offset < maxOffset → buf.length ≤ maxRwCount →
      ∃ r, writeBytes fs o offset buf = .ok r

/-- Either true is returned, and the object has its old name and the bytes of the source, or
    false, and it has its old name, flags and bytes and can be used. -/
def Atomic (fs : FileSystem String) (o : FileBackedObject) (filename : String) :
    Except Fault (Bool × FileSystem String × FileBackedObject) → Prop
  | .ok (true, fs', o') => o'.filename_ = o.filename_ ∧
      ∃ bytes, fs.content filename = some bytes ∧ content fs' o' = some bytes
  | .ok (false, fs', o') => o'.filename_ = o.filename_ ∧ o'.unlinked = o.unlinked ∧
      content fs' o' = content fs o ∧ Usable fs' o'
  | .error _ => False

/-- The file of the object can be unlinked and its descriptor closed, the source is another file
    that is there, and it can be linked, or else copied. -/
structure Replaces (B : Build) (env : Outcomes) (fs : FileSystem String) (o : FileBackedObject)
    (filename : String) : Prop where
  closes : o.fd_ ≠ some 0
  present : (fs.dir.lookup o.filename_).isSome
  other : filename ≠ o.filename_
  source : ∃ bytes, fs.content filename = some bytes ∧
    (env.link = none ∨ env.link = some .EXDEV ∧ env.openSrc = none ∧ env.openDst = none ∧
      CopiesAll B env.rounds bytes.length)

variable {B : Build} {env : Outcomes} {fs fs' : FileSystem String} {o o' : FileBackedObject}
  {filename : String}

def gone (o : FileBackedObject) : FileBackedObject :=
  { o with fd_ := none, filename_ := "/INVALID_FILE", unlinked := true }

theorem unlink_spec (hfd : o.fd_ ≠ some 0) (hname : (fs.dir.lookup o.filename_).isSome) :
    ∃ fs', unlink fs o = .ok (fs', gone o) ∧ fs'.dir = fs.dir.erase o.filename_ ∧
      fs'.data = fs.data ∧ fs'.next = fs.next := by
  obtain ⟨name, fd, unlinked, cur_offset, open_count⟩ := o
  cases fd with
  | none =>
    refine ⟨fs.dropName name, ?_, rfl, rfl, rfl⟩
    simp [unlink, FileSystem.unlink, hname, gone]
  | some fd =>
    have hne : fd ≠ 0 := fun h => hfd (congrArg some h)
    have hname' : ((fs.close fd).dir.lookup name).isSome := hname
    refine ⟨(fs.close fd).dropName name, ?_, rfl, rfl, rfl⟩
    simp only [unlink]
    rw [if_pos hne]
    simp [FileSystem.unlink, hname', gone]

theorem unlink_open (h : o.fd_ = some 0 ∨ fs.dir.lookup o.filename_ = none) :
    unlink fs o = .error .assertFailed ∨ ∃ fs' o', unlink fs o = .ok (fs', o') ∧
      o'.fd_ ≠ none := by
  obtain ⟨name, fd, unlinked, cur_offset, open_count⟩ := o
  cases fd with
  | none =>
    have hname : fs.dir.lookup name = none := h.resolve_left nofun
    exact .inl (by simp [unlink, FileSystem.unlink, hname])
  | some fd =>
    simp only [unlink]
    by_cases hzero : fd = 0
    · rw [if_neg (fun hne => hne hzero)]
      cases hname : fs.dir.lookup name with
      | none => exact .inl (by simp [FileSystem.unlink, hname])
      | some i =>
        refine .inr ⟨fs.dropName name, ⟨"/INVALID_FILE", some fd, true, cur_offset, open_count⟩, ?_,
          by simp⟩
        simp [FileSystem.unlink, hname]
    · have hname : (fs.close fd).dir.lookup name = none :=
        h.resolve_left fun hfd => hzero (Option.some.inj hfd)
      rw [if_pos hzero]
      exact .inl (by simp [FileSystem.unlink, hname])

theorem not_usable (h : o.unlinked = true) : ¬ Usable fs o := by
  rintro ⟨hread, -⟩
  obtain ⟨r, hr⟩ := hread 0 0 (by decide)
  simp [readBytes, openFd, h, assert] at hr

theorem not_atomic_of_unlinked (h : o'.unlinked = true) :
    ¬ Atomic fs o filename (.ok (false, fs', o')) :=
  fun ⟨_, _, _, husable⟩ => not_usable h husable

theorem content_of_closed (h : o.fd_ = none) : content fs o = fs.content o.filename_ := by
  rw [content, h]
  rfl

theorem replaceWithFile_fault (h : o.fd_ = some 0 ∨ fs.dir.lookup o.filename_ = none) :
    replaceWithFile B env fs o filename = .error .assertFailed := by
  rcases unlink_open h with hunlink | ⟨fs', o', hunlink, hopen⟩
  · simp [replaceWithFile, hunlink]
  · simp [replaceWithFile, hunlink, assert, hopen]

theorem replaceWithFile_link (hfd : o.fd_ ≠ some 0)
    (hname : (fs.dir.lookup o.filename_).isSome) (hother : filename ≠ o.filename_) {i : Nat}
    (hsource : fs.dir.lookup filename = some i) (hlink : env.link = none) :
    ∃ fs', replaceWithFile B env fs o filename = .ok (true, fs', { o with
        fd_ := none, unlinked := false }) ∧ fs'.content o.filename_ = some (fs.data i) := by
  obtain ⟨fs₁, hunlink, hdir₁, hdata₁, -⟩ := unlink_spec hfd hname
  have hsource₁ : fs₁.dir.lookup filename = some i := by
    rw [hdir₁, AList.lookup_erase_ne hother, hsource]
  have hgone₁ : fs₁.dir.lookup o.filename_ = none := by rw [hdir₁, AList.lookup_erase]
  obtain ⟨fs₂, hlinked, hdir₂, hdata₂⟩ := link_spec hsource₁ hgone₁
  refine ⟨fs₂, ?_, ?_⟩
  · simp [replaceWithFile, hunlink, gone, assert, linkCall, hlink, hlinked]
  · rw [FileSystem.content, hdir₂, AList.lookup_insert, Option.map_some, hdata₂, hdata₁]

theorem replaceWithFile_false (hfd : o.fd_ ≠ some 0)
    (hname : (fs.dir.lookup o.filename_).isSome)
    (h : filename = o.filename_ ∨ fs.dir.lookup filename = none ∨ env.link = some .other ∨
      env.link = some .EXDEV ∧ (env.openSrc ≠ none ∨ env.openDst ≠ none)) :
    ∃ fs' o', replaceWithFile B env fs o filename = .ok (false, fs', o') ∧ o'.unlinked = true := by
  obtain ⟨fs₁, hunlink, hdir₁, hdata₁, -⟩ := unlink_spec hfd hname
  have hsource : (filename = o.filename_ ∨ fs.dir.lookup filename = none) →
      fs₁.dir.lookup filename = none := by
    rintro (rfl | habsent)
    · rw [hdir₁, AList.lookup_erase]
    · by_cases hsame : filename = o.filename_
      · rw [hdir₁, hsame, AList.lookup_erase]
      · rw [hdir₁, AList.lookup_erase_ne hsame, habsent]
  cases hlink : env.link with
  | none =>
    have hgone := hsource (by simpa [hlink, or_assoc] using h)
    refine ⟨fs₁, gone o, ?_, rfl⟩
    simp [replaceWithFile, hunlink, gone, linkCall, hlink, link_absent hgone]
  | some err =>
    cases err with
    | other =>
      refine ⟨fs₁, gone o, ?_, rfl⟩
      simp [replaceWithFile, hunlink, gone, linkCall, hlink]
    | EXDEV =>
      cases hopen : openCall env.openSrc fs₁ filename {} with
      | none =>
        refine ⟨fs₁, gone o, ?_, rfl⟩
        simp [replaceWithFile, hunlink, gone, linkCall, hlink, hopen]
      | some r =>
        obtain ⟨src, fs₂⟩ := r
        have hdst : openCall env.openDst fs₂ o.filename_ { creat := true, excl := true } =
            none := by
          rcases h with hsame | habsent | hother | ⟨-, hsrc | hdst⟩
          · simp [openCall, openFile_absent (hsource (.inl hsame))] at hopen
            split at hopen <;> simp at hopen
          · simp [openCall, openFile_absent (hsource (.inr habsent))] at hopen
            split at hopen <;> simp at hopen
          · simp [hlink] at hother
          · simp [openCall] at hopen
            split at hopen <;> simp_all
          · simp [openCall]
            split <;> simp_all
        refine ⟨fs₂.close src, gone o, ?_, rfl⟩
        simp [replaceWithFile, hunlink, gone, linkCall, hlink, hopen, hdst]

/-- Through the copy: the object comes to hold all of the source only if the copy does. -/
theorem replaceWithFile_copy (hfd : o.fd_ ≠ some 0)
    (hname : (fs.dir.lookup o.filename_).isSome) (hother : filename ≠ o.filename_) {i : Nat}
    (hsource : fs.dir.lookup filename = some i) (hlink : env.link = some .EXDEV)
    (hsrc : env.openSrc = none) (hdst : env.openDst = none) :
    (∃ fs' bytes, replaceWithFile B env fs o filename = .ok (true, fs', { o with
        fd_ := none, unlinked := false }) ∧ fs'.content o.filename_ = some bytes ∧
        (bytes = fs.data i ↔ CopiesAll B env.rounds (fs.data i).length)) ∨
      ∃ fault, replaceWithFile B env fs o filename = .error fault ∧
        ¬ CopiesAll B env.rounds (fs.data i).length := by
  obtain ⟨fs₁, hunlink, hdir₁, hdata₁, hnext₁⟩ := unlink_spec hfd hname
  have hsource₁ : fs₁.dir.lookup filename = some i := by
    rw [hdir₁, AList.lookup_erase_ne hother, hsource]
  -- the source is opened first, so the new file gets another descriptor
  obtain ⟨src, fs₂, hopen₂, hfree₂, hdir₂, hdata₂, hfiles₂, hnext₂⟩ := openFile_spec hsource₁
  have hgone₂ : fs₂.dir.lookup o.filename_ = none := by rw [hdir₂, hdir₁, AList.lookup_erase]
  obtain ⟨dst, fs₃, hopen₃, hfree₃, hdir₃, hdata₃, hfiles₃⟩ :=
    openFile_new_spec hgone₂ { creat := true, excl := true } rfl
  have hne : i ≠ fs₂.next := by
    rw [hnext₂, hnext₁]
    exact Nat.ne_of_lt (fs.dir_lt _ i hsource)
  have hfds : src ≠ dst := by
    rintro rfl
    rw [hfiles₂, Function.update_self] at hfree₃
    cases hfree₃
  have hsrc₃ : fs₃.files src = some ⟨i, 0⟩ := by
    rw [hfiles₃, Function.update_of_ne hfds, hfiles₂, Function.update_self]
  have hdst₃ : fs₃.files dst = some ⟨fs₂.next, 0⟩ := by rw [hfiles₃, Function.update_self]
  have hi : fs₃.data i = fs.data i := by
    rw [hdata₃, Function.update_of_ne hne, hdata₂, hdata₁]
  have hsize : fs₃.size filename = some (fs.data i).length := by
    rw [FileSystem.size, hdir₃, AList.lookup_insert_ne hother, hdir₂, hsource₁, Option.map_some, hi]
  have hcopy : Copied B env.rounds fs₃ i fs₂.next 0
      (copyContents B env.rounds src dst ((fs.data i).length + 1) 0 0 fs₃) :=
    copyContents_spec (n := 0) _ hne hfds hsrc₃ hdst₃ (by simp [got])
      (by rw [hdata₃, Function.update_self, List.take_zero]) (.inr ⟨rfl, by decide⟩)
      (by rw [hi]; omega)
  have hrun : replaceWithFile B env fs o filename =
      (copyContents B env.rounds src dst ((fs.data i).length + 1) 0 0 fs₃).map fun r =>
        (true, (r.2.close src).close dst, { o with fd_ := none, unlinked := false }) := by
    simp only [replaceWithFile, hunlink, gone, ok_bind, linkCall, hlink, openCall, hsrc, hopen₂,
      hdst, hopen₃, hsize, Option.getD_some, decide_true, assert_true]
    cases copyContents B env.rounds src dst ((fs.data i).length + 1) 0 0 fs₃ <;> rfl
  -- what the new file holds is what the object holds
  have hcontent : ∀ (fs' : FileSystem String) bytes, fs'.dir = fs₃.dir →
      fs'.data = Function.update fs₃.data fs₂.next bytes →
      ((fs'.close src).close dst).content o.filename_ = some bytes := by
    intro fs' bytes hdir hdata
    show (fs'.dir.lookup o.filename_).map fs'.data = some bytes
    rw [hdir, hdir₃, AList.lookup_insert, Option.map_some, hdata, Function.update_self]
  rw [hrun]
  generalize copyContents B env.rounds src dst ((fs.data i).length + 1) 0 0 fs₃ = result at hcopy
  cases hcopy with
  | part ret fs' m hm hdir hdata hunclean =>
    rw [hi] at hm hdata hunclean
    obtain ⟨k, -, hunclean⟩ := hunclean
    refine .inl ⟨_, _, rfl, hcontent fs' _ hdir hdata, iff_of_false (fun htake => ?_) fun hall =>
      hunclean (hall.2 k)⟩
    have hlength := congrArg List.length htake
    rw [List.length_take] at hlength
    omega
  | all ret fs' hdir hdata hclean hlength =>
    rw [hi] at hdata hclean hlength
    exact .inl ⟨_, _, rfl, hcontent fs' _ hdir hdata, iff_of_true rfl
      ⟨hlength, fun k => hclean k (Nat.zero_le k)⟩⟩
  | overflow hB hlength =>
    rw [hi] at hlength
    refine .inr ⟨_, rfl, fun hall => ?_⟩
    rcases hall.1 with hwrap | hshort
    · simp [hB] at hwrap
    · omega

/-- It is atomic if and only if every call that it depends on goes well. -/
theorem replaceWithFile_atomic_iff (B : Build) (env : Outcomes) (fs : FileSystem String)
    (o : FileBackedObject) (filename : String) :
    Atomic fs o filename (replaceWithFile B env fs o filename) ↔
      Replaces B env fs o filename := by
  by_cases hfault : o.fd_ = some 0 ∨ fs.dir.lookup o.filename_ = none
  · rw [replaceWithFile_fault hfault]
    refine iff_of_false (fun h => h) fun h => ?_
    rcases hfault with hfd | habsent
    · exact h.closes hfd
    · simpa [habsent] using h.present
  obtain ⟨hfd, habsent⟩ := not_or.1 hfault
  have hname := Option.isSome_iff_ne_none.2 habsent
  by_cases hfalse : filename = o.filename_ ∨ fs.dir.lookup filename = none ∨
      env.link = some .other ∨ env.link = some .EXDEV ∧ (env.openSrc ≠ none ∨ env.openDst ≠ none)
  · obtain ⟨fs', o', hrun, hunlinked⟩ := replaceWithFile_false (B := B) hfd hname hfalse
    rw [hrun]
    refine iff_of_false (not_atomic_of_unlinked hunlinked) fun h => ?_
    obtain ⟨bytes, hbytes, hcalls⟩ := h.source
    rcases hfalse with hsame | hmissing | hother | ⟨hlink, hopens⟩
    · exact h.other hsame
    · simp [FileSystem.content, hmissing] at hbytes
    · simp [hother] at hcalls
    · simp only [hlink, reduceCtorEq, false_or, true_and] at hcalls
      exact hopens.elim (fun hne => hne hcalls.1) fun hne => hne hcalls.2.1
  simp only [not_or, not_and, not_not] at hfalse
  obtain ⟨hother, hmissing, hlinkOther, hopens⟩ := hfalse
  obtain ⟨i, hsource⟩ := Option.ne_none_iff_exists'.1 hmissing
  have hbytes : fs.content filename = some (fs.data i) := content_eq hsource
  cases hlink : env.link with
  | none =>
    obtain ⟨fs', hrun, hcontent⟩ := replaceWithFile_link (B := B) hfd hname hother hsource hlink
    rw [hrun]
    refine iff_of_true ⟨rfl, fs.data i, hbytes, ?_⟩
      ⟨hfd, hname, hother, fs.data i, hbytes, .inl hlink⟩
    rw [content_of_closed rfl, hcontent]
  | some err =>
    obtain rfl : err = .EXDEV := by
      cases err with
      | EXDEV => rfl
      | other => exact absurd hlink hlinkOther
    obtain ⟨hsrc, hdst⟩ := hopens hlink
    rcases replaceWithFile_copy (B := B) hfd hname hother hsource hlink hsrc hdst with
      ⟨fs', bytes, hrun, hcontent, hiff⟩ | ⟨fault, hrun, hnot⟩
    · rw [hrun]
      refine ⟨fun h => ?_, fun h => ?_⟩
      · obtain ⟨-, bytes', hbytes', hcontent'⟩ := h
        rw [content_of_closed rfl, hcontent] at hcontent'
        have hsame : bytes = fs.data i := by
          rw [hbytes] at hbytes'
          rw [Option.some.inj hcontent', Option.some.inj hbytes']
        exact ⟨hfd, hname, hother, fs.data i, hbytes,
          .inr ⟨hlink, hsrc, hdst, hiff.1 hsame⟩⟩
      · obtain ⟨bytes', hbytes', hcalls⟩ := h.source
        rw [hbytes] at hbytes'
        obtain rfl := Option.some.inj hbytes'
        simp only [hlink, reduceCtorEq, false_or, true_and] at hcalls
        refine ⟨rfl, fs.data i, hbytes, ?_⟩
        rw [content_of_closed rfl, hcontent, hiff.2 hcalls.2.2]
    · rw [hrun]
      refine iff_of_false (fun h => h) fun h => ?_
      obtain ⟨bytes', hbytes', hcalls⟩ := h.source
      rw [hbytes] at hbytes'
      obtain rfl := Option.some.inj hbytes'
      simp only [hlink, reduceCtorEq, false_or, true_and] at hcalls
      exact hnot hcalls.2.2

/-- A file system with the files `a`, of two bytes, and `b`, of one. -/
private def twoFiles : FileSystem String :=
  (((FileSystem.empty.create "a").setData 0 [1, 2]).create "b").setData 1 [3]

/-- No round reads or writes less than it could. -/
private def whole : Outcomes := ⟨some .EXDEV, none, none, fun _ => ⟨some 4095, 4096⟩⟩

/-- A source on another file system that can be copied. -/
theorem replaceWithFile_atomic_iff_copy : Atomic twoFiles (new "b" 0) "a"
    (replaceWithFile ⟨false, false⟩ whole twoFiles (new "b" 0) "a") :=
  (replaceWithFile_atomic_iff _ whole twoFiles (new "b" 0) "a").2
    ⟨by decide, by decide, by decide, [1, 2], by decide,
      .inr ⟨rfl, rfl, rfl, .inr (by decide), fun k _ => ⟨rfl, Nat.le_trans (Nat.min_le_left _ _)
        (Nat.min_le_right _ _)⟩⟩⟩

/-- Where the source cannot be linked, for any reason but the other file system, the object is
    left without its file. -/
theorem not_replaceWithFile_atomic : ¬ ∀ (B : Build) (env : Outcomes) (fs : FileSystem String)
    (o : FileBackedObject) (filename : String), o.unlinked = false → o.fd_ = none →
      (fs.content o.filename_).isSome → (fs.content filename).isSome → filename ≠ o.filename_ →
      Atomic fs o filename (replaceWithFile B env fs o filename) := by
  intro h
  let env : Outcomes := ⟨some .other, none, none, fun _ => ⟨some 4095, 4096⟩⟩
  obtain ⟨fs', o', hrun, hunlinked⟩ : ∃ fs' o',
      replaceWithFile ⟨false, false⟩ env twoFiles (new "b" 0) "a" = .ok (false, fs', o') ∧
        o'.unlinked = true :=
    replaceWithFile_false (by decide) (by decide) (.inr (.inr (.inl rfl)))
  have hatomic := h ⟨false, false⟩ env twoFiles (new "b" 0) "a" rfl rfl (by decide) (by decide)
    (by decide)
  rw [hrun] at hatomic
  exact not_atomic_of_unlinked hunlinked hatomic

end Oasys.FileBackedObject
