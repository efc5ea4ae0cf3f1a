import Oasys.Spec.FileSystemTableFiles
import Oasys.ForStd.Transition

/-!
# FileSystemTable: errors

What a `put` leaves whose `open` or whose write fails, and that the cache is at rest between
the calls of any run, whatever fails in it and whatever else writes to the files.
-/

namespace Oasys.FileSystemTable

open FileSystem (Opened Touches Linkless)

variable {T : FileSystemTable} {s s' : State} {name : Path} {fd i : Nat}
  {flags : DurableStoreFlags} {key data : SerializableObject} {typecode : UInt32}
  {image : List UInt8} {out : PutOutcome}

/-! ### The calls that get no error -/

theorem openForPutWith_false (s : State) (name : Path) (flags : DurableStoreFlags) :
    openForPutWith false s name flags = openForPut s name flags := rfl

theorem putWith_eq_put (hfails : out.openFails = false)
    (hwritten : ∀ image, T.marshal typecode data = .ok (some image) → image.length ≤ out.written) :
    T.putWith out s key typecode data flags = T.put s key typecode data flags := by
  unfold putWith put
  cases hkey : T.filename key with
  | error fault => simp only [bind, Except.bind]
  | ok file =>
    cases file with
    | none => simp only [bind, Except.bind]
    | some name =>
      cases hdata : T.marshal typecode data with
      | error fault => simp only [bind, Except.bind]
      | ok scratch =>
        cases scratch with
        | none => simp only [bind, Except.bind]
        | some image =>
          have hle := hwritten image hdata
          simp only [ok_bind, hfails, openForPutWith_false, List.take_of_length_le hle,
            if_neg (Nat.not_lt.2 hle)]

/-! ### open -/

/-- `put` gets to write to the file. -/
structure Opens (openFails : Bool) (s : State) (name : Path) (flags : DurableStoreFlags) :
    Prop where
  evictable : Evictable s name
  opens : Uncached s name → openFails = false
  flags : match s.fs.dir.lookup name with
    | some _ => flags.DS_EXCL = false ∨ flags.DS_CREATE = false ∧ Uncached s name
    | none => flags.DS_CREATE = true

theorem openForPutWith_eq {openFails : Bool} (h : Idle s)
    (hopens : Uncached s name → openFails = false) :
    openForPutWith openFails s name flags = openForPut s name flags := by
  by_cases hcached : Uncached s name
  · rw [hopens hcached, openForPutWith_false]
  · cases hname : s.fs.dir.lookup name with
    | none => exact absurd (h.uncached hname) hcached
    | some i =>
      obtain ⟨fd, s', hget, -⟩ := h.getAndPin hname hcached
      unfold openForPutWith openForPut
      simp only [hget, ok_bind]

theorem Opens.openForPutWith {openFails : Bool} (ho : Opens openFails s name flags) (h : Idle s) :
    ∃ fd i s', openForPutWith openFails s name flags = .ok (.ok fd, s') ∧ Ready s' name fd i ∧
      s'.fs.content name = some (atStart s name) := by
  rw [openForPutWith_eq h ho.opens]
  have hflags := ho.flags
  cases hname : s.fs.dir.lookup name with
  | some i =>
    rw [hname] at hflags
    obtain ⟨fd, s', hopen, hready, hcontent, -⟩ := openForPut_present h hname hflags ho.evictable
    exact ⟨fd, i, s', hopen, hready, hcontent⟩
  | none =>
    rw [hname] at hflags
    obtain ⟨fd, s', hopen, hready, hcontent, -⟩ := openForPut_new h hname hflags ho.evictable
    exact ⟨fd, _, s', hopen, hready, hcontent⟩

theorem evictable_of_not_uncached (h : ¬ Uncached s name) : Evictable s name := by
  intro c hc hnone
  refine absurd (fun c' hc' => ?_) h
  rw [hc] at hc'
  exact Option.some.inj hc' ▸ hnone

theorem Held.unpin_evictable (h : Held s name fd i) (hunpin : s.unpin name = .ok s') :
    Evictable s' name := by
  obtain ⟨fs, cache⟩ := s
  cases cache with
  | none =>
    obtain rfl := Except.ok.inj hunpin
    exact fun _ hc => nomatch hc
  | some c =>
    obtain ⟨hcached, it, hnode⟩ := h.cached c rfl
    have hit : c.open_fds_map_.lookup name = some it := hcached.indexed.lookup hnode
    obtain ⟨c', hc', hs'⟩ := bind_eq_ok.1 hunpin
    obtain rfl := Except.ok.inj hs'
    have hmap : c'.open_fds_map_ = c.open_fds_map_ := by
      rw [OpenFdCache.unpin, hit] at hc'
      obtain ⟨⟨fd', c₂⟩, hpins, rfl⟩ := map_eq_ok.1 hc'
      unfold OpenFdCache.addPins at hpins
      rw [LRUList.deref_eq_some.2 hnode] at hpins
      simp only at hpins
      split at hpins
      · obtain ⟨-, rfl⟩ := Prod.mk.inj (Except.ok.inj hpins)
        rfl
      · cases hpins
    intro c₁ hc₁ hnone
    obtain rfl := Option.some.inj hc₁
    rw [hmap, hit] at hnone
    cases hnone

/-- Where `put` does not get to write, it leaves the files, or does not return. -/
theorem openForPutWith_not_opens {openFails : Bool} (hno : ¬ Opens openFails s name flags)
    (h : Idle s) :
    (∃ fault, openForPutWith openFails s name flags = .error fault) ∨
      ∃ code s', openForPutWith openFails s name flags = .ok (.error code, s') ∧ code ≠ .DS_OK ∧
        Idle s' ∧ s'.fs.content = s.fs.content ∧
        (s' = s ∨ Evictable s name ∧ Evictable s' name) := by
  by_cases hcached : Uncached s name
  · cases hfails : openFails with
    | true =>
      refine .inr ⟨.DS_ERR, s, ?_, by decide, h, rfl, .inl rfl⟩
      unfold openForPutWith
      simp only [getAndPin_uncached hcached, ok_bind]
      rfl
    | false =>
      rw [openForPutWith_false]
      cases hname : s.fs.dir.lookup name with
      | none =>
        cases hcreate : flags.DS_CREATE with
        | false =>
          exact .inr ⟨.DS_NOTFOUND, s, openForPut_missing h hname hcreate, by decide, h, rfl,
            .inl rfl⟩
        | true =>
          refine .inl ⟨_, openForPut_high h ?_ fun hlow => hno ⟨hlow, fun _ => hfails, ?_⟩⟩
          · obtain ⟨fd, fs', hopen, -⟩ :=
              FileSystem.openFile_new_spec hname (openFlags flags) hcreate
            rw [hopen]
            rfl
          · rw [hname]
            exact hcreate
      | some i =>
        by_cases hexists : flags.DS_CREATE = true ∧ flags.DS_EXCL = true
        · have hopen : s.fs.openFile name (openFlags flags) = none :=
            FileSystem.openFile_exclusive hname hexists.1 hexists.2
          refine .inr ⟨.DS_EXISTS, s, ?_, by decide, h, rfl, .inl rfl⟩
          unfold openForPut
          simp only [getAndPin_uncached hcached, bind, Except.bind, hopen, hname, hexists.2]
          rfl
        · have hflags : flags.DS_EXCL = false ∨ flags.DS_CREATE = false ∧ Uncached s name := by
            cases hexcl : flags.DS_EXCL with
            | false => exact .inl rfl
            | true => exact .inr ⟨by simpa [hexcl] using hexists, hcached⟩
          refine .inl ⟨_, openForPut_high h ?_ fun hlow => hno ⟨hlow, fun _ => hfails, ?_⟩⟩
          · obtain ⟨fd, fs', hopen, -⟩ :=
              FileSystem.openFile_present_spec hname (openFlags flags) (by
                rcases hflags with hexcl | ⟨hcreate, -⟩
                · simp [openFlags, hexcl]
                · simp [openFlags, hcreate])
            rw [hopen]
            rfl
          · rw [hname]
            exact hflags
  · -- the descriptor of the cache is taken, unless the file is to be new
    rw [openForPutWith_eq h fun hun => absurd hun hcached]
    cases hname : s.fs.dir.lookup name with
    | none => exact absurd (h.uncached hname) hcached
    | some i =>
      have hlow := evictable_of_not_uncached hcached
      have hexcl : flags.DS_EXCL = true := by
        cases hexcl : flags.DS_EXCL with
        | true => rfl
        | false =>
          refine absurd ⟨hlow, fun hun => absurd hun hcached, ?_⟩ hno
          rw [hname]
          exact .inl hexcl
      obtain ⟨fd, s₁, hget, hheld, hfs, -⟩ := h.getAndPin hname hcached
      obtain ⟨s', hunpin, hidle, hfs'⟩ := hheld.unpin
      refine .inr ⟨.DS_EXISTS, s', ?_, by decide, hidle, by rw [hfs', hfs],
        .inr ⟨hlow, hheld.unpin_evictable hunpin⟩⟩
      unfold openForPut
      simp only [hget, bind, Except.bind, hexcl, if_true, hunpin]
      rfl

/-! ### put -/

/-- `put` that gets to write: it returns an error exactly if it does not write everything, and
    what it has written is in front of what was there. -/
theorem putWith_opens (hkey : T.filename key = .ok (some name))
    (hdata : T.marshal typecode data = .ok (some image)) (h : Idle s)
    (ho : Opens out.openFails s name flags) :
    ∃ s', T.putWith out s key typecode data flags =
        .ok (if out.written < image.length then .DS_ERR else .DS_OK, s') ∧ Idle s' ∧
      s'.fs.content name = some (image.take out.written ++
        (atStart s name).drop (image.take out.written).length) ∧
      (out.written < image.length → Evictable s' name) := by
  obtain ⟨fd, i, s₁, hopen, hready, hcontent₁⟩ := ho.openForPutWith h
  obtain ⟨s₂, hrewind, hheld, hfile, hcontent₂⟩ := hready.rewind hready.start
  obtain ⟨fs', hwrite, hheld', hwritten, -⟩ := hheld.write hfile (image.take out.written)
  rw [hcontent₂, hcontent₁, Option.getD_some] at hwritten
  by_cases hshort : out.written < image.length
  · obtain ⟨s', hunpin, hidle, hfs'⟩ := hheld'.unpin
    refine ⟨s', ?_, hidle, by rw [hfs']; exact hwritten, fun _ => hheld'.unpin_evictable hunpin⟩
    unfold putWith
    simp only [hkey, hdata, bind, Except.bind, hopen, hrewind, hwrite, if_pos hshort, hunpin]
    rfl
  · obtain ⟨s', hrelease, hidle, hcontent'⟩ := hheld'.release
    refine ⟨s', ?_, hidle, by rw [hcontent']; exact hwritten, fun hlt => absurd hlt hshort⟩
    unfold putWith
    simp only [hkey, hdata, bind, Except.bind, hopen, hrewind, hwrite, if_neg hshort, hrelease]
    rfl

theorem putWith_not_opens (hkey : T.filename key = .ok (some name))
    (hdata : T.marshal typecode data = .ok (some image)) (h : Idle s)
    (hno : ¬ Opens out.openFails s name flags) :
    (∃ fault, T.putWith out s key typecode data flags = .error fault) ∨
      ∃ code s', T.putWith out s key typecode data flags = .ok (code, s') ∧ code ≠ .DS_OK ∧
        Idle s' ∧ s'.fs.content = s.fs.content ∧
        (s' = s ∨ Evictable s name ∧ Evictable s' name) := by
  rcases openForPutWith_not_opens hno h with ⟨fault, hopen⟩ | ⟨code, s', hopen, hcode⟩
  · refine .inl ⟨fault, ?_⟩
    unfold putWith
    simp only [hkey, hdata, bind, Except.bind, hopen]
  · refine .inr ⟨code, s', ?_, hcode⟩
    unfold putWith
    simp only [hkey, hdata, bind, Except.bind, hopen]
    rfl

/-! ### Runs -/

/-- What can happen to a table. The last is a program other than this one, which writes the
    file of a name over. -/
inductive Call where
  | put (out : PutOutcome) (key : SerializableObject) (typecode : UInt32)
      (data : SerializableObject) (flags : DurableStoreFlags)
  | get (key data : SerializableObject) (uninitialised : Nat → UInt32)
  | getWith (key : SerializableObject)
      (allocator : UInt32 → Except Fault (Int × Option SerializableObject))
      (uninitialised : Nat → UInt32)
  | del (key : SerializableObject)
  | foreign (name : Path) (bytes : List UInt8)

/-- The calls that return. -/
def Step (T : FileSystemTable) (s : State) : Call → State → Prop
  | .put out key typecode data flags, s' =>
    ∃ code, T.putWith out s key typecode data flags = .ok (code, s')
  | .get key data uninitialised, s' =>
    ∃ code data', T.get s key data uninitialised = .ok (code, data', s')
  | .getWith key allocator uninitialised, s' =>
    ∃ code data', T.getWith s key allocator uninitialised = .ok (code, data', s')
  | .del key, s' => ∃ code, T.del s key = .ok (code, s')
  | .foreign name bytes, s' =>
    ∃ i, s.fs.dir.lookup name = some i ∧ s' = { s with fs := s.fs.setData i bytes }

/-- A table whose store has just been opened, over files that are there already, each under
    one name. -/
def system (T : FileSystemTable) : TransitionSystem State Call where
  init s := ∃ fs fs_fd_cache_size, Linkless fs ∧ s = .new fs fs_fd_cache_size
  step s call s' := T.Step s call s'

theorem Idle.setData (h : Idle s) (i : Nat) (bytes : List UInt8) :
    Idle { s with fs := s.fs.setData i bytes } where
  links := h.links.congr rfl
  cached c hc := (h.cached c hc).mono (fun _ _ => rfl) fun _ _ _ _ _ _ ho => ho.congr rfl

theorem Idle.getCommon (h : Idle s) {buf : ExpandableBuffer} {code : DurableStoreResult}
    (hget : T.getCommon s key scratch = .ok (code, buf, s')) : Idle s' := by
  cases hkey : T.filename key with
  | error fault =>
    unfold FileSystemTable.getCommon at hget
    simp only [hkey, bind, Except.bind] at hget
    cases hget
  | ok file =>
    cases file with
    | none =>
      unfold FileSystemTable.getCommon at hget
      simp only [hkey, bind, Except.bind] at hget
      cases hget
      exact h
    | some name =>
      cases hname : s.fs.dir.lookup name with
      | none =>
        rw [getCommon_absent hkey h hname] at hget
        cases hget
        exact h
      | some i =>
        by_cases hlow : Evictable s name
        · obtain ⟨buf', s₁, hget', hidle, -⟩ :=
            getCommon_present hkey h (FileSystem.content_eq hname) hlow
          rw [hget'] at hget
          cases hget
          exact hidle
        · unfold FileSystemTable.getCommon at hget
          simp only [hkey, bind, Except.bind, openForGet_high h hname hlow] at hget
          cases hget

theorem get_eq (T : FileSystemTable) (s : State) (key data : SerializableObject)
    (uninitialised : Nat → UInt32) : T.get s key data uninitialised = (do
      assert (!T.multitype_)
      let (err, buf, s) ← T.getCommon s key scratch
      if err ≠ .DS_OK then pure (err, data, s)
      else do
        let (err, data) ← unmarshal data uninitialised (buf.bytes.take buf.len_)
        pure (err, data, s)) := by
  unfold FileSystemTable.get unmarshal
  simp only [bind_assoc, pure_bind]

theorem getCommon_of_get {uninitialised : Nat → UInt32} {code : DurableStoreResult}
    {data' : SerializableObject} (hget : T.get s key data uninitialised = .ok (code, data', s')) :
    ∃ err buf, T.getCommon s key scratch = .ok (err, buf, s') := by
  rw [get_eq] at hget
  obtain ⟨-, -, hget⟩ := bind_eq_ok.1 hget
  obtain ⟨⟨err, buf, s₁⟩, hcommon, hrest⟩ := bind_eq_ok.1 hget
  dsimp only at hrest
  split at hrest
  · cases hrest
    exact ⟨_, _, hcommon⟩
  · obtain ⟨r, -, hdone⟩ := bind_eq_ok.1 hrest
    cases hdone
    exact ⟨_, _, hcommon⟩

theorem getCommon_of_getWith
    {allocator : UInt32 → Except Fault (Int × Option SerializableObject)}
    {uninitialised : Nat → UInt32} {code : DurableStoreResult} {data' : Option SerializableObject}
    (hget : T.getWith s key allocator uninitialised = .ok (code, data', s')) :
    ∃ err buf, T.getCommon s key scratch = .ok (err, buf, s') := by
  obtain ⟨-, -, hget⟩ := bind_eq_ok.1 hget
  obtain ⟨⟨err, buf, s₁⟩, hcommon, hrest⟩ := bind_eq_ok.1 hget
  dsimp only at hrest
  split at hrest
  · cases hrest
    exact ⟨_, _, hcommon⟩
  · obtain ⟨r, -, hdone⟩ := bind_eq_ok.1 hrest
    cases hdone
    exact ⟨_, _, hcommon⟩

theorem Idle.get (h : Idle s) {uninitialised : Nat → UInt32} {code : DurableStoreResult}
    {data' : SerializableObject} (hget : T.get s key data uninitialised = .ok (code, data', s')) :
    Idle s' := by
  obtain ⟨err, buf, hcommon⟩ := getCommon_of_get hget
  exact h.getCommon hcommon

theorem Idle.getWith (h : Idle s)
    {allocator : UInt32 → Except Fault (Int × Option SerializableObject)}
    {uninitialised : Nat → UInt32} {code : DurableStoreResult} {data' : Option SerializableObject}
    (hget : T.getWith s key allocator uninitialised = .ok (code, data', s')) : Idle s' := by
  obtain ⟨err, buf, hcommon⟩ := getCommon_of_getWith hget
  exact h.getCommon hcommon

theorem Idle.putWith (h : Idle s) {code : DurableStoreResult}
    (hput : T.putWith out s key typecode data flags = .ok (code, s')) : Idle s' := by
  obtain ⟨file, hkey, hput'⟩ := bind_eq_ok.1 hput
  cases file with
  | none =>
    cases hput'
    exact h
  | some name =>
    obtain ⟨scratch, hdata, hput'⟩ := bind_eq_ok.1 hput'
    cases scratch with
    | none =>
      cases hput'
      exact h
    | some image =>
      by_cases ho : Opens out.openFails s name flags
      · obtain ⟨s₁, hput₁, hidle, -⟩ := putWith_opens hkey hdata h ho
        rw [hput₁] at hput
        cases hput
        exact hidle
      · rcases putWith_not_opens hkey hdata h ho with ⟨fault, hput₁⟩ | ⟨_, s₁, hput₁, -, hidle, -⟩
        · rw [hput₁] at hput
          cases hput
        · rw [hput₁] at hput
          cases hput
          exact hidle

theorem Idle.put (h : Idle s) {code : DurableStoreResult}
    (hput : T.put s key typecode data flags = .ok (code, s')) : Idle s' := by
  obtain ⟨length, hlength⟩ : ∃ length, ∀ image, T.marshal typecode data = .ok (some image) →
      image.length = length := by
    by_cases hmarshal : ∃ image, T.marshal typecode data = .ok (some image)
    · obtain ⟨image, himage⟩ := hmarshal
      refine ⟨image.length, fun image' himage' => ?_⟩
      rw [Option.some.inj (Except.ok.inj (himage.symm.trans himage'))]
    · exact ⟨0, fun image himage => absurd ⟨image, himage⟩ hmarshal⟩
  have heq : T.putWith ⟨false, length⟩ s key typecode data flags =
      T.put s key typecode data flags := by
    refine putWith_eq_put rfl fun image himage => ?_
    simp [hlength image himage]
  exact h.putWith (heq.trans hput)

theorem Idle.del (h : Idle s) {code : DurableStoreResult}
    (hdel : T.del s key = .ok (code, s')) : Idle s' := by
  obtain ⟨file, hkey, hdel'⟩ := bind_eq_ok.1 hdel
  cases file with
  | none =>
    cases hdel'
    exact h
  | some name =>
    cases hname : s.fs.dir.lookup name with
    | none =>
      obtain ⟨s₁, hdel₁, hidle, -⟩ := del_absent hkey h hname
      rw [hdel₁] at hdel
      cases hdel
      exact hidle
    | some i =>
      obtain ⟨s₁, hdel₁, hidle, -⟩ := del_present hkey h hname
      rw [hdel₁] at hdel
      cases hdel
      exact hidle

theorem Idle.step {call : Call} (h : Idle s) (hstep : T.Step s call s') : Idle s' := by
  cases call with
  | put out key typecode data flags =>
    obtain ⟨code, hput⟩ := hstep
    exact h.putWith hput
  | get key data uninitialised =>
    obtain ⟨code, data', hget⟩ := hstep
    exact h.get hget
  | getWith key allocator uninitialised =>
    obtain ⟨code, data', hget⟩ := hstep
    exact h.getWith hget
  | del key =>
    obtain ⟨code, hdel⟩ := hstep
    exact h.del hdel
  | foreign name bytes =>
    obtain ⟨i, -, rfl⟩ := hstep
    exact h.setData i bytes

theorem idle_of_reachable (h : (system T).Reachable s) : Idle s := by
  refine h.invariant (P := Idle) ?_ fun s call s' hidle _ hstep => hidle.step hstep
  rintro s ⟨fs, size, hlinks, rfl⟩
  exact idle_new hlinks size

end Oasys.FileSystemTable
