import Oasys.Spec.FileSystemTableCorrect
import Oasys.Spec.FileSystemTableErrors
import Oasys.Spec.OpenFdCacheCorrect

/-!
# Durable transactions of FileSystemStore

`end_transaction` has no record of what has been written: it calls `fsync` on the descriptors
that are in the cache at that moment, of a cache that it takes to be there. What a `put` has
written is on the disk afterwards exactly if its file is still in the cache
(`durable_iff`), and an eviction closes a descriptor without `fsync`. `Careful` has a cache,
and has no file leave it that was written to since it was last on the disk.

The names of the files and the names in the cache are all this is about, so each function of
the table is described by what it does to them (`SameNames`, `OpensName`).
-/

namespace Oasys.FileSystemStore

open FileSystemTable
open FileSystem (Linkless)

/-! ### The runs -/

/-- A store, and what has been written to it. -/
structure State where
  state : FileSystemTable.State
  /-- The inodes that a `put` has written to since they were last written to the disk. -/
  unsynced : List Nat

/-- The calls of a client, on any of the tables. -/
inductive Op where
  | put (T : FileSystemTable) (key : SerializableObject) (typecode : UInt32)
      (data : SerializableObject) (flags : DurableStoreFlags)
  | get (T : FileSystemTable) (key data : SerializableObject) (uninitialised : Nat → UInt32)
  | getWith (T : FileSystemTable) (key : SerializableObject)
      (allocator : UInt32 → Except Fault (Int × Option SerializableObject))
      (uninitialised : Nat → UInt32)
  | del (T : FileSystemTable) (key : SerializableObject)
  | endTransaction (be_durable : Bool)

/-- The inode of the file that a `put` of the key has written to, if it was successful. -/
def written (T : FileSystemTable) (key : SerializableObject) (code : DurableStoreResult)
    (s : FileSystemTable.State) : List Nat :=
  match code, T.filename key with
  | .DS_OK, .ok (some name) => (s.fs.dir.lookup name).toList
  | _, _ => []

/-- The inodes that `fsync` on the descriptors writes to the disk. -/
def synced (s : FileSystemTable.State) (fds : List Int) : List Nat := fds.filterMap (fsync s.fs)

/-- The calls that return. -/
def Step (s : State) : Op → State → Prop
  | .put T key typecode data flags, s' => ∃ code,
      T.put s.state key typecode data flags = .ok (code, s'.state) ∧
        s'.unsynced = written T key code s'.state ++ s.unsynced
  | .get T key data uninitialised, s' => (∃ code data',
      T.get s.state key data uninitialised = .ok (code, data', s'.state)) ∧
        s'.unsynced = s.unsynced
  | .getWith T key allocator uninitialised, s' => (∃ code data',
      T.getWith s.state key allocator uninitialised = .ok (code, data', s'.state)) ∧
        s'.unsynced = s.unsynced
  | .del T key, s' => (∃ code, T.del s.state key = .ok (code, s'.state)) ∧
      s'.unsynced = s.unsynced
  | .endTransaction be_durable, s' => ∃ code fds,
      FileSystemStore.endTransaction s.state be_durable = .ok (code, fds) ∧
        s'.state = s.state ∧ s'.unsynced = s.unsynced.filter (· ∉ synced s.state fds)

/-- A store of any configuration that has just been opened, over files that are there
    already, each under one name. -/
def system : TransitionSystem State Op where
  init s := ∃ fs fs_fd_cache_size, Linkless fs ∧
    s.state = FileSystemStore.init fs fs_fd_cache_size ∧ s.unsynced = []
  step := Step

/-- The name whose descriptor has to leave the cache for one of `name`. -/
def victim (s : FileSystemTable.State) (name : Path) : Option Path :=
  s.cache_.bind fun c =>
    if c.open_fds_map_.lookup name = none ∧ c.max_ < c.open_fds_map_.entries.length + 1 then
      c.open_fds_.nodes.head?.map (·.2.key_)
    else none

/-- If the file is opened, the one that leaves the cache has not been written to since it was
    last on the disk. -/
def Spares (s : State) (name : Path) (flags : OpenFlags) : Prop :=
  (s.state.fs.openFile name flags).isSome → ∀ other i, victim s.state name = some other →
    s.state.fs.dir.lookup other = some i → i ∉ s.unsynced

/-- No file with something that is not on the disk leaves the cache, and a durable end of a
    transaction finds one. -/
def Careful (s : State) : Op → Prop
  | .put T key typecode data flags => ∀ name image, T.filename key = .ok (some name) →
      T.marshal typecode data = .ok (some image) → Spares s name (openFlags flags)
  | .get T key _ _ | .getWith T key _ _ => ∀ name, T.filename key = .ok (some name) →
      Spares s name {}
  | .del _ _ => True
  | .endTransaction be_durable => be_durable = true → s.state.cache_.isSome

/-! ### What a durable end promises -/

/-- `end_transaction` returns, and if it returns `DS_OK`, every file that is there and that a
    `put` has written to has been written to the disk since. -/
def Durable (s : State) : Prop :=
  ∃ code fds, FileSystemStore.endTransaction s.state true = .ok (code, fds) ∧
    (code = .DS_OK → ∀ name i, s.state.fs.dir.lookup name = some i → i ∈ s.unsynced →
      i ∈ synced s.state fds)

/-! ### What the calls do to the names -/

section Names

variable {s s' s'' : FileSystemTable.State} {c c' : OpenFdCache Path} {fs fs' : FileSystem Path}
  {name other : Path} {fd : Nat}

def InCache (s : FileSystemTable.State) (name : Path) : Prop :=
  ∃ c, s.cache_ = some c ∧ name ∈ c.open_fds_map_

/-- The names of the files are the same, and so are those in the cache. -/
structure SameNames (s s' : FileSystemTable.State) : Prop where
  dir : s'.fs.dir = s.fs.dir
  map : s'.cache_.map (·.open_fds_map_) = s.cache_.map (·.open_fds_map_)

theorem SameNames.refl (s : FileSystemTable.State) : SameNames s s := ⟨rfl, rfl⟩

theorem SameNames.trans (h : SameNames s s') (h' : SameNames s' s'') : SameNames s s'' :=
  ⟨h'.dir.trans h.dir, h'.map.trans h.map⟩

theorem inCache_iff : InCache s name ↔ ∃ m, s.cache_.map (·.open_fds_map_) = some m ∧ name ∈ m := by
  simp [InCache]

theorem SameNames.isSome (h : SameNames s s') : s'.cache_.isSome = s.cache_.isSome := by
  have hmap := congrArg Option.isSome h.map
  rwa [Option.isSome_map, Option.isSome_map] at hmap

theorem SameNames.inCache (h : SameNames s s') : InCache s' name ↔ InCache s name := by
  rw [inCache_iff, inCache_iff, h.map]

theorem uncached_iff : Uncached s name ↔ ¬ InCache s name := by
  simp [Uncached, InCache, ← AList.lookup_eq_none]

theorem addPins_map {it : LRUList.Iterator} {d r : Int} (hadd : c.addPins it d = .ok (r, c')) :
    c'.open_fds_map_ = c.open_fds_map_ := by
  obtain ⟨ent, -, -, rfl⟩ := OpenFdCache.addPins_cases hadd
  rfl

theorem getAndPin_names {r : Option Nat} (hget : s.getAndPin name = .ok (r, s')) :
    SameNames s s' := by
  obtain ⟨fs, cache⟩ := s
  cases cache with
  | none =>
    cases hget
    exact .refl _
  | some c =>
    obtain ⟨⟨fd, c'⟩, hc, hdone⟩ := bind_eq_ok.1 hget
    cases hdone
    refine ⟨rfl, congrArg some ?_⟩
    unfold OpenFdCache.getAndPin at hc
    split at hc
    · cases hc
      rfl
    · obtain ⟨⟨fd', c₁⟩, hpins, hrest⟩ := bind_eq_ok.1 hc
      obtain ⟨-, -, hdone⟩ := bind_eq_ok.1 hrest
      cases hdone
      have hmap := addPins_map hpins
      exact hmap

theorem unpin_names (hunpin : s.unpin name = .ok s') : SameNames s s' := by
  obtain ⟨fs, cache⟩ := s
  cases cache with
  | none =>
    cases hunpin
    exact .refl _
  | some c =>
    obtain ⟨c', hc, hdone⟩ := bind_eq_ok.1 hunpin
    cases hdone
    refine ⟨rfl, congrArg some ?_⟩
    unfold OpenFdCache.unpin at hc
    split at hc
    · cases hc
    · obtain ⟨⟨fd, c₁⟩, hpins, rfl⟩ := map_eq_ok.1 hc
      exact addPins_map hpins

theorem rewind_names (hrewind : s.rewind fd = .ok s') : SameNames s s' := by
  obtain ⟨fs, cache⟩ := s
  cases cache with
  | none =>
    cases hrewind
    exact .refl _
  | some c =>
    unfold State.rewind FileSystem.seek at hrewind
    dsimp only at hrewind
    cases hfile : fs.files fd with
    | none =>
      rw [hfile] at hrewind
      cases hrewind
    | some f =>
      rw [hfile] at hrewind
      cases hrewind
      exact ⟨rfl, rfl⟩

theorem release_names (hrelease : s.release name fd = .ok s') : SameNames s s' := by
  obtain ⟨fs, cache⟩ := s
  cases cache with
  | none =>
    cases hrelease
    exact ⟨rfl, rfl⟩
  | some c => exact unpin_names hrelease

theorem write_dir {bytes : List UInt8} (hwrite : fs.write fd bytes = some fs') :
    fs'.dir = fs.dir := by
  unfold FileSystem.write at hwrite
  split at hwrite
  · cases hwrite
  · cases hwrite
    rfl

theorem read_dir {n : Nat} {bytes : List UInt8} (hread : fs.read fd n = some (bytes, fs')) :
    fs'.dir = fs.dir := by
  unfold FileSystem.read at hread
  split at hread
  · cases hread
  · cases hread
    rfl

theorem readLoop_dir {fuel : Nat} {buf buf' : ExpandableBuffer}
    (hloop : readLoop fd fuel fs buf = .ok (fs', buf')) : fs'.dir = fs.dir := by
  induction fuel generalizing fs buf with
  | zero => cases hloop
  | succ fuel ih =>
    unfold readLoop at hloop
    obtain ⟨p, -, hloop⟩ := bind_eq_ok.1 hloop
    split at hloop
    · cases hloop
    · rename_i bytes fs₁ hread
      obtain ⟨buf₁, -, hloop⟩ := bind_eq_ok.1 hloop
      obtain ⟨buf₂, -, hloop⟩ := bind_eq_ok.1 hloop
      split at hloop
      · rw [ih hloop, read_dir hread]
      · cases hloop
        exact read_dir hread

/-- What the opening of `name` does to the names in the cache: `name` comes in, and the
    victim goes. -/
def Caches (s s' : FileSystemTable.State) (name : Path) : Prop :=
  ∀ other, InCache s' other ↔
    s.cache_.isSome ∧ other = name ∨ InCache s other ∧ victim s name ≠ some other

theorem caches_of_inCache (hcached : InCache s name) (h : SameNames s s') :
    victim s name = none ∧ Caches s s' name := by
  have hcached' := hcached
  obtain ⟨c, hc, hmem⟩ := hcached'
  have hvictim : victim s name = none := by
    unfold victim
    rw [hc, Option.bind_some, if_neg]
    rintro ⟨hnone, -⟩
    exact AList.lookup_eq_none.1 hnone hmem
  refine ⟨hvictim, fun other => ?_⟩
  rw [h.inCache, hvictim, hc]
  constructor
  · exact fun hother => .inr ⟨hother, nofun⟩
  · rintro (⟨-, rfl⟩ | ⟨hother, -⟩)
    · exact hcached
    · exact hother

theorem closeFds_dir (fs : FileSystem Path) (c : OpenFdCache Path) :
    (State.closeFds fs c).fs.dir = fs.dir := by
  unfold State.closeFds
  induction c.closed with
  | nil => rfl
  | cons e closed ih => exact ih

theorem mem_makeRoom {kept : OpenFdCache Path} (hc : Cached fs c none)
    (hnone : c.open_fds_map_.lookup name = none) (hs : s.cache_ = some c)
    (hlow : c.max_ < c.open_fds_map_.entries.length + 1 → ∀ n,
      c.open_fds_.nodes.head? = some n → n.2.fd_ < OpenFdCache.fdLimit)
    (hloop : OpenFdCache.makeRoom (c.open_fds_.nodes.length + 1) c = .ok kept) :
    other ∈ kept.open_fds_map_ ↔ other ∈ c.open_fds_map_ ∧ victim s name ≠ some other := by
  obtain ⟨kept', hloop', -, hkept⟩ := hc.makeRoom hlow
  obtain rfl := Except.ok.inj (hloop'.symm.trans hloop)
  unfold victim
  rw [hs, Option.bind_some]
  rcases hkept with ⟨rfl, hroom⟩ | ⟨it, ent, hhead, hfull, rfl⟩
  · -- nothing has to go
    have hvictim : (if kept'.open_fds_map_.lookup name = none ∧
        kept'.max_ < kept'.open_fds_map_.entries.length + 1 then
          kept'.open_fds_.nodes.head?.map (·.2.key_) else none) = none := by
      split
      · rename_i hfull
        rcases hroom with hroom | hnodes
        · omega
        · rw [hnodes]
          rfl
      · rfl
    rw [hvictim]
    simp
  · rw [if_pos ⟨hnone, hfull⟩, hhead, Option.map_some]
    show other ∈ c.open_fds_map_.erase ent.key_ ↔ _
    rw [AList.mem_erase, and_comm, ne_eq, ne_eq, Option.some.injEq, eq_comm]

theorem putAndPin_names (hcached : ∀ c, s.cache_ = some c → Cached fs c none)
    (hnew : Uncached s name) {fd' : Nat} (hput : s.putAndPin name fd = .ok (fd', s')) :
    s'.fs.dir = s.fs.dir ∧ s'.cache_.isSome = s.cache_.isSome ∧ Caches s s' name := by
  obtain ⟨fs₁, cache⟩ := s
  cases cache with
  | none =>
    cases hput
    refine ⟨rfl, rfl, fun other => ?_⟩
    simp [InCache]
  | some c =>
    have hc := hcached c rfl
    have hnone := hnew c rfl
    obtain ⟨⟨fd₁, c₁⟩, hput₁, hdone⟩ := bind_eq_ok.1 hput
    have hlow : c.max_ < c.open_fds_map_.entries.length + 1 → ∀ n,
        c.open_fds_.nodes.head? = some n → n.2.fd_ < OpenFdCache.fdLimit := by
      intro hfull n hhead
      by_contra hhigh
      rw [hc.putAndPin_high hnone hfull hhead hhigh fd] at hput₁
      cases hput₁
    -- the descriptor goes behind what the loop has left
    obtain ⟨kept, hloop, hc₁⟩ : ∃ kept,
        OpenFdCache.makeRoom (c.open_fds_.nodes.length + 1) c = .ok kept ∧
          c₁ = kept.append name fd := by
      obtain ⟨-, -, hrest⟩ := bind_eq_ok.1 hput₁
      rw [hnone] at hrest
      obtain ⟨kept, hloop, hdone₁⟩ := bind_eq_ok.1 hrest
      cases hdone₁
      exact ⟨kept, hloop, rfl⟩
    have hs' : s'.fs.dir = fs₁.dir ∧ s'.cache_ = some { c₁ with closed := [] } := by
      cases hdone
      split
      · exact ⟨closeFds_dir fs₁ c₁, rfl⟩
      · exact ⟨closeFds_dir fs₁ c₁, rfl⟩
    refine ⟨hs'.1, by rw [hs'.2]; rfl, fun other => ?_⟩
    have hmem : InCache s' other ↔ other ∈ kept.open_fds_map_.insert name kept.open_fds_.next := by
      unfold InCache
      rw [hs'.2, hc₁]
      constructor
      · rintro ⟨c', hc', hmem⟩
        cases hc'
        exact hmem
      · exact fun hmem => ⟨_, rfl, hmem⟩
    have hs : FileSystemTable.State.cache_ ⟨fs₁, some c⟩ = some c := rfl
    rw [hmem, AList.mem_insert, mem_makeRoom hc hnone hs hlow hloop]
    simp [InCache]

/-- The call opens the file `name`, or takes its descriptor out of the cache. -/
structure OpensName (s s' : FileSystemTable.State) (name : Path) (flags : OpenFlags) : Prop where
  dir : ∀ other, other ≠ name → s'.fs.dir.lookup other = s.fs.dir.lookup other
  isSome : s'.cache_.isSome = s.cache_.isSome
  caches : Caches s s' name
  opened : victim s name ≠ none → (s.fs.openFile name flags).isSome

variable {flags : OpenFlags}

theorem OpensName.trans (h : OpensName s s' name flags)
    (hsame : SameNames s' s'') : OpensName s s'' name flags where
  dir other hother := by rw [hsame.dir, h.dir other hother]
  isSome := hsame.isSome.trans h.isSome
  caches other := by rw [hsame.inCache, h.caches other]
  opened := h.opened

theorem openFile_dir (hopen : fs.openFile name flags = some (fd, fs'))
    (hother : other ≠ name) : fs'.dir.lookup other = fs.dir.lookup other := by
  unfold FileSystem.openFile at hopen
  split at hopen
  · split at hopen
    · cases hopen
    · split at hopen
      · cases hopen
        rfl
      · cases hopen
        rfl
  · split at hopen
    · cases hopen
      exact AList.lookup_insert_ne hother
    · cases hopen

theorem opensName_of_openFile (h : Idle s) (hnew : Uncached s name) {fd' : Nat}
    (hopen : s.fs.openFile name flags = some (fd, fs'))
    (hput : State.putAndPin { s with fs := fs' } name fd = .ok (fd', s')) :
    OpensName s s' name flags := by
  obtain ⟨hdir, hsome, hcaches⟩ := putAndPin_names (s := { s with fs := fs' }) h.cached hnew hput
  refine ⟨fun other hother => ?_, hsome, hcaches, fun _ => ?_⟩
  · rw [hdir, openFile_dir hopen hother]
  · rw [hopen]
    rfl

theorem opensName_of_inCache (hcached : InCache s name) (h : SameNames s s') :
    OpensName s s' name flags := by
  obtain ⟨hvictim, hcaches⟩ := caches_of_inCache hcached h
  exact ⟨fun other _ => by rw [h.dir], h.isSome, hcaches, fun hne => absurd hvictim hne⟩

theorem getAndPin_cases (h : Idle s) {r : Option Nat} (hget : s.getAndPin name = .ok (r, s')) :
    (r = none ∧ s' = s ∧ Uncached s name) ∨
      ∃ fd, r = some fd ∧ InCache s name ∧ SameNames s s' := by
  by_cases hcached : InCache s name
  · have hnot : ¬ Uncached s name := fun hun => uncached_iff.1 hun hcached
    cases hname : s.fs.dir.lookup name with
    | none => exact absurd (h.uncached hname) hnot
    | some i =>
      obtain ⟨fd, s₁, hget', -⟩ := h.getAndPin hname hnot
      obtain ⟨rfl, rfl⟩ := Prod.mk.inj (Except.ok.inj (hget'.symm.trans hget))
      exact .inr ⟨fd, rfl, hcached, getAndPin_names hget⟩
  · have hun := uncached_iff.2 hcached
    rw [getAndPin_uncached hun] at hget
    cases hget
    exact .inl ⟨rfl, rfl, hun⟩

theorem openForGet_names (h : Idle s) {r : Option Nat} (hopen : openForGet s name = .ok (r, s')) :
    SameNames s s' ∧ r = none ∨ OpensName s s' name {} := by
  obtain ⟨⟨r₁, s₁⟩, hget, hrest⟩ := bind_eq_ok.1 hopen
  rcases getAndPin_cases h hget with ⟨rfl, rfl, hun⟩ | ⟨fd, rfl, hcached, hsame⟩
  · dsimp only at hrest
    split at hrest
    · cases hrest
      exact .inl ⟨.refl _, rfl⟩
    · rename_i fd fs' hfile
      obtain ⟨⟨fd', s₂⟩, hput, hdone⟩ := bind_eq_ok.1 hrest
      cases hdone
      exact .inr (opensName_of_openFile h hun hfile hput)
  · cases hrest
    exact .inr (opensName_of_inCache hcached hsame)

theorem openForPut_names (h : Idle s) {flags : DurableStoreFlags}
    {r : Except DurableStoreResult Nat} (hopen : openForPut s name flags = .ok (r, s')) :
    (SameNames s s' ∧ ∃ code, r = .error code ∧ code ≠ .DS_OK) ∨
      OpensName s s' name (openFlags flags) := by
  obtain ⟨⟨r₁, s₁⟩, hget, hrest⟩ := bind_eq_ok.1 hopen
  rcases getAndPin_cases h hget with ⟨rfl, rfl, hun⟩ | ⟨fd, rfl, hcached, hsame⟩
  · dsimp only at hrest
    split at hrest
    · rename_i fd fs' hfile
      obtain ⟨⟨fd', s₂⟩, hput, hdone⟩ := bind_eq_ok.1 hrest
      cases hdone
      exact .inr (opensName_of_openFile h hun hfile hput)
    · split at hrest
      · obtain ⟨-, -, hdone⟩ := bind_eq_ok.1 hrest
        cases hdone
        exact .inl ⟨.refl _, _, rfl, nofun⟩
      · obtain ⟨-, -, hdone⟩ := bind_eq_ok.1 hrest
        cases hdone
        exact .inl ⟨.refl _, _, rfl, nofun⟩
  · dsimp only at hrest
    split at hrest
    · obtain ⟨s₂, hunpin, hdone⟩ := bind_eq_ok.1 hrest
      cases hdone
      exact .inl ⟨hsame.trans (unpin_names hunpin), _, rfl, nofun⟩
    · cases hrest
      exact .inr (opensName_of_inCache hcached hsame)

variable {T : FileSystemTable} {key : SerializableObject}

theorem getCommon_names (h : Idle s) {buf buf' : ExpandableBuffer} {code : DurableStoreResult}
    (hget : T.getCommon s key buf = .ok (code, buf', s')) :
    SameNames s s' ∨ ∃ name, T.filename key = .ok (some name) ∧ OpensName s s' name {} := by
  obtain ⟨file, hkey, hrest⟩ := bind_eq_ok.1 hget
  cases file with
  | none =>
    cases hrest
    exact .inl (.refl _)
  | some name =>
    obtain ⟨⟨r, s₁⟩, hopen, hrest⟩ := bind_eq_ok.1 hrest
    have hnames := openForGet_names h hopen
    cases r with
    | none =>
      cases hrest
      exact hnames.imp And.left fun ho => ⟨name, hkey, ho⟩
    | some fd =>
      have ho : OpensName s s₁ name {} := hnames.resolve_left fun hno => nomatch hno.2
      obtain ⟨s₂, hrewind, hrest⟩ := bind_eq_ok.1 hrest
      obtain ⟨⟨fs, buf₁⟩, hloop, hrest⟩ := bind_eq_ok.1 hrest
      obtain ⟨s₃, hrelease, hdone⟩ := bind_eq_ok.1 hrest
      cases hdone
      have hread : SameNames s₂ { s₂ with fs } := ⟨readLoop_dir hloop, rfl⟩
      exact .inr ⟨name, hkey,
        ((ho.trans (rewind_names hrewind)).trans hread).trans (release_names hrelease)⟩

theorem put_names {data : SerializableObject} {typecode : UInt32}
    {flags : DurableStoreFlags} (h : Idle s) {code : DurableStoreResult}
    (hput : T.put s key typecode data flags = .ok (code, s')) :
    (SameNames s s' ∧ code ≠ .DS_OK) ∨ ∃ name image, T.filename key = .ok (some name) ∧
      T.marshal typecode data = .ok (some image) ∧ OpensName s s' name (openFlags flags) := by
  obtain ⟨file, hkey, hrest⟩ := bind_eq_ok.1 hput
  cases file with
  | none =>
    cases hrest
    exact .inl ⟨.refl _, nofun⟩
  | some name =>
    obtain ⟨scratch, hdata, hrest⟩ := bind_eq_ok.1 hrest
    cases scratch with
    | none =>
      cases hrest
      exact .inl ⟨.refl _, nofun⟩
    | some image =>
      obtain ⟨⟨r, s₁⟩, hopen, hrest⟩ := bind_eq_ok.1 hrest
      have hnames := openForPut_names h hopen
      cases r with
      | error code₁ =>
        cases hrest
        rcases hnames with ⟨hsame, code₂, hcode, hne⟩ | ho
        · cases hcode
          exact .inl ⟨hsame, hne⟩
        · exact .inr ⟨name, image, hkey, hdata, ho⟩
      | ok fd =>
        have ho : OpensName s s₁ name (openFlags flags) := hnames.resolve_left fun hno =>
          nomatch hno.2.choose_spec.1
        obtain ⟨s₂, hrewind, hrest⟩ := bind_eq_ok.1 hrest
        have ho₂ := ho.trans (rewind_names hrewind)
        refine .inr ⟨name, image, hkey, hdata, ?_⟩
        split at hrest
        · obtain ⟨s₃, hunpin, hdone⟩ := bind_eq_ok.1 hrest
          cases hdone
          exact ho₂.trans (unpin_names hunpin)
        · rename_i fs hwrite
          obtain ⟨s₃, hrelease, hdone⟩ := bind_eq_ok.1 hrest
          cases hdone
          have hwritten : SameNames s₂ { s₂ with fs } := ⟨write_dir hwrite, rfl⟩
          exact (ho₂.trans hwritten).trans (release_names hrelease)

theorem closeCached_names (hclose : s.closeCached name = .ok s') :
    s'.fs.dir = s.fs.dir ∧ s'.cache_.isSome = s.cache_.isSome ∧
      ∀ other, other ≠ name → (InCache s' other ↔ InCache s other) := by
  obtain ⟨fs₁, cache⟩ := s
  cases cache with
  | none =>
    cases hclose
    exact ⟨rfl, rfl, fun _ _ => Iff.rfl⟩
  | some c =>
    obtain ⟨c', hc, hdone⟩ := bind_eq_ok.1 hclose
    cases hdone
    refine ⟨closeFds_dir fs₁ c', rfl, fun other hother => ?_⟩
    have hmem : other ∈ c'.open_fds_map_ ↔ other ∈ c.open_fds_map_ := by
      unfold OpenFdCache.close at hc
      split at hc
      · cases hc
        exact Iff.rfl
      · split at hc
        · cases hc
        · obtain ⟨-, -, hdone⟩ := bind_eq_ok.1 hc
          cases hdone
          simp [AList.mem_erase, hother]
    simp [InCache, State.closeFds, hmem]

theorem del_names {code : DurableStoreResult} (hdel : T.del s key = .ok (code, s')) :
    s' = s ∨ ∃ name, s'.fs.dir.lookup name = none ∧ s'.cache_.isSome = s.cache_.isSome ∧
      ∀ other, other ≠ name → s'.fs.dir.lookup other = s.fs.dir.lookup other ∧
        (InCache s' other ↔ InCache s other) := by
  obtain ⟨file, -, hrest⟩ := bind_eq_ok.1 hdel
  cases file with
  | none =>
    cases hrest
    exact .inl rfl
  | some name =>
    obtain ⟨s₁, hclose, hrest⟩ := bind_eq_ok.1 hrest
    obtain ⟨hdir, hsome, hcache⟩ := closeCached_names hclose
    refine .inr ⟨name, ?_⟩
    unfold FileSystem.unlink at hrest
    by_cases hthere : (s₁.fs.dir.lookup name).isSome
    · rw [if_pos hthere] at hrest
      cases hrest
      refine ⟨AList.lookup_erase _ _, hsome, fun other hother => ⟨?_, hcache other hother⟩⟩
      rw [← hdir]
      exact AList.lookup_erase_ne hother
    · rw [if_neg hthere] at hrest
      cases hrest
      refine ⟨by simpa using hthere, hsome, fun other hother => ⟨?_, hcache other hother⟩⟩
      rw [hdir]

end Names

/-! ### What is in the cache at the end -/

section Runs

variable {s s' : State} {op : Op}

theorem mem_synced {st : FileSystemTable.State} (h : Idle st) {c : OpenFdCache Path}
    (hc : st.cache_ = some c) {name : Path} {i : Nat} (hname : st.fs.dir.lookup name = some i) :
    i ∈ synced st c.syncAll ↔ InCache st name := by
  have hcached := h.cached c hc
  -- what a descriptor of the cache writes to the disk
  have hfsync : ∀ n ∈ c.open_fds_.nodes, ∃ j, st.fs.dir.lookup n.2.key_ = some j ∧
      fsync st.fs n.2.fd_ = some j := by
    intro n hn
    obtain ⟨j, fd, hfile, hfd, off, hopened⟩ := hcached.opened n hn
    refine ⟨j, hfile, ?_⟩
    rw [hfd, fsync, Int.toNat_natCast, hopened]
    rfl
  unfold synced OpenFdCache.syncAll
  rw [List.mem_filterMap]
  constructor
  · rintro ⟨fd, hfd, hsync⟩
    obtain ⟨n, hn, rfl⟩ := List.mem_map.1 hfd
    obtain ⟨j, hfile, hj⟩ := hfsync n hn
    obtain rfl := Option.some.inj (hj.symm.trans hsync)
    obtain rfl := h.links _ _ _ hname hfile
    refine ⟨c, hc, ?_⟩
    rw [← AList.lookup_isSome, hcached.indexed.lookup hn]
    rfl
  · rintro ⟨c', hc', hmem⟩
    obtain rfl := Option.some.inj (hc.symm.trans hc')
    obtain ⟨it, hit⟩ := Option.isSome_iff_exists.1 (AList.lookup_isSome.2 hmem)
    obtain ⟨ent, hn, rfl⟩ := hcached.indexed.node hit
    obtain ⟨j, hfile, hj⟩ := hfsync _ hn
    obtain rfl := Option.some.inj (hname.symm.trans hfile)
    exact ⟨ent.fd_, List.mem_map_of_mem hn, hj⟩

theorem durable_iff_of_idle (h : Idle s.state) : Durable s ↔ s.state.cache_.isSome ∧
    ∀ name i, s.state.fs.dir.lookup name = some i → i ∈ s.unsynced → InCache s.state name := by
  unfold Durable FileSystemStore.endTransaction
  cases hc : s.state.cache_ with
  | none =>
    refine iff_of_false ?_ (fun hsome => nomatch hsome.1)
    rintro ⟨code, fds, hend, -⟩
    cases hend
  | some c =>
    constructor
    · rintro ⟨code, fds, hend, hdisk⟩
      cases hend
      exact ⟨rfl, fun name i hname hi => (mem_synced h hc hname).1 (hdisk rfl name i hname hi)⟩
    · rintro ⟨-, hdisk⟩
      refine ⟨_, _, rfl, fun _ name i hname hi => ?_⟩
      exact (mem_synced h hc hname).2 (hdisk name i hname hi)

theorem idle_step (h : Idle s.state) (hstep : Step s op s') : Idle s'.state := by
  cases op with
  | put T key typecode data flags =>
    obtain ⟨code, hput, -⟩ := hstep
    exact h.put hput
  | get T key data uninitialised =>
    obtain ⟨⟨code, data', hget⟩, -⟩ := hstep
    exact h.get hget
  | getWith T key allocator uninitialised =>
    obtain ⟨⟨code, data', hget⟩, -⟩ := hstep
    exact h.getWith hget
  | del T key =>
    obtain ⟨⟨code, hdel⟩, -⟩ := hstep
    exact h.del hdel
  | endTransaction be_durable =>
    obtain ⟨code, fds, -, hstate, -⟩ := hstep
    rw [hstate]
    exact h

theorem idle_init {fs : FileSystem Path} (hlinks : Linkless fs) (fs_fd_cache_size_ : Int) :
    Idle (FileSystemStore.init fs fs_fd_cache_size_) := idle_new hlinks _

/-- In every state of any run, the end is durable exactly if there is a cache that has all that
    is not on the disk. -/
theorem durable_iff (hs : system.Reachable s) : Durable s ↔ s.state.cache_.isSome ∧
    ∀ name i, s.state.fs.dir.lookup name = some i → i ∈ s.unsynced → InCache s.state name := by
  apply durable_iff_of_idle
  refine hs.invariant (P := fun s => Idle s.state) ?_ fun s op s' h _ hstep => idle_step h hstep
  rintro s ⟨fs, size, hlinks, hstate, -⟩
  rw [hstate]
  exact idle_init hlinks size

/-! ### Careful runs -/

/-- The store is at rest, and what is not on the disk is in the cache, if there is one. -/
structure Inv (s : State) : Prop where
  idle : Idle s.state
  kept : s.state.cache_.isSome → ∀ name i, s.state.fs.dir.lookup name = some i →
    i ∈ s.unsynced → InCache s.state name

theorem Inv.same (h : Inv s) (hidle : Idle s'.state) (hsame : SameNames s.state s'.state)
    (hunsynced : s'.unsynced ⊆ s.unsynced) : Inv s' where
  idle := hidle
  kept hsome name i hname hi := by
    rw [hsame.isSome] at hsome
    rw [hsame.dir] at hname
    rw [hsame.inCache]
    exact h.kept hsome name i hname (hunsynced hi)

theorem Inv.opens (h : Inv s) (hidle : Idle s'.state) {name : Path} {flags : OpenFlags}
    (ho : OpensName s.state s'.state name flags) (hspares : Spares s name flags)
    (hunsynced : ∀ other i, other ≠ name → s'.state.fs.dir.lookup other = some i →
      i ∈ s'.unsynced → i ∈ s.unsynced) : Inv s' where
  idle := hidle
  kept hsome other i hother hi := by
    rw [ho.isSome] at hsome
    rw [ho.caches other]
    by_cases hname : other = name
    · exact .inl ⟨hsome, hname⟩
    · have hold := hunsynced other i hname hother hi
      rw [ho.dir other hname] at hother
      refine .inr ⟨h.kept hsome other i hother hold, fun hvictim => ?_⟩
      -- what has gone was on the disk
      have hopen := ho.opened (by rw [hvictim]; exact Option.some_ne_none _)
      exact hspares hopen other i hvictim hother hold

theorem Inv.reads (h : Inv s) (hidle : Idle s'.state) {T : FileSystemTable}
    {key : SerializableObject} {err : DurableStoreResult} {buf : ExpandableBuffer}
    (hget : T.getCommon s.state key scratch = .ok (err, buf, s'.state))
    (hcareful : ∀ name, T.filename key = .ok (some name) → Spares s name {})
    (hunsynced : s'.unsynced = s.unsynced) : Inv s' := by
  rcases getCommon_names h.idle hget with hsame | ⟨name, hkey, ho⟩
  · exact h.same hidle hsame (hunsynced ▸ List.Subset.refl _)
  · exact h.opens hidle ho (hcareful name hkey) fun other i _ _ hi => hunsynced ▸ hi

theorem Inv.step (h : Inv s) (hcareful : Careful s op) (hstep : Step s op s') : Inv s' := by
  have hidle := idle_step h.idle hstep
  cases op with
  | put T key typecode data flags =>
    obtain ⟨code, hput, hunsynced⟩ := hstep
    rcases put_names h.idle hput with ⟨hsame, hcode⟩ | ⟨name, image, hkey, hdata, ho⟩
    · refine h.same hidle hsame ?_
      have hnone : written T key code s'.state = [] := by
        cases code <;> first | rfl | exact absurd rfl hcode
      rw [hunsynced, hnone]
      exact List.Subset.refl _
    · refine h.opens hidle ho (hcareful name image hkey hdata) fun other i hother hi hmem => ?_
      rw [hunsynced] at hmem
      refine (List.mem_append.1 hmem).resolve_left fun hwritten => ?_
      -- the file that was written has no other name
      have hname : s'.state.fs.dir.lookup name = some i := by
        cases code <;> simp [written, hkey] at hwritten
        exact hwritten
      exact hother (hidle.links _ _ _ hi hname)
  | get T key data uninitialised =>
    obtain ⟨⟨code, data', hget⟩, hunsynced⟩ := hstep
    obtain ⟨err, buf, hcommon⟩ := getCommon_of_get hget
    exact h.reads hidle hcommon hcareful hunsynced
  | getWith T key allocator uninitialised =>
    obtain ⟨⟨code, data', hget⟩, hunsynced⟩ := hstep
    obtain ⟨err, buf, hcommon⟩ := getCommon_of_getWith hget
    exact h.reads hidle hcommon hcareful hunsynced
  | del T key =>
    obtain ⟨⟨code, hdel⟩, hunsynced⟩ := hstep
    rcases del_names hdel with hsame | ⟨name, hgone, hsome, hothers⟩
    · exact h.same hidle (hsame ▸ .refl _) (hunsynced ▸ List.Subset.refl _)
    · refine ⟨hidle, fun hcache other i hother hi => ?_⟩
      have hne : other ≠ name := by
        rintro rfl
        rw [hgone] at hother
        cases hother
      obtain ⟨hdir, hin⟩ := hothers other hne
      rw [hsome] at hcache
      rw [hdir] at hother
      rw [hunsynced] at hi
      exact hin.2 (h.kept hcache other i hother hi)
  | endTransaction be_durable =>
    obtain ⟨code, fds, -, hstate, hunsynced⟩ := hstep
    refine h.same hidle (hstate ▸ .refl _) ?_
    rw [hunsynced]
    exact List.filter_subset_self _

end Runs

/-- In every careful run, a durable end of a transaction returns, and what has been written
    to the files that are there is on the disk then. -/
theorem durable_of_careful {s : State} (hs : system.ReachableWith Careful s)
    (hend : Careful s (.endTransaction true)) : Durable s := by
  have hinv : Inv s := by
    refine hs.invariant ?_ fun s op s' h => h.step
    rintro s ⟨fs, size, hlinks, hstate, hunsynced⟩
    refine ⟨by rw [hstate]; exact idle_init hlinks size, fun _ name i _ hi => ?_⟩
    rw [hunsynced] at hi
    cases hi
  exact (durable_iff_of_idle hinv.idle).2 ⟨hend rfl, hinv.kept (hend rfl)⟩

/-- A store that has just been opened, with no files. -/
def State.new (fs_fd_cache_size_ : Int) : State where
  state := FileSystemStore.init .empty fs_fd_cache_size_
  unsynced := []

theorem init_new (fs_fd_cache_size_ : Int) : system.init (.new fs_fd_cache_size_) :=
  ⟨_, _, FileSystem.linkless_empty, rfl, rfl⟩

/-- An object has been put, and its file is in the cache. -/
theorem durable_of_careful_put : ∃ s : State, s.unsynced = [0] ∧
    s.state.fs.dir.lookup (flagPath true) = some 0 ∧ Durable s := by
  have hrun : (flagTable.put (State.new 1).state (flagKey true) 0 [.fixed (.u8 9)]
      ⟨true, false⟩).map (fun r => (r.1, r.2.fs.dir.lookup (flagPath true), r.2.cache_.isSome)) =
        .ok (.DS_OK, some 0, true) := by decide +kernel
  have hkey : flagTable.filename (flagKey true) = .ok (some (flagPath true)) := by decide +kernel
  obtain ⟨⟨code, st⟩, hput, hres⟩ := map_eq_ok.1 hrun
  obtain ⟨rfl, hname, hcache⟩ : code = .DS_OK ∧ st.fs.dir.lookup (flagPath true) = some 0 ∧
      st.cache_.isSome = true := by simpa using hres
  have hwritten : written flagTable (flagKey true) .DS_OK st = [0] := by
    simp [written, hkey, hname]
  have hstep : system.ReachableWith Careful ⟨st, [0]⟩ := by
    refine .step (a := .put flagTable (flagKey true) 0 [.fixed (.u8 9)] ⟨true, false⟩)
      (.init (init_new 1)) ?_ ⟨.DS_OK, hput, by rw [hwritten]; rfl⟩
    -- nothing is in the cache yet
    intro name image _ _ _ other i hvictim
    unfold victim at hvictim
    rw [show (State.new 1).state.cache_ = some (.new 1) from rfl, Option.bind_some] at hvictim
    split at hvictim <;> cases hvictim
  exact ⟨_, rfl, hname, durable_of_careful hstep fun _ => hcache⟩

/-- The end of a transaction goes through a null pointer in a store without a cache, and with
    a cache for one descriptor it leaves the first of two objects off the disk. -/
theorem not_durable : (∃ s : State, system.Reachable s ∧
      FileSystemStore.endTransaction s.state true = .error .nullDeref) ∧
    ∃ s : State, system.Reachable s ∧ s.state.cache_.isSome ∧ ¬ Durable s := by
  refine ⟨⟨.new 0, .init (init_new 0), rfl⟩, ?_⟩
  have hrun : (flagTable.put (State.new 1).state (flagKey true) 0 [.fixed (.u8 9)]
      ⟨true, false⟩ >>= fun r => (flagTable.put r.2 (flagKey false) 0 [.fixed (.u8 8)]
        ⟨true, false⟩).map fun r' => (r.1, r.2.fs.dir.lookup (flagPath true), r'.1,
          r'.2.fs.dir.lookup (flagPath true),
          r'.2.cache_.map fun c => decide (flagPath true ∈ c.open_fds_map_))) =
        .ok (.DS_OK, some 0, .DS_OK, some 0, some false) := by decide +kernel
  have hkey : flagTable.filename (flagKey true) = .ok (some (flagPath true)) := by decide +kernel
  obtain ⟨⟨code, st⟩, hput, hrest⟩ := bind_eq_ok.1 hrun
  obtain ⟨⟨code', st'⟩, hput', hres⟩ := map_eq_ok.1 hrest
  obtain ⟨rfl, hname, rfl, hname', c, hc, hgone⟩ : code = .DS_OK ∧
      st.fs.dir.lookup (flagPath true) = some 0 ∧ code' = .DS_OK ∧
      st'.fs.dir.lookup (flagPath true) = some 0 ∧
      ∃ c, st'.cache_ = some c ∧ flagPath true ∉ c.open_fds_map_ := by simpa using hres
  have hwritten : written flagTable (flagKey true) .DS_OK st = [0] := by
    simp [written, hkey, hname]
  have hone : system.Reachable ⟨st, [0]⟩ :=
    .step (a := .put flagTable (flagKey true) 0 [.fixed (.u8 9)] ⟨true, false⟩)
      (.init (init_new 1)) trivial ⟨.DS_OK, hput, by rw [hwritten]; rfl⟩
  have htwo : system.Reachable ⟨st', written flagTable (flagKey false) .DS_OK st' ++ [0]⟩ :=
    .step (a := .put flagTable (flagKey false) 0 [.fixed (.u8 8)] ⟨true, false⟩) hone trivial
      ⟨.DS_OK, hput', rfl⟩
  refine ⟨_, htwo, by rw [hc]; rfl, fun hdurable => ?_⟩
  obtain ⟨-, hin⟩ := (durable_iff htwo).1 hdurable
  obtain ⟨c', hc', hmem⟩ := hin (flagPath true) 0 hname' (List.mem_append_right _ (by simp))
  obtain rfl := Option.some.inj (hc.symm.trans hc')
  exact hgone hmem

end Oasys.FileSystemStore
