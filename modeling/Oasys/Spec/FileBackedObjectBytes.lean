import Oasys.Spec.FileBackedObjectDurable
import Oasys.Spec.StreamSerializeCorrect
import Oasys.Storage.FileBackedObjectStream

/-!
# FileBackedObject is a byte array

An object answers reads, writes, appends, truncations and serializations as an array of
bytes in memory does, and its `cur_offset_` is the offset of its descriptor. The array and
the object run side by side: `Holds` says that the object holds the bytes of the array, and
every member is shown to keep it.

A read at an offset that no file reaches and a `serialize` that would start before the file
take this apart: there the kernel refuses to move the descriptor.
-/

namespace Oasys

/-! ### What an action hands to its stream -/

namespace StreamSerialize

variable {a : StreamSerialize}

/-- The action after the buffers have gone to a stream without errors. -/
def after (a : StreamSerialize) (bufs : List (List UInt8)) : StreamSerialize :=
  { a with
    stream_ := ⟨a.stream_.data ++ bufs.flatten, fun n => a.stream_.writes (n + bufs.length)⟩
    events := a.events ++ List.replicate bufs.length .done }

@[simp] theorem after_nil (a : StreamSerialize) : a.after [] = a := by simp [after]

@[simp] theorem after_after (a : StreamSerialize) (bufs bufs' : List (List UInt8)) :
    (a.after bufs).after bufs' = a.after (bufs ++ bufs') := by
  have hcount : ∀ n, n + bufs'.length + bufs.length = n + (bufs.length + bufs'.length) := by omega
  simp [after, hcount]

theorem Fine.after (h : a.Fine) (bufs : List (List UInt8)) : (a.after bufs).Fine :=
  ⟨h.1, fun n => h.2 (n + bufs.length)⟩

theorem put_eq (h : a.Fine) (bytes : Except Fault (List UInt8)) :
    a.put bytes = (fun buf => a.after [buf]) <$> bytes := by
  cases bytes with
  | error e => simp [put, h.1]
  | ok buf => simp [put, h.1, OutByteStream.write, h.2 0, after]

theorem handed_put (bytes : Except Fault (List UInt8)) : handed (fun a => a.put bytes) = bytes := by
  cases bytes <;> rfl

theorem processU32_eq (h : a.Fine) (len : UInt32) :
    a.processU32 len = (fun buf => a.after [buf]) <$> handed fun a => a.processU32 len := by
  unfold processU32
  rw [put_eq h, handed_put]

theorem processBuf_eq (h : a.Fine) (bp : Option (List UInt8)) (len : UInt32) :
    a.processBuf bp len = (fun buf => a.after [buf]) <$> handed fun a => a.processBuf bp len := by
  unfold processBuf
  rw [put_eq h, handed_put]

theorem processFixed_eq (h : a.Fine) (x : FixedField) :
    a.processFixed x = (fun buf => a.after [buf]) <$> handed fun a => a.processFixed x := by
  -- every overload is a `put`
  have hput : ∃ bytes, ∀ a : StreamSerialize, a.processFixed x = a.put bytes := by
    cases x <;> exact ⟨_, fun _ => rfl⟩
  obtain ⟨bytes, hput⟩ := hput
  simp only [hput]
  rw [put_eq h, handed_put]

theorem processCarrier_eq (h : a.Fine) (c : BufferCarrier) :
    a.processCarrier c = a.after <$> carrierBuffers c := by
  unfold processCarrier carrierBuffers
  dsimp only
  rw [processU32_eq h]
  cases handed fun a => a.processU32 (.ofNat c.len_) with
  | error e => rfl
  | ok length =>
    simp only [map_ok, ok_bind]
    rw [processBuf_eq (h.after _)]
    cases handed fun a => a.processBuf c.buf_ (.ofNat c.len_) with
    | error e => rfl
    | ok buf => simp

theorem processTerminated_eq (h : a.Fine) (c : BufferCarrier) (t : UInt8) :
    a.processTerminated c t =
      (fun res => (a.after res.1, res.2)) <$> terminatedBuffers c t := by
  unfold processTerminated terminatedBuffers
  cases c.buf_ with
  | none => rfl
  | some buf =>
    dsimp only
    cases Marshal.findTerminator t buf with
    | error e => rfl
    | ok len =>
      simp only [bind, Except.bind]
      by_cases hlong : 2 ^ 32 ≤ len
      · rw [if_pos hlong, if_pos hlong]
        rfl
      rw [if_neg hlong, if_neg hlong, processCarrier_eq h]
      cases carrierBuffers (c.setLen (UInt32.ofNat len + 1).toNat) <;> rfl

theorem processString_eq (h : a.Fine) (s : List UInt8) :
    a.processString s = a.after <$> stringBuffers s := by
  unfold processString stringBuffers
  dsimp only
  rw [h.1, processU32_eq h]
  cases handed fun a => a.processU32 (.ofNat s.length) with
  | error e => rfl
  | ok length =>
    simp only [map_ok, ok_bind, Bool.false_eq_true, if_false]
    rw [(h.after _).1, put_eq (h.after _)]
    cases readBytes (some s) (UInt32.ofNat s.length).toNat with
    | error e => rfl
    | ok buf => simp

private theorem processAll_eq_of {o : SerializableObject}
    (ih : ∀ f ∈ o, ∀ a : StreamSerialize, a.Fine →
      a.process f = (fun res => (a.after res.1, res.2)) <$> buffers f) (h : a.Fine) :
    a.processAll o = (fun res => (a.after res.1, res.2)) <$> buffersAll o := by
  induction o generalizing a with
  | nil => simp [processAll, buffersAll]
  | cons f o iho =>
    unfold processAll buffersAll
    rw [ih f (by simp) a h]
    cases buffers f with
    | error e => rfl
    | ok res =>
      simp only [map_ok, ok_bind]
      rw [iho (fun g hg => ih g (by simp [hg])) (h.after _)]
      cases buffersAll o with
      | error e => rfl
      | ok rest => simp

theorem process_eq (f : Field) (a : StreamSerialize) (h : a.Fine) :
    a.process f = (fun res => (a.after res.1, res.2)) <$> buffers f := by
  -- one lemma for each overload; the members of an object and of a vector by induction
  induction f using Field.ind generalizing a with
  | fixed x =>
    unfold process buffers
    rw [processFixed_eq h]
    cases handed fun a => a.processFixed x <;> rfl
  | carrier c =>
    unfold process buffers
    rw [processCarrier_eq h]
    cases carrierBuffers c <;> rfl
  | terminated c t =>
    unfold process buffers
    rw [processTerminated_eq h]
    cases terminatedBuffers c t <;> rfl
  | string s =>
    unfold process buffers
    rw [processString_eq h]
    cases stringBuffers s <;> rfl
  | object fields ih =>
    unfold process buffers
    rw [processAll_eq_of ih h]
    cases buffersAll fields <;> rfl
  | vector builder elems _ ih =>
    unfold process buffers
    rw [processU32_eq h]
    cases handed fun a => a.processU32 (.ofNat elems.length) with
    | error e => rfl
    | ok size =>
      simp only [map_ok, ok_bind]
      rw [processAll_eq_of ih (h.after _)]
      cases buffersAll elems with
      | error e => rfl
      | ok rest => simp

theorem action_eq (o : SerializableObject) :
    (new ⟨[], fun _ => none⟩).action o =
      (fun res => (0, (new ⟨[], fun _ => none⟩).after res.1, res.2)) <$> buffersAll o := by
  have hfine : (new ⟨[], fun _ => none⟩).Fine := ⟨rfl, fun _ => rfl⟩
  unfold action
  rw [show ({ new ⟨[], fun _ => none⟩ with error_ := false } : StreamSerialize) =
    new ⟨[], fun _ => none⟩ from rfl, processAll_eq_of (fun f _ => process_eq f) hfine]
  cases buffersAll o <;> rfl

end StreamSerialize

namespace FileBackedObject

open FileSystem

/-! ### The runs -/

namespace Bytes

/-- An object, and an array in memory on which the same calls are made. -/
structure State where
  fs : FileSystem String
  object : FileBackedObject
  bytes : List UInt8

inductive Op where
  | read (offset length : Nat)
  | write (offset : Nat) (buf : List UInt8)
  | append (buf : List UInt8)
  | truncate (size : Nat)
  | serialize (obj : SerializableObject) (offset : Int)
  | openScope
  | closeScope

/-- What a call returns. -/
inductive Answer where
  /-- The number of bytes read, and the bytes. -/
  | bytes (cc : Nat) (buf : List UInt8)
  /-- The number of bytes written. -/
  | count (cc : Nat)
  /-- The result of an action, and the object it leaves. -/
  | serialized (ret : Int) (obj : SerializableObject)
  | done

/-- A call on the object. -/
def exec (s : State) : Op → Except Fault (Answer × FileSystem String × FileBackedObject)
  | .read offset length => do
    let (buf, res) ← readBytes s.fs s.object offset length
    pure (.bytes buf.length buf, res)
  | .write offset buf => do
    let res ← writeBytes s.fs s.object offset buf
    pure (.count buf.length, res)
  | .append buf => do
    let res ← appendBytes s.fs s.object buf
    pure (.count buf.length, res)
  | .truncate size => do
    let res ← FileBackedObject.truncate s.fs s.object size
    pure (.done, res)
  | .serialize obj offset => do
    let (ret, obj, res) ← FileBackedObject.serialize s.fs s.object obj offset
    pure (.serialized ret obj, res)
  | .openScope => do
    let res ← FileBackedObject.openScope s.fs s.object
    pure (.done, res)
  | .closeScope => pure (.done, FileBackedObject.closeScope s.fs s.object)

/-- The same call on an array in memory. `none` is a serialization that has no place in the
    array, or that goes wrong whatever it writes to. -/
def onArray (bytes : List UInt8) : Op → Option (Answer × List UInt8)
  | .read offset length =>
    let buf := (bytes.drop offset).take length
    some (.bytes buf.length buf, bytes)
  | .write offset buf => some (.count buf.length, writeAt bytes offset buf)
  | .append buf => some (.count buf.length, bytes ++ buf)
  | .truncate size => some (.done, resize bytes size)
  | .serialize obj offset =>
    let start := bytes.length + offset
    match (StreamSerialize.new ⟨[], fun _ => none⟩).action obj with
    | .error _ => none
    | .ok (ret, a, obj) =>
      if 0 ≤ start then some (.serialized ret obj, writeAt bytes start.toNat a.stream_.data)
      else none
  | .openScope | .closeScope => some (.done, bytes)

/-- The kernel transfers the bytes it is asked for, and a scope that is left has been
    entered. -/
def Enabled (s : State) : Op → Prop
  | .read offset length => ((s.bytes.drop offset).take length).length ≤ maxRwCount
  | .write offset buf => buf.length ≤ maxRwCount ∧ offset + buf.length < maxOffset
  | .append buf => buf.length ≤ maxRwCount ∧ s.bytes.length + buf.length < maxOffset
  | .serialize obj offset => ∀ bufs obj', StreamSerialize.buffersAll obj = .ok (bufs, obj') →
      (∀ buf ∈ bufs, buf.length ≤ maxRwCount) ∧
        s.bytes.length + offset + bufs.flatten.length < maxOffset
  | .closeScope => 0 < s.object.open_count_
  | _ => True

/-- An object on a file that holds the bytes of the array, in any directory, under any
    sequence of calls that return. -/
def system : TransitionSystem State Op where
  init s := (∃ i, At s.fs s.object i ∧ s.fs.data i = s.bytes) ∧ s.object.fd_ = none ∧
    s.object.open_count_ = 0
  step s op s' := Enabled s op ∧ ∃ answer fs object, exec s op = .ok (answer, fs, object) ∧
    s' = { fs, object, bytes := (onArray s.bytes op).elim s.bytes Prod.snd }

/-- An offset that is read at is not negative as an `off_t`, nor is a size to truncate to,
    and what is serialized does not start before the file. -/
def Careful (s : State) : Op → Prop
  | .read offset _ => offset < maxOffset
  | .truncate size => size < maxOffset
  | .serialize _ offset => 0 ≤ s.bytes.length + offset
  | _ => True

/-! ### What an array promises -/

/-- The object holds the bytes of the array, and its descriptor stands at `cur_offset_`. -/
structure AsArray (s : State) : Prop where
  content : content s.fs s.object = some s.bytes
  size : s.object.size s.fs = .ok s.bytes.length
  aligned : Aligned s.fs s.object

def Answers (s : State) (op : Op) : Prop :=
  ∀ answer bytes, onArray s.bytes op = some (answer, bytes) →
    ∃ fs' o', exec s op = .ok (answer, fs', o')

end Bytes

/-! ### Members keep the bytes -/

/-- The object is at an inode with the bytes, and its descriptor stands at `cur_offset_`. -/
structure Holds (fs : FileSystem String) (o : FileBackedObject) (i : Nat) (bytes : List UInt8) :
    Prop where
  at_ : At fs o i
  data : fs.data i = bytes
  aligned : Aligned fs o

section Holds

variable {fs fs' : FileSystem String} {o o' : FileBackedObject} {i fd offset size : Nat}
  {bytes buf : List UInt8}

@[simp] theorem data_close (fs : FileSystem String) (o : FileBackedObject) :
    (close fs o).1.data = fs.data := by
  unfold close
  split
  · rfl
  · split <;> rfl

theorem Holds.read (h : Holds fs o i bytes) {length : Nat} (hoffset : offset < maxOffset)
    (hlength : ((bytes.drop offset).take length).length ≤ maxRwCount) :
    ∃ fs' o', readBytes fs o offset length = .ok ((bytes.drop offset).take length, fs', o') ∧
      Holds fs' o' i bytes := by
  obtain ⟨fs', o', hread, haligned⟩ := readBytes_eq h.at_ h.aligned hoffset length
  obtain ⟨hstays, hdata⟩ := readBytes_stays h.at_ hread
  -- the kernel does not stop short
  have hslice : Durable.slice (fs.data i) offset length = (bytes.drop offset).take length := by
    unfold Durable.slice
    rw [h.data]
    rw [List.length_take] at hlength
    apply List.take_eq_take_iff.2
    omega
  rw [hslice] at hread
  exact ⟨fs', o', hread, hstays.stays, by rw [hdata, h.data], haligned⟩

theorem Holds.write (h : Holds fs o i bytes) (hlength : buf.length ≤ maxRwCount)
    (hfits : offset + buf.length < maxOffset) :
    ∃ fs' o', writeBytes fs o offset buf = .ok (fs', o') ∧
      Holds fs' o' i (writeAt bytes offset buf) := by
  obtain ⟨fd, fs₁, o₁, hopen, hstays, hfd, hdata₁⟩ := openFd_ok h.at_
  have hoffset : offset < maxOffset := by omega
  obtain ⟨fs₂, hseek, hdata₂, hfile⟩ :=
    seekTo_eq hstays.stays (openFd_aligned h.at_ h.aligned hopen) hfd hoffset
  have hassert : assert (decide (buf.length ≤ maxRwCount)) = .ok () := by
    rw [decide_eq_true hlength]
    rfl
  -- what the descriptor writes is written to the inode
  have hrun : ∃ fs' o', writeBytes fs o offset buf = .ok (fs', o') ∧
      fs'.data i = writeAt bytes offset buf := by
    unfold writeBytes
    rw [hopen, ok_bind]
    dsimp only
    rw [hseek, ok_bind]
    dsimp only
    rw [hassert, ok_bind, write_eq hfile]
    refine ⟨_, _, rfl, (congrFun (data_close _ _) i).trans ?_⟩
    show Function.update fs₂.data i _ i = _
    rw [Function.update_self, hdata₂, hdata₁, h.data]
  obtain ⟨fs', o', hwrite, hdata⟩ := hrun
  exact ⟨fs', o', hwrite, (writeBytes_stays h.at_ hwrite).stays, hdata,
    writeBytes_aligned h.at_ h.aligned hfits hwrite⟩

theorem Holds.append (h : Holds fs o i bytes) (hlength : buf.length ≤ maxRwCount)
    (hfits : bytes.length + buf.length < maxOffset) :
    ∃ fs' o', appendBytes fs o buf = .ok (fs', o') ∧ Holds fs' o' i (bytes ++ buf) := by
  obtain ⟨fd, fs₁, o₁, hopen, hstays, hfd, hdata₁⟩ := openFd_ok h.at_
  obtain ⟨off, hfile⟩ := hstays.stays.opened fd hfd
  have hend : fs₁.seekEnd fd = some (bytes.length, fs₁.setOffset fd bytes.length) := by
    unfold FileSystem.seekEnd
    rw [hfile]
    dsimp only
    rw [hdata₁, h.data]
  -- from the end of the file it is a write
  have hmoved : Holds (fs₁.setOffset fd bytes.length) { o₁ with cur_offset_ := bytes.length } i
      bytes := by
    have hopened := hstays.stays.opened fd hfd
    refine ⟨(hstays.stays.through { o₁ with cur_offset_ := bytes.length } hfd
      (touches_setOffset (fun f hf => hopened.inode_eq hf) _) (hopened.setOffset _)
      rfl rfl rfl).stays, ?_, ?_⟩
    · show fs₁.data i = bytes
      rw [hdata₁, h.data]
    · intro fd' f hfd' hf
      obtain rfl := Option.some.inj (hfd.symm.trans hfd')
      rw [files_setOffset hfile, Function.update_self] at hf
      rw [← Option.some.inj hf]
  obtain ⟨fs', o', hwrite, hholds⟩ := hmoved.write hlength hfits
  rw [writeAt_length] at hholds
  refine ⟨fs', o', ?_, hholds⟩
  unfold appendBytes
  rw [hopen, ok_bind]
  dsimp only
  rw [hend]
  exact hwrite

theorem Holds.truncate (h : Holds fs o i bytes) (hsize : size < maxOffset) :
    ∃ fs' o', truncate fs o size = .ok (fs', o') ∧ Holds fs' o' i (resize bytes size) := by
  obtain ⟨fd, fs₁, o₁, hopen, hstays, hfd, hdata₁⟩ := openFd_ok h.at_
  obtain ⟨off, hfile⟩ := hstays.stays.opened fd hfd
  have hassert : assert (decide (size < maxOffset)) = .ok () := by
    rw [decide_eq_true hsize]
    rfl
  have hresized : fs₁.truncate fd size = some (fs₁.setData i (resize bytes size)) := by
    unfold FileSystem.truncate
    rw [hfile]
    dsimp only
    rw [hdata₁, h.data]
  have hrun : ∃ fs' o', FileBackedObject.truncate fs o size = .ok (fs', o') ∧
      fs'.data i = resize bytes size := by
    unfold FileBackedObject.truncate
    rw [hopen, ok_bind]
    dsimp only
    rw [hassert, ok_bind, hresized]
    refine ⟨_, _, rfl, (congrFun (data_close _ _) i).trans ?_⟩
    exact Function.update_self ..
  obtain ⟨fs', o', htruncate, hdata⟩ := hrun
  exact ⟨fs', o', htruncate, (truncate_stays h.at_ htruncate).stays, hdata,
    truncate_aligned h.at_ h.aligned htruncate⟩

theorem Holds.openScope (h : Holds fs o i bytes) :
    ∃ fs' o', openScope fs o = .ok (fs', o') ∧ Holds fs' o' i bytes := by
  have hcount : At fs { o with open_count_ := o.open_count_ + 1 } i :=
    ⟨h.at_.linked, h.at_.name, h.at_.opened⟩
  obtain ⟨fd, fs', o', hopen, -⟩ := openFd_ok hcount
  have hscope : FileBackedObject.openScope fs o = .ok (fs', o') := by
    unfold FileBackedObject.openScope
    rw [hopen]
    rfl
  obtain ⟨hstays, hdata⟩ := openScope_stays h.at_ hscope
  exact ⟨fs', o', hscope, hstays.stays, by rw [hdata, h.data],
    openScope_aligned h.at_ h.aligned hscope⟩

theorem Holds.closeScope (h : Holds fs o i bytes) :
    Holds (closeScope fs o).1 (closeScope fs o).2 i bytes := by
  obtain ⟨hstays, hdata⟩ := closeScope_stays h.at_
  exact ⟨hstays.stays, by rw [hdata, h.data], closeScope_aligned h.aligned⟩

theorem Holds.size_eq (h : Holds fs o i bytes) : o.size fs = .ok bytes.length := by
  unfold FileBackedObject.size FileSystem.size
  rw [h.at_.name, Option.map_some, h.data]
  rfl

/-! ### `serialize` -/

theorem Holds.serializeSeek (h : Holds fs o i bytes) (hfd : o.fd_ = some fd)
    (hoffset : offset < maxOffset) :
    ∃ fs', serializeSeek fs o fd offset = .ok (fs', { o with cur_offset_ := offset }) ∧
      Holds fs' { o with cur_offset_ := offset } i bytes := by
  obtain ⟨off, hfile⟩ := h.at_.opened fd hfd
  unfold FileBackedObject.serializeSeek
  by_cases hsame : offset = o.cur_offset_
  · rw [if_pos hsame, hsame]
    exact ⟨fs, rfl, h⟩
  have hmoved : fs.seek fd offset = some (fs.setOffset fd offset) := by
    unfold FileSystem.seek
    rw [hfile]
  rw [if_neg hsame, if_pos hoffset, hmoved]
  have hopened := h.at_.opened fd hfd
  refine ⟨_, rfl, (h.at_.through { o with cur_offset_ := offset } hfd
    (touches_setOffset (fun f hf => hopened.inode_eq hf) _) (hopened.setOffset _)
    rfl rfl rfl).stays, h.data, ?_⟩
  intro fd' f hfd' hf
  obtain rfl := Option.some.inj (hfd.symm.trans hfd')
  rw [files_setOffset hfile, Function.update_self] at hf
  rw [← Option.some.inj hf]

theorem Holds.stream {bufs : List (List UInt8)} (hlength : ∀ buf ∈ bufs, buf.length ≤ maxRwCount)
    {s : FileBackedObjectOutStream} (h : Holds s.fs s.object_ i bytes)
    (hfits : s.offset_ + bufs.flatten.length < maxOffset) :
    ∃ s', bufs.foldlM FileBackedObjectOutStream.write s = .ok s' ∧
      Holds s'.fs s'.object_ i (writeAt bytes s.offset_ bufs.flatten) := by
  induction bufs generalizing s bytes with
  | nil => exact ⟨s, rfl, by simpa [writeAt] using h⟩
  | cons buf bufs ih =>
    rw [List.flatten_cons, List.length_append] at hfits
    have hhead : s.offset_ + buf.length < maxOffset := by omega
    obtain ⟨fs', o', hwrite, hholds⟩ := h.write (hlength buf (by simp)) hhead
    have hstep : s.write buf = .ok ⟨fs', o', s.offset_ + buf.length⟩ := by
      have hsum : (s.offset_ + buf.length) % 2 ^ 64 = s.offset_ + buf.length := by
        apply Nat.mod_eq_of_lt
        unfold maxOffset at hfits
        omega
      unfold FileBackedObjectOutStream.write
      rw [hwrite, ok_bind, hsum]
      rfl
    obtain ⟨s', hrun, hholds'⟩ := ih (fun b hb => hlength b (by simp [hb]))
      (s := ⟨fs', o', s.offset_ + buf.length⟩) hholds (by dsimp only; omega)
    refine ⟨s', ?_, ?_⟩
    · rw [List.foldlM_cons, hstep, ok_bind, hrun]
    · rwa [List.flatten_cons, ← writeAt_writeAt]

theorem Holds.serialize (h : Holds fs o i bytes) {obj obj' : SerializableObject}
    {bufs : List (List UInt8)} {offset : Int}
    (hbufs : StreamSerialize.buffersAll obj = .ok (bufs, obj'))
    (hlength : ∀ buf ∈ bufs, buf.length ≤ maxRwCount) (hstart : 0 ≤ bytes.length + offset)
    (hfits : bytes.length + offset + bufs.flatten.length < maxOffset) :
    ∃ fs' o', serialize fs o obj offset = .ok (0, obj', fs', o') ∧
      Holds fs' o' i (writeAt bytes (bytes.length + offset).toNat bufs.flatten) := by
  obtain ⟨fs₁, o₁, hscope, h₁⟩ := h.openScope
  obtain ⟨fd, fs₂, o₂, hopen, hstays, hfd, hdata⟩ := openFd_ok h₁.at_
  have h₂ : Holds fs₂ o₂ i bytes :=
    ⟨hstays.stays, by rw [hdata, h₁.data], openFd_aligned h₁.at_ h₁.aligned hopen⟩
  -- the sum does not wrap around
  have habs : (((bytes.length : Int) + offset) % 2 ^ 64).toNat =
      (bytes.length + offset).toNat := by
    unfold maxOffset at hfits
    omega
  have hoffset : (bytes.length + offset).toNat < maxOffset := by omega
  obtain ⟨fs₃, hseek, h₃⟩ := h₂.serializeSeek hfd hoffset
  obtain ⟨s', hstream, h₄⟩ := Holds.stream hlength
    (s := ⟨fs₃, { o₂ with cur_offset_ := (bytes.length + offset).toNat },
      (bytes.length + offset).toNat⟩) h₃ (by dsimp only; omega)
  refine ⟨_, _, ?_, h₄.closeScope⟩
  unfold FileBackedObject.serialize
  rw [hscope, ok_bind]
  dsimp only
  rw [hopen, ok_bind]
  dsimp only
  rw [h₂.size_eq, ok_bind, habs, hseek, ok_bind]
  dsimp only
  rw [hbufs, ok_bind]
  dsimp only
  rw [hstream, ok_bind]
  rfl

end Holds

/-! ### The run -/

namespace Bytes

variable {s s' : State} {op : Op} {i : Nat}

def Inv (s : State) : Prop := ∃ i, Holds s.fs s.object i s.bytes

theorem exec_holds (h : Holds s.fs s.object i s.bytes) (henabled : Enabled s op)
    (hcareful : Careful s op) {answer : Answer} {bytes : List UInt8}
    (harray : onArray s.bytes op = some (answer, bytes)) :
    ∃ fs' o', exec s op = .ok (answer, fs', o') ∧ Holds fs' o' i bytes := by
  cases op with
  | read offset length =>
    obtain ⟨rfl, rfl⟩ := Prod.mk.inj (Option.some.inj harray)
    obtain ⟨fs', o', hrun, hholds⟩ := h.read hcareful henabled
    exact ⟨fs', o', by rw [exec, hrun]; rfl, hholds⟩
  | write offset buf =>
    obtain ⟨rfl, rfl⟩ := Prod.mk.inj (Option.some.inj harray)
    obtain ⟨fs', o', hrun, hholds⟩ := h.write henabled.1 henabled.2
    exact ⟨fs', o', by rw [exec, hrun]; rfl, hholds⟩
  | append buf =>
    obtain ⟨rfl, rfl⟩ := Prod.mk.inj (Option.some.inj harray)
    obtain ⟨fs', o', hrun, hholds⟩ := h.append henabled.1 henabled.2
    exact ⟨fs', o', by rw [exec, hrun]; rfl, hholds⟩
  | truncate size =>
    obtain ⟨rfl, rfl⟩ := Prod.mk.inj (Option.some.inj harray)
    obtain ⟨fs', o', hrun, hholds⟩ := h.truncate hcareful
    exact ⟨fs', o', by rw [exec, hrun]; rfl, hholds⟩
  | serialize obj offset =>
    have hstart : 0 ≤ (s.bytes.length : Int) + offset := hcareful
    unfold onArray at harray
    dsimp only at harray
    rw [StreamSerialize.action_eq] at harray
    -- the stream in memory gets the buffers that the file gets
    cases hbufs : StreamSerialize.buffersAll obj with
    | error e =>
      rw [hbufs] at harray
      cases harray
    | ok res =>
    obtain ⟨bufs, obj'⟩ := res
    simp only [hbufs, map_ok, if_pos hstart] at harray
    obtain ⟨rfl, rfl⟩ := Prod.mk.inj (Option.some.inj harray)
    obtain ⟨hlength, hfits⟩ := henabled bufs obj' hbufs
    obtain ⟨fs', o', hrun, hholds⟩ := h.serialize hbufs hlength hstart hfits
    exact ⟨fs', o', by rw [exec, hrun]; rfl, hholds⟩
  | openScope =>
    obtain ⟨rfl, rfl⟩ := Prod.mk.inj (Option.some.inj harray)
    obtain ⟨fs', o', hrun, hholds⟩ := h.openScope
    exact ⟨fs', o', by rw [exec, hrun]; rfl, hholds⟩
  | closeScope =>
    obtain ⟨rfl, rfl⟩ := Prod.mk.inj (Option.some.inj harray)
    exact ⟨_, _, rfl, h.closeScope⟩

theorem buffersAll_of_serialize {fs : FileSystem String} {o : FileBackedObject}
    {obj : SerializableObject} {offset : Int}
    {res : Int × SerializableObject × FileSystem String × FileBackedObject}
    (hrun : FileBackedObject.serialize fs o obj offset = .ok res) :
    ∃ bufs, StreamSerialize.buffersAll obj = .ok bufs := by
  obtain ⟨_, -, hrest⟩ := bind_eq_ok.1 hrun
  obtain ⟨_, -, hrest⟩ := bind_eq_ok.1 hrest
  obtain ⟨_, -, hrest⟩ := bind_eq_ok.1 hrest
  obtain ⟨_, -, hrest⟩ := bind_eq_ok.1 hrest
  obtain ⟨bufs, hbufs, -⟩ := bind_eq_ok.1 hrest
  exact ⟨bufs, hbufs⟩

theorem onArray_of_exec (hcareful : Careful s op)
    {res : Answer × FileSystem String × FileBackedObject} (hexec : exec s op = .ok res) :
    ∃ answer bytes, onArray s.bytes op = some (answer, bytes) := by
  cases op with
  | serialize obj offset =>
    have hstart : 0 ≤ (s.bytes.length : Int) + offset := hcareful
    obtain ⟨_, hrun, -⟩ := bind_eq_ok.1 hexec
    obtain ⟨bufs, hbufs⟩ := buffersAll_of_serialize hrun
    unfold onArray
    dsimp only
    rw [StreamSerialize.action_eq, hbufs, map_ok]
    simp only [if_pos hstart]
    exact ⟨_, _, rfl⟩
  | _ => exact ⟨_, _, rfl⟩

theorem Inv.step (h : Inv s) (hcareful : Careful s op) (hstep : system.step s op s') : Inv s' := by
  obtain ⟨i, hholds⟩ := h
  obtain ⟨henabled, answer, fs, object, hexec, rfl⟩ := hstep
  obtain ⟨answer', bytes, harray⟩ := onArray_of_exec hcareful hexec
  obtain ⟨fs', o', hexec', hholds'⟩ := exec_holds hholds henabled hcareful harray
  obtain ⟨rfl, hfiles⟩ := Prod.mk.inj (Except.ok.inj (hexec.symm.trans hexec'))
  obtain ⟨rfl, rfl⟩ := Prod.mk.inj hfiles
  refine ⟨i, ?_⟩
  rw [harray]
  exact hholds'

/-- In every run whose calls are careful, the object holds what the array holds, its
    `cur_offset_` is the offset of its descriptor, and the next careful call returns what
    the array returns. -/
theorem asArray_of_careful {s : State} (hs : system.ReachableWith Careful s) :
    AsArray s ∧ ∀ op, Enabled s op → Careful s op → Answers s op := by
  obtain ⟨i, hholds⟩ : Inv s := by
    apply hs.invariant
    · rintro s ⟨⟨i, hat, hdata⟩, hfd, -⟩
      refine ⟨i, hat, hdata, fun fd f hopen => ?_⟩
      rw [hfd] at hopen
      cases hopen
    · exact fun s op s' h hcareful hstep => h.step hcareful hstep
  refine ⟨⟨?_, hholds.size_eq, hholds.aligned⟩, fun op henabled hcareful answer bytes harray => ?_⟩
  · rw [hholds.at_.content, hholds.data]
  · obtain ⟨fs', o', hexec, -⟩ := exec_holds hholds henabled hcareful harray
    exact ⟨fs', o', hexec⟩

def State.new (filename : String) (bytes : List UInt8) : State where
  fs := directory filename bytes
  object := .new filename 0
  bytes := bytes

theorem init_new (filename : String) (bytes : List UInt8) : system.init (.new filename bytes) :=
  ⟨⟨0, ⟨rfl, by exact AList.lookup_insert _, nofun⟩, rfl⟩, rfl, rfl⟩

theorem enabled_byte (x : UInt8) {offset : Int} (hfits : s.bytes.length + offset + 1 < maxOffset) :
    Enabled s (.serialize [.fixed (.u8 x)] offset) := by
  intro bufs obj' hbufs
  obtain ⟨rfl, rfl⟩ := Prod.mk.inj (Except.ok.inj hbufs)
  refine ⟨fun buf hbuf => ?_, hfits⟩
  obtain rfl := List.mem_singleton.1 hbuf
  exact Nat.le_of_ble_eq_true rfl

/-- An object that is held open, with a gap that a write has left. -/
theorem asArray_of_careful_gap : ∃ s : State, s.bytes = [1, 2, 3, 0, 7] ∧ AsArray s ∧
    Answers s (.serialize [.fixed (.u8 9)] (-2)) := by
  have hopen : system.ReachableWith Careful _ :=
    .step (a := .openScope) (.init (init_new "a" [1, 2, 3])) trivial
      ⟨trivial, .done, _, _, rfl, rfl⟩
  have hwrite : system.ReachableWith Careful _ :=
    .step (a := .write 4 [7]) hopen trivial ⟨⟨by decide, by decide⟩, .count 1, _, _, rfl, rfl⟩
  obtain ⟨harray, hnext⟩ := asArray_of_careful hwrite
  have hstart : (0 : Int) ≤ ([1, 2, 3, 0, 7] : List UInt8).length + (-2) := by decide
  exact ⟨_, rfl, harray, hnext _ (enabled_byte 9 (by decide)) hstart⟩

/-- Without the condition it does not: a `serialize` that would start before the file leaves
    `cur_offset_` behind the descriptor. -/
theorem not_asArray_before_start : ¬ ∀ s : State, system.Reachable s →
    AsArray s ∧ ∀ op, Enabled s op → Answers s op := by
  intro h
  have hopen : system.Reachable _ :=
    .step (a := .openScope) (.init (init_new "a" [1, 2, 3])) trivial
      ⟨trivial, .done, _, _, rfl, rfl⟩
  have hserialize : system.Reachable _ :=
    .step (a := .serialize [.fixed (.u8 9)] (-5)) hopen trivial
      ⟨enabled_byte 9 (by decide), .serialized 0 _, _, _, rfl, rfl⟩
  have haligned := (h _ hserialize).1.aligned
  exact absurd (haligned 0 ⟨0, 1⟩ rfl rfl) (by decide)

/-! ### Where the conditions do not hold -/

/-- The seek of `serialize` to an offset that is negative as an `off_t`, in a file that is not
    empty, leaves the descriptor where it is and sets `cur_offset_` to the last `size_t`. -/
theorem serializeSeek_refused {fs : FileSystem String} {o : FileBackedObject} {bytes : List UInt8}
    {fd abs_offset : Nat} (h : Holds fs o i bytes) (hbytes : bytes ≠ [])
    (hne : abs_offset ≠ o.cur_offset_) (hnegative : maxOffset ≤ abs_offset) :
    serializeSeek fs o fd abs_offset = .ok (fs, { o with cur_offset_ := 2 ^ 64 - 1 }) := by
  have hlength : bytes.length ≠ 0 := by simpa using hbytes
  unfold serializeSeek
  rw [if_neg hne, if_neg (by omega), h.size_eq, ok_bind, if_neg hlength]
  rfl

/-- A read at the last `size_t` passes the assertion on its seek, and returns the bytes where
    the descriptor stands. -/
theorem readBytes_refused {fs : FileSystem String} {o : FileBackedObject} {bytes : List UInt8}
    {fd length : Nat} (h : Holds fs o i bytes) (hbytes : bytes ≠ []) (hfd : o.fd_ = some fd)
    (hoffset : o.cur_offset_ < maxOffset) (hlength : length ≤ maxRwCount) :
    ∃ fs' o', readBytes fs o (2 ^ 64 - 1) length =
      .ok ((bytes.drop o.cur_offset_).take length, fs', o') := by
  obtain ⟨off, hfile⟩ := h.at_.opened fd hfd
  have hoff : off = o.cur_offset_ := h.aligned fd _ hfd hfile
  have hne : o.cur_offset_ ≠ 2 ^ 64 - 1 := by
    unfold maxOffset at hoffset
    omega
  have hnonempty : bytes.length ≠ 0 := by simpa using hbytes
  have hseek : seekTo fs o fd (2 ^ 64 - 1) = .ok (fs, { o with cur_offset_ := 2 ^ 64 - 1 }) := by
    unfold seekTo FileSystem.size
    rw [if_neg hne, if_neg (by decide), h.at_.name, Option.map_some, h.data]
    simp [hnonempty]
  unfold readBytes
  rw [openFd_open h.at_ hfd, ok_bind]
  dsimp only
  rw [hseek, ok_bind]
  dsimp only
  rw [read_eq hfile, Nat.min_eq_left hlength, hoff, h.data]
  exact ⟨_, _, rfl⟩

end Bytes

end FileBackedObject

end Oasys
