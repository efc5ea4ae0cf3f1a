import Oasys.Io.FileCopy

/-!
# Correctness of the copy loops

What a loop has written and what is left to read are the source at every round. `fast_copy`
takes a read that fails for the end of the file where the write after it fails too
(`fastCopyLoop_ok`), as it does for a count of -1. `copy_contents` takes a length that is a
multiple of 2^32 for none, and then copies up to the end of the file (`copyContentsLoop_zero`).
-/

namespace Oasys.Io.FileCopy

/-! ### Reading -/

section Reading

variable {rest : List UInt8} {n len : Nat}

theorem readSize_pos (n : Nat) (h : 0 < len) : 0 < readSize n len := by
  simp only [readSize]
  omega

theorem readSize_le (n len : Nat) : readSize n len ≤ len :=
  Nat.min_le_left _ _

theorem take_readSize_eq_nil (h : 0 < len) : rest.take (readSize n len) = [] ↔ rest = [] := by
  rw [List.take_eq_nil_iff]
  exact or_iff_right (readSize_pos n h).ne'

end Reading

/-! ### fast_copy -/

/-- How many bytes the read of a round gets at most. -/
def FastCopyRound.size (r : FastCopyRound) : Nat :=
  match r.read with
  | .upTo n => readSize n BUFSIZE
  | .error _ => 0

/-- The read of a round does not fail, and the write takes what the read gets. -/
def FastCopyRound.Full (r : FastCopyRound) : Prop :=
  ∃ n k, r.read = .upTo n ∧ r.write = .took k ∧ readSize n BUFSIZE ≤ k

/-- A read and the write after it fail alike before the source has been read, and no write has
    fallen short before them. -/
def CutShort (length : Nat) (rounds : List FastCopyRound) : Prop :=
  ∃ before k after, rounds = before ++ ⟨.error k, .error k⟩ :: after ∧
    (∀ r ∈ before, r.Full) ∧ (before.map FastCopyRound.size).sum < length

section FastCopy

variable {rest dest dest' : List UInt8} {r : FastCopyRound} {rounds : List FastCopyRound}

theorem CutShort.cons {length : Nat} (h : CutShort (length - r.size) rounds) (hfull : r.Full)
    (hsize : r.size ≤ length) : CutShort length (r :: rounds) := by
  obtain ⟨before, k, after, rfl, hall, hsum⟩ := h
  refine ⟨r :: before, k, after, rfl, ?_, ?_⟩
  · intro q hq
    obtain rfl | hq := List.mem_cons.1 hq
    · exact hfull
    · exact hall q hq
  · rw [List.map_cons, List.sum_cons]
    omega

theorem fastCopyLoop_error (rest dest : List UInt8) (k : Nat) (rounds : List FastCopyRound) :
    fastCopyLoop rest dest (⟨.error k, .error k⟩ :: rounds) = .ok dest := by
  simp [fastCopyLoop, Reading.read, Acceptance.write]

theorem toSize_length (n : Nat) (rest : List UInt8) :
    BufferedInput.toSize ((rest.take (readSize n BUFSIZE)).length : Int) =
      (rest.take (readSize n BUFSIZE)).length := by
  have hle := readSize_le n BUFSIZE
  have hsize : BUFSIZE = 8192 := rfl
  rw [BufferedInput.toSize, List.length_take]
  omega

theorem fastCopyLoop_took {n k : Nat} (hread : r.read = .upTo n) (hwrite : r.write = .took k)
    (hk : min (readSize n BUFSIZE) rest.length ≤ k) :
    fastCopyLoop rest dest (r :: rounds) =
      if rest = [] then .ok dest
      else fastCopyLoop (rest.drop (readSize n BUFSIZE)) (dest ++ rest.take (readSize n BUFSIZE))
        rounds := by
  have hle := readSize_le n BUFSIZE
  have hsize : BUFSIZE = 8192 := rfl
  have hnil : rest.take (readSize n BUFSIZE) = [] ↔ rest = [] := take_readSize_eq_nil (by decide)
  have hlength : (rest.take (readSize n BUFSIZE)).length = min (readSize n BUFSIZE) rest.length :=
    List.length_take
  have hdrop : rest.drop (rest.take (readSize n BUFSIZE)).length =
      rest.drop (readSize n BUFSIZE) := by
    rw [hlength, ← List.drop_eq_drop_min]
  generalize hdata : rest.take (readSize n BUFSIZE) = data at *
  have hdd : (Acceptance.took k).write data.length = data.length := by
    simp only [Acceptance.write]
    omega
  simp only [fastCopyLoop, hread, hwrite, Reading.read, ← hdata, toSize_length]
  simp only [hdata, hdd, decide_true, assert_true, ok_bind, Int.toNat_natCast, List.take_length,
    hdrop]
  by_cases hrest : rest = []
  · obtain rfl := hnil.2 hrest
    simp [hrest]
  · have hpos : 0 < data.length := List.length_pos_iff.2 (mt hnil.1 hrest)
    rw [if_neg hrest, if_pos (by omega)]

theorem write_of_fastCopyLoop {n : Nat} (hread : r.read = .upTo n)
    (h : fastCopyLoop rest dest (r :: rounds) = .ok dest') :
    ∃ k, r.write = .took k ∧ min (readSize n BUFSIZE) rest.length ≤ k := by
  simp only [fastCopyLoop, hread, Reading.read, toSize_length] at h
  obtain ⟨hdd, -⟩ := assert_bind_eq_ok.1 h
  have hcount := of_decide_eq_true hdd
  rw [List.length_take] at hcount
  cases hwrite : r.write with
  | took k =>
    rw [hwrite, Acceptance.write] at hcount
    exact ⟨k, rfl, by omega⟩
  | error k =>
    rw [hwrite, Acceptance.write] at hcount
    omega

theorem fastCopyLoop_error_ok {k : Nat} (hread : r.read = .error k)
    (h : fastCopyLoop rest dest (r :: rounds) = .ok dest') :
    r = ⟨.error k, .error k⟩ ∧ dest' = dest := by
  obtain ⟨read, write⟩ := r
  obtain rfl : read = .error k := hread
  have hrun := h
  simp only [fastCopyLoop, Reading.read] at h
  obtain ⟨hdd, -⟩ := assert_bind_eq_ok.1 h
  have hcount := of_decide_eq_true hdd
  cases write with
  | took m =>
    rw [Acceptance.write] at hcount
    omega
  | error m =>
    rw [Acceptance.write] at hcount
    obtain rfl : m = k := by omega
    rw [fastCopyLoop_error] at hrun
    exact ⟨rfl, (Except.ok.inj hrun).symm⟩

/-- Where the loop ends it has copied what was left, or it was cut short. -/
theorem fastCopyLoop_ok (h : fastCopyLoop rest dest rounds = .ok dest') :
    dest' = dest ++ rest ∨ CutShort rest.length rounds := by
  -- the induction is on the rounds; what is written and what is left stay the source
  induction rounds generalizing rest dest with
  | nil => cases h
  | cons r rounds ih =>
    cases hread : r.read with
    | error k =>
      obtain ⟨rfl, rfl⟩ := fastCopyLoop_error_ok hread h
      by_cases hrest : rest = []
      · left
        rw [hrest, List.append_nil]
      · right
        exact ⟨[], k, rounds, rfl, nofun, List.length_pos_iff.2 hrest⟩
    | upTo n =>
      obtain ⟨k, hwrite, hk⟩ := write_of_fastCopyLoop hread h
      rw [fastCopyLoop_took hread hwrite hk] at h
      by_cases hrest : rest = []
      · rw [if_pos hrest] at h
        left
        rw [hrest, List.append_nil, ← Except.ok.inj h]
      · rw [if_neg hrest] at h
        obtain hcopied | hcut := ih h
        · left
          rw [hcopied, List.append_assoc, List.take_append_drop]
        · right
          rw [List.length_drop] at hcut
          have hsize : r.size = readSize n BUFSIZE := by rw [FastCopyRound.size, hread]
          rw [← hsize] at hcut hk
          have hless : r.size ≤ rest.length := by
            obtain ⟨_, _, _, _, _, hsum⟩ := hcut
            omega
          rw [Nat.min_eq_left hless, hsize] at hk
          exact hcut.cons ⟨n, k, hread, hwrite, hk⟩ hless

theorem fastCopyLoop_cutShort (h : CutShort rest.length rounds) :
    ∃ n, n < rest.length ∧ fastCopyLoop rest dest rounds = .ok (dest ++ rest.take n) := by
  obtain ⟨before, k, after, rfl, hfull, hsum⟩ := h
  -- the induction is on the rounds before the read that fails
  induction before generalizing rest dest with
  | nil =>
    refine ⟨0, hsum, ?_⟩
    rw [List.nil_append, fastCopyLoop_error, List.take_zero, List.append_nil]
  | cons r before ih =>
    obtain ⟨n, m, hread, hwrite, hm⟩ := hfull r List.mem_cons_self
    have hsize : r.size = readSize n BUFSIZE := by rw [FastCopyRound.size, hread]
    rw [List.map_cons, List.sum_cons, hsize] at hsum
    have hne : rest ≠ [] := List.length_pos_iff.1 (by omega)
    have hleft : (before.map FastCopyRound.size).sum <
        (rest.drop (readSize n BUFSIZE)).length := by
      rw [List.length_drop]
      omega
    obtain ⟨j, hj, hrun⟩ := @ih (rest.drop (readSize n BUFSIZE))
      (dest ++ rest.take (readSize n BUFSIZE)) (fun q hq => hfull q (List.mem_cons_of_mem r hq))
      hleft
    rw [List.length_drop] at hj
    refine ⟨readSize n BUFSIZE + j, by omega, ?_⟩
    rw [List.cons_append, fastCopyLoop_took hread hwrite (by omega), if_neg hne, hrun,
      List.append_assoc, List.take_add]

theorem fastCopy_complete_iff (src_fd dest_fd err : Int) (source : List UInt8)
    (rounds : List FastCopyRound) :
    (∀ dest, fastCopy src_fd dest_fd err source rounds = .ok (0, dest) → dest = source) ↔
      ¬ (src_fd ≠ -1 ∧ dest_fd ≠ -1 ∧ err ≠ -1 ∧ CutShort source.length rounds) := by
  constructor
  · rintro hcomplete ⟨hsrc, hdest, herr, hcut⟩
    obtain ⟨n, hn, hrun⟩ := @fastCopyLoop_cutShort source [] rounds hcut
    have hcopy : fastCopy src_fd dest_fd err source rounds = .ok (0, source.take n) := by
      rw [fastCopy, if_neg hsrc, if_neg hdest, decide_eq_true herr, assert_true, ok_bind, hrun]
      rfl
    have hlength := congrArg List.length (hcomplete _ hcopy)
    rw [List.length_take] at hlength
    omega
  · intro hcut dest hcopy
    rw [fastCopy] at hcopy
    by_cases hsrc : src_fd = -1
    · rw [if_pos hsrc] at hcopy
      cases hcopy
    · by_cases hdest : dest_fd = -1
      · rw [if_neg hsrc, if_pos hdest] at hcopy
        cases hcopy
      · rw [if_neg hsrc, if_neg hdest] at hcopy
        obtain ⟨herr, hcopy⟩ := assert_bind_eq_ok.1 hcopy
        obtain ⟨copied, hrun, hcopied⟩ := bind_eq_ok.1 hcopy
        obtain ⟨-, rfl⟩ := Prod.mk.inj (Except.ok.inj hcopied)
        obtain hall | hshort := fastCopyLoop_ok hrun
        · exact hall
        · exact absurd ⟨hsrc, hdest, of_decide_eq_true herr, hshort⟩ hcut

end FastCopy

/-! ### writeall -/

/-- The writes take all of `n` bytes, some at each time. -/
inductive Accepts : Nat → List Acceptance → Prop
  | done (answers : List Acceptance) : Accepts 0 answers
  | took {n k : Nat} {answers : List Acceptance} (hpos : 0 < n) (hk : 0 < k)
      (h : Accepts (n - k) answers) : Accepts n (.took k :: answers)

section Writeall

variable {total ret : Int} {left written bp : List UInt8} {answers : List Acceptance}

theorem write_took {n : Nat} (hn : n < 2 ^ 31) (k : Nat) :
    (Acceptance.took k).write n = (min k n : Nat) := by
  simp only [Acceptance.write]
  omega

theorem writeallLoop_accepts (h : Accepts left.length answers) (hfits : left.length < 2 ^ 31) :
    writeallLoop total left answers = .ok (total, left) := by
  -- the induction is on the writes
  induction answers generalizing left with
  | nil =>
    obtain rfl : left = [] := by
      cases hlength : left.length with
      | zero => exact List.length_eq_zero_iff.1 hlength
      | succ n =>
        rw [hlength] at h
        cases h
    rfl
  | cons a answers ih =>
    rw [writeallLoop.eq_def]
    by_cases hpos : left.length > 0
    · rw [if_pos hpos]
      generalize hlength : left.length = n at h
      obtain _ | @⟨_, k, _, _, hk, hrest⟩ := h
      · omega
      · subst hlength
        have hcc := write_took hfits k
        have hleft : Accepts (left.drop (min k left.length)).length answers := by
          rw [← List.drop_eq_drop_min, List.length_drop]
          exact hrest
        have hless : (left.drop (min k left.length)).length < 2 ^ 31 := by
          rw [List.length_drop]
          omega
        dsimp only
        rw [hcc, if_neg (by omega), Int.toNat_natCast, ih hleft hless]
        simp [List.take_append_drop]
    · rw [if_neg hpos, List.length_eq_zero_iff.1 (by omega : left.length = 0)]
      rfl

/-- A positive result says that the writes have taken everything. -/
theorem accepts_of_writeallLoop (h : writeallLoop total left answers = .ok (ret, written))
    (hret : 0 < ret) (hfits : left.length < 2 ^ 31) :
    Accepts left.length answers ∧ ret = total ∧ written = left := by
  induction answers generalizing left written with
  | nil =>
    rw [writeallLoop.eq_def] at h
    split at h
    · cases h
    · rename_i hpos
      obtain rfl := List.length_eq_zero_iff.1 (by omega : left.length = 0)
      obtain ⟨rfl, rfl⟩ := Prod.mk.inj (Except.ok.inj h)
      exact ⟨.done [], rfl, rfl⟩
  | cons a answers ih =>
    rw [writeallLoop.eq_def] at h
    split at h
    · rename_i hpos
      dsimp only at h
      by_cases hcc : a.write left.length ≤ 0
      · rw [if_pos hcc] at h
        obtain ⟨rfl, rfl⟩ := Prod.mk.inj (Except.ok.inj h)
        omega
      · rw [if_neg hcc] at h
        cases a with
        | error k =>
          rw [Acceptance.write] at hcc
          omega
        | took k =>
          rw [write_took hfits] at h hcc
          rw [Int.toNat_natCast] at h
          obtain ⟨⟨_, rest⟩, hrun, h⟩ := bind_eq_ok.1 h
          obtain ⟨rfl, rfl⟩ := Prod.mk.inj (Except.ok.inj h)
          have hless : (left.drop (min k left.length)).length < 2 ^ 31 := by
            rw [List.length_drop]
            omega
          obtain ⟨haccepts, htotal, hrest⟩ := ih hrun hless
          rw [← List.drop_eq_drop_min, List.length_drop] at haccepts
          refine ⟨.took hpos (by omega) haccepts, htotal, ?_⟩
          rw [hrest, List.take_append_drop]
    · rename_i hpos
      obtain rfl := List.length_eq_zero_iff.1 (by omega : left.length = 0)
      obtain ⟨rfl, rfl⟩ := Prod.mk.inj (Except.ok.inj h)
      exact ⟨.done _, rfl, rfl⟩

theorem writeall_accepts (h : Accepts bp.length answers) (hfits : bp.length < 2 ^ 31) :
    writeall bp answers = .ok ((bp.length : Int), bp) := by
  rw [writeall, IntType.int_conv_of_lt hfits]
  exact writeallLoop_accepts h hfits

theorem accepts_of_writeall (h : writeall bp answers = .ok ((bp.length : Int), written))
    (hpos : 0 < bp.length) (hfits : bp.length < 2 ^ 31) :
    Accepts bp.length answers ∧ written = bp := by
  rw [writeall, IntType.int_conv_of_lt hfits] at h
  obtain ⟨haccepts, -, hwritten⟩ := accepts_of_writeallLoop h (by omega) hfits
  exact ⟨haccepts, hwritten⟩

end Writeall

/-! ### copy_contents -/

/-- The reads and the writes copy everything that is left, up to the end of the file. -/
inductive Completes : Nat → List CopyRound → Prop
  | eof (n : Nat) (writes : List Acceptance) (rounds : List CopyRound) :
      Completes 0 (⟨.upTo n, writes⟩ :: rounds)
  | round {left n : Nat} {writes : List Acceptance} {rounds : List CopyRound} (hleft : 0 < left)
      (hwrites : Accepts (min (readSize n sizeofBuf) left) writes)
      (h : Completes (left - readSize n sizeofBuf) rounds) :
      Completes left (⟨.upTo n, writes⟩ :: rounds)

/-- `dest` is what `copy_contents` is asked to copy: the first `len` bytes, or all of them. -/
def Copied (source : List UInt8) (len : Nat) (dest : List UInt8) : Prop :=
  if len = 0 then dest = source else len ≤ source.length ∧ dest = source.take len

section CopyContents

variable {B : Build} {origlen total ret : Int} {len n : Nat} {rest dest dest' : List UInt8}
  {r : CopyRound} {rounds : List CopyRound}

theorem read_of_copyContentsLoop (hret : 0 ≤ ret)
    (h : copyContentsLoop B origlen len total rest dest (r :: rounds) = .ok (ret, dest')) :
    ∃ n, r.read = .upTo n := by
  cases hread : r.read with
  | upTo n => exact ⟨n, rfl⟩
  | error k =>
    have hneg : (-((k : Int) + 1)) < 0 := by omega
    simp only [copyContentsLoop, hread, Reading.read, if_pos hneg] at h
    obtain ⟨rfl, -⟩ := Prod.mk.inj (Except.ok.inj h)
    omega

theorem copyContentsLoop_eof (B : Build) (origlen : Int) (len : Nat) (total : Int)
    (dest : List UInt8) (hread : r.read = .upTo n) (rounds : List CopyRound) :
    copyContentsLoop B origlen len total [] dest (r :: rounds) =
      if origlen ≠ 0 && len ≠ 0 then .ok (-1, dest) else .ok (total, dest) := by
  simp only [copyContentsLoop, hread, Reading.read, List.take_nil, List.length_nil,
    Nat.cast_zero, lt_irrefl, if_false, if_true]
  rfl

theorem length_take_readSize {k : Nat} (hrest : rest ≠ []) (hk : 0 < k) (hbuf : k ≤ sizeofBuf) :
    (rest.take (readSize n k)).length = min (readSize n k) rest.length ∧
      0 < (rest.take (readSize n k)).length ∧ (rest.take (readSize n k)).length < 2 ^ 31 := by
  have hpos := readSize_pos n hk
  have hle := readSize_le n k
  have hsize : sizeofBuf = 4096 := rfl
  have hlength := List.length_pos_iff.2 hrest
  rw [List.length_take]
  omega

theorem copyContentsLoop_accepts {k : Nat} (hread : r.read = .upTo n) (hrest : rest ≠ [])
    (hk : (if origlen = 0 then sizeofBuf else min len sizeofBuf) = k) (hpos : 0 < k)
    (hbuf : k ≤ sizeofBuf) (haccepts : Accepts (min (readSize n k) rest.length) r.writes) :
    copyContentsLoop B origlen len total rest dest (r :: rounds) = (do
      let total ← IntType.int.arith B (total + (min (readSize n k) rest.length : Nat))
      if origlen ≠ 0 then
        if len - min (readSize n k) rest.length = 0 then
          pure (total, dest ++ rest.take (readSize n k))
        else
          copyContentsLoop B origlen (len - min (readSize n k) rest.length) total
            (rest.drop (readSize n k)) (dest ++ rest.take (readSize n k)) rounds
      else
        copyContentsLoop B origlen len total (rest.drop (readSize n k))
          (dest ++ rest.take (readSize n k)) rounds) := by
  obtain ⟨hlength, hdata, hfits⟩ := @length_take_readSize n rest k hrest hpos hbuf
  have hdrop : rest.drop (rest.take (readSize n k)).length = rest.drop (readSize n k) := by
    rw [hlength, ← List.drop_eq_drop_min]
  rw [← hlength] at haccepts ⊢
  generalize hbytes : rest.take (readSize n k) = data at *
  have hwrite := writeall_accepts haccepts hfits
  have hcc : ¬ ((data.length : Int) < 0) := by omega
  have hne : ¬ ((data.length : Int) = 0) := by omega
  simp only [copyContentsLoop, hread, Reading.read, hk, hbytes, if_neg hcc, if_neg hne, hwrite,
    ok_bind, ne_eq, not_true_eq_false, if_false, hdrop]

theorem accepts_of_copyContentsLoop {k : Nat} (hread : r.read = .upTo n) (hrest : rest ≠ [])
    (hk : (if origlen = 0 then sizeofBuf else min len sizeofBuf) = k) (hpos : 0 < k)
    (hbuf : k ≤ sizeofBuf) (hret : 0 ≤ ret)
    (h : copyContentsLoop B origlen len total rest dest (r :: rounds) = .ok (ret, dest')) :
    Accepts (min (readSize n k) rest.length) r.writes := by
  obtain ⟨hlength, hdata, hfits⟩ := @length_take_readSize n rest k hrest hpos hbuf
  rw [← hlength]
  generalize hbytes : rest.take (readSize n k) = data at *
  have hcc : ¬ ((data.length : Int) < 0) := by omega
  have hne : ¬ ((data.length : Int) = 0) := by omega
  simp only [copyContentsLoop, hread, Reading.read, hk, hbytes, if_neg hcc, if_neg hne] at h
  obtain ⟨⟨count, written⟩, hwrite, h⟩ := bind_eq_ok.1 h
  by_cases hcount : count = (data.length : Int)
  · subst hcount
    exact (accepts_of_writeall hwrite hdata hfits).1
  · rw [if_pos hcount] at h
    obtain ⟨rfl, -⟩ := Prod.mk.inj (Except.ok.inj h)
    omega

theorem copyContentsLoop_len (horiglen : origlen ≠ 0) (hlen : 0 < len) (hret : 0 ≤ ret)
    (h : copyContentsLoop B origlen len total rest dest rounds = .ok (ret, dest')) :
    len ≤ rest.length ∧ dest' = dest ++ rest.take len := by
  -- the induction is on the rounds; each of them reads no more than what is left to copy
  induction rounds generalizing len total rest dest with
  | nil => cases h
  | cons r rounds ih =>
    obtain ⟨n, hread⟩ := read_of_copyContentsLoop hret h
    have hbuf : 0 < sizeofBuf := by decide
    have hk : (if origlen = 0 then sizeofBuf else min len sizeofBuf) = min len sizeofBuf :=
      if_neg horiglen
    by_cases hrest : rest = []
    · subst hrest
      have hshort : (decide (origlen ≠ 0) && decide (len ≠ 0)) = true := by
        simp [horiglen, hlen.ne']
      rw [copyContentsLoop_eof B origlen len total dest hread, if_pos hshort] at h
      obtain ⟨rfl, -⟩ := Prod.mk.inj (Except.ok.inj h)
      omega
    · have haccepts := accepts_of_copyContentsLoop hread hrest hk (by omega) (by omega) hret h
      rw [copyContentsLoop_accepts hread hrest hk (by omega) (by omega) haccepts] at h
      have hle := readSize_le n (min len sizeofBuf)
      generalize readSize n (min len sizeofBuf) = m at *
      obtain ⟨total', -, h⟩ := bind_eq_ok.1 h
      rw [if_pos horiglen] at h
      by_cases hdone : len - min m rest.length = 0
      · rw [if_pos hdone] at h
        obtain ⟨-, rfl⟩ := Prod.mk.inj (Except.ok.inj h)
        obtain rfl : m = len := by omega
        exact ⟨by omega, rfl⟩
      · rw [if_neg hdone] at h
        obtain ⟨hfits, rfl⟩ := ih (by omega) h
        rw [List.length_drop] at hfits
        have hcount : min m rest.length = m := by omega
        refine ⟨by omega, ?_⟩
        rw [List.append_assoc, hcount, ← List.take_add]
        congr 2
        omega

theorem arith_add {m c : Nat} (h : IntType.int.arith B m = .ok total) :
    IntType.int.arith B (total + c) = IntType.int.arith B ((m + c : Nat) : Int) := by
  by_cases hundefined : IntType.int.Undefined B
  · have hm : IntType.int.InRange m := by
      by_contra hout
      rw [IntType.arith_of_undefined hundefined hout] at h
      cases h
    rw [IntType.arith_of_inRange B hm] at h
    rw [← Except.ok.inj h, Nat.cast_add]
  · have hwidth : IntType.intWidth ≤ IntType.int.width := le_refl _
    rw [IntType.arith_of_wraps hwidth hundefined] at h ⊢
    rw [IntType.arith_of_wraps hwidth hundefined, ← Except.ok.inj h, IntType.int_conv,
      IntType.int_conv, IntType.int_conv]
    apply congrArg Except.ok
    omega

theorem arith_of_add {m c : Nat} (h : IntType.int.arith B ((m + c : Nat) : Int) = .ok total) :
    ∃ before, IntType.int.arith B m = .ok before := by
  by_cases hundefined : IntType.int.Undefined B
  · have hmax : IntType.int.max = 2 ^ 31 - 1 := by decide
    have hmin : IntType.int.min = -(2 ^ 31) := by decide
    have hsum : IntType.int.InRange ((m + c : Nat) : Int) := by
      by_contra hout
      rw [IntType.arith_of_undefined hundefined hout] at h
      cases h
    have hm : IntType.int.InRange m := by
      simp only [IntType.InRange] at hsum ⊢
      omega
    exact ⟨_, IntType.arith_of_inRange B hm⟩
  · exact ⟨_, IntType.arith_of_wraps (le_refl _) hundefined m⟩

theorem copyContentsLoop_zero {m : Nat} (htotal : IntType.int.arith B m = .ok total)
    (hret : 0 ≤ ret) :
    copyContentsLoop B 0 len total rest dest rounds = .ok (ret, dest') ↔
      Completes rest.length rounds ∧ IntType.int.arith B ((m + rest.length : Nat) : Int) = .ok ret ∧
        dest' = dest ++ rest := by
  have hk : (if (0 : Int) = 0 then sizeofBuf else min len sizeofBuf) = sizeofBuf := if_pos rfl
  have hpos : 0 < sizeofBuf := by decide
  -- the induction is on the rounds, with what is left of the file
  induction rounds generalizing m total rest dest with
  | nil =>
    constructor
    · intro h
      cases h
    · rintro ⟨h, -⟩
      generalize rest.length = left at h
      cases h
  | cons r rounds ih =>
    by_cases hrest : rest = []
    · subst hrest
      rw [List.length_nil, Nat.add_zero, htotal, List.append_nil]
      constructor
      · intro h
        obtain ⟨n, hread⟩ := read_of_copyContentsLoop hret h
        obtain ⟨read, writes⟩ := r
        obtain rfl : read = .upTo n := hread
        rw [copyContentsLoop_eof B 0 len total dest rfl, if_neg (by simp)] at h
        obtain ⟨rfl, rfl⟩ := Prod.mk.inj (Except.ok.inj h)
        exact ⟨.eof n writes rounds, rfl, rfl⟩
      · rintro ⟨hcompletes, hresult, rfl⟩
        obtain ⟨n, writes, _⟩ | ⟨hleft, _, _⟩ := hcompletes
        · rw [copyContentsLoop_eof B 0 len total dest' rfl, if_neg (by simp), Except.ok.inj hresult]
        · omega
    · have hlength := List.length_pos_iff.2 hrest
      -- the rest of the loop, where the round reads and its writes take everything
      have hround : ∀ n, r.read = .upTo n →
          Accepts (min (readSize n sizeofBuf) rest.length) r.writes →
          (copyContentsLoop B 0 len total rest dest (r :: rounds) = .ok (ret, dest') ↔
            Completes (rest.length - readSize n sizeofBuf) rounds ∧
              IntType.int.arith B ((m + rest.length : Nat) : Int) = .ok ret ∧
                dest' = dest ++ rest) := by
        intro n hread haccepts
        rw [copyContentsLoop_accepts hread hrest hk hpos (le_refl _) haccepts, arith_add htotal]
        generalize readSize n sizeofBuf = k
        have hall : dest ++ rest.take k ++ rest.drop k = dest ++ rest := by
          rw [List.append_assoc, List.take_append_drop]
        have hsum : m + min k rest.length + (rest.drop k).length = m + rest.length := by
          rw [List.length_drop]
          omega
        cases hnext : IntType.int.arith B ((m + min k rest.length : Nat) : Int) with
        | error fault =>
          refine iff_of_false nofun ?_
          rintro ⟨-, hresult, -⟩
          rw [← hsum] at hresult
          obtain ⟨before, hbefore⟩ := arith_of_add hresult
          rw [hnext] at hbefore
          cases hbefore
        | ok next =>
          have hrounds := @ih next (rest.drop k) (dest ++ rest.take k) _ hnext
          rw [hall, hsum, List.length_drop] at hrounds
          rw [ok_bind, if_neg (by simp)]
          exact hrounds
      constructor
      · intro h
        obtain ⟨n, hread⟩ := read_of_copyContentsLoop hret h
        have haccepts := accepts_of_copyContentsLoop hread hrest hk hpos (le_refl _) hret h
        obtain ⟨hcompletes, hresult, hdest⟩ := (hround n hread haccepts).1 h
        obtain ⟨read, writes⟩ := r
        obtain rfl : read = .upTo n := hread
        exact ⟨.round hlength haccepts hcompletes, hresult, hdest⟩
      · rintro ⟨hcompletes, hresult, hdest⟩
        generalize hleft : rest.length = left at hcompletes
        obtain _ | @⟨_, n, writes, _, _, haccepts, hcompletes⟩ := hcompletes
        · omega
        · rw [← hleft] at haccepts hcompletes
          exact (hround n rfl haccepts).2 ⟨hcompletes, hresult, hdest⟩

theorem int_conv_eq_zero (len : Nat) : IntType.int.conv len = 0 ↔ len % 2 ^ 32 = 0 := by
  rw [IntType.int_conv]
  omega

/-- `copy_contents` returns a total for complete copies only, exactly where the length is not
    taken for none, or the file is as long as that, or the copy of the file fails, or the length
    of the file is no total. -/
theorem copyContents_complete_iff (B : Build) (source : List UInt8) (len : Nat)
    (rounds : List CopyRound) :
    (∀ ret dest, copyContents B source len rounds = .ok (ret, dest) → 0 ≤ ret →
      Copied source len dest) ↔
      ¬ (len ≠ 0 ∧ len % 2 ^ 32 = 0 ∧ source.length ≠ len ∧ Completes source.length rounds ∧
        ∃ total, IntType.int.arith B source.length = .ok total ∧ 0 ≤ total) := by
  have hzero : IntType.int.arith B ((0 : Nat) : Int) = .ok 0 :=
    IntType.arith_of_inRange B (by decide)
  have hsum : 0 + source.length = source.length := Nat.zero_add _
  rw [copyContents]
  by_cases hconv : len % 2 ^ 32 = 0
  · rw [(int_conv_eq_zero len).2 hconv]
    constructor
    · rintro hcomplete ⟨hlen, -, hlength, hcompletes, total, htotal, hnonneg⟩
      have hrun : copyContentsLoop B 0 len 0 source [] rounds = .ok (total, source) :=
        (copyContentsLoop_zero hzero hnonneg).2 ⟨hcompletes, by rwa [hsum], rfl⟩
      have hcopied := hcomplete total source hrun hnonneg
      rw [Copied, if_neg hlen] at hcopied
      obtain ⟨hle, htake⟩ := hcopied
      have hcount := congrArg List.length htake
      rw [List.length_take] at hcount
      omega
    · intro hcut ret dest hrun hret
      obtain ⟨hcompletes, htotal, hdest⟩ := (copyContentsLoop_zero hzero hret).1 hrun
      rw [hsum] at htotal
      rw [hdest, List.nil_append, Copied]
      by_cases hlen : len = 0
      · rw [if_pos hlen]
      · rw [if_neg hlen]
        have hlength : source.length = len := by
          by_contra hne
          exact hcut ⟨hlen, hconv, hne, hcompletes, ret, htotal, hret⟩
        exact ⟨hlength.ge, by rw [← hlength, List.take_length]⟩
  · refine iff_of_true ?_ fun h => hconv h.2.1
    intro ret dest hrun hret
    have hne : IntType.int.conv len ≠ 0 := mt (int_conv_eq_zero len).1 hconv
    have hpos : 0 < len := by
      by_contra hle
      obtain rfl : len = 0 := by omega
      exact hconv rfl
    obtain ⟨hle, rfl⟩ := copyContentsLoop_len hne hpos hret hrun
    rw [Copied, if_neg hpos.ne']
    exact ⟨hle, rfl⟩

end CopyContents

/-- The copy loops return success for complete copies only, exactly where `fast_copy` is not cut
    short and `copy_contents` does not take a length for none. -/
theorem copy_loops_complete_iff (B : Build) (source : List UInt8) :
    (∀ (src_fd dest_fd err : Int) (rounds : List FastCopyRound),
      (∀ dest, fastCopy src_fd dest_fd err source rounds = .ok (0, dest) → dest = source) ↔
        ¬ (src_fd ≠ -1 ∧ dest_fd ≠ -1 ∧ err ≠ -1 ∧ CutShort source.length rounds)) ∧
    ∀ (len : Nat) (rounds : List CopyRound),
      (∀ ret dest, copyContents B source len rounds = .ok (ret, dest) → 0 ≤ ret →
        Copied source len dest) ↔
        ¬ (len ≠ 0 ∧ len % 2 ^ 32 = 0 ∧ source.length ≠ len ∧ Completes source.length rounds ∧
          ∃ total, IntType.int.arith B source.length = .ok total ∧ 0 ≤ total) :=
  ⟨fun src_fd dest_fd err rounds => fastCopy_complete_iff src_fd dest_fd err source rounds,
    fun len rounds => copyContents_complete_iff B source len rounds⟩

/-- A read that fails leaves a copy that is cut short, and a file of one byte passes for one of
    2^32. -/
theorem not_copy_loops_complete :
    (¬ ∀ dest, fastCopy 3 4 0 [1, 2, 3]
      [⟨.upTo 2, .took 2⟩, ⟨.error 0, .error 0⟩] = .ok (0, dest) → dest = [1, 2, 3]) ∧
    ¬ ∀ ret dest, copyContents ⟨true, false⟩ [1] (2 ^ 32)
      [⟨.upTo 1, [.took 1]⟩, ⟨.upTo 1, []⟩] = .ok (ret, dest) → 0 ≤ ret →
        Copied [1] (2 ^ 32) dest := by
  constructor
  · intro h
    exact absurd (h [1, 2] rfl) (by decide)
  · intro h
    have hwrites : Accepts (min (readSize 1 sizeofBuf) 1) [.took 1] :=
      .took (by decide) (by decide) (.done [])
    have hcompletes : Completes 1 [⟨.upTo 1, [.took 1]⟩, ⟨.upTo 1, []⟩] :=
      .round (by decide) hwrites (.eof 1 [] [])
    exact (copyContents_complete_iff _ [1] (2 ^ 32) _).1 h
      ⟨by decide, Nat.mod_self _, by simp, hcompletes, 1, rfl, by decide⟩

end Oasys.Io.FileCopy
