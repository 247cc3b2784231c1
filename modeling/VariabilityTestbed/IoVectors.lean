import Mathlib.Algebra.Ring.Nat
import VariabilityTestbed.Lib.Bytes
import VariabilityTestbed.Lib.Runs

/-!
# I/O vectors

An I/O vector is a list of blocks of memory that is used like one buffer. Here the buffer is
`addrs`, the addresses of its bytes in order, and each function is compared with the same operation
on a part of that list. The blocks may be empty, and may overlap. Lengths and offsets are natural
numbers: nothing wraps. A vector is not copied to itself.
-/

namespace VariabilityTestbed.IoVectors

open Bytes Runs List Function

/-- `struct iovec`. -/
structure Iovec where
  base : ℕ
  len : ℕ

/-- `QEMUIOVector`. `niov` is the length of the list, `nalloc` is -1 for a vector of the
caller's. -/
structure QemuIovec where
  iov : List Iovec
  nalloc : ℤ
  size : ℕ

/-! ### The functions -/

/-- `iov_size`, also the loop of `qemu_iovec_init_external`. -/
def iovSize (iov : List Iovec) : ℕ := iov.foldl (fun len v => len + v.len) 0

/-- `qemu_iovec_init`. -/
def qemuIovecInit (allocHint : ℕ) : QemuIovec := ⟨[], allocHint, 0⟩

/-- `qemu_iovec_init_external`. -/
def qemuIovecInitExternal (iov : List Iovec) : QemuIovec := ⟨iov, -1, iovSize iov⟩

/-- `qemu_iovec_add`, behind its assertion. -/
def QemuIovec.add (q : QemuIovec) (v : Iovec) : QemuIovec where
  iov := q.iov ++ [v]
  nalloc := if (q.iov.length : ℤ) = q.nalloc then 2 * q.nalloc + 1 else q.nalloc
  size := q.size + v.len

section Loops

variable {σ : Type*} (act : σ → Iovec → σ)

/-- The loop of `qemu_iovec_copy` and `qemu_iovec_memset_skip`, which do `act` with each piece. -/
def skipLoop (size : ℕ) : List Iovec → ℕ → ℕ → σ → σ
  | [], _, _, s => s
  | v :: iov, skip, done, s =>
    if done = size then s
    else if v.len ≤ skip then skipLoop size iov (skip - v.len) done s
    else if size < done + (v.len - skip) then act s ⟨v.base + skip, size - done⟩
    else skipLoop size iov 0 (done + (v.len - skip)) (act s ⟨v.base + skip, v.len - skip⟩)

/-- The loop of `iov_from_buf` and `iov_to_buf`. -/
def offsetLoop : List Iovec → (iovecOff iovOff size : ℕ) → σ → σ
  | [], _, _, _, s => s
  | v :: iov, iovecOff, iovOff, size, s =>
    if size = 0 then s
    else if iovOff < iovecOff + v.len then
      let len := min (iovecOff + v.len - iovOff) size
      offsetLoop iov (iovecOff + v.len) (iovOff + len) (size - len)
        (act s ⟨v.base + (iovOff - iovecOff), len⟩)
    else offsetLoop iov (iovecOff + v.len) iovOff size s

end Loops

/-- `qemu_iovec_copy`. -/
def qemuIovecCopy (dst src : QemuIovec) (skip size : ℕ) : Option QemuIovec :=
  if dst.nalloc = -1 then none else some (skipLoop QemuIovec.add size src.iov skip 0 dst)

/-- `qemu_iovec_memset_skip`: memory behind it. -/
def qemuIovecMemsetSkip (q : QemuIovec) (c : UInt8) (count skip : ℕ) (m : ℕ → UInt8) : ℕ → UInt8 :=
  skipLoop (fun m v => storeBytes m v.base (replicate v.len c)) count q.iov skip 0 m

/-- `iov_from_buf`: memory behind it, and the result. -/
def iovFromBuf (iov : List Iovec) (buf : ℕ → UInt8) (iovOff size : ℕ) (m : ℕ → UInt8) :
    (ℕ → UInt8) × ℕ :=
  offsetLoop (fun s v => (storeBytes s.1 v.base (loadBytes buf s.2 v.len), s.2 + v.len)) iov 0
    iovOff size (m, 0)

/-- `iov_to_buf`: the buffer behind it, and the result. -/
def iovToBuf (iov : List Iovec) (m buf : ℕ → UInt8) (iovOff size : ℕ) : (ℕ → UInt8) × ℕ :=
  offsetLoop (fun s v => (storeBytes s.1 s.2 (loadBytes m v.base v.len), s.2 + v.len)) iov 0 iovOff
    size (buf, 0)

/-- The functions that change a `QEMUIOVector`. -/
inductive IovecOp
  | init (allocHint : ℕ)
  | initExternal (iov : List Iovec)
  | add (v : Iovec)
  | copy (src : QemuIovec) (skip size : ℕ)
  | reset

/-- One call; none if an assertion fails. -/
def iovecStep (q : QemuIovec) : IovecOp → Option QemuIovec
  | .init allocHint => some (qemuIovecInit allocHint)
  | .initExternal iov => some (qemuIovecInitExternal iov)
  | .add v => if q.nalloc = -1 then none else some (q.add v)
  | .copy src skip size => qemuIovecCopy q src skip size
  | .reset => if q.nalloc = -1 then none else some { q with iov := [], size := 0 }

/-! ### The flat buffer -/

/-- The addresses of the bytes of a vector. -/
def addrs (iov : List Iovec) : List ℕ := iov.flatMap fun v => range' v.base v.len

/-- The addresses of the `size` bytes from `off` on, of fewer if the vector is shorter. -/
def slice (iov : List Iovec) (off size : ℕ) : List ℕ := ((addrs iov).drop off).take size

/-- Write bytes to addresses, one after the other. -/
def writeAll (m : ℕ → UInt8) (l : List ℕ) (bs : List UInt8) : ℕ → UInt8 :=
  (l.zip bs).foldl (fun m p => update m p.1 p.2) m

/-! ### The pieces that the loops visit -/

/-- The part of a vector, as a vector. -/
def pieces : List Iovec → ℕ → ℕ → List Iovec
  | [], _, _ => []
  | v :: iov, off, size =>
    if size = 0 then []
    else if v.len ≤ off then pieces iov (off - v.len) size
    else if size < v.len - off then [⟨v.base + off, size⟩]
    else ⟨v.base + off, v.len - off⟩ :: pieces iov 0 (size - (v.len - off))

@[simp] theorem pieces_zero (iov : List Iovec) (off : ℕ) : pieces iov off 0 = [] := by
  cases iov with
  | nil => rfl
  | cons v iov => exact if_pos rfl

@[simp] theorem addrs_cons (v : Iovec) (iov : List Iovec) :
    addrs (v :: iov) = range' v.base v.len ++ addrs iov := flatMap_cons ..

theorem addrs_pieces (iov : List Iovec) (off size : ℕ) :
    addrs (pieces iov off size) = slice iov off size := by
  induction iov generalizing off size with
  | nil => simp [pieces, slice, addrs]
  | cons v iov ih =>
    rw [pieces, slice, addrs_cons, drop_append, drop_range', length_range', Nat.mul_one]
    split_ifs with hzero hskip hsize
    · rw [hzero]
      rfl
    · rw [ih, Nat.sub_eq_zero_of_le hskip]
      rfl
    · rw [take_append_of_le_length (by rw [length_range']; exact hsize.le),
        take_range'_of_length_ge hsize.le]
      exact append_nil _
    · have hoff : off - v.len = 0 := by omega
      rw [addrs_cons, ih, take_append, length_range', hoff, take_range'_of_length_le (by omega)]
      rfl

section Loops

variable {σ : Type*} {act : σ → Iovec → σ} {s : σ} {size : ℕ}

theorem skipLoop_eq (iov : List Iovec) (skip : ℕ) {done : ℕ} (h : done ≤ size) :
    skipLoop act size iov skip done s = (pieces iov skip (size - done)).foldl act s := by
  induction iov generalizing skip done s with
  | nil => rfl
  | cons v iov ih =>
    have hmore : size < done + (v.len - skip) ↔ size - done < v.len - skip := by omega
    by_cases hdone : done = size
    · rw [skipLoop, if_pos hdone, hdone, Nat.sub_self, pieces_zero]
      rfl
    · rw [skipLoop, pieces, if_neg hdone, if_neg (Nat.sub_ne_zero_of_lt (by omega))]
      simp only [hmore]
      split_ifs with hskip hlast
      · exact ih _ h
      · rfl
      · rw [ih 0 (by omega), Nat.sub_sub]
        rfl

theorem offsetLoop_zero (iov : List Iovec) (iovecOff iovOff : ℕ) :
    offsetLoop act iov iovecOff iovOff 0 s = s := by
  cases iov with
  | nil => rfl
  | cons v iov => exact if_pos rfl

theorem offsetLoop_eq (iov : List Iovec) {iovecOff iovOff : ℕ} (h : iovecOff ≤ iovOff) :
    offsetLoop act iov iovecOff iovOff size s =
      (pieces iov (iovOff - iovecOff) size).foldl act s := by
  induction iov generalizing iovecOff iovOff size s with
  | nil => rfl
  | cons v iov ih =>
    have hlen : iovecOff + v.len - iovOff = v.len - (iovOff - iovecOff) := by omega
    have hin : iovOff < iovecOff + v.len ↔ ¬ v.len ≤ iovOff - iovecOff := by omega
    rw [offsetLoop, pieces, hlen]
    simp only [hin, ite_not]
    split_ifs with hzero hskip hlast
    · rfl
    · rw [ih (by omega), Nat.sub_sub]
    · rw [min_eq_right hlast.le, Nat.sub_self, offsetLoop_zero]
      rfl
    · have hnext : iovOff + (v.len - (iovOff - iovecOff)) = iovecOff + v.len := by omega
      rw [min_eq_left (Nat.le_of_not_lt hlast), hnext, ih (le_refl _), Nat.sub_self]
      rfl

end Loops

/-! ### What is done with the pieces -/

@[simp] theorem length_addrs (iov : List Iovec) : (addrs iov).length = (iov.map Iovec.len).sum := by
  simp [addrs, length_flatMap]

theorem foldl_add (l : List Iovec) (q : QemuIovec) :
    (l.foldl QemuIovec.add q).iov = q.iov ++ l ∧ (l.foldl QemuIovec.add q).size =
      q.size + (addrs l).length := by
  induction l generalizing q with
  | nil => exact ⟨(append_nil _).symm, rfl⟩
  | cons v l ih =>
    refine ⟨?_, ?_⟩
    · rw [foldl_cons, (ih _).1]
      exact append_assoc ..
    · rw [foldl_cons, (ih _).2, addrs_cons, length_append, length_range', ← Nat.add_assoc]
      rfl

theorem writeAll_append {k l : List ℕ} {bs cs : List UInt8} (m : ℕ → UInt8)
    (h : k.length = bs.length) :
    writeAll m (k ++ l) (bs ++ cs) = writeAll (writeAll m k bs) l cs := by
  rw [writeAll, zip_append h, foldl_append]
  rfl

/-- A block is stored byte for byte. -/
theorem storeBytes_eq_writeAll (m : ℕ → UInt8) (p : ℕ) (bs : List UInt8) :
    storeBytes m p bs = writeAll m (range' p bs.length) bs := by
  induction bs generalizing m p with
  | nil => exact storeBytes_nil
  | cons b bs ih =>
    have hone : storeBytes m p [b] = update m p b := by
      funext q
      by_cases hq : q = p
      · simp [storeBytes, hq]
      · rw [update_of_ne hq]
        rcases storeBytes_eq_or m p [b] q with heq | ⟨k, hk, rfl⟩
        · exact heq
        · have := (List.getElem?_eq_some_iff.mp hk).1
          simp at this
          omega
    rw [← singleton_append, ← storeBytes_append, hone, ih]
    rfl

theorem foldl_memset (c : UInt8) (l : List Iovec) (m : ℕ → UInt8) :
    l.foldl (fun m v => storeBytes m v.base (replicate v.len c)) m =
      writeAll m (addrs l) (replicate (addrs l).length c) := by
  induction l generalizing m with
  | nil => rfl
  | cons v l ih =>
    rw [foldl_cons, ih, storeBytes_eq_writeAll, addrs_cons, length_append, replicate_add,
      writeAll_append m (by simp), length_replicate, length_range']

theorem foldl_fromBuf (buf : ℕ → UInt8) (l : List Iovec) (m : ℕ → UInt8) (k : ℕ) :
    l.foldl (fun s v => (storeBytes s.1 v.base (loadBytes buf s.2 v.len), s.2 + v.len)) (m, k) =
      (writeAll m (addrs l) (loadBytes buf k (addrs l).length), k + (addrs l).length) := by
  induction l generalizing m k with
  | nil => rfl
  | cons v l ih =>
    rw [foldl_cons, ih, storeBytes_eq_writeAll, addrs_cons, length_append, loadBytes_add,
      writeAll_append m (by simp), length_loadBytes, length_range', Nat.add_assoc]

theorem foldl_toBuf (m : ℕ → UInt8) (l : List Iovec) (buf : ℕ → UInt8) (k : ℕ) :
    l.foldl (fun s v => (storeBytes s.1 s.2 (loadBytes m v.base v.len), s.2 + v.len)) (buf, k) =
      (storeBytes buf k ((addrs l).map m), k + (addrs l).length) := by
  induction l generalizing buf k with
  | nil => simp [addrs]
  | cons v l ih =>
    have hload : (range' v.base v.len).map m = loadBytes m v.base v.len := by
      rw [range'_eq_map_range, map_map]
      rfl
    rw [foldl_cons, ih, addrs_cons, map_append, hload, ← storeBytes_append, length_loadBytes,
      length_append, length_range', Nat.add_assoc]

/-! ### The size -/

/-- `size` is the number of bytes. -/
def QemuIovec.Sized (q : QemuIovec) : Prop := q.size = (q.iov.map Iovec.len).sum

theorem iovSize_eq (iov : List Iovec) : iovSize iov = (iov.map Iovec.len).sum := by
  rw [iovSize, ← foldl_map (f := Iovec.len) (g := (· + ·)), ← sum_eq_foldl]

theorem qemuIovecCopy_eq {dst src q : QemuIovec} {skip size : ℕ}
    (h : qemuIovecCopy dst src skip size = some q) :
    q.iov = dst.iov ++ pieces src.iov skip size ∧
    q.size = dst.size + (slice src.iov skip size).length := by
  unfold qemuIovecCopy at h
  split_ifs at h
  cases h
  rw [skipLoop_eq _ _ (Nat.zero_le size), Nat.sub_zero, ← addrs_pieces]
  exact foldl_add ..

theorem QemuIovec.Sized.step {q q' : QemuIovec} {op : IovecOp} (h : q.Sized)
    (heq : iovecStep q op = some q') :
    q'.Sized := by
  cases op with
  | init allocHint =>
    cases heq
    rfl
  | initExternal iov =>
    cases heq
    exact iovSize_eq iov
  | add v =>
    simp only [iovecStep] at heq
    split_ifs at heq
    cases heq
    simp [Sized, QemuIovec.add, h.symm]
  | copy src skip size =>
    obtain ⟨hiov, hsize⟩ := qemuIovecCopy_eq heq
    rw [Sized, hsize, hiov, map_append, sum_append, ← length_addrs (pieces ..), addrs_pieces, h]
  | reset =>
    simp only [iovecStep] at heq
    split_ifs at heq
    cases heq
    rfl

/-- **The functions agree with flat buffers.** After any calls `size` is the sum of the lengths.
`qemu_iovec_copy` appends the addresses of the part, and fails only for a vector of the caller's.
`qemu_iovec_memset_skip` and `iov_from_buf` write the bytes of the part, in order, and no others;
`iov_to_buf` reads them; the last two return how many there are. -/
theorem iovec_agrees (dst src : QemuIovec) (off size : ℕ) (c : UInt8) (m buf : ℕ → UInt8) :
    let part := slice src.iov off size
    (∀ allocHint ops q, run iovecStep (qemuIovecInit allocHint) ops = some q →
      q.size = (q.iov.map Iovec.len).sum) ∧
    ((qemuIovecCopy dst src off size).isSome ↔ dst.nalloc ≠ -1) ∧
    (∀ q ∈ qemuIovecCopy dst src off size, addrs q.iov = addrs dst.iov ++ part) ∧
    qemuIovecMemsetSkip src c size off m = writeAll m part (replicate part.length c) ∧
    iovFromBuf src.iov buf off size m = (writeAll m part (loadBytes buf 0 part.length),
      part.length) ∧
    iovToBuf src.iov m buf off size = (storeBytes buf 0 (part.map m), part.length) := by
  refine ⟨fun allocHint ops q h => ?_, ?_, fun q h => ?_, ?_, ?_, ?_⟩
  · exact run_invariant (P := QemuIovec.Sized) (fun _ _ _ hq heq => hq.step heq)
      (show (qemuIovecInit allocHint).Sized from rfl) h
  · unfold qemuIovecCopy
    split_ifs with hext <;> simp [hext]
  · rw [(qemuIovecCopy_eq h).1, ← addrs_pieces]
    exact flatMap_append ..
  · rw [qemuIovecMemsetSkip, skipLoop_eq _ _ (Nat.zero_le _), foldl_memset,
      Nat.sub_zero, addrs_pieces]
  · rw [iovFromBuf, offsetLoop_eq _ (Nat.zero_le _), foldl_fromBuf, Nat.sub_zero,
      addrs_pieces, Nat.zero_add]
  · rw [iovToBuf, offsetLoop_eq _ (Nat.zero_le _), foldl_toBuf, Nat.sub_zero,
      addrs_pieces, Nat.zero_add]

end VariabilityTestbed.IoVectors
