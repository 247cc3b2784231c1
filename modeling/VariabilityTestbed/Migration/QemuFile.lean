import VariabilityTestbed.Lib.BigEndian
import VariabilityTestbed.Migration.BufferedFile

/-!
# `QEMUFile`

A `QEMUFile` buffers what is written to a backend or read from it. One buffer serves both
directions, but not at the same time: a file that was written cannot be read.

A backend that is written is a `Sink`. A backend that is read delivers chunks; each call of
`get_buffer` is answered by a chunk, by `-EAGAIN` or by an error, and an empty chunk is the end of
the file. Nothing is assumed about the order of the answers.

There are two ways in which bytes get lost or invented without an error. `qemu_fflush` takes any
positive result for success, so bytes that the backend did not take are dropped. And
`qemu_fill_buffer` does not set the error for `-EAGAIN`, but its callers then find no data and
return zero.
-/

namespace VariabilityTestbed.Migration

open Runs BigEndian List Option

/-! ### State -/

/-- What `get_buffer` answers to a call. -/
inductive Delivery where
  | data (l : List UInt8)
  | again
  | fail
  deriving DecidableEq

/-- A backend that is read, with the answers that it will give, the number of calls so far, and the
bytes that it delivered. -/
structure Feed where
  answers : ℕ → Delivery
  calls : ℕ
  delivered : List UInt8

/-- The answer to the next call. -/
def Feed.next (s : Feed) : Delivery := s.answers s.calls

/-- A call that delivers `l`. -/
def Feed.deliver (s : Feed) (l : List UInt8) : Feed :=
  { s with calls := s.calls + 1, delivered := s.delivered ++ l }

/-- `IO_BUF_SIZE`. -/
def ioBufSize : ℕ := 32768

/-- `QEMUFile`, with its backends in place of `put_buffer` and `get_buffer`. Of `buf` only the bytes
before `buf_index` (when writing) or before `buf_size` (when reading) are kept. -/
structure QemuFile where
  sink : Option Sink
  feed : Option Feed
  isWrite : Bool
  bufOffset : ℕ
  bufIndex : ℕ
  bufSize : ℕ
  buf : List UInt8
  hasError : Bool

/-- `qemu_fopen_ops`. -/
def qemuFopenOps (sink : Option Sink) (feed : Option Feed) : QemuFile :=
  ⟨sink, feed, false, 0, 0, 0, [], false⟩

/-! ### Writing -/

/-- `qemu_fflush`. -/
def qemuFflush (f : QemuFile) : QemuFile :=
  match f.sink with
  | none => f
  | some b =>
    if f.isWrite && 0 < f.bufIndex then
      match b.next with
      | .accept n => { f with
          sink := some (b.take (f.buf.take (n + 1)))
          bufOffset := f.bufOffset + f.bufIndex
          bufIndex := 0
          buf := [] }
      | _ => { f with sink := some (b.take []), hasError := true, bufIndex := 0, buf := [] }
    else f

/-- Copy bytes to the buffer, and flush it if it is full. -/
def store (f : QemuFile) (l : List UInt8) : QemuFile :=
  let f := { f with buf := f.buf ++ l, bufIndex := f.bufIndex + l.length, isWrite := true }
  if ioBufSize ≤ f.bufIndex then qemuFflush f else f

/-- The buffer holds data that was read. -/
def readPending (f : QemuFile) : Bool := !f.hasError && !f.isWrite && 0 < f.bufIndex

/-- `qemu_put_byte`. Behind the end of the buffer it has no defined result. -/
def qemuPutByte (f : QemuFile) (v : UInt8) : Option QemuFile :=
  if readPending f || ioBufSize ≤ f.bufIndex then none else some (store f [v])

/-- The loop of `qemu_put_buffer`. If there is no backend it does not end once the buffer is
full. -/
def putBufferLoop : ℕ → QemuFile → List UInt8 → Option QemuFile
  | _, f, [] => some f
  | 0, _, _ :: _ => none
  | fuel + 1, f, x :: l =>
    if f.hasError then some f
    else
      putBufferLoop fuel (store f ((x :: l).take (ioBufSize - f.bufIndex)))
        ((x :: l).drop (ioBufSize - f.bufIndex))

/-- `qemu_put_buffer`. -/
def qemuPutBuffer (f : QemuFile) (l : List UInt8) : Option QemuFile :=
  if readPending f then none else putBufferLoop l.length f l

/-- `qemu_put_be16`. -/
def qemuPutBe16 (f : QemuFile) (v : ℕ) : Option QemuFile := do
  let f ← qemuPutByte f (UInt8.ofNat (v / 2 ^ 8))
  qemuPutByte f (UInt8.ofNat v)

/-- `qemu_put_be32`. -/
def qemuPutBe32 (f : QemuFile) (v : ℕ) : Option QemuFile := do
  let f ← qemuPutByte f (UInt8.ofNat (v / 2 ^ 24))
  let f ← qemuPutByte f (UInt8.ofNat (v / 2 ^ 16))
  let f ← qemuPutByte f (UInt8.ofNat (v / 2 ^ 8))
  qemuPutByte f (UInt8.ofNat v)

/-- `qemu_put_be64`. -/
def qemuPutBe64 (f : QemuFile) (v : ℕ) : Option QemuFile := do
  let f ← qemuPutBe32 f (v / 2 ^ 32)
  qemuPutBe32 f v

/-! ### Reading -/

/-- `qemu_fill_buffer`. -/
def qemuFillBuffer (f : QemuFile) : Option QemuFile :=
  match f.feed with
  | none => some f
  | some s =>
    if f.isWrite then none
    else
      match s.next with
      | .data [] => some { f with feed := some (s.deliver []), hasError := true }
      | .data (x :: l) => some { f with
          feed := some (s.deliver ((x :: l).take ioBufSize))
          bufIndex := 0
          bufSize := ((x :: l).take ioBufSize).length
          bufOffset := f.bufOffset + ((x :: l).take ioBufSize).length
          buf := (x :: l).take ioBufSize }
      | .again => some { f with feed := some (s.deliver []) }
      | .fail => some { f with feed := some (s.deliver []), hasError := true }

/-- Fill the buffer if there is nothing in it. -/
def refill (f : QemuFile) : Option QemuFile :=
  if f.isWrite then none else if f.bufSize ≤ f.bufIndex then qemuFillBuffer f else some f

/-- `qemu_peek_byte`. -/
def qemuPeekByte (f : QemuFile) : Option (UInt8 × QemuFile) := do
  let f ← refill f
  if f.bufSize ≤ f.bufIndex then some (0, f) else some ((f.buf[f.bufIndex]?).getD 0, f)

/-- `qemu_get_byte`. -/
def qemuGetByte (f : QemuFile) : Option (UInt8 × QemuFile) := do
  let f ← refill f
  if f.bufSize ≤ f.bufIndex then some (0, f)
  else some ((f.buf[f.bufIndex]?).getD 0, { f with bufIndex := f.bufIndex + 1 })

/-- The loop of `qemu_get_buffer`, with what was copied so far. Each round copies a byte or is the
last. -/
def getBufferLoop : ℕ → QemuFile → ℕ → List UInt8 → Option (List UInt8 × QemuFile)
  | _, f, 0, acc => some (acc, f)
  | 0, _, _ + 1, _ => none
  | fuel + 1, f, size + 1, acc => do
    let f ← refill f
    if f.bufSize ≤ f.bufIndex then some (acc, f)
    else
      let l := (f.buf.drop f.bufIndex).take (size + 1)
      getBufferLoop fuel { f with bufIndex := f.bufIndex + l.length }
        (size + 1 - l.length) (acc ++ l)

/-- `qemu_get_buffer`. -/
def qemuGetBuffer (f : QemuFile) (size : ℕ) : Option (List UInt8 × QemuFile) :=
  if f.isWrite then none else getBufferLoop size f size []

/-- Bytes one after the other. -/
def getBytes : ℕ → QemuFile → Option (List UInt8 × QemuFile)
  | 0, f => some ([], f)
  | n + 1, f => do
    let (b, f) ← qemuGetByte f
    let (l, f) ← getBytes n f
    some (b :: l, f)

/-- A big-endian number of `n` bytes. -/
def qemuGetBe (n : ℕ) (f : QemuFile) : Option (ℕ × QemuFile) :=
  (getBytes n f).map fun r => (ofBe r.1, r.2)

/-- `qemu_get_be16`. -/
def qemuGetBe16 (f : QemuFile) : Option (ℕ × QemuFile) := qemuGetBe 2 f

/-- `qemu_get_be32`. -/
def qemuGetBe32 (f : QemuFile) : Option (ℕ × QemuFile) := qemuGetBe 4 f

/-- `qemu_get_be64`. -/
def qemuGetBe64 (f : QemuFile) : Option (ℕ × QemuFile) := do
  let (hi, f) ← qemuGetBe32 f
  let (lo, f) ← qemuGetBe32 f
  some (hi * 2 ^ 32 + lo, f)

/-! ### Operations -/

/-- Calls that write. -/
inductive WriteOp where
  | byte (v : UInt8)
  | buffer (l : List UInt8)
  | be16 (v : ℕ)
  | be32 (v : ℕ)
  | be64 (v : ℕ)
  | flush

/-- The bytes of a call. -/
def WriteOp.bytes : WriteOp → List UInt8
  | byte v => [v]
  | buffer l => l
  | be16 v => beBytes 2 v
  | be32 v => beBytes 4 v
  | be64 v => beBytes 8 v
  | flush => []

/-- One call. -/
def writeStep (f : QemuFile) : WriteOp → Option QemuFile
  | .byte v => qemuPutByte f v
  | .buffer l => qemuPutBuffer f l
  | .be16 v => qemuPutBe16 f v
  | .be32 v => qemuPutBe32 f v
  | .be64 v => qemuPutBe64 f v
  | .flush => some (qemuFflush f)

/-- Calls that read. -/
inductive ReadOp where
  | byte
  | peek
  | buffer (size : ℕ)
  | be16
  | be32
  | be64

/-- How many bytes a call asks for. -/
def ReadOp.size : ReadOp → ℕ
  | byte => 1
  | peek => 1
  | buffer size => size
  | be16 => 2
  | be32 => 4
  | be64 => 8

/-- How many bytes a call takes. -/
def ReadOp.taken : ReadOp → ℕ
  | peek => 0
  | op => op.size

/-- One call. A number that was read is logged as its bytes. -/
def readCall (f : QemuFile) : ReadOp → Option (List UInt8 × QemuFile)
  | .byte => (qemuGetByte f).map fun r => ([r.1], r.2)
  | .peek => (qemuPeekByte f).map fun r => ([r.1], r.2)
  | .buffer size => qemuGetBuffer f size
  | .be16 => (qemuGetBe16 f).map fun r => (beBytes 2 r.1, r.2)
  | .be32 => (qemuGetBe32 f).map fun r => (beBytes 4 r.1, r.2)
  | .be64 => (qemuGetBe64 f).map fun r => (beBytes 8 r.1, r.2)

/-- One call, with the log of the calls and of what they returned. -/
def readStep (s : QemuFile × List (ReadOp × List UInt8)) (op : ReadOp) :
    Option (QemuFile × List (ReadOp × List UInt8)) :=
  (readCall s.1 op).map fun r => (r.2, s.2 ++ [(op, r.1)])

/-! ### What is written -/

/-- The next calls of the backend for full buffers, until `n` more bytes are put, take all of it. -/
def FullCalls (f : QemuFile) (b : Sink) (n : ℕ) : Prop :=
  ∀ k < (f.bufIndex + n) / ioBufSize, ∀ m, b.answers (b.calls + k) = .accept m → ioBufSize ≤ m + 1

/-- The file is being written: `put` has been put, and `n` more bytes can be. -/
structure Writing (f : QemuFile) (put : List UInt8) (n : ℕ) : Prop where
  index : f.bufIndex = f.buf.length
  lt : f.bufIndex < ioBufSize
  mode : f.isWrite = true ∨ f.bufIndex = 0
  sink : ∃ b, f.sink = some b ∧ (f.hasError = false → b.accepted ++ f.buf = put ∧ FullCalls f b n)

variable {f : QemuFile} {put : List UInt8} {n : ℕ}

theorem Writing.not_readPending (h : Writing f put n) : readPending f = false := by
  rcases h.mode with hmode | hmode <;> simp [readPending, hmode]

/-- A flush of a backend that takes everything. -/
theorem qemuFflush_spec {b : Sink} (hindex : f.bufIndex = f.buf.length)
    (hmode : f.isWrite = true ∨ f.bufIndex = 0) (hb : f.sink = some b)
    (hbytes : f.hasError = false → b.accepted ++ f.buf = put)
    (hall : f.hasError = false → 0 < f.bufIndex → ∀ m, b.next = .accept m → f.bufIndex ≤ m + 1) :
    (qemuFflush f).bufIndex = 0 ∧ (qemuFflush f).buf = [] ∧ (qemuFflush f).isWrite = f.isWrite ∧
      ∃ b', (qemuFflush f).sink = some b' ∧ b'.answers = b.answers ∧
        b'.calls = b.calls + (if 0 < f.bufIndex then 1 else 0) ∧
        ((qemuFflush f).hasError = false → f.hasError = false ∧ b'.accepted = put) := by
  by_cases hpos : 0 < f.bufIndex
  · have hwrite : f.isWrite = true := hmode.resolve_right hpos.ne'
    have hcond : (f.isWrite && decide (0 < f.bufIndex)) = true := by simp [hwrite, hpos]
    simp only [qemuFflush, hb, hcond, if_true, if_pos hpos]
    cases hnext : b.next with
    | again | fail => exact ⟨rfl, rfl, rfl, _, rfl, rfl, rfl, by simp⟩
    | accept m =>
      refine ⟨rfl, rfl, rfl, _, rfl, rfl, rfl, fun herr => ⟨herr, ?_⟩⟩
      have hle := hall herr hpos m hnext
      show b.accepted ++ f.buf.take (m + 1) = put
      rw [take_of_length_le (by omega)]
      exact hbytes herr
  · have hzero : f.bufIndex = 0 := by omega
    have hnil : f.buf = [] := eq_nil_of_length_eq_zero (hindex.symm.trans hzero)
    have heq : qemuFflush f = f := by simp [qemuFflush, hb, hzero]
    rw [heq, if_neg hpos]
    refine ⟨hzero, hnil, rfl, b, hb, rfl, rfl, fun herr => ⟨herr, ?_⟩⟩
    rw [← hbytes herr, hnil, append_nil]

variable {l : List UInt8}

/-- Bytes that fit into the buffer. -/
theorem Writing.store
    (h : Writing f put (l.length + n)) (hl : l.length ≤ ioBufSize - f.bufIndex) :
    Writing (store f l) (put ++ l) n := by
  obtain ⟨hindex, hlt, -, b, hb, hbytes⟩ := h
  set f₁ : QemuFile :=
    { f with buf := f.buf ++ l, bufIndex := f.bufIndex + l.length, isWrite := true } with hf₁
  have hindex₁ : f₁.bufIndex = f₁.buf.length := by simp [hf₁, hindex]
  have hbytes₁ : f₁.hasError = false → b.accepted ++ f₁.buf = put ++ l := by
    intro herr
    show b.accepted ++ (f.buf ++ l) = put ++ l
    rw [← append_assoc, (hbytes herr).1]
  by_cases hfull : ioBufSize ≤ f₁.bufIndex
  · have hstore : Migration.store f l = qemuFflush f₁ := if_pos hfull
    have heq : f.bufIndex + l.length = ioBufSize := by
      have : ioBufSize ≤ f.bufIndex + l.length := hfull
      omega
    have hcount : (f.bufIndex + (l.length + n)) / ioBufSize = n / ioBufSize + 1 := by
      rw [← Nat.add_assoc, heq, Nat.add_div_left n (by decide)]
    have hall : f₁.hasError = false → 0 < f₁.bufIndex → ∀ m, b.next = .accept m →
        f₁.bufIndex ≤ m + 1 := by
      intro herr _ m hm
      have hle := (hbytes herr).2 0 (by rw [hcount]; exact Nat.succ_pos _) m hm
      show f.bufIndex + l.length ≤ m + 1
      omega
    obtain ⟨hzero, hnil, hmode, b', hb', hans, hcalls, hacc⟩ :=
      qemuFflush_spec hindex₁ (.inl rfl) hb hbytes₁ hall
    rw [hstore]
    refine ⟨by rw [hzero, hnil]; rfl, by rw [hzero]; decide, .inr hzero, b', hb', fun herr => ?_⟩
    obtain ⟨herr₁, hput⟩ := hacc herr
    refine ⟨by rw [hnil, append_nil, hput], fun k hk m hm => ?_⟩
    rw [hzero, Nat.zero_add] at hk
    refine (hbytes herr₁).2 (k + 1) (by rw [hcount]; exact Nat.succ_lt_succ hk) m ?_
    rw [hans, hcalls, if_pos (by show 0 < f.bufIndex + l.length; omega)] at hm
    rwa [Nat.add_assoc, Nat.add_comm 1 k] at hm
  · have hstore : Migration.store f l = f₁ := if_neg hfull
    rw [hstore]
    refine ⟨hindex₁, Nat.not_le.mp hfull, .inl rfl, b, hb, fun herr => ⟨hbytes₁ herr, ?_⟩⟩
    intro k hk
    refine (hbytes herr).2 k ?_
    rwa [← Nat.add_assoc]

theorem Writing.putByte (h : Writing f put (1 + n))
    (v : UInt8) : ∃ f', qemuPutByte f v = some f' ∧ Writing f' (put ++ [v]) n := by
  have hlt := h.lt
  refine ⟨Migration.store f [v], ?_, h.store (l := [v]) (by simp only [length_singleton]; omega)⟩
  rw [qemuPutByte, h.not_readPending, Bool.false_or, if_neg (by simpa using hlt)]

/-- Bytes one after the other. -/
theorem Writing.putBytes (h : Writing f put (l.length + n)) :
    ∃ f', l.foldlM qemuPutByte f = some f' ∧ Writing f' (put ++ l) n := by
  induction l generalizing f put with
  | nil => exact ⟨f, rfl, by simpa using h⟩
  | cons v l ih =>
    obtain ⟨f₁, h₁, hf₁⟩ :=
      Writing.putByte (n := l.length + n) (by rwa [← Nat.add_assoc, Nat.add_comm 1]) v
    obtain ⟨f', h', hf'⟩ := ih hf₁
    refine ⟨f', by rw [foldlM_cons, h₁]; exact h', ?_⟩
    rwa [append_assoc] at hf'

theorem qemuPutBe16_eq (v : ℕ) : qemuPutBe16 f v = (beBytes 2 v).foldlM qemuPutByte f := by
  simp [qemuPutBe16, beBytes]

theorem qemuPutBe32_eq (v : ℕ) : qemuPutBe32 f v = (beBytes 4 v).foldlM qemuPutByte f := by
  simp [qemuPutBe32, beBytes]

theorem qemuPutBe64_eq (v : ℕ) : qemuPutBe64 f v = (beBytes 8 v).foldlM qemuPutByte f := by
  have hbytes : beBytes 8 v = beBytes 4 (v / 2 ^ 32) ++ beBytes 4 v := by
    simp [beBytes, Nat.div_div_eq_div_mul]
  rw [hbytes, foldlM_append, ← qemuPutBe32_eq]
  simp only [← qemuPutBe32_eq]
  rfl

theorem Writing.putBufferLoop {fuel : ℕ} (hfuel : l.length ≤ fuel) (h : Writing f put l.length) :
    ∃ f', putBufferLoop fuel f l = some f' ∧ Writing f' (put ++ l) 0 := by
  induction fuel generalizing f put l with
  | zero =>
    obtain rfl := eq_nil_of_length_eq_zero (Nat.le_zero.mp hfuel)
    exact ⟨f, rfl, by rwa [append_nil]⟩
  | succ fuel ih =>
    cases l with
    | nil => exact ⟨f, rfl, by rwa [append_nil]⟩
    | cons x l =>
      by_cases herr : f.hasError = true
      · refine ⟨f, by rw [Migration.putBufferLoop, if_pos herr], h.index, h.lt, h.mode, ?_⟩
        obtain ⟨b, hb, -⟩ := h.sink
        exact ⟨b, hb, fun hno => absurd herr (by simp [hno])⟩
      · have hlt := h.lt
        have hlen : (x :: l).length = l.length + 1 := length_cons
        have hsplit := take_append_drop (ioBufSize - f.bufIndex) (x :: l)
        set first := (x :: l).take (ioBufSize - f.bufIndex) with hfirst
        set rest := (x :: l).drop (ioBufSize - f.bufIndex) with hrest
        have hsum : first.length + rest.length = (x :: l).length := by
          rw [← length_append, hsplit]
        have hpos : 0 < first.length := by
          rw [hfirst, length_take]
          omega
        have hstore : Writing (Migration.store f first) (put ++ first) rest.length :=
          Writing.store (by rwa [hsum]) (by rw [hfirst, length_take]; omega)
        obtain ⟨f', heq, hf'⟩ := ih (by omega) hstore
        refine ⟨f', ?_, by rwa [append_assoc, hsplit] at hf'⟩
        rw [Migration.putBufferLoop, if_neg herr]
        exact heq

/-- A flush leaves nothing in the buffer. -/
theorem Writing.buf_qemuFflush (h : Writing f put n) : (qemuFflush f).buf = [] := by
  obtain ⟨b, hb, -⟩ := h.sink
  by_cases hpos : 0 < f.bufIndex
  · have hcond : (f.isWrite && decide (0 < f.bufIndex)) = true := by
      simp [h.mode.resolve_right hpos.ne', hpos]
    simp only [qemuFflush, hb, hcond, if_true]
    cases b.next <;> rfl
  · have hcond : (f.isWrite && decide (0 < f.bufIndex)) = false := by simp [hpos]
    simp only [qemuFflush, hb, hcond, Bool.false_eq_true, if_false]
    exact length_eq_zero_iff.mp (by rw [← h.index]; omega)

/-- No call of the backend in this step takes some of the bytes and not all of them. -/
def TakesAll (f : QemuFile) (op : WriteOp) : Prop :=
  f.hasError = false → ∀ b, f.sink = some b →
    match op with
    | .flush => ∀ m, b.next = .accept m → f.bufIndex ≤ m + 1
    | op => FullCalls f b op.bytes.length

theorem Writing.step {op : WriteOp} (h : Writing f put 0) (htakes : TakesAll f op) :
    ∃ f', writeStep f op = some f' ∧ Writing f' (put ++ op.bytes) 0 := by
  obtain ⟨b, hb, hbytes⟩ := h.sink
  have hn : ∀ {n : ℕ}, (f.hasError = false → FullCalls f b n) → Writing f put n := fun hfull =>
    ⟨h.index, h.lt, h.mode, b, hb, fun herr => ⟨(hbytes herr).1, hfull herr⟩⟩
  cases op with
  | byte v => exact (hn fun herr => htakes herr b hb).putByte v
  | buffer l =>
    obtain ⟨f', heq, hf'⟩ := Writing.putBufferLoop le_rfl (hn fun herr => htakes herr b hb)
    refine ⟨f', ?_, hf'⟩
    rw [writeStep, qemuPutBuffer, h.not_readPending]
    exact heq
  | be16 v =>
    rw [writeStep, qemuPutBe16_eq]
    exact Writing.putBytes (hn fun herr => htakes herr b hb)
  | be32 v =>
    rw [writeStep, qemuPutBe32_eq]
    exact Writing.putBytes (hn fun herr => htakes herr b hb)
  | be64 v =>
    rw [writeStep, qemuPutBe64_eq]
    exact Writing.putBytes (hn fun herr => htakes herr b hb)
  | flush =>
    obtain ⟨hzero, hnil, -, b', hb', -, -, hacc⟩ := qemuFflush_spec h.index h.mode hb
      (fun herr => (hbytes herr).1) (fun herr _ => htakes herr b hb)
    refine ⟨qemuFflush f, rfl, by rw [hzero, hnil]; rfl, by rw [hzero]; decide, .inr hzero, b', hb',
      fun herr => ⟨?_, ?_⟩⟩
    · rw [hnil, append_nil, (hacc herr).2]
      exact (append_nil put).symm
    · intro k hk
      rw [hzero] at hk
      exact absurd hk k.not_lt_zero

/-! ### What is read -/

/-- The bytes in the buffer that have not been read. -/
def unread (f : QemuFile) : List UInt8 := f.buf.drop f.bufIndex

/-- How many bytes an answer delivers. -/
def Delivery.amount : Delivery → ℕ
  | data l => min ioBufSize l.length
  | _ => 0

/-- The file is being read from `s`. -/
structure Reading (f : QemuFile) (s : Feed) : Prop where
  mode : f.isWrite = false
  size : f.bufSize = f.buf.length
  le : f.bufIndex ≤ f.bufSize
  feed : f.feed = some s

/-- Until `n` more bytes have been read, the backend does not answer `-EAGAIN`: it does not do so
after calls that delivered too little. -/
def Fed (f : QemuFile) (s : Feed) (n : ℕ) : Prop :=
  ∀ k, (∀ i < k, ∃ x l, s.answers (s.calls + i) = .data (x :: l)) →
    (unread f).length + ((List.range k).map fun i => (s.answers (s.calls + i)).amount).sum < n →
    s.answers (s.calls + k) ≠ .again

variable {s : Feed}

theorem unread_eq_nil (h : Reading f s) : unread f = [] ↔ f.bufSize ≤ f.bufIndex := by
  rw [unread, drop_eq_nil_iff, h.size]

theorem unread_cons (hne : unread f ≠ []) : ∃ l, unread f = (f.buf[f.bufIndex]?).getD 0 :: l := by
  have hlt : f.bufIndex < f.buf.length := by
    by_contra hge
    exact hne (drop_eq_nil_of_le (Nat.not_lt.mp hge))
  refine ⟨f.buf.drop (f.bufIndex + 1), ?_⟩
  rw [getElem?_eq_getElem hlt, getD_some, unread]
  exact drop_eq_getElem_cons hlt

variable {f' : QemuFile}

/-- A chunk has come. -/
theorem Fed.deliver {x : UInt8} (h : Fed f s n) (hempty : unread f = [])
    (hnext : s.next = .data (x :: l)) (hunread : unread f' = (x :: l).take ioBufSize) :
    Fed f' (s.deliver ((x :: l).take ioBufSize)) n := by
  intro k hdata hlt
  have hshift : ∀ i, (s.deliver ((x :: l).take ioBufSize)).answers
      ((s.deliver ((x :: l).take ioBufSize)).calls + i) = s.answers (s.calls + (i + 1)) := by
    intro i
    show s.answers (s.calls + 1 + i) = _
    rw [Nat.add_assoc, Nat.add_comm 1 i]
  rw [hshift]
  refine h (k + 1) (fun i hi => ?_) ?_
  · cases i with
    | zero => exact ⟨x, l, hnext⟩
    | succ i =>
      rw [← hshift]
      exact hdata i (by omega)
  · have hfirst : (s.answers (s.calls + 0)).amount = ((x :: l).take ioBufSize).length := by
      rw [show s.answers (s.calls + 0) = .data (x :: l) from hnext, length_take]
      rfl
    have hrest : (range k).map ((fun i => (s.answers (s.calls + i)).amount) ∘ Nat.succ) =
        (range k).map fun i => ((s.deliver ((x :: l).take ioBufSize)).answers
          ((s.deliver ((x :: l).take ioBufSize)).calls + i)).amount :=
      map_congr_left fun i _ => congrArg Delivery.amount (hshift i).symm
    rw [range_succ_eq_map, map_cons, List.map_map, sum_cons, hfirst, hrest, hempty]
    rw [hunread] at hlt
    simp only [length_nil, Nat.zero_add]
    exact hlt

/-- Bytes have been taken from the buffer. -/
theorem Fed.take {m : ℕ} (h : Fed f s (n + m))
    (hlen : (unread f).length = n + (unread f').length) : Fed f' s m := by
  intro k hdata hlt
  exact h k hdata (by omega)

/-- The same, unless there has been an error. -/
def Supplied (f : QemuFile) (s : Feed) (n : ℕ) : Prop := f.hasError = false → Fed f s n

theorem Supplied.mono {m : ℕ} (h : Supplied f s n) (hle : m ≤ n) : Supplied f s m :=
  fun hno k hdata hlt =>
  h hno k hdata (hlt.trans_le hle)

/-- What `refill` leads to, for a reader that wants `n` bytes. -/
structure Refilled (f : QemuFile) (s : Feed) (f' : QemuFile) (s' : Feed) : Prop where
  reading : Reading f' s'
  error : f.hasError = true → f'.hasError = true
  bytes : f'.hasError = false → unread f' ≠ [] ∧
    ∃ new, s'.delivered = s.delivered ++ new ∧ unread f' = unread f ++ new
  fed : f'.hasError = false → ∀ n, 0 < n → Fed f s n → Fed f' s' n

theorem refill_spec (h : Reading f s) (hfed : Supplied f s 1) :
    ∃ f' s', refill f = some f' ∧ Refilled f s f' s' := by
  by_cases hempty : f.bufSize ≤ f.bufIndex
  · have hnil := (unread_eq_nil h).mpr hempty
    have heq : refill f = qemuFillBuffer f := by
      rw [refill, h.mode, if_pos hempty]
      rfl
    rw [heq]
    have hfailed :
        qemuFillBuffer f = some { f with feed := some (s.deliver []), hasError := true } →
        ∃ f' s', qemuFillBuffer f = some f' ∧ Refilled f s f' s' := fun heq =>
      ⟨_, s.deliver [], heq, ⟨h.mode, h.size, h.le, rfl⟩, fun _ => rfl, by simp, by simp⟩
    cases hnext : s.next with
    | again =>
      have herr : f.hasError = true := by
        rw [← Bool.not_eq_false]
        intro hno
        exact hfed hno 0 (fun i hi => absurd hi i.not_lt_zero) (by simp [hnil]) hnext
      refine ⟨{ f with feed := some (s.deliver []) }, s.deliver [], ?_, ?_⟩
      · simp [qemuFillBuffer, h.feed, h.mode, hnext]
      · exact ⟨⟨h.mode, h.size, h.le, rfl⟩, fun _ => herr, by simp [herr], by simp [herr]⟩
    | fail => exact hfailed (by simp [qemuFillBuffer, h.feed, h.mode, hnext])
    | data l =>
      cases l with
      | nil => exact hfailed (by simp [qemuFillBuffer, h.feed, h.mode, hnext])
      | cons x l =>
        have hchunk : unread { f with
            feed := some (s.deliver ((x :: l).take ioBufSize))
            bufIndex := 0
            bufSize := ((x :: l).take ioBufSize).length
            bufOffset := f.bufOffset + ((x :: l).take ioBufSize).length
            buf := (x :: l).take ioBufSize } = (x :: l).take ioBufSize := drop_zero
        refine ⟨_, s.deliver ((x :: l).take ioBufSize),
          by simp only [qemuFillBuffer, h.feed, h.mode, hnext]; rfl, ?_⟩
        refine ⟨⟨rfl, rfl, Nat.zero_le _, rfl⟩, fun herr => herr, fun _ => ?_, fun _ n _ hn => ?_⟩
        · rw [← h.mode, hchunk, hnil]
          exact ⟨by simp [ioBufSize], (x :: l).take ioBufSize, rfl, rfl⟩
        · rw [← h.mode]
          exact hn.deliver hnil hnext hchunk
  · have hne : unread f ≠ [] := fun hnil => hempty ((unread_eq_nil h).mp hnil)
    refine ⟨f, s, by rw [refill, h.mode, if_neg hempty]; rfl, h, fun herr => herr, fun _ => ?_,
      fun _ n _ hn => hn⟩
    exact ⟨hne, [], (append_nil _).symm, (append_nil _).symm⟩

/-- The bytes `l` have been read, in place of `n`. -/
structure Got (f : QemuFile) (s : Feed) (n : ℕ) (l : List UInt8) (f' : QemuFile) (s' : Feed) :
    Prop where
  reading : Reading f' s'
  error : f.hasError = true → f'.hasError = true
  bytes : f'.hasError = false → l.length = n ∧
    ∃ new, s'.delivered = s.delivered ++ new ∧ l ++ unread f' = unread f ++ new
  fed : f'.hasError = false → ∀ m, Fed f s (n + m) → Fed f' s' m

theorem Got.no_error {s' : Feed} (h : Got f s n l f' s') (hno : f'.hasError = false) :
    f.hasError = false :=
  Bool.eq_false_of_not_eq_true fun herr => Bool.false_ne_true (hno.symm.trans (h.error herr))

theorem Got.supplied {s' : Feed} {m : ℕ} (h : Got f s n l f' s') (hfed : Supplied f s (n + m)) :
    Supplied f' s' m :=
  fun hno => h.fed hno m (hfed (h.no_error hno))

theorem Got.trans {f₁ f₂ : QemuFile} {s₁ s₂ : Feed} {m : ℕ} {l' : List UInt8}
    (h : Got f s n l f₁ s₁) (h' : Got f₁ s₁ m l' f₂ s₂) : Got f s (n + m) (l ++ l') f₂ s₂ where
  reading := h'.reading
  error herr := h'.error (h.error herr)
  bytes hno := by
    obtain ⟨hlen, new, hdel, hbytes⟩ := h.bytes (h'.no_error hno)
    obtain ⟨hlen', new', hdel', hbytes'⟩ := h'.bytes hno
    refine ⟨by rw [length_append, hlen, hlen'], new ++ new', ?_, ?_⟩
    · rw [hdel', hdel, append_assoc]
    · rw [append_assoc, hbytes', ← append_assoc, hbytes, append_assoc]
  fed hno k hk := by
    refine h'.fed hno k (h.fed (h'.no_error hno) (m + k) ?_)
    rwa [← Nat.add_assoc]

theorem Got.refl (h : Reading f s) : Got f s 0 [] f s where
  reading := h
  error herr := herr
  bytes _ := ⟨rfl, [], (append_nil _).symm, (append_nil _).symm⟩
  fed _ m hm := by rwa [Nat.zero_add] at hm

variable {f₁ : QemuFile} {s₁ : Feed}

/-- A buffer that is empty after `refill` means an error. -/
theorem Refilled.no_bytes (hr : Refilled f s f₁ s₁) (hempty : f₁.bufSize ≤ f₁.bufIndex) :
    ¬f₁.hasError = false := fun hno =>
  (hr.bytes hno).1 ((unread_eq_nil hr.reading).mpr hempty)

theorem Refilled.fail (hr : Refilled f s f₁ s₁) (hempty : f₁.bufSize ≤ f₁.bufIndex) (n : ℕ)
    (l : List UInt8) :
    Got f s n l f₁ s₁ :=
  ⟨hr.reading, hr.error, fun hno => absurd hno (hr.no_bytes hempty), fun hno =>
    absurd hno (hr.no_bytes hempty)⟩

/-- Bytes are taken from the buffer. -/
theorem Reading.take (h : Reading f s) (hl : l <+: unread f) :
    Reading { f with bufIndex := f.bufIndex + l.length } s ∧
      l ++ unread { f with bufIndex := f.bufIndex + l.length } = unread f := by
  have hlen : l.length ≤ f.buf.length - f.bufIndex := by
    rw [← length_drop]
    exact hl.length_le
  have hsize := h.size
  have hle := h.le
  obtain ⟨rest, hrest⟩ := hl
  refine ⟨⟨h.mode, hsize, by show f.bufIndex + l.length ≤ f.bufSize; omega, h.feed⟩, ?_⟩
  rw [← hrest, unread, ← drop_drop, show f.buf.drop f.bufIndex = _ from hrest.symm, drop_left]

theorem Refilled.take (hr : Refilled f s f₁ s₁) (hpos : 0 < l.length) (hl : l <+: unread f₁) :
    Got f s l.length l { f₁ with bufIndex := f₁.bufIndex + l.length } s₁ := by
  obtain ⟨hread, hsplit⟩ := hr.reading.take hl
  refine ⟨hread, hr.error, fun hno => ?_, fun hno m hm => ?_⟩
  · obtain ⟨-, new, hdel, hbytes⟩ := hr.bytes hno
    exact ⟨rfl, new, hdel, by rw [hsplit, hbytes]⟩
  · refine (hr.fed hno (l.length + m) (by omega) hm).take ?_
    rw [← hsplit, length_append]

theorem qemuGetByte_spec (h : Reading f s) (hfed : Supplied f s 1) :
    ∃ b f' s', qemuGetByte f = some (b, f') ∧ Got f s 1 [b] f' s' := by
  obtain ⟨f₁, s₁, heq, hr⟩ := refill_spec h hfed
  by_cases hempty : f₁.bufSize ≤ f₁.bufIndex
  · refine ⟨0, f₁, s₁, ?_, hr.fail hempty 1 [0]⟩
    simp only [qemuGetByte, heq, bind_eq_bind, bind_some, if_pos hempty]
  · obtain ⟨l, hcons⟩ := unread_cons fun hnil => hempty ((unread_eq_nil hr.reading).mp hnil)
    refine ⟨(f₁.buf[f₁.bufIndex]?).getD 0, _, s₁, ?_, hr.take (l := [_]) Nat.one_pos
      ⟨l, hcons.symm⟩⟩
    simp only [qemuGetByte, heq, bind_eq_bind, bind_some, if_neg hempty]
    rfl

theorem getBytes_spec (h : Reading f s) (hfed : Supplied f s n) :
    ∃ l f' s', getBytes n f = some (l, f') ∧ l.length = n ∧ Got f s n l f' s' := by
  induction n generalizing f s with
  | zero => exact ⟨[], f, s, rfl, rfl, .refl h⟩
  | succ n ih =>
    rw [Nat.add_comm] at hfed
    obtain ⟨b, f₁, s₁, heq, hgot⟩ := qemuGetByte_spec h (hfed.mono (Nat.le_add_right 1 n))
    obtain ⟨l, f₂, s₂, heq₂, hlen, hgot₂⟩ := ih hgot.reading (hgot.supplied hfed)
    refine ⟨b :: l, f₂, s₂, ?_, by rw [length_cons, hlen], ?_⟩
    · simp only [getBytes, heq, heq₂, bind_eq_bind, bind_some]
    · rw [Nat.add_comm n 1]
      exact hgot.trans hgot₂

theorem getBufferLoop_spec {fuel size : ℕ} (acc : List UInt8)
    (hfuel : size ≤ fuel) (h : Reading f s) (hfed : Supplied f s size) :
    ∃ l f' s', getBufferLoop fuel f size acc = some (acc ++ l, f') ∧ Got f s size l f' s' := by
  induction fuel generalizing f s size acc with
  | zero =>
    obtain rfl := Nat.le_zero.mp hfuel
    exact ⟨[], f, s, by simp [getBufferLoop], .refl h⟩
  | succ fuel ih =>
    cases size with
    | zero => exact ⟨[], f, s, by simp [getBufferLoop], .refl h⟩
    | succ size =>
      obtain ⟨f₁, s₁, heq, hr⟩ := refill_spec h (hfed.mono (Nat.le_add_left 1 size))
      by_cases hempty : f₁.bufSize ≤ f₁.bufIndex
      · refine ⟨[], f₁, s₁, ?_, hr.fail hempty (size + 1) []⟩
        simp only [getBufferLoop, heq, bind_eq_bind, bind_some, if_pos hempty, append_nil]
      · set l := (f₁.buf.drop f₁.bufIndex).take (size + 1) with hl
        have hsize := hr.reading.size
        have hlen : l.length = min (size + 1) (f₁.buf.length - f₁.bufIndex) := by
          rw [hl, length_take, length_drop]
        have hgot := hr.take (l := l) (by omega) ⟨_, take_append_drop _ _⟩
        set f₂ : QemuFile := { f₁ with bufIndex := f₁.bufIndex + l.length } with hf₂
        have hsum : l.length + (size + 1 - l.length) = size + 1 := by omega
        rw [← hsum] at hfed
        obtain ⟨l', f₃, s₃, heq₃, hgot₃⟩ :=
          ih (acc ++ l) (by omega) hgot.reading (hgot.supplied hfed)
        refine ⟨l ++ l', f₃, s₃, ?_, ?_⟩
        · simp only [getBufferLoop, heq, bind_eq_bind, bind_some, if_neg hempty]
          rw [← append_assoc]
          exact heq₃
        · rw [← hsum]
          exact hgot.trans hgot₃

/-! ### Calls that read -/

/-- What a call leads to: if there is no error it returns the next bytes, as many as it asked
for. -/
structure Answered (f : QemuFile) (s : Feed) (op : ReadOp) (l : List UInt8)
    (f' : QemuFile) (s' : Feed) :
    Prop where
  reading : Reading f' s'
  error : f.hasError = true → f'.hasError = true
  bytes : f'.hasError = false → l.length = op.size ∧ ∃ new, s'.delivered = s.delivered ++ new ∧
    l <+: unread f ++ new ∧ unread f' = (unread f ++ new).drop op.taken

theorem Got.answered {s' : Feed} {op : ReadOp}
    (h : Got f s n l f' s') (hsize : op.size = n) (htaken : op.taken = n) :
    Answered f s op l f' s' where
  reading := h.reading
  error := h.error
  bytes hno := by
    obtain ⟨hlen, new, hdel, hbytes⟩ := h.bytes hno
    refine ⟨hlen.trans hsize.symm, new, hdel, ⟨unread f', hbytes⟩, ?_⟩
    rw [← hbytes, htaken, ← hlen, drop_left]

/-- The backend does not answer `-EAGAIN` before this step has what it asks for. -/
def NotStarved (f : QemuFile) (op : ReadOp) : Prop :=
  f.hasError = false → ∀ s, f.feed = some s → Fed f s op.size

theorem qemuPeekByte_spec (h : Reading f s) (hfed : Supplied f s 1) :
    ∃ b f' s', qemuPeekByte f = some (b, f') ∧ Answered f s .peek [b] f' s' := by
  obtain ⟨f₁, s₁, heq, hr⟩ := refill_spec h hfed
  by_cases hempty : f₁.bufSize ≤ f₁.bufIndex
  · refine ⟨0, f₁, s₁, ?_, hr.reading, hr.error, fun hno => absurd hno (hr.no_bytes hempty)⟩
    simp only [qemuPeekByte, heq, bind_eq_bind, bind_some, if_pos hempty]
  · obtain ⟨l, hcons⟩ := unread_cons fun hnil => hempty ((unread_eq_nil hr.reading).mp hnil)
    refine ⟨(f₁.buf[f₁.bufIndex]?).getD 0, f₁, s₁, ?_, hr.reading, hr.error, fun hno => ?_⟩
    · simp only [qemuPeekByte, heq, bind_eq_bind, bind_some, if_neg hempty]
    · obtain ⟨-, new, hdel, hbytes⟩ := hr.bytes hno
      exact ⟨rfl, new, hdel, ⟨l, by rw [← hbytes, hcons]; rfl⟩, hbytes⟩

/-- A number that is read stands for the bytes that are read. -/
theorem qemuGetBe_spec (h : Reading f s) (hfed : Supplied f s n) :
    ∃ v l f' s', qemuGetBe n f = some (v, f') ∧ v = ofBe l ∧ l.length = n ∧ Got f s n l f' s' := by
  obtain ⟨l, f', s', heq, hlen, hgot⟩ := getBytes_spec h hfed
  exact ⟨ofBe l, l, f', s', by rw [qemuGetBe, heq]; rfl, rfl, hlen, hgot⟩

theorem qemuGetBe64_spec (h : Reading f s) (hfed : Supplied f s 8) :
    ∃ v l f' s', qemuGetBe64 f = some (v, f') ∧ v = ofBe l ∧ l.length = 8 ∧ Got f s 8 l f' s' := by
  obtain ⟨hi, l, f₁, s₁, heq, rfl, hlen, hgot⟩ := qemuGetBe_spec (n := 4) h (hfed.mono (by decide))
  obtain ⟨lo, l', f₂, s₂, heq₂, rfl, hlen', hgot₂⟩ :=
    qemuGetBe_spec (n := 4) hgot.reading (hgot.supplied hfed)
  refine ⟨ofBe l * 2 ^ 32 + ofBe l', l ++ l', f₂, s₂, ?_, ?_, ?_, hgot.trans hgot₂⟩
  · simp only [qemuGetBe64, qemuGetBe32, heq, heq₂, bind_eq_bind, bind_some]
  · rw [ofBe_append, hlen', show 256 ^ 4 = 2 ^ 32 from rfl]
  · rw [length_append, hlen, hlen']

theorem readCall_spec {op : ReadOp} (h : Reading f s) (hstarved : NotStarved f op) :
    ∃ l f' s', readCall f op = some (l, f') ∧ Answered f s op l f' s' := by
  have hfed : Supplied f s op.size := fun hno => hstarved hno s h.feed
  cases op with
  | byte =>
    obtain ⟨b, f', s', heq, hgot⟩ := qemuGetByte_spec h hfed
    exact ⟨[b], f', s', by rw [readCall, heq]; rfl, hgot.answered rfl rfl⟩
  | peek =>
    obtain ⟨b, f', s', heq, hans⟩ := qemuPeekByte_spec h hfed
    exact ⟨[b], f', s', by rw [readCall, heq]; rfl, hans⟩
  | buffer size =>
    obtain ⟨l, f', s', heq, hgot⟩ := getBufferLoop_spec [] le_rfl h hfed
    refine ⟨l, f', s', ?_, hgot.answered rfl rfl⟩
    rw [readCall, qemuGetBuffer, h.mode]
    exact heq
  | be16 =>
    obtain ⟨v, l, f', s', heq, rfl, hlen, hgot⟩ := qemuGetBe_spec (n := 2) h hfed
    refine ⟨l, f', s', ?_, hgot.answered rfl rfl⟩
    rw [readCall, qemuGetBe16, heq, map_some, ← hlen, beBytes_ofBe]
  | be32 =>
    obtain ⟨v, l, f', s', heq, rfl, hlen, hgot⟩ := qemuGetBe_spec (n := 4) h hfed
    refine ⟨l, f', s', ?_, hgot.answered rfl rfl⟩
    rw [readCall, qemuGetBe32, heq, map_some, ← hlen, beBytes_ofBe]
  | be64 =>
    obtain ⟨v, l, f', s', heq, rfl, hlen, hgot⟩ := qemuGetBe64_spec h hfed
    refine ⟨l, f', s', ?_, hgot.answered rfl rfl⟩
    rw [readCall, heq, map_some, ← hlen, beBytes_ofBe]

/-! ### Runs of calls -/

/-- A log of calls, with the bytes that each returned. -/
abbrev ReadLog : Type := List (ReadOp × List UInt8)

/-- How many bytes the calls have taken. -/
def takenBytes (log : ReadLog) : ℕ := (log.map fun e => e.1.taken).sum

/-- The calls returned the bytes that the backend delivered, each from where the ones before it
ended. -/
def Faithful (log : ReadLog) (delivered : List UInt8) : Prop :=
  ∀ pre op l post, log = pre ++ (op, l) :: post →
    l.length = op.size ∧ l <+: delivered.drop (takenBytes pre)

theorem Faithful.mono {log : ReadLog} {d d' : List UInt8} (h : Faithful log d) (hd : d <+: d') :
    Faithful log d' := fun pre op l post heq =>
  ⟨(h pre op l post heq).1, (h pre op l post heq).2.trans (hd.drop _)⟩

theorem Faithful.concat {log : ReadLog} {d : List UInt8} {op : ReadOp} (h : Faithful log d)
    (hlen : l.length = op.size) (hl : l <+: d.drop (takenBytes log)) :
    Faithful (log ++ [(op, l)]) d := by
  intro pre op' l' post heq
  rcases eq_nil_or_concat post with rfl | ⟨post', e, rfl⟩
  · obtain ⟨rfl, hlast⟩ := append_inj' heq rfl
    obtain ⟨rfl, rfl⟩ := Prod.mk.inj (List.cons.inj hlast).1
    exact ⟨hlen, hl⟩
  · rw [concat_eq_append, ← cons_append, ← append_assoc] at heq
    exact h pre op' l' post' (append_inj_left' heq rfl)

/-- What holds while a file is read. -/
structure ReadInv (f : QemuFile) (log : ReadLog) (s : Feed) : Prop where
  reading : Reading f s
  bytes : f.hasError = false → unread f = s.delivered.drop (takenBytes log) ∧
    takenBytes log ≤ s.delivered.length ∧ Faithful log s.delivered

theorem ReadOp.taken_le_size (op : ReadOp) : op.taken ≤ op.size := by
  cases op <;> simp [taken, size]

theorem ReadInv.step {log : ReadLog} {s' : Feed} {op : ReadOp}
    (h : ReadInv f log s) (hans : Answered f s op l f' s') : ReadInv f' (log ++ [(op, l)]) s' where
  reading := hans.reading
  bytes hno := by
    obtain ⟨hlen, new, hdel, hl, hrest⟩ := hans.bytes hno
    have hno' : f.hasError = false :=
      Bool.eq_false_of_not_eq_true fun herr => Bool.false_ne_true (hno.symm.trans (hans.error herr))
    obtain ⟨hunread, hle, hfaithful⟩ := h.bytes hno'
    have hdrop : unread f ++ new = s'.delivered.drop (takenBytes log) := by
      rw [hdel, drop_append_of_le_length hle, hunread]
    have htaken : takenBytes (log ++ [(op, l)]) = takenBytes log + op.taken := by
      simp [takenBytes]
    have htotal : takenBytes log + op.size ≤ s'.delivered.length := by
      have hlength := hl.length_le
      rw [hdrop, length_drop, hlen] at hlength
      have hle' := congrArg List.length hdel
      rw [length_append] at hle'
      omega
    refine ⟨?_, ?_, ?_⟩
    · rw [hrest, hdrop, drop_drop, htaken]
    · have := op.taken_le_size
      omega
    · refine (hfaithful.mono ⟨new, hdel.symm⟩).concat hlen ?_
      rwa [← hdrop]

/-- A file that is written. -/
def openWrite (answers : ℕ → Answer) : QemuFile := qemuFopenOps (some ⟨answers, 0, []⟩) none

/-- A file that is read. -/
def openRead (answers : ℕ → Delivery) : QemuFile := qemuFopenOps none (some ⟨answers, 0, []⟩)

theorem writeRun_spec {answers : ℕ → Answer} {ops : List WriteOp}
    (htakes : ∀ p op t, p ++ [op] <+: ops → run writeStep (openWrite answers) p = some t →
      TakesAll t op) :
    ∃ f, run writeStep (openWrite answers) ops = some f ∧
    Writing f (ops.flatMap WriteOp.bytes) 0 := by
  induction ops using reverseRecOn with
  | nil =>
    refine ⟨_, rfl, rfl, Nat.zero_lt_succ _, .inr rfl, _, rfl, fun _ => ⟨rfl, fun k hk => ?_⟩⟩
    rw [show (openWrite answers).bufIndex + 0 = 0 from rfl, Nat.zero_div] at hk
    exact absurd hk k.not_lt_zero
  | append_singleton ops op ih =>
    obtain ⟨f, hf, hwriting⟩ := ih fun p op' t hp ht =>
      htakes p op' t (hp.trans (prefix_append ops [op])) ht
    obtain ⟨f', hstep, hwriting'⟩ := hwriting.step (htakes ops op f prefix_rfl hf)
    refine ⟨f', run_concat_eq_some.mpr ⟨f, hf, hstep⟩, ?_⟩
    rw [flatMap_append, flatMap_singleton]
    exact hwriting'

theorem readRun_spec {answers : ℕ → Delivery} {ops : List ReadOp}
    (hstarved : ∀ p op t, p ++ [op] <+: ops → run readStep (openRead answers, []) p = some t →
      NotStarved t.1 op) :
    ∃ f log s, run readStep (openRead answers, []) ops = some (f, log) ∧ log.map Prod.fst = ops ∧
      ReadInv f log s := by
  induction ops using reverseRecOn with
  | nil =>
    refine ⟨_, [], _, rfl, rfl, ⟨rfl, rfl, le_rfl, rfl⟩, fun _ => ⟨rfl, le_rfl, ?_⟩⟩
    intro pre op l post heq
    exact absurd heq (by simp)
  | append_singleton ops op ih =>
    obtain ⟨f, log, s, hrun, hops, hinv⟩ := ih fun p op' t hp ht =>
      hstarved p op' t (hp.trans (prefix_append ops [op])) ht
    obtain ⟨l, f', s', hcall, hans⟩ :=
      readCall_spec hinv.reading (hstarved ops op (f, log) prefix_rfl hrun)
    refine ⟨f', log ++ [(op, l)], s', run_concat_eq_some.mpr ⟨(f, log), hrun, ?_⟩, ?_,
      hinv.step hans⟩
    · rw [readStep, hcall]
      rfl
    · rw [map_append, hops]
      rfl

/-- **No byte is lost or invented.** If the backend takes all of what it is offered or fails, then
after the last flush it has got all bytes unless there is an error. If it does not answer `-EAGAIN`
when it is asked for bytes, then the calls return the bytes that it delivers, in order and as many
as asked for, unless there is an error. -/
theorem bytes_kept {answers : ℕ → Answer} {writes : List WriteOp} {deliveries : ℕ → Delivery}
    {reads : List ReadOp} (htakes : ∀ p op t, p ++ [op] <+: writes ++ [.flush] →
      run writeStep (openWrite answers) p = some t → TakesAll t op)
    (hstarved : ∀ p op t, p ++ [op] <+: reads → run readStep (openRead deliveries, []) p = some t →
      NotStarved t.1 op) :
    (∃ f b, run writeStep (openWrite answers) (writes ++ [.flush]) = some f ∧ f.sink = some b ∧
      (f.hasError = false → b.accepted = writes.flatMap WriteOp.bytes)) ∧
    ∃ f log s, run readStep (openRead deliveries, []) reads = some (f, log) ∧
      log.map Prod.fst = reads ∧ f.feed = some s ∧
      (f.hasError = false → Faithful log s.delivered) := by
  constructor
  · obtain ⟨f, hf, hwriting⟩ := writeRun_spec htakes
    obtain ⟨b, hb, hbytes⟩ := hwriting.sink
    refine ⟨f, b, hf, hb, fun herr => ?_⟩
    obtain ⟨g, hg, hflush⟩ := run_concat_eq_some.mp hf
    obtain ⟨g', hg', hwriting'⟩ := writeRun_spec fun p op t hp =>
      htakes p op t (hp.trans (prefix_append writes [.flush]))
    obtain rfl : g' = g := some.inj (hg'.symm.trans hg)
    have hempty : f.buf = [] := by
      cases hflush
      exact hwriting'.buf_qemuFflush
    have hput := (hbytes herr).1
    rw [hempty, append_nil, flatMap_append] at hput
    rw [hput]
    exact append_nil _
  · obtain ⟨f, log, s, hrun, hops, hinv⟩ := readRun_spec hstarved
    exact ⟨f, log, s, hrun, hops, hinv.reading.feed, fun herr => (hinv.bytes herr).2.2⟩

/-- A byte that the backend did not take is lost, and a byte that nobody delivered is read. There is
no error in either case. -/
theorem bytes_lost_and_invented :
    (((run writeStep (openWrite fun _ => .accept 0) [.buffer [1, 2], .flush]).map fun f =>
        (f.hasError, f.sink.map Sink.accepted)) = some (false, some [1])) ∧
      ((run readStep (openRead fun _ => .again, []) [.byte]).map fun r =>
        (r.1.hasError, r.2.map Prod.snd, r.1.feed.map Feed.delivered)) =
          some (false, [[0]], some []) := by
  decide +kernel

/-- Two bytes are written with one call of the backend, and two are read with two calls. -/
theorem two_bytes_kept :
    (∃ f b, run writeStep (openWrite fun _ => .accept 1) [.buffer [1, 2], .flush] = some f ∧
      f.sink = some b ∧ (f.hasError = false → b.accepted = [1, 2])) ∧
    ∃ f log s, run readStep (openRead fun _ => .data [7], []) [.be16] = some (f, log) ∧
      log.map Prod.fst = [.be16] ∧ f.feed = some s ∧
      (f.hasError = false → Faithful log s.delivered) := by
  refine @bytes_kept _ [.buffer [1, 2]] _ _ (Along.cond ⟨?_, fun t ht => ⟨?_, fun _ _ => trivial⟩⟩)
    (Along.cond ⟨?_, fun _ _ => trivial⟩)
  · intro _ b _ k hk
    exact absurd hk (by simp [openWrite, qemuFopenOps, WriteOp.bytes, ioBufSize])
  · cases ht
    intro _ b hb m hm
    cases hb
    cases hm
    exact le_rfl
  · intro _ s hs k _ _
    cases hs
    exact nofun

end VariabilityTestbed.Migration
