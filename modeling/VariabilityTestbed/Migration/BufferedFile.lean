import Mathlib.Algebra.Ring.Int.Defs
import Mathlib.Algebra.Ring.Nat
import VariabilityTestbed.Lib.Runs

/-!
# The rate-limited file of a migration

`QEMUFileBuffered` stands between the code that saves a machine and a socket that does not block.
What the socket does not take is buffered, and offered again later. There are three ways from a put
to the socket: bytes that are offered directly, bytes that are flushed before a put, and bytes that
are flushed by the timer or when the file is closed.

The backend is described by its answers, one for each call, and nothing is assumed about them. Bytes
that it accepted are logged.

`buffered_put_buffer` flushes first and then goes on without looking at `has_error`. So if the flush
fails and the backend then takes the new bytes, it gets them without the ones that are still in the
buffer. This is the only way to lose the order (`accepted_in_order`).
-/

namespace VariabilityTestbed.Migration

open Runs List Option

/-! ### The backend -/

/-- What the backend answers to a call: it takes `n + 1` of the bytes, or all of them if there are
fewer; it answers `-EAGAIN`; or it fails. -/
inductive Answer where
  | accept (n : ℕ)
  | again
  | fail
  deriving DecidableEq

/-- How many bytes an answer takes at most. -/
def Answer.amount : Answer → ℕ
  | accept n => n + 1
  | _ => 0

/-- A backend with the answers that it will give, the number of calls so far, and the bytes that it
accepted. -/
structure Sink where
  answers : ℕ → Answer
  calls : ℕ
  accepted : List UInt8

namespace Sink

/-- The answer to the next call. -/
def next (b : Sink) : Answer := b.answers b.calls

/-- A call that takes the bytes `l`. -/
def take (b : Sink) (l : List UInt8) : Sink :=
  { b with calls := b.calls + 1, accepted := b.accepted ++ l }

end Sink

/-! ### State -/

/-- `QEMUFileBuffered`. `ready` counts the calls of `put_ready`. After `buffered_close` the
structure is freed. -/
structure BufferedFile where
  sink : Sink
  hasError : Bool
  freezeOutput : Bool
  bytesXfer : ℕ
  xferLimit : ℕ
  buffer : List UInt8
  ready : ℕ
  closed : Bool

/-- `qemu_fopen_ops_buffered`. -/
def openBuffered (answers : ℕ → Answer) (bytesPerSec : ℕ) : BufferedFile :=
  ⟨⟨answers, 0, []⟩, false, false, 0, bytesPerSec / 10, [], 0, false⟩

/-! ### Flushing -/

/-- The loop of `buffered_flush`: the bytes that are left, and the two flags. Each call that goes on
takes a byte, so the length of the data bounds the number of rounds. -/
def flushLoop : ℕ → Sink → List UInt8 → Sink × List UInt8 × Bool × Bool
  | 0, b, l => (b, l, false, false)
  | _ + 1, b, [] => (b, [], false, false)
  | fuel + 1, b, l =>
    match b.next with
    | .again => (b.take [], l, true, false)
    | .fail => (b.take [], l, false, true)
    | .accept n => flushLoop fuel (b.take (l.take (n + 1))) (l.drop (n + 1))

/-- `buffered_flush`. -/
def bufferedFlush (s : BufferedFile) : BufferedFile :=
  if s.hasError then s
  else
    let r := flushLoop s.buffer.length s.sink s.buffer
    { s with
      sink := r.1
      buffer := r.2.1
      freezeOutput := s.freezeOutput || r.2.2.1
      hasError := r.2.2.2 }

/-! ### Putting -/

/-- The loop of `buffered_put_buffer`: the bytes that are left, or `none` after an error. -/
def putLoop : ℕ → BufferedFile → List UInt8 → BufferedFile × Option (List UInt8)
  | 0, s, l => (s, some l)
  | _ + 1, s, [] => (s, some [])
  | fuel + 1, s, l =>
    if s.freezeOutput || s.xferLimit < s.bytesXfer then (s, some l)
    else
      match s.sink.next with
      | .again => ({ s with sink := s.sink.take [], freezeOutput := true }, some l)
      | .fail => ({ s with sink := s.sink.take [], hasError := true }, none)
      | .accept n =>
        putLoop fuel
          { s with
            sink := s.sink.take (l.take (n + 1))
            bytesXfer := s.bytesXfer + (l.take (n + 1)).length }
          (l.drop (n + 1))

/-- `buffered_append`. The buffer grows as needed. -/
def bufferedAppend (s : BufferedFile) (l : List UInt8) : BufferedFile :=
  { s with buffer := s.buffer ++ l }

/-- `buffered_put_buffer`, with the number of bytes it returns, or `none` for `-EINVAL`. -/
def bufferedPutBuffer (s : BufferedFile) (l : List UInt8) (pos : ℤ) : BufferedFile × Option ℕ :=
  if s.hasError then (s, none)
  else
    let s₁ := bufferedFlush { s with freezeOutput := false }
    let r := putLoop l.length s₁ l
    let s₂ := r.2.elim r.1 (bufferedAppend r.1)
    -- the client is told that the file is ready
    let s₃ := if pos = 0 ∧ l = [] ∧ s₂.bytesXfer ≤ s₂.xferLimit then
      { s₂ with ready := s₂.ready + 1 }
      else s₂
    (s₃, r.2.map fun _ => l.length)

/-! ### Closing, limits and the timer -/

/-- The loop of `buffered_close`, if it ends within so many rounds. Waiting for the backend changes
nothing here. -/
def closeLoop : ℕ → BufferedFile → Option BufferedFile
  | rounds, s =>
    if s.hasError || s.buffer.isEmpty then some s
    else
      match rounds with
      | 0 => none
      | rounds + 1 => closeLoop rounds (bufferedFlush s)

/-- `buffered_close`. -/
def bufferedClose (rounds : ℕ) (s : BufferedFile) : Option BufferedFile :=
  (closeLoop rounds s).map fun s => { s with closed := true }

/-- `buffered_set_rate_limit`, with a `size_t` of 64 bits. -/
def bufferedSetRateLimit (s : BufferedFile) (newRate : ℤ) : BufferedFile :=
  if s.hasError then s else { s with xferLimit := (newRate.tdiv 10 % 2 ^ 64).toNat }

/-- `buffered_rate_tick`. -/
def bufferedRateTick (s : BufferedFile) : Option BufferedFile :=
  if s.hasError then bufferedClose 0 s
  else if s.freezeOutput then some s
  else
    let s' := bufferedFlush { s with bytesXfer := 0 }
    some { s' with ready := s'.ready + 1 }

/-! ### What the loops do -/

namespace Sink

/-- A flush of `n` bytes fails at the `k`-th call from now on: the calls before it take fewer
bytes. -/
def FlushFails (b : Sink) (n k : ℕ) : Prop :=
  (∀ i < k, ∃ m, b.answers (b.calls + i) = .accept m) ∧
    ((List.range k).map fun i => (b.answers (b.calls + i)).amount).sum < n ∧
    b.answers (b.calls + k) = .fail

theorem FlushFails.cons {b : Sink} {l : List UInt8} {m k : ℕ} (hnext : b.next = .accept m)
    (h : (b.take (l.take (m + 1))).FlushFails (l.drop (m + 1)).length k) :
    b.FlushFails l.length (k + 1) := by
  obtain ⟨haccept, hsum, hfail⟩ := h
  have hshift : ∀ i, b.answers (b.calls + (i + 1)) =
      (b.take (l.take (m + 1))).answers ((b.take (l.take (m + 1))).calls + i) := by
    intro i
    show _ = b.answers (b.calls + 1 + i)
    rw [Nat.add_assoc, Nat.add_comm 1 i]
  refine ⟨fun i hi => ?_, ?_, ?_⟩
  · cases i with
    | zero => exact ⟨m, hnext⟩
    | succ i =>
      rw [hshift]
      exact haccept i (by omega)
  · rw [range_succ_eq_map, map_cons, List.map_map, sum_cons]
    have hfirst : (b.answers (b.calls + 0)).amount = m + 1 := by
      rw [show b.answers (b.calls + 0) = .accept m from hnext]
      rfl
    have hrest : ((range k).map ((fun i => (b.answers (b.calls + i)).amount) ∘ Nat.succ)) =
        (range k).map fun i => ((b.take (l.take (m + 1))).answers
          ((b.take (l.take (m + 1))).calls + i)).amount := by
      refine map_congr_left fun i _ => ?_
      exact congrArg Answer.amount (hshift i)
    rw [hfirst, hrest]
    rw [length_drop] at hsum
    omega
  · rw [hshift]
    exact hfail

end Sink

/-- What a flush of `l` leads to. -/
structure Flushed (b : Sink) (l : List UInt8) (r : Sink × List UInt8 × Bool × Bool) : Prop where
  answers : r.1.answers = b.answers
  bytes : ∃ took, took ++ r.2.1 = l ∧ r.1.accepted = b.accepted ++ took
  done : r.2.2.1 = false → r.2.2.2 = false → r.2.1 = []
  failed : r.2.2.2 = true → ∃ k, b.FlushFails l.length k ∧ r.1.calls = b.calls + k + 1
  calls : b.calls ≤ r.1.calls

theorem flushLoop_spec (fuel : ℕ) (b : Sink) (l : List UInt8) (hfuel : l.length ≤ fuel) :
    Flushed b l (flushLoop fuel b l) := by
  induction fuel generalizing b l with
  | zero =>
    obtain rfl := eq_nil_of_length_eq_zero (Nat.le_zero.mp hfuel)
    exact ⟨rfl, ⟨[], rfl, by simp [flushLoop]⟩, fun _ _ => rfl, by simp [flushLoop], le_rfl⟩
  | succ fuel ih =>
    cases l with
    | nil =>
      exact ⟨rfl, ⟨[], rfl, by simp [flushLoop]⟩, fun _ _ => rfl, by simp [flushLoop], le_rfl⟩
    | cons x l =>
      cases hnext : b.next with
      | again =>
        simp only [flushLoop, hnext]
        exact ⟨rfl, ⟨[], rfl, rfl⟩, by simp, by simp, Nat.le_succ _⟩
      | fail =>
        simp only [flushLoop, hnext]
        exact ⟨rfl, ⟨[], rfl, rfl⟩, by simp, fun _ => ⟨0, ⟨by simp, by simp, hnext⟩, rfl⟩,
          Nat.le_succ _⟩
      | accept n =>
        have hlen : ((x :: l).drop (n + 1)).length ≤ fuel := by
          simp only [length_cons] at hfuel
          simp only [drop_succ_cons, length_drop]
          omega
        obtain ⟨hans, ⟨took, hl, hacc⟩, hdone, hfailed, hcalls⟩ :=
          ih (b.take ((x :: l).take (n + 1))) _ hlen
        have heq : flushLoop (fuel + 1) b (x :: l) =
            flushLoop fuel (b.take ((x :: l).take (n + 1))) ((x :: l).drop (n + 1)) := by
          simp only [flushLoop, hnext]
        rw [heq]
        refine ⟨hans, ⟨(x :: l).take (n + 1) ++ took, ?_, ?_⟩, hdone, fun herr => ?_,
          (Nat.le_succ _).trans hcalls⟩
        · rw [append_assoc, hl, take_append_drop]
        · rw [hacc, ← append_assoc]
          rfl
        · obtain ⟨k, hfails, hcalls⟩ := hfailed herr
          refine ⟨k + 1, hfails.cons hnext, hcalls.trans ?_⟩
          show b.calls + 1 + k + 1 = _
          omega

/-- What offering `l` directly leads to. -/
structure Offered (s : BufferedFile) (l : List UInt8) (r : BufferedFile × Option (List UInt8)) :
    Prop where
  buffer : r.1.buffer = s.buffer
  bytes : ∃ took, took <+: l ∧ r.1.sink.accepted = s.sink.accepted ++ took ∧
    (∀ rest, r.2 = some rest → took ++ rest = l) ∧
    ((s.freezeOutput = false → s.bytesXfer ≤ s.xferLimit → l ≠ [] → ∀ m, s.sink.next ≠ .accept m) →
      took = [])
  error : ∀ rest, r.2 = some rest → r.1.hasError = s.hasError
  failed : r.2 = none → r.1.hasError = true

variable {s s' : BufferedFile}

theorem Offered.stop {l : List UInt8} (hbuffer : s'.buffer = s.buffer)
    (hacc : s'.sink.accepted = s.sink.accepted) (herr : s'.hasError = s.hasError) :
    Offered s l (s', some l) where
  buffer := hbuffer
  bytes := ⟨[], nil_prefix, by rw [hacc, append_nil],
    fun rest h => by rw [some.inj h, nil_append], fun _ => rfl⟩
  error _ _ := herr
  failed h := absurd h (by simp)

theorem putLoop_cons (fuel : ℕ) (s : BufferedFile) (x : UInt8) (l : List UInt8) :
    putLoop (fuel + 1) s (x :: l) =
      if s.freezeOutput || s.xferLimit < s.bytesXfer then (s, some (x :: l))
      else
        match s.sink.next with
        | .again => ({ s with sink := s.sink.take [], freezeOutput := true }, some (x :: l))
        | .fail => ({ s with sink := s.sink.take [], hasError := true }, none)
        | .accept n =>
          putLoop fuel
            { s with
              sink := s.sink.take ((x :: l).take (n + 1))
              bytesXfer := s.bytesXfer + ((x :: l).take (n + 1)).length }
            ((x :: l).drop (n + 1)) := rfl

theorem putLoop_spec (fuel : ℕ) (s : BufferedFile) (l : List UInt8) :
    Offered s l (putLoop fuel s l) := by
  induction fuel generalizing s l with
  | zero => exact .stop rfl rfl rfl
  | succ fuel ih =>
    cases l with
    | nil => exact .stop rfl rfl rfl
    | cons x l =>
      by_cases hstop : (s.freezeOutput || decide (s.xferLimit < s.bytesXfer)) = true
      · rw [putLoop_cons, if_pos hstop]
        exact .stop rfl rfl rfl
      · rw [putLoop_cons, if_neg hstop]
        cases hnext : s.sink.next with
        | again => exact .stop rfl (append_nil _) rfl
        | fail =>
          refine ⟨rfl, ⟨[], nil_prefix, rfl, ?_, fun _ => rfl⟩, ?_, fun _ => rfl⟩
          · simp
          · simp
        | accept n =>
          dsimp only
          obtain ⟨hbuffer, ⟨took, hpre, hacc, hrest, -⟩, herr, hfailed⟩ :=
            ih { s with
              sink := s.sink.take ((x :: l).take (n + 1))
              bytesXfer := s.bytesXfer + ((x :: l).take (n + 1)).length } ((x :: l).drop (n + 1))
          refine ⟨hbuffer, ⟨(x :: l).take (n + 1) ++ took, ?_, ?_, ?_, fun hno => ?_⟩,
            herr, hfailed⟩
          · obtain ⟨rest, hrest'⟩ := hpre
            exact ⟨rest, by rw [append_assoc, hrest', take_append_drop]⟩
          · rw [hacc, ← append_assoc]
            rfl
          · intro rest hsome
            rw [append_assoc, hrest rest hsome, take_append_drop]
          · simp only [Bool.or_eq_true, decide_eq_true_eq, not_or, Bool.not_eq_true, Nat.not_lt]
              at hstop
            exact absurd hnext (hno hstop.1 hstop.2 (by simp) n)

/-! ### The order of the bytes -/

/-- The bytes accepted are a prefix of the bytes put, and as long as there is no error the rest of
them is in the buffer. -/
structure InOrder (s : BufferedFile) (put : List UInt8) : Prop where
  accepted : s.sink.accepted <+: put
  buffered : s.hasError = false → s.sink.accepted ++ s.buffer = put

variable {put : List UInt8}

theorem InOrder.flush (h : InOrder s put) : InOrder (bufferedFlush s) put := by
  by_cases herr : s.hasError = true
  · rwa [bufferedFlush, if_pos herr]
  · have hput := h.buffered (by simpa using herr)
    rw [bufferedFlush, if_neg herr]
    obtain ⟨took, hbuf, hacc⟩ := (flushLoop_spec _ s.sink s.buffer le_rfl).bytes
    have hall : (flushLoop s.buffer.length s.sink s.buffer).1.accepted ++
        (flushLoop s.buffer.length s.sink s.buffer).2.1 = put := by
      rw [hacc, append_assoc, hbuf, hput]
    exact ⟨⟨_, hall⟩, fun _ => hall⟩

/-! ### Runs -/

/-- What can happen to the file. A notification that the backend can be written is a put of no
bytes. -/
inductive FileOp where
  | put (data : List UInt8) (pos : ℤ)
  | setRateLimit (rate : ℤ)
  | tick
  | close (rounds : ℕ)

/-- One step, as long as the file is there. -/
def fileStep (s : BufferedFile) (op : FileOp) : Option BufferedFile :=
  if s.closed then none
  else
    match op with
    | .put data pos => some (bufferedPutBuffer s data pos).1
    | .setRateLimit rate => some (bufferedSetRateLimit s rate)
    | .tick => bufferedRateTick s
    | .close rounds => bufferedClose rounds s

/-- A flush that a put begins with, and that fails, is not followed by a call that takes bytes. -/
def Careful (s : BufferedFile) : FileOp → Prop
  | .put data _ => s.hasError = false → data ≠ [] → s.bytesXfer ≤ s.xferLimit →
      ∀ k, s.sink.FlushFails s.buffer.length k →
        ∀ m, s.sink.answers (s.sink.calls + k + 1) ≠ .accept m
  | _ => True

/-- The bytes of a step. -/
def FileOp.bytes : FileOp → List UInt8
  | .put data _ => data
  | _ => []

/-- The bytes put so far. -/
def bytesPut (ops : List FileOp) : List UInt8 := ops.flatMap FileOp.bytes

@[simp]
theorem bytesPut_concat (ops : List FileOp) (op : FileOp) :
    bytesPut (ops ++ [op]) = bytesPut ops ++ op.bytes := by
  simp [bytesPut]

/-! ### Every run -/

section

variable (h : InOrder s put)
include h

theorem InOrder.append (herr : s.hasError = true) (l : List UInt8) : InOrder s (put ++ l) :=
  ⟨h.accepted.trans (prefix_append put l), fun hno => absurd herr (by simp [hno])⟩

/-- The counter of notifications plays no part. -/
theorem InOrder.congr (hsink : s'.sink.accepted = s.sink.accepted) (hbuffer : s'.buffer = s.buffer)
    (herr : s'.hasError = s.hasError) : InOrder s' put :=
  ⟨hsink ▸ h.accepted, fun hno => by rw [hsink, hbuffer, h.buffered (herr ▸ hno)]⟩

/-- Bytes go to the backend directly if the buffer is empty. -/
theorem InOrder.offer {data : List UInt8} {r : BufferedFile × Option (List UInt8)}
    (hr : Offered s data r) (hfull : s.hasError = true ∨ s.buffer ≠ [] →
      s.freezeOutput = false → s.bytesXfer ≤ s.xferLimit → data ≠ [] →
        ∀ m, s.sink.next ≠ .accept m) :
    InOrder (r.2.elim r.1 (bufferedAppend r.1)) (put ++ data) := by
  obtain ⟨hbuffer, ⟨took, hpre, hacc, hrest, hnone⟩, herror, hfailed⟩ := hr
  have hcases : (s.hasError = false ∧ s.buffer = []) ∨ took = [] := by
    by_cases hempty : s.hasError = false ∧ s.buffer = []
    · exact .inl hempty
    · refine .inr (hnone (hfull ?_))
      by_cases herr : s.hasError = true
      · exact .inl herr
      · exact .inr fun hnil => hempty ⟨by simpa using herr, hnil⟩
  have hacc' : r.1.sink.accepted <+: put ++ data := by
    rw [hacc]
    rcases hcases with ⟨herr, hempty⟩ | rfl
    · have hput := h.buffered herr
      rw [hempty, append_nil] at hput
      rw [hput]
      exact (prefix_append_right_inj put).mpr hpre
    · rw [append_nil]
      exact h.accepted.trans (prefix_append put data)
  cases hsome : r.2 with
  | none => exact ⟨hacc', fun hno => absurd (hfailed hsome) (by simpa using hno)⟩
  | some rest =>
    refine ⟨hacc', fun hno => ?_⟩
    have hput := h.buffered ((herror rest hsome).symm.trans hno)
    show r.1.sink.accepted ++ (r.1.buffer ++ rest) = put ++ data
    rw [hacc, hbuffer, ← hput, ← hrest rest hsome]
    rcases hcases with ⟨-, hempty⟩ | rfl
    · simp [hempty]
    · simp

theorem InOrder.putBuffer {data : List UInt8} {pos : ℤ} (hcareful : Careful s (.put data pos)) :
    InOrder (bufferedPutBuffer s data pos).1 (put ++ data) := by
  by_cases herr : s.hasError = true
  · rw [bufferedPutBuffer, if_pos herr]
    exact h.append herr data
  · rw [bufferedPutBuffer, if_neg herr]
    dsimp only
    set s₁ := bufferedFlush { s with freezeOutput := false } with hs₁
    have hflush := flushLoop_spec _ s.sink s.buffer le_rfl
    set f := flushLoop s.buffer.length s.sink s.buffer with hf
    have heq : s₁ = { s with
        sink := f.1, buffer := f.2.1, freezeOutput := f.2.2.1, hasError := f.2.2.2 } := by
      rw [hs₁, bufferedFlush, if_neg herr]
      simp [hf]
    have horder : InOrder s₁ put := InOrder.flush (h.congr rfl rfl rfl)
    have hkey := horder.offer (putLoop_spec data.length s₁ data) ?_
    · split_ifs
      · exact hkey.congr rfl rfl rfl
      · exact hkey
    · -- bytes are left in the buffer only if the flush was refused or has failed
      rw [heq]
      intro hleft hfreeze hlimit hne
      by_cases hfail : f.2.2.2 = true
      · obtain ⟨k, hfails, hcalls⟩ := hflush.failed hfail
        show ∀ m, f.1.answers f.1.calls ≠ .accept m
        rw [hflush.answers, hcalls]
        exact hcareful (by simpa using herr) hne hlimit k hfails
      · have hnil := hflush.done hfreeze (by simpa using hfail)
        rcases hleft with hbad | hbad
        · exact absurd hbad hfail
        · exact absurd hnil hbad

theorem InOrder.close {rounds : ℕ} (hs' : closeLoop rounds s = some s') :
    InOrder s' put ∧ (s'.hasError = false → s'.buffer = []) := by
  induction rounds generalizing s with
  | zero =>
    rw [closeLoop] at hs'
    split_ifs at hs' with hstop
    cases hs'
    exact ⟨h, fun hno => by simpa [hno] using hstop⟩
  | succ rounds ih =>
    rw [closeLoop] at hs'
    split_ifs at hs' with hstop
    · cases hs'
      exact ⟨h, fun hno => by simpa [hno] using hstop⟩
    · exact ih h.flush hs'

/-- **One step** keeps the order. -/
theorem InOrder.step {op : FileOp} (hcareful : Careful s op) (hs' : fileStep s op = some s') :
    InOrder s' (put ++ op.bytes) := by
  rw [fileStep.eq_def] at hs'
  split_ifs at hs' with hclosed
  have hnil : put ++ [] = put := append_nil put
  cases op with
  | put data pos =>
    cases hs'
    exact h.putBuffer hcareful
  | setRateLimit rate =>
    cases hs'
    show InOrder _ (put ++ [])
    rw [hnil, bufferedSetRateLimit]
    split_ifs
    · exact h
    · exact h.congr rfl rfl rfl
  | tick =>
    show InOrder _ (put ++ [])
    rw [hnil]
    simp only [bufferedRateTick] at hs'
    split_ifs at hs' with herr hfreeze
    · obtain ⟨t, ht, rfl⟩ := map_eq_some_iff.mp hs'
      exact (h.close ht).1.congr rfl rfl rfl
    · cases hs'
      exact h
    · cases hs'
      have hflush : InOrder (bufferedFlush { s with bytesXfer := 0 }) put :=
        InOrder.flush (h.congr rfl rfl rfl)
      exact hflush.congr rfl rfl rfl
  | close rounds =>
    show InOrder _ (put ++ [])
    rw [hnil]
    obtain ⟨t, ht, rfl⟩ := map_eq_some_iff.mp hs'
    exact (h.close ht).1.congr rfl rfl rfl

end

/-- A flush of a backend that does not fail: it takes bytes, or refuses once. -/
theorem flush_progress (herr : s.hasError = false) (hne : s.buffer ≠ [])
    (hfail : ∀ i, s.sink.calls ≤ i → s.sink.answers i ≠ .fail) :
    (bufferedFlush s).hasError = false ∧ (bufferedFlush s).sink.answers = s.sink.answers ∧
      s.sink.calls ≤ (bufferedFlush s).sink.calls ∧
      ((bufferedFlush s).buffer.length < s.buffer.length ∨
        s.sink.next = .again ∧ (bufferedFlush s).buffer = s.buffer ∧
          (bufferedFlush s).sink.calls = s.sink.calls + 1) := by
  have hflush := flushLoop_spec _ s.sink s.buffer le_rfl
  have heq : bufferedFlush s = { s with
      sink := (flushLoop s.buffer.length s.sink s.buffer).1
      buffer := (flushLoop s.buffer.length s.sink s.buffer).2.1
      freezeOutput := s.freezeOutput || (flushLoop s.buffer.length s.sink s.buffer).2.2.1
      hasError := (flushLoop s.buffer.length s.sink s.buffer).2.2.2 } := by
    rw [bufferedFlush, if_neg (by simp [herr])]
  have hno : (flushLoop s.buffer.length s.sink s.buffer).2.2.2 = false := by
    rw [← Bool.not_eq_true]
    intro hbad
    obtain ⟨k, hfails, -⟩ := hflush.failed hbad
    exact hfail _ (Nat.le_add_right _ _) hfails.2.2
  rw [heq]
  refine ⟨hno, hflush.answers, hflush.calls, ?_⟩
  obtain ⟨x, l, hl⟩ := exists_cons_of_ne_nil hne
  cases hnext : s.sink.next with
  | again =>
    refine .inr ⟨rfl, ?_⟩
    rw [hl]
    simp [flushLoop, hnext, Sink.take]
  | fail => exact absurd hnext (hfail _ le_rfl)
  | accept n =>
    refine .inl ?_
    have hlen : ((x :: l).drop (n + 1)).length ≤ l.length := by simp
    obtain ⟨took, hbytes, -⟩ :=
      (flushLoop_spec l.length (s.sink.take ((x :: l).take (n + 1))) _ hlen).bytes
    have hlen' := congrArg List.length hbytes
    rw [length_append] at hlen'
    show (flushLoop s.buffer.length s.sink s.buffer).2.1.length < s.buffer.length
    rw [hl]
    simp only [length_cons, flushLoop, hnext]
    omega

theorem closeLoop_flush {rounds : ℕ} (herr : s.hasError = false)
    (hne : s.buffer ≠ []) (h : closeLoop rounds (bufferedFlush s) = some s') :
    closeLoop (rounds + 1) s = some s' := by
  rw [closeLoop, if_neg (by simp [herr, hne])]
  exact h

/-- A backend that does not fail and keeps accepting takes everything when the file is closed. -/
theorem closeLoop_returns {answers : ℕ → Answer}
    (haccept : ∀ i, ∃ j, i ≤ j ∧ ∃ m, answers j = .accept m) (n : ℕ) :
    ∀ (d : ℕ) (s : BufferedFile), s.buffer.length ≤ n → s.sink.answers = answers →
      s.hasError = false → (∀ i, s.sink.calls ≤ i → answers i ≠ .fail) →
      (∃ m, answers (s.sink.calls + d) = .accept m) →
      ∃ rounds s', closeLoop rounds s = some s' ∧ s'.hasError = false := by
  induction n with
  | zero =>
    intro d s hlen _ herr _ _
    have hempty := eq_nil_of_length_eq_zero (Nat.le_zero.mp hlen)
    exact ⟨0, s, by rw [closeLoop, if_pos (by simp [hempty])], herr⟩
  | succ n ihn =>
    intro d
    -- the buffer gets shorter, or the next call that accepts comes nearer
    induction d using Nat.strong_induction_on with
    | _ d ihd =>
      intro s hlen hans herr hfail ⟨m, hm⟩
      by_cases hne : s.buffer = []
      · exact ⟨0, s, by rw [closeLoop, if_pos (by simp [hne])], herr⟩
      obtain ⟨herr', hans', hcalls, hshort | ⟨hagain, hbuffer, hcalls'⟩⟩ :=
        flush_progress herr hne (fun i hi => hans ▸ hfail i hi)
      · obtain ⟨j, hj, hj'⟩ := haccept (bufferedFlush s).sink.calls
        obtain ⟨rounds, s', hs', hno⟩ := ihn (j - (bufferedFlush s).sink.calls) (bufferedFlush s)
          (by omega) (hans'.trans hans) herr' (fun i hi => hfail i (hcalls.trans hi))
          (by rwa [Nat.add_sub_cancel' hj])
        exact ⟨rounds + 1, s', closeLoop_flush herr hne hs', hno⟩
      · cases d with
        | zero =>
          rw [Sink.next, hans, ← Nat.add_zero s.sink.calls, hm] at hagain
          cases hagain
        | succ d =>
          have hm' : answers ((bufferedFlush s).sink.calls + d) = .accept m := by
            rw [hcalls', Nat.add_assoc, Nat.add_comm 1 d]
            exact hm
          obtain ⟨rounds, s', hs', hno⟩ := ihd d d.lt_succ_self (bufferedFlush s)
            (by rw [hbuffer]; exact hlen) (hans'.trans hans) herr'
            (fun i hi => hfail i (hcalls.trans hi)) ⟨m, hm'⟩
          exact ⟨rounds + 1, s', closeLoop_flush herr hne hs', hno⟩

/-! ### The answers do not change -/

theorem bufferedFlush_answers (s : BufferedFile) :
    (bufferedFlush s).sink.answers = s.sink.answers := by
  rw [bufferedFlush]
  split_ifs
  · rfl
  · exact (flushLoop_spec _ s.sink s.buffer le_rfl).answers

theorem closeLoop_answers {rounds : ℕ} (h : closeLoop rounds s = some s') :
    s'.sink.answers = s.sink.answers := by
  induction rounds generalizing s with
  | zero =>
    rw [closeLoop] at h
    split_ifs at h
    rw [some.inj h]
  | succ rounds ih =>
    rw [closeLoop] at h
    split_ifs at h
    · rw [some.inj h]
    · exact (ih h).trans (bufferedFlush_answers s)

theorem putLoop_answers (fuel : ℕ) (s : BufferedFile) (l : List UInt8) :
    (putLoop fuel s l).1.sink.answers = s.sink.answers := by
  induction fuel generalizing s l with
  | zero => rfl
  | succ fuel ih =>
    cases l with
    | nil => rfl
    | cons x l =>
      rw [putLoop_cons]
      split_ifs
      · rfl
      · cases s.sink.next with
        | again | fail => rfl
        | accept n => exact ih _ _

theorem bufferedPutBuffer_answers (s : BufferedFile) (l : List UInt8) (pos : ℤ) :
    (bufferedPutBuffer s l pos).1.sink.answers = s.sink.answers := by
  by_cases herr : s.hasError = true
  · rw [bufferedPutBuffer, if_pos herr]
  · rw [bufferedPutBuffer, if_neg herr]
    have hloop :=
      (putLoop_answers l.length (bufferedFlush { s with freezeOutput := false }) l).trans
      (bufferedFlush_answers _)
    dsimp only
    cases (putLoop l.length (bufferedFlush { s with freezeOutput := false }) l).2 with
    | none | some rest => split_ifs <;> exact hloop

theorem fileStep_answers {op : FileOp} (h : fileStep s op = some s') :
    s'.sink.answers = s.sink.answers := by
  rw [fileStep.eq_def] at h
  split_ifs at h
  cases op with
  | put data pos =>
    cases h
    exact bufferedPutBuffer_answers s data pos
  | setRateLimit rate =>
    cases h
    rw [bufferedSetRateLimit]
    split_ifs <;> rfl
  | tick =>
    simp only [bufferedRateTick] at h
    split_ifs at h
    · obtain ⟨t, ht, rfl⟩ := map_eq_some_iff.mp h
      show t.sink.answers = _
      exact closeLoop_answers ht
    · rw [some.inj h]
    · cases h
      exact bufferedFlush_answers { s with bytesXfer := 0 }
  | close rounds =>
    obtain ⟨t, ht, rfl⟩ := map_eq_some_iff.mp h
    show t.sink.answers = _
    exact closeLoop_answers ht

/-- **The bytes accepted are a prefix of the bytes put**, at every moment of every run in which no
put begins with a flush that fails and goes on to a backend that accepts again. As long as there is
no error the rest is in the buffer; closing the file hands it over, and does so if the backend does
not fail and does not refuse for ever. -/
theorem accepted_in_order {answers : ℕ → Answer} {bytesPerSec : ℕ} {ops : List FileOp}
    (hcareful : ∀ p op t, p ++ [op] <+: ops →
      run fileStep (openBuffered answers bytesPerSec) p = some t → Careful t op) :
    ∀ p t, p <+: ops → run fileStep (openBuffered answers bytesPerSec) p = some t →
      t.sink.accepted <+: bytesPut p ∧
      (t.hasError = false → t.sink.accepted ++ t.buffer = bytesPut p) ∧
      (∀ rounds t', fileStep t (.close rounds) = some t' → t'.hasError = false →
        t'.sink.accepted = bytesPut p) ∧
      (t.closed = false → t.hasError = false →
        (∀ i, t.sink.calls ≤ i → answers i ≠ .fail) →
        (∀ i, ∃ j, i ≤ j ∧ ∃ m, answers j = .accept m) →
        ∃ rounds t', fileStep t (.close rounds) = some t' ∧ t'.hasError = false) := by
  intro p t hp ht
  have horder : InOrder t (bytesPut p) := by
    refine forall_prefix (P := fun p t => InOrder t (bytesPut p)) ⟨⟨_, nil_append _⟩, fun _ =>
      rfl⟩ ?_ p t hp ht
    intro q op s s' hq hs hP hstep
    rw [bytesPut_concat]
    exact hP.step (hcareful q op s hq hs) hstep
  have hanswers : t.sink.answers = answers :=
    run_invariant (P := fun s => s.sink.answers = answers)
      (fun s op s' hs hstep => (fileStep_answers hstep).trans hs) rfl ht
  refine ⟨horder.accepted, horder.buffered, fun rounds t' hclose hno => ?_,
    fun hopen herr hfail haccept => ?_⟩
  · rw [fileStep.eq_def] at hclose
    split_ifs at hclose
    obtain ⟨u, hu, rfl⟩ := map_eq_some_iff.mp hclose
    obtain ⟨hu', hempty⟩ := horder.close hu
    have hput := hu'.buffered hno
    rwa [hempty hno, append_nil] at hput
  · obtain ⟨j, hj, hj'⟩ := haccept t.sink.calls
    obtain ⟨rounds, u, hu, hno⟩ := closeLoop_returns haccept t.buffer.length
      (j - t.sink.calls) t le_rfl hanswers herr hfail (by rwa [Nat.add_sub_cancel' hj])
    refine ⟨rounds, { u with closed := true }, ?_, hno⟩
    rw [fileStep.eq_def, if_neg (by simp [hopen])]
    exact map_eq_some_iff.mpr ⟨u, hu, rfl⟩

/-- The backend refuses two bytes, fails when they are offered again, and then takes the third. -/
theorem buffered_bytes_lost :
    (run fileStep
      (openBuffered (fun i => if i = 0 then .again else if i = 1 then .fail else .accept 0)
        1000) [.put [1, 2] 0, .put [3] 2]).map (fun s => s.sink.accepted) = some [3] ∧
      ¬ ([3] : List UInt8) <+: bytesPut [.put [1, 2] 0, .put [3] 2] := by
  decide

/-- A run with a refusal: the bytes come in order. -/
theorem accepted_after_refusal :
    (∀ p op t, p ++ [op] <+: [FileOp.put [1, 2] 0, .tick, .put [3] 2, .close 1] →
        run fileStep (openBuffered (fun i => if i = 0 then .again else .accept 0) 1000) p = some t →
        Careful t op) ∧
      ∀ p t, p <+: [FileOp.put [1, 2] 0, .tick, .put [3] 2, .close 1] →
        run fileStep (openBuffered (fun i => if i = 0 then .again else .accept 0) 1000) p = some t →
        t.sink.accepted <+: bytesPut p := by
  refine (and_iff_left_of_imp fun hcareful p t hp ht =>
    (accepted_in_order hcareful p t hp ht).1).mpr ?_
  intro p op t _ ht
  have hanswers := run_invariant
    (P := fun s : BufferedFile => s.sink.answers = fun i => if i = 0 then .again else .accept 0)
    (fun s op s' hs hstep => (fileStep_answers hstep).trans hs) rfl ht
  cases op with
  | put data pos =>
    intro _ _ _ k hfails
    have hfail := hfails.2.2
    rw [hanswers] at hfail
    simp only at hfail
    split_ifs at hfail
  | _ => trivial

end VariabilityTestbed.Migration
