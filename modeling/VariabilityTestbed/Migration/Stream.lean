import VariabilityTestbed.Migration.QemuFile

/-!
# Incoming streams

What an incoming migration reads is a finite list of bytes. Behind its end a byte reads as zero, a
buffer comes up short, and the error is set and stays set.

This is what a `QEMUFile` looks like to its readers if the backend delivers the bytes in chunks of
any sizes and then answers nothing but the end of the file or errors. Code that reads a migration
stream is modelled over `Stream`, and `Streams` says which files show a stream.
-/

namespace VariabilityTestbed.Migration

open BigEndian List Option

/-! ### Streams -/

/-- The bytes that are left, and whether a read has gone behind the end. -/
structure Stream where
  rest : List UInt8
  hasError : Bool
  deriving DecidableEq, Repr

namespace Stream

/-- Read a byte. -/
def getByte (s : Stream) : UInt8 × Stream :=
  match s.rest with
  | [] => (0, { s with hasError := true })
  | b :: l => (b, { s with rest := l })

/-- Look at the next byte. -/
def peekByte (s : Stream) : UInt8 × Stream :=
  match s.rest with
  | [] => (0, { s with hasError := true })
  | b :: _ => (b, s)

/-- Read a buffer, which comes up short at the end. -/
def getBuffer (s : Stream) (n : ℕ) : List UInt8 × Stream :=
  (s.rest.take n, ⟨s.rest.drop n, s.hasError || decide (s.rest.length < n)⟩)

/-- Bytes one after the other. -/
def getBytes (s : Stream) : ℕ → List UInt8 × Stream
  | 0 => ([], s)
  | n + 1 =>
    let r := s.getByte
    let t := getBytes r.2 n
    (r.1 :: t.1, t.2)

/-- A big-endian number of `n` bytes. -/
def getBe (s : Stream) (n : ℕ) : ℕ × Stream := (ofBe (s.getBytes n).1, (s.getBytes n).2)

variable {s : Stream} {n : ℕ} {bs l : List UInt8}

/-- How many more bytes can be read, where the first one behind the end counts. -/
def left (s : Stream) : ℕ := s.rest.length + if s.hasError then 0 else 1

theorem left_pos (h : s.hasError = false) : 0 < s.left := by
  simp [left, h]

theorem left_eq_zero : s.left = 0 ↔ s.rest = [] ∧ s.hasError = true := by
  cases h : s.hasError <;> simp [left, h]

theorem left_getByte (s : Stream) : s.getByte.2.left = s.left - 1 := by
  rcases s with ⟨_ | ⟨b, l⟩, _ | _⟩ <;> simp [left, getByte]

theorem left_getBuffer_le (s : Stream) (n : ℕ) : (s.getBuffer n).2.left ≤ s.left := by
  cases h : s.hasError with
  | true => simp [left, getBuffer, h]
  | false =>
    simp only [left, getBuffer, length_drop, h, Bool.false_or, Bool.false_eq_true, if_false]
    split_ifs <;> omega

theorem left_getBytes (s : Stream) (n : ℕ) : (s.getBytes n).2.left = s.left - n := by
  induction n generalizing s with
  | zero => rfl
  | succ n ih =>
    rw [getBytes, ih, left_getByte]
    omega

theorem left_getBe (s : Stream) (n : ℕ) : (s.getBe n).2.left = s.left - n := left_getBytes s n

/-- A buffer in two pieces. -/
theorem getBuffer_cut (h : s.rest = bs ++ l) (hle : bs.length ≤ n) :
    s.getBuffer n = (bs ++ (getBuffer { s with rest := l } (n - bs.length)).1,
      (getBuffer { s with rest := l } (n - bs.length)).2) := by
  have herr : ((bs ++ l).length < n) = (l.length < n - bs.length) := by
    rw [length_append]
    exact propext ⟨fun _ => by omega, fun _ => by omega⟩
  simp only [getBuffer, herr, h, take_append, drop_append, take_of_length_le hle,
    drop_eq_nil_of_le hle, nil_append]

theorem getBuffer_append (h : bs.length = n) (e : Bool) :
    Stream.getBuffer ⟨bs ++ l, e⟩ n = (bs, ⟨l, e⟩) := by
  simp [Stream.getBuffer, ← h]

theorem getBytes_append (h : bs.length = n) (e : Bool) :
    Stream.getBytes ⟨bs ++ l, e⟩ n = (bs, ⟨l, e⟩) := by
  induction bs generalizing n with
  | nil =>
    obtain rfl := h
    rfl
  | cons b bs ih =>
    obtain rfl := h
    simp only [cons_append, length_cons, Stream.getBytes, Stream.getByte, ih rfl]

theorem length_getBytes (s : Stream) (n : ℕ) : (s.getBytes n).1.length = n := by
  induction n generalizing s with
  | zero => rfl
  | succ n ih => simp only [getBytes, length_cons, ih]

theorem getBytes_add (s : Stream) (m n : ℕ) :
    s.getBytes (m + n) = ((s.getBytes m).1 ++ ((s.getBytes m).2.getBytes n).1,
      ((s.getBytes m).2.getBytes n).2) := by
  induction m generalizing s with
  | zero => simp [getBytes]
  | succ m ih => rw [Nat.succ_add, getBytes, getBytes, ih]; rfl

/-- A number that was written is read back. -/
theorem getBe_beBytes (w v : ℕ) (h : v < 256 ^ w) (e : Bool) :
    Stream.getBe ⟨beBytes w v ++ l, e⟩ w = (v, ⟨l, e⟩) := by
  rw [Stream.getBe, getBytes_append (length_beBytes w v), ofBe_beBytes_of_lt h]

theorem getBe_lt (s : Stream) (w : ℕ) : (s.getBe w).1 < 256 ^ w := by
  have h := ofBe_lt (s.getBytes w).1
  rwa [length_getBytes] at h

end Stream

/-! ### Files -/

/-- From call `k` on the backend delivers the bytes and then nothing. -/
inductive Ends (answers : ℕ → Delivery) : ℕ → List UInt8 → Prop
  | stop {k : ℕ} (h : ∀ i, k ≤ i → answers i = .data [] ∨ answers i = .fail) : Ends answers k []
  | chunk {k : ℕ} {x : UInt8} {l bs : List UInt8} (h : answers k = .data (x :: l))
      (hrest : Ends answers (k + 1) bs) : Ends answers k ((x :: l).take ioBufSize ++ bs)

/-- The file shows the stream to its readers. -/
structure Streams (f : QemuFile) (s : Stream) : Prop where
  error : s.hasError = f.hasError
  feed : ∃ b, Reading f b ∧ ∃ bs, Ends b.answers b.calls bs ∧ s.rest = unread f ++ bs

/-- After `refill` the buffer is empty only at the end of the stream. -/
theorem Streams.refill {f : QemuFile} {s : Stream} (h : Streams f s) :
    ∃ f', refill f = some f' ∧
      (s.rest = [] → f'.bufSize ≤ f'.bufIndex ∧ Streams f' { s with hasError := true }) ∧
      (s.rest ≠ [] → unread f' ≠ [] ∧ Streams f' s) := by
  obtain ⟨herr, b, hb, bs, hends, hrest⟩ := h
  by_cases hempty : f.bufSize ≤ f.bufIndex
  · have hnil := (unread_eq_nil hb).mpr hempty
    have heq : Migration.refill f = qemuFillBuffer f := by
      rw [Migration.refill, hb.mode, if_pos hempty]
      rfl
    rw [heq]
    rw [hnil, nil_append] at hrest
    cases hends with
    | stop hstop =>
      have hnext : b.next = .data [] ∨ b.next = .fail := hstop b.calls le_rfl
      refine ⟨{ f with feed := some (b.deliver []), hasError := true }, ?_, fun _ =>
        ⟨hempty, rfl, ?_⟩,
        fun hne => absurd hrest hne⟩
      · rcases hnext with hnext | hnext <;> simp [qemuFillBuffer, hb.feed, hb.mode, hnext]
      · refine ⟨b.deliver [], ⟨hb.mode, hb.size, hb.le, rfl⟩, [], ?_, ?_⟩
        · exact .stop fun i hi => hstop i ((Nat.le_succ _).trans hi)
        · exact hrest.trans (by rw [append_nil]; exact hnil.symm)
    | @chunk _ x l bs hnext hends =>
      have hne : s.rest ≠ [] := by rw [hrest]; simp [ioBufSize]
      refine ⟨_, by simp only [qemuFillBuffer, hb.feed, hb.mode, show b.next = _ from hnext]; rfl,
        fun h => absurd h hne, fun _ => ⟨?_, ?_⟩⟩
      · simp [unread, ioBufSize]
      · refine ⟨herr, b.deliver ((x :: l).take ioBufSize), ⟨rfl, rfl, Nat.zero_le _, rfl⟩,
          bs, hends, ?_⟩
        rw [hrest]
        rfl
  · have hne : unread f ≠ [] := fun hnil => hempty ((unread_eq_nil hb).mp hnil)
    refine ⟨f, by rw [Migration.refill, hb.mode, if_neg hempty]; rfl, fun h => ?_,
      fun _ => ⟨hne, herr, b, hb, bs, hends, hrest⟩⟩
    rw [hrest] at h
    exact absurd (append_eq_nil_iff.mp h).1 hne

/-- Bytes at the front of the buffer are those of the stream, and so is what is left behind them. -/
theorem Streams.chunk {f : QemuFile} {s : Stream} (h : Streams f s) {l : List UInt8}
    (hl : l <+: unread f) :
    ∃ rest, s.rest = l ++ rest ∧
      Streams { f with bufIndex := f.bufIndex + l.length } { s with rest := rest } := by
  obtain ⟨herr, b, hb, bs, hends, hrest⟩ := h
  obtain ⟨hread, hsplit⟩ := hb.take hl
  refine ⟨_ ++ bs, ?_, herr, b, hread, bs, hends, rfl⟩
  rw [hrest, ← hsplit, append_assoc]

section

variable {f : QemuFile} {s : Stream} (h : Streams f s)
include h

theorem Streams.front (hne : unread f ≠ []) :
    ¬ f.bufSize ≤ f.bufIndex ∧ ∃ l, s.rest = (f.buf[f.bufIndex]?).getD 0 :: l ∧
      Streams { f with bufIndex := f.bufIndex + 1 } { s with rest := l } := by
  obtain ⟨b, hb, -⟩ := h.feed
  obtain ⟨l, hcons⟩ := unread_cons hne
  exact ⟨fun hle => hne ((unread_eq_nil hb).mpr hle), h.chunk (l := [_]) ⟨l, hcons.symm⟩⟩

/-- **`qemu_get_byte` reads a byte of the stream.** -/
theorem Streams.qemuGetByte : ∃ f', qemuGetByte f = some (s.getByte.1, f') ∧
    Streams f' s.getByte.2 := by
  obtain ⟨f', heq, hend, hmore⟩ := h.refill
  rw [Migration.qemuGetByte, heq, bind_eq_bind, bind_some]
  rcases s with ⟨_ | ⟨x, l⟩, e⟩
  · obtain ⟨hempty, hs⟩ := hend rfl
    exact ⟨f', if_pos hempty, hs⟩
  · obtain ⟨hne, hs⟩ := hmore (cons_ne_nil _ _)
    obtain ⟨hlt, l', hl', hs'⟩ := hs.front hne
    cases hl'
    exact ⟨_, if_neg hlt, hs'⟩

/-- **`qemu_peek_byte` looks at a byte of the stream.** -/
theorem Streams.qemuPeekByte :
    ∃ f', qemuPeekByte f = some (s.peekByte.1, f') ∧ Streams f' s.peekByte.2 := by
  obtain ⟨f', heq, hend, hmore⟩ := h.refill
  rw [Migration.qemuPeekByte, heq, bind_eq_bind, bind_some]
  rcases s with ⟨_ | ⟨x, l⟩, e⟩
  · obtain ⟨hempty, hs⟩ := hend rfl
    exact ⟨f', if_pos hempty, hs⟩
  · obtain ⟨hne, hs⟩ := hmore (cons_ne_nil _ _)
    obtain ⟨hlt, l', hl', -⟩ := hs.front hne
    cases hl'
    exact ⟨f', if_neg hlt, hs⟩

/-- The loop copies the bytes that are left, as far as they go. -/
theorem Streams.getBufferLoop {fuel n : ℕ} (acc : List UInt8) (hfuel : n ≤ fuel) :
    ∃ f', getBufferLoop fuel f n acc = some (acc ++ (s.getBuffer n).1, f') ∧
      Streams f' (s.getBuffer n).2 := by
  induction fuel generalizing f s n acc with
  | zero =>
    obtain rfl := Nat.le_zero.mp hfuel
    exact ⟨f, by simp [Migration.getBufferLoop, Stream.getBuffer],
      by simpa [Stream.getBuffer] using h⟩
  | succ fuel ih =>
    cases n with
    | zero =>
      exact ⟨f, by simp [Migration.getBufferLoop, Stream.getBuffer],
        by simpa [Stream.getBuffer] using h⟩
    | succ size =>
      obtain ⟨f₁, heq, hend, hmore⟩ := h.refill
      rw [Migration.getBufferLoop, heq, bind_eq_bind, bind_some]
      by_cases hnil : s.rest = []
      · obtain ⟨hempty, hs⟩ := hend hnil
        refine ⟨f₁, ?_, ?_⟩
        · rw [if_pos hempty]
          simp [Stream.getBuffer, hnil]
        · simpa [Stream.getBuffer, hnil] using hs
      · obtain ⟨hne, hs⟩ := hmore hnil
        obtain ⟨hlt, -⟩ := hs.front hne
        obtain ⟨rest, hrest, hs'⟩ := hs.chunk ⟨_, take_append_drop (size + 1) (unread f₁)⟩
        have hpos : 0 < ((unread f₁).take (size + 1)).length := by
          rw [length_take]
          have := length_pos_iff.mpr hne
          omega
        have hlen : ((unread f₁).take (size + 1)).length ≤ size + 1 := by
          rw [length_take]
          omega
        set l := (unread f₁).take (size + 1)
        obtain ⟨f', heq', hs''⟩ := ih hs' (acc ++ l) (n := size + 1 - l.length) (by omega)
        rw [Stream.getBuffer_cut hrest hlen]
        refine ⟨f', ?_, hs''⟩
        rw [if_neg hlt, ← append_assoc]
        exact heq'

/-- **`qemu_get_buffer` reads a buffer of the stream.** -/
theorem Streams.qemuGetBuffer (n : ℕ) :
    ∃ f', qemuGetBuffer f n = some ((s.getBuffer n).1, f') ∧ Streams f' (s.getBuffer n).2 := by
  obtain ⟨b, hb, -⟩ := h.feed
  rw [Migration.qemuGetBuffer, hb.mode]
  exact h.getBufferLoop [] le_rfl

theorem Streams.getBytes (n : ℕ) :
    ∃ f', getBytes n f = some ((s.getBytes n).1, f') ∧ Streams f' (s.getBytes n).2 := by
  induction n generalizing f s with
  | zero => exact ⟨f, rfl, h⟩
  | succ n ih =>
    obtain ⟨f₁, heq, hs⟩ := h.qemuGetByte
    obtain ⟨f₂, heq₂, hs₂⟩ := ih hs
    refine ⟨f₂, ?_, hs₂⟩
    simp only [Migration.getBytes, heq, heq₂, bind_eq_bind, bind_some, Stream.getBytes]

/-- **`qemu_get_be32` reads four bytes of the stream.** -/
theorem Streams.qemuGetBe32 :
    ∃ f', qemuGetBe32 f = some ((s.getBe 4).1, f') ∧ Streams f' (s.getBe 4).2 := by
  obtain ⟨f', heq, hs⟩ := h.getBytes 4
  exact ⟨f', by rw [Migration.qemuGetBe32, qemuGetBe, heq]; rfl, hs⟩

/-- **`qemu_get_be64` reads eight bytes of the stream.** -/
theorem Streams.qemuGetBe64 :
    ∃ f', qemuGetBe64 f = some ((s.getBe 8).1, f') ∧ Streams f' (s.getBe 8).2 := by
  obtain ⟨f₁, heq, hs⟩ := h.qemuGetBe32
  obtain ⟨f₂, heq₂, hs₂⟩ := hs.qemuGetBe32
  have hsplit := Stream.getBytes_add s 4 4
  have hvalue : (s.getBe 4).1 * 2 ^ 32 + ((s.getBe 4).2.getBe 4).1 = (s.getBe 8).1 := by
    simp only [Stream.getBe, hsplit, ofBe_append, Stream.length_getBytes]
    rfl
  refine ⟨f₂, ?_, ?_⟩
  · simp only [Migration.qemuGetBe64, heq, heq₂, bind_eq_bind, bind_some, hvalue]
  · simp only [Stream.getBe, hsplit]
    exact hs₂

end

end VariabilityTestbed.Migration
