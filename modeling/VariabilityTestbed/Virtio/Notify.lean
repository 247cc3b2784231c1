import VariabilityTestbed.Lib.Runs
import VariabilityTestbed.Virtio.Ring

/-!
# Interrupts with `EVENT_IDX`

The guest publishes the index of the used entry at which it wants an interrupt. The device remembers
the index it had when it last decided about an interrupt, `signalled_used`, and interrupts when the
entry of the guest is among those added since. Indexes have 16 bits, and any number of entries may
have been added, so the remembered index may mean nothing any more; `virtqueue_flush` is to notice
this and to clear `signalled_used_valid`.

A run counts entries without bound. While the flag is set, fewer than `2 ^ 15` entries have been
added since the remembered index: a step of at most 1024 that reaches `2 ^ 15` makes the 16-bit
difference negative, and the comparison with the size of the step notices.
-/

namespace VariabilityTestbed.Virtio

open Runs

/-- `virtqueue_flush`. The comparison is one of a signed and an unsigned number of 16 bits, both
promoted to `int`. -/
def virtqueueFlush (m : GuestMemory) (q : VirtQueue) (count : ℕ) : GuestMemory × VirtQueue :=
  let old := vringUsedIdx m q.vring
  let new := old + UInt16.ofNat count
  (vringUsedIdxSet m q.vring new,
    { q with
      inuse := q.inuse - count
      signalledUsedValid :=
        if (new - q.signalledUsed).toInt16.toInt < (new - old).toNat then false
        else q.signalledUsedValid })

/-- `vring_need_event`. -/
def vringNeedEvent (event new old : UInt16) : Bool := decide (new - event - 1 < new - old)

/-- `vring_notify`. -/
def vringNotify (features : Features) (m : GuestMemory) (q : VirtQueue) : Bool × VirtQueue :=
  if features.notifyOnEmpty ∧ q.inuse = 0 ∧ vringAvailIdx m q.vring = q.lastAvailIdx then (true, q)
  else if !features.eventIdx then (!(vringAvailFlags m q.vring).testBit 0, q)
  else
    let new := vringUsedIdx m q.vring
    (!q.signalledUsedValid || vringNeedEvent (vringUsedEvent m q.vring) new q.signalledUsed,
      { q with signalledUsedValid := true, signalledUsed := new })

/-! ### Runs -/

/-- A device and guest memory. `total` counts the used entries, and `mark` is what it was at the
last `vring_notify`. -/
structure Counted where
  mem : GuestMemory
  queue : VirtQueue
  total : ℕ
  mark : ℕ

/-- What happens: entries are published, the device decides about an interrupt, the device takes a
buffer, or the guest writes to its memory. -/
inductive RingOp
  | flush (count : ℕ)
  | notify
  | take (q : VirtQueue)
  | guest (m : GuestMemory)

/-- One step. The used index belongs to the device, so the guest does not write it; taking a buffer
leaves alone what was signalled. -/
def ringStep (features : Features) (s : Counted) : RingOp → Option Counted
  | .flush count =>
    if 1 ≤ count ∧ count ≤ s.queue.vring.num then
      let r := virtqueueFlush s.mem s.queue count
      some ⟨r.1, r.2, s.total + count, s.mark⟩
    else none
  | .notify => some ⟨s.mem, (vringNotify features s.mem s.queue).2, s.total, s.total⟩
  | .take q =>
    if q.vring = s.queue.vring ∧ q.signalledUsed = s.queue.signalledUsed ∧
        q.signalledUsedValid = s.queue.signalledUsedValid then some { s with queue := q }
    else none
  | .guest m =>
    if vringUsedIdx m s.queue.vring = vringUsedIdx s.mem s.queue.vring then some { s with mem := m }
    else none

namespace Counted

/-- The entry with the index that the guest waits for has been added since the last decision. -/
def Passed (s : Counted) : Prop :=
  ∃ j, s.mark ≤ j ∧ j < s.total ∧ j % 2 ^ 16 = (vringUsedEvent s.mem s.queue.vring).toNat

/-- What holds in every state: the used index is the count, and a signalled index that counts as
valid is that of a moment not after the last decision and fewer than `2 ^ 15` entries ago. -/
structure Ok (s : Counted) : Prop where
  num_le : s.queue.vring.num ≤ 1024
  used : (vringUsedIdx s.mem s.queue.vring).toNat = s.total % 2 ^ 16
  mark_le : s.mark ≤ s.total
  near : s.queue.signalledUsedValid = true → ∃ signalled, signalled ≤ s.mark ∧
    s.total < signalled + 2 ^ 15 ∧ s.queue.signalledUsed.toNat = signalled % 2 ^ 16

variable {features : Features} {s s' : Counted}

theorem Ok.flush {count : ℕ} (h : s.Ok) (hpos : 1 ≤ count) (hle : count ≤ s.queue.vring.num) :
    Ok ⟨(virtqueueFlush s.mem s.queue count).1, (virtqueueFlush s.mem s.queue count).2,
      s.total + count, s.mark⟩ := by
  have hnum := h.num_le
  have hused := h.used
  have hcount : (UInt16.ofNat count).toNat = count := by
    rw [UInt16.toNat_ofNat']
    exact Nat.mod_eq_of_lt (by omega)
  have hnew : (vringUsedIdx s.mem s.queue.vring + UInt16.ofNat count).toNat =
      (s.total + count) % 2 ^ 16 := by
    rw [UInt16.toNat_add, hused, hcount, Nat.mod_add_mod]
  refine ⟨hnum, ?_, h.mark_le.trans (Nat.le_add_right _ _), fun hvalid => ?_⟩
  · simp only [virtqueueFlush, vringUsedIdx_set, hnew]
  · simp only [virtqueueFlush] at hvalid
    split at hvalid
    · cases hvalid
    · next hstep =>
      obtain ⟨signalled, hmark, hnear, hsig⟩ := h.near hvalid
      refine ⟨signalled, hmark, ?_, hsig⟩
      -- past `2 ^ 15` the signed difference is negative, and so below the step
      by_contra hfar
      apply hstep
      have hfar' : signalled + 2 ^ 15 ≤ s.total + count := not_lt.mp hfar
      have hmark_le := h.mark_le
      have hdist : (vringUsedIdx s.mem s.queue.vring + UInt16.ofNat count -
          s.queue.signalledUsed).toNat = s.total + count - signalled := by
        rw [UInt16.toNat_sub, hnew, hsig]
        omega
      have hint : (vringUsedIdx s.mem s.queue.vring + UInt16.ofNat count -
          s.queue.signalledUsed).toInt16.toInt < 0 := by
        have hbv : ∀ x : UInt16, 2 ^ 15 ≤ x.toNat → x.toInt16.toInt < 0 := by
          intro x hx
          have hnat : x.toBitVec.toNat = x.toNat := rfl
          have hx16 := x.toNat_lt
          show x.toBitVec.toInt < 0
          rw [BitVec.toInt_eq_toNat_cond]
          split <;> omega
        exact hbv _ (by rw [hdist]; omega)
      omega

theorem Ok.notify (h : s.Ok) (hevent : features.eventIdx = true) :
    Ok ⟨s.mem, (vringNotify features s.mem s.queue).2, s.total, s.total⟩ := by
  by_cases hempty : features.notifyOnEmpty ∧ s.queue.inuse = 0 ∧
      vringAvailIdx s.mem s.queue.vring = s.queue.lastAvailIdx
  · rw [vringNotify, if_pos hempty]
    refine ⟨h.num_le, h.used, le_rfl, fun hvalid => ?_⟩
    obtain ⟨signalled, hmark, hnear, hsig⟩ := h.near hvalid
    exact ⟨signalled, hmark.trans h.mark_le, hnear, hsig⟩
  · rw [vringNotify, if_neg hempty]
    simp only [hevent, Bool.not_true, Bool.false_eq_true, if_false]
    exact ⟨h.num_le, h.used, le_rfl, fun _ =>
      ⟨s.total, le_rfl, Nat.lt_add_of_pos_right (by decide), h.used⟩⟩

theorem Ok.step {op : RingOp} (hevent : features.eventIdx = true) (h : s.Ok)
    (hstep : ringStep features s op = some s') : s'.Ok := by
  cases op with
  | flush count =>
    simp only [ringStep] at hstep
    split at hstep
    · next hcount =>
      cases hstep
      exact h.flush hcount.1 hcount.2
    · cases hstep
  | notify =>
    cases hstep
    exact h.notify hevent
  | take q =>
    simp only [ringStep] at hstep
    split at hstep
    · next hsame =>
      cases hstep
      obtain ⟨hvring, hsig, hvalid⟩ := hsame
      exact ⟨hvring ▸ h.num_le, hvring ▸ h.used, h.mark_le, fun hv => hsig ▸ h.near (hvalid ▸ hv)⟩
    · cases hstep
  | guest m =>
    simp only [ringStep] at hstep
    split at hstep
    · next hsame =>
      cases hstep
      exact ⟨h.num_le, (congrArg UInt16.toNat hsame).trans h.used, h.mark_le, h.near⟩
    · cases hstep

/-- While the flag is set, the decision is exact enough. -/
theorem Ok.notifies (h : s.Ok) (hevent : features.eventIdx = true) (hpassed : s.Passed) :
    (vringNotify features s.mem s.queue).1 = true := by
  rw [vringNotify]
  split
  · rfl
  · simp only [hevent, Bool.not_true, Bool.false_eq_true, if_false, Bool.or_eq_true,
      Bool.not_eq_eq_eq_not]
    by_cases hvalid : s.queue.signalledUsedValid = true
    · right
      obtain ⟨signalled, hmark, hnear, hsig⟩ := h.near hvalid
      obtain ⟨j, hle, hlt, hj⟩ := hpassed
      have hused := h.used
      rw [vringNeedEvent, decide_eq_true_iff, UInt16.lt_iff_toNat_lt, UInt16.toNat_sub,
        UInt16.toNat_sub, UInt16.toNat_sub, hused, hsig, ← hj]
      have hone : (1 : UInt16).toNat = 1 := rfl
      rw [hone]
      omega
    · exact .inl (by simpa using hvalid)

end Counted

/-- **No interrupt is lost.** From any used index on, with nothing signalled yet, after any sequence
of flushes and decisions in between which the guest does as it likes. -/
theorem no_interrupt_lost (features : Features) (hevent : features.eventIdx = true)
    (m : GuestMemory) (q : VirtQueue) (hnum : q.vring.num ≤ 1024)
    (hnew : q.signalledUsedValid = false) (ops : List RingOp) (s : Counted)
    (hrun : run (ringStep features)
      ⟨m, q, (vringUsedIdx m q.vring).toNat, (vringUsedIdx m q.vring).toNat⟩ ops = some s)
    (hpassed : s.Passed) : (vringNotify features s.mem s.queue).1 = true := by
  have hok : s.Ok := by
    refine run_invariant (P := Counted.Ok) (fun s op s' hs hstep => hs.step hevent hstep) ?_ hrun
    have hlt := (vringUsedIdx m q.vring).toNat_lt
    exact ⟨hnum, (Nat.mod_eq_of_lt hlt).symm, le_rfl, fun hvalid => absurd hvalid (by simp [hnew])⟩
  exact hok.notifies hevent hpassed

/-- Memory in which everything is zero. -/
def zeroMemory : GuestMemory := fun _ => 0

/-- A queue of one entry. -/
def oneEntry : VirtQueue := ⟨⟨1, 0, 16, 4096⟩, 0, 0, false, true, 0⟩

/-- The first entry is signalled to a guest that waits for it. -/
theorem first_entry_signalled :
    ∃ s, run (ringStep ⟨true, false⟩)
        ⟨zeroMemory, oneEntry, (vringUsedIdx zeroMemory oneEntry.vring).toNat,
          (vringUsedIdx zeroMemory oneEntry.vring).toNat⟩ [.notify, .flush 1] = some s ∧ s.Passed ∧
      (vringNotify ⟨true, false⟩ s.mem s.queue).1 = true := by
  refine exists_of_isSome rfl fun s hs => ?_
  have hpassed : s.Passed := by
    cases hs
    exact ⟨0, by decide, by decide, by decide⟩
  exact ⟨hpassed, no_interrupt_lost ⟨true, false⟩ rfl zeroMemory oneEntry
    (by decide) rfl _ s hs hpassed⟩

end VariabilityTestbed.Virtio
