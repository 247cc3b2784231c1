import Mathlib.Data.Fintype.Card
import VariabilityTestbed.Lib.Chains
import VariabilityTestbed.Lib.Runs

/-!
# The list of active timers

The timers of a clock that are armed are in a list, in the order in which they expire. A callback
may arm and delete any timer while `qemu_run_timers` walks the list, and it may walk the list
itself; so the loop is taken apart into single steps, between which anything may happen.

What a list of timers is for is said by `Agenda`: which timers are armed, for when, and which of
them was armed first. It is a function of the trace, the record of what has happened.
-/

namespace VariabilityTestbed.Timers

open Chains Function Runs List Option

variable {n : ℕ}

/-! ### The list -/

/-- A place that holds a pointer to a timer: `active_timers[clock->type]`, or the field `next` of a
timer. -/
inductive Link (n : ℕ) where
  | head
  | next (ts : Fin n)
  deriving DecidableEq

/-- The timers of a clock. `expire_time` is in nanoseconds. -/
structure ActiveTimers (n : ℕ) where
  link : Link n → Option (Fin n)
  expireTime : Fin n → ℤ

/-- `qemu_timer_expired_ns`. -/
def qemuTimerExpiredNs (s : ActiveTimers n) (timerHead : Option (Fin n)) (currentTime : ℤ) : Bool :=
  match timerHead with
  | none => false
  | some t => decide (s.expireTime t ≤ currentTime)

/-- The walk of `qemu_del_timer` and `qemu_timer_pending`: the place of a timer, or the end of the
list. -/
def findTimer (s : ActiveTimers n) (ts : Fin n) : Option (Link n) :=
  seek s.link .next (fun t => decide (t = ts)) (n + 1) .head

/-- `qemu_del_timer`. -/
def qemuDelTimer (s : ActiveTimers n) (ts : Fin n) : Option (ActiveTimers n) :=
  (findTimer s ts).map fun pt =>
    match s.link pt with
    | none => s
    | some t => { s with link := update s.link pt (s.link (.next t)) }

/-- `qemu_mod_timer_ns`: behind the timers that expire at the same time. -/
def qemuModTimerNs (s : ActiveTimers n) (ts : Fin n) (expireTime : ℤ) : Option (ActiveTimers n) :=
  (qemuDelTimer s ts).bind fun s =>
    (seek s.link .next (fun t => !qemuTimerExpiredNs s (some t) expireTime) (n + 1)
      .head).map fun pt =>
      { expireTime := update s.expireTime ts expireTime
        link := update (update s.link (.next ts) (s.link pt)) pt (some ts) }

/-- `qemu_timer_pending`. -/
def qemuTimerPending (s : ActiveTimers n) (ts : Fin n) : Option Bool :=
  (findTimer s ts).map fun pt => (s.link pt).isSome

/-! ### What has happened -/

/-- What happens to timers: one is armed, deleted, or its callback is called by a `qemu_run_timers`
that has sampled `now`; and such a call returns. -/
inductive Mark (n : ℕ) where
  | armed (ts : Fin n) (expire : ℤ)
  | deleted (ts : Fin n)
  | fired (ts : Fin n) (now : ℤ)
  | returned (now : ℤ)

/-- A timer that is armed: for when, and as the how manieth. -/
structure Arming where
  expire : ℤ
  serial : ℕ

/-- The order in which timers are due: the earliest armed first among those that expire at the same
time. -/
def Arming.Before (a b : Arming) : Prop :=
  a.expire < b.expire ∨ a.expire = b.expire ∧ a.serial < b.serial

/-- The timers that are armed, and how often a timer was armed so far. -/
structure Agenda (n : ℕ) where
  pending : Fin n → Option Arming
  serial : ℕ

/-- A timer stays armed until it is deleted, armed anew, or its callback is called. -/
def Agenda.mark (a : Agenda n) : Mark n → Agenda n
  | .armed ts expire => ⟨update a.pending ts (some ⟨expire, a.serial⟩), a.serial + 1⟩
  | .deleted ts => { a with pending := update a.pending ts none }
  | .fired ts _ => { a with pending := update a.pending ts none }
  | .returned _ => a

/-- What is armed behind a trace. -/
def agenda (trace : List (Mark n)) : Agenda n := trace.foldl Agenda.mark ⟨fun _ => none, 0⟩

@[simp]
theorem agenda_append (trace : List (Mark n)) (mark : Mark n) :
    agenda (trace ++ [mark]) = (agenda trace).mark mark := foldl_concat ..

/-! ### Calls -/

/-- The list, the times that the calls of `qemu_run_timers` in progress have sampled, and the
trace. -/
structure Machine (n : ℕ) where
  timers : ActiveTimers n
  running : List ℤ
  trace : List (Mark n)

/-- What may happen next, in a callback or outside of any: a call of one of the functions, and one
more turn of the loop of the innermost `qemu_run_timers`. -/
inductive Event (n : ℕ) where
  | modTimer (ts : Fin n) (expireTime : ℤ)
  | delTimer (ts : Fin n)
  | runTimers (enabled : Bool) (now : ℤ)
  | turn

/-- A turn of the loop of `qemu_run_timers`. -/
def turn (m : Machine n) : Machine n :=
  match m.running with
  | [] => m
  | now :: rest =>
    match m.timers.link .head with
    | none => { m with running := rest, trace := m.trace ++ [.returned now] }
    | some ts =>
      if qemuTimerExpiredNs m.timers (some ts) now then
        let link := update m.timers.link .head (m.timers.link (.next ts))
        { m with
          timers := { m.timers with link := update link (.next ts) none }
          trace := m.trace ++ [.fired ts now] }
      else { m with running := rest, trace := m.trace ++ [.returned now] }

/-- One event. `qemu_mod_timer` has the time in units of the timer. -/
def step (scale : Fin n → ℤ) (m : Machine n) : Event n → Option (Machine n)
  | .modTimer ts expireTime =>
    (qemuModTimerNs m.timers ts (expireTime * scale ts)).map fun s =>
      { m with timers := s, trace := m.trace ++ [.armed ts (expireTime * scale ts)] }
  | .delTimer ts =>
    (qemuDelTimer m.timers ts).map fun s =>
      { m with timers := s, trace := m.trace ++ [.deleted ts] }
  | .runTimers enabled now => some (if enabled then { m with running := now :: m.running } else m)
  | .turn => some (turn m)

/-- No timer is armed. The times in timers that were never armed do not matter. -/
def initMachine (expireTime : Fin n → ℤ) : Machine n := ⟨⟨fun _ => none, expireTime⟩, [], []⟩

/-! ### The list is the agenda -/

/-- **The invariant**: the list has the timers that are armed, in the order in which they are
due. -/
structure Sorted (s : ActiveTimers n) (a : Agenda n) (l : List (Fin n)) : Prop where
  chain : Chain s.link .next .head l
  nodup : l.Nodup
  mem : ∀ ts, ts ∈ l ↔ (a.pending ts).isSome
  expire : ∀ ts x, a.pending ts = some x → s.expireTime ts = x.expire
  serial : ∀ ts x, a.pending ts = some x → x.serial < a.serial
  order : l.Pairwise fun t u => ∀ x y, a.pending t = some x → a.pending u = some y → x.Before y

namespace Sorted

variable {s : ActiveTimers n} {a : Agenda n} {l : List (Fin n)}

theorem nodup_links (h : Sorted s a l) : ((Link.head :: l.map .next) : List (Link n)).Nodup := by
  refine nodup_cons.mpr ⟨fun hmem => ?_, h.nodup.map fun _ _ => Link.next.inj⟩
  obtain ⟨ts, -, hts⟩ := List.mem_map.mp hmem
  exact nomatch hts

theorem length_lt (h : Sorted s a l) : l.length < n + 1 :=
  Nat.lt_succ_of_le (h.nodup.length_le_card.trans (Fintype.card_fin n).le)

/-- A timer is found where it is, or it is not in the list. -/
theorem find (h : Sorted s a l) (ts : Fin n) :
    (ts ∉ l ∧ ∃ pt, findTimer s ts = some pt ∧ s.link pt = none) ∨
      ∃ l₁ l₂, l = l₁ ++ ts :: l₂ ∧ findTimer s ts = some (lastCell .next .head l₁) ∧
        s.link (lastCell .next .head l₁) = some ts := by
  rcases exists_first (fun t => decide (t = ts)) l with hall | ⟨l₁, t, l₂, rfl, hpass, ht⟩
  · refine .inl ⟨fun hmem => ?_, _, h.chain.seek_end hall h.length_lt, h.chain.2⟩
    exact absurd (hall ts hmem) (by rw [decide_eq_true rfl]; exact nofun)
  · obtain rfl := of_decide_eq_true ht
    have hlen := h.length_lt
    rw [length_append] at hlen
    obtain ⟨hseek, hlink⟩ := h.chain.seek_found hpass ht (show l₁.length < n + 1 by omega)
    exact .inr ⟨l₁, l₂, rfl, hseek, hlink⟩

/-- The pending timers without one. -/
theorem erase {l₁ l₂ : List (Fin n)} {ts : Fin n} {link : Link n → Option (Fin n)}
    (h : Sorted s a (l₁ ++ ts :: l₂)) (hchain : Chain link .next .head (l₁ ++ l₂)) :
    Sorted { s with link := link } { a with pending := update a.pending ts none } (l₁ ++ l₂) := by
  have hnot : ts ∉ l₁ ++ l₂ := (nodup_cons.mp (nodup_middle.mp h.nodup)).1
  have hsub : (l₁ ++ l₂).Sublist (l₁ ++ ts :: l₂) := (sublist_cons_self ts l₂).append_left l₁
  have hpending : ∀ u x, update a.pending ts none u = some x → u ≠ ts ∧ a.pending u = some x := by
    intro u x hu
    by_cases hut : u = ts
    · rw [hut, update_self] at hu
      exact nomatch hu
    · exact ⟨hut, by rwa [update_of_ne hut] at hu⟩
  refine ⟨hchain, h.nodup.sublist hsub, fun u => ?_, fun u x hu => h.expire u x (hpending u x hu).2,
    fun u x hu => h.serial u x (hpending u x hu).2, ?_⟩
  · by_cases hut : u = ts
    · subst hut
      dsimp only
      rw [update_self]
      exact iff_of_false hnot (by simp)
    · dsimp only
      rw [update_of_ne hut, ← h.mem u]
      simp [hut]
  · refine (h.order.sublist hsub).imp fun hord x y hx hy => ?_
    exact hord x y (hpending _ x hx).2 (hpending _ y hy).2

/-- A timer that is not armed is deleted. -/
theorem delete_absent {ts : Fin n} (h : Sorted s a l) (hnot : ts ∉ l) :
    Sorted s { a with pending := update a.pending ts none } l := by
  have hnone : a.pending ts = none := by
    rw [h.mem ts, isSome_iff_ne_none, not_not] at hnot
    exact hnot
  have heq : update a.pending ts none = a.pending := by
    rw [← hnone, update_eq_self]
  rw [heq]
  exact h

/-- **`qemu_del_timer`.** -/
theorem delTimer (h : Sorted s a l) (ts : Fin n) :
    ∃ s' l', qemuDelTimer s ts = some s' ∧ ts ∉ l' ∧
      Sorted s' { a with pending := update a.pending ts none } l' := by
  rw [qemuDelTimer]
  rcases h.find ts with ⟨hnot, pt, hfind, hnone⟩ | ⟨l₁, l₂, rfl, hfind, hlink⟩
  · rw [hfind]
    refine ⟨s, l, ?_, hnot, h.delete_absent hnot⟩
    rw [map_some, hnone]
  · rw [hfind]
    refine ⟨_, l₁ ++ l₂, rfl, (nodup_cons.mp (nodup_middle.mp h.nodup)).1, ?_⟩
    dsimp only
    rw [hlink]
    exact h.erase (h.chain.unlink h.nodup_links)

/-- The place of a new time in the list: behind what is due by then. -/
theorem place (h : Sorted s a l) (expire : ℤ) :
    ∃ l₁ l₂, l = l₁ ++ l₂ ∧
      seek s.link .next (fun t => !qemuTimerExpiredNs s (some t) expire) (n + 1) .head =
        some (lastCell .next .head l₁) ∧
      (∀ t ∈ l₁, s.expireTime t ≤ expire) ∧ ∀ t ∈ l₂, expire < s.expireTime t := by
  have hpass : ∀ t, (!qemuTimerExpiredNs s (some t) expire) = false → s.expireTime t ≤ expire := by
    intro t ht
    rw [Bool.not_eq_false', qemuTimerExpiredNs, decide_eq_true_eq] at ht
    exact ht
  rcases exists_first (fun t => !qemuTimerExpiredNs s (some t) expire) l with
    hall | ⟨l₁, t, l₂, rfl, hbefore, ht⟩
  · exact ⟨l, [], (append_nil l).symm, h.chain.seek_end hall h.length_lt,
      fun t ht => hpass t (hall t ht), nofun⟩
  · have hlen := h.length_lt
    rw [length_append] at hlen
    have hlate : expire < s.expireTime t := by
      rw [qemuTimerExpiredNs, Bool.not_eq_true', decide_eq_false_iff_not, not_le] at ht
      exact ht
    refine ⟨l₁, t :: l₂, rfl, (h.chain.seek_found hbefore ht (by omega)).1, fun u hu =>
      hpass u (hbefore u hu),
      fun u hu => ?_⟩
    rcases mem_cons.mp hu with rfl | hu
    · exact hlate
    · -- the list is sorted, so that what is behind `t` expires no earlier
      obtain ⟨x, hx⟩ := isSome_iff_exists.mp ((h.mem t).mp (by simp))
      obtain ⟨y, hy⟩ := isSome_iff_exists.mp ((h.mem u).mp (by simp [hu]))
      have hord := rel_of_pairwise_cons (pairwise_append.mp h.order).2.1 hu x y hx hy
      rw [h.expire t x hx] at hlate
      rw [h.expire u y hy]
      rcases hord with hlt | ⟨heq, -⟩
      · exact hlate.trans hlt
      · rwa [← heq]

/-- The pending timers with one more. -/
theorem insert {l₁ l₂ : List (Fin n)} {ts : Fin n} {expire : ℤ} (h : Sorted s a (l₁ ++ l₂))
    (hnot : ts ∉ l₁ ++ l₂) (hle : ∀ t ∈ l₁, s.expireTime t ≤ expire)
    (hlt : ∀ t ∈ l₂, expire < s.expireTime t) :
    Sorted ⟨update (update s.link (.next ts) (s.link (lastCell .next .head l₁)))
        (lastCell .next .head l₁) (some ts), update s.expireTime ts expire⟩
      (a.mark (.armed ts expire)) (l₁ ++ ts :: l₂) := by
  have hpending : ∀ u x, update a.pending ts (some ⟨expire, a.serial⟩) u = some x →
      u = ts ∧ x = ⟨expire, a.serial⟩ ∨ u ≠ ts ∧ a.pending u = some x := by
    intro u x hu
    by_cases hut : u = ts
    · rw [hut, update_self] at hu
      exact .inl ⟨hut, (some.inj hu).symm⟩
    · exact .inr ⟨hut, by rwa [update_of_ne hut] at hu⟩
  have hne : ∀ u ∈ l₁ ++ l₂, u ≠ ts := fun u hu hut => hnot (hut ▸ hu)
  refine ⟨h.chain.insert h.nodup_links ?_, nodup_middle.mpr (nodup_cons.mpr ⟨hnot, h.nodup⟩),
    fun u => ?_, fun u x hu => ?_, fun u x hu => ?_, ?_⟩
  · intro hmem
    rcases mem_cons.mp hmem with heq | hmem
    · exact nomatch heq
    · obtain ⟨u, hu, heq⟩ := List.mem_map.mp hmem
      exact hne u hu (Link.next.inj heq)
  · rw [Agenda.mark]
    dsimp only
    by_cases hut : u = ts
    · subst hut
      rw [update_self]
      exact iff_of_true (by simp) rfl
    · rw [update_of_ne hut, ← h.mem u]
      simp [hut]
  · rcases hpending u x hu with ⟨rfl, rfl⟩ | ⟨hut, hu⟩
    · exact update_self ..
    · exact (update_of_ne hut ..).trans (h.expire u x hu)
  · rcases hpending u x hu with ⟨rfl, rfl⟩ | ⟨-, hu⟩
    · exact Nat.lt_succ_self _
    · exact Nat.lt_succ_of_lt (h.serial u x hu)
  · -- the new timer is behind those that expire at the same time, which were armed earlier
    have hold : ∀ t ∈ l₁ ++ l₂, ∀ x, (a.mark (.armed ts expire)).pending t = some x →
        a.pending t = some x := fun t ht x hx =>
      ((hpending t x hx).resolve_left fun heq => hne t ht heq.1).2
    have hnew : ∀ x, (a.mark (.armed ts expire)).pending ts = some x → x = ⟨expire, a.serial⟩ :=
      fun x hx =>
      ((hpending ts x hx).resolve_right fun heq => heq.1 rfl).2
    obtain ⟨hord₁, hord₂, hcross⟩ := pairwise_append.mp h.order
    refine pairwise_append.mpr ⟨?_, pairwise_cons.mpr ⟨fun u hu x y hx hy => ?_, ?_⟩,
      fun t ht u hu x y hx hy => ?_⟩
    · exact hord₁.imp_of_mem fun ht hu hord x y hx hy =>
        hord x y (hold _ (mem_append_left _ ht) x hx) (hold _ (mem_append_left _ hu) y hy)
    · have hy := hold u (mem_append_right _ hu) y hy
      obtain rfl := hnew x hx
      exact .inl ((hlt u hu).trans_eq (h.expire u y hy))
    · exact hord₂.imp_of_mem fun ht hu hord x y hx hy =>
        hord x y (hold _ (mem_append_right _ ht) x hx) (hold _ (mem_append_right _ hu) y hy)
    · have hx' := hold t (mem_append_left _ ht) x hx
      rcases mem_cons.mp hu with rfl | hu
      · obtain rfl := hnew y hy
        have hxe := hle t ht
        rw [h.expire t x hx'] at hxe
        exact hxe.lt_or_eq.imp id fun heq => ⟨heq, h.serial t x hx'⟩
      · exact hcross t ht u hu x y hx' (hold u (mem_append_right _ hu) y hy)

/-- **`qemu_mod_timer_ns`.** -/
theorem modTimerNs (h : Sorted s a l) (ts : Fin n) (expire : ℤ) :
    ∃ s' l', qemuModTimerNs s ts expire = some s' ∧ Sorted s' (a.mark (.armed ts expire)) l' := by
  obtain ⟨s₁, l', hdel, hnot, hsorted⟩ := h.delTimer ts
  obtain ⟨l₁, l₂, rfl, hseek, hle, hlt⟩ := hsorted.place expire
  have hinsert := hsorted.insert hnot hle hlt
  rw [Agenda.mark, update_idem] at hinsert
  rw [qemuModTimerNs, hdel, bind_some, hseek]
  exact ⟨_, _, rfl, hinsert⟩

/-- The first timer of the list is due first. -/
theorem first {ts : Fin n} (h : Sorted s a (ts :: l)) :
    ∃ x, a.pending ts = some x ∧ s.expireTime ts = x.expire ∧
      ∀ u y, a.pending u = some y → u = ts ∨ x.Before y := by
  obtain ⟨x, hx⟩ := isSome_iff_exists.mp ((h.mem ts).mp (.head _))
  refine ⟨x, hx, h.expire ts x hx, fun u y hy => ?_⟩
  have hu : u ∈ ts :: l := (h.mem u).mpr (by rw [hy]; rfl)
  exact (mem_cons.mp hu).imp id fun hu => rel_of_pairwise_cons h.order hu x y hx hy

end Sorted

/-- **`qemu_timer_pending`** tells whether a timer is armed. -/
theorem timerPending_iff {s : ActiveTimers n} {a : Agenda n} {l : List (Fin n)} (h : Sorted s a l)
    (ts : Fin n) :
    qemuTimerPending s ts = some (a.pending ts).isSome := by
  rw [qemuTimerPending]
  rcases h.find ts with ⟨hnot, pt, hfind, hnone⟩ | ⟨l₁, l₂, rfl, hfind, hlink⟩
  · rw [h.mem ts, Bool.not_eq_true] at hnot
    rw [hfind, map_some, hnone, hnot]
    rfl
  · rw [hfind, map_some, hlink, (h.mem ts).mp (by simp)]
    rfl

/-! ### Every run -/

/-- What a mark says about what is armed at that time. -/
def Mark.Ok (a : Agenda n) : Mark n → Prop
  | .fired ts now => ∃ x, a.pending ts = some x ∧ x.expire ≤ now ∧
      ∀ u y, a.pending u = some y → u = ts ∨ x.Before y
  | .returned now => ∀ u y, a.pending u = some y → now < y.expire
  | _ => True

/-- Every mark of a trace is right. -/
def TraceOk (trace : List (Mark n)) : Prop := ∀ p mark, p ++ [mark] <+: trace → mark.Ok (agenda p)

theorem TraceOk.append {trace : List (Mark n)} (h : TraceOk trace) {mark : Mark n}
    (hmark : mark.Ok (agenda trace)) : TraceOk (trace ++ [mark]) := by
  intro p mark' hp
  rcases prefix_concat_iff.mp hp with heq | hp
  · obtain ⟨rfl, hsingle⟩ := append_inj' heq rfl
    obtain rfl := singleton_inj.mp hsingle
    exact hmark
  · exact h p mark' hp

/-- The invariant of a run. -/
structure Inv (m : Machine n) : Prop where
  sorted : ∃ l, Sorted m.timers (agenda m.trace) l
  trace : TraceOk m.trace

/-- **A turn of a call in progress** calls the callback of the timer that is due first, or none is
due and the call returns. -/
theorem Sorted.turn {m : Machine n} {l : List (Fin n)} (h : Sorted m.timers (agenda m.trace) l)
    {now : ℤ} {rest : List ℤ} (hrunning : m.running = now :: rest) :
    (∃ ts l', l = ts :: l' ∧ (Mark.fired ts now).Ok (agenda m.trace) ∧
      (turn m).running = m.running ∧ (turn m).trace = m.trace ++ [.fired ts now] ∧
      Sorted (turn m).timers (agenda (turn m).trace) l') ∨
    (Mark.returned now).Ok (agenda m.trace) ∧
      turn m = { m with running := rest, trace := m.trace ++ [.returned now] } := by
  rw [Timers.turn, hrunning]
  dsimp only
  cases l with
  | nil =>
    rw [chain_nil.mp h.chain]
    refine .inr ⟨fun u y hy => ?_, rfl⟩
    exact nomatch (h.mem u).mpr (by rw [hy]; rfl)
  | cons ts l =>
    obtain ⟨x, hx, hexpire, hfirst⟩ := h.first
    rw [(chain_cons.mp h.chain).1]
    dsimp only
    split_ifs with hdue
    · rw [qemuTimerExpiredNs, decide_eq_true_eq, hexpire] at hdue
      refine .inl ⟨ts, l, rfl, ⟨x, hx, hdue, hfirst⟩, rfl, rfl, ?_⟩
      rw [agenda_append]
      have hlinks := h.nodup_links
      have hhead : Sorted m.timers (agenda m.trace) ([] ++ ts :: l) := h
      refine hhead.erase ?_
      refine (hhead.chain.unlink hlinks).congr fun c hc => update_of_ne ?_ _ _
      rintro rfl
      rw [map_cons] at hlinks
      rcases mem_cons.mp hc with heq | hmem
      · exact nomatch heq
      · exact (nodup_cons.mp (nodup_cons.mp hlinks).2).1 hmem
    · refine .inr ⟨fun u y hy => ?_, rfl⟩
      rw [qemuTimerExpiredNs, decide_eq_true_eq, hexpire, not_le] at hdue
      rcases hfirst u y hy with rfl | hlt | ⟨heq, -⟩
      · rwa [some.inj (hx.symm.trans hy)] at hdue
      · exact hdue.trans hlt
      · rwa [heq] at hdue

theorem turn_inv {m : Machine n} (h : Inv m) : Inv (turn m) := by
  obtain ⟨l, hl⟩ := h.sorted
  cases hrunning : m.running with
  | nil =>
    rw [turn, hrunning]
    exact h
  | cons now rest =>
    rcases hl.turn hrunning with ⟨ts, l', -, hok, -, htrace, hl'⟩ | ⟨hok, heq⟩
    · exact ⟨⟨l', hl'⟩, htrace ▸ h.trace.append hok⟩
    · refine heq ▸ ⟨⟨l, ?_⟩, h.trace.append hok⟩
      rw [agenda_append]
      exact hl

/-- Without other calls in between, the innermost call of `qemu_run_timers` calls the callbacks of
the timers that are due, each once, and then returns. -/
def Completes (scale : Fin n → ℤ) (m : Machine n) (now : ℤ) (rest : List ℤ) : Prop :=
  ∃ (fired : List (Fin n)) (m' : Machine n), fired.Nodup ∧
    (∀ ts, ts ∈ fired ↔ ∃ x, (agenda m.trace).pending ts = some x ∧ x.expire ≤ now) ∧
    run (step scale) m (replicate (fired.length + 1) .turn) = some m' ∧ m'.running = rest ∧
    m'.trace = m.trace ++ fired.map (.fired · now) ++ [.returned now]

theorem Sorted.completes (scale : Fin n → ℤ) {m : Machine n} {l : List (Fin n)}
    (h : Sorted m.timers (agenda m.trace) l) {now : ℤ} {rest : List ℤ}
    (hrunning : m.running = now :: rest) :
    Completes scale m now rest := by
  rcases h.turn hrunning with ⟨t, l', rfl, ⟨x, hx, hle, -⟩, hrun, htrace, hl'⟩ | ⟨hok, heq⟩
  · obtain ⟨fired, m', hnodup, hmem, hrun', hrest, htrace'⟩ :=
      hl'.completes scale (hrun.trans hrunning)
    rw [htrace, agenda_append, Agenda.mark] at hmem
    dsimp only at hmem
    refine ⟨t :: fired, m', nodup_cons.mpr ⟨fun ht => ?_, hnodup⟩, fun u => ?_, hrun', hrest, ?_⟩
    · obtain ⟨y, hy, -⟩ := (hmem t).mp ht
      rw [update_self] at hy
      exact nomatch hy
    · rw [mem_cons, hmem]
      by_cases hu : u = t
      · exact iff_of_true (.inl hu) ⟨x, hu ▸ hx, hle⟩
      · rw [update_of_ne hu, or_iff_right hu]
    · rw [htrace', htrace]
      simp
  · refine ⟨[], Timers.turn m, nodup_nil, fun ts => iff_of_false not_mem_nil ?_, rfl, by rw [heq],
      by simp [heq]⟩
    exact fun ⟨x, hx, hle⟩ => (hok ts x hx).not_ge hle
termination_by l.length

/-- One event. -/
theorem step_inv (scale : Fin n → ℤ) {m : Machine n} (h : Inv m) (e : Event n) :
    ∃ m', step scale m e = some m' ∧ Inv m' := by
  obtain ⟨l, hl⟩ := h.sorted
  cases e with
  | modTimer ts expireTime =>
    obtain ⟨s', l', heq, hsorted⟩ := hl.modTimerNs ts (expireTime * scale ts)
    rw [step, heq]
    exact ⟨_, rfl, ⟨l', by rw [agenda_append]; exact hsorted⟩, h.trace.append trivial⟩
  | delTimer ts =>
    obtain ⟨s', l', heq, -, hsorted⟩ := hl.delTimer ts
    rw [step, heq]
    exact ⟨_, rfl, ⟨l', by rw [agenda_append]; exact hsorted⟩, h.trace.append trivial⟩
  | runTimers enabled now =>
    cases enabled with
    | false => exact ⟨m, rfl, h⟩
    | true => exact ⟨_, rfl, h.sorted, h.trace⟩
  | turn => exact ⟨_, rfl, turn_inv h⟩

theorem run_inv (scale : Fin n → ℤ) (es : List (Event n)) {m : Machine n} (h : Inv m) :
    ∃ m', run (step scale) m es = some m' ∧ Inv m' := by
  induction es generalizing m with
  | nil => exact ⟨m, rfl, h⟩
  | cons e es ih =>
    obtain ⟨m₁, heq, h₁⟩ := step_inv scale h e
    obtain ⟨m', hrun, h'⟩ := ih h₁
    exact ⟨m', by rw [run_cons, heq]; exact hrun, h'⟩

theorem inv_init (expireTime : Fin n → ℤ) : Inv (initMachine expireTime) := by
  refine ⟨⟨[], chain_nil.mpr rfl, nodup_nil, fun ts => ?_, nofun, nofun, List.Pairwise.nil⟩, ?_⟩
  · exact iff_of_false not_mem_nil nofun
  · intro p mark hp
    exact absurd (prefix_nil.mp hp) (by simp)

/-- **Timers fire once, and in order.** Whatever is called, in callbacks or outside of them, every
call of `qemu_mod_timer` and `qemu_del_timer` returns, and the list is sorted and without
repetitions. It has the timers that are armed; a callback is called only for an armed timer, one
that is due and that no other is due before; and when `qemu_run_timers` returns, no timer is armed
for a time up to the one that it has sampled. Each turn of its loop calls a callback or returns, and
without other calls it calls those of all the timers that are due, each once, and returns. -/
theorem timers_fire_once_in_order (scale expireTime : Fin n → ℤ) (es : List (Event n)) :
    ∃ m l, run (step scale) (initMachine expireTime) es = some m ∧
      Chain m.timers.link .next .head l ∧ l.Nodup ∧
      (l.Pairwise fun t u => m.timers.expireTime t ≤ m.timers.expireTime u) ∧
      (∀ ts, ts ∈ l ↔ ∃ x, (agenda m.trace).pending ts = some x ∧
        x.expire = m.timers.expireTime ts) ∧
      TraceOk m.trace ∧
      ∀ now rest, m.running = now :: rest →
        ((∃ ts, (turn m).trace = m.trace ++ [.fired ts now] ∧ (turn m).running = m.running) ∨
          (turn m).trace = m.trace ++ [.returned now] ∧ (turn m).running = rest) ∧
        Completes scale m now rest := by
  obtain ⟨m, hrun, ⟨l, hl⟩, htrace⟩ := run_inv scale es (inv_init expireTime)
  have hpending : ∀ ts ∈ l, ∃ x, (agenda m.trace).pending ts = some x ∧
      x.expire = m.timers.expireTime ts := fun ts hts => by
    obtain ⟨x, hx⟩ := isSome_iff_exists.mp ((hl.mem ts).mp hts)
    exact ⟨x, hx, (hl.expire ts x hx).symm⟩
  refine ⟨m, l, hrun, hl.chain, hl.nodup, ?_, fun ts => ⟨hpending ts, fun ⟨x, hx, _⟩ => ?_⟩, htrace,
    fun now rest hrunning => ⟨?_, hl.completes scale hrunning⟩⟩
  · refine hl.order.imp_of_mem fun ht hu hord => ?_
    obtain ⟨x, hx, hxe⟩ := hpending _ ht
    obtain ⟨y, hy, hye⟩ := hpending _ hu
    rw [← hxe, ← hye]
    exact (hord x y hx hy).elim le_of_lt fun heq => heq.1.le
  · rw [hl.mem, hx]
    rfl
  · rcases hl.turn hrunning with ⟨ts, -, -, -, hkept, htrace, -⟩ | ⟨-, heq⟩
    · exact .inl ⟨ts, htrace, hkept⟩
    · exact .inr (heq ▸ ⟨rfl, rfl⟩)

/-! ### The alarm of the host -/

/-- `QEMU_CLOCK_REALTIME`, `QEMU_CLOCK_VIRTUAL` and `QEMU_CLOCK_HOST`. -/
inductive ClockType where
  | realtime
  | virtual
  | host

/-- `expire_time` less the time of the clock, as an `int64_t`. -/
def timeLeft (s : ActiveTimers n) (now : ℤ) (ts : Fin n) : ℤ :=
  Int.bmod (s.expireTime ts - now) 0x10000000000000000

/-- `delta`, or the time to the first timer of a clock if that is less. -/
def nearer (s : ActiveTimers n) (now delta : ℤ) : ℤ :=
  (s.link .head).elim delta fun ts => min delta (timeLeft s now ts)

variable (useIcount : Bool) (timers : ClockType → ActiveTimers n) (now : ClockType → ℤ)

/-- `qemu_next_alarm_deadline`. -/
def qemuNextAlarmDeadline : ℤ :=
  let delta := match useIcount, (timers .virtual).link .head with
    | false, some ts => timeLeft (timers .virtual) (now .virtual) ts
    | _, _ => 0x7fffffff
  nearer (timers .realtime) (now .realtime) (nearer (timers .host) (now .host) delta)

/-- `dynticks_rearm_timer`: what is left until the alarm, if `timer_gettime` says `currentNs`. -/
def dynticksRearmTimer (currentNs : ℤ) : ℤ :=
  if [ClockType.realtime, .virtual, .host].all fun c =>
    ((timers c).link .head).isNone then currentNs
  else
    let nearestDeltaNs := max (qemuNextAlarmDeadline useIcount timers now) 250000
    if currentNs ≠ 0 ∧ currentNs ≤ nearestDeltaNs then currentNs else nearestDeltaNs

theorem nearer_le (s : ActiveTimers n) (now delta : ℤ) :
    nearer s now delta ≤ delta ∧ ∀ ts ∈ s.link .head, nearer s now delta ≤ timeLeft s now ts := by
  unfold nearer
  cases s.link .head with
  | none => exact ⟨le_rfl, nofun⟩
  | some ts => exact ⟨min_le_left .., fun _ h => some.inj h ▸ min_le_right ..⟩

/-- The times that timers are armed for are less than 292 years from the time of the clock. -/
def Near (m : Machine n) (now : ℤ) : Prop :=
  ∀ u y, (agenda m.trace).pending u = some y →
    -0x8000000000000000 ≤ y.expire - now ∧ y.expire - now < 0x8000000000000000

/-- No armed timer expires before the first of the list. -/
theorem Inv.head_le {m : Machine n} (h : Inv m) {now : ℤ} (hnear : Near m now)
    {u : Fin n} {y : Arming} (hy : (agenda m.trace).pending u = some y) :
    ∃ ts, m.timers.link .head = some ts ∧ timeLeft m.timers now ts ≤ y.expire - now := by
  obtain ⟨l, hl⟩ := h.sorted
  have hu := (hl.mem u).mpr (by rw [hy]; rfl)
  cases l with
  | nil => exact nomatch hu
  | cons ts l =>
    obtain ⟨x, hx, hexpire, hfirst⟩ := hl.first
    obtain ⟨hge, hlt⟩ := hnear ts x hx
    have hle : x.expire ≤ y.expire := by
      rcases hfirst u y hy with rfl | hbefore
      · rw [some.inj (hx.symm.trans hy)]
      · exact hbefore.elim le_of_lt fun heq => heq.1.le
    refine ⟨ts, (chain_cons.mp hl.chain).1, ?_⟩
    rw [timeLeft, hexpire, Int.bmod_eq_of_le (by omega) (by omega)]
    exact Int.sub_le_sub_right hle now

/-- **The alarm comes in time.** Whatever is called for the timers of the three clocks, if one is
armed and all are armed for times near the time of their clock, then `dynticks_rearm_timer` leaves
the alarm set, for no later than that timer or 250 µs. With `-icount`, virtual time does not
count. -/
theorem alarm_in_time (scale expireTime : ClockType → Fin n → ℤ) (es : ClockType → List (Event n))
    (currentNs : ℕ) : ∃ m : ClockType → Machine n,
      (∀ c, run (step (scale c)) (initMachine (expireTime c)) (es c) = some (m c)) ∧
      ((∀ c, Near (m c) (now c)) →
        ∀ c u y, (agenda (m c).trace).pending u = some y → (useIcount = true → c ≠ .virtual) →
          let left := dynticksRearmTimer useIcount (fun c => (m c).timers) now currentNs
          0 < left ∧ left ≤ max (y.expire - now c) 250000) := by
  choose m hrun h using fun c => run_inv (scale c) (es c) (inv_init (expireTime c))
  refine ⟨m, hrun, fun hnear c u y hy hc => ?_⟩
  obtain ⟨ts, hhead, hle⟩ := (h c).head_le (hnear c) hy
  have hdeadline :
      qemuNextAlarmDeadline useIcount (fun c => (m c).timers) now ≤ y.expire - now c := by
    refine le_trans ?_ hle
    unfold qemuNextAlarmDeadline
    cases c with
    | realtime => exact (nearer_le ..).2 ts hhead
    | host => exact (nearer_le ..).1.trans ((nearer_le ..).2 ts hhead)
    | virtual =>
      rw [Bool.eq_false_iff.mpr fun htrue => hc htrue rfl, hhead]
      exact (nearer_le ..).1.trans (nearer_le ..).1
  rw [dynticksRearmTimer, if_neg]
  · dsimp only
    split_ifs <;> omega
  · cases c <;> simp [hhead]

/-- A timer that is armed for a millisecond from now, on each of the clocks. -/
theorem alarm_for_millisecond :
    ∃ m : Machine 1, run (step fun _ => 1) (initMachine fun _ => 0) [.modTimer 0 1000000] = some m ∧
      dynticksRearmTimer false (fun _ => m.timers) (fun _ => 0) 0 ≤ 1000000 := by
  obtain ⟨m, hrun, halarm⟩ :=
    alarm_in_time (n := 1) false (fun _ => 0) (fun _ _ => 1) (fun _ _ => 0)
    (fun _ => [.modTimer 0 1000000]) 0
  have hsame : m = fun _ => m .host := funext fun c => some.inj ((hrun c).symm.trans (hrun .host))
  have htrace : (m .host).trace = [.armed 0 1000000] :=
    congrArg Machine.trace (some.inj (hrun .host)).symm
  rw [hsame] at halarm
  have hpending : ∀ u, (agenda (m .host).trace).pending u = some ⟨1000000, 0⟩ := by
    intro u
    rw [htrace, Subsingleton.elim u 0]
    rfl
  refine ⟨m .host, hrun .host, (halarm (fun _ u y hy => ?_) .host 0 _ (hpending 0) nofun).2⟩
  obtain rfl := some.inj ((hpending u).symm.trans hy)
  decide

end VariabilityTestbed.Timers
