import VariabilityTestbed.Irq.Effects
import VariabilityTestbed.Lib.Runs

/-!
# The outputs of the interrupt controller

`current_pending` and the lines to the CPUs are a function of the rest of the state. `gic_update`
computes it, for one CPU after the other, up to the first whose interface is disabled; and a write
to System Handler Control is not followed by `gic_update` at all. So the outputs follow the inputs
as long as the CPUs with an enabled interface come first, and that register does not change an
exception that is pending.
-/

namespace VariabilityTestbed.Irq

open Function Gic Runs List Option

variable {g : Config} {s s' : Gic g.ncpu} {c cpu irq : ℕ}

/-! ### What the outputs should be -/

/-- The controller and the interface of a CPU are enabled. -/
def Connected (s : Gic g.ncpu) (c : ℕ) : Prop := s.enabled = true ∧ s.cpuEnabled c = true

/-- An enabled interrupt that is pending for a CPU. -/
def Candidate (s : Gic g.ncpu) (c irq : ℕ) : Prop :=
  irq < g.nirq ∧ (s.irqState irq).enabled = true ∧
    (s.irqState irq).testPending (cpuBit g.ncpu c) = true

/-- The candidate with the least priority, and the first of those. -/
def Chosen (s : Gic g.ncpu) (c irq : ℕ) : Prop :=
  Candidate s c irq ∧ ∀ j, Candidate s c j →
    s.getPriority irq c < s.getPriority j c ∨ s.getPriority irq c = s.getPriority j c ∧ irq ≤ j

/-- The interrupt that a CPU should see. -/
def Deliverable (s : Gic g.ncpu) (c irq : ℕ) : Prop :=
  Connected s c ∧ Chosen s c irq ∧ s.getPriority irq c ≤ s.priorityMask c

/-- The outputs for a CPU are right. -/
structure Follows (s : Gic g.ncpu) (c : ℕ) : Prop where
  pending : ∀ irq, Deliverable s c irq → s.currentPending c = irq
  none : (∀ irq, ¬ Deliverable s c irq) → s.currentPending c = 1023
  line : s.parentIrq c = true ↔ ∃ irq, Deliverable s c irq ∧ s.getPriority irq c <
    s.runningPriority c

theorem Chosen.unique {i j : ℕ} (hi : Chosen s c i) (hj : Chosen s c j) : i = j := by
  have hij := hi.2 j hj.1
  have hji := hj.2 i hi.1
  omega

theorem Deliverable.unique {i j : ℕ} (hi : Deliverable s c i) (hj : Deliverable s c j) : i = j :=
  hi.2.1.unique hj.2.1

/-- Nothing is to be seen. -/
theorem follows_of_not_deliverable (hnone : ∀ irq, ¬ Deliverable s c irq)
    (hpending : s.currentPending c = 1023) (hline : s.parentIrq c = false) : Follows s c where
  pending irq h := absurd h (hnone irq)
  none _ := hpending
  line := by
    rw [hline]
    exact iff_of_false Bool.false_ne_true fun ⟨irq, h, _⟩ => hnone irq h

/-- One interrupt is to be seen. -/
theorem follows_of_deliverable (h : Deliverable s c irq) (hpending : s.currentPending c = irq)
    (hline : s.parentIrq c = decide (s.getPriority irq c < s.runningPriority c)) : Follows s c where
  pending j hj := hpending.trans (h.unique hj)
  none hnone := absurd h (hnone irq)
  line := by
    rw [hline, decide_eq_true_eq]
    exact ⟨fun hlt => ⟨irq, h, hlt⟩, fun ⟨j, hj, hlt⟩ => h.unique hj ▸ hlt⟩

/-! ### The loops of `gic_update` -/

theorem better_of_candidate {best : ℕ × ℕ} (h : Candidate s c irq) :
    better s c best irq = if s.getPriority irq c < best.1 then (s.getPriority irq c, irq)
    else best := by
  rw [better, h.2.1, h.2.2, Bool.and_self, if_pos rfl]

theorem better_of_not_candidate {best : ℕ × ℕ} (hirq : irq < g.nirq) (h : ¬ Candidate s c irq) :
    better s c best irq = best := by
  rw [better, if_neg]
  rw [Bool.and_eq_true]
  exact fun hboth => h ⟨hirq, hboth⟩

/-- What the inner loop knows behind `k` interrupts: it has seen nothing below `0x100`, or the best
so far. -/
def BestBelow (s : Gic g.ncpu) (c k : ℕ) (best : ℕ × ℕ) : Prop :=
  (best = (0x100, 1023) ∧ ∀ j < k, Candidate s c j → 0x100 ≤ s.getPriority j c) ∨
    (best.1 = s.getPriority best.2 c ∧ best.1 < 0x100 ∧ best.2 < k ∧ Candidate s c best.2 ∧
      ∀ j < k, Candidate s c j → best.1 < s.getPriority j c ∨
      best.1 = s.getPriority j c ∧ best.2 ≤ j)

theorem BestBelow.step {k : ℕ} {best : ℕ × ℕ} (hk : k < g.nirq) (h : BestBelow s c k best) :
    BestBelow s c (k + 1) (better s c best k) := by
  by_cases hcand : Candidate s c k
  · rw [better_of_candidate hcand]
    split_ifs with hlt
    · -- the new interrupt is better than all before it
      have hlow : s.getPriority k c < 0x100 := by
        rcases h with ⟨rfl, -⟩ | ⟨-, hbelow, -⟩
        · exact hlt
        · omega
      refine .inr ⟨rfl, hlow, Nat.lt_succ_self k, hcand, fun j hj hcandj => ?_⟩
      rcases Nat.lt_succ_iff_lt_or_eq.mp hj with hj | rfl
      · rcases h with ⟨-, hall⟩ | ⟨-, -, -, -, hall⟩
        · exact .inl (hlow.trans_le (hall j hj hcandj))
        · exact .inl (hlt.trans_le (by have := hall j hj hcandj; omega))
      · exact .inr ⟨rfl, le_rfl⟩
    · rcases h with ⟨rfl, hall⟩ | ⟨hprio, hlow, hlt', hbest, hall⟩
      · refine .inl ⟨rfl, fun j hj hcandj => ?_⟩
        rcases Nat.lt_succ_iff_lt_or_eq.mp hj with hj | rfl
        · exact hall j hj hcandj
        · exact Nat.le_of_not_lt hlt
      · refine .inr ⟨hprio, hlow, hlt'.trans (Nat.lt_succ_self k), hbest, fun j hj hcandj => ?_⟩
        rcases Nat.lt_succ_iff_lt_or_eq.mp hj with hj | rfl
        · exact hall j hj hcandj
        · omega
  · rw [better_of_not_candidate hk hcand]
    have hne : ∀ j < k + 1, Candidate s c j → j < k := fun j hj hcandj =>
      lt_of_le_of_ne (Nat.le_of_lt_succ hj) fun heq => hcand (heq ▸ hcandj)
    rcases h with ⟨rfl, hall⟩ | ⟨hprio, hlow, hlt, hbest, hall⟩
    · exact .inl ⟨rfl, fun j hj hcandj => hall j (hne j hj hcandj) hcandj⟩
    · exact .inr ⟨hprio, hlow, hlt.trans (Nat.lt_succ_self k), hbest,
        fun j hj hcandj => hall j (hne j hj hcandj) hcandj⟩

theorem bestBelow_bestIrq (s : Gic g.ncpu) (c : ℕ) : BestBelow s c g.nirq (bestIrq s c) := by
  have hfold : ∀ k ≤ g.nirq, BestBelow s c k ((range k).foldl (better s c) (0x100, 1023)) := by
    intro k hk
    induction k with
    | zero => exact .inl ⟨rfl, fun j hj => absurd hj (Nat.not_lt_zero j)⟩
    | succ k ih =>
      rw [range_succ, foldl_append]
      exact (ih (Nat.le_of_succ_le hk)).step hk
  exact hfold g.nirq le_rfl

/-- **The inner loop** finds the chosen interrupt, if its priority is below `0x100`. -/
theorem bestIrq_spec (s : Gic g.ncpu) (c : ℕ) :
    (bestIrq s c = (0x100, 1023) ∧ ∀ irq, Chosen s c irq → 0x100 ≤ s.getPriority irq c) ∨
      ((bestIrq s c).1 = s.getPriority (bestIrq s c).2 c ∧ Chosen s c (bestIrq s c).2) := by
  rcases bestBelow_bestIrq s c with ⟨heq, hall⟩ | ⟨hprio, -, -, hcand, hall⟩
  · exact .inl ⟨heq, fun irq h => hall irq h.1.1 h.1⟩
  · exact .inr ⟨hprio, hcand, fun j hj => hprio ▸ hall j hj.1 hj⟩

namespace SameInputs

theorem deliverable_iff (h : SameInputs s s') : Deliverable s' c irq ↔ Deliverable s c irq := by
  rw [h]
  rfl

theorem connected_iff (h : SameInputs s s') : Connected s' c ↔ Connected s c := by
  rw [h]
  rfl

theorem priorityMask (h : SameInputs s s') : s'.priorityMask = s.priorityMask := by
  rw [h]

theorem follows (h : SameInputs s s') (hpending : s'.currentPending c = s.currentPending c)
    (hline : s'.parentIrq c = s.parentIrq c) (hs : Follows s c) : Follows s' c where
  pending irq hd := hpending.trans (hs.pending irq (h.deliverable_iff.mp hd))
  none hnone := hpending.trans (hs.none fun irq hd => hnone irq (h.deliverable_iff.mpr hd))
  line := by
    rw [hline, hs.line]
    refine exists_congr fun irq => and_congr h.deliverable_iff.symm ?_
    rw [h]
    rfl

end SameInputs

@[simp]
theorem setOutput_currentPending_self (level : Bool) :
    (setOutput s c irq level).currentPending c = irq :=
  update_self ..

@[simp]
theorem setOutput_parentIrq_self (level : Bool) : (setOutput s c irq level).parentIrq c = level :=
  update_self ..

/-- A CPU that is not connected is to see nothing. -/
theorem follows_of_not_connected (h : ¬ Connected s c) (hpending : s.currentPending c = 1023)
    (hline : s.parentIrq c = false) : Follows s c :=
  follows_of_not_deliverable (fun _ hd => h hd.1) hpending hline

/-- The outputs of a CPU that is not connected. -/
theorem Follows.of_not_connected (hs : Follows s c) (h : ¬ Connected s c) :
    s.currentPending c = 1023 ∧ s.parentIrq c = false := by
  refine ⟨hs.none fun _ hd => h hd.1, ?_⟩
  rw [Bool.eq_false_iff, ne_eq, hs.line]
  exact fun ⟨_, hd, _⟩ => h hd.1

/-- **One CPU** in the loop of `gic_update`. -/
theorem updateCpus_cons (hmask : s.priorityMask c < 0x100) (hconn : Connected s c) (cpus : List ℕ) :
    ∃ irq level, Follows (setOutput s c irq level) c ∧
      updateCpus s (c :: cpus) = updateCpus (setOutput s c irq level) cpus := by
  have hfalse : ¬ (!s.enabled || !s.cpuEnabled c) = true := by simp [hconn.1, hconn.2]
  rw [updateCpus, if_neg hfalse]
  dsimp only
  split_ifs with hle
  · refine ⟨_, _, ?_, rfl⟩
    rcases bestIrq_spec s c with ⟨heq, -⟩ | ⟨hprio, hchosen⟩
    · rw [heq] at hle
      exact absurd hle (by omega)
    · rw [hprio] at hle ⊢
      have hd : Deliverable s c (bestIrq s c).2 := ⟨hconn, hchosen, hle⟩
      exact follows_of_deliverable ((SameInputs.setOutput ..).deliverable_iff.mpr hd) (by simp)
        (by simp; rfl)
  · refine ⟨_, _, follows_of_not_deliverable (fun irq hd => ?_) (by simp) (by simp), rfl⟩
    obtain ⟨-, hchosen, hlow⟩ := (SameInputs.setOutput ..).deliverable_iff.mp hd
    rcases bestIrq_spec s c with ⟨-, hall⟩ | ⟨hprio, hbest⟩
    · have := hall irq hchosen
      omega
    · rw [hprio, hbest.unique hchosen] at hle
      exact hle hlow

/-- **The loop of `gic_update`.** A CPU is refreshed if those before it are connected, and is left
alone otherwise. -/
theorem updateCpus_spec {cpus : List ℕ} (hsorted : cpus.Pairwise (· < ·))
    (hmask : ∀ c, s.priorityMask c < 0x100) :
    (∀ c ∈ cpus, (∀ d ∈ cpus, d < c → Connected s d) → Follows (updateCpus s cpus) c) ∧
      ∀ c, (c ∉ cpus ∨ ∃ d ∈ cpus, d < c ∧ ¬ Connected s d) →
        (updateCpus s cpus).currentPending c = s.currentPending c ∧
          (updateCpus s cpus).parentIrq c = s.parentIrq c := by
  induction cpus generalizing s with
  | nil => exact ⟨nofun, fun c _ => ⟨rfl, rfl⟩⟩
  | cons c cpus ih =>
    obtain ⟨hlt, hsorted⟩ := pairwise_cons.mp hsorted
    by_cases hconn : Connected s c
    · obtain ⟨irq, level, hfollows, heq⟩ := updateCpus_cons (hmask c) hconn cpus
      rw [heq]
      have hsame := SameInputs.setOutput s c irq level
      obtain ⟨hrefreshed, hleft⟩ := ih hsorted (s := setOutput s c irq level) hmask
      refine ⟨fun d hd hbefore => ?_, fun d hd => ?_⟩
      · rcases mem_cons.mp hd with rfl | hd
        · obtain ⟨hpending, hline⟩ := hleft d (.inl fun hmem => absurd (hlt d hmem) (lt_irrefl d))
          exact (updateCpus_sameInputs _ cpus).follows hpending hline hfollows
        · exact hrefreshed d hd fun e he hed =>
            hsame.connected_iff.mpr (hbefore e (mem_cons_of_mem c he) hed)
      · have hne : d ≠ c := by
          rintro rfl
          rcases hd with hd | ⟨e, he, hlte, hnot⟩
          · exact hd (.head _)
          · rcases mem_cons.mp he with rfl | he
            · exact hnot hconn
            · exact absurd (hlt e he) (by omega)
        have hd' : d ∉ cpus ∨ ∃ e ∈ cpus, e < d ∧ ¬ Connected (setOutput s c irq level) e := by
          refine hd.imp (fun hd hmem => hd (mem_cons_of_mem c hmem)) fun ⟨e, he, hlte, hnot⟩ => ?_
          rcases mem_cons.mp he with rfl | he
          · exact absurd hconn hnot
          · exact ⟨e, he, hlte, fun h => hnot (hsame.connected_iff.mp h)⟩
        obtain ⟨hpending, hline⟩ := hleft d hd'
        exact ⟨hpending.trans (update_of_ne hne ..), hline.trans (update_of_ne hne ..)⟩
    · -- the loop returns here
      have heq : updateCpus s (c :: cpus) = setOutput s c 1023 false := by
        rw [updateCpus, if_pos]
        rw [Connected, not_and_or, Bool.not_eq_true, Bool.not_eq_true] at hconn
        rcases hconn with h | h <;> simp [h]
      rw [heq]
      refine ⟨fun d hd hbefore => ?_, fun d hd => ?_⟩
      · rcases mem_cons.mp hd with rfl | hd
        · exact follows_of_not_connected hconn (by simp) (by simp)
        · exact absurd (hbefore c (.head _) (hlt d hd)) hconn
      · have hne : d ≠ c := by
          rintro rfl
          rcases hd with hd | ⟨e, he, hlte, -⟩
          · exact hd (.head _)
          · rcases mem_cons.mp he with rfl | he
            · exact absurd hlte (lt_irrefl _)
            · exact absurd (hlt e he) (by omega)
        exact ⟨update_of_ne hne .., update_of_ne hne ..⟩

/-! ### The invariant -/

/-- **The invariant**: the outputs follow the inputs, and the CPUs that are connected come first. -/
structure Inv (s : Gic g.ncpu) : Prop where
  follows : ∀ c < g.numCpu, Follows s c
  ordered : ∀ c < g.numCpu, ∀ d < c, Connected s c → Connected s d
  mask : ∀ c, s.priorityMask c < 0x100

/-- Behind a CPU that is not connected now, none is connected, and none was. -/
def InOrder (s s' : Gic g.ncpu) : Prop :=
  ∀ c < g.numCpu, ∀ d < c, ¬ Connected s' d → ¬ Connected s' c ∧ ¬ Connected s c

/-- **A change of inputs, followed by `gic_update`.** -/
theorem Inv.update (hs : Inv s) (horder : InOrder s s')
    (hpending : s'.currentPending = s.currentPending) (hline : s'.parentIrq = s.parentIrq)
    (hmask : ∀ c, s'.priorityMask c < 0x100) : Inv (gicUpdate s') := by
  have hsame := gicUpdate_sameInputs s'
  obtain ⟨hrefreshed, hleft⟩ := updateCpus_spec (pairwise_lt_range (n := g.numCpu)) hmask
  refine ⟨fun c hc => ?_, fun c hc d hd hconn => ?_, fun c => ?_⟩
  · by_cases hall : ∀ d < c, Connected s' d
    · exact hrefreshed c (mem_range.mpr hc) fun d _ hd => hall d hd
    · obtain ⟨d, hd, hnot⟩ : ∃ d < c, ¬ Connected s' d := by simpa using hall
      obtain ⟨hnot', hnotOld⟩ := horder c hc d hd hnot
      obtain ⟨hp, hl⟩ := hleft c (.inr ⟨d, mem_range.mpr (hd.trans hc), hd, hnot⟩)
      obtain ⟨hp', hl'⟩ := (hs.follows c hc).of_not_connected hnotOld
      refine follows_of_not_connected (fun h => hnot' (hsame.connected_iff.mp h)) ?_ ?_
      · rw [gicUpdate, hp, hpending, hp']
      · rw [gicUpdate, hl, hline, hl']
  · by_contra hnot
    rw [hsame.connected_iff] at hconn hnot
    exact (horder c hc d hd hnot).1 hconn
  · rw [hsame.priorityMask]
    exact hmask c

theorem Quiet.connected_iff (h : Quiet s s') : Connected s' c ↔ Connected s c := by
  rw [Connected, Connected, h.enabled, h.cpuEnabled]

theorem Inv.inOrder (hs : Inv s) (hconn : ∀ c, Connected s' c ↔ Connected s c) : InOrder s s' := by
  intro c hc d hd hnot
  rw [hconn] at hnot ⊢
  exact ⟨fun h => hnot (hs.ordered c hc d hd h), fun h => hnot (hs.ordered c hc d hd h)⟩

theorem Inv.quiet (hs : Inv s) (h : Quiet s s') : Inv (gicUpdate s') :=
  hs.update (hs.inOrder fun _ => h.connected_iff) h.currentPending h.parentIrq fun c =>
    h.priorityMask ▸ hs.mask c

theorem Inv.refreshed (hs : Inv s) (h : Refreshed s s') : Inv s' :=
  h.induction hs fun _ _ hs hquiet => hs.quiet hquiet

/-! ### Events -/

/-- What is in progress does not matter to the order of the interfaces. -/
theorem Inv.setRunningIrq (hs : Inv s) {s₁ : Gic g.ncpu} (h : gicSetRunningIrq s₁ cpu irq = some s')
    (hpending : s₁.currentPending = s.currentPending) (hline : s₁.parentIrq = s.parentIrq)
    (hmask : s₁.priorityMask = s.priorityMask) (hconn : ∀ c, Connected s₁ c ↔ Connected s c) :
    Inv s' := by
  obtain ⟨-, priority, rfl⟩ := setRunningIrq_eq_some h
  exact hs.update (hs.inOrder hconn) hpending hline fun c => hmask ▸ hs.mask c

theorem Inv.acknowledgeIrq (hs : Inv s) (h : gicAcknowledgeIrq s cpu = some (s', irq)) :
    Inv s' := by
  rw [gicAcknowledgeIrq] at h
  split at h
  · exact (Prod.mk.inj (some.inj h)).1 ▸ hs
  · obtain ⟨s₁, hrunning, heq⟩ := map_eq_some_iff.mp h
    exact (Prod.mk.inj heq).1 ▸ hs.setRunningIrq hrunning rfl rfl rfl fun _ => Iff.rfl

/-- What was active before does not matter to the outputs. -/
theorem Inv.lastActive (hs : Inv s) (lastActive : ℕ → ℕ → ℕ) :
    Inv { s with lastActive := lastActive } :=
  ⟨fun c hc => ⟨(hs.follows c hc).pending, (hs.follows c hc).none, (hs.follows c hc).line⟩,
    hs.ordered, hs.mask⟩

theorem Inv.completeIrq (hs : Inv s) (h : gicCompleteIrq s cpu irq = some s') : Inv s' := by
  rw [gicCompleteIrq] at h
  dsimp only at h
  split_ifs at h
  · exact some.inj h ▸ hs
  · obtain ⟨s₁, hother, rfl⟩ := map_eq_some_iff.mp h
    obtain ⟨lastActive, rfl⟩ := completeOther_eq_some hother
    exact hs.update (hs.inOrder fun _ => Iff.rfl) rfl rfl hs.mask
  · exact hs.setRunningIrq h rfl rfl rfl fun _ => Iff.rfl
  · obtain ⟨s₁, hother, rfl⟩ := map_eq_some_iff.mp h
    obtain ⟨lastActive, rfl⟩ := completeOther_eq_some hother
    exact hs.lastActive lastActive
  · exact hs.setRunningIrq h rfl rfl rfl fun _ => Iff.rfl

/-- An enable bit is written without `gic_update`; this does not matter if the interrupt is not
pending, or the bit does not change. -/
theorem Inv.writeEnabled (hs : Inv s) (irq : ℕ) (enabled : Bool)
    (h : (s.irqState irq).pending = 0 ∨ enabled = (s.irqState irq).enabled) :
    Inv (s.modifyIrq irq fun i => { i with enabled := enabled }) := by
  set s' := s.modifyIrq irq fun i => { i with enabled := enabled }
  have hcand : ∀ c j, Candidate s' c j ↔ Candidate s c j := by
    intro c j
    by_cases hj : j = irq
    · subst hj
      have hstate : s'.irqState j = { s.irqState j with enabled := enabled } := update_self ..
      rcases h with h | h
      · have hnot : (s.irqState j).testPending (cpuBit g.ncpu c) = false := by
            simp [IrqState.testPending, h]
        refine iff_of_false (fun hc => ?_) fun hc => Bool.eq_false_iff.mp hnot hc.2.2
        rw [Candidate, hstate] at hc
        exact Bool.eq_false_iff.mp hnot hc.2.2
      · rw [Candidate, hstate, h]
        rfl
    · have hstate : s'.irqState j = s.irqState j := update_of_ne hj ..
      rw [Candidate, hstate]
      rfl
  have hdel : ∀ c j, Deliverable s' c j ↔ Deliverable s c j := fun c j => by
    simp only [Deliverable, Chosen, hcand]
    rfl
  refine ⟨fun c hc => ⟨fun j hj => ?_, fun hnone => ?_, ?_⟩, hs.ordered, hs.mask⟩
  · exact (hs.follows c hc).pending j ((hdel c j).mp hj)
  · exact (hs.follows c hc).none fun j hj => hnone j ((hdel c j).mpr hj)
  · refine (hs.follows c hc).line.trans (exists_congr fun j => ?_)
    rw [hdel]
    rfl

/-- Bits of System Handler Control. -/
def handlerBits : List (ℕ × ℕ) := [(excpMem, 16), (excpBus, 17), (excpUsage, 18)]

/-- A write to System Handler Control does not change whether a pending exception is enabled. -/
def KeepsPending (s : Gic g.ncpu) (value : ℕ) : Prop :=
  ∀ x ∈ handlerBits, (s.irqState x.1).pending = 0 ∨ value.testBit x.2 = (s.irqState x.1).enabled

instance (s : Gic g.ncpu) (value : ℕ) : Decidable (KeepsPending s value) :=
  inferInstanceAs (Decidable (∀ x ∈ handlerBits, _))

theorem Inv.writeHandlerControl (hs : Inv s) {value : ℕ} (h : KeepsPending s value) :
    Inv (writeHandlerControl s value) := by
  have hmem := h (excpMem, 16) (by decide)
  have hbus := h (excpBus, 17) (by decide)
  have husage := h (excpUsage, 18) (by decide)
  exact ((hs.writeEnabled excpMem _ hmem).writeEnabled excpBus _ hbus).writeEnabled
    excpUsage _ husage

/-- The state with the enable bits that the controller and the interfaces have behind an event. -/
def enabledBy (s : Gic g.ncpu) : Event → Gic g.ncpu
  | .cpuWrite cpu offset value =>
    if offset = 0 then { s with cpuEnabled := update s.cpuEnabled cpu (value.testBit 0) } else s
  | .distWriteb _ offset value | .distWritew _ offset value | .distWritel _ offset value =>
    if offset = 0 ∧ g.nvic = false then { s with enabled := value.testBit 0 } else s
  | _ => s

/-- **No output is left behind.** If an interface is disabled behind the event, then those of the
CPUs after it are disabled as well, and were before; and a write to System Handler Control does not
change whether a pending exception is enabled. -/
def Refreshable (s : Gic g.ncpu) (e : Event) : Prop :=
  InOrder s (enabledBy s e) ∧
  match e with
  | .distWritel _ offset value => g.nvic = true → offset = 0xd24 → KeepsPending s value
  | _ => True

instance : DecidablePred (Connected s) :=
  fun c => inferInstanceAs (Decidable (_ ∧ s.cpuEnabled c = true))

instance : Decidable (InOrder s s') := inferInstanceAs (Decidable (∀ c < g.numCpu, ∀ d < c, _))

instance (e : Event) : Decidable (Refreshable s e) :=
  match e with
  | .setIrq .. | .setPendingPrivate .. | .distWriteb .. | .distWritew ..
  | .distWritel .. | .cpuWrite ..
  | .acknowledge .. | .nvicSetPending .. | .nvicAcknowledge | .nvicComplete .. =>
    inferInstanceAs (Decidable (InOrder s _ ∧ _))

theorem Inv.step (hs : Inv s) {e : Event} (he : Refreshable s e) (h : step s e = some s') :
    Inv s' := by
  obtain ⟨horder, hkeep⟩ := he
  cases effect_of_step h with
  | refreshed _ h => exact hs.refreshed h
  | distControl cpu value he hnvic h =>
    have hcontrol : InOrder s { s with enabled := value.testBit 0 } := by
      rcases he with rfl | rfl | rfl <;> simpa [enabledBy, hnvic] using horder
    exact (hs.update hcontrol rfl rfl hs.mask).refreshed h
  | cpuControl cpu value => exact hs.update (by simpa [enabledBy] using horder) rfl rfl hs.mask
  | priorityMask cpu value =>
    refine hs.update (hs.inOrder fun _ => Iff.rfl) rfl rfl fun c => ?_
    dsimp only
    rcases eq_or_ne c cpu with rfl | hc
    · rw [update_self]
      exact Nat.mod_lt _ (by decide)
    · rw [update_of_ne hc]
      exact hs.mask c
  | handlerControl cpu value hnvic => exact hs.writeHandlerControl (hkeep hnvic rfl)
  | acknowledge cpu hcpu irq h | nvicAcknowledge hcpu irq h => exact hs.acknowledgeIrq h
  | complete cpu value hcpu h => exact hs.completeIrq h
  | nvicComplete irq hcpu h => exact hs.completeIrq h

/-- Nothing is pending. -/
theorem inv_gicReset (g : Config) : Inv (gicReset g) := by
  have hnone : ∀ c irq, ¬ Deliverable (gicReset g) c irq := by
    rintro c irq ⟨-, ⟨⟨-, -, hpending⟩, -⟩, -⟩
    simp [gicReset, IrqState.testPending] at hpending
  exact ⟨fun c _ => follows_of_not_deliverable (hnone c) rfl rfl, fun c _ d _ h => h,
    fun _ => Nat.lt_of_sub_eq_succ rfl⟩

/-- **The outputs follow the inputs.** In every run of events that leave no output behind, after
each event and for each CPU: `current_pending` is the interrupt that the CPU should see, or 1023,
and its line is raised if and only if there is such an interrupt with a priority below the running
one. -/
theorem outputs_follow_inputs (g : Config) (es : List Event)
    (hes : Along step Refreshable (gicReset g) es) :
    ∀ p s, p <+: es → run step (gicReset g) p = some s → ∀ c < g.numCpu, Follows s c :=
  fun p s hp hs =>
    (hes.forall_prefix (fun _ _ _ hs he h => hs.step he h) (inv_gicReset g) p s hp hs).follows

/-- What is seen is what the inner loop finds. -/
theorem Follows.currentPending_eq (h : Follows s c) (hconn : Connected s c)
    (hmask : s.priorityMask c < 0x100) :
    s.currentPending c = if (bestIrq s c).1 ≤ s.priorityMask c then (bestIrq s c).2 else 1023 := by
  rcases bestIrq_spec s c with ⟨heq, hall⟩ | ⟨heq, hchosen⟩
  · rw [heq, if_neg (by omega)]
    refine h.none fun irq hd => ?_
    have hlow := hall irq hd.2.1
    have hle := hd.2.2
    omega
  · split_ifs with hle
    · exact h.pending _ ⟨hconn, hchosen, heq ▸ hle⟩
    · refine h.none fun irq hd => hle ?_
      rw [heq, hchosen.unique hd.2.1]
      exact hd.2.2

theorem Follows.pending_of_seen {best : ℕ × ℕ} {mask pending : ℕ} (h : Follows s c)
    (hlow : mask < 0x100)
    (heq : (decide (Connected s c), bestIrq s c, s.priorityMask c, s.currentPending c) =
      (true, best, mask, pending)) : pending = if best.1 ≤ mask then best.2 else 1023 := by
  simp only [Prod.mk.injEq, decide_eq_true_eq] at heq
  obtain ⟨hconn, rfl, rfl, rfl⟩ := heq
  exact h.currentPending_eq hconn hlow

/-- Software interrupt 0 for the second CPU, while the interface of the first is disabled; and an
exception that is disabled while it is pending. -/
theorem outputs_left_behind :
    (∃ s, run step (gicReset twoCpus)
      [.distWriteb 0 0 1, .cpuWrite 1 0 1, .distWritel 0 0xf00 0x20000] =
        some s ∧ ¬ Follows s 1) ∧
      ∃ s, run step (gicReset nvic) [.nvicSetPending excpMem, .distWritel 0 0xd24 0] = some s ∧
        ¬ Follows s 0 := by
  constructor
  · exact exists_of_map _ (true, (0, 0), 0xf0, 1023) (by decide +kernel) fun s _ heq h =>
      absurd (h.pending_of_seen (by decide) heq) (by decide)
  · exact exists_of_map _ (true, (0x100, 1023), 0xf0, 4) (by decide +kernel) fun s _ heq h =>
      absurd (h.pending_of_seen (by decide) heq) (by decide)

/-- The interfaces are enabled in order, and the interrupt is seen. -/
theorem outputs_follow_on_two_cpus :
    ∃ s, run step (gicReset twoCpus)
        [.cpuWrite 0 0 1, .cpuWrite 1 0 1, .distWriteb 0 0 1, .distWritel 0 0xf00 0x20000] =
          some s ∧
      s.currentPending 1 = 0 ∧ s.parentIrq 1 = true ∧ Follows s 1 := by
  refine exists_of_map (fun s => (s.currentPending 1, s.parentIrq 1)) (0, true) (by decide +kernel)
    fun s hs heq => ?_
  obtain ⟨hpending, hline⟩ := Prod.mk.inj heq
  refine ⟨hpending, hline, ?_⟩
  exact outputs_follow_inputs twoCpus _ (by decide +kernel) _ s prefix_rfl hs 1 (by decide)

/-- **A CPU gets the interrupt that it should see if its line is raised**, in every run of such
events, and that is then the running one; otherwise it gets 1023, and nothing changes. -/
theorem acknowledge_takes_deliverable (g : Config) (es : List Event)
    (hes : Along step Refreshable (gicReset g) es) :
    ∀ p s, p <+: es → run step (gicReset g) p = some s → ∀ c < g.numCpu,
      ∃ s' irq, gicAcknowledgeIrq s c = some (s', irq) ∧ Follows s' c ∧
        if s.parentIrq c then
          Deliverable s c irq ∧ s.getPriority irq c < s.runningPriority c ∧
            s'.runningIrq c = irq ∧ s'.runningPriority c = s.getPriority irq c
        else s' = s ∧ irq = 1023 := by
  intro p s hp hrun c hc
  have hs := hes.forall_prefix (fun _ _ _ hs he h => hs.step he h) (inv_gicReset g) p s hp hrun
  have hfollows := hs.follows c hc
  split_ifs with hline
  · obtain ⟨irq, hd, hlt⟩ := hfollows.line.mp hline
    have hirq : irq < g.nirq ∧ g.nirq ≤ 1020 := ⟨hd.2.1.1.1, g.nirq_le⟩
    have htakes : takes s c = some irq := by
      rw [takes, hfollows.pending irq hd]
      exact if_neg (by omega)
    obtain ⟨s', hack, hrunning⟩ : ∃ s', gicAcknowledgeIrq s c = some (s', irq) ∧
        s'.runningIrq c = irq ∧ s'.runningPriority c = s.getPriority irq c := by
      rw [gicAcknowledgeIrq, htakes]
      dsimp only
      rw [gicSetRunningIrq, if_neg (by omega), if_neg (by omega), gicUpdate_sameInputs]
      exact ⟨_, rfl, update_self .., update_self ..⟩
    exact ⟨s', irq, hack, (hs.acknowledgeIrq hack).follows c hc, hd, hlt, hrunning⟩
  · have htakes : takes s c = none := by
      by_cases hnone : ∀ irq, ¬ Deliverable s c irq
      · rw [takes, hfollows.none hnone]
        exact if_pos (.inl rfl)
      · obtain ⟨irq, hd⟩ := not_forall_not.mp hnone
        rw [takes, hfollows.pending irq hd]
        exact if_pos (.inr (not_lt.mp fun hlt => hline (hfollows.line.mpr ⟨irq, hd, hlt⟩)))
    exact ⟨s, 1023, by rw [gicAcknowledgeIrq, htakes], hfollows, rfl, rfl⟩

/-- A software interrupt is taken. -/
theorem software_interrupt_taken :
    ∃ s, run step (gicReset twoCpus)
      [.cpuWrite 0 0 1, .distWriteb 0 0 1, .distWritel 0 0xf00 0x10000] = some s ∧
      ∃ s' irq, gicAcknowledgeIrq s 0 = some (s', irq) ∧ Deliverable s 0 irq := by
  refine exists_of_map (·.parentIrq 0) true (by decide +kernel) fun s hs hline => ?_
  obtain ⟨s', irq, hack, -, htaken⟩ :=
    acknowledge_takes_deliverable twoCpus _ (by decide +kernel) _ s prefix_rfl hs 0 (by decide)
  rw [if_pos hline] at htaken
  exact ⟨s', irq, hack, htaken.1⟩

end VariabilityTestbed.Irq
