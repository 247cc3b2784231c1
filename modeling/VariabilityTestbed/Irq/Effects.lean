import VariabilityTestbed.Irq.Gic

/-!
# What an event does to the interrupt controller

Most events change what is enabled and pending, and call `gic_update`, once or several times. They
are all alike to what is proved about runs: `Refreshed`. `Effect` has what an event does otherwise,
and `effect_of_step` is the only place where the functions of the controller are taken apart.
-/

namespace VariabilityTestbed.Irq

open Gic Option

variable {g : Config} {s s' s'' : Gic g.ncpu} {c cpu irq offset value : ℕ}

/-! ### `gic_update` -/

/-- The states that differ in the outputs only. -/
def SameInputs (s s' : Gic g.ncpu) : Prop :=
  s' = { s with currentPending := s'.currentPending, parentIrq := s'.parentIrq }

theorem SameInputs.trans (h : SameInputs s s') (h' : SameInputs s' s'') : SameInputs s s'' := by
  rw [SameInputs, h', h]

theorem SameInputs.setOutput (s : Gic g.ncpu) (c irq : ℕ) (level : Bool) :
    SameInputs s (setOutput s c irq level) := rfl

theorem updateCpus_sameInputs (s : Gic g.ncpu) (cpus : List ℕ) :
    SameInputs s (updateCpus s cpus) := by
  induction cpus generalizing s with
  | nil => rfl
  | cons c cpus ih =>
    rw [updateCpus]
    dsimp only
    split_ifs
    · rfl
    · exact (SameInputs.setOutput ..).trans (ih _)
    · exact (SameInputs.setOutput ..).trans (ih _)

theorem gicUpdate_sameInputs (s : Gic g.ncpu) : SameInputs s (gicUpdate s) :=
  updateCpus_sameInputs s _

/-! ### Changes of what is enabled and pending -/

/-- The outputs, the interfaces and what is in progress stay as they are. -/
structure Quiet (s s' : Gic g.ncpu) : Prop where
  currentPending : s'.currentPending = s.currentPending
  parentIrq : s'.parentIrq = s.parentIrq
  enabled : s'.enabled = s.enabled
  cpuEnabled : s'.cpuEnabled = s.cpuEnabled
  priorityMask : s'.priorityMask = s.priorityMask
  runningIrq : s'.runningIrq = s.runningIrq
  lastActive : s'.lastActive = s.lastActive

namespace Quiet

theorem refl (s : Gic g.ncpu) : Quiet s s := ⟨rfl, rfl, rfl, rfl, rfl, rfl, rfl⟩

theorem trans (h : Quiet s s') (h' : Quiet s' s'') : Quiet s s'' :=
  ⟨h'.currentPending.trans h.currentPending, h'.parentIrq.trans h.parentIrq,
    h'.enabled.trans h.enabled, h'.cpuEnabled.trans h.cpuEnabled,
    h'.priorityMask.trans h.priorityMask, h'.runningIrq.trans h.runningIrq,
    h'.lastActive.trans h.lastActive⟩

theorem modifyIrq (s : Gic g.ncpu) (irq : ℕ) (f : IrqState g.ncpu → IrqState g.ncpu) :
    Quiet s (s.modifyIrq irq f) := ⟨rfl, rfl, rfl, rfl, rfl, rfl, rfl⟩

theorem setPriority (s : Gic g.ncpu) (cpu irq value : ℕ) :
    Quiet s (setPriority s cpu irq value) := by
  rw [Irq.setPriority]
  split <;> exact ⟨rfl, rfl, rfl, rfl, rfl, rfl, rfl⟩

/-- The registers of the distributor, but the control register. -/
theorem distStore (s : Gic g.ncpu) (cpu value : ℕ) {r : DistReg} (hr : r ≠ .control) :
    Quiet s (distStore s cpu value r) := by
  cases r with
  | control => exact absurd rfl hr
  | ignored => exact refl s
  | ofIrq r irq =>
    cases r with
    | priority => exact setPriority ..
    | _ => exact ⟨rfl, rfl, rfl, rfl, rfl, rfl, rfl⟩

end Quiet

/-- Any number of quiet changes, each followed by `gic_update`. -/
inductive Refreshed (s : Gic g.ncpu) : Gic g.ncpu → Prop
  | refl : Refreshed s s
  | update {s₁ s₂ : Gic g.ncpu} (h : Refreshed s s₁) (hquiet : Quiet s₁ s₂) :
      Refreshed s (gicUpdate s₂)

namespace Refreshed

theorem of_quiet (h : Quiet s s') : Refreshed s (gicUpdate s') := refl.update h

theorem trans (h : Refreshed s s') (h' : Refreshed s' s'') : Refreshed s s'' := by
  induction h' with
  | refl => exact h
  | update _ hquiet ih => exact ih.update hquiet

/-- What every quiet change and `gic_update` keep is kept. -/
theorem induction {P : Gic g.ncpu → Prop} (h : Refreshed s s') (hs : P s)
    (hupdate : ∀ s₁ s₂, P s₁ → Quiet s₁ s₂ → P (gicUpdate s₂)) : P s' := by
  induction h with
  | refl => exact hs
  | update _ hquiet ih => exact hupdate _ _ ih hquiet

end Refreshed

theorem refreshed_setPendingPrivate (h : gicSetPendingPrivate s cpu irq = some s') :
    Refreshed s s' := by
  rw [gicSetPendingPrivate] at h
  split_ifs at h
  · exact some.inj h ▸ .refl
  · exact some.inj h ▸ .of_quiet (.modifyIrq ..)

theorem refreshed_setIrq (s : Gic g.ncpu) (irq : ℕ) (level : Bool) :
    Refreshed s (gicSetIrq s irq level) := by
  rw [gicSetIrq]
  dsimp only
  split_ifs
  · exact .refl
  · exact .of_quiet ((Quiet.modifyIrq ..).trans (.modifyIrq ..))
  · exact .of_quiet (.modifyIrq ..)
  · exact .of_quiet (.modifyIrq ..)

/-- The control register is at offset 0. -/
theorem distReg_zero (g : Config) : distReg g 0 = if g.nvic then none else some .control := rfl

theorem distReg_ne_control (hoffset : offset ≠ 0) : distReg g offset ≠ some .control := by
  intro h
  rw [distReg] at h
  split_ifs at h
  · exact nomatch h
  · obtain ⟨⟨r, irq⟩, -, heq⟩ := bind_eq_some_iff.mp h
    dsimp only at heq
    split_ifs at heq
    exact nomatch heq

theorem refreshed_distWriteb (hoffset : offset ≠ 0)
    (h : gicDistWriteb s cpu offset value = some s') :
    Refreshed s s' := by
  obtain ⟨r, hr, rfl⟩ := map_eq_some_iff.mp h
  exact .of_quiet (.distStore s cpu value fun heq => distReg_ne_control hoffset (heq ▸ hr))

theorem refreshed_distWritew (hoffset : offset ≠ 0)
    (h : gicDistWritew s cpu offset value = some s') :
    Refreshed s s' := by
  obtain ⟨s₁, h₁, h₂⟩ := bind_eq_some_iff.mp h
  exact (refreshed_distWriteb hoffset h₁).trans (refreshed_distWriteb (Nat.succ_ne_zero offset) h₂)

theorem refreshed_softwareInterrupt (h : softwareInterrupt s cpu value = some s') :
    Refreshed s s' := by
  rw [softwareInterrupt] at h
  split_ifs at h
  exact some.inj h ▸ .of_quiet (.modifyIrq ..)

theorem refreshed_writePendingBit {set clear : Bool}
    (h : writePendingBit s irq set clear = some s') :
    Refreshed s s' := by
  rw [writePendingBit] at h
  split_ifs at h
  · exact refreshed_setPendingPrivate h
  · exact some.inj h ▸ .of_quiet (.modifyIrq ..)
  · exact some.inj h ▸ .refl

theorem refreshed_writeControlState (h : writeControlState s value = some s') : Refreshed s s' := by
  obtain ⟨s₁, h₁, h⟩ := bind_eq_some_iff.mp h
  obtain ⟨s₂, h₂, h₃⟩ := bind_eq_some_iff.mp h
  have hs₁ : Refreshed s s₁ := by
    split_ifs at h₁
    · exact refreshed_setPendingPrivate h₁
    · exact some.inj h₁ ▸ .refl
  exact (hs₁.trans (refreshed_writePendingBit h₂)).trans (refreshed_writePendingBit h₃)

/-- The registers of the NVIC, but System Handler Control. -/
theorem refreshed_nvicWritel (hoffset : offset ≠ 0xd24) (h : nvicWritel s offset value = some s') :
    Refreshed s s' := by
  rw [nvicWritel] at h
  split_ifs at h
  · exact some.inj h ▸ .refl
  · exact refreshed_writeControlState h
  · exact some.inj h ▸ .refl
  · rw [← some.inj h]
    exact .of_quiet
      ((((Quiet.setPriority ..).trans (.setPriority ..)).trans (.setPriority ..)).trans
      (.setPriority ..))

/-! ### Events -/

/-- The events by which a CPU takes and completes interrupts. -/
def Event.atCpu : Event → Bool
  | .acknowledge _ | .nvicAcknowledge | .nvicComplete _ => true
  | .cpuWrite _ offset _ => offset == 0x10
  | _ => false

/-- What an event does. -/
inductive Effect (s : Gic g.ncpu) : Event → Gic g.ncpu → Prop
  | refreshed {e : Event} {s' : Gic g.ncpu} (he : e.atCpu = false) (h : Refreshed s s') :
      Effect s e s'
  | distControl {e : Event} {s' : Gic g.ncpu} (cpu value : ℕ)
    (he : e = .distWriteb cpu 0 value ∨ e = .distWritew cpu 0 value ∨ e = .distWritel cpu 0 value)
    (hnvic : g.nvic = false) (h : Refreshed (gicUpdate { s with enabled := value.testBit 0 }) s') :
    Effect s e s'
  | cpuControl (cpu value : ℕ) :
    Effect s (.cpuWrite cpu 0 value)
      (gicUpdate { s with cpuEnabled := Function.update s.cpuEnabled cpu (value.testBit 0) })
  | priorityMask (cpu value : ℕ) :
    Effect s (.cpuWrite cpu 4 value)
      (gicUpdate { s with priorityMask := Function.update s.priorityMask cpu (value % 0x100) })
  | handlerControl (cpu value : ℕ) (hnvic : g.nvic = true) :
    Effect s (.distWritel cpu 0xd24 value) (writeHandlerControl s value)
  | acknowledge (cpu : ℕ) (hcpu : cpu < g.numCpu) {s' : Gic g.ncpu} (irq : ℕ)
    (h : gicAcknowledgeIrq s cpu = some (s', irq)) : Effect s (.acknowledge cpu) s'
  | complete (cpu value : ℕ) (hcpu : cpu < g.numCpu) {s' : Gic g.ncpu}
    (h : gicCompleteIrq s cpu (value % 0x400) = some s') : Effect s (.cpuWrite cpu 0x10 value) s'
  | nvicAcknowledge (hcpu : 0 < g.numCpu) {s' : Gic g.ncpu} (irq : ℕ)
    (h : gicAcknowledgeIrq s 0 = some (s', irq)) : Effect s .nvicAcknowledge s'
  | nvicComplete (irq : ℕ) (hcpu : 0 < g.numCpu) {s' : Gic g.ncpu}
    (h : gicCompleteIrq s 0 (gicIrq irq) = some s') : Effect s (.nvicComplete irq) s'

/-- A byte is written to the control register of the distributor. -/
theorem distWriteb_zero (h : gicDistWriteb s cpu 0 value = some s') :
    g.nvic = false ∧ s' = gicUpdate { s with enabled := value.testBit 0 } := by
  obtain ⟨r, hr, rfl⟩ := map_eq_some_iff.mp h
  rw [distReg_zero] at hr
  split_ifs at hr with hnvic
  cases hr
  exact ⟨Bool.eq_false_iff.mpr hnvic, rfl⟩

/-- A word is written there: the other byte is ignored. -/
theorem distWritew_zero (h : gicDistWritew s cpu 0 value = some s') :
    g.nvic = false ∧ Refreshed (gicUpdate { s with enabled := value.testBit 0 }) s' := by
  obtain ⟨s₁, h₁, h₂⟩ := bind_eq_some_iff.mp h
  obtain ⟨hnvic, rfl⟩ := distWriteb_zero h₁
  have hbit : (value % 0x100).testBit 0 = value.testBit 0 := by simp
  exact ⟨hnvic, hbit ▸ refreshed_distWriteb (Nat.succ_ne_zero 0) h₂⟩

theorem effect_distWritel (h : gicDistWritel s cpu offset value = some s') :
    Effect s (.distWritel cpu offset value) s' := by
  rw [gicDistWritel] at h
  split_ifs at h with hnvic
  · rcases eq_or_ne offset 0xd24 with rfl | hoffset
    · exact some.inj h ▸ .handlerControl cpu value hnvic.1
    · exact .refreshed rfl (refreshed_nvicWritel hoffset h)
  · exact .refreshed rfl (refreshed_softwareInterrupt h)
  · obtain ⟨s₁, h₁, h₂⟩ := bind_eq_some_iff.mp h
    have hrest := refreshed_distWritew (Nat.succ_ne_zero _) h₂
    rcases eq_or_ne offset 0 with rfl | hoffset
    · obtain ⟨hnvic, hs₁⟩ := distWritew_zero h₁
      have hbit : (value % 0x10000).testBit 0 = value.testBit 0 := by simp
      exact .distControl cpu value (.inr (.inr rfl)) hnvic (hbit ▸ hs₁.trans hrest)
    · exact .refreshed rfl ((refreshed_distWritew hoffset h₁).trans hrest)

/-- **What an event does.** -/
theorem effect_of_step {e : Event} (h : step s e = some s') : Effect s e s' := by
  rw [step.eq_def] at h
  split_ifs at h with hpossible
  cases e with
  | setIrq irq level => exact some.inj h ▸ .refreshed rfl (refreshed_setIrq s irq level)
  | setPendingPrivate cpu irq | nvicSetPending irq =>
    exact .refreshed rfl (refreshed_setPendingPrivate h)
  | distWriteb cpu offset value =>
    rcases eq_or_ne offset 0 with rfl | hoffset
    · obtain ⟨hnvic, rfl⟩ := distWriteb_zero h
      exact .distControl cpu value (.inl rfl) hnvic .refl
    · exact .refreshed rfl (refreshed_distWriteb hoffset h)
  | distWritew cpu offset value =>
    rcases eq_or_ne offset 0 with rfl | hoffset
    · obtain ⟨hnvic, hs'⟩ := distWritew_zero h
      exact .distControl cpu value (.inr (.inl rfl)) hnvic hs'
    · exact .refreshed rfl (refreshed_distWritew hoffset h)
  | distWritel cpu offset value => exact effect_distWritel h
  | cpuWrite cpu offset value =>
    rw [Event.possible, Bool.and_eq_true, decide_eq_true_eq] at hpossible
    dsimp only at h
    rw [gicCpuWrite] at h
    split_ifs at h with h0 h4 h8 h10
    · subst h0
      exact some.inj h ▸ .cpuControl cpu value
    · subst h4
      exact some.inj h ▸ .priorityMask cpu value
    · subst h8
      exact some.inj h ▸ .refreshed rfl (.of_quiet (.refl s))
    · subst h10
      exact .complete cpu value hpossible.1 h
  | acknowledge cpu =>
    rw [Event.possible, Bool.and_eq_true, decide_eq_true_eq] at hpossible
    obtain ⟨⟨s₁, irq⟩, hack, rfl⟩ := map_eq_some_iff.mp h
    exact .acknowledge cpu hpossible.1 irq hack
  | nvicAcknowledge =>
    rw [Event.possible, Bool.and_eq_true, decide_eq_true_eq] at hpossible
    obtain ⟨⟨s₁, irq⟩, hack, rfl⟩ := map_eq_some_iff.mp h
    obtain ⟨⟨s₂, irq₂⟩, hack, heq⟩ := bind_eq_some_iff.mp hack
    dsimp only at heq
    split_ifs at heq <;>
      exact (Prod.mk.inj (some.inj heq)).1 ▸ .nvicAcknowledge hpossible.1 irq₂ hack
  | nvicComplete irq =>
    rw [Event.possible, Bool.and_eq_true, decide_eq_true_eq] at hpossible
    exact .nvicComplete irq hpossible.1 h

/-! ### Taking and completing an interrupt -/

/-- `gic_set_running_irq`, if the interrupt exists. -/
theorem setRunningIrq_eq_some (h : gicSetRunningIrq s cpu irq = some s') :
    (irq = 1023 ∨ irq < g.nirq) ∧ ∃ priority, s' = gicUpdate { s with
      runningIrq := Function.update s.runningIrq cpu irq
      runningPriority := Function.update s.runningPriority cpu priority } := by
  rw [gicSetRunningIrq] at h
  split_ifs at h with hnone hrange
  · exact ⟨.inl hnone, _, (some.inj h).symm⟩
  · exact ⟨.inr (Nat.lt_of_not_le hrange), _, (some.inj h).symm⟩

theorem exists_setRunningIrq (s : Gic g.ncpu) (cpu : ℕ) (h : irq = 1023 ∨ irq < g.nirq) :
    ∃ s', gicSetRunningIrq s cpu irq = some s' := by
  rw [gicSetRunningIrq]
  split_ifs with hnone hrange
  · exact ⟨_, rfl⟩
  · rcases h with h | h <;> omega
  · exact ⟨_, rfl⟩

/-- `gic_complete_irq` changes `last_active` only, if the interrupt is not the running one. -/
theorem completeOther_eq_some (h : completeOther s cpu irq = some s') :
    ∃ lastActive, s' = { s with lastActive := lastActive } := by
  obtain ⟨r, -, h⟩ := bind_eq_some_iff.mp h
  cases r with
  | none => exact ⟨s.lastActive, (some.inj h).symm⟩
  | some tmp =>
    dsimp only at h
    split_ifs at h
    exact ⟨_, (some.inj h).symm⟩

end VariabilityTestbed.Irq
