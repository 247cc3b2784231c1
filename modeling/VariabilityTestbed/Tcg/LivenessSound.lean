import VariabilityTestbed.Tcg.Liveness
import Mathlib.Data.List.Nodup

/-!
# The liveness analysis keeps the meaning of the code

The meaning of TCG code is given for arbitrary values and an arbitrary outside world: an operation
without effects computes its outputs from its inputs, and an operation with effects also gets what
it can see of the globals, changes the world and may leave the code. What can be observed of a run
are the effects and calls, each with its arguments and the variables that it sees, and the globals
and local temporaries at the end of each basic block.

A variable is *needed* at a place of the code if it is read there before it is overwritten. What the
analysis takes for live is needed in the code before the analysis, and what it takes for dead is not
needed in the code after it. Two runs that agree on the live variables therefore stay in step.
-/

namespace VariabilityTestbed.Tcg

open List Option Function

/-! ### Meaning -/

/-- Where the code goes on. -/
inductive Next where
  | fall
  | label (l : ℕ)
  deriving DecidableEq, Repr

/-- What an operation with effects does: its outputs, the globals that it changes, the world behind
it, and whether it leaves the code. -/
structure Result (V W : Type*) where
  outs : ℕ → V
  globals : ℕ → Option V
  world : W
  leaves : Bool

/-- The meaning of the operations, for values `V` in a world `W`. An operation without effects is a
function of its inputs and of the world. So is a pure helper, which may also read globals; no other
effect of it exists. -/
structure Sem (V W : Type*) where
  pureOp : Opcode → List V → List ℕ → W → ℕ → V
  effectOp : Opcode → List V → List ℕ → (ℕ → Option V) → W → Result V W
  jump : Opcode → List V → List ℕ → (ℕ → Option V) → W → Next
  pureCall : ℕ → List (Option V) → (ℕ → Option V) → W → ℕ → V
  effectCall : ℕ → List (Option V) → (ℕ → Option V) → W → Result V W

/-- What is observed: an effect or a call with its arguments and what it sees, or the variables that
are kept where a block ends at a label. -/
inductive Event (V : Type*) where
  | effect (opc : Opcode) (ins : List V) (consts : List ℕ) (seen : ℕ → Option V)
  | call (flags : ℕ) (ins : List (Option V)) (seen : ℕ → Option V)
  | blockEnd (seen : ℕ → Option V)

/-- A state: what is left of the code, the variables, and the world. -/
structure Machine (V W : Type*) where
  rest : List Op
  temps : ℕ → V
  world : W

variable {V W : Type*} (s : Context)

/-- The variables that satisfy a condition. -/
def view (P : ℕ → Prop) [DecidablePred P] (temps : ℕ → V) (t : ℕ) : Option V :=
  if P t then some (temps t) else none

/-- What a call sees: the globals, unless it is a const function. -/
def callView (flags : ℕ) (temps : ℕ → V) : ℕ → Option V :=
  if flags &&& callConst == 0 then view s.IsGlobal temps else fun _ => none

/-- What an operation with effects sees: at the end of a block also the local temporaries. -/
def opView (d : OpDef) (temps : ℕ → V) : ℕ → Option V :=
  if d.bbEnd then view s.IsKept temps else if d.callClobber then view s.IsGlobal temps
  else fun _ => none

/-- The parameters of a call; a dummy has no value. -/
def callArgs (temps : ℕ → V) (ins : List ℕ) : List (Option V) :=
  ins.map fun t => if t = s.callDummyArg then none else some (temps t)

/-- The outputs are written one after the other. -/
def assign (vals : ℕ → V) : ℕ → List ℕ → (ℕ → V) → ℕ → V
  | _, [], temps => temps
  | i, t :: outs, temps => assign vals (i + 1) outs (Function.update temps t (vals i))

/-- The variables behind an operation with effects. -/
def Result.apply (r : Result V W) (outs : List ℕ) (temps : ℕ → V) : ℕ → V :=
  assign r.outs 0 outs fun t => (r.globals t).getD (temps t)

/-- The code from a label on. -/
def codeAt (code : List Op) (l : ℕ) : List Op := code.dropWhile fun op => !op.isLabel l

/-- One operation; a run ends where the code ends. -/
def exec (sem : Sem V W) (code : List Op) (m : Machine V W) :
    Option (List (Event V) × Machine V W) :=
  match m.rest with
  | [] => none
  | .nopn _ :: rest => some ([], { m with rest := rest })
  | .call outs ins flags :: rest =>
    let args := callArgs s m.temps ins
    let seen := callView s flags m.temps
    if flags &&& callPure != 0 then
      some ([], { m with
        rest := rest
        temps := assign (sem.pureCall flags args seen m.world) 0 outs m.temps })
    else
      let r := sem.effectCall flags args seen m.world
      some ([.call flags args seen], ⟨if r.leaves then [] else rest, r.apply outs m.temps, r.world⟩)
  | .plain opc outs ins consts :: rest =>
    let d := tcgOpDefs s.target opc
    let args := ins.map m.temps
    if opc = .setLabel then some ([.blockEnd (view s.IsKept m.temps)], { m with rest := rest })
    else if d.sideEffects then
      let seen := opView s d m.temps
      let r := sem.effectOp opc args consts seen m.world
      let next :=
        match sem.jump opc args consts seen m.world with
        | .fall => rest
        | .label l => if d.bbEnd then codeAt code l else rest
      some ([.effect opc args consts seen],
        ⟨if r.leaves then [] else next, r.apply outs m.temps, r.world⟩)
    else
      some ([], { m with
        rest := rest
        temps := assign (sem.pureOp opc args consts m.world) 0 outs m.temps })

/-- What is observed in `n` steps. -/
def trace (sem : Sem V W) (code : List Op) : ℕ → Machine V W → List (Event V)
  | 0, _ => []
  | n + 1, m =>
    match exec s sem code m with
    | none => []
    | some (events, m') => events ++ trace sem code n m'

/-! ### Variables that are needed -/

/-- The operation reads the variable, or what can be seen at it includes the variable. -/
def Op.Reads (op : Op) (t : ℕ) : Prop :=
  t ∈ op.uses s ∨ op.usesGlobals s = true ∧ s.IsGlobal t ∨ op.endsBlock s = true ∧ s.IsKept t

/-- The variable is read before it is overwritten and before its block ends. -/
def Needed (t : ℕ) : List Op → Prop
  | [] => False
  | op :: rest => op.Reads s t ∨ t ∉ op.outs ∧ op.endsBlock s = false ∧ Needed t rest

/-- Operations as the generators make them. Temporaries that are not local are not read across the
end of a basic block. -/
structure WellFormed (ops : List Op) : Prop where
  globals : s.nbGlobals ≤ s.nbTemps
  temps : s.nbTemps ≤ tcgMaxTemps
  ok : ∀ op ∈ ops, op.Ok s
  block : ∀ pre op rest, ops = pre ++ op :: rest → op.endsBlock s = true →
    ∀ t, ¬s.IsKept t → ¬Needed s t rest

/-! ### One operation -/

section Transfer

variable {s} {op op' : Op} {outs ins : List ℕ} {dead dead' mid : ℕ → Bool} {mark : Option ℕ} {t : ℕ}

/-- The operation has no effect besides its outputs. -/
def Op.Removable : Op → Prop
  | .call _ _ flags => (flags &&& callPure != 0) = true
  | .nopn _ => False
  | .plain opc .. => opc ≠ .setLabel ∧ (tcgOpDefs s.target opc).sideEffects = false

/-- A mark stands for a variable that is dead behind the operation, or written by it, or not kept at
the end of the block that it ends. -/
def MarkSound (op : Op) (dead : ℕ → Bool) (mask : ℕ) : Prop :=
  ∀ j, mask.testBit j = true →
    (∃ t, op.outs[j]? = some t ∧ (dead t = true ∨ t ∈ op.outs.take j)) ∨
      ∃ k t, j = op.outs.length + k ∧ op.ins[k]? = some t ∧
        (t ∈ op.outs ∨ (op.endsBlock s = true ∧ ¬s.IsKept t) ∨
          (op.endsBlock s = false ∧ dead t = true))

/-- What the analysis does with an operation. -/
inductive Transfer (s : Context) (dead : ℕ → Bool) (op : Op) :
    Op × Option ℕ × (ℕ → Bool) → Prop where
  | remove (hpure : op.Removable (s := s)) (hdead : ∀ t ∈ op.outs, dead t = true) :
    Transfer s dead op (removed op, none, dead)
  | keep (mark : Option ℕ) (dead' : ℕ → Bool)
    (hdead : ∀ t, dead' t = false ↔
      op.Reads s t ∨ t ∉ op.outs ∧ op.endsBlock s = false ∧ dead t = false)
    (hmark : ∀ mask, mark = some mask → MarkSound (s := s) op dead mask) :
    Transfer s dead op (op, mark, dead')

/-- What `markArgs` computes. -/
theorem markArgs_spec {clobber : (ℕ → Bool) → ℕ → Bool} {skip : ℕ → Bool} {mask : ℕ}
    (h : markArgs s dead outs ins clobber skip = some (mask, dead')) :
    ∃ mid : ℕ → Bool, (∀ t, mid t = (dead t || decide (t ∈ outs))) ∧
      (∀ t, dead' t = (clobber mid t && !decide (t ∈ ins ∧ skip t = false))) ∧
      ∀ j, mask.testBit j = true →
        (∃ t, outs[j]? = some t ∧ (dead t = true ∨ t ∈ outs.take j)) ∨
          ∃ k t, j = outs.length + k ∧ ins[k]? = some t ∧ clobber mid t = true := by
  obtain ⟨⟨mask₀, mid⟩, hkill, huse⟩ := bind_eq_some_iff.mp h
  obtain ⟨hmid, hmask₀⟩ := killOutputs_spec hkill
  obtain ⟨hdead, hmask⟩ := useInputs_spec huse
  refine ⟨mid, hmid, hdead, fun j hj => (hmask j hj).imp (fun hj => ?_) id⟩
  obtain ⟨k, t, rfl, ht, hwas⟩ := (hmask₀ j hj).resolve_left (by simp)
  rw [zero_add]
  exact ⟨t, ht, hwas⟩

/-- The two ways out of `removeOr`. -/
theorem removeOr_cases {removable : Bool} {keep : Option (ℕ × (ℕ → Bool))}
    {fate : Fate × (ℕ → Bool)} (hout : ∀ t ∈ outs, t < s.nbTemps)
    (h : removeOr s removable dead outs keep = some fate) :
    (removable = true ∧ (∀ t ∈ outs, dead t = true) ∧ fate = (none, dead)) ∨
      ∃ st, keep = some st ∧ fate = (some st.1, st.2) := by
  have hkeep : keep.map (fun st => (some st.1, st.2)) = some fate →
      ∃ st, keep = some st ∧ fate = (some st.1, st.2) := by
    intro h
    obtain ⟨st, hst, rfl⟩ := map_eq_some_iff.mp h
    exact ⟨st, hst, rfl⟩
  rw [removeOr, outputsDead_eq hout, bind_some] at h
  split_ifs at h with hr hall
  · exact .inl ⟨hr, List.all_eq_true.mp hall, (some.inj h).symm⟩
  · exact .inr (hkeep h)
  · exact .inr (hkeep h)

theorem MarkSound.truncate {mask : ℕ} (h : MarkSound (s := s) op dead mask) :
    MarkSound (s := s) op dead (mask % 2 ^ 16) := by
  intro j hj
  rw [Nat.testBit_mod_two_pow, Bool.and_eq_true] at hj
  exact h j hj.2

theorem not_dummy (htemps : s.nbTemps ≤ tcgMaxTemps) (ht : t < s.nbTemps) : t ≠ s.callDummyArg := by
  rw [tcgMaxTemps] at htemps
  rw [Context.callDummyArg]
  split_ifs <;> omega

theorem globalsLive_eq_false : globalsLive s dead t = false ↔ dead t = false ∨ s.IsGlobal t := by
  rw [globalsLive, Bool.and_eq_false_iff, Bool.not_eq_false', decide_eq_true_iff]

/-- An operation that stays, when what it makes live is what it sees. -/
theorem transfer_keep (op : Op) {clobber : (ℕ → Bool) → ℕ → Bool} {skip : ℕ → Bool} {mask : ℕ}
    (h : markArgs s dead op.outs op.ins clobber skip = some (mask, dead'))
    (huses : ∀ t, t ∈ op.ins ∧ skip t = false ↔ t ∈ op.uses s)
    (hclobber : ∀ mid t, clobber mid t = false ↔ (op.usesGlobals s = true ∧ s.IsGlobal t ∨
      op.endsBlock s = true ∧ s.IsKept t) ∨ op.endsBlock s = false ∧ mid t = false) :
    Transfer s dead op (op, some (mask % 2 ^ 16), dead') := by
  obtain ⟨mid, hmid, hdead, hmask⟩ := markArgs_spec h
  refine .keep _ dead' (fun t => ?_) fun mask' hmask' => ?_
  · rw [hdead, Bool.and_eq_false_iff, Bool.not_eq_false', decide_eq_true_iff, huses, hclobber, hmid,
      Bool.or_eq_false_iff, decide_eq_false_iff_not, Op.Reads]
    tauto
  · cases hmask'
    refine MarkSound.truncate fun j hj => (hmask j hj).imp id ?_
    rintro ⟨k, t, hj, ht, hwas⟩
    refine ⟨k, t, hj, ht, ?_⟩
    have hnot := mt (hclobber mid t).mpr (by rw [hwas]; decide)
    cases hends : op.endsBlock s with
    | true => exact .inr (.inl ⟨rfl, fun hkept => hnot (.inl (.inr ⟨hends, hkept⟩))⟩)
    | false =>
      have hmid' : mid t = true := by
        by_contra hlive
        exact hnot (.inr ⟨hends, Bool.not_eq_true _ ▸ hlive⟩)
      rw [hmid, Bool.or_eq_true, decide_eq_true_iff] at hmid'
      exact hmid'.symm.imp id fun hd => .inr ⟨rfl, hd⟩

theorem transfer_call {flags : ℕ} {r : Op × Option ℕ × (ℕ → Bool)}
    (hok : (Op.call outs ins flags).Ok s) (h : laOp s dead (.call outs ins flags) = some r) :
    Transfer s dead (.call outs ins flags) r := by
  obtain ⟨fate, hfate, rfl⟩ := map_eq_some_iff.mp h
  rcases removeOr_cases hok.2.1 hfate with ⟨hpure, hdead, rfl⟩ | ⟨⟨mask, dead'⟩, hkeep, rfl⟩
  · exact .remove hpure hdead
  · refine transfer_keep (.call outs ins flags) hkeep (fun t => ?_) fun mid t => ?_
    · simp [Op.uses, Op.ins]
    · simp only [Op.usesGlobals, Op.endsBlock]
      split_ifs with hconst
      · rw [globalsLive_eq_false]
        simp [hconst, or_comm]
      · simp [hconst]

theorem transfer_default {opc : Opcode} {consts : List ℕ} {fate : Fate × (ℕ → Bool)}
    (htemps : s.nbTemps ≤ tcgMaxTemps) (hok : (Op.plain opc outs ins consts).Ok s)
    (hlabel : opc ≠ .setLabel)
    (h : laDefault s dead (tcgOpDefs s.target opc) outs ins = some fate) :
    Transfer s dead (.plain opc outs ins consts) (afterFate (.plain opc outs ins consts) fate) := by
  obtain ⟨-, -, -, -, -, -, hout, hin⟩ := hok
  rcases removeOr_cases hout h with ⟨hpure, hdead, rfl⟩ | ⟨⟨mask, dead'⟩, hkeep, rfl⟩
  · rw [Bool.and_eq_true, Bool.not_eq_true'] at hpure
    exact .remove ⟨hlabel, hpure.1⟩ hdead
  · refine transfer_keep (.plain opc outs ins consts) hkeep (fun t => ?_) fun mid t => ?_
    · simp only [Op.uses, Op.ins, mem_filter, decide_eq_true_eq]
      exact and_congr_right fun ht => iff_of_true trivial (not_dummy htemps (hin t ht))
    · simp only [Op.usesGlobals, Op.endsBlock, decide_eq_false hlabel, Bool.false_or]
      split_ifs with hbb hclobber
      · have hglobal : s.IsGlobal t → s.IsKept t := .inl
        rw [tcgLaBbEnd, Bool.not_eq_false', decide_eq_true_iff, hbb]
        simp only [true_and, Bool.true_eq_false, false_and, or_false]
        exact ⟨.inr, fun h => h.elim (fun h => hglobal h.2) id⟩
      · rw [globalsLive_eq_false]
        simp [hbb, hclobber, or_comm]
      · simp [hbb, hclobber]

/-- **What the analysis does with one operation.** -/
theorem laOp_transfer {r : Op × Option ℕ × (ℕ → Bool)} (htemps : s.nbTemps ≤ tcgMaxTemps)
    (hok : op.Ok s) (h : laOp s dead op = some r) : Transfer s dead op r := by
  cases op with
  | call outs ins flags => exact transfer_call hok h
  | nopn params =>
    cases h
    refine .keep _ _ (fun t => ?_) nofun
    simp [Op.Reads, Op.uses, Op.ins, Op.outs, Op.usesGlobals, Op.endsBlock]
  | plain opc outs ins consts =>
    rw [laOp] at h
    split_ifs at h with hlabel hdebug hdiscard
    · cases h
      subst hlabel
      obtain rfl : ins = [] := length_eq_zero_iff.mp hok.2.2.2.2.1
      refine .keep _ _ (fun t => ?_) nofun
      rw [tcgLaBbEnd, Bool.not_eq_false', decide_eq_true_iff]
      simp [Op.Reads, Op.uses, Op.ins, Op.usesGlobals, Op.endsBlock, tcgOpDefs, OpDef.plain]
    · cases h
      subst hdebug
      obtain rfl : ins = [] := length_eq_zero_iff.mp hok.2.2.2.2.1
      obtain rfl : outs = [] := length_eq_zero_iff.mp hok.2.2.2.1
      refine .keep _ _ (fun t => ?_) nofun
      simp [Op.Reads, Op.uses, Op.ins, Op.outs, Op.usesGlobals, Op.endsBlock,
        tcgOpDefs, OpDef.plain]
    · cases h
      subst hdiscard
      obtain rfl : ins = [] := length_eq_zero_iff.mp hok.2.2.2.2.1
      refine .keep _ _ (fun t => ?_) nofun
      simp [Op.Reads, Op.uses, Op.ins, Op.outs, Op.usesGlobals, Op.endsBlock,
        tcgOpDefs, OpDef.plain, and_comm]
    · obtain ⟨fate, hfate, rfl⟩ := map_eq_some_iff.mp h
      exact transfer_default htemps hok hlabel hfate

end Transfer

/-! ### Live variables are needed, dead ones are not -/

section Lists

variable {s} {ops : List Op} {a : Analysed} {t : ℕ}

theorem laOps_cons {op : Op} : laOps s (op :: ops) = some a ↔
    ∃ b r, laOps s ops = some b ∧ laOp s b.dead op = some r ∧ a = b.cons r := by
  rw [laOps, laFold, bind_eq_some_iff]
  constructor
  · rintro ⟨b, hb, h⟩
    obtain ⟨r, hr, rfl⟩ := map_eq_some_iff.mp h
    exact ⟨b, r, hb, hr, rfl⟩
  · rintro ⟨b, r, hb, hr, rfl⟩
    exact ⟨b, hb, by rw [hr]; rfl⟩

/-- An operation that can be removed does not end a block. -/
theorem Op.Removable.endsBlock {op : Op} (h : op.Removable (s := s)) : op.endsBlock s = false := by
  cases op with
  | call outs ins flags => rfl
  | nopn params => rfl
  | plain opc outs ins consts =>
    rw [Op.endsBlock, decide_eq_false h.1, Bool.false_or]
    by_contra hbb
    have := (tcgOpDefs_bbEnd (Bool.not_eq_false _ ▸ hbb)).1
    rw [h.2] at this
    cases this

/-- A removed operation does nothing. -/
theorem needed_removed {op : Op} {rest : List Op} :
    Needed s t (removed op :: rest) ↔ Needed s t rest := by
  rw [removed]
  split_ifs <;> simp [Needed, Op.Reads, Op.uses, Op.ins, Op.outs, Op.usesGlobals, Op.endsBlock,
    tcgOpDefs, OpDef.plain]

/-- What the analysis takes for live is needed. -/
theorem live_needed (htemps : s.nbTemps ≤ tcgMaxTemps) (hok : ∀ op ∈ ops, op.Ok s)
    (h : laOps s ops = some a) (ht : a.dead t = false) : Needed s t ops := by
  induction ops generalizing a with
  | nil =>
    cases h
    cases ht
  | cons op ops ih =>
    obtain ⟨b, r, hb, hr, rfl⟩ := laOps_cons.mp h
    have ihb := ih (fun op hop => hok op (.tail _ hop)) hb
    cases laOp_transfer htemps (hok op (.head _)) hr with
    | remove hpure hdead =>
      refine .inr ⟨fun hout => ?_, hpure.endsBlock, ihb ht⟩
      exact Bool.noConfusion ((hdead t hout).symm.trans ht)
    | keep mark dead' hdead =>
      exact ((hdead t).mp ht).imp id fun ⟨hout, hends, hlive⟩ => ⟨hout, hends, ihb hlive⟩

/-- What the analysis takes for dead is not needed in what it makes of the code. -/
theorem dead_not_needed (htemps : s.nbTemps ≤ tcgMaxTemps) (hok : ∀ op ∈ ops, op.Ok s)
    (h : laOps s ops = some a) (ht : a.dead t = true) : ¬Needed s t a.ops := by
  induction ops generalizing a with
  | nil =>
    cases h
    exact id
  | cons op ops ih =>
    obtain ⟨b, r, hb, hr, rfl⟩ := laOps_cons.mp h
    have ihb := ih (fun op hop => hok op (.tail _ hop)) hb
    cases laOp_transfer htemps (hok op (.head _)) hr with
    | remove hpure hdead => exact fun hneed => ihb ht (needed_removed.mp hneed)
    | keep mark dead' hdead =>
      have hnot := mt (hdead t).mpr (by rw [show dead' t = true from ht]; decide)
      rintro (hreads | ⟨hout, hends, hneed⟩)
      · exact hnot (.inl hreads)
      · refine ihb ?_ hneed
        by_contra hlive
        exact hnot (.inr ⟨hout, hends, Bool.not_eq_true _ ▸ hlive⟩)

end Lists

/-! ### Two runs in step -/

section Simulation

variable {s} {σ σ' : ℕ → V} {outs : List ℕ} {t : ℕ}

theorem assign_of_notMem {vals : ℕ → V} {i : ℕ} (ht : t ∉ outs) : assign vals i outs σ t = σ t := by
  induction outs generalizing i σ with
  | nil => rfl
  | cons t₀ outs ih =>
    rw [mem_cons, not_or] at ht
    rw [assign, ih ht.2, update_of_ne ht.1]

theorem assign_congr {vals : ℕ → V} {i : ℕ} (h : t ∉ outs → σ t = σ' t) :
    assign vals i outs σ t = assign vals i outs σ' t := by
  induction outs generalizing i σ σ' with
  | nil => exact h not_mem_nil
  | cons t₀ outs ih =>
    refine ih fun hnot => ?_
    rw [update_apply, update_apply]
    split_ifs with heq
    · rfl
    · exact h (by rw [mem_cons, not_or]; exact ⟨heq, hnot⟩)

theorem Result.apply_congr {r : Result V W} (h : t ∉ outs → σ t = σ' t) :
    r.apply outs σ t = r.apply outs σ' t :=
  assign_congr fun hnot => by rw [h hnot]

theorem view_congr {P : ℕ → Prop} [DecidablePred P] (h : ∀ t, P t → σ t = σ' t) :
    view P σ = view P σ' := by
  funext t
  rw [view, view]
  split_ifs with ht
  · rw [h t ht]
  · rfl

/-- The variables that an operation reads have the same values. -/
def SameReads (op : Op) (σ σ' : ℕ → V) : Prop := ∀ t, op.Reads s t → σ t = σ' t

theorem SameReads.callArgs {ins : List ℕ} {flags : ℕ}
    (h : SameReads (s := s) (.call outs ins flags) σ σ') :
    callArgs s σ ins = callArgs s σ' ins := by
  refine map_congr_left fun t ht => ?_
  split_ifs with hdummy
  · rfl
  · rw [h t (.inl (mem_filter.mpr ⟨ht, decide_eq_true hdummy⟩))]

theorem SameReads.callView {ins : List ℕ} {flags : ℕ}
    (h : SameReads (s := s) (.call outs ins flags) σ σ') :
    callView s flags σ = callView s flags σ' := by
  rw [Tcg.callView, Tcg.callView]
  split_ifs with hconst
  · exact view_congr fun t ht => h t (.inr (.inl ⟨hconst, ht⟩))
  · rfl

variable {opc : Opcode} {ins consts : List ℕ}

theorem SameReads.map_ins (htemps : s.nbTemps ≤ tcgMaxTemps)
    (hok : (Op.plain opc outs ins consts).Ok s)
    (h : SameReads (s := s) (.plain opc outs ins consts) σ σ') : ins.map σ = ins.map σ' := by
  refine map_congr_left fun t ht => h t (.inl (mem_filter.mpr ⟨ht, ?_⟩))
  exact decide_eq_true (not_dummy htemps (hok.2.2.2.2.2.2.2 t ht))

theorem SameReads.opView (h : SameReads (s := s) (.plain opc outs ins consts) σ σ') :
    opView s (tcgOpDefs s.target opc) σ = opView s (tcgOpDefs s.target opc) σ' := by
  rw [Tcg.opView, Tcg.opView]
  split_ifs with hbb hclobber
  · refine view_congr fun t ht => h t (.inr (.inr ⟨?_, ht⟩))
    rw [Op.endsBlock, hbb, Bool.or_true]
  · exact view_congr fun t ht => h t (.inr (.inl ⟨hclobber, ht⟩))
  · rfl

/-- The analysed operation is a label where the operation is. -/
theorem Transfer.isLabel {dead : ℕ → Bool} {op : Op} {r : Op × Option ℕ × (ℕ → Bool)} {l : ℕ}
    (h : Transfer s dead op r) : r.1.isLabel l = op.isLabel l := by
  cases h with
  | remove hpure hdead =>
    have hfalse : op.isLabel l = false := by
      cases op with
      | call outs ins flags => rfl
      | nopn params => rfl
      | plain opc outs ins consts => rw [Op.isLabel, decide_eq_false hpure.1, Bool.false_and]
    rw [hfalse, removed]
    split_ifs <;> rfl
  | keep mark dead' hdead hmark => rfl

/-- Jumping to a label and the analysis commute. -/
theorem laOps_codeAt {ops : List Op} {a : Analysed} (htemps : s.nbTemps ≤ tcgMaxTemps)
    (hok : ∀ op ∈ ops, op.Ok s) (h : laOps s ops = some a) (l : ℕ) :
    ∃ b, laOps s (codeAt ops l) = some b ∧ codeAt a.ops l = b.ops := by
  induction ops generalizing a with
  | nil =>
    cases h
    exact ⟨_, rfl, rfl⟩
  | cons op ops ih =>
    obtain ⟨b, r, hb, hr, rfl⟩ := laOps_cons.mp h
    have hlabel := (laOp_transfer htemps (hok op (.head _)) hr).isLabel (l := l)
    by_cases hop : op.isLabel l = true
    · have hstay : codeAt (op :: ops) l = op :: ops := by
        rw [codeAt, dropWhile_cons_of_neg (by simp [hop])]
      have hstay' : codeAt (b.cons r).ops l = (b.cons r).ops := by
        rw [codeAt, Analysed.cons, dropWhile_cons_of_neg (by simp [hlabel, hop])]
      exact ⟨_, by rw [hstay]; exact h, hstay'⟩
    · have hgo : codeAt (op :: ops) l = codeAt ops l := by
        rw [codeAt, dropWhile_cons_of_pos (by simp [hop])]
        rfl
      have hgo' : codeAt (b.cons r).ops l = codeAt b.ops l := by
        rw [codeAt, Analysed.cons, dropWhile_cons_of_pos (by simp [hlabel, hop])]
        rfl
      rw [hgo, hgo']
      exact ih (fun op hop => hok op (.tail _ hop)) hb

/-- The code from a label on begins with the label: what is live there is kept. -/
theorem kept_of_live_codeAt {ops : List Op} {b : Analysed} {l : ℕ}
    (h : laOps s (codeAt ops l) = some b) (ht : b.dead t = false) : s.IsKept t := by
  cases hcode : codeAt ops l with
  | nil =>
    rw [hcode] at h
    cases h
    cases ht
  | cons op rest =>
    have hop : op.isLabel l = true := by
      have hne : codeAt ops l ≠ [] := by simp [hcode]
      have hhead := head_dropWhile_not (fun op : Op => !op.isLabel l) hne
      have heq : (codeAt ops l).head hne = op := by simp [hcode]
      rw [← heq]
      simpa [codeAt] using hhead
    rw [hcode] at h
    obtain ⟨c, r, -, hr, rfl⟩ := laOps_cons.mp h
    cases op with
    | call outs ins flags | nopn params => cases hop
    | plain opc outs ins consts =>
      rw [Op.isLabel, Bool.and_eq_true, decide_eq_true_iff] at hop
      rw [laOp, if_pos hop.1] at hr
      cases hr
      have hlive : tcgLaBbEnd s t = false := ht
      rwa [tcgLaBbEnd, Bool.not_eq_false', decide_eq_true_iff] at hlive

/-- Two runs in step: the second one is in the analysed code, and the variables that are live have
the same values in both. -/
structure InStep (code : List Op) (m m' : Machine V W) : Prop where
  suffix : m.rest <:+ code
  world : m'.world = m.world
  rest : ∃ b, laOps s m.rest = some b ∧ m'.rest = b.ops ∧ ∀ t, b.dead t = false →
    m.temps t = m'.temps t

variable {sem : Sem V W} {code rest : List Op} {op : Op} {w : W}

theorem exec_removed : exec s sem code ⟨removed op :: rest, σ, w⟩ = some ([], ⟨rest, σ, w⟩) := by
  rw [removed]
  split_ifs <;> rfl

theorem exec_removable (sem : Sem V W) (code rest : List Op) (σ : ℕ → V) (w : W)
    (h : op.Removable (s := s)) :
    ∃ vals, exec s sem code ⟨op :: rest, σ, w⟩ = some ([], ⟨rest, assign vals 0 op.outs σ, w⟩) := by
  cases op with
  | call outs ins flags => exact ⟨_, if_pos h⟩
  | nopn params => exact h.elim
  | plain opc outs ins consts =>
    have heffect : ¬(tcgOpDefs s.target opc).sideEffects = true := by
      rw [h.2]
      decide
    exact ⟨_, (if_neg h.1).trans (if_neg heffect)⟩

/-- An operation that stays does the same in both runs. -/
theorem exec_kept {b : Analysed} {a : List Op} (hwf : WellFormed s code)
    (hsuffix : op :: rest <:+ code) (hb : laOps s rest = some b)
    (hreads : SameReads (s := s) op σ σ')
    (hafter : ∀ t, b.dead t = false → t ∉ op.outs → σ t = σ' t) (hjump : op.endsBlock s = true →
      ∀ l, ∃ c, laOps s (codeAt code l) = some c ∧ codeAt a l = c.ops) :
    ∃ events n n', exec s sem code ⟨op :: rest, σ, w⟩ = some (events, n) ∧
      exec s sem a ⟨op :: b.ops, σ', w⟩ = some (events, n') ∧ InStep (s := s) code n n' := by
  have hrest : rest <:+ code := (suffix_cons op rest).trans hsuffix
  have hok : op.Ok s := hwf.ok op (hsuffix.subset (.head _))
  -- what is left of the code behind an operation with effects, and what is live there
  have hleave : ∀ (τ τ' : ℕ → V) (v : W), InStep (s := s) code ⟨[], τ, v⟩ ⟨[], τ', v⟩ :=
    fun τ τ' v =>
    ⟨nil_suffix, rfl, _, rfl, rfl, nofun⟩
  have hfall : ∀ (τ τ' : ℕ → V) (v : W), (∀ t, b.dead t = false → τ t = τ' t) →
      InStep (s := s) code ⟨rest, τ, v⟩ ⟨b.ops, τ', v⟩ := fun τ τ' v hsame =>
    ⟨hrest, rfl, b, hb, rfl, hsame⟩
  cases op with
  | nopn params => exact ⟨_, _, _, rfl, rfl, hfall _ _ _ fun t ht => hafter t ht not_mem_nil⟩
  | call outs ins flags =>
    have hargs := hreads.callArgs
    have hview := hreads.callView
    simp only [exec, hargs, hview]
    split_ifs
    · exact ⟨_, _, _, rfl, rfl, hfall _ _ _ fun t ht => assign_congr (hafter t ht)⟩
    · exact ⟨_, _, _, rfl, rfl, hleave _ _ _⟩
    · exact ⟨_, _, _, rfl, rfl, hfall _ _ _ fun t ht => Result.apply_congr (hafter t ht)⟩
  | plain opc outs ins consts =>
    have hargs := hreads.map_ins hwf.temps hok
    have hview := hreads.opView
    simp only [exec, hargs, hview]
    by_cases hlabel : opc = .setLabel
    · subst hlabel
      obtain rfl : outs = [] := length_eq_zero_iff.mp hok.2.2.2.1
      have hkept : view s.IsKept σ = view s.IsKept σ' :=
        view_congr fun t ht => hreads t (.inr (.inr ⟨rfl, ht⟩))
      rw [if_pos rfl, if_pos rfl, hkept]
      exact ⟨_, _, _, rfl, rfl, hfall _ _ _ fun t ht => hafter t ht not_mem_nil⟩
    rw [if_neg hlabel, if_neg hlabel]
    by_cases heffect : (tcgOpDefs s.target opc).sideEffects = true
    · rw [if_pos heffect, if_pos heffect]
      refine ⟨_, _, _, rfl, rfl, ?_⟩
      generalize sem.effectOp opc (ins.map σ') consts (opView s (tcgOpDefs s.target opc) σ') w = r
      by_cases hleaves : r.leaves = true
      · rw [if_pos hleaves, if_pos hleaves]
        exact hleave _ _ _
      rw [if_neg hleaves, if_neg hleaves]
      have hsame : ∀ t, b.dead t = false → r.apply outs σ t = r.apply outs σ' t := fun t ht =>
        Result.apply_congr (hafter t ht)
      cases sem.jump opc (ins.map σ') consts (opView s (tcgOpDefs s.target opc) σ') w with
      | fall => exact hfall _ _ _ hsame
      | label l =>
        by_cases hbb : (tcgOpDefs s.target opc).bbEnd = true
        · have hends : (Op.plain opc outs ins consts).endsBlock s = true := by
            rw [Op.endsBlock, hbb, Bool.or_true]
          obtain ⟨c, hc, hcode⟩ := hjump hends l
          simp only [if_pos hbb, hcode]
          refine ⟨dropWhile_suffix _, rfl, c, hc, rfl, fun t ht => Result.apply_congr fun _ => ?_⟩
          exact hreads t (.inr (.inr ⟨hends, kept_of_live_codeAt hc ht⟩))
        · simp only [if_neg hbb]
          exact hfall _ _ _ hsame
    · rw [if_neg heffect, if_neg heffect]
      exact ⟨_, _, _, rfl, rfl, hfall _ _ _ fun t ht => assign_congr (hafter t ht)⟩

/-- **One step keeps two runs in step**, with the same observations. -/
theorem exec_inStep (sem : Sem V W) {a : Analysed} {m m' : Machine V W} (hwf : WellFormed s code)
    (ha : laOps s code = some a) (h : InStep (s := s) code m m') :
    (exec s sem code m = none ∧ exec s sem a.ops m' = none) ∨
      ∃ events n n', exec s sem code m = some (events, n) ∧
        exec s sem a.ops m' = some (events, n') ∧ InStep (s := s) code n n' := by
  obtain ⟨rest, σ, w⟩ := m
  obtain ⟨rest', σ', w'⟩ := m'
  obtain ⟨hsuffix, rfl, c, hc, rfl, hsame⟩ := h
  cases rest with
  | nil =>
    cases hc
    exact .inl ⟨rfl, rfl⟩
  | cons op rest =>
    obtain ⟨b, r, hb, hr, rfl⟩ := laOps_cons.mp hc
    have hrest : rest <:+ code := (suffix_cons op rest).trans hsuffix
    right
    cases laOp_transfer hwf.temps (hwf.ok op (hsuffix.subset (.head _))) hr with
    | remove hpure hdead =>
      obtain ⟨vals, hexec⟩ := exec_removable sem code rest σ w' hpure
      refine ⟨_, _, _, hexec, exec_removed, hrest, rfl, b, hb, rfl, fun t ht => ?_⟩
      have hout : t ∉ op.outs := fun hout => Bool.noConfusion ((hdead t hout).symm.trans ht)
      exact (assign_of_notMem hout).trans (hsame t ht)
    | keep mark dead' hdead hmark =>
      have hreads : SameReads (s := s) op σ σ' := fun t ht => hsame t ((hdead t).mpr (.inl ht))
      refine exec_kept hwf hsuffix hb hreads (fun t ht hout => ?_) fun _ l =>
        laOps_codeAt hwf.temps hwf.ok ha l
      cases hends : op.endsBlock s with
      | false => exact hsame t ((hdead t).mpr (.inr ⟨hout, hends, ht⟩))
      | true =>
        -- behind the end of a block only what is kept is read
        obtain ⟨pre, hpre⟩ := hsuffix
        have hok : ∀ op ∈ rest, op.Ok s := fun op hop => hwf.ok op (hrest.subset hop)
        have hkept : s.IsKept t := by
          by_contra hnot
          exact hwf.block pre op rest hpre.symm hends t hnot (live_needed hwf.temps hok hb ht)
        exact hreads t (.inr (.inr ⟨hends, hkept⟩))

/-- **Runs in step are observed alike.** -/
theorem trace_inStep {a : Analysed} {m m' : Machine V W} (hwf : WellFormed s code)
    (ha : laOps s code = some a) (h : InStep (s := s) code m m') (n : ℕ) :
    trace s sem a.ops n m' = trace s sem code n m := by
  induction n generalizing m m' with
  | zero => rfl
  | succ n ih =>
    rw [trace, trace]
    rcases exec_inStep sem hwf ha h with ⟨hm, hm'⟩ | ⟨events, k, k', hm, hm', hk⟩
    · rw [hm, hm']
    · rw [hm, hm']
      exact congrArg (events ++ ·) (ih hk)

end Simulation

/-! ### Main result -/

section Main

variable {s} {ops : List Op} {a : Analysed} {dead : ℕ → Bool}

theorem exists_markArgs {outs ins : List ℕ} {clobber : (ℕ → Bool) → ℕ → Bool} {skip : ℕ → Bool}
    (hout : ∀ t ∈ outs, t < s.nbTemps) (hin : ∀ t ∈ ins, skip t = true ∨ t < s.nbTemps)
    (hlen : outs.length + ins.length ≤ 31) :
    ∃ st, markArgs s dead outs ins clobber skip = some st := by
  obtain ⟨⟨mask, mid⟩, hkill⟩ : ∃ st, killOutputs s 0 outs (0, dead) = some st :=
    exists_killOutputs hout (by omega)
  obtain ⟨st, huse⟩ : ∃ st, useInputs s skip outs.length ins (mask, clobber mid) = some st :=
    exists_useInputs hin hlen
  exact ⟨st, by rw [markArgs, hkill]; exact huse⟩

theorem exists_removeOr {removable : Bool} {outs : List ℕ} {keep : Option (ℕ × (ℕ → Bool))}
    (hout : ∀ t ∈ outs, t < s.nbTemps) (hkeep : ∃ st, keep = some st) :
    ∃ fate, removeOr s removable dead outs keep = some fate := by
  obtain ⟨st, rfl⟩ := hkeep
  rw [removeOr, outputsDead_eq hout, bind_some]
  split_ifs <;> exact ⟨_, rfl⟩

theorem exists_laOp {op : Op} (hok : op.Ok s) : ∃ r, laOp s dead op = some r := by
  cases op with
  | call outs ins flags =>
    obtain ⟨hlen, hout, hin⟩ := hok
    rw [maxOpcParam] at hlen
    obtain ⟨fate, hfate⟩ : ∃ fate, laCall s dead outs ins flags = some fate :=
      exists_removeOr hout
        (exists_markArgs hout (fun t ht => (hin t ht).imp decide_eq_true id) (by omega))
    exact ⟨_, by rw [laOp, hfate]; rfl⟩
  | nopn params => exact ⟨_, rfl⟩
  | plain opc outs ins consts =>
    obtain ⟨-, -, -, ho, hi, -, hout, hin⟩ := hok
    have hle := tcgOpDefs_nbArgs_le s.target opc
    rw [OpDef.nbArgs] at hle
    obtain ⟨fate, hfate⟩ : ∃ fate, laDefault s dead (tcgOpDefs s.target opc) outs ins = some fate :=
      exists_removeOr hout (exists_markArgs hout (fun t ht => .inr (hin t ht)) (by omega))
    rw [laOp]
    split_ifs
    · exact ⟨_, rfl⟩
    · exact ⟨_, rfl⟩
    · exact ⟨_, rfl⟩
    · exact ⟨_, by rw [hfate]; rfl⟩

theorem exists_laOps (hok : ∀ op ∈ ops, op.Ok s) : ∃ a, laOps s ops = some a := by
  induction ops with
  | nil => exact ⟨_, rfl⟩
  | cons op ops ih =>
    obtain ⟨b, hb⟩ := ih fun op hop => hok op (.tail _ hop)
    obtain ⟨r, hr⟩ : ∃ r, laOp s b.dead op = some r := exists_laOp (hok op (.head _))
    exact ⟨_, laOps_cons.mpr ⟨b, r, hb, hr, rfl⟩⟩

/-- The analysis of what follows is part of the analysis. -/
theorem laOps_suffix {pre rest : List Op} (h : laOps s (pre ++ rest) = some a) :
    ∃ c, laOps s rest = some c ∧ a.ops.drop pre.length = c.ops ∧
    a.marks.drop pre.length = c.marks := by
  induction pre generalizing a with
  | nil => exact ⟨a, h, rfl, rfl⟩
  | cons op pre ih =>
    obtain ⟨b, r, hb, -, rfl⟩ := laOps_cons.mp h
    exact ih hb

/-- The analysis of the code does what it is for: no observation of a run changes, and an argument
is marked as dead only if its value is not needed any more. -/
structure Sound (s : Context) (ops : List Op) (a : Analysed) : Prop where
  /-- Each operation is as it was, or removed. -/
  replaced : a.ops.length = ops.length ∧
    ∀ (k : ℕ) (op' : Op), a.ops[k]? = some op' → ∃ op, ops[k]? = some op ∧
    (op' = op ∨ op' = removed op)
  /-- All effects, calls and ends of blocks are the same, with all that they see. -/
  trace : ∀ (V W : Type) (sem : Sem V W) (temps : ℕ → V) (world : W) (n : ℕ),
    trace s sem a.ops n ⟨a.ops, temps, world⟩ = trace s sem ops n ⟨ops, temps, world⟩
  /-- A marked output is not read again. -/
  outputs : ∀ pre op rest mask j t, ops = pre ++ op :: rest → a.marks[pre.length]? =
    some (some mask) →
    mask.testBit j = true → op.outs[j]? = some t → op.outs.Nodup →
    ¬Needed s t (a.ops.drop (pre.length + 1))
  /-- A marked input is overwritten by the operation, or its block ends with the operation, or it is
  not read again. -/
  inputs : ∀ pre op rest mask j t, ops = pre ++ op :: rest → a.marks[pre.length]? =
    some (some mask) →
    mask.testBit (op.outs.length + j) = true → op.ins[j]? = some t →
    t ∈ op.outs ∨ op.endsBlock s = true ∧ ¬s.IsKept t ∨ ¬Needed s t (a.ops.drop (pre.length + 1))

/-- The marks of an operation inside of the code. -/
theorem markSound_of_split {pre rest : List Op} {op : Op} {mask : ℕ}
    (htemps : s.nbTemps ≤ tcgMaxTemps) (hok : ∀ x ∈ pre ++ op :: rest, x.Ok s)
    (ha : laOps s (pre ++ op :: rest) = some a) (hmark : a.marks[pre.length]? = some (some mask)) :
    ∃ dead : ℕ → Bool, MarkSound (s := s) op dead mask ∧
      ∀ t, dead t = true → ¬Needed s t (a.ops.drop (pre.length + 1)) := by
  obtain ⟨c, hc, hops, hmarks⟩ := laOps_suffix ha
  obtain ⟨b, r, hb, hr, rfl⟩ := laOps_cons.mp hc
  have hrest : ∀ op ∈ rest, op.Ok s := fun op hop =>
    hok op (mem_append_right _ (.tail _ hop))
  have hdrop : a.ops.drop (pre.length + 1) = b.ops := by
    rw [← drop_drop, hops]
    rfl
  have hhead : r.2.1 = some mask := by
    have h := congrArg (·[0]?) hmarks
    rw [getElem?_drop, Nat.add_zero, hmark] at h
    exact (some.inj h).symm
  refine ⟨b.dead, ?_, fun t ht => hdrop ▸ dead_not_needed htemps hrest hb ht⟩
  cases laOp_transfer htemps (hok op (mem_append_right _ (.head _))) hr with
  | remove hpure hdead => cases hhead
  | keep mark dead' hdead hsound => exact hsound mask hhead

theorem laOps_replaced (htemps : s.nbTemps ≤ tcgMaxTemps) (hok : ∀ op ∈ ops, op.Ok s)
    (h : laOps s ops = some a) : a.ops.length = ops.length ∧
    ∀ (k : ℕ) (op' : Op), a.ops[k]? = some op' →
      ∃ op, ops[k]? = some op ∧ (op' = op ∨ op' = removed op) := by
  induction ops generalizing a with
  | nil =>
    cases h
    exact ⟨rfl, nofun⟩
  | cons op ops ih =>
    obtain ⟨b, r, hb, hr, rfl⟩ := laOps_cons.mp h
    obtain ⟨hlen, hall⟩ := ih (fun op hop => hok op (.tail _ hop)) hb
    refine ⟨congrArg (· + 1) hlen, fun k op' hk => ?_⟩
    cases k with
    | zero =>
      refine ⟨op, rfl, ?_⟩
      cases hk
      cases laOp_transfer htemps (hok op (.head _)) hr with
      | remove hpure hdead => exact .inr rfl
      | keep mark dead' hdead hmark => exact .inl rfl
    | succ k => exact hall k op' hk

/-- **The analysis preserves the meaning of the code**, in the buffers as the generators fill
them. -/
theorem liveness_preserves (hwf : WellFormed s ops) :
    ∃ a, tcgLivenessAnalysis s (opcodes ops ++ [.endOp]) (opparams ops) =
      some (opcodes a.ops ++ [.endOp], opparams a.ops, a.marks ++ [none]) ∧ Sound s ops a := by
  obtain ⟨a, ha⟩ := exists_laOps hwf.ok
  refine ⟨a, by rw [tcgLivenessAnalysis_eq hwf.ok, ha]; rfl, laOps_replaced hwf.temps hwf.ok ha,
    ?_, ?_, ?_⟩
  · intro V W sem temps world n
    have hstart : InStep (s := s) ops ⟨ops, temps, world⟩ ⟨a.ops, temps, world⟩ :=
      ⟨suffix_refl _, rfl, a, ha, rfl, fun _ _ => rfl⟩
    exact trace_inStep hwf ha hstart n
  · rintro pre op rest mask j t rfl hmark hbit ht hnodup
    obtain ⟨dead, hsound, hneed⟩ := markSound_of_split hwf.temps hwf.ok ha hmark
    obtain ⟨hj, hget⟩ := List.getElem?_eq_some_iff.mp ht
    rcases hsound j hbit with ⟨u, hu, hdead⟩ | ⟨k, u, hk, -⟩
    · obtain rfl : t = u := some.inj (ht.symm.trans hu)
      refine hneed t (hdead.resolve_right fun hmem => ?_)
      obtain ⟨i, hi, heq⟩ := mem_take_iff_getElem.mp hmem
      have hij := hnodup.getElem_inj_iff.mp (heq.trans hget.symm)
      omega
    · omega
  · rintro pre op rest mask j t rfl hmark hbit ht
    obtain ⟨dead, hsound, hneed⟩ := markSound_of_split hwf.temps hwf.ok ha hmark
    rcases hsound _ hbit with ⟨u, hu, -⟩ | ⟨k, u, hk, hu, hcases⟩
    · have := (List.getElem?_eq_some_iff.mp hu).1
      omega
    · obtain rfl : j = k := by omega
      obtain rfl : t = u := some.inj (ht.symm.trans hu)
      exact hcases.imp id (Or.imp id fun h => hneed t h.2)

/-- A property of each operation and what follows it, operation by operation. -/
theorem forall_split_cons {P : Op → List Op → Prop} {op : Op} {ops : List Op}
    (hhead : P op ops) (htail : ∀ pre op rest, ops = pre ++ op :: rest → P op rest) :
    ∀ pre op' rest, op :: ops = pre ++ op' :: rest → P op' rest := by
  intro pre op' rest heq
  cases pre with
  | nil =>
    cases heq
    exact hhead
  | cons x pre => exact htail pre op' rest (List.cons.inj heq).2

theorem forall_split_nil {P : Op → List Op → Prop} :
    ∀ pre op rest, ([] : List Op) = pre ++ op :: rest → P op rest := by
  intro pre op rest heq
  simp at heq

/-- One global, variable 0, and two temporaries. -/
def smallContext : Context := ⟨⟨false, false⟩, 1, 3, fun _ => false⟩

/-- A temporary that is never read is set, then the global. -/
def deadMove : List Op :=
  [.plain (.movi .i32) [1] [] [5], .plain (.movi .i32) [0] [] [7], .plain .exitTb [] [] [0]]

theorem deadMove_wellFormed : WellFormed smallContext deadMove where
  globals := by decide
  temps := by decide
  ok := by
    simp only [deadMove, forall_mem_cons]
    refine ⟨?_, ?_, ?_, nofun⟩ <;> exact ⟨by decide, by decide, by decide, rfl, rfl, rfl,
      by decide, by decide⟩
  block := forall_split_cons (nofun) <| forall_split_cons (nofun) <|
    forall_split_cons (fun _ _ _ => id) forall_split_nil

/-- The move to the temporary is removed, and the rest is marked soundly. -/
theorem deadMove_preserved : ∃ a,
    tcgLivenessAnalysis smallContext (opcodes deadMove ++ [.endOp]) (opparams deadMove) =
      some (opcodes a.ops ++ [.endOp], opparams a.ops, a.marks ++ [none]) ∧
    Sound smallContext deadMove a :=
  liveness_preserves deadMove_wellFormed

/-- A multiplication with the same temporary for both halves of the result, which is then stored. -/
def sameOutputs : List Op :=
  [.plain .mulu2I32 [1, 1] [0, 0] [], .plain (.st .i32) [] [1, 0] [4], .plain .exitTb [] [] [0]]

/-- The second output is marked as dead although the store reads the temporary. -/
theorem repeated_output_marked :
    WellFormed smallContext sameOutputs ∧
      tcgLivenessAnalysis smallContext (opcodes sameOutputs ++ [.endOp]) (opparams sameOutputs) =
        some (opcodes sameOutputs ++ [.endOp], opparams sameOutputs,
          [some 2, some 1, some 0, none]) ∧
      Needed smallContext 1 (sameOutputs.drop 1) := by
  refine ⟨⟨by decide, by decide, ?_, ?_⟩, by decide +kernel, .inl (.inl (by decide +kernel))⟩
  · simp only [sameOutputs, forall_mem_cons]
    refine ⟨?_, ?_, ?_, nofun⟩ <;> exact ⟨by decide, by decide, by decide, rfl, rfl, rfl,
      by decide, by decide⟩
  · exact forall_split_cons (nofun) <| forall_split_cons (nofun) <|
      forall_split_cons (fun _ _ _ => id) forall_split_nil

end Main

end VariabilityTestbed.Tcg
