import VariabilityTestbed.Tcg.Ops
import Mathlib.Data.List.Induction
import Mathlib.Data.Nat.Bitwise

/-!
# Liveness analysis

`tcg_liveness_analysis` walks the buffers backward and keeps for each variable whether it is dead:
whether its value is overwritten, or the basic block ends, before it is read. An operation without
effects whose outputs are all dead is replaced by a `nopn` of the same length; of the other
operations the arguments that are dead behind them are marked in `op_dead_args`.

The analysis is stated twice. `tcgLivenessAnalysis` follows the source on the buffers; `laOps` does
the same on a list of operations. `tcgLivenessAnalysis_eq` says that the first is the second on
encoded operations.
-/

namespace VariabilityTestbed.Tcg

open Function List Option

variable (s : Context)

/-! ### The arguments of an operation -/

/-- `tcg_la_bb_end`: of the `nb_temps` variables the globals and the local temporaries are live. -/
def tcgLaBbEnd (t : ℕ) : Bool := !decide (s.IsKept t)

/-- The globals are live. -/
def globalsLive (dead : ℕ → Bool) (t : ℕ) : Bool := dead t && !decide (s.IsGlobal t)

/-- The test whether all outputs are dead. The array `dead_temps` has `nb_temps` entries. -/
def outputsDead (dead : ℕ → Bool) : List ℕ → Option Bool
  | [] => some true
  | t :: outs =>
    if t < s.nbTemps then if dead t then outputsDead dead outs else some false else none

/-- Argument `i` is marked if it is dead. -/
def mark (deadArgs i : ℕ) (dead : Bool) : ℕ := if dead then deadArgs ||| 1 <<< i else deadArgs

/-- The loop over the outputs, from argument `i` on; `1 << i` has to fit an `int`. -/
def killOutputs : ℕ → List ℕ → ℕ × (ℕ → Bool) → Option (ℕ × (ℕ → Bool))
  | _, [], st => some st
  | i, t :: outs, (deadArgs, dead) =>
    if t < s.nbTemps ∧ i < 31 then
      killOutputs (i + 1) outs
        (mark deadArgs i (dead t), update dead t true)
    else none

/-- The loop over the inputs, from argument `i` on. -/
def useInputs (skip : ℕ → Bool) : ℕ → List ℕ → ℕ × (ℕ → Bool) → Option (ℕ × (ℕ → Bool))
  | _, [], st => some st
  | i, t :: ins, (deadArgs, dead) =>
    if skip t then useInputs skip (i + 1) ins (deadArgs, dead)
    else if t < s.nbTemps ∧ i < 31 then
      useInputs skip (i + 1) ins
        (mark deadArgs i (dead t), update dead t false)
    else none

/-- The arguments of an operation that stays. -/
def markArgs (dead : ℕ → Bool) (outs ins : List ℕ) (clobber : (ℕ → Bool) → ℕ → Bool)
    (skip : ℕ → Bool) : Option (ℕ × (ℕ → Bool)) :=
  (killOutputs s 0 outs (0, dead)).bind fun st =>
    useInputs s skip outs.length ins (st.1, clobber st.2)

/-- What becomes of an operation: it is removed, or it has the dead arguments. -/
abbrev Fate := Option ℕ

/-- An operation is removed if all of its outputs are dead. -/
def removeOr (removable : Bool) (dead : ℕ → Bool) (outs : List ℕ)
    (keep : Option (ℕ × (ℕ → Bool))) : Option (Fate × (ℕ → Bool)) :=
  if removable then
    (outputsDead s dead outs).bind fun all =>
      if all then some (none, dead) else keep.map fun st => (some st.1, st.2)
  else keep.map fun st => (some st.1, st.2)

/-- The case of a call. -/
def laCall (dead : ℕ → Bool) (outs ins : List ℕ) (flags : ℕ) : Option (Fate × (ℕ → Bool)) :=
  removeOr s (flags &&& callPure != 0) dead outs
    (markArgs s dead outs ins (fun dead => if flags &&& callConst == 0 then
    globalsLive s dead else dead)
      (· = s.callDummyArg))

/-- The default case. -/
def laDefault (dead : ℕ → Bool) (d : OpDef) (outs ins : List ℕ) : Option (Fate × (ℕ → Bool)) :=
  removeOr s (!d.sideEffects && d.nbOargs != 0) dead outs
    (markArgs s dead outs ins
      (fun dead =>
        if d.bbEnd then tcgLaBbEnd s else if d.callClobber then globalsLive s dead else dead)
      fun _ => false)

/-! ### What the loops compute -/

section Loops

variable {s} {dead dead' : ℕ → Bool} {outs ins : List ℕ} {mask mask' i : ℕ} {skip : ℕ → Bool}

theorem outputsDead_eq (h : ∀ t ∈ outs, t < s.nbTemps) :
    outputsDead s dead outs = some (outs.all dead) := by
  induction outs with
  | nil => rfl
  | cons t outs ih =>
    rw [outputsDead, if_pos (h t mem_cons_self), all_cons, ih fun t ht => h t (.tail _ ht)]
    cases dead t <;> rfl

/-- A bit of the mask is an old one or the new one. -/
theorem testBit_mark {b : Bool} {j : ℕ} (h : (mark mask i b).testBit j = true) :
    mask.testBit j = true ∨ b = true ∧ j = i := by
  cases b with
  | false => exact .inl h
  | true =>
    rw [mark, if_pos rfl, Nat.testBit_or, Nat.one_shiftLeft, Nat.testBit_two_pow, Bool.or_eq_true,
      decide_eq_true_iff] at h
    exact h.imp id fun h => ⟨rfl, h.symm⟩

theorem exists_killOutputs (h : ∀ t ∈ outs, t < s.nbTemps) (hi : i + outs.length ≤ 31) :
    ∃ st, killOutputs s i outs (mask, dead) = some st := by
  induction outs generalizing i mask dead with
  | nil => exact ⟨_, rfl⟩
  | cons t outs ih =>
    rw [length_cons] at hi
    rw [killOutputs, if_pos ⟨h t mem_cons_self, by omega⟩]
    exact ih (fun t ht => h t (.tail _ ht)) (by omega)

/-- Behind the loop the outputs are dead as well. A marked output was dead, or is an output
twice. -/
theorem killOutputs_spec (h : killOutputs s i outs (mask, dead) = some (mask', dead')) :
    (∀ t, dead' t = (dead t || decide (t ∈ outs))) ∧
      ∀ j, mask'.testBit j = true → mask.testBit j = true ∨
        ∃ k t, j = i + k ∧ outs[k]? = some t ∧ (dead t = true ∨ t ∈ outs.take k) := by
  induction outs generalizing i mask dead with
  | nil =>
    cases h
    exact ⟨fun t => by simp, fun j hj => .inl hj⟩
  | cons t₀ outs ih =>
    rw [killOutputs] at h
    split_ifs at h
    obtain ⟨hdead, hmask⟩ := ih h
    refine ⟨fun t => ?_, fun j hj => ?_⟩
    · rw [hdead, update_apply]
      by_cases ht : t = t₀ <;> simp [ht]
    · rcases hmask j hj with hj | ⟨k, t, rfl, ht, hwas⟩
      · exact (testBit_mark hj).imp id fun ⟨hd, hj⟩ => ⟨0, t₀, hj, rfl, .inl hd⟩
      · refine .inr ⟨k + 1, t, by omega, ht, ?_⟩
        rw [update_apply] at hwas
        rw [take_succ_cons, mem_cons]
        by_cases heq : t = t₀
        · exact .inr (.inl heq)
        · rw [if_neg heq] at hwas
          exact hwas.imp id .inr

theorem exists_useInputs (h : ∀ t ∈ ins, skip t = true ∨ t < s.nbTemps) (hi : i + ins.length ≤ 31) :
    ∃ st, useInputs s skip i ins (mask, dead) = some st := by
  induction ins generalizing i mask dead with
  | nil => exact ⟨_, rfl⟩
  | cons t ins ih =>
    rw [length_cons] at hi
    have htail : ∀ t ∈ ins, skip t = true ∨ t < s.nbTemps := fun t ht =>
      h t (.tail _ ht)
    rw [useInputs]
    by_cases hskip : skip t = true
    · rw [if_pos hskip]
      exact ih htail (by omega)
    · rw [if_neg hskip, if_pos ⟨(h t mem_cons_self).resolve_left hskip, by omega⟩]
      exact ih htail (by omega)

/-- In front of the loop the inputs are live. A marked input was dead. -/
theorem useInputs_spec (h : useInputs s skip i ins (mask, dead) = some (mask', dead')) :
    (∀ t, dead' t = (dead t && !decide (t ∈ ins ∧ skip t = false))) ∧
      ∀ j, mask'.testBit j = true → mask.testBit j = true ∨
        ∃ k t, j = i + k ∧ ins[k]? = some t ∧ dead t = true := by
  induction ins generalizing i mask dead with
  | nil =>
    cases h
    exact ⟨fun t => by simp, fun j hj => .inl hj⟩
  | cons t₀ ins ih =>
    rw [useInputs] at h
    split_ifs at h with hskip hbound
    · obtain ⟨hdead, hmask⟩ := ih h
      refine ⟨fun t => ?_, fun j hj => (hmask j hj).imp id fun ⟨k, t, hj, ht, hwas⟩ =>
        ⟨k + 1, t, by omega, ht, hwas⟩⟩
      rw [hdead]
      by_cases ht : t = t₀ <;> simp [ht, hskip]
    · obtain ⟨hdead, hmask⟩ := ih h
      refine ⟨fun t => ?_, fun j hj => ?_⟩
      · rw [hdead, update_apply]
        by_cases ht : t = t₀ <;> simp [ht, hskip]
      · rcases hmask j hj with hj | ⟨k, t, rfl, ht, hwas⟩
        · exact (testBit_mark hj).imp id fun ⟨hd, hj⟩ => ⟨0, t₀, hj, rfl, hd⟩
        · refine .inr ⟨k + 1, t, by omega, ht, ?_⟩
          rw [update_apply] at hwas
          split_ifs at hwas
          exact hwas

end Loops

/-! ### The walk over the buffers -/

/-- The state of the loop: the buffers, the position of `args` in its buffer, `dead_temps`, and what
is written of `op_dead_args`. -/
structure LaState where
  opcs : List Opcode
  params : List ℕ
  args : ℕ
  dead : ℕ → Bool
  deadArgs : List (Option ℕ)

/-- The parameters from `pos` to `pos + n`. -/
def slice (params : List ℕ) (pos n : ℕ) : Option (List ℕ) :=
  if pos + n ≤ params.length then some ((params.drop pos).take n) else none

/-- `tcg_set_nop`. -/
def tcgSetNop (st : LaState) (opIndex pos nbArgs : ℕ) : LaState :=
  if nbArgs = 0 then { st with opcs := st.opcs.set opIndex .nop }
  else
    { st with
      opcs := st.opcs.set opIndex .nopn
      params := (st.params.set pos nbArgs).set (pos + nbArgs - 1) nbArgs }

/-- What is done with an operation of `nbArgs` parameters at `pos`; `op_dead_args` has 16 bits. -/
def settle (st : LaState) (opIndex pos nbArgs : ℕ) (fate : Fate × (ℕ → Bool)) : LaState :=
  let st := { st with args := pos, dead := fate.2 }
  match fate.1 with
  | none => tcgSetNop st opIndex pos nbArgs
  | some deadArgs => { st with deadArgs := st.deadArgs.set opIndex (some (deadArgs % 2 ^ 16)) }

/-- The turn of a call; `args` is moved in front of its parameters by their number, which is the
last. -/
def laStepCall (st : LaState) (opIndex : ℕ) : Option LaState :=
  st.params[st.args - 1]?.bind fun nbArgs =>
    if st.args = 0 ∨ st.args < nbArgs then none
    else
      let pos := st.args - nbArgs
      st.params[pos]?.bind fun nb =>
        let nbIargs := nb &&& 0xffff
        let nbOargs := nb >>> 16
        (slice st.params (pos + 1) nbOargs).bind fun outs =>
          (slice st.params (pos + 1 + nbOargs) nbIargs).bind fun ins =>
            st.params[pos + 1 + nbOargs + nbIargs]?.bind fun flags =>
              (laCall s st.dead outs ins flags).map (settle st opIndex pos nbArgs)

/-- The turn of an operation with a fixed number of arguments. -/
def laStepDefault (st : LaState) (opIndex : ℕ) (d : OpDef) : Option LaState :=
  if st.args < d.nbArgs then none
  else
    let pos := st.args - d.nbArgs
    (slice st.params pos d.nbOargs).bind fun outs =>
      (slice st.params (pos + d.nbOargs) d.nbIargs).bind fun ins =>
        (laDefault s st.dead d outs ins).map (settle st opIndex pos d.nbArgs)

/-- One turn of the loop. -/
def laStep (st : LaState) (opIndex : ℕ) : Option LaState :=
  st.opcs[opIndex]?.bind fun op =>
    let d := tcgOpDefs s.target op
    if op = .call then laStepCall s st opIndex
    else if op = .setLabel then
      if st.args = 0 then none else some { st with args := st.args - 1, dead := tcgLaBbEnd s }
    else if op = .debugInsnStart then
      if st.args < d.nbArgs then none else some { st with args := st.args - d.nbArgs }
    else if op = .nopn then
      st.params[st.args - 1]?.bind fun nbArgs =>
        if st.args = 0 ∨ st.args < nbArgs then none else some { st with args := st.args - nbArgs }
    else if op = .discard then
      st.params[st.args - 1]?.bind fun t =>
        if st.args = 0 ∨ s.nbTemps ≤ t then none
        else some { st with args := st.args - 1, dead := update st.dead t true }
    else if op = .endOp then some st
    else laStepDefault s st opIndex d

/-- The loop, from `op_index` below `n` down to 0. -/
def laLoop : ℕ → LaState → Option LaState
  | 0, st => some st
  | n + 1, st => (laStep s st n).bind (laLoop n)

/-- `tcg_liveness_analysis`: the buffers and `op_dead_args` afterwards. -/
def tcgLivenessAnalysis (opcs : List Opcode) (params : List ℕ) :
    Option (List Opcode × List ℕ × List (Option ℕ)) :=
  (laLoop s opcs.length ⟨opcs, params, params.length, fun _ => true,
    List.replicate opcs.length none⟩).bind fun st =>
      if st.args = 0 then some (st.opcs, st.params, st.deadArgs) else none

/-! ### The walk over a list of operations -/

/-- The operation that takes the place of one that is removed. -/
def removed (op : Op) : Op :=
  let n := op.params.length
  if n = 0 then .plain .nop [] [] [] else .nopn ((op.params.set 0 n).set (n - 1) n)

/-- What a fate makes of an operation. -/
def afterFate (op : Op) (fate : Fate × (ℕ → Bool)) : Op × Option ℕ × (ℕ → Bool) :=
  match fate.1 with
  | none => (removed op, none, fate.2)
  | some deadArgs => (op, some (deadArgs % 2 ^ 16), fate.2)

/-- The analysis of one operation, from what is dead behind it. -/
def laOp (dead : ℕ → Bool) (op : Op) : Option (Op × Option ℕ × (ℕ → Bool)) :=
  match op with
  | .call outs ins flags => (laCall s dead outs ins flags).map (afterFate op)
  | .nopn _ => some (op, none, dead)
  | .plain opc outs ins _ =>
    if opc = .setLabel then some (op, none, tcgLaBbEnd s)
    else if opc = .debugInsnStart then some (op, none, dead)
    else if opc = .discard then some (op, none, fun t => dead t || decide (t ∈ outs))
    else (laDefault s dead (tcgOpDefs s.target opc) outs ins).map (afterFate op)

/-- Operations that are analysed: what has become of them, their dead arguments, and what is dead in
front of them. -/
structure Analysed where
  ops : List Op
  marks : List (Option ℕ)
  dead : ℕ → Bool

/-- One more operation in front. -/
def Analysed.cons (a : Analysed) (r : Op × Option ℕ × (ℕ → Bool)) : Analysed :=
  ⟨r.1 :: a.ops, r.2.1 :: a.marks, r.2.2⟩

/-- The analysis of a list of operations in front of others. -/
def laFold : List Op → Analysed → Option Analysed
  | [], a => some a
  | op :: ops, a => (laFold ops a).bind fun b => (laOp s b.dead op).map b.cons

theorem laFold_append (p q : List Op) (a : Analysed) :
    laFold s (p ++ q) a = (laFold s q a).bind (laFold s p) := by
  induction p with
  | nil => exact (bind_fun_some _).symm
  | cons op p ih =>
    rw [cons_append, laFold, ih, bind_assoc]
    rfl

/-- The analysis of a list of operations. -/
def laOps (ops : List Op) : Option Analysed := laFold s ops ⟨[], [], fun _ => true⟩

/-! ### The two walks agree -/

section Buffers

variable {s} {op : Op} {pre : List Op} {a b : Analysed}

/-- The state in front of which `pre` is left to do. -/
def stateAt (pre : List Op) (a : Analysed) : LaState where
  opcs := opcodes pre ++ (opcodes a.ops ++ [.endOp])
  params := opparams pre ++ opparams a.ops
  args := (opparams pre).length
  dead := a.dead
  deadArgs := List.replicate pre.length none ++ (a.marks ++ [none])

theorem opparams_append (p q : List Op) : opparams (p ++ q) = opparams p ++ opparams q :=
  flatMap_append

theorem opparams_singleton (op : Op) : opparams [op] = op.params := flatMap_singleton ..

@[simp]
theorem length_opcodes (ops : List Op) : (opcodes ops).length = ops.length := length_map _

section

variable (pre : List Op) (op : Op) (a : Analysed)

theorem opcs_stateAt :
    (stateAt (pre ++ [op]) a).opcs = opcodes pre ++ op.opcode :: (opcodes a.ops ++ [.endOp]) := by
  simp [stateAt, opcodes]

theorem params_stateAt :
    (stateAt (pre ++ [op]) a).params = opparams pre ++ (op.params ++ opparams a.ops) := by
  simp [stateAt, opparams_append, opparams_singleton]

theorem args_stateAt :
    (stateAt (pre ++ [op]) a).args = (opparams pre).length + op.params.length := by
  simp [stateAt, opparams_append, opparams_singleton]

theorem deadArgs_stateAt :
    (stateAt (pre ++ [op]) a).deadArgs =
      replicate pre.length none ++ none :: (a.marks ++ [none]) := by
  simp [stateAt, replicate_succ']

theorem opcode_stateAt : (stateAt (pre ++ [op]) a).opcs[pre.length]? = some op.opcode := by
  rw [opcs_stateAt, getElem?_append_right (length_opcodes pre).le, length_opcodes, Nat.sub_self]
  rfl

end

/-- The parameters of the operation whose turn it is. -/
theorem param_stateAt {k : ℕ} (hk : k < op.params.length) :
    (stateAt (pre ++ [op]) a).params[(opparams pre).length + k]? = op.params[k]? := by
  rw [params_stateAt, getElem?_append_right (Nat.le_add_right _ _), Nat.add_sub_cancel_left,
    getElem?_append_left hk]

theorem slice_stateAt {k n : ℕ} (hk : k + n ≤ op.params.length) :
    slice (stateAt (pre ++ [op]) a).params ((opparams pre).length + k) n =
      some ((op.params.drop k).take n) := by
  rw [slice, params_stateAt, if_pos (by simp only [length_append]; omega), ← drop_drop,
    drop_left, drop_append_of_le_length (by omega), take_append_of_le_length]
  rw [length_drop]
  omega

/-- Setting a parameter in the middle. -/
theorem set_middle {l m r : List ℕ} {k v : ℕ} (hk : k < m.length) :
    (l ++ (m ++ r)).set (l.length + k) v = l ++ (m.set k v ++ r) := by
  rw [set_append_right _ _ (Nat.le_add_right _ _), Nat.add_sub_cancel_left, set_append_left _ _ hk]

theorem set_opcs_stateAt (o : Opcode) : (stateAt (pre ++ [op]) a).opcs.set pre.length o =
    opcodes pre ++ o :: (opcodes a.ops ++ [.endOp]) := by
  rw [opcs_stateAt, set_append_right _ _ (length_opcodes pre).le, length_opcodes,
    Nat.sub_self, set_cons_zero]

/-- What is done with an operation, in the buffers. -/
theorem settle_stateAt (fate : Fate × (ℕ → Bool)) :
    settle (stateAt (pre ++ [op]) a) pre.length (opparams pre).length op.params.length fate =
      stateAt pre (a.cons (afterFate op fate)) := by
  obtain ⟨fate, dead⟩ := fate
  cases fate with
  | some deadArgs =>
    simp only [settle, afterFate, Analysed.cons, stateAt, LaState.mk.injEq]
    simp [opcodes, opparams, replicate_succ']
  | none =>
    simp only [settle, tcgSetNop, afterFate, removed, Analysed.cons]
    by_cases hzero : op.params.length = 0
    · have hnil : op.params = [] := length_eq_zero_iff.mp hzero
      rw [if_pos hzero, if_pos hzero, set_opcs_stateAt, params_stateAt, deadArgs_stateAt, hnil]
      rfl
    · have hlast : (opparams pre).length + op.params.length - 1 =
          (opparams pre).length + (op.params.length - 1) := by omega
      have hfirst : (opparams pre ++ (op.params ++ opparams a.ops)).set (opparams pre).length
          op.params.length = opparams pre ++ (op.params.set 0 op.params.length ++ opparams a.ops) :=
        set_middle (k := 0) (by omega)
      rw [if_neg hzero, if_neg hzero, set_opcs_stateAt, params_stateAt, deadArgs_stateAt, hfirst,
        hlast, set_middle (by rw [length_set]; omega)]
      rfl

/-- The numbers of outputs and inputs share a word. -/
theorem nb_decode {o i : ℕ} (h : i < 2 ^ 16) :
    (o <<< 16 ||| i) >>> 16 = o ∧ (o <<< 16 ||| i) &&& 0xffff = i := by
  have hmask : ∀ n : ℕ, n &&& 0xffff = n % 2 ^ 16 := fun n => Nat.and_two_pow_sub_one_eq_mod n 16
  rw [hmask, ← Nat.shiftLeft_add_eq_or_of_lt h, Nat.shiftLeft_eq, Nat.shiftRight_eq_div_pow]
  omega

theorem laStepCall_stateAt {outs ins : List ℕ} {flags : ℕ} (hok : (Op.call outs ins flags).Ok s) :
    laStepCall s (stateAt (pre ++ [.call outs ins flags]) a) pre.length =
      (laCall s a.dead outs ins flags).map fun fate =>
        stateAt pre (a.cons (afterFate (.call outs ins flags) fate)) := by
  have hlen : (Op.call outs ins flags).params.length = outs.length + ins.length + 3 := by
    simp [Op.params]
    omega
  have hsmall : ins.length < 2 ^ 16 := by
    have := hok.1
    rw [maxOpcParam] at this
    omega
  have hdead : (stateAt (pre ++ [.call outs ins flags]) a).dead = a.dead := rfl
  have hargs := args_stateAt pre (.call outs ins flags) a
  rw [hlen] at hargs
  have htotal : (stateAt (pre ++ [.call outs ins flags]) a).params[(stateAt (pre ++
      [.call outs ins flags]) a).args - 1]? = some (outs.length + ins.length + 3) := by
    have hpos : (opparams pre).length + (outs.length + ins.length + 3) - 1 =
        (opparams pre).length + (outs.length + ins.length + 2) := by omega
    rw [hargs, hpos, param_stateAt (by omega), Op.params, getElem?_cons_succ,
      getElem?_append_right (by simp)]
    simp
  have hnb : (stateAt (pre ++ [.call outs ins flags]) a).params[(opparams pre).length]? =
      some (outs.length <<< 16 ||| ins.length) := by
    have hzero : 0 < (Op.call outs ins flags).params.length := by omega
    exact param_stateAt hzero
  have houts : slice (stateAt (pre ++ [.call outs ins flags]) a).params ((opparams pre).length + 1)
      outs.length = some outs := by
    rw [slice_stateAt (by omega)]
    simp [Op.params]
  have hins : slice (stateAt (pre ++ [.call outs ins flags]) a).params
      ((opparams pre).length + 1 + outs.length) ins.length = some ins := by
    rw [add_assoc, slice_stateAt (by omega)]
    simp [Op.params, Nat.add_comm 1]
  have hflags : (stateAt (pre ++ [.call outs ins flags]) a).params[(opparams pre).length + 1 +
      outs.length + ins.length]? = some flags := by
    rw [add_assoc, add_assoc, param_stateAt (by omega)]
    simp [Op.params, Nat.add_comm 1]
  have hback : (opparams pre).length + (outs.length + ins.length + 3) -
      (outs.length + ins.length + 3) = (opparams pre).length := by omega
  obtain ⟨hhigh, hlow⟩ := nb_decode (o := outs.length) hsmall
  rw [laStepCall, htotal, bind_some, if_neg (by rw [hargs]; omega), hargs]
  dsimp only
  rw [hback, hnb, bind_some, hhigh, hlow, houts, bind_some, hins, bind_some,
    hflags, bind_some, hdead, ← hlen]
  refine congrArg (Option.map · _) (funext fun fate => settle_stateAt fate)

theorem laStepDefault_stateAt {opc : Opcode} {outs ins consts : List ℕ}
    (hok : (Op.plain opc outs ins consts).Ok s) :
    laStepDefault s (stateAt (pre ++ [.plain opc outs ins consts]) a) pre.length
        (tcgOpDefs s.target opc) =
      (laDefault s a.dead (tcgOpDefs s.target opc) outs ins).map fun fate =>
        stateAt pre (a.cons (afterFate (.plain opc outs ins consts) fate)) := by
  obtain ⟨-, -, -, ho, hi, hc, -⟩ := hok
  set d := tcgOpDefs s.target opc
  have hlen : (Op.plain opc outs ins consts).params.length = d.nbArgs := by
    simp only [Op.params, length_append, OpDef.nbArgs]
    omega
  have hdead : (stateAt (pre ++ [.plain opc outs ins consts]) a).dead = a.dead := rfl
  have hargs := args_stateAt pre (.plain opc outs ins consts) a
  rw [hlen] at hargs
  have hle : d.nbOargs + d.nbIargs ≤ d.nbArgs := Nat.le_add_right _ _
  have houts : slice (stateAt (pre ++ [.plain opc outs ins consts]) a).params (opparams pre).length
      d.nbOargs = some outs := by
    have hzero : 0 + d.nbOargs ≤ (Op.plain opc outs ins consts).params.length := by omega
    rw [← Nat.add_zero (opparams pre).length, slice_stateAt hzero, ← ho]
    simp [Op.params]
  have hins : slice (stateAt (pre ++ [.plain opc outs ins consts]) a).params
      ((opparams pre).length + d.nbOargs) d.nbIargs = some ins := by
    rw [slice_stateAt (by omega), ← ho, ← hi]
    simp [Op.params]
  have hback : (opparams pre).length + d.nbArgs - d.nbArgs = (opparams pre).length :=
    Nat.add_sub_cancel ..
  rw [laStepDefault, if_neg (by rw [hargs]; omega), hargs]
  dsimp only
  rw [hback, houts, bind_some, hins, bind_some, hdead, ← hlen]
  refine congrArg (Option.map · _) (funext fun fate => settle_stateAt fate)

/-- An operation that is left as it is, without marks. -/
theorem stateAt_skip (dead : ℕ → Bool) :
    { stateAt (pre ++ [op]) a with args := (opparams pre).length, dead := dead } =
      stateAt pre (a.cons (op, none, dead)) := by
  simp [stateAt, Analysed.cons, opcodes, opparams, replicate_succ']

/-- **One turn of the loop** analyses the last operation that is left. -/
theorem laStep_stateAt (hok : op.Ok s) :
    laStep s (stateAt (pre ++ [op]) a) pre.length =
      (laOp s a.dead op).map fun r => stateAt pre (a.cons r) := by
  have hdead : (stateAt (pre ++ [op]) a).dead = a.dead := rfl
  have hargs := args_stateAt pre op a
  rw [laStep, opcode_stateAt, bind_some]
  cases op with
  | call outs ins flags =>
    rw [Op.opcode, if_pos rfl, laStepCall_stateAt hok, laOp, Option.map_map]
    rfl
  | nopn params =>
    obtain ⟨hne, -, hlast⟩ := hok
    have hpos := length_pos_iff.mpr hne
    have hparams : (Op.nopn params).params = params := rfl
    have htotal : (stateAt (pre ++ [.nopn params]) a).params[(stateAt (pre ++
        [.nopn params]) a).args - 1]? = some params.length := by
      have heq : (opparams pre).length + params.length - 1 =
          (opparams pre).length + (params.length - 1) := by omega
      rw [hargs, hparams, heq, param_stateAt (by rw [hparams]; omega), hparams,
        ← getLast?_eq_getElem?, hlast]
    rw [Op.opcode, if_neg (by decide), if_neg (by decide), if_neg (by decide), if_pos rfl, htotal,
      bind_some, if_neg (by rw [hargs, hparams]; omega), laOp, map_some, ← stateAt_skip,
      hargs, hparams, Nat.add_sub_cancel, ← hdead]
  | plain opc outs ins consts =>
    obtain ⟨hcall, hnopn, hend, ho, hi, hc, hout, hin⟩ := hok
    rw [Op.opcode, if_neg hcall, laOp]
    by_cases hlabel : opc = .setLabel
    · subst hlabel
      have hone : (Op.plain .setLabel outs ins consts).params.length = 1 := by
        simp only [Op.params, length_append, ho, hi, hc]
        rfl
      rw [if_pos rfl, if_pos rfl, if_neg (by omega), map_some, ← stateAt_skip, hargs, hone,
        Nat.add_sub_cancel]
    rw [if_neg hlabel, if_neg hlabel]
    by_cases hdebug : opc = .debugInsnStart
    · subst hdebug
      have hall : (Op.plain .debugInsnStart outs ins consts).params.length =
          (tcgOpDefs s.target .debugInsnStart).nbArgs := by
        simp only [Op.params, length_append, ho, hi, hc, OpDef.nbArgs]
      rw [if_pos rfl, if_pos rfl, if_neg (by omega), map_some, ← stateAt_skip, hargs, hall,
        Nat.add_sub_cancel, ← hdead]
    rw [if_neg hdebug, if_neg hdebug, if_neg hnopn]
    by_cases hdiscard : opc = .discard
    · subst hdiscard
      obtain ⟨t, rfl⟩ : ∃ t, outs = [t] := length_eq_one_iff.mp ho
      obtain rfl : ins = [] := length_eq_zero_iff.mp hi
      obtain rfl : consts = [] := length_eq_zero_iff.mp hc
      have hparam : (stateAt (pre ++ [.plain .discard [t] [] []]) a).params[(stateAt (pre ++
          [.plain .discard [t] [] []]) a).args - 1]? = some t := by
        have hzero : 0 < (Op.plain .discard [t] [] []).params.length := Nat.one_pos
        rw [hargs]
        exact param_stateAt hzero
      have ht : t < s.nbTemps := hout t (.head _)
      have hupdate : update a.dead t true = fun u => a.dead u || decide (u ∈ [t]) := by
        funext u
        rw [update_apply]
        by_cases hu : u = t <;> simp [hu]
      rw [if_pos rfl, if_pos rfl, hparam, bind_some, if_neg (by
        rw [hargs]
        simp only [Op.params, length_append, length_singleton]
        omega), map_some, ← stateAt_skip, hargs, ← hupdate, ← hdead]
      rfl
    rw [if_neg hdiscard, if_neg hdiscard, if_neg hend,
      laStepDefault_stateAt ⟨hcall, hnopn, hend, ho, hi, hc, hout, hin⟩, Option.map_map]
    rfl

/-- The whole loop. -/
theorem laLoop_stateAt (hok : ∀ op ∈ pre, op.Ok s) :
    laLoop s pre.length (stateAt pre a) = (laFold s pre a).map (stateAt []) := by
  induction pre using reverseRecOn generalizing a with
  | nil => rfl
  | append_singleton pre op ih =>
    have hop := hok op (mem_append_right _ (.head _))
    rw [length_append, length_singleton, laLoop, laStep_stateAt hop, laFold_append]
    cases hr : laOp s a.dead op with
    | none => simp [laFold, hr]
    | some r =>
      rw [map_some, bind_some, ih fun op hop => hok op (mem_append_left _ hop)]
      simp [laFold, hr]

theorem laStep_endOp (ops : List Op) (a : Analysed) (ha : a.ops = []) :
    laStep s (stateAt ops a) ops.length = some (stateAt ops a) := by
  have hop : (stateAt ops a).opcs[ops.length]? = some .endOp := by
    simp only [stateAt, ha]
    rw [getElem?_append_right (length_opcodes ops).le, length_opcodes, Nat.sub_self]
    rfl
  rw [laStep, hop, bind_some]
  rfl

/-- **The analysis of the buffers is the analysis of the operations** that they stand for. -/
theorem tcgLivenessAnalysis_eq {ops : List Op} (hok : ∀ op ∈ ops, op.Ok s) :
    tcgLivenessAnalysis s (opcodes ops ++ [.endOp]) (opparams ops) =
      (laOps s ops).map fun a =>
      (opcodes a.ops ++ [.endOp], opparams a.ops, a.marks ++ [none]) := by
  have hstart : (⟨opcodes ops ++ [.endOp], opparams ops, (opparams ops).length, fun _ => true,
      replicate (opcodes ops ++ [Opcode.endOp]).length none⟩ : LaState) =
        stateAt ops ⟨[], [], fun _ => true⟩ := by
    simp [stateAt, opcodes, opparams, replicate_succ']
  rw [tcgLivenessAnalysis, hstart, length_append, length_opcodes, length_singleton, laLoop,
    laStep_endOp ops _ rfl, bind_some, laLoop_stateAt hok, ← laOps]
  cases laOps s ops <;> rfl

end Buffers

end VariabilityTestbed.Tcg
