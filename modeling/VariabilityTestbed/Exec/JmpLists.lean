import Mathlib.Data.Finset.Card
import VariabilityTestbed.Lib.Rings
import VariabilityTestbed.Lib.Runs

/-!
# Chained blocks

The code of a block ends in up to two jumps. `tb_add_jump` patches one of them so that it leads
straight to the code of another block, and enters the jump into a list of that other block, so
that it can be found and undone when the other block goes away. The list of a block `t` starts in
`t->jmp_first`, runs through the fields `jmp_next[n]` of the blocks that jump to `t` and ends with
a pointer back to `t`. The two low bits of each pointer say which field it continues in: `0` and
`1` for `jmp_next[0]` and `jmp_next[1]`, `2` for `jmp_first`.

A tagged pointer thus names a field, and a field holds a tagged pointer or `NULL`. `JmpLink` is the
type of both, and the fields of all blocks are one memory `cell`.

## Memory

The blocks are entries of an array that is never cleared. A block that is not `live` has whatever
was left in its fields; nothing is assumed about them.

## Loops

The loops of the source run until they find what they look for. Here they run for as many rounds
as there can be fields on the lists of live blocks, and have no result when that is not enough or
when they would follow `NULL`. That neither happens in any state that can be reached is part of
what is proved.
-/

namespace VariabilityTestbed.Exec

open Function Rings

/-- A tagged pointer to a block, or the field of the block that it stands for. -/
inductive JmpLink where
  /-- Tag `n`: the field `jmp_next[n]`. -/
  | next (tb : ℕ) (n : Fin 2)
  /-- Tag `2`: the field `jmp_first`. -/
  | first (tb : ℕ)
  deriving DecidableEq, Repr

/-- Where the native jump of a block leads. -/
inductive Target where
  /-- The code has no such jump (`tb_next_offset[n] == 0xffff`). -/
  | absent
  /-- To the end of the block's own code. -/
  | reset
  /-- To the code of another block. -/
  | code (tb : ℕ)
  deriving DecidableEq, Repr

/-- The lists and the native jumps of all blocks. -/
@[ext] structure JmpState where
  cell : JmpLink → Option JmpLink
  target : ℕ → Fin 2 → Target
  /-- The blocks that have been linked and not been invalidated or flushed. -/
  live : Finset ℕ

/-- How long a loop over fields of live blocks can be. -/
def JmpState.bound (s : JmpState) : ℕ := 2 * s.live.card + 2

/-! ### The code -/

/-- A table with two entries for each block, changed in one of them. -/
def setJump {β : Type*} (f : ℕ → Fin 2 → β) (tb : ℕ) (n : Fin 2) (b : β) : ℕ → Fin 2 → β :=
  fun u m => if u = tb ∧ m = n then b else f u m

/-- `tb_reset_jump`. -/
def tbResetJump (s : JmpState) (tb : ℕ) (n : Fin 2) : JmpState :=
  { s with target := setJump s.target tb n .reset }

/-- `tb_link_page`, as far as it concerns jumps. `hasJump` says which of the two jumps the code of
the block has. -/
def tbLinkPage (s : JmpState) (tb : ℕ) (hasJump : Fin 2 → Bool) : JmpState where
  cell := update (update (update s.cell
    (.first tb) (some (.first tb))) (.next tb 0) none) (.next tb 1) none
  target := update s.target tb fun n => if hasJump n then .reset else .absent
  live := insert tb s.live

/-- `tb_add_jump`. -/
def tbAddJump (s : JmpState) (tb : ℕ) (n : Fin 2) (tbNext : ℕ) : JmpState :=
  if s.cell (.next tb n) = none then
    { s with
      target := setJump s.target tb n (.code tbNext)
      cell := update (update s.cell (.next tb n) (s.cell (.first tbNext)))
        (.first tbNext) (some (.next tb n)) }
  else s

/-- The two assignments that take a field out of its list, once the field `p` in front of it is
known: `*ptb = tb->jmp_next[n]` and `tb->jmp_next[n] = NULL`. -/
def unlink (s : JmpState) (p x : JmpLink) : JmpState :=
  { s with cell := update (update s.cell p (s.cell x)) x none }

/-- `tb_jmp_remove`: the search goes around the list and passes its head. -/
def tbJmpRemove (s : JmpState) (tb : ℕ) (n : Fin 2) : Option JmpState :=
  if s.cell (.next tb n) = none then some s
  else (findPred s.cell (fun _ => true) (.next tb n) s.bound (.next tb n)).map fun p =>
    unlink s p (.next tb n)

/-- The loop of `tb_phys_invalidate` over the jumps to a block. -/
def suppressJumps : ℕ → JmpState → JmpLink → Option JmpState
  | 0, _, _ => none
  | _ + 1, s, .first _ => some s
  | fuel + 1, s, .next tb n =>
    match s.cell (.next tb n) with
    | none => none
    | some tb2 =>
      let s := tbResetJump s tb n
      suppressJumps fuel { s with cell := update s.cell (.next tb n) none } tb2

/-- `tb_phys_invalidate`, as far as it concerns jumps. -/
def tbPhysInvalidate (s : JmpState) (tb : ℕ) : Option JmpState := do
  let s ← tbJmpRemove s tb 0
  let s ← tbJmpRemove s tb 1
  let tb1 ← s.cell (.first tb)
  let s ← suppressJumps s.bound s tb1
  return { s with
    cell := update s.cell (.first tb) (some (.first tb))
    live := s.live.erase tb }

/-- The loop of `tb_reset_jump_recursive2` that finds the head of a list. -/
def findHead (cell : JmpLink → Option JmpLink) : ℕ → JmpLink → Option ℕ
  | 0, _ => none
  | _ + 1, .first tb => some tb
  | fuel + 1, .next tb n => (cell (.next tb n)).bind (findHead cell fuel)

/-- The second loop of `tb_reset_jump_recursive2` goes on in `jmp_next` only. -/
def JmpLink.isNext : JmpLink → Bool
  | .next _ _ => true
  | .first _ => false

/-- `tb_reset_jump_recursive2`, given `tb_reset_jump_recursive`. -/
def tbResetJumpRecursive2 (recursive : JmpState → ℕ → Option JmpState) (s : JmpState) (tb : ℕ)
    (n : Fin 2) : Option JmpState :=
  match s.cell (.next tb n) with
  | none => some s
  | some tb1 => do
    let tbNext ← findHead s.cell s.bound tb1
    let p ← findPred s.cell JmpLink.isNext (.next tb n) s.bound (.first tbNext)
    recursive (tbResetJump (unlink s p (.next tb n)) tb n) tbNext

/-- `tb_reset_jump_recursive`, to a depth of `fuel` calls. -/
def tbResetJumpRecursive : ℕ → JmpState → ℕ → Option JmpState
  | 0, _, _ => none
  | fuel + 1, s, tb =>
    (tbResetJumpRecursive2 (tbResetJumpRecursive fuel) s tb 0).bind fun s =>
      tbResetJumpRecursive2 (tbResetJumpRecursive fuel) s tb 1

/-! ### Operations -/

/-- What happens to the lists. -/
inductive JmpOp where
  | tbLinkPage (tb : ℕ) (hasJump : Fin 2 → Bool)
  | tbAddJump (tb : ℕ) (n : Fin 2) (tbNext : ℕ)
  | tbPhysInvalidate (tb : ℕ)
  | tbResetJumpRecursive (tb : ℕ)
  | tbFlush

/-- When an operation is called: a block is linked when it is new, everything else is done to live
blocks, and only a jump that the code has is patched. The block that is being executed may have been
invalidated meanwhile; `tb_reset_jump_recursive` can be called for it, and its fields are `NULL`. -/
def JmpOp.Enabled (s : JmpState) : JmpOp → Prop
  | .tbLinkPage tb _ => tb ∉ s.live
  | .tbAddJump tb n tbNext => tb ∈ s.live ∧ tbNext ∈ s.live ∧ s.target tb n ≠ .absent
  | .tbPhysInvalidate tb => tb ∈ s.live
  | .tbResetJumpRecursive tb => tb ∈ s.live ∨ ∀ n, s.cell (.next tb n) = none
  | .tbFlush => True

instance (s : JmpState) (op : JmpOp) : Decidable (op.Enabled s) := by
  cases op <;> unfold JmpOp.Enabled <;> infer_instance

/-- One operation. A flush takes away all blocks and leaves their memory alone. -/
def jmpStep (s : JmpState) (op : JmpOp) : Option JmpState :=
  if op.Enabled s then
    match op with
    | .tbLinkPage tb hasJump => some (Exec.tbLinkPage s tb hasJump)
    | .tbAddJump tb n tbNext => some (Exec.tbAddJump s tb n tbNext)
    | .tbPhysInvalidate tb => Exec.tbPhysInvalidate s tb
    | .tbResetJumpRecursive tb => Exec.tbResetJumpRecursive s.bound s tb
    | .tbFlush => some { s with live := ∅ }
  else none

/-- Program start: no blocks, and memory with any contents. -/
def initJmpState (cell : JmpLink → Option JmpLink) (target : ℕ → Fin 2 → Target) : JmpState :=
  ⟨cell, target, ∅⟩

end VariabilityTestbed.Exec
