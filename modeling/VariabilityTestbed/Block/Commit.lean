import Mathlib.Data.Int.Notation
import Mathlib.Data.Nat.Notation
import Mathlib.Tactic.SplitIfs

/-!
# Committing an image to its backing file

`bdrv_commit` copies the allocated sectors of an image to the backing file, which it opens anew for
writing if it was open for reading only. Behind `ro_cleanup` the file is opened for reading again,
and what that returns is put into the same `ret` that has the error of a read or a write: with a
backing file that was read-only, a failed commit returns 0.

The failures of the image and of the files, and the lengths of the extents, are given.
-/

namespace VariabilityTestbed.Block

open List

/-- An image, and what the functions that `bdrv_commit` calls do. Answers that differ from call to
call are numbered by the rounds of the loop. -/
structure Commit (α : Type) where
  /-- `bs->drv` and `bs->backing_hd` are not `NULL`. -/
  drv : Bool
  hasBacking : Bool
  keepReadOnly : Bool
  readOnly : Bool
  totalSectors : ℕ
  allocated : ℕ → Bool
  data : ℕ → α
  backing : ℕ → α
  /-- How far `bdrv_is_allocated` looks; 0 if it fails, as in `qcow2_is_allocated`. -/
  look : ℕ → ℕ
  readOk : ℕ → Bool
  writeOk : ℕ → Bool
  /-- The sectors that a failed write has written. -/
  torn : ℕ → ℕ → Bool
  /-- What `bdrv_make_empty` returns, if the driver has it, and the sectors that it leaves
  allocated. -/
  makeEmpty : Option ℤ
  kept : ℕ → Bool
  /-- What `bdrv_open` returns: for writing, for reading if that failed, and for reading at the
  end. -/
  openRw : ℤ
  openBack : ℤ
  openRo : ℤ

namespace Commit

variable {α : Type} (c : Commit α)

/-! ### The code -/

/-- What the guest reads, with the image's allocation and the backing file as they are now. -/
def view (allocated : ℕ → Bool) (backing : ℕ → α) (s : ℕ) : α :=
  if allocated s then c.data s else backing s

/-- `bdrv_is_allocated` with `COMMIT_BUF_SECTORS`: the answer, and the number of sectors it holds
for. -/
def isAllocated (k sector : ℕ) : Bool × ℕ :=
  (decide (0 < c.look k) && c.allocated sector,
    ((List.range (min (c.look k) 2048)).takeWhile fun i =>
    c.allocated (sector + i) == c.allocated sector).length)

/-- The loop of `bdrv_commit`, in round `k`: whether it came to its end, the backing file, and the
sectors that were written without an error. -/
def commitLoop : ℕ → ℕ → ℕ → (ℕ → α) → (ℕ → Bool) → Option (Bool × (ℕ → α) × (ℕ → Bool))
  | 0, _, _, _, _ => none
  | fuel + 1, k, sector, b, w =>
    if sector < c.totalSectors then
      let n := (c.isAllocated k sector).2
      if (c.isAllocated k sector).1 then
        if c.readOk k then
          let buf := c.view c.allocated b
          if c.writeOk k then
            commitLoop fuel (k + 1) (sector + n) (fun s => if sector ≤ s ∧ s < sector + n then
              buf s else b s)
              (fun s => if sector ≤ s ∧ s < sector + n then true else w s)
          else some (false, fun s => if (sector ≤ s ∧ s < sector + n) ∧ c.torn k s then
            buf s else b s, w)
        else some (false, b, w)
      else commitLoop fuel (k + 1) (sector + n) b w
    else some (true, b, w)

/-- What `bdrv_commit` returns and leaves. -/
structure Outcome (α : Type) where
  ret : ℤ
  drv : Bool
  allocated : ℕ → Bool
  backing : ℕ → α
  written : ℕ → Bool

/-- The code behind `ro_cleanup`. -/
def roCleanup (ret : ℤ) (allocated : ℕ → Bool) (b : ℕ → α) (w : ℕ → Bool) : Outcome α :=
  if c.readOnly then ⟨c.openRo, decide (0 ≤ c.openRo), allocated, b, w⟩
  else ⟨ret, true, allocated, b, w⟩

/-- `bdrv_commit`. -/
def commit (fuel : ℕ) : Option (Outcome α) :=
  let unchanged (ret : ℤ) (drv : Bool) : Outcome α :=
    ⟨ret, drv, c.allocated, c.backing, fun _ => false⟩
  if !c.drv then some (unchanged (-123) false)
  else if !c.hasBacking then some (unchanged (-95) true)
  else if c.keepReadOnly then some (unchanged (-13) true)
  else if c.readOnly ∧ c.openRw < 0 then
    if c.openBack < 0 then some (unchanged c.openBack false) else some (unchanged c.openRw true)
  else
    match c.commitLoop fuel 0 0 c.backing fun _ => false with
    | none => none
    | some (false, b, w) => some (c.roCleanup (-5) c.allocated b w)
    | some (true, b, w) =>
      match c.makeEmpty with
      | none => some (c.roCleanup 0 c.allocated b w)
      | some ret => some (c.roCleanup ret (fun s => c.allocated s && c.kept s) b w)

/-- **What is wanted.** If the call returns 0, then each allocated sector was written, and the
backing file has its contents; and as long as the drive works, the guest reads what it read
before. -/
def Sound : Prop :=
  ∀ fuel r, c.commit fuel = some r →
    (r.ret = 0 → ∀ s < c.totalSectors, c.allocated s → r.written s ∧ r.backing s = c.data s) ∧
      (r.drv → ∀ s < c.totalSectors, c.view r.allocated r.backing s =
      c.view c.allocated c.backing s)

/-- The loop was entered, and a read or a write failed. -/
def Failed (fuel : ℕ) : Prop :=
  (c.drv ∧ c.hasBacking ∧ ¬ c.keepReadOnly ∧ ¬ (c.readOnly ∧ c.openRw < 0)) ∧
    ∃ b w, c.commitLoop fuel 0 0 c.backing (fun _ => false) = some (false, b, w)

/-! ### Rounds -/

variable {c} {k sector fuel : ℕ} {b b' : ℕ → α} {w w' : ℕ → Bool} {ok : Bool}

/-- All sectors of an extent are allocated, or none is. -/
theorem allocated_of_mem_extent {s : ℕ} (h : sector ≤ s ∧ s < sector + (c.isAllocated k sector).2) :
    (c.isAllocated k sector).1 = c.allocated s := by
  obtain ⟨i, rfl⟩ := Nat.exists_eq_add_of_le h.1
  have hi := Nat.lt_of_add_lt_add_left h.2
  have hpre := takeWhile_prefix (l := range (min (c.look k) 2048))
    fun i => c.allocated (sector + i) == c.allocated sector
  have hmem := all_takeWhile (l := range (min (c.look k) 2048))
    (p := fun i => c.allocated (sector + i) == c.allocated sector)
  rw [all_eq_true] at hmem
  have hlen := hpre.length_le
  have hget := hpre.getElem hi
  specialize hmem _ (getElem_mem hi)
  simp only [isAllocated] at hi
  simp only [hget, getElem_range, beq_iff_eq] at hmem
  rw [length_range] at hlen
  rw [isAllocated, hmem, decide_eq_true (by omega), Bool.true_and]

/-- What holds when the loop is at `sector`. -/
structure Progress (c : Commit α) (sector : ℕ) (b : ℕ → α) (w : ℕ → Bool) : Prop where
  covered : ∀ s < sector, c.allocated s → w s
  below : ∀ s, w s → s < sector
  contents : ∀ s, w s → b s = c.data s
  others : ∀ s, c.allocated s = false → b s = c.backing s

/-- **The loop.** What was written has the contents of the image, other sectors of the backing file
that the guest sees are untouched, and all is written exactly if there was no failure. -/
theorem commitLoop_spec (h : c.commitLoop fuel k sector b w = some (ok, b', w'))
    (hp : Progress c sector b w) :
    (∀ s, w' s → b' s = c.data s) ∧ (∀ s, c.allocated s = false → b' s = c.backing s) ∧
      (ok = true ↔ ∀ s < c.totalSectors, c.allocated s → w' s) := by
  obtain ⟨hcov, hbelow, hcont, hoth⟩ := hp
  induction fuel generalizing k sector b w with
  | zero => cases h
  | succ fuel ih =>
    have hext := @allocated_of_mem_extent _ c k sector
    have hself : (c.isAllocated k sector).1 → c.allocated sector := by simp [isAllocated]
    rw [commitLoop] at h
    dsimp only at h
    generalize c.isAllocated k sector = ext at h hext hself
    split_ifs at h with hlt hal hread hwrite
    · refine ih h ?_ ?_ ?_ ?_ <;> grind [view]
    · grind [view]
    · grind
    · refine ih h ?_ ?_ ?_ ?_ <;> grind
    · grind

theorem progress_start (c : Commit α) : Progress c 0 c.backing fun _ => false := by
  constructor <;> simp

/-! ### What 0 means -/

/-- **Committing.** A commit is sound exactly if no read or write fails, or the backing file was not
read-only, or opening it again does not return 0. -/
theorem commit_sound_iff (c : Commit α) :
    c.Sound ↔ ∀ fuel, c.Failed fuel → c.readOnly = true → c.openRo ≠ 0 := by
  constructor
  · rintro h fuel ⟨hstart, b, w, hloop⟩ hro hret
    have hw := (commitLoop_spec hloop (progress_start c)).2.2
    have hs := h fuel (c.roCleanup (-5) c.allocated b w) (by grind [commit])
    rw [roCleanup, if_pos hro] at hs
    exact Bool.false_ne_true (hw.2 fun s hlt hal => (hs.1 hret s hlt hal).1)
  · intro h fuel r hr
    unfold commit at hr
    dsimp only at hr
    split_ifs at hr with hdrv hback hkeep hopen hfail
    iterate 5
      · cases hr
        grind
    have hmasked := h fuel
    split at hr
    case _ => cases hr
    case _ b w hloop =>
      -- a failure shows in what is returned
      have hspec := commitLoop_spec hloop (progress_start c)
      have hret := hmasked ⟨⟨by simpa using hdrv, by simpa using hback, hkeep, hopen⟩, b, w, hloop⟩
      cases hr
      grind [roCleanup, view]
    case _ b w hloop =>
      have hspec := commitLoop_spec hloop (progress_start c)
      split at hr <;> cases hr <;> grind [roCleanup, view]

/-- One allocated sector, a backing file that was open for reading only, and a write that fails. -/
def faultyWrite : Commit ℕ where
  drv := true
  hasBacking := true
  keepReadOnly := false
  readOnly := true
  totalSectors := 1
  allocated := fun _ => true
  data := fun _ => 1
  backing := fun _ => 0
  look := fun _ => 1
  readOk := fun _ => true
  writeOk := fun _ => false
  torn := fun _ _ => false
  makeEmpty := none
  kept := fun _ => true
  openRw := 0
  openBack := 0
  openRo := 0

/-- The file is opened for reading again, and the call returns 0. -/
theorem commit_not_sound : ∃ r, faultyWrite.commit 1 = some r ∧ r.ret = 0 ∧
    faultyWrite.allocated 0 = true ∧
    r.written 0 = false ∧ r.backing 0 ≠ faultyWrite.data 0 :=
  ⟨_, rfl, rfl, rfl, rfl, by decide⟩

end Commit

end VariabilityTestbed.Block
