import VariabilityTestbed.Block.ClusterOffset
import VariabilityTestbed.Lib.BigEndian

/-!
# Updating the refcounts of a snapshot

`qcow2_update_snapshot_refcount` walks over an L1 table and its L2 tables, changes refcounts by
`addend`, and sets `QCOW_OFLAG_COPIED` where a refcount has become 1. All errors go to the label
`fail`, behind which the L1 table is written back if it was changed. If that write fails, the code
goes to `fail` once more: it does not set `ret`, does not forget that the table was changed, and
turns the bytes of the entries again. With an error that persists this never ends, and with one that
does not, the caller gets what `ret` was.

What the cache, the refcounts and the file answer is given.
-/

namespace VariabilityTestbed.Block

open BigEndian

/-- A call, with what the functions that it calls return: reading the L1 table; for each entry of it
the L2 table, `qcow2_cache_put` and the refcount of the L2 table, and for each entry of the L2 table
the refcount or error; and whether the attempts to write the L1 table succeed. -/
structure SnapshotUpdate where
  /-- `cpu_to_be64`, which is its own inverse. -/
  swap : UInt64 → UInt64
  swap_swap : ∀ w, swap (swap w) = w
  /-- The table is that of the active image, `s->l1_table`. -/
  active : Bool
  l1 : List UInt64
  addend : ℤ
  read : Bool
  l2 : ℕ → Except ℕ (List UInt64)
  put : ℕ → ℤ
  l1Refcount : ℕ → ℤ
  l2Refcount : ℕ → ℕ → ℤ
  write : ℕ → Bool

namespace SnapshotUpdate

variable (u : SnapshotUpdate)

/-! ### The code -/

/-- An entry of the `i`-th L2 table: the value of `ret` at `fail`, if it goes there. For compressed
data the error is in a variable of its own, and `ret` is still that of `qcow2_cache_get`. -/
def l2Entry (i j : ℕ) (e : UInt64) : Option ℤ :=
  if e = 0 then none
  else if IsCompressed (maskEntry true e) then if u.addend ≠ 0 ∧ u.l2Refcount i j < 0 then
    some 0 else none
  else if u.l2Refcount i j < 0 then some (-5)
  else none

/-- The `i`-th entry of the L1 table: what it becomes, or the value of `ret` at `fail`. -/
def l1Entry (i : ℕ) (e : UInt64) : Except ℤ UInt64 :=
  if e = 0 then .ok e
  else
    match u.l2 i with
    | .error n => .error (Int.negSucc n)
    | .ok t =>
      match t.zipIdx.findSome? fun x => u.l2Entry i x.2 x.1 with
      | some ret => .error ret
      | none =>
        if u.put i < 0 then .error (u.put i)
        else if u.l1Refcount i < 0 then .error (-5)
        else .ok (UInt64.ofNat (maskEntry true e + if u.l1Refcount i = 1 then 2 ^ 63 else 0))

/-- The loop over the L1 table: the table, whether it was changed, and `ret` at `fail`. -/
def walk : ℕ → List UInt64 → List UInt64 × Bool × ℤ
  | _, [] => ([], false, 0)
  | i, e :: es =>
    match u.l1Entry i e with
    | .error ret => (e :: es, false, ret)
    | .ok e' =>
      let r := walk (i + 1) es
      (e' :: r.1, e' != e || r.2.1, r.2.2)

/-- What comes to `fail`. -/
def atFail : List UInt64 × Bool × ℤ :=
  if u.active || u.read then u.walk 0 u.l1 else (u.l1, false, -5)

/-- The code behind `fail` for the `k`-th time, with the L1 table as it is then. -/
def cleanup (modified : Bool) (ret : ℤ) : ℕ → ℕ → List UInt64 → Option (ℤ × List UInt64)
  | 0, _, _ => none
  | fuel + 1, k, l1 =>
    if modified then
      let l1 := l1.map u.swap
      if u.write k then some (ret, l1.map u.swap) else cleanup modified ret fuel (k + 1) l1
    else some (ret, l1)

/-- `qcow2_update_snapshot_refcount`: what it returns, and the L1 table. -/
def update (fuel : ℕ) : Option (ℤ × List UInt64) :=
  u.cleanup u.atFail.2.1 u.atFail.2.2 fuel 0 u.atFail.1

/-- **What is wanted.** The call returns; it returns a negative value if a write of the L1 table
failed; and the table of the active image has the entries that the loop made, in the byte order of
the host. -/
def Good : Prop :=
  ∃ fuel ret l1, u.update fuel = some (ret, l1) ∧
    (u.atFail.2.1 = true → u.write 0 = false → ret < 0) ∧ (u.active = true → l1 = u.atFail.1)

/-! ### When it is so -/

/-- The entries, with their indices, that the loop gets past: it finds no error in them or in those
before. -/
def passed (i : ℕ) (es : List UInt64) : List (UInt64 × ℕ) :=
  (es.zipIdx i).takeWhile fun x => (u.l1Entry x.2 x.1).isOk

/-- An entry is changed: the loop gets past it, and its flag `QCOW_OFLAG_COPIED` says something else
than the refcount of its L2 table. -/
def Changes (i : ℕ) (es : List UInt64) : Prop :=
  ∃ x ∈ u.passed i es, x.1 ≠ 0 ∧ (u.l1Refcount x.2 = 1 ↔ x.1.toNat < 2 ^ 63)

/-- The first entry with an error has one that is reported. -/
def Fails (i : ℕ) (es : List UInt64) : Prop :=
  ∃ e ret, es[(u.passed i es).length]? = some e ∧ u.l1Entry (i + (u.passed i es).length) e =
    .error ret ∧ ret < 0

/-- Every entry reads the same both ways: what it becomes if the loop gets past it, or else what it
was. -/
def Palindromic (i : ℕ) (es : List UInt64) : Prop :=
  (∀ x ∈ u.passed i es, ∀ e', u.l1Entry x.2 x.1 = .ok e' → u.swap e' = e') ∧
    ∀ e ∈ es.drop (u.passed i es).length, u.swap e = e

variable {u} {i : ℕ} {e e' : UInt64} {es : List UInt64}

/-- The flag of an entry is made to agree with the refcount. -/
theorem l1Entry_ne_iff (h : u.l1Entry i e = .ok e') :
    e' ≠ e ↔ e ≠ 0 ∧ (u.l1Refcount i = 1 ↔ e.toNat < 2 ^ 63) := by
  have hlt := e.toNat_lt
  rw [l1Entry] at h
  split at h
  case isTrue hzero =>
    cases h
    exact iff_of_false (fun hne => hne rfl) fun hne => hne.1 hzero
  case isFalse hzero =>
    split at h
    · cases h
    split at h
    · cases h
    rw [← UInt64.toNat_inj, UInt64.toNat_zero] at hzero
    rw [ne_eq, ne_eq, ← UInt64.toNat_inj, ← UInt64.toNat_inj, UInt64.toNat_zero]
    rw [maskEntry, if_pos rfl] at h
    split at h
    · cases h
    split at h
    · cases h
    cases h
    rw [UInt64.toNat_ofNat']
    split_ifs <;> omega

theorem passed_cons_of_ok (h : u.l1Entry i e = .ok e') :
    u.passed i (e :: es) = (e, i) :: u.passed (i + 1) es := by
  simp [passed, h, Except.isOk, Except.toBool]

theorem passed_cons_of_error {ret : ℤ} (h : u.l1Entry i e = .error ret) :
    u.passed i (e :: es) = [] := by
  simp [passed, h, Except.isOk, Except.toBool]

theorem map_swap_eq_iff {l : List UInt64} : l.map u.swap = l ↔ ∀ e ∈ l, u.swap e = e := by
  simpa using List.map_inj_left (f := u.swap) (g := id) (l := l)

/-- What the loop does to the table, from the entries. -/
theorem walk_spec : ((u.walk i es).2.1 = true ↔ u.Changes i es) ∧
    ((u.walk i es).2.2 < 0 ↔ u.Fails i es) ∧
    ((u.walk i es).1.map u.swap = (u.walk i es).1 ↔ u.Palindromic i es) := by
  induction es generalizing i with
  | nil => simp [walk, Changes, Fails, Palindromic, passed]
  | cons e es ih =>
    rw [walk, Changes, Fails, Palindromic]
    cases h : u.l1Entry i e with
    | ok e' =>
      obtain ⟨hchanges, hfails, hpal⟩ := ih (i := i + 1)
      rw [passed_cons_of_ok h, List.exists_mem_cons_iff, ← l1Entry_ne_iff h,
        List.forall_mem_cons, h, List.length_cons, ← Nat.add_assoc, Nat.add_right_comm]
      refine ⟨?_, hfails, ?_⟩
      · rw [Bool.or_eq_true, bne_iff_ne, hchanges]
        rfl
      · rw [List.map_cons, List.cons.injEq, hpal, Palindromic, and_assoc]
        simp
    | error ret =>
      rw [passed_cons_of_error h]
      refine ⟨by simp, by simp [h], ?_⟩
      simpa using map_swap_eq_iff (l := e :: es)

/-! ### Attempts -/

variable {ret : ℤ} {fuel k : ℕ} {l1 : List UInt64}

theorem map_swap_swap (u : SnapshotUpdate) (l1 : List UInt64) :
    (l1.map u.swap).map u.swap = l1 := by
  rw [List.map_map, show u.swap ∘ u.swap = id from funext u.swap_swap, List.map_id]

/-- A call that returns has made a last attempt, and before each attempt the bytes were turned. -/
theorem cleanup_eq_some {r : ℤ × List UInt64} (h : u.cleanup true ret fuel k l1 = some r) :
    ∃ n, u.write (k + n) = true ∧ (∀ m < n, u.write (k + m) = false) ∧
      r = (ret, if n % 2 = 0 then l1 else l1.map u.swap) := by
  induction fuel generalizing k l1 with
  | zero => cases h
  | succ fuel ih =>
    rw [cleanup, if_pos rfl] at h
    dsimp only at h
    split at h
    case isTrue hw =>
      cases h
      exact ⟨0, hw, fun m hm => absurd hm (Nat.not_lt_zero m), by rw [map_swap_swap]; rfl⟩
    case isFalse hw =>
      obtain ⟨n, hn, hfail, rfl⟩ := ih h
      refine ⟨n + 1, by rwa [show k + (n + 1) = k + 1 + n by omega], fun m hm => ?_, ?_⟩
      · cases m with
        | zero => exact eq_false_of_ne_true hw
        | succ m =>
          rw [show k + (m + 1) = k + 1 + m by omega]
          exact hfail m (by omega)
      · rw [map_swap_swap]
        rcases Nat.mod_two_eq_zero_or_one n with h0 | h1
        · rw [if_pos h0, if_neg (by omega)]
        · rw [if_neg (by omega), if_pos (by omega)]

/-- A call that makes a last attempt returns. -/
theorem exists_cleanup {n : ℕ} (ret : ℤ) (l1 : List UInt64) (hn : u.write (k + n) = true) :
    ∃ fuel r, u.cleanup true ret fuel k l1 = some r := by
  induction n generalizing k l1 with
  | zero => exact ⟨1, _, by rw [cleanup, if_pos rfl]; exact if_pos hn⟩
  | succ n ih =>
    by_cases hw : u.write k = true
    · exact ⟨1, _, by rw [cleanup, if_pos rfl]; exact if_pos hw⟩
    · obtain ⟨fuel, r, hr⟩ :=
        ih (k := k + 1) (l1.map u.swap) (by rwa [show k + 1 + n = k + (n + 1) by omega])
      exact ⟨fuel + 1, r, by rw [cleanup, if_pos rfl]; exact (if_neg hw).trans hr⟩

/-- **Updating the refcounts of a snapshot.** All is well exactly if no entry of the L1 table is
changed, or the first attempt to write the table succeeds, or a later one does, an entry had an
error that is reported, and the table is not the active one, or an even number of attempts failed,
or its entries read the same both ways. If the table cannot be read, no entry is changed. -/
theorem snapshot_update_good_iff (u : SnapshotUpdate) :
    u.Good ↔ ((u.active || u.read) = true → u.Changes 0 u.l1 →
      ∃ n, u.write n = true ∧ (∀ m < n, u.write m = false) ∧
        (n = 0 ∨ u.Fails 0 u.l1 ∧ (u.active = false ∨ n % 2 = 0 ∨ u.Palindromic 0 u.l1))) := by
  suffices h : u.Good ↔ (u.atFail.2.1 = true → ∃ n, u.write n = true ∧
      (∀ m < n, u.write m = false) ∧
      (n = 0 ∨ u.atFail.2.2 < 0 ∧
      (u.active = false ∨ n % 2 = 0 ∨ u.atFail.1.map u.swap = u.atFail.1))) by
    rw [h, atFail]
    split_ifs with hread
    · obtain ⟨hchanges, hfails, hpal⟩ := @walk_spec u 0 u.l1
      rw [hchanges, hfails, hpal, forall_prop_of_true hread]
    · exact iff_of_true (fun hfalse => hfalse.elim) fun htrue => absurd htrue hread
  unfold Good update
  generalize u.atFail = fail
  obtain ⟨l1, modified, ret⟩ := fail
  dsimp only
  cases modified with
  | false =>
    refine ⟨fun _ h => absurd h Bool.false_ne_true, fun _ => ⟨1, ret, l1, rfl, ?_, fun _ => rfl⟩⟩
    exact fun h => absurd h Bool.false_ne_true
  | true =>
    constructor
    · rintro ⟨fuel, ret', l1', h, hneg, hhost⟩ -
      obtain ⟨n, hn, hfirst, hr⟩ := cleanup_eq_some h
      simp only [Nat.zero_add] at hn hfirst
      cases hr
      refine ⟨n, hn, hfirst, ?_⟩
      grind
    · intro h
      obtain ⟨n, hn, hfirst, hcase⟩ := h rfl
      obtain ⟨fuel, r, hr⟩ := exists_cleanup (k := 0) ret l1 (by rwa [Nat.zero_add])
      obtain ⟨n', hn', hfirst', rfl⟩ := cleanup_eq_some hr
      simp only [Nat.zero_add] at hn' hfirst'
      -- both are the first attempt that succeeds
      obtain rfl : n = n' := by
        by_contra hne
        rcases Nat.lt_or_gt_of_ne hne with hlt | hlt
        · exact absurd hn (by rw [hfirst' n hlt]; decide)
        · exact absurd hn' (by rw [hfirst n' hlt]; decide)
      refine ⟨fuel, ret, _, hr, ?_, ?_⟩ <;> grind

/-! ### A write that fails -/

/-- The bytes of a word in the other order. -/
def bswap64 (w : UInt64) : UInt64 := UInt64.ofNat (ofBe (beBytes 8 w.toNat).reverse)

theorem bswap64_bswap64 (w : UInt64) : bswap64 (bswap64 w) = w := by
  have hlt : ofBe (beBytes 8 w.toNat).reverse < 2 ^ 64 := by
      simpa using ofBe_lt (beBytes 8 w.toNat).reverse
  have hbytes : beBytes 8 (bswap64 w).toNat = (beBytes 8 w.toNat).reverse := by
    rw [bswap64, UInt64.toNat_ofNat', Nat.mod_eq_of_lt hlt]
    simpa using beBytes_ofBe (beBytes 8 w.toNat).reverse
  rw [bswap64, hbytes, List.reverse_reverse, ofBe_beBytes_of_lt w.toNat_lt, UInt64.ofNat_toNat]

/-- A snapshot is deleted, and the only L2 table gets a refcount of 1. -/
def deletion (write : ℕ → Bool) : SnapshotUpdate where
  swap := bswap64
  swap_swap := bswap64_bswap64
  active := true
  l1 := [0x10000]
  addend := -1
  read := true
  l2 := fun _ => .ok []
  put := fun _ => 0
  l1Refcount := fun _ => 1
  l2Refcount := fun _ _ => 1
  write := write

/-- With writes that fail, the call never returns. After one that fails it returns 0, and leaves the
table of the active image with its bytes turned. -/
theorem snapshot_update_not_good :
    (∀ fuel, (deletion fun _ => false).update fuel = none) ∧
      (deletion fun k => k != 0).update 2 = some (0, [0x10000000080]) := by
  refine ⟨fun fuel => ?_, by decide +kernel⟩
  by_contra h
  obtain ⟨r, hr⟩ := Option.ne_none_iff_exists'.1 h
  obtain ⟨n, hn, -⟩ := cleanup_eq_some hr
  exact Bool.false_ne_true hn

end SnapshotUpdate

end VariabilityTestbed.Block
