import Mathlib.Algebra.Order.Ring.Nat
import Mathlib.Data.List.GetD
import Mathlib.Data.List.Induction
import VariabilityTestbed.Lib.Entries
import VariabilityTestbed.Lib.HashChains

/-!
# Dictionaries

A `QDict` has `QDICT_BUCKET_MAX` chains, and `tdb_hash` gives the chain of a key. The index with
which `tdb_hash` goes along the key has 32 bits: on a key of 4 GiB or more it comes back to the
start, and the loop has no end. With shorter keys a dictionary is a finite map, and `qdict_first`
and `qdict_next` go the way of `qdict_iter`.
-/

namespace VariabilityTestbed.QDict

open HashChains List Option

/-- A key: the bytes of a C string before its end. -/
abbrev Key : Type := { name : List UInt8 // 0 ∉ name }

/-! ### The hash -/

/-- The loop of `tdb_hash`, with the expression behind it. -/
def tdbHashLoop (name : List UInt8) : ℕ → UInt32 → UInt32 → Option UInt32
  | 0, _, _ => none
  | fuel + 1, i, value =>
    let c := name.getD i.toNat 0
    if c = 0 then some (1103515243 * value + 12345)
    else tdbHashLoop name fuel (i + 1) (value + (c.toUInt32 <<< (i * 5 % 24)))

/-- `tdb_hash`. -/
def tdbHash (fuel : ℕ) (key : Key) : Option UInt32 :=
  tdbHashLoop key.1 fuel 0 (0x238F13AF * UInt32.ofNat key.1.length)

/-- The chain of a key, of `QDICT_BUCKET_MAX`. -/
def bucket (fuel : ℕ) (key : Key) : ℕ := ((tdbHash fuel key).getD 0).toNat % 512

theorem bucket_lt (fuel : ℕ) (key : Key) : bucket fuel key < 512 := Nat.mod_lt _ (by decide)

variable {V : Type} {fuel : ℕ}

theorem getD_ne_zero (key : Key) {i : ℕ} (hi : i < key.1.length) : key.1.getD i 0 ≠ 0 := by
  rw [getD_eq_getElem _ _ hi]
  intro h
  have hmem := getElem_mem hi
  exact key.2 (by rwa [h] at hmem)

/-- The index cannot come to the end of a long key. -/
theorem tdbHashLoop_long {key : Key} (hlong : 2 ^ 32 ≤ key.1.length) (i value : UInt32) :
    tdbHashLoop key.1 fuel i value = none := by
  induction fuel generalizing i value with
  | zero => rfl
  | succ fuel ih => exact (if_neg (getD_ne_zero key (i.toNat_lt.trans_le hlong))).trans (ih _ _)

theorem tdbHashLoop_short {key : Key} (hshort : key.1.length < 2 ^ 32) {i : UInt32}
    (hi : i.toNat ≤ key.1.length) (hfuel : key.1.length < i.toNat + fuel) (value : UInt32) :
    (tdbHashLoop key.1 fuel i value).isSome := by
  induction fuel generalizing i value with
  | zero => omega
  | succ fuel ih =>
    rw [tdbHashLoop]
    rcases hi.eq_or_lt with heq | hlt
    · rw [if_pos (by rw [heq]; exact getD_eq_default _ _ le_rfl)]
      rfl
    · have hnext : (i + 1).toNat = i.toNat + 1 := by
        rw [UInt32.toNat_add, show (1 : UInt32).toNat = 1 from rfl]
        omega
      rw [if_neg (getD_ne_zero key hlt)]
      exact ih (by omega) (by omega) _

theorem short_of_tdbHash {key : Key} (h : (tdbHash fuel key).isSome) : key.1.length < 2 ^ 32 := by
  by_contra hlong
  rw [tdbHash, tdbHashLoop_long (Nat.le_of_not_lt hlong)] at h
  cases h

theorem tdbHash_short {key : Key} (hshort : key.1.length < 2 ^ 32) :
    (tdbHash (2 ^ 32) key).isSome :=
  tdbHashLoop_short hshort (Nat.zero_le _) (hshort.trans_le (Nat.le_add_left _ _)) _

/-! ### Entries in order

Where only the entries matter, a dictionary is the list of them in the order of `qdict_first` and
`qdict_next`: by chain, and in each chain the entry that was put last comes first. `qdict_find`
searches one chain only, but an entry with the key can be in no other, so the search through the
whole list finds the same entry. -/

section

variable {K : Type} [DecidableEq K]

/-- `tdb_hash` of a text that is not too long. -/
def hashOf (name : List UInt8) : UInt32 :=
  (tdbHashLoop name (name.length + 1) 0 (0x238F13AF * UInt32.ofNat name.length)).getD 0

/-- `qdict_get` on the list. -/
def getEntry (d : List (K × V)) (key : K) : Option V := Entries.get d key

/-- `qdict_put_obj` on the list: replace the value of an entry that exists, else put a new entry at
the head of its chain. -/
def putEntry (name : K → List UInt8) (d : List (K × V)) (key : K) (value : V) : List (K × V) :=
  Entries.put (fun k k' => hashOf (name k) % 512 < hashOf (name k') % 512) d key value

/-- **Read after write.** -/
theorem getEntry_putEntry (name : K → List UInt8) (d : List (K × V)) (key key' : K) (value : V) :
    getEntry (putEntry name d key value) key' = if key = key' then some value
    else getEntry d key' :=
  Entries.get_put ..

end

/-! ### The code -/

/-- A dictionary. `size` is the number of its entries. -/
structure Dict (V : Type) (fuel : ℕ) where
  table : Table V (bucket fuel)
  size : ℕ
  size_eq : size = (table.entriesFrom 512 0).length

namespace Dict

/-- `qdict_new`. -/
def qdictNew : Dict V fuel := ⟨Table.empty, 0, by rw [Table.entriesFrom_empty]; rfl⟩

variable (d : Dict V fuel)

/-- `qdict_put_obj`. -/
def qdictPutObj (key : Key) (value : V) : Option (Dict V fuel) :=
  (tdbHash fuel key).map fun _ =>
    { table := d.table.put key value
      size := d.size + if (d.table.get key).isSome then 0 else 1
      size_eq := by rw [Table.length_put (bucket_lt fuel), d.size_eq] }

/-- `qdict_del`. -/
def qdictDel (key : Key) : Option (Dict V fuel) :=
  (tdbHash fuel key).map fun _ =>
    if h : (d.table.get key).isSome then
      { table := d.table.erase key
        size := d.size - 1
        size_eq := by rw [d.size_eq, Table.length_erase (bucket_lt fuel) h]; rfl }
    else d

/-- `qdict_get`. -/
def qdictGet (key : Key) : Option (Option V) := (tdbHash fuel key).map fun _ => d.table.get key

/-- `qdict_haskey`. -/
def qdictHaskey (key : Key) : Option Bool :=
  (tdbHash fuel key).map fun _ => (d.table.lookup key).isSome

/-- The entries for which `qdict_iter` calls its argument. -/
def qdictIter : List (Key × V) := d.table.entriesFrom 512 0

/-- The entries that `qdict_first` and `steps` calls of `qdict_next` give, if the last gives
`NULL`. -/
def visit (steps : ℕ) : Option (List (Key × V)) := d.table.walk 512 steps (d.table.nextChain 512 0)

end Dict

/-- The list of the entries has the values of the dictionary. -/
theorem getEntry_qdictIter (d : Dict V fuel) (key : Key) :
    getEntry d.qdictIter key = d.table.get key :=
  Option.ext fun _ => (find_eq_some_iff (Table.nodup_entriesFrom 512 0)).trans
    (Table.mem_entries (bucket_lt fuel))

/-- **The list is a model of the chains**, for `qdict_put_obj` too. -/
theorem getEntry_qdictPutObj {d d' : Dict V fuel} {key : Key} {value : V}
    (h : d.qdictPutObj key value = some d') (k : Key) :
    getEntry d'.qdictIter k = getEntry (putEntry Subtype.val d.qdictIter key value) k := by
  obtain ⟨hash, -, rfl⟩ := map_eq_some_iff.1 h
  rw [getEntry_putEntry, getEntry_qdictIter, getEntry_qdictIter]
  exact (Table.get_put d.table).trans (by simp only [eq_comm])

/-- A call that changes a dictionary. -/
inductive Op (V : Type) where
  | put (key : Key) (value : V)
  | del (key : Key)

namespace Op

/-- The key of a call. -/
def key : Op V → Key
  | put key _ => key
  | del key => key

/-- The value that the key has after a call. -/
def value : Op V → Option V
  | put _ value => some value
  | del _ => none

/-- The call. -/
def exec (d : Dict V fuel) : Op V → Option (Dict V fuel)
  | put key value => d.qdictPutObj key value
  | del key => d.qdictDel key

end Op

/-! ### A finite map -/

/-- The value of the last put of a key, if no deletion followed it. -/
def lastValue (ops : List (Op V)) (key : Key) : Option V :=
  ((ops.filter fun op => decide (op.key = key)).getLast?).bind Op.value

/-- **What is wanted** after a sequence of calls, with a further key. All calls return; the key has
its last value; and the keys that have a value are visited once, by `qdict_iter` and in the same
order by the other functions. -/
def FiniteMap (ops : List (Op V)) (key : Key) : Prop :=
  ∃ (fuel : ℕ) (d : Dict V fuel), ops.foldlM Op.exec Dict.qdictNew = some d ∧
    d.qdictGet key = some (lastValue ops key) ∧
    d.qdictHaskey key = some (lastValue ops key).isSome ∧
    (d.qdictIter.map Prod.fst).Nodup ∧ (∀ k v, (k, v) ∈ d.qdictIter ↔ lastValue ops k = some v) ∧
    d.size = d.qdictIter.length ∧ ∃ steps, d.visit steps = some d.qdictIter

/-- A call returns exactly if its key has a hash, and then its key has its value. -/
theorem exec_spec (d : Dict V fuel) (op : Op V) (h : (tdbHash fuel op.key).isSome) :
    ∃ d', op.exec d = some d' ∧ ∀ k, d'.table.get k = if k = op.key then op.value
    else d.table.get k := by
  obtain ⟨hash, hh⟩ := isSome_iff_exists.1 h
  cases op with
  | put key value =>
    refine ⟨_, congrArg (Option.map _) hh, fun k => Table.get_put d.table⟩
  | del key =>
    refine ⟨_, congrArg (Option.map _) hh, fun k => ?_⟩
    dsimp only
    split
    · exact Table.get_erase d.table
    · rename_i hnone
      by_cases hk : k = key
      · exact (hk ▸ not_isSome_iff_eq_none.1 hnone).trans (if_pos hk).symm
      · exact (if_neg hk).symm

theorem tdbHash_of_exec {d d' : Dict V fuel} {op : Op V} (h : op.exec d = some d') :
    (tdbHash fuel op.key).isSome := by
  cases op <;> exact isSome_iff_exists.2 ((map_eq_some_iff.1 h).imp fun _ ha => ha.1)

/-- **Sequences of calls.** -/
theorem run_spec (fuel : ℕ) (ops : List (Op V)) (h : ∀ op ∈ ops, (tdbHash fuel op.key).isSome) :
    ∃ d : Dict V fuel, ops.foldlM Op.exec Dict.qdictNew = some d ∧
    ∀ k, d.table.get k = lastValue ops k := by
  induction ops using reverseRecOn with
  | nil => exact ⟨_, rfl, fun _ => rfl⟩
  | append_singleton ops op ih =>
    obtain ⟨d, hd, hget⟩ := ih fun o ho => h o (mem_append_left _ ho)
    obtain ⟨d', hd', hget'⟩ := exec_spec d op (h op (by simp))
    refine ⟨d', by simp [foldlM_append, hd, hd'], fun k => ?_⟩
    rw [hget', hget, lastValue, lastValue, filter_append]
    by_cases hk : k = op.key
    · simp [hk]
    · simp [hk, Ne.symm hk]

theorem tdbHash_of_run {ops : List (Op V)} {d d' : Dict V fuel}
    (h : ops.foldlM Op.exec d = some d') :
    ∀ op ∈ ops, (tdbHash fuel op.key).isSome := by
  induction ops generalizing d with
  | nil => simp
  | cons op ops ih =>
    rw [foldlM_cons] at h
    obtain ⟨d₁, h₁, h⟩ := bind_eq_some_iff.1 h
    exact forall_mem_cons.2 ⟨tdbHash_of_exec h₁, ih h⟩

/-- **A `QDict` is a finite map** exactly as long as all keys are shorter than 4 GiB. -/
theorem qdict_finite_map_iff (ops : List (Op V)) (key : Key) :
    FiniteMap ops key ↔ (∀ op ∈ ops, op.key.1.length < 2 ^ 32) ∧ key.1.length < 2 ^ 32 := by
  constructor
  · rintro ⟨fuel, d, hd, hget, -⟩
    obtain ⟨_, hkey, -⟩ := map_eq_some_iff.1 hget
    exact ⟨fun op hop => short_of_tdbHash (tdbHash_of_run hd op hop),
      short_of_tdbHash (isSome_iff_exists.2 ⟨_, hkey⟩)⟩
  · rintro ⟨hops, hkey⟩
    obtain ⟨d, hd, hget⟩ := run_spec (2 ^ 32) ops fun op hop => tdbHash_short (hops op hop)
    obtain ⟨hash, hhash⟩ := isSome_iff_exists.1 (tdbHash_short hkey)
    refine ⟨2 ^ 32, d, hd, ?_, ?_, Table.nodup_entriesFrom 512 0, fun k v => ?_, d.size_eq, _,
      Table.walk_first 512⟩
    · rw [Dict.qdictGet, hhash, ← hget]
      rfl
    · rw [Dict.qdictHaskey, hhash, ← hget, Table.get, isSome_map]
      rfl
    · rw [← hget]
      exact Table.mem_entries (bucket_lt _)

/-- With a key of 4 GiB the first call never returns. -/
theorem qdict_not_finite_map :
    ∃ key : Key, ∀ fuel, (Dict.qdictNew : Dict ℕ fuel).qdictPutObj key 0 = none := by
  refine ⟨⟨replicate (2 ^ 32) 1, fun h => absurd (eq_of_mem_replicate h) (by decide)⟩,
    fun fuel => ?_⟩
  rw [Dict.qdictPutObj, tdbHash, tdbHashLoop_long (length_replicate.ge)]
  rfl

end VariabilityTestbed.QDict
