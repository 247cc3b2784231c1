import Mathlib.Algebra.Ring.Nat
import VariabilityTestbed.Lib.Runs

/-!
# The metadata cache of qcow2

An image has two caches, one for L2 tables and one for refcount blocks. A cache can depend on the
other: then the other is flushed before anything of this one is written. Flushing can therefore call
itself, and the order in which tables reach the file is spread over all the functions that may write
one: a flush, but also a `get` that has to make room and a `put` in writethrough mode.

What requests to the file return is an input, so any of them may fail. The state keeps a log of the
requests and of the dependencies that were set, newest first. The contents of the tables are left
out, as no function looks at them.
-/

namespace VariabilityTestbed.Block

/-! ### State -/

/-- `l2_table_cache` and `refcount_block_cache`. -/
inductive CacheId where
  | l2
  | refcount
  deriving DecidableEq, Repr

/-- The cache that is not this one. -/
def CacheId.other : CacheId → CacheId
  | .l2 => .refcount
  | .refcount => .l2

/-- A `Qcow2CachedTable`. The pointer to the table is the index of the entry. `cache_hits` is an
`int` in the source: its overflow is left out. -/
structure CachedTable where
  offset : ℕ
  dirty : Bool
  cacheHits : ℕ
  ref : ℕ
  deriving DecidableEq, Repr

/-- A `Qcow2Cache`. -/
structure Cache where
  size : ℕ
  entries : ℕ → CachedTable
  depends : Option CacheId
  dependsOnFlush : Bool
  writethrough : Bool

/-- What is in the log. -/
inductive CacheEvent where
  /-- `bdrv_pwrite` of an entry to its offset. -/
  | pwrite (c : CacheId) (i offset : ℕ) (ok : Bool)
  /-- `bdrv_flush`. -/
  | flush (ok : Bool)
  /-- `c->depends = d`, when these entries of `d`, with their offsets, were dirty. -/
  | dependency (c d : CacheId) (dirty : List (ℕ × ℕ))
  deriving DecidableEq, Repr

/-- The two caches, what the next requests to the file return, and the log, newest first. -/
structure CacheState where
  cache : CacheId → Cache
  results : ℕ → ℤ
  log : List CacheEvent

namespace CacheState

variable (s : CacheState)

/-- A request to the file. -/
def request : CacheState × ℤ := ({ s with results := fun n => s.results (n + 1) }, s.results 0)

/-- Add an event to the log. -/
def record (e : CacheEvent) : CacheState := { s with log := e :: s.log }

/-- `bdrv_flush`. -/
def bdrvFlush : CacheState × ℤ := (s.request.1.record (.flush (0 ≤ s.results 0)), s.results 0)

/-- `bdrv_pwrite` of an entry. -/
def bdrvPwrite (c : CacheId) (i : ℕ) : CacheState × ℤ :=
  (s.request.1.record (.pwrite c i ((s.cache c).entries i).offset (0 ≤ s.results 0)), s.results 0)

/-- Change a cache. -/
def modifyCache (c : CacheId) (f : Cache → Cache) : CacheState :=
  { s with cache := Function.update s.cache c (f (s.cache c)) }

/-- Change an entry. -/
def modifyEntry (c : CacheId) (i : ℕ) (f : CachedTable → CachedTable) : CacheState :=
  s.modifyCache c fun x => { x with entries := Function.update x.entries i (f (x.entries i)) }

/-- The entries that have to be written. An entry with offset 0 counts as one without a table, so a
table that was got at offset 0 is never written. -/
def dirtyEntries (c : CacheId) : List (ℕ × ℕ) :=
  ((List.range (s.cache c).size).filter fun i =>
    ((s.cache c).entries i).dirty && ((s.cache c).entries i).offset != 0).map fun i =>
      (i, ((s.cache c).entries i).offset)

/-! ### Flushing -/

/-- `qcow2_cache_flush_dependency`, for a cache that depends on `d`. -/
def flushDependency (flush : CacheState → CacheId → Option (CacheState × ℤ)) (c d : CacheId) :
    Option (CacheState × ℤ) :=
  (flush s d).map fun r =>
    if r.2 < 0 then r
    else (r.1.modifyCache c fun x => { x with depends := none, dependsOnFlush := false }, 0)

/-- The first part of `qcow2_cache_entry_flush`: what has to come before a write. -/
def beforeWrite (flush : CacheState → CacheId → Option (CacheState × ℤ)) (c : CacheId) :
    Option (CacheState × ℤ) :=
  match (s.cache c).depends with
  | some d => s.flushDependency flush c d
  | none =>
    if (s.cache c).dependsOnFlush then
      let r := s.bdrvFlush
      some (if r.2 < 0 then r
        else (r.1.modifyCache c fun x => { x with dependsOnFlush := false }, r.2))
    else some (s, 0)

/-- The second part of `qcow2_cache_entry_flush`: the write. -/
def writeEntry (c : CacheId) (i : ℕ) : CacheState × ℤ :=
  let r := s.bdrvPwrite c i
  if r.2 < 0 then r else (r.1.modifyEntry c i fun e => { e with dirty := false }, 0)

/-- `qcow2_cache_entry_flush`. -/
def entryFlush (flush : CacheState → CacheId → Option (CacheState × ℤ)) (c : CacheId) (i : ℕ) :
    Option (CacheState × ℤ) :=
  if !((s.cache c).entries i).dirty || ((s.cache c).entries i).offset == 0 then some (s, 0)
  else
    (s.beforeWrite flush c).map fun r => if r.2 < 0 then r else r.1.writeEntry c i

/-- `-ENOSPC`. -/
def enospc : ℤ := -28

/-- The loop of `qcow2_cache_flush`. -/
def flushLoop (flush : CacheState → CacheId → Option (CacheState × ℤ)) (c : CacheId) :
    List ℕ → CacheState → ℤ → Option (CacheState × ℤ)
  | [], s, result => some (s, result)
  | i :: is, s, result =>
    (s.entryFlush flush c i).bind fun r =>
      flushLoop flush c is r.1 (if r.2 < 0 ∧ result ≠ enospc then r.2 else result)

/-- The end of `qcow2_cache_flush`. -/
def finishFlush (result : ℤ) : CacheState × ℤ :=
  if result = 0 then (s.bdrvFlush.1, if s.bdrvFlush.2 < 0 then s.bdrvFlush.2 else 0)
  else (s, result)

/-- `qcow2_cache_flush`. It can call itself, and `depth` bounds how often. -/
def cacheFlush : ℕ → CacheState → CacheId → Option (CacheState × ℤ)
  | 0, _, _ => none
  | depth + 1, s, c =>
    (flushLoop (cacheFlush depth) c (List.range (s.cache c).size) s 0).map fun r =>
      r.1.finishFlush r.2

/-- One of the two checks of `qcow2_cache_set_dependency`: flush what `c` depends on, unless it is
`except`. -/
def dropDependency (depth : ℕ) (c : CacheId) (except : Option CacheId) : Option (CacheState × ℤ) :=
  match (s.cache c).depends with
  | some x => if some x = except then some (s, 0) else s.flushDependency (cacheFlush depth) c x
  | none => some (s, 0)

/-- `c->depends = d`. -/
def setDepends (c d : CacheId) : CacheState :=
  (s.modifyCache c fun x => { x with depends := some d }).record
    (.dependency c d (s.dirtyEntries d))

/-- `qcow2_cache_set_dependency`. -/
def setDependency (depth : ℕ) (c d : CacheId) : Option (CacheState × ℤ) :=
  (s.dropDependency depth d none).bind fun r =>
    if r.2 < 0 then some r
    else
      (r.1.dropDependency depth c (some d)).map fun r =>
        if r.2 < 0 then r else (r.1.setDepends c d, 0)

/-! ### Getting and putting tables -/

/-- The loop of `qcow2_cache_find_entry_to_replace`, with the entries it changes, `min_count` and
`min_index`. -/
def findEntryLoop : List ℕ → (ℕ → CachedTable) → ℕ → Option ℕ → (ℕ → CachedTable) × Option ℕ
  | [], entries, _, minIndex => (entries, minIndex)
  | i :: is, entries, minCount, minIndex =>
    let e := entries i
    if e.ref ≠ 0 then findEntryLoop is entries minCount minIndex
    else
      let entries' := Function.update entries i { e with cacheHits := e.cacheHits / 2 }
      if e.cacheHits < minCount then findEntryLoop is entries' e.cacheHits (some i)
      else findEntryLoop is entries' minCount minIndex

/-- The loop changes nothing but hits. -/
theorem findEntryLoop_same (is : List ℕ) (entries : ℕ → CachedTable) (minCount : ℕ)
    (minIndex : Option ℕ) (j : ℕ) :
    let e := (findEntryLoop is entries minCount minIndex).1 j
    e.offset = (entries j).offset ∧ e.dirty = (entries j).dirty ∧ e.ref = (entries j).ref := by
  fun_induction findEntryLoop is entries minCount minIndex <;> grind [Function.update_apply]

/-- The end of `qcow2_cache_do_get`. -/
def found (c : CacheId) (i : ℕ) : CacheState :=
  s.modifyEntry c i fun e => { e with cacheHits := e.cacheHits + 1, ref := e.ref + 1 }

/-- The part of `qcow2_cache_do_get` that loads a table into an entry that has been written. -/
def load (c : CacheId) (i offset : ℕ) (readFromDisk : Bool) : CacheState × ℤ :=
  let s := s.modifyEntry c i fun e => { e with offset := 0 }
  let r := if readFromDisk then s.request else (s, 0)
  if r.2 < 0 then r
  else ((r.1.modifyEntry c i fun e => { e with cacheHits := 32, offset := offset }).found c i, 0)

/-- `qcow2_cache_get` and `qcow2_cache_get_empty`, by way of `qcow2_cache_do_get`. -/
def doGet (depth : ℕ) (c : CacheId) (offset : ℕ) (readFromDisk : Bool) : Option (CacheState × ℤ) :=
  match (List.range (s.cache c).size).find? fun i => ((s.cache c).entries i).offset = offset with
  | some i => some (s.found c i, 0)
  | none =>
    let (entries, minIndex) :=
      findEntryLoop (List.range (s.cache c).size) (s.cache c).entries (2 ^ 31 - 1) none
    minIndex.bind fun i =>
      ((s.modifyCache c fun x => { x with entries := entries }).entryFlush (cacheFlush depth) c
        i).map fun r => if r.2 < 0 then r else r.1.load c i offset readFromDisk

/-- `-ENOENT`. -/
def enoent : ℤ := -2

/-- `qcow2_cache_put`. -/
def cachePut (depth : ℕ) (c : CacheId) (i : ℕ) : Option (CacheState × ℤ) :=
  if (s.cache c).size ≤ i then some (s, enoent)
  else if ((s.cache c).entries i).ref = 0 then none
  else
    let s := s.modifyEntry c i fun e => { e with ref := e.ref - 1 }
    if (s.cache c).writethrough then s.entryFlush (cacheFlush depth) c i else some (s, 0)

/-- `qcow2_cache_entry_mark_dirty`. -/
def markDirty (c : CacheId) (i : ℕ) : Option CacheState :=
  if (s.cache c).size ≤ i then none
  else some (s.modifyEntry c i fun e => { e with dirty := true })

/-- `qcow2_cache_depends_on_flush`. -/
def setDependsOnFlush (c : CacheId) : CacheState :=
  s.modifyCache c fun x => { x with dependsOnFlush := true }

/-- `qcow2_cache_set_writethrough`. -/
def setWritethrough (depth : ℕ) (c : CacheId) (enable : Bool) : Option CacheState :=
  (if !(s.cache c).writethrough && enable then (cacheFlush depth s c).map Prod.fst
    else some s).map fun s => s.modifyCache c fun x => { x with writethrough := enable }

end CacheState

/-! ### Calls from outside -/

/-- The calls. A dependency is always on the other cache. -/
inductive CacheOp where
  | get (c : CacheId) (offset : ℕ) (readFromDisk : Bool)
  | put (c : CacheId) (i : ℕ)
  | markDirty (c : CacheId) (i : ℕ)
  | flush (c : CacheId)
  | setDependency (c : CacheId)
  | dependsOnFlush (c : CacheId)
  | setWritethrough (c : CacheId) (enable : Bool)
  deriving DecidableEq, Repr

/-- One call. -/
def cacheStep (depth : ℕ) (s : CacheState) : CacheOp → Option CacheState
  | .get c offset readFromDisk => (s.doGet depth c offset readFromDisk).map Prod.fst
  | .put c i => (s.cachePut depth c i).map Prod.fst
  | .markDirty c i => s.markDirty c i
  | .flush c => (s.cacheFlush depth c).map Prod.fst
  | .setDependency c => (s.setDependency depth c c.other).map Prod.fst
  | .dependsOnFlush c => some (s.setDependsOnFlush c)
  | .setWritethrough c enable => s.setWritethrough depth c enable

/-- `qcow2_cache_create`, for both caches. -/
def initCacheState (size : CacheId → ℕ) (writethrough : Bool) (results : ℕ → ℤ) : CacheState where
  cache := fun c => ⟨size c, fun _ => ⟨0, false, 0, 0⟩, none, false, writethrough⟩
  results := results
  log := []

end VariabilityTestbed.Block
