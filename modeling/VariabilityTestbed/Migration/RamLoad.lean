import Mathlib.Data.List.TakeWhile
import VariabilityTestbed.Memory.Ram
import VariabilityTestbed.Migration.Stream

/-!
# Loading RAM

`ram_load` reads records up to one with the flag `EOS`. The first word of a record has the flags in
the low bits and an address above them. A record with `MEM_SIZE` has the list of all blocks behind
it, one with `COMPRESS` the byte that fills a page, and one with `PAGE` a page. Since version 4 a
page is given by an offset in a block, which is either named in the record or, with `CONTINUE`, the
block of the record before.

The two nested loops are a machine with one step for each name that is read and one for each part of
a record, and what is written to pages is logged. Writes go to addresses of the host; a pointer
wraps at `2 ^ 64`, and `NULL` is 0.

No step compares an offset with the length of its block. A record with `COMPRESS` is refused if
there is no block, one with `PAGE` is not. Version 3 aborts at addresses that are in no block. And
behind the end of the stream the list of blocks does not end if some block has no name and no
length.

A page of zeros is given back to the host, which discards whole pages of its own. These can be
larger than a page of the guest.
-/

namespace VariabilityTestbed.Migration

open Memory List Option

/-! ### State -/

/-- A `RAMBlock` with its name. It is a range of the memory of the host. -/
structure RamBlock extends Memory.RamBlock where
  idstr : List UInt8
  hostPos : 0 < host
  hostLe : host + length ≤ 2 ^ 64
  addrLe : offset + length ≤ 2 ^ 64
  deriving DecidableEq

/-- `RAM_SAVE_FLAG_COMPRESS`. -/
def flagCompress : ℕ := 0x02

/-- `RAM_SAVE_FLAG_MEM_SIZE`. -/
def flagMemSize : ℕ := 0x04

/-- `RAM_SAVE_FLAG_PAGE`. -/
def flagPage : ℕ := 0x08

/-- `RAM_SAVE_FLAG_EOS`. -/
def flagEos : ℕ := 0x10

/-- `RAM_SAVE_FLAG_CONTINUE`. -/
def flagContinue : ℕ := 0x20

/-- `flags & flag`. -/
def hasFlag (flags flag : ℕ) : Bool := flags &&& flag ≠ 0

/-- A page of a block, or of no block. -/
structure Target where
  block : Option RamBlock
  offset : ℕ
  deriving DecidableEq

/-- The pointer to the page, which is `NULL` if there is no block. -/
def Target.host (t : Target) : ℕ :=
  match t.block with
  | none => 0
  | some b => (b.host + t.offset) % 2 ^ 64

/-- The page is in the block. -/
def Target.Inside (t : Target) : Prop :=
  ∃ b, t.block = some b ∧ t.offset + targetPageSize ≤ b.length

/-- What was written to a page, and how many bytes from its start on were given back to the host,
which makes them 0. -/
structure Access where
  target : Target
  bytes : List UInt8
  discarded : ℕ
  deriving DecidableEq

/-- Where `ram_load` is. -/
inductive Phase where
  | header
  | sizes (flags addr total : ℕ)
  | page (flags addr : ℕ)
  | done (ret : ℤ)
  deriving DecidableEq

/-- `ram_load` has returned. -/
def Phase.isDone : Phase → Bool
  | done _ => true
  | _ => false

/-- The state of `ram_load`, with the list of blocks, the static variable `block` and the log of
what was written to pages. -/
structure Loader where
  file : Stream
  blocks : List RamBlock
  block : Option RamBlock
  accesses : List Access
  phase : Phase

/-- What `ram_load` gets from the host: what is in the array `id`, and the size of a page, which is
a power of two. -/
structure LoadEnv where
  junk : ℕ → UInt8
  hostPageBits : ℕ

/-! ### Steps -/

/-- `EINVAL`. -/
def einval : ℤ := 22

/-- `EIO`. -/
def eio : ℤ := 5

/-- `ram_bytes_total`. -/
def ramBytesTotal (blocks : List RamBlock) : ℕ :=
  (blocks.map fun b => b.length).sum % 2 ^ 64

/-- The name in `id`. If fewer than `len` bytes were read, the others are what the array held
before, which is `junk`. -/
def nameOf (junk : ℕ → UInt8) (len : ℕ) (read : List UInt8) : List UInt8 :=
  (read ++ (List.range' read.length (len - read.length)).map junk).takeWhile (· ≠ 0)

/-- The length of a name, the name, and what is behind it. -/
def getName (junk : ℕ → UInt8) (file : Stream) : List UInt8 × Stream :=
  let r := file.getByte
  let t := r.2.getBuffer r.1.toNat
  (nameOf junk r.1.toNat t.1, t.2)

/-- The first block with a name. -/
def findBlock (blocks : List RamBlock) (name : List UInt8) : Option RamBlock :=
  blocks.find? fun b => b.idstr = name

/-- `host_from_stream_offset`. -/
def hostFromStreamOffset (env : LoadEnv) (s : Loader) (offset flags : ℕ) : Target × Loader :=
  if hasFlag flags flagContinue then (⟨s.block, offset⟩, s)
  else
    let r := getName env.junk s.file
    let block := findBlock s.blocks r.1
    (⟨block, offset⟩, { s with file := r.2, block := block })

/-- `qemu_get_ram_ptr`, which moves the block to the front of the list. -/
def qemuGetRamPtr (s : Loader) (addr : ℕ) : Option (Target × Loader) :=
  (s.blocks.find? fun b => b.Contains addr).map fun b =>
    (⟨some b, addr - b.offset⟩, { s with blocks := b :: s.blocks.erase b })

/-- The page of a record. -/
def pageTarget (env : LoadEnv) (version : ℕ) (s : Loader) (flags addr : ℕ) :
    Option (Target × Loader) :=
  if version = 3 then qemuGetRamPtr s addr else some (hostFromStreamOffset env s addr flags)

/-- Return from `ram_load`. -/
def Loader.ret (s : Loader) (e : ℤ) : Loader := { s with phase := .done e }

/-- The end of the body of the loop. -/
def Loader.next (s : Loader) (flags : ℕ) : Loader :=
  if s.file.hasError then s.ret (-eio)
  else if hasFlag flags flagEos then s.ret 0
  else { s with phase := .header }

/-- Write to a page. -/
def Loader.write (s : Loader) (t : Target) (bytes : List UInt8) (discarded : ℕ) : Loader :=
  { s with accesses := s.accesses ++ [⟨t, bytes, discarded⟩] }

/-- The bytes that `qemu_madvise(host, TARGET_PAGE_SIZE, QEMU_MADV_DONTNEED)` gives back: whole
pages of the host, and none if `host` is not the start of one. -/
def discard (env : LoadEnv) (host : ℕ) : ℕ :=
  if host % 2 ^ env.hostPageBits = 0 then max targetPageSize (2 ^ env.hostPageBits) else 0

/-- The first word of a record. -/
def headerStep (version : ℕ) (s : Loader) : Loader :=
  let r := s.file.getBe 8
  let flags := r.1 % targetPageSize
  let addr := r.1 - flags
  if hasFlag flags flagMemSize then
    if version = 3 then
      if addr ≠ ramBytesTotal s.blocks then { s with file := r.2 }.ret (-einval)
      else { s with file := r.2, phase := .page flags addr }
    else { s with file := r.2, phase := .sizes flags addr addr }
  else { s with file := r.2, phase := .page flags addr }

/-- A round of the loop over the list of blocks. -/
def sizesStep (env : LoadEnv) (s : Loader) (flags addr total : ℕ) : Loader :=
  if total = 0 then { s with phase := .page flags addr }
  else
    let name := getName env.junk s.file
    let length := name.2.getBe 8
    match findBlock s.blocks name.1 with
    | none => { s with file := length.2 }.ret (-einval)
    | some b =>
      if b.length ≠ length.1 then { s with file := length.2 }.ret (-einval)
      else { s with
        file := length.2
        phase := .sizes flags addr ((total + 2 ^ 64 - length.1) % 2 ^ 64) }

/-- A page that is filled with a byte. -/
def compressStep (env : LoadEnv) (s : Loader) (t : Target) (flags : ℕ) : Loader :=
  if t.host = 0 then (s.write t [] 0).ret (-einval)
  else
    let ch := s.file.getByte
    ({ s with file := ch.2 }.write t (List.replicate targetPageSize ch.1)
      (if ch.1 = 0 then discard env t.host else 0)).next flags

/-- A page as it is. -/
def rawStep (s : Loader) (t : Target) (flags : ℕ) : Loader :=
  let bytes := s.file.getBuffer targetPageSize
  ({ s with file := bytes.2 }.write t bytes.1 0).next flags

/-- The page of a record, and the end of the body of the loop. -/
def pageStep (env : LoadEnv) (version : ℕ) (s : Loader) (flags addr : ℕ) : Option Loader :=
  if hasFlag flags flagCompress then
    (pageTarget env version s flags addr).map fun r => compressStep env r.2 r.1 flags
  else if hasFlag flags flagPage then
    (pageTarget env version s flags addr).map fun r => rawStep r.2 r.1 flags
  else some (s.next flags)

/-- One step. -/
def loadStep (env : LoadEnv) (version : ℕ) (s : Loader) : Option Loader :=
  match s.phase with
  | .header => some (headerStep version s)
  | .sizes flags addr total => some (sizesStep env s flags addr total)
  | .page flags addr => pageStep env version s flags addr
  | .done _ => some s

/-- Steps until the return. -/
def loadLoop (env : LoadEnv) (version : ℕ) : ℕ → Loader → Option Loader
  | 0, _ => none
  | fuel + 1, s =>
    if s.phase.isDone then some s else (loadStep env version s).bind (loadLoop env version fuel)

/-- The state at the call of `ram_load`. -/
def loadStart (version : ℕ) (file : Stream) (blocks : List RamBlock) (block : Option RamBlock) :
    Loader :=
  ⟨file, blocks, block, [], if version < 3 ∨ 4 < version then .done (-einval) else .header⟩

/-- `ram_load`, with a bound on the number of steps. -/
def ramLoad (env : LoadEnv) (version fuel : ℕ) (file : Stream) (blocks : List RamBlock)
    (block : Option RamBlock) : Option Loader :=
  loadLoop env version fuel (loadStart version file blocks block)

/-! ### Contained loads -/

/-- A range of host memory is in one of the blocks. -/
def InBlock (blocks : List RamBlock) (start len : ℕ) : Prop :=
  ∃ b ∈ blocks, b.host ≤ start ∧ start + len ≤ b.host + b.length

/-- The page that was written to, and what was discarded with it, is in a block, and a page that is
not in its block was not written to, but `ram_load` returned an error. -/
structure Contained (blocks : List RamBlock) (s : Loader) : Prop where
  inside : ∀ a ∈ s.accesses, a.bytes ≠ [] →
    InBlock blocks a.target.host (max targetPageSize a.discarded)
  refused : ∀ a ∈ s.accesses, ¬ a.target.Inside → a.bytes = [] ∧ ∃ e, s.phase = .done e ∧ e < 0

/-- The block of a record, which it names or which was the last one. -/
def namedBlock (env : LoadEnv) (s : Loader) (flags : ℕ) : Option RamBlock :=
  if hasFlag flags flagContinue then s.block else findBlock s.blocks (getName env.junk s.file).1

/-- What is in the stream behind the name, if there is one. -/
def behindName (env : LoadEnv) (s : Loader) (flags : ℕ) : List UInt8 :=
  if hasFlag flags flagContinue then s.file.rest else (getName env.junk s.file).2.rest

/-- If a page at the start of a page of the host is filled with 0, that page of the host is in a
block. The fill byte is the first of `rest`, and 0 at the end of the stream. -/
def DiscardOk (env : LoadEnv) (blocks : List RamBlock) (host : ℕ) (rest : List UInt8) : Prop :=
  rest.headD 0 = 0 → host % 2 ^ env.hostPageBits = 0 → InBlock blocks host (2 ^ env.hostPageBits)

/-- A page is in its block, and so is what is discarded with it. Otherwise a record with `COMPRESS`
has to have a pointer that is `NULL`, and one with `PAGE` nothing behind it. -/
def Fits (env : LoadEnv) (blocks : List RamBlock) (compress : Bool) (t : Target)
    (rest : List UInt8) : Prop :=
  (t.Inside ∧ (compress = true → DiscardOk env blocks t.host rest)) ∨
    if compress then t.host = 0 else rest = []

/-- The page of a record fits, which in version 3 is the one at an address of RAM. -/
def PageOk (env : LoadEnv) (version : ℕ) (s : Loader) (flags addr : ℕ) : Prop :=
  if version = 3 then
    ∃ b, (s.blocks.find? fun b => b.Contains addr) = some b ∧
      Fits env s.blocks (hasFlag flags flagCompress) ⟨some b, addr - b.offset⟩ s.file.rest
  else
    Fits env s.blocks (hasFlag flags flagCompress) ⟨namedBlock env s flags, addr⟩
      (behindName env s flags)

/-- The next step is a good one: a list of blocks that is cut off does not go on for ever with a
block without a name and a length, and a page is in its block. -/
def StepOk (env : LoadEnv) (version : ℕ) (s : Loader) : Prop :=
  match s.phase with
  | .header => True
  | .sizes _ _ total =>
    total ≠ 0 → s.file.rest = [] → ∀ b, findBlock s.blocks [] = some b → b.length ≠ 0
  | .page flags addr =>
    (hasFlag flags flagCompress || hasFlag flags flagPage) = true → PageOk env version s flags addr
  | .done _ => True

/-- A step before the return. -/
def Steps (env : LoadEnv) (version : ℕ) (s s' : Loader) : Prop :=
  s.phase.isDone = false ∧ loadStep env version s = some s'

/-- Any number of steps. -/
abbrev Reaches (env : LoadEnv) (version : ℕ) : Loader → Loader → Prop :=
  Relation.ReflTransGen (Steps env version)

section

variable {env : LoadEnv} {version : ℕ} {s s' t : Loader} {flags addr total : ℕ}

/-! ### Termination -/

/-- A bound on the number of steps. -/
def potential (s : Loader) : ℕ :=
  3 * s.file.left +
    match s.phase with
    | .header => if s.file.left = 0 then 3 else 0
    | .sizes _ _ _ => 2
    | .page _ _ => 1
    | .done _ => 0

theorem potential_headerStep (h : s.phase = .header) :
    potential (headerStep version s) < potential s := by
  have hleft := s.file.left_getBe 8
  have hs : potential s = 3 * s.file.left + if s.file.left = 0 then 3 else 0 := by
    rw [potential, h]
  have hle : potential (headerStep version s) ≤ 3 * (s.file.getBe 8).2.left + 2 := by
    rw [headerStep]
    split_ifs <;> simp [potential, Loader.ret]
  rw [hs]
  split_ifs <;> omega

theorem left_getName (junk : ℕ → UInt8) (file : Stream) :
    (getName junk file).2.left ≤ file.left - 1 := by
  rw [← Stream.left_getByte]
  exact Stream.left_getBuffer_le _ _

theorem getName_nil {junk : ℕ → UInt8} {file : Stream} (h : file.rest = []) :
    getName junk file = ([], ⟨[], true⟩) := by
  obtain ⟨rest, e⟩ := file
  obtain rfl : rest = [] := h
  rfl

/-- A name that was written is read back. -/
theorem getName_append {junk : ℕ → UInt8} {name rest : List UInt8} {e : Bool}
    (hlen : name.length < 256) (hname : 0 ∉ name) :
    getName junk ⟨UInt8.ofNat name.length :: name ++ rest, e⟩ = (name, ⟨rest, e⟩) := by
  have hbyte : (UInt8.ofNat name.length).toNat = name.length := by
    rw [UInt8.toNat_ofNat']
    exact Nat.mod_eq_of_lt hlen
  have htake : name.takeWhile (· ≠ 0) = name := by
    rw [takeWhile_eq_self_iff]
    intro b hb
    simp only [ne_eq, decide_not, Bool.not_eq_eq_eq_not, Bool.not_true, decide_eq_false_iff_not]
    rintro rfl
    exact hname hb
  simp only [getName, Stream.getByte, cons_append, hbyte, Stream.getBuffer_append rfl, nameOf,
    Nat.sub_self, range'_zero, map_nil, append_nil, htake]

theorem getBe_nil (e : Bool) : Stream.getBe ⟨[], e⟩ 8 = (0, ⟨[], true⟩) := by
  simp [Stream.getBe, Stream.getBytes, Stream.getByte, BigEndian.ofBe]

/-- At the end of the stream, the list of blocks ends or it does not get any further. -/
theorem sizesStep_nil (htotal : total ≠ 0) (hrest : s.file.rest = []) :
    sizesStep env s flags addr total =
      match findBlock s.blocks [] with
      | none => { s with file := ⟨[], true⟩ }.ret (-einval)
      | some b =>
        if b.length ≠ 0 then { s with file := ⟨[], true⟩ }.ret (-einval)
        else { s with
          file := ⟨[], true⟩
          phase := .sizes flags addr ((total + 2 ^ 64 - 0) % 2 ^ 64) } := by
  rw [sizesStep, if_neg htotal]
  simp only [getName_nil hrest, getBe_nil]

theorem potential_sizesStep (h : s.phase = .sizes flags addr total) (hok : StepOk env version s) :
    potential (sizesStep env s flags addr total) < potential s := by
  have hs : potential s = 3 * s.file.left + 2 := by rw [potential, h]
  rw [hs]
  by_cases htotal : total = 0
  · rw [sizesStep, if_pos htotal]
    simp [potential]
  · by_cases hleft : s.file.left = 0
    · have hrest := (Stream.left_eq_zero.mp hleft).1
      rw [StepOk, h] at hok
      rw [sizesStep_nil htotal hrest]
      cases hfind : findBlock s.blocks [] with
      | none => simp [potential, Loader.ret, Stream.left]
      | some b =>
        simp only [if_pos (hok htotal hrest b hfind)]
        simp [potential, Loader.ret, Stream.left]
    · have hname := left_getName env.junk s.file
      have hlength := (getName env.junk s.file).2.left_getBe 8
      have hle : potential (sizesStep env s flags addr total) ≤
          3 * ((getName env.junk s.file).2.getBe 8).2.left + 2 := by
        rw [sizesStep, if_neg htotal]
        simp only
        split
        · simp [potential, Loader.ret]
        · split_ifs <;> simp [potential, Loader.ret]
      omega

theorem potential_ret (s : Loader) (e : ℤ) : potential (s.ret e) = 3 * s.file.left := rfl

theorem potential_next (s : Loader) (flags : ℕ) : potential (s.next flags) ≤ 3 * s.file.left := by
  rw [Loader.next]
  cases herr : s.file.hasError with
  | true => simp [potential_ret]
  | false =>
    have hpos := Stream.left_pos herr
    simp only [Bool.false_eq_true, if_false]
    split_ifs
    · rw [potential_ret]
    · simp only [potential, if_neg hpos.ne']
      omega

theorem potential_compressStep (s : Loader) (t : Target) (flags : ℕ) :
    potential (compressStep env s t flags) ≤ 3 * s.file.left := by
  rw [compressStep]
  split_ifs
  · exact le_of_eq (potential_ret _ _)
  · refine (potential_next _ flags).trans (Nat.mul_le_mul_left 3 ?_)
    exact s.file.left_getByte.trans_le (Nat.sub_le _ _)

theorem potential_rawStep (s : Loader) (t : Target) (flags : ℕ) :
    potential (rawStep s t flags) ≤ 3 * s.file.left := by
  have hleft := s.file.left_getBuffer_le targetPageSize
  exact (potential_next _ flags).trans (Nat.mul_le_mul_left 3 hleft)

/-! ### The page of a record -/

theorem pageStep_eq_some (h : pageStep env version s flags addr = some s') :
    ((hasFlag flags flagCompress || hasFlag flags flagPage) = false ∧ s' = s.next flags) ∨
      ∃ t r, (hasFlag flags flagCompress || hasFlag flags flagPage) = true ∧
        pageTarget env version s flags addr = some (t, r) ∧
        s' = if hasFlag flags flagCompress then compressStep env r t flags
        else rawStep r t flags := by
  rw [pageStep] at h
  cases hcompress : hasFlag flags flagCompress with
  | true =>
    rw [if_pos hcompress] at h
    obtain ⟨⟨t, r⟩, htarget, rfl⟩ := map_eq_some_iff.mp h
    exact .inr ⟨t, r, rfl, htarget, rfl⟩
  | false =>
    rw [hcompress, if_neg Bool.false_ne_true] at h
    cases hpage : hasFlag flags flagPage with
    | true =>
      rw [if_pos hpage] at h
      obtain ⟨⟨t, r⟩, htarget, rfl⟩ := map_eq_some_iff.mp h
      exact .inr ⟨t, r, rfl, htarget, rfl⟩
    | false =>
      rw [hpage, if_neg Bool.false_ne_true] at h
      exact .inl ⟨rfl, (some.inj h).symm⟩

/-- What is true of every state of a call. -/
structure Valid (blocks : List RamBlock) (s : Loader) : Prop where
  perm : s.blocks.Perm blocks
  block : ∀ b, s.block = some b → b ∈ blocks
  total : ∀ flags addr total, s.phase = .sizes flags addr total → total < 2 ^ 64

variable {blocks : List RamBlock}

theorem mem_of_findBlock {name : List UInt8} {b : RamBlock}
    (h : findBlock blocks name = some b) : b ∈ blocks :=
  mem_of_find?_eq_some h

/-- Looking for the page changes neither the log nor the set of the blocks. -/
theorem pageTarget_spec {target : Target} (hv : Valid blocks s)
    (h : pageTarget env version s flags addr = some (target, t)) :
    t.blocks.Perm blocks ∧ (∀ b, t.block = some b → b ∈ blocks) ∧
      (∀ b, target.block = some b → b ∈ blocks) ∧ t.accesses = s.accesses ∧
      t.file.left ≤ s.file.left := by
  rw [pageTarget] at h
  split_ifs at h with hversion
  · obtain ⟨b, hb, heq⟩ := map_eq_some_iff.mp h
    cases heq
    have hmem := mem_of_find?_eq_some hb
    refine ⟨(perm_cons_erase hmem).symm.trans hv.perm, hv.block, ?_, rfl, le_rfl⟩
    rintro b' hb'
    cases hb'
    exact hv.perm.mem_iff.mp hmem
  · rw [hostFromStreamOffset] at h
    split_ifs at h with hcont
    · cases h
      exact ⟨hv.perm, hv.block, hv.block, rfl, le_rfl⟩
    · cases h
      have hfound : ∀ b, findBlock s.blocks (getName env.junk s.file).1 = some b → b ∈ blocks :=
        fun b hb => hv.perm.mem_iff.mp (mem_of_findBlock hb)
      exact ⟨hv.perm, hfound, hfound, rfl, (left_getName env.junk s.file).trans (Nat.sub_le _ _)⟩

/-- The condition on a record, in terms of the page that the code finds. -/
theorem pageOk_iff :
    PageOk env version s flags addr ↔
      ∃ t r, pageTarget env version s flags addr = some (t, r) ∧
        Fits env s.blocks (hasFlag flags flagCompress) t r.file.rest := by
  by_cases hversion : version = 3
  · simp only [PageOk, pageTarget, if_pos hversion, qemuGetRamPtr, map_eq_some_iff]
    constructor
    · rintro ⟨b, hb, hfits⟩
      exact ⟨_, _, ⟨b, hb, rfl⟩, hfits⟩
    · rintro ⟨_, _, ⟨b, hb, heq⟩, hfits⟩
      cases heq
      exact ⟨b, hb, hfits⟩
  · have htarget : pageTarget env version s flags addr =
        some (⟨namedBlock env s flags, addr⟩, (hostFromStreamOffset env s addr flags).2) := by
      rw [pageTarget, if_neg hversion, hostFromStreamOffset, namedBlock]
      split_ifs <;> rfl
    have hbehind :
        (hostFromStreamOffset env s addr flags).2.file.rest = behindName env s flags := by
      rw [hostFromStreamOffset, behindName]
      split_ifs <;> rfl
    simp only [PageOk, if_neg hversion, htarget, ← hbehind]
    constructor
    · exact fun hfits => ⟨_, _, rfl, hfits⟩
    · rintro ⟨_, _, heq, hfits⟩
      cases heq
      exact hfits

theorem Target.host_eq {b : RamBlock} {offset : ℕ} (h : offset + targetPageSize ≤ b.length) :
    Target.host ⟨some b, offset⟩ = b.host + offset := by
  have hle := b.hostLe
  have hpos : 0 < targetPageSize := by decide
  show (b.host + offset) % 2 ^ 64 = _
  exact Nat.mod_eq_of_lt (by omega)

theorem Target.Inside.inBlock {target : Target} (h : target.Inside)
    (hmem : ∀ b, target.block = some b → b ∈ blocks) :
    InBlock blocks target.host targetPageSize := by
  obtain ⟨block, offset⟩ := target
  obtain ⟨b, rfl, hfits⟩ := h
  rw [Target.host_eq hfits]
  exact ⟨b, hmem b rfl, Nat.le_add_right _ _, (Nat.add_assoc ..).trans_le
    (Nat.add_le_add_left hfits _)⟩

theorem InBlock.mono {start len len' : ℕ} (h : InBlock blocks start len') (hle : len ≤ len') :
    InBlock blocks start len := by
  obtain ⟨b, hb, hstart, hend⟩ := h
  exact ⟨b, hb, hstart, by omega⟩

theorem discardOk_congr {l : List RamBlock} {host : ℕ} {rest : List UInt8} (h : l.Perm blocks) :
    DiscardOk env l host rest ↔ DiscardOk env blocks host rest := by
  simp only [DiscardOk, InBlock, h.mem_iff]

/-- Where a page is in its block, the condition on what is discarded says that it is in a block. -/
theorem inBlock_max_iff {target : Target} {compress : Bool} {rest : List UInt8} (h : target.Inside)
    (hmem : ∀ b, target.block = some b → b ∈ blocks) :
    InBlock blocks target.host (max targetPageSize
        (if compress && rest.headD 0 = 0 then discard env target.host else 0)) ↔
      (compress = true → DiscardOk env blocks target.host rest) := by
  have hpage := h.inBlock hmem
  by_cases hzero : compress = true ∧ rest.headD 0 = 0 ∧ target.host % 2 ^ env.hostPageBits = 0
  · obtain ⟨rfl, hbyte, hhost⟩ := hzero
    rw [if_pos (by simpa using hbyte), discard, if_pos hhost, ← max_assoc, max_self]
    constructor
    · exact fun hin _ _ _ => hin.mono (le_max_right _ _)
    · intro hok
      rcases max_choice targetPageSize (2 ^ env.hostPageBits) with heq | heq
      · rwa [heq]
      · rw [heq]
        exact hok rfl hbyte hhost
  · refine iff_of_true ?_ fun hcompress hbyte hhost => absurd ⟨hcompress, hbyte, hhost⟩ hzero
    have hnone : (if compress && rest.headD 0 = 0 then discard env target.host else 0) = 0 := by
      rw [discard]
      split_ifs with hfill hhost
      · exact absurd ⟨by simp_all, by simp_all, hhost⟩ hzero
      · rfl
      · rfl
    rwa [hnone, max_eq_left (Nat.zero_le _)]

theorem next_accesses (s : Loader) (flags : ℕ) : (s.next flags).accesses = s.accesses := by
  rw [Loader.next]
  split_ifs <;> rfl

theorem next_blocks (s : Loader) (flags : ℕ) :
    (s.next flags).blocks = s.blocks ∧ (s.next flags).block = s.block := by
  rw [Loader.next]
  split_ifs <;> exact ⟨rfl, rfl⟩

theorem next_not_sizes (s : Loader) (flags flags' addr total : ℕ) :
    (s.next flags).phase ≠ .sizes flags' addr total := by
  rw [Loader.next, Loader.ret, Loader.ret]
  split_ifs <;> exact Phase.noConfusion

theorem getByte_fst (file : Stream) : file.getByte.1 = file.rest.headD 0 := by
  rcases file with ⟨_ | _, _⟩ <;> rfl

/-- What the page step does once it has the page: it logs an access, and returns an error if it
found `NULL` or nothing to read. -/
theorem accessStep_spec {target : Target} {r : Loader}
    (h : s' = if hasFlag flags flagCompress then compressStep env r target flags
      else rawStep r target flags) :
    s'.blocks = r.blocks ∧ s'.block = r.block ∧
    (∀ flags addr total, s'.phase ≠ .sizes flags addr total) ∧
      potential s' ≤ 3 * r.file.left ∧
      ∃ bytes n, s'.accesses = r.accesses ++ [⟨target, bytes, n⟩] ∧
        (bytes = [] ↔ if hasFlag flags flagCompress then target.host = 0 else r.file.rest = []) ∧
        (bytes = [] → ∃ e, s'.phase = .done e ∧ e < 0) ∧
        (bytes ≠ [] → n = if hasFlag flags flagCompress && r.file.rest.headD 0 = 0 then
          discard env target.host else 0) := by
  cases hcompress : hasFlag flags flagCompress with
  | true =>
    rw [hcompress, if_pos rfl] at h
    simp only [if_true]
    subst h
    have hpotential : potential (compressStep env r target flags) ≤ _ :=
      potential_compressStep r target flags
    rw [compressStep] at hpotential ⊢
    by_cases hnull : target.host = 0
    · rw [if_pos hnull] at hpotential ⊢
      exact ⟨rfl, rfl, fun _ _ _ => Phase.noConfusion, hpotential, [], 0, rfl, by simp [hnull],
        fun _ => ⟨-einval, rfl, by decide⟩, fun hne => absurd rfl hne⟩
    · rw [if_neg hnull] at hpotential ⊢
      have hne : replicate targetPageSize r.file.getByte.1 ≠ [] := by
        rw [Ne, replicate_eq_nil_iff]
        decide
      exact ⟨(next_blocks _ _).1, (next_blocks _ _).2, fun _ _ _ => next_not_sizes _ _ _ _ _,
        hpotential, _, _, next_accesses _ _, iff_of_false hne hnull, fun h => absurd h hne,
        fun _ => by simp [getByte_fst]⟩
  | false =>
    rw [hcompress, if_neg Bool.false_ne_true] at h
    simp only [Bool.false_eq_true, if_false]
    subst h
    refine ⟨(next_blocks _ _).1, (next_blocks _ _).2, fun _ _ _ => next_not_sizes _ _ _ _ _,
      potential_rawStep r target flags, r.file.rest.take targetPageSize, 0, next_accesses _ _, ?_,
      fun h => ⟨-eio, ?_, by decide⟩, fun _ => rfl⟩
    · rw [take_eq_nil_iff]
      exact or_iff_right (by decide)
    · have hrest : r.file.rest = [] := by
        rw [take_eq_nil_iff] at h
        exact h.resolve_left (by decide)
      have herr : (r.file.getBuffer targetPageSize).2.hasError = true := by
        simp [Stream.getBuffer, hrest, targetPageSize]
      rw [rawStep, Loader.next]
      show (if (r.file.getBuffer targetPageSize).2.hasError = true then _ else _ : Loader).phase = _
      rw [if_pos herr]
      rfl

/-! ### Steps -/

theorem headerStep_spec (version : ℕ) (s : Loader) :
    (headerStep version s).blocks = s.blocks ∧ (headerStep version s).block = s.block ∧
      (headerStep version s).accesses = s.accesses ∧
      ∀ flags addr total, (headerStep version s).phase = .sizes flags addr total →
      total < 2 ^ 64 := by
  have hlt := s.file.getBe_lt 8
  have hpow : 256 ^ 8 = 2 ^ 64 := rfl
  rw [headerStep]
  split_ifs
  · exact ⟨rfl, rfl, rfl, by simp [Loader.ret]⟩
  · exact ⟨rfl, rfl, rfl, by simp⟩
  · refine ⟨rfl, rfl, rfl, fun _ _ _ h => ?_⟩
    cases h
    omega
  · exact ⟨rfl, rfl, rfl, by simp⟩

theorem sizesStep_spec (env : LoadEnv) (s : Loader) (flags addr total : ℕ) :
    (sizesStep env s flags addr total).blocks = s.blocks ∧
      (sizesStep env s flags addr total).block = s.block ∧
      (sizesStep env s flags addr total).accesses = s.accesses ∧
      ∀ flags' addr' total', (sizesStep env s flags addr total).phase = .sizes flags' addr' total' →
        total' < 2 ^ 64 := by
  by_cases htotal : total = 0
  · rw [sizesStep, if_pos htotal]
    exact ⟨rfl, rfl, rfl, by simp⟩
  · simp only [sizesStep, if_neg htotal]
    split
    · exact ⟨rfl, rfl, rfl, by simp [Loader.ret]⟩
    · split_ifs
      · exact ⟨rfl, rfl, rfl, by simp [Loader.ret]⟩
      · refine ⟨rfl, rfl, rfl, fun _ _ _ h => ?_⟩
        cases h
        exact Nat.mod_lt _ (by decide)

/-- What a step does to the log: nothing, or it handles a record. -/
inductive Logged (env : LoadEnv) (version : ℕ) (blocks : List RamBlock) (s s' : Loader) : Prop
  | none (h : s'.accesses = s.accesses)
  | record {flags addr n : ℕ} {target : Target} {r : Loader} {bytes : List UInt8}
      (hphase : s.phase = .page flags addr)
      (hflags : (hasFlag flags flagCompress || hasFlag flags flagPage) = true)
      (htarget : pageTarget env version s flags addr = some (target, r))
      (hmem : ∀ b, target.block = some b → b ∈ blocks)
      (h : s'.accesses = s.accesses ++ [⟨target, bytes, n⟩])
      (hbytes : bytes = [] ↔
        if hasFlag flags flagCompress then target.host = 0 else r.file.rest = [])
      (herr : bytes = [] → ∃ e, s'.phase = .done e ∧ e < 0)
      (hn : bytes ≠ [] → n = if hasFlag flags flagCompress && r.file.rest.headD 0 = 0 then
        discard env target.host else 0)

theorem Steps.spec (h : Steps env version s s') (hv : Valid blocks s) :
    Valid blocks s' ∧ Logged env version blocks s s' := by
  obtain ⟨hdone, h⟩ := h
  rw [loadStep] at h
  cases hphase : s.phase with
  | header =>
    simp only [hphase] at h
    cases h
    obtain ⟨hblocks, hblock, hacc, htotal⟩ := headerStep_spec version s
    exact ⟨⟨hblocks ▸ hv.perm, hblock ▸ hv.block, htotal⟩, .none hacc⟩
  | sizes flags addr total =>
    simp only [hphase] at h
    cases h
    obtain ⟨hblocks, hblock, hacc, htotal⟩ := sizesStep_spec env s flags addr total
    exact ⟨⟨hblocks ▸ hv.perm, hblock ▸ hv.block, htotal⟩, .none hacc⟩
  | page flags addr =>
    simp only [hphase] at h
    rcases pageStep_eq_some h with ⟨-, rfl⟩ | ⟨target, r, hflags, htarget, heq⟩
    · obtain ⟨hblocks, hblock⟩ := next_blocks s flags
      refine ⟨⟨hblocks ▸ hv.perm, hblock ▸ hv.block, ?_⟩, .none (next_accesses s flags)⟩
      exact fun _ _ _ hsizes => absurd hsizes (next_not_sizes _ _ _ _ _)
    · obtain ⟨hperm, hblock, hmem, hacc, -⟩ := pageTarget_spec hv htarget
      obtain ⟨hblocks', hblock', hsizes, -, bytes, n, hacc', hbytes, herr, hn⟩ :=
        accessStep_spec heq
      refine ⟨⟨hblocks' ▸ hperm, hblock' ▸ hblock, fun _ _ _ h => absurd h (hsizes _ _ _)⟩, ?_⟩
      exact .record hphase hflags htarget hmem (by rw [hacc', hacc]) hbytes herr hn
  | done e =>
    rw [hphase] at hdone
    exact Bool.noConfusion hdone

/-- A good step has a result and gets nearer to the return. -/
theorem exists_steps (hdone : s.phase.isDone = false) (hv : Valid blocks s)
    (hok : StepOk env version s) : ∃ s', Steps env version s s' ∧ potential s' < potential s := by
  have hstep : ∀ s', loadStep env version s = some s' → potential s' < potential s →
      ∃ s', Steps env version s s' ∧ potential s' < potential s :=
    fun s' h hlt => ⟨s', ⟨hdone, h⟩, hlt⟩
  cases hphase : s.phase with
  | header =>
    exact hstep (headerStep version s) (by simp only [loadStep, hphase])
      (potential_headerStep hphase)
  | sizes flags addr total =>
    exact hstep _ (by simp only [loadStep, hphase]) (potential_sizesStep hphase hok)
  | page flags addr =>
    have hs : potential s = 3 * s.file.left + 1 := by rw [potential, hphase]
    have hpage : ∃ s', pageStep env version s flags addr = some s' := by
      rw [pageStep]
      split_ifs with hcompress hraw
      all_goals simp only [StepOk, hphase] at hok
      · obtain ⟨t, r, htarget, -⟩ := pageOk_iff.mp (hok (by rw [hcompress]; rfl))
        exact ⟨_, by rw [htarget]; rfl⟩
      · obtain ⟨t, r, htarget, -⟩ := pageOk_iff.mp (hok (by rw [hraw, Bool.or_true]))
        exact ⟨_, by rw [htarget]; rfl⟩
      · exact ⟨_, rfl⟩
    obtain ⟨s', hs'⟩ := hpage
    refine hstep s' (by simp only [loadStep, hphase, hs']) ?_
    rw [hs]
    rcases pageStep_eq_some hs' with ⟨-, rfl⟩ | ⟨target, r, -, htarget, heq⟩
    · exact Nat.lt_succ_of_le (potential_next s flags)
    · obtain ⟨-, -, -, -, hleft⟩ := pageTarget_spec hv htarget
      obtain ⟨-, -, -, hle, -⟩ := accessStep_spec heq
      omega
  | done e =>
    rw [hphase] at hdone
    exact Bool.noConfusion hdone

/-! ### Runs -/

theorem Reaches.valid (h : Reaches env version s t) (hv : Valid blocks s) : Valid blocks t := by
  induction h with
  | refl => exact hv
  | tail _ hstep ih => exact (hstep.spec ih).1

theorem Reaches.accesses (h : Reaches env version s t) (hv : Valid blocks s) :
    s.accesses ⊆ t.accesses := by
  induction h with
  | refl => exact List.Subset.refl _
  | @tail t t' hreach hstep ih =>
    refine List.Subset.trans ih ?_
    rcases (hstep.spec (Reaches.valid hreach hv)).2 with h | ⟨-, -, -, -, h⟩
    · rw [h]
      exact List.Subset.refl _
    · rw [h]
      exact subset_append_left _ _

/-- The loop performs the steps up to the return. -/
theorem loadLoop_reaches {fuel : ℕ} (h : loadLoop env version fuel s = some t) :
    Reaches env version s t ∧ t.phase.isDone = true := by
  induction fuel generalizing s with
  | zero => exact absurd h (by simp [loadLoop])
  | succ fuel ih =>
    rw [loadLoop] at h
    split_ifs at h with hdone
    · cases h
      exact ⟨.refl, hdone⟩
    · obtain ⟨s', hstep, h⟩ := bind_eq_some_iff.mp h
      obtain ⟨hreach, hdone'⟩ := ih h
      exact ⟨.head ⟨by simpa using hdone, hstep⟩ hreach, hdone'⟩

/-- From every state that is reached, the rest of the loop leads to the same result. -/
theorem loadLoop_of_reaches {fuel : ℕ} {u : Loader} (h : loadLoop env version fuel s = some t)
    (hreach : Reaches env version s u) : ∃ fuel, loadLoop env version fuel u = some t := by
  induction hreach with
  | refl => exact ⟨fuel, h⟩
  | @tail u u' _ hstep ih =>
    obtain ⟨fuel, hfuel⟩ := ih
    obtain ⟨hdone, hstep⟩ := hstep
    cases fuel with
    | zero => exact absurd hfuel (by simp [loadLoop])
    | succ fuel =>
      rw [loadLoop, hdone, if_neg Bool.false_ne_true, hstep] at hfuel
      exact ⟨fuel, hfuel⟩

/-- **If all steps are good ones, `ram_load` returns.** -/
theorem exists_loadLoop (hv : Valid blocks s)
    (hok : ∀ t, Reaches env version s t → StepOk env version t) :
    ∃ fuel t, loadLoop env version fuel s = some t := by
  induction hn : potential s using Nat.strong_induction_on generalizing s with
  | _ n ih =>
    cases hdone : s.phase.isDone with
    | true => exact ⟨1, s, by rw [loadLoop, if_pos hdone]⟩
    | false =>
      obtain ⟨s', hstep, hlt⟩ := exists_steps hdone hv (hok s .refl)
      obtain ⟨fuel, t, ht⟩ :=
        ih _ (hn ▸ hlt) (hstep.spec hv).1 (fun t h => hok t (.head hstep h)) rfl
      refine ⟨fuel + 1, t, ?_⟩
      rw [loadLoop, hdone, if_neg Bool.false_ne_true, hstep.2, bind_some, ht]

/-! ### Writes -/

/-- Accesses are to pages in their blocks, with what is discarded, except that the last one may have
been refused. -/
def Good (blocks : List RamBlock) (s : Loader) : Prop :=
  ∀ a ∈ s.accesses,
    (a.target.Inside ∧ InBlock blocks a.target.host (max targetPageSize a.discarded)) ∨
      a.bytes = [] ∧ ∃ e, s.phase = .done e ∧ e < 0

theorem Good.steps (hgood : Good blocks s) (hv : Valid blocks s)
    (hok : StepOk env version s) (h : Steps env version s s') : Good blocks s' := by
  have hold : ∀ a ∈ s.accesses,
      a.target.Inside ∧ InBlock blocks a.target.host (max targetPageSize a.discarded) := by
    intro a ha
    rcases hgood a ha with hin | ⟨-, e, he, -⟩
    · exact hin
    · rw [Steps, he] at h
      exact Bool.noConfusion h.1
  rcases (h.spec hv).2 with heq | @⟨_, _, _, _, _, bytes, hphase, hflags, htarget, hmem, heq,
    hbytes, herr, hn⟩
  · intro a ha
    rw [heq] at ha
    exact .inl (hold a ha)
  · intro a ha
    rw [heq, mem_append, mem_singleton] at ha
    rcases ha with ha | rfl
    · exact .inl (hold a ha)
    · simp only [StepOk, hphase] at hok
      obtain ⟨t, r, htarget', hpage⟩ := pageOk_iff.mp (hok hflags)
      rw [htarget] at htarget'
      cases htarget'
      by_cases hnil : bytes = []
      · exact .inr ⟨hnil, herr hnil⟩
      · obtain ⟨hin, hdiscard⟩ := hpage.resolve_right fun hnull => hnil (hbytes.mpr hnull)
        refine .inl ⟨hin, ?_⟩
        rw [hn hnil, inBlock_max_iff hin hmem]
        exact fun hcompress => (discardOk_congr hv.perm).mp (hdiscard hcompress)

theorem Reaches.good (h : Reaches env version s t) (hgood : Good blocks s)
    (hv : Valid blocks s) (hok : ∀ t, Reaches env version s t → StepOk env version t) :
    Good blocks t := by
  induction h with
  | refl => exact hgood
  | tail hreach hstep ih => exact ih.steps (Reaches.valid hreach hv) (hok _ hreach) hstep

theorem Good.contained (h : Good blocks s) : Contained blocks s where
  inside a ha hne := ((h a ha).resolve_right fun hnil => hne hnil.1).2
  refused a ha hout := (h a ha).resolve_left fun hin => hout hin.1

/-! ### Steps that are not good -/

/-- A list of blocks that is cut off goes on for ever if a block has no name and no length. -/
theorem loadLoop_stuck {b : RamBlock} (hfind : findBlock s.blocks [] = some b)
    (hlength : b.length = 0) (hphase : s.phase = .sizes flags addr total) (htotal : total ≠ 0)
    (hlt : total < 2 ^ 64) (hrest : s.file.rest = []) (fuel : ℕ) :
    loadLoop env version fuel s = none := by
  induction fuel generalizing s with
  | zero => rfl
  | succ fuel ih =>
    have hstep : loadStep env version s =
        some { s with file := ⟨[], true⟩, phase := .sizes flags addr total } := by
      simp only [loadStep, hphase]
      rw [sizesStep_nil htotal hrest, hfind]
      simp only [hlength, ne_eq, not_true_eq_false, if_false, Nat.sub_zero, Nat.add_mod_right,
        Nat.mod_eq_of_lt hlt]
    rw [loadLoop, hstep, hphase]
    exact ih hfind rfl rfl

/-- Where the rest of the loop returns and everything is contained, the step is a good one. -/
theorem stepOk_of_contained {fuel : ℕ} (hv : Valid blocks s)
    (h : loadLoop env version fuel s = some t) (hc : Contained blocks t) :
    StepOk env version s := by
  rw [StepOk]
  split
  · trivial
  · next hphase =>
    intro htotal hrest b hfind hlength
    have hnone : loadLoop env version fuel s = none :=
      loadLoop_stuck hfind hlength hphase htotal (hv.total _ _ _ hphase) hrest fuel
    exact absurd (hnone.symm.trans h) (by simp)
  · next flags addr hphase =>
    intro hflags
    have hdone : s.phase.isDone = false := by rw [hphase]; rfl
    cases fuel with
    | zero => exact absurd h (by simp [loadLoop])
    | succ fuel =>
      rw [loadLoop, hdone, if_neg Bool.false_ne_true] at h
      obtain ⟨s', hstep, hloop⟩ := bind_eq_some_iff.mp h
      have hsteps : Steps env version s s' := ⟨hdone, hstep⟩
      have hsub := (loadLoop_reaches hloop).1.accesses (hsteps.spec hv).1
      simp only [loadStep, hphase] at hstep
      rcases pageStep_eq_some hstep with ⟨hno, -⟩ | ⟨target, r, -, htarget, heq⟩
      · rw [hno] at hflags
        exact Bool.noConfusion hflags
      · obtain ⟨-, -, -, -, bytes, n, hacc, hbytes, -, hn⟩ := accessStep_spec heq
        have hlog : (⟨target, bytes, n⟩ : Access) ∈ t.accesses :=
          hsub (by rw [hacc]; exact mem_append_right _ (mem_singleton_self _))
        obtain ⟨-, -, hmem, -⟩ := pageTarget_spec hv htarget
        refine pageOk_iff.mpr ⟨target, r, htarget, ?_⟩
        by_cases hnil : bytes = []
        · exact .inr (hbytes.mp hnil)
        · have hin : target.Inside := not_not.mp fun hout => hnil (hc.refused _ hlog hout).1
          have hrange := hc.inside _ hlog hnil
          rw [hn hnil, inBlock_max_iff hin hmem] at hrange
          exact .inl ⟨hin, fun hcompress => (discardOk_congr hv.perm).mpr (hrange hcompress)⟩
  · trivial

/-! ### Every call -/

theorem valid_loadStart (version : ℕ) (file : Stream) (blocks : List RamBlock)
    (block : Option { b // b ∈ blocks }) :
    Valid blocks (loadStart version file blocks (block.map Subtype.val)) where
  perm := List.Perm.refl _
  block b hb := by
    obtain ⟨b', -, rfl⟩ := map_eq_some_iff.mp hb
    exact b'.2
  total flags addr total h := by
    rw [loadStart] at h
    split_ifs at h

/-- **When a stream is contained.** `ram_load` returns, has written to pages of blocks only and has
refused every page that is not in its block, exactly when all its steps are good ones. -/
theorem load_contained_iff (env : LoadEnv) (version : ℕ) (bytes : List UInt8)
    (blocks : List RamBlock) (block : Option { b // b ∈ blocks }) :
    (∃ fuel s, ramLoad env version fuel ⟨bytes, false⟩ blocks (block.map Subtype.val) = some s ∧
        Contained blocks s) ↔
      ∀ s, Reaches env version (loadStart version ⟨bytes, false⟩ blocks (block.map Subtype.val)) s →
        StepOk env version s := by
  have hv := valid_loadStart version ⟨bytes, false⟩ blocks block
  constructor
  · rintro ⟨fuel, t, ht, hc⟩ s hs
    obtain ⟨fuel', hfuel'⟩ := loadLoop_of_reaches ht hs
    exact stepOk_of_contained (hs.valid hv) hfuel' hc
  · intro hok
    obtain ⟨fuel, t, ht⟩ := exists_loadLoop hv hok
    have hgood : Good blocks (loadStart version ⟨bytes, false⟩ blocks (block.map Subtype.val)) :=
      nofun
    exact ⟨fuel, t, ht, ((loadLoop_reaches ht).1.good hgood hv hok).contained⟩

/-- With one block of a page at `4096`, a record that fills the page behind it is accepted, and so
is a page for the block before, although there is none. A page of zeros in the block takes three
more with it. -/
theorem outside_and_null_written :
    ∃ b : RamBlock, b.host = 4096 ∧ b.length = 1024 ∧
      let load := fun bytes =>
      (ramLoad ⟨fun _ => 0, 12⟩ 4 8 ⟨bytes ++ BigEndian.beBytes 8 0x10, false⟩ [b]
        none).map fun s => (s.phase, s.accesses.map fun a => (a.target.host, a.bytes, a.discarded))
      load (BigEndian.beBytes 8 (1024 + 0x02) ++ [1, 97, 7]) =
          some (.done 0, [(5120, replicate 1024 7, 0)]) ∧
        load (BigEndian.beBytes 8 0x28 ++ replicate 1024 7) =
          some (.done 0, [(0, replicate 1024 7, 0)]) ∧
        load (BigEndian.beBytes 8 0x02 ++ [1, 97, 0]) =
          some (.done 0, [(4096, replicate 1024 0, 4096)]) := by
  refine ⟨⟨⟨0, 1024, 4096⟩, [97], by decide, by decide, by decide⟩, rfl, rfl, ?_⟩
  dsimp only
  refine ⟨?_, ?_, ?_⟩ <;> decide +kernel

end

end VariabilityTestbed.Migration
