import VariabilityTestbed.Lib.Bytes
import VariabilityTestbed.Lib.Rings
import VariabilityTestbed.Migration.RamLoad

/-!
# Saving RAM

`ram_save_live` sends pages while the guest runs. `ram_save_block` looks for the next dirty page,
starting where it stopped the last time, over all blocks and around. It sends the page and clears
its dirty flag, or it finds nothing when it is back where it started. Stage 1 makes everything dirty
and sends the list of blocks; stage 2 sends pages until the rate limit stops it; stage 3, with the
guest stopped, goes on until nothing is dirty.

Blocks are found through `ram_list`, which any access of the guest may reorder, so the scan of one
call need not be in the order of the call before. Between two calls of `ram_save_block` the guest
can do anything; it is given by a list of `GuestOp`.
-/

namespace VariabilityTestbed.Migration

open Memory Bytes BigEndian List

/-! ### State -/

/-- The blocks of a machine: blocks of pages, that overlap neither as RAM nor in the host, with
names that fit into a record. -/
structure RamConfig where
  blocks : List RamBlock
  nonempty : blocks ≠ []
  positive : ∀ b ∈ blocks, 0 < b.length
  aligned : ∀ b ∈ blocks, b.offset % targetPageSize = 0 ∧ b.length % targetPageSize = 0
  disjoint : blocks.Pairwise fun b c =>
    b.offset + b.length ≤ c.offset ∨ c.offset + c.length ≤ b.offset
  disjointHost : blocks.Pairwise fun b c => b.host + b.length ≤ c.host ∨ c.host + c.length ≤ b.host
  names : (blocks.map fun b => b.idstr).Nodup
  text : ∀ b ∈ blocks, b.idstr.length < 256 ∧ 0 ∉ b.idstr

/-- Where a scan is. -/
structure Position where
  block : RamBlock
  offset : ℕ
  deriving DecidableEq

/-- `current_addr`. -/
def Position.addr (p : Position) : ℕ := p.block.offset + p.offset

/-- The machine that is saved: the list of the blocks, the memory of the host, for each page the
migration dirty flag, and the two variables with the position of the last scan. `sent` is not in the
source: the pages that were sent, the last one first. -/
structure Saver where
  blocks : List RamBlock
  mem : ℕ → UInt8
  dirty : ℕ → Bool
  lastBlock : Option RamBlock
  lastOffset : ℕ
  sent : List (Position × List UInt8)

/-! ### A page -/

/-- `QLIST_NEXT`, or else `QLIST_FIRST`. -/
def nextBlock (blocks : List RamBlock) (b : RamBlock) : Option RamBlock :=
  match blocks.dropWhile (· ≠ b) with
  | _ :: c :: _ => some c
  | _ => blocks.head?

/-- The position behind a page. -/
def advance (blocks : List RamBlock) (p : Position) : Option Position :=
  if p.block.length ≤ p.offset + targetPageSize then (nextBlock blocks p.block).map fun b => ⟨b, 0⟩
  else some ⟨p.block, p.offset + targetPageSize⟩

/-- The loop of `ram_save_block`: the next page that is dirty, or where the scan is when it is back
at `start`, which is `last_block->offset + last_offset`. It has no defined result if `last_block` is
`NULL` there. -/
def findDirty (blocks : List RamBlock) (dirty : ℕ → Bool) (start : Option ℕ) :
    ℕ → Position → Option (Position × Bool)
  | 0, _ => none
  | fuel + 1, p =>
    if dirty (p.addr / targetPageSize) then some (p, true)
    else do
      let q ← advance blocks p
      let a ← start
      if q.addr = a then some (q, false) else findDirty blocks dirty start fuel q

/-- `is_dup_page`. -/
def isDupPage (page : List UInt8) (ch : UInt8) : Bool := page.all fun b => b = ch

/-- The bytes of a record for a page. -/
def recordBytes (b : RamBlock) (offset : ℕ) (cont : Bool) (page : List UInt8) : List UInt8 :=
  let ch := page.headD 0
  let name := if cont then [] else UInt8.ofNat b.idstr.length :: b.idstr
  let flag := if cont then flagContinue else 0
  if isDupPage page ch then beBytes 8 (offset ||| flag ||| flagCompress) ++ name ++ [ch]
  else beBytes 8 (offset ||| flag ||| flagPage) ++ name ++ page

/-- The result of `ram_save_block`: the state, the bytes that were put, and what it returns. -/
structure Sent where
  saver : Saver
  bytes : List UInt8
  ret : ℕ

/-- Send the page at a position. -/
def sendPage (s : Saver) (p : Position) : Sent :=
  let page := loadBytes s.mem (p.block.host + p.offset) targetPageSize
  { saver := { s with
      dirty := Function.update s.dirty (p.addr / targetPageSize) false
      lastBlock := some p.block
      lastOffset := p.offset
      sent := (p, page) :: s.sent }
    bytes := recordBytes p.block p.offset (s.lastBlock = some p.block) page
    ret := if isDupPage page (page.headD 0) then 1 else targetPageSize }

/-- `ram_save_block`, with a bound on the rounds of its loop. -/
def ramSaveBlock (fuel : ℕ) (s : Saver) : Option Sent := do
  let block ← s.lastBlock.or s.blocks.head?
  let (p, found) ← findDirty s.blocks s.dirty (s.lastBlock.map fun b =>
    b.offset + s.lastOffset) fuel
    ⟨block, s.lastOffset⟩
  if found then some (sendPage s p)
  else some ⟨{ s with lastBlock := some p.block, lastOffset := p.offset }, [], 0⟩

/-! ### The guest -/

/-- What the guest does: it writes to a page of a block, or it looks up an address. -/
inductive GuestOp where
  | write (block : RamBlock) (index : ℕ) (page : ℕ → UInt8)
  | touch (addr : ℕ)

/-- The effect. A write marks the page, and `qemu_get_ram_ptr` moves a block to the front. -/
def guestStep (s : Saver) : GuestOp → Saver
  | .write b k page =>
    let host := b.host + k * targetPageSize
    if b ∈ s.blocks ∧ (k + 1) * targetPageSize ≤ b.length then
      { s with
        mem := fun a => if host ≤ a ∧ a < host + targetPageSize then page (a - host) else s.mem a
        dirty := Function.update s.dirty ((b.offset + k * targetPageSize) / targetPageSize) true }
    else s
  | .touch addr =>
    match s.blocks.find? fun b => b.Contains addr with
    | none => s
    | some b => { s with blocks := b :: s.blocks.erase b }

/-! ### Stages -/

/-- The loop until the rate limit. It sends at most one page for each element of the list, after
what the guest has done meanwhile, and ends early if nothing is dirty. -/
def saveLoop (fuel : ℕ) : List (List GuestOp) → Saver → Option (Saver × List UInt8)
  | [], s => some (s, [])
  | ops :: batches, s => do
    let r ← ramSaveBlock fuel (ops.foldl guestStep s)
    if r.ret = 0 then some (r.saver, r.bytes)
    else
      let (s, bytes) ← saveLoop fuel batches r.saver
      some (s, r.bytes ++ bytes)

/-- The loop of stage 3. -/
def drainLoop (fuel : ℕ) : ℕ → Saver → Option (Saver × List UInt8)
  | 0, _ => none
  | rounds + 1, s => do
    let r ← ramSaveBlock fuel s
    if r.ret = 0 then some (r.saver, r.bytes)
    else
      let (s, bytes) ← drainLoop fuel rounds r.saver
      some (s, r.bytes ++ bytes)

/-- `qemu_put_be64(f, RAM_SAVE_FLAG_EOS)`. -/
def eosBytes : List UInt8 := beBytes 8 flagEos

/-- The pages of a block, as addresses. -/
def pageAddrs (b : RamBlock) : List ℕ :=
  (List.range (b.length / targetPageSize)).map fun k => b.offset + k * targetPageSize

/-- `sort_ram_list`, and all pages are made dirty. -/
def beginSave (s : Saver) : Saver :=
  { s with
    blocks := s.blocks.insertionSort fun b c => b.offset ≤ c.offset
    dirty := fun n => s.dirty n || (s.blocks.flatMap pageAddrs).any fun a => a / targetPageSize = n
    lastBlock := none
    lastOffset := 0
    sent := [] }

/-- The list of blocks. -/
def listBytes (blocks : List RamBlock) : List UInt8 :=
  beBytes 8 (ramBytesTotal blocks ||| flagMemSize) ++
    blocks.flatMap fun b => UInt8.ofNat b.idstr.length :: b.idstr ++ beBytes 8 b.length

/-- Stage 1 of `ram_save_live`. -/
def saveStage1 (fuel : ℕ) (batches : List (List GuestOp)) (s : Saver) :
    Option (Saver × List UInt8) := do
  let s := beginSave s
  let (s', bytes) ← saveLoop fuel batches s
  some (s', listBytes s.blocks ++ bytes ++ eosBytes)

/-- Stage 2 of `ram_save_live`. -/
def saveStage2 (fuel : ℕ) (batches : List (List GuestOp)) (s : Saver) :
    Option (Saver × List UInt8) := do
  let (s, bytes) ← saveLoop fuel batches s
  some (s, bytes ++ eosBytes)

/-- Stage 3 of `ram_save_live`, where `n` calls of `ram_save_block` are made before the rate
limit. -/
def saveStage3 (fuel n : ℕ) (s : Saver) : Option (Saver × List UInt8) := do
  let (s, bytes) ← saveLoop fuel (List.replicate n []) s
  let (s, bytes') ← drainLoop fuel fuel s
  some (s, bytes ++ bytes' ++ eosBytes)

/-- A migration: what the guest does in stage 1, before and in each round of stage 2, and before
stage 3, and how many pages stage 3 sends before the rate limit. -/
structure Schedule where
  first : List (List GuestOp)
  rounds : List (List GuestOp × List (List GuestOp))
  last : List GuestOp
  limit : ℕ

/-- The rounds of stage 2, with the bytes of each call. -/
def saveRounds (fuel : ℕ) :
    List (List GuestOp × List (List GuestOp)) → Saver → Option (Saver × List (List UInt8))
  | [], s => some (s, [])
  | (ops, batches) :: rounds, s => do
    let (s, bytes) ← saveStage2 fuel batches (ops.foldl guestStep s)
    let (s, sections) ← saveRounds fuel rounds s
    some (s, bytes :: sections)

/-- All calls of `ram_save_live`. -/
def saveAll (fuel : ℕ) (m : Schedule) (s : Saver) : Option (Saver × List (List UInt8)) := do
  let (s, bytes) ← saveStage1 fuel m.first s
  let (s, sections) ← saveRounds fuel m.rounds s
  let (s, bytes') ← saveStage3 fuel m.limit (m.last.foldl guestStep s)
  some (s, bytes :: sections ++ [bytes'])

/-! ### The scan -/

/-- The pages of a block from the `k`-th on, `n` of them. -/
def pagesFrom (b : RamBlock) (k n : ℕ) : List Position :=
  (List.range' k n).map fun i => ⟨b, i * targetPageSize⟩

/-- All pages, in the order of the list. -/
def positions (blocks : List RamBlock) : List Position :=
  blocks.flatMap fun b => pagesFrom b 0 (b.length / targetPageSize)

theorem nextBlock_of_append {pre post : List RamBlock} {b : RamBlock} (h : b ∉ pre) :
    nextBlock (pre ++ b :: post) b = if post = [] then (pre ++ [b]).head? else post.head? := by
  have hdrop : (pre ++ b :: post).dropWhile (· ≠ b) = b :: post := by
    rw [dropWhile_append_of_pos]
    · simp
    · intro c hc
      simp only [ne_eq, decide_not, Bool.not_eq_eq_eq_not, Bool.not_true, decide_eq_false_iff_not]
      rintro rfl
      exact h hc
  rw [nextBlock, hdrop]
  cases post with
  | nil => simp
  | cons c post => rfl

/-- The pages of a block lead to the first page of the next. -/
theorem path_block {blocks : List RamBlock} {b c : RamBlock} {k m : ℕ}
    (hnext : nextBlock blocks b = some c) (hlen : b.length = (k + m + 1) * targetPageSize) :
    Rings.Path (advance blocks) ⟨b, k * targetPageSize⟩ (pagesFrom b (k + 1) m) ⟨c, 0⟩ := by
  induction m generalizing k with
  | zero =>
    have hle : b.length ≤ k * targetPageSize + targetPageSize := by
      rw [hlen, Nat.add_zero, Nat.succ_mul]
    show advance blocks ⟨b, k * targetPageSize⟩ = some ⟨c, 0⟩
    rw [advance, if_pos hle, hnext]
    rfl
  | succ m ih =>
    have hgt : ¬ b.length ≤ k * targetPageSize + targetPageSize := by
      rw [hlen, ← Nat.succ_mul, Nat.not_le]
      exact Nat.mul_lt_mul_of_pos_right (by omega) (by decide)
    have hlen' : b.length = (k + 1 + m + 1) * targetPageSize := by
      rw [hlen]
      congr 1
      omega
    refine ⟨?_, ih hlen'⟩
    rw [advance, if_neg hgt, ← Nat.succ_mul]

namespace RamConfig

variable (c : RamConfig)

/-- A list in another order. -/
def reorder {l : List RamBlock} (h : l.Perm c.blocks) : RamConfig where
  blocks := l
  nonempty hnil := c.nonempty (List.Perm.nil_eq (hnil ▸ h)).symm
  positive b hb := c.positive b (h.mem_iff.mp hb)
  aligned b hb := c.aligned b (h.mem_iff.mp hb)
  disjoint := (h.pairwise_iff fun h => Or.symm h).mpr c.disjoint
  disjointHost := (h.pairwise_iff fun h => Or.symm h).mpr c.disjointHost
  names := (h.map _).nodup_iff.mpr c.names
  text b hb := c.text b (h.mem_iff.mp hb)

theorem nodup : c.blocks.Nodup := List.Nodup.of_map _ c.names

/-- A block has at least one page. -/
theorem exists_pages {b : RamBlock} (hb : b ∈ c.blocks) :
    ∃ m, b.length = (m + 1) * targetPageSize ∧ b.length / targetPageSize = m + 1 := by
  have hpos := c.positive b hb
  have haligned := (c.aligned b hb).2
  have hdiv := Nat.div_add_mod b.length targetPageSize
  have hne : b.length / targetPageSize ≠ 0 := by
    intro hzero
    rw [hzero, haligned] at hdiv
    omega
  obtain ⟨m, hm⟩ := Nat.exists_eq_succ_of_ne_zero hne
  refine ⟨m, ?_, hm⟩
  rw [haligned, Nat.add_zero, Nat.mul_comm, hm] at hdiv
  exact hdiv.symm

/-- From the first page of a block the scan leads through its other pages to the next block. -/
theorem path_pages {b d : RamBlock} (hb : b ∈ c.blocks) (hnext : nextBlock c.blocks b = some d) :
    ∃ l, pagesFrom b 0 (b.length / targetPageSize) = ⟨b, 0⟩ :: l ∧
      Rings.Path (advance c.blocks) ⟨b, 0⟩ l ⟨d, 0⟩ := by
  obtain ⟨m, hm, hdiv⟩ := c.exists_pages hb
  refine ⟨pagesFrom b 1 m, ?_, ?_⟩
  · rw [hdiv, pagesFrom, range'_succ, map_cons, Nat.zero_mul]
    rfl
  · have hpath := path_block (k := 0) (m := m) hnext (by rw [hm, Nat.zero_add])
    rwa [Nat.zero_mul] at hpath

theorem nextBlock_eq {pre post : List RamBlock} {b : RamBlock} (h : c.blocks = pre ++ b :: post) :
    b ∈ c.blocks ∧
      nextBlock c.blocks b = if post = [] then c.blocks.head? else post.head? := by
  have hnodup := c.nodup
  rw [h, nodup_append] at hnodup
  refine ⟨h ▸ mem_append_right _ (.head _), ?_⟩
  rw [h, nextBlock_of_append fun hb => hnodup.2.2 b hb b mem_cons_self rfl]
  split_ifs with hpost
  · rw [hpost]
  · rfl

/-- From the first page of a block the scan leads through all pages of the blocks behind it, and
then to the first page of the list. -/
theorem path_suffix (pre : List RamBlock) {post : List RamBlock} {b first : RamBlock}
    (h : c.blocks = pre ++ b :: post) (hfirst : c.blocks.head? = some first) :
    ∃ l, positions (b :: post) = ⟨b, 0⟩ :: l ∧
      Rings.Path (advance c.blocks) ⟨b, 0⟩ l ⟨first, 0⟩ := by
  induction post generalizing pre b with
  | nil =>
    obtain ⟨hb, hnext⟩ := c.nextBlock_eq h
    rw [if_pos rfl, hfirst] at hnext
    obtain ⟨l, hl, hpath⟩ := c.path_pages hb hnext
    refine ⟨l, ?_, hpath⟩
    rw [positions, flatMap_cons, flatMap_nil, append_nil, hl]
  | cons d post ih =>
    obtain ⟨hb, hnext⟩ := c.nextBlock_eq h
    rw [if_neg (cons_ne_nil _ _)] at hnext
    obtain ⟨l, hl, hpath⟩ := c.path_pages hb hnext
    obtain ⟨l', hl', hpath'⟩ := ih (pre ++ [b]) (by rw [h, append_assoc]; rfl)
    refine ⟨l ++ ⟨d, 0⟩ :: l', ?_, Rings.path_append.mpr ⟨hpath, hpath'⟩⟩
    rw [← hl', positions, flatMap_cons, hl]
    rfl

/-- **From each page the scan leads through all other pages and back.** -/
theorem path_ring {p : Position} (hp : p ∈ positions c.blocks) :
    ∃ l, Rings.Path (advance c.blocks) p l p ∧ (p :: l).Perm (positions c.blocks) := by
  obtain ⟨first, post, hblocks⟩ := exists_cons_of_ne_nil c.nonempty
  obtain ⟨l, hl, hpath⟩ := c.path_suffix [] hblocks (by rw [hblocks]; rfl)
  rw [← hblocks] at hl
  obtain ⟨l₁, l₂, hsplit⟩ := append_of_mem hp
  refine ⟨l₂ ++ l₁, hpath.rotate (hl.symm.trans hsplit), ?_⟩
  have hperm : (p :: l₂ ++ l₁).Perm (l₁ ++ p :: l₂) := perm_append_comm
  rw [hsplit]
  exact hperm

/-! ### Pages -/

theorem mem_positions {p : Position} :
    p ∈ positions c.blocks ↔
      p.block ∈ c.blocks ∧ ∃ k, p.offset = k * targetPageSize ∧ (k + 1) * targetPageSize ≤
        p.block.length := by
  obtain ⟨b, o⟩ := p
  simp only [positions, mem_flatMap, pagesFrom, mem_map, mem_range'_1, Position.mk.injEq]
  constructor
  · rintro ⟨b', hb', k, ⟨-, hk⟩, rfl, rfl⟩
    refine ⟨hb', k, rfl, ?_⟩
    rw [Nat.zero_add] at hk
    exact (Nat.mul_le_mul_right _ hk).trans (Nat.div_mul_le_self _ _)
  · rintro ⟨hb, k, rfl, hk⟩
    refine ⟨b, hb, k, ⟨Nat.zero_le _, ?_⟩, rfl, rfl⟩
    rw [Nat.zero_add]
    exact (Nat.le_div_iff_mul_le (by decide)).mpr hk

/-- Two pages with one number are the same. -/
theorem eq_of_page {p q : Position} (hp : p ∈ positions c.blocks) (hq : q ∈ positions c.blocks)
    (h : p.addr / targetPageSize = q.addr / targetPageSize) : p = q := by
  obtain ⟨hb, k, hk, hle⟩ := c.mem_positions.mp hp
  obtain ⟨hb', k', hk', hle'⟩ := c.mem_positions.mp hq
  have haligned := (c.aligned p.block hb).1
  have haligned' := (c.aligned q.block hb').1
  obtain ⟨b, o⟩ := p
  obtain ⟨b', o'⟩ := q
  simp only [Position.addr, targetPageSize] at *
  have heq : b = b' := by
    by_contra hne
    rcases Memory.RamList.or_of_pairwise c.disjoint hb hb' hne with h | h <;> omega
  subst heq
  congr 1
  omega

theorem nodup_positions : (positions c.blocks).Nodup := by
  refine nodup_flatMap.mpr ⟨fun b _ => ?_, ?_⟩
  · refine List.Nodup.map (fun i j h => ?_) nodup_range'
    exact Nat.eq_of_mul_eq_mul_right (by decide) (Position.mk.inj h).2
  · refine c.nodup.imp fun {b d} hne p hp hp' => ?_
    obtain ⟨i, -, rfl⟩ := mem_map.mp hp
    obtain ⟨j, -, h⟩ := mem_map.mp hp'
    exact hne (Position.mk.inj h).1.symm

/-- Pages that are not the same do not overlap where the blocks do not. -/
theorem pages_apart (host : RamBlock → ℕ) (hhost : ∀ b ∈ c.blocks, ∀ b' ∈ c.blocks, b ≠ b' →
      host b + b.length ≤ host b' ∨ host b' + b'.length ≤ host b)
    {p q : Position} (hp : p ∈ positions c.blocks) (hq : q ∈ positions c.blocks) (h : p ≠ q) :
    host p.block + p.offset + targetPageSize ≤ host q.block + q.offset ∨
      host q.block + q.offset + targetPageSize ≤ host p.block + p.offset := by
  obtain ⟨hb, k, hk, hle⟩ := c.mem_positions.mp hp
  obtain ⟨hb', k', hk', hle'⟩ := c.mem_positions.mp hq
  obtain ⟨b, o⟩ := p
  obtain ⟨b', o'⟩ := q
  simp only [targetPageSize] at *
  by_cases hblock : b = b'
  · subst hblock
    have hne : k ≠ k' := by
      rintro rfl
      exact h (by rw [hk, hk'])
    omega
  · rcases hhost b hb b' hb' hblock with h | h <;> omega

end RamConfig

/-- The scan finds the first dirty page on its way, or it is back. -/
theorem findDirty_spec {blocks : List RamBlock} (dirty : ℕ → Bool) {l : List Position}
    {p q : Position} {a fuel : ℕ} (hpath : Rings.Path (advance blocks) p l q)
    (hl : ∀ y ∈ l, y.addr ≠ a) (hq : q.addr = a) (hfuel : l.length < fuel) :
    (∃ y ∈ p :: l, dirty (y.addr / targetPageSize) = true ∧
        findDirty blocks dirty (some a) fuel p = some (y, true)) ∨
      (∀ y ∈ p :: l, dirty (y.addr / targetPageSize) = false) ∧
        findDirty blocks dirty (some a) fuel p = some (q, false) := by
  induction l generalizing p fuel with
  | nil =>
    obtain ⟨fuel, rfl⟩ := Nat.exists_eq_succ_of_ne_zero (Nat.ne_zero_of_lt hfuel)
    have hnext : advance blocks p = some q := hpath
    rw [findDirty]
    cases hdirty : dirty (p.addr / targetPageSize) with
    | true => exact .inl ⟨p, .head _, hdirty, if_pos rfl⟩
    | false => exact .inr ⟨by simpa using hdirty, by simp [hnext, hq]⟩
  | cons x l ih =>
    obtain ⟨fuel, rfl⟩ := Nat.exists_eq_succ_of_ne_zero (Nat.ne_zero_of_lt hfuel)
    obtain ⟨hnext, hpath⟩ := hpath
    have hx := hl x (.head _)
    rw [findDirty]
    cases hdirty : dirty (p.addr / targetPageSize) with
    | true => exact .inl ⟨p, .head _, hdirty, if_pos rfl⟩
    | false =>
      simp only [Bool.false_eq_true, if_false, hnext, Option.bind_eq_bind,
        Option.bind_some, if_neg hx]
      rcases ih hpath (fun y hy => hl y (.tail _ hy)) (Nat.lt_of_succ_lt_succ hfuel) with
        ⟨y, hy, hyd, heq⟩ | ⟨hclean, heq⟩
      · exact .inl ⟨y, .tail _ hy, hyd, heq⟩
      · exact .inr ⟨forall_mem_cons.mpr ⟨hdirty, hclean⟩, heq⟩

/-- What is known of a saver between two calls: its list is one of the machine, and it is on a page
or, before the first call, at the start with everything dirty. -/
structure Saver.Ok (c : RamConfig) (s : Saver) : Prop where
  perm : s.blocks.Perm c.blocks
  last : ∀ b, s.lastBlock = some b → ⟨b, s.lastOffset⟩ ∈ positions c.blocks
  first : s.lastBlock = none → s.lastOffset = 0 ∧
    ∀ p ∈ positions c.blocks, s.dirty (p.addr / targetPageSize) = true

theorem perm_positions {l l' : List RamBlock} (h : l.Perm l') : (positions l).Perm (positions l') :=
  h.flatMap_right _

/-- **`ram_save_block` sends a dirty page, or no page is dirty.** -/
theorem ramSaveBlock_spec {c : RamConfig} {s : Saver} {fuel : ℕ} (hs : s.Ok c)
    (hfuel : (positions c.blocks).length < fuel) :
    (∃ p ∈ positions c.blocks, s.dirty (p.addr / targetPageSize) = true ∧
        ramSaveBlock fuel s = some (sendPage s p)) ∨
      (∀ p ∈ positions c.blocks, s.dirty (p.addr / targetPageSize) = false) ∧
        s.lastBlock.isSome ∧ ramSaveBlock fuel s = some ⟨s, [], 0⟩ := by
  have hperm := perm_positions hs.perm
  cases hlast : s.lastBlock with
  | none =>
    obtain ⟨hzero, hall⟩ := hs.first hlast
    obtain ⟨b, post, hblocks⟩ := exists_cons_of_ne_nil (c.reorder hs.perm).nonempty
    have hb : s.blocks.head? = some b := by
      rw [show s.blocks = b :: post from hblocks]
      rfl
    have hmem : (⟨b, 0⟩ : Position) ∈ positions c.blocks := by
      have hmem' : b ∈ c.blocks := hs.perm.mem_iff.mp (mem_of_mem_head? hb)
      obtain ⟨m, hm, -⟩ := c.exists_pages hmem'
      refine c.mem_positions.mpr ⟨hmem', 0, (Nat.zero_mul _).symm, ?_⟩
      rw [hm]
      exact Nat.mul_le_mul_right _ (Nat.succ_le_succ (Nat.zero_le m))
    obtain ⟨fuel, rfl⟩ := Nat.exists_eq_succ_of_ne_zero (Nat.ne_zero_of_lt hfuel)
    refine .inl ⟨_, hmem, hall _ hmem, ?_⟩
    simp [ramSaveBlock, hlast, hb, hzero, findDirty, hall _ hmem]
  | some b =>
    have hmem := hperm.mem_iff.mpr (hs.last b hlast)
    obtain ⟨l, hpath, hl⟩ := (c.reorder hs.perm).path_ring hmem
    have hnodup : (⟨b, s.lastOffset⟩ :: l : List Position).Nodup :=
      hl.nodup_iff.mpr (c.reorder hs.perm).nodup_positions
    have hsub : ∀ y ∈ (⟨b, s.lastOffset⟩ :: l : List Position), y ∈ positions c.blocks :=
      fun y hy => hperm.mem_iff.mp (hl.mem_iff.mp hy)
    have haddr : ∀ y ∈ l, y.addr ≠ b.offset + s.lastOffset := by
      intro y hy heq
      have hsame : y = ⟨b, s.lastOffset⟩ :=
        c.eq_of_page (hsub y (mem_cons_of_mem _ hy)) (hs.last b hlast) (by rw [heq]; rfl)
      exact (nodup_cons.mp hnodup).1 (hsame ▸ hy)
    have hlen : l.length < fuel := by
      have := hl.length_eq.trans hperm.length_eq
      rw [length_cons] at this
      omega
    have hscan := findDirty_spec s.dirty hpath haddr rfl hlen
    have heq : ramSaveBlock fuel s =
        (findDirty s.blocks s.dirty (some (b.offset + s.lastOffset)) fuel ⟨b, s.lastOffset⟩).bind
          fun r => if r.2 then some (sendPage s r.1) else
            some ⟨{ s with lastBlock := some r.1.block, lastOffset := r.1.offset }, [], 0⟩ := by
      rw [ramSaveBlock, hlast]
      rfl
    rw [heq]
    rcases hscan with ⟨y, hy, hyd, hfind⟩ | ⟨hclean, hfind⟩
    · refine .inl ⟨y, hsub y hy, hyd, ?_⟩
      rw [show findDirty s.blocks s.dirty _ fuel _ = _ from hfind]
      rfl
    · refine .inr ⟨fun p hp => hclean p (hl.mem_iff.mpr (hperm.mem_iff.mpr hp)), rfl, ?_⟩
      rw [show findDirty s.blocks s.dirty _ fuel _ = _ from hfind]
      simp [← hlast]

end VariabilityTestbed.Migration
