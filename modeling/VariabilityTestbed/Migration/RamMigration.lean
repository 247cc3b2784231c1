import Mathlib.Algebra.BigOperators.Ring.List
import VariabilityTestbed.Migration.RamSave

/-!
# RAM migration

Whatever `ram_save_live` writes is read by `ram_load` on a machine with the same blocks. Two things
make it work. A page is dirty or the receiver has it: the flag is cleared when the page is sent, and
the guest sets it again when it writes. And the receiver has the same block in mind as the sender,
so that `CONTINUE` means the same to both: the sender remembers the block of the last page it sent,
also from one call to the next, and so does the receiver.

Stage 3 ends only when `ram_save_block` finds no dirty page after a scan of everything.

One thing is in its way. A page of zeros at the start of a page of the host makes the receiver
discard all of that page, and with it pages that were sent before and are not sent again.
-/

namespace VariabilityTestbed.Migration

open Memory Bytes BigEndian List Option Function

/-! ### Receiving -/

/-- What `ram_load` leaves from one call to the next: the static variable `block` and the memory. -/
structure Receiver where
  block : Option RamBlock
  mem : ℕ → UInt8

/-- The memory after an access. -/
def applyAccess (m : ℕ → UInt8) (a : Access) : ℕ → UInt8 :=
  storeBytes (storeBytes m a.target.host a.bytes) a.target.host (replicate a.discarded 0)

/-- The memory after some accesses. -/
def applyAccesses (m : ℕ → UInt8) (l : List Access) : ℕ → UInt8 := l.foldl applyAccess m

/-- How many bytes are discarded with a page. -/
def discardedWith (env : LoadEnv) (host : ℕ) (page : List UInt8) : ℕ :=
  if isDupPage page 0 then discard env host else 0

/-- The memory after a page was received. -/
def receive (env : LoadEnv) (m : ℕ → UInt8) (host : ℕ) (page : List UInt8) : ℕ → UInt8 :=
  storeBytes (storeBytes m host page) host (replicate (discardedWith env host page) 0)

theorem receive_inside (env : LoadEnv) (m : ℕ → UInt8) (host : ℕ) {page : List UInt8}
    {k : ℕ} {b : UInt8} (h : page[k]? = some b) : receive env m host page (host + k) = b := by
  rw [receive, storeBytes_replicate, storeBytes_add h]
  split_ifs with hk
  · -- something is discarded, so the page is one of zeros
    have hdup : isDupPage page 0 = true := by
      by_contra hdup
      rw [discardedWith, if_neg hdup] at hk
      omega
    exact (by simpa using List.all_eq_true.mp hdup b (mem_of_getElem? h) : b = 0).symm
  · rfl

theorem receive_outside (env : LoadEnv) (m : ℕ → UInt8) {host a : ℕ} {page : List UInt8}
    (h : a < host ∨ host + page.length ≤ a) :
    receive env m host page a =
      if host ≤ a ∧ a < host + discardedWith env host page then 0 else m a := by
  rw [receive, storeBytes_replicate, storeBytes_of_outside m h]

/-- Calls of `ram_load` on one stream, which all have to return 0. -/
def loadCalls (env : LoadEnv) (fuel : ℕ) (blocks : List RamBlock) :
    ℕ → Stream → Receiver → Option (Stream × Receiver)
  | 0, file, r => some (file, r)
  | n + 1, file, r => do
    let l ← ramLoad env 4 fuel file blocks r.block
    if l.phase = .done 0 then
      loadCalls env fuel blocks n l.file ⟨l.block, applyAccesses r.mem l.accesses⟩
    else none

/-- The loader is in front of a record, with `bs` to read. -/
structure Awaits (blocks : List RamBlock) (m : ℕ → UInt8) (r : Receiver) (bs : List UInt8)
    (l : Loader) :
    Prop where
  phase : l.phase = .header
  blocks : l.blocks = blocks
  block : l.block = r.block
  mem : applyAccesses m l.accesses = r.mem
  file : l.file = ⟨bs, false⟩

/-- Records that take a receiver to another. -/
def Delivers (env : LoadEnv) (blocks : List RamBlock) (bs : List UInt8) (r r' : Receiver) : Prop :=
  ∀ m rest l, Awaits blocks m r (bs ++ rest) l →
    ∃ l', Reaches env 4 l l' ∧ Awaits blocks m r' rest l'

section

variable {env : LoadEnv} {blocks : List RamBlock} {r r' r'' : Receiver} {bs bs' : List UInt8}
  {l l' : Loader} {m : ℕ → UInt8} {rest : List UInt8} {flags addr : ℕ}

theorem delivers_nil (r : Receiver) : Delivers env blocks [] r r :=
  fun _ _ l h => ⟨l, .refl, h⟩

theorem Delivers.append (h : Delivers env blocks bs r r') (h' : Delivers env blocks bs' r' r'') :
    Delivers env blocks (bs ++ bs') r r'' := by
  intro m rest l hl
  rw [append_assoc] at hl
  obtain ⟨l₁, hreach₁, hl₁⟩ := h m _ l hl
  obtain ⟨l₂, hreach₂, hl₂⟩ := h' m _ l₁ hl₁
  exact ⟨l₂, hreach₁.trans hreach₂, hl₂⟩

/-- The first word of a record without `MEM_SIZE`. -/
theorem Awaits.header {v : ℕ} (h : Awaits blocks m r (beBytes 8 v ++ rest) l) (hv : v < 2 ^ 64)
    (hflags : hasFlag (v % targetPageSize) flagMemSize = false) :
    Steps env 4 l { l with
      file := ⟨rest, false⟩
      phase := .page (v % targetPageSize) (v - v % targetPageSize) } := by
  refine ⟨by rw [h.phase]; rfl, ?_⟩
  simp only [loadStep, h.phase, headerStep, h.file, Stream.getBe_beBytes 8 v hv false, hflags,
    Bool.false_eq_true, if_false]

/-- The flags of a record for a page. -/
def pageFlags (cont dup : Bool) : ℕ :=
  (if cont then flagContinue else 0) ||| if dup then flagCompress else flagPage

theorem pageFlags_spec (cont dup : Bool) :
    pageFlags cont dup < targetPageSize ∧ hasFlag (pageFlags cont dup) flagMemSize = false ∧
      hasFlag (pageFlags cont dup) flagEos = false ∧
      hasFlag (pageFlags cont dup) flagContinue = cont ∧
      hasFlag (pageFlags cont dup) flagCompress = dup ∧
      (hasFlag (pageFlags cont dup) flagPage = !dup) := by
  revert cont dup
  decide

/-- The name in a record. -/
def nameBytes (b : RamBlock) (cont : Bool) : List UInt8 :=
  if cont then [] else UInt8.ofNat b.idstr.length :: b.idstr

theorem or_of_aligned {a x : ℕ} (ha : a % targetPageSize = 0) (hx : x < targetPageSize) :
    a ||| x = a + x := by
  have hsplit : a = 2 ^ 10 * (a / 2 ^ 10) := by
    have := Nat.div_add_mod a (2 ^ 10)
    rw [show a % 2 ^ 10 = 0 from ha] at this
    omega
  rw [hsplit, ← Nat.two_pow_add_eq_or_of_lt hx]

theorem recordBytes_eq {b : RamBlock} {offset : ℕ} {cont : Bool} {page : List UInt8}
    (hoffset : offset % targetPageSize = 0) :
    recordBytes b offset cont page =
      beBytes 8 (offset + pageFlags cont (isDupPage page (page.headD 0))) ++
        (nameBytes b cont ++ if isDupPage page (page.headD 0) then [page.headD 0] else page) := by
  have hword : ∀ dup, offset ||| (if cont then flagContinue else 0) |||
      (if dup = true then flagCompress else flagPage) = offset + pageFlags cont dup := by
    intro dup
    rw [Nat.or_assoc]
    exact or_of_aligned hoffset (pageFlags_spec cont dup).1
  rw [← hword, recordBytes, nameBytes]
  split_ifs <;> simp only [append_assoc]

/-- The page that a record is for. -/
theorem pageTarget_record {b b' : RamBlock} {offset : ℕ} {cont : Bool} {flags : ℕ}
    (hfind : findBlock l.blocks b.idstr = some b')
    (hname : b.idstr.length < 256 ∧ 0 ∉ b.idstr) (hcont : cont = true → l.block = some b')
    (hflags : hasFlag flags flagContinue = cont)
    (hfile : l.file = ⟨nameBytes b cont ++ rest, false⟩) :
    pageTarget env 4 l flags offset =
      some (⟨some b', offset⟩, { l with file := ⟨rest, false⟩, block := some b' }) := by
  rw [pageTarget, if_neg (by decide), hostFromStreamOffset, hflags]
  cases cont with
  | true =>
    obtain ⟨file, bs, block, accesses, phase⟩ := l
    obtain rfl : file = ⟨rest, false⟩ := hfile
    obtain rfl : block = some b' := hcont rfl
    rfl
  | false =>
    have hget : getName env.junk l.file = (b.idstr, ⟨rest, false⟩) := by
      rw [hfile]
      exact getName_append hname.1 hname.2
    simp only [Bool.false_eq_true, if_false, hget, hfind]

theorem isDupPage_eq {page : List UInt8} {ch : UInt8} (h : isDupPage page ch = true) :
    page = replicate page.length ch :=
  eq_replicate_of_mem fun b hb => by simpa using List.all_eq_true.mp h b hb

/-- A page of zeros is one of copies of its first byte, which is 0. -/
theorem isDupPage_zero {page : List UInt8} (h : 0 < page.length) :
    isDupPage page 0 = (isDupPage page (page.headD 0) && page.headD 0 = 0) := by
  obtain ⟨b, page, rfl⟩ := exists_cons_of_length_pos h
  by_cases hb : b = 0 <;> simp [isDupPage, hb]

/-- The step that writes the page of a record. -/
theorem steps_page {b' : RamBlock} {offset : ℕ} {cont dup : Bool} {ch : UInt8} {page : List UInt8}
    (hphase : l.phase = .page (pageFlags cont dup) offset)
    (htarget : pageTarget env 4 l (pageFlags cont dup) offset = some (⟨some b', offset⟩, l'))
    (hfile : l'.file = ⟨(if dup then [ch] else page) ++ rest, false⟩)
    (hfits : offset + targetPageSize ≤ b'.length) (hpage : page.length = targetPageSize)
    (hdup : dup = true → page = replicate targetPageSize ch) :
    Steps env 4 l { l' with
      file := ⟨rest, false⟩
      accesses := l'.accesses ++ [⟨⟨some b', offset⟩, page,
        if dup && ch = 0 then discard env (b'.host + offset) else 0⟩]
      phase := .header } := by
  obtain ⟨-, -, heos, -, hcompress, hraw⟩ := pageFlags_spec cont dup
  refine ⟨by rw [hphase]; rfl, ?_⟩
  simp only [loadStep, hphase, pageStep, hcompress, hraw, htarget, map_some]
  cases dup with
  | true =>
    have hne : b'.host + offset ≠ 0 := by
      have := b'.hostPos
      omega
    simp only [if_true, compressStep, Target.host_eq hfits, if_neg hne, hfile, singleton_append,
      Stream.getByte, Loader.next, Loader.write, Bool.false_eq_true, if_false, heos, ← hdup rfl,
      Bool.true_and, decide_eq_true_eq]
  | false =>
    simp only [Bool.false_eq_true, if_false, Bool.not_false, if_true, rawStep, hfile,
      Stream.getBuffer_append hpage, Loader.next, Loader.write, heos, Bool.false_and]

/-- **A record delivers its page.** -/
theorem delivers_record {b b' : RamBlock} {offset : ℕ} {cont : Bool} {page : List UInt8}
    (hfind : findBlock blocks b.idstr = some b') (hname : b.idstr.length < 256 ∧ 0 ∉ b.idstr)
    (hcont : cont = true → r.block = some b') (hoffset : offset % targetPageSize = 0)
    (hfits : offset + targetPageSize ≤ b'.length) (hpage : page.length = targetPageSize) :
    Delivers env blocks (recordBytes b offset cont page) r
      ⟨some b', receive env r.mem (b'.host + offset) page⟩ := by
  intro m rest l hl
  rw [recordBytes_eq hoffset, append_assoc, append_assoc] at hl
  obtain ⟨hlt, hmem, -, hcontinue, -, -⟩ := pageFlags_spec cont (isDupPage page (page.headD 0))
  have hdup : isDupPage page (page.headD 0) = true →
      page = replicate targetPageSize (page.headD 0) := by
    rw [← hpage]
    exact isDupPage_eq
  have hzero : discardedWith env (b'.host + offset) page =
      if isDupPage page (page.headD 0) && page.headD 0 = 0 then discard env (b'.host + offset)
      else 0 := by
    rw [discardedWith, isDupPage_zero (by rw [hpage]; decide)]
  generalize isDupPage page (page.headD 0) = dup at *
  have hle := b'.hostLe
  have hsize : 0 < targetPageSize := by decide
  have hmod : (offset + pageFlags cont dup) % targetPageSize = pageFlags cont dup := by
    rw [Nat.add_mod, hoffset, Nat.zero_add, Nat.mod_mod, Nat.mod_eq_of_lt hlt]
  have hheader : Steps env 4 l _ := hl.header (by omega) (by rw [hmod]; exact hmem)
  rw [hmod, Nat.add_sub_cancel] at hheader
  refine ⟨_, .head hheader
    (.single (steps_page rfl (pageTarget_record (b := b) ?_ hname ?_ hcontinue rfl)
    rfl hfits hpage hdup)), ?_⟩
  · exact hl.blocks.symm ▸ hfind
  · exact fun h => hl.block.trans (hcont h)
  · refine ⟨rfl, hl.blocks, rfl, ?_, rfl⟩
    show applyAccesses m (l.accesses ++ [_]) = _
    rw [applyAccesses, foldl_append, ← applyAccesses, ← applyAccesses, hl.mem, receive, hzero,
      ← Target.host_eq hfits]
    rfl

/-! ### The list of blocks -/

/-- The entries of the list. -/
def entryBytes (blocks : List RamBlock) : List UInt8 :=
  blocks.flatMap fun b => UInt8.ofNat b.idstr.length :: b.idstr ++ beBytes 8 b.length

/-- **The list of blocks is accepted**, and it ends with its last entry. -/
theorem reaches_sizes {src : List RamBlock} {flags addr : ℕ}
    (hsrc : ∀ b ∈ src, (b.idstr.length < 256 ∧ 0 ∉ b.idstr) ∧ 0 < b.length ∧
      ∃ b', findBlock l.blocks b.idstr = some b' ∧ b'.length = b.length)
    (htotal : (src.map fun b => b.length).sum < 2 ^ 64)
    (hphase : l.phase = .sizes flags addr (src.map fun b => b.length).sum)
    (hfile : l.file = ⟨entryBytes src ++ rest, false⟩) :
    Reaches env 4 l { l with file := ⟨rest, false⟩, phase := .page flags addr } := by
  induction src generalizing l with
  | nil =>
    refine .single ⟨by rw [hphase]; rfl, ?_⟩
    obtain ⟨file, bs, block, accesses, phase⟩ := l
    obtain rfl : file = ⟨rest, false⟩ := hfile
    obtain rfl : phase = .sizes flags addr 0 := hphase
    rfl
  | cons b src ih =>
    obtain ⟨⟨hlen, hname⟩, hpos, b', hfind, hlength⟩ := hsrc b (.head _)
    rw [map_cons, sum_cons] at htotal hphase
    have hlt : b.length < 256 ^ 8 := by
      have : 256 ^ 8 = 2 ^ 64 := rfl
      omega
    have hentry : entryBytes (b :: src) ++ rest =
        UInt8.ofNat b.idstr.length :: b.idstr ++
        (beBytes 8 b.length ++ (entryBytes src ++ rest)) := by
      simp [entryBytes]
    have hget : getName env.junk l.file =
        (b.idstr, ⟨beBytes 8 b.length ++ (entryBytes src ++ rest), false⟩) := by
      rw [hfile, hentry]
      exact getName_append hlen hname
    have hsub : (b.length + (src.map fun b => b.length).sum + 2 ^ 64 - b.length) % 2 ^ 64 =
        (src.map fun b => b.length).sum := by omega
    refine .head ⟨by rw [hphase]; rfl, ?_⟩ (ih (l := { l with
      file := ⟨entryBytes src ++ rest, false⟩
      phase := .sizes flags addr (src.map fun b => b.length).sum }) ?_ (by omega) rfl rfl)
    · have hne : b.length + (src.map fun b => b.length).sum ≠ 0 := by omega
      simp only [loadStep, hphase, sizesStep, if_neg hne, hget, hfind, Stream.getBe_beBytes 8 _ hlt,
        hlength, hsub, ne_eq, not_true_eq_false, if_false]
    · exact fun d hd => hsrc d (.tail _ hd)

theorem delivers_list {src : List RamBlock}
    (hsrc : ∀ b ∈ src, (b.idstr.length < 256 ∧ 0 ∉ b.idstr) ∧ 0 < b.length ∧
      ∃ b', findBlock blocks b.idstr = some b' ∧ b'.length = b.length)
    (haligned : ∀ b ∈ src, b.length % targetPageSize = 0)
    (htotal : (src.map fun b => b.length).sum < 2 ^ 64) (r : Receiver) :
    Delivers env blocks (listBytes src) r r := by
  intro m rest l hl
  have hmod : (src.map fun b => b.length).sum % targetPageSize = 0 := by
    refine Nat.mod_eq_zero_of_dvd (dvd_sum fun n hn => ?_)
    obtain ⟨b, hb, rfl⟩ := List.mem_map.mp hn
    exact Nat.dvd_of_mod_eq_zero (haligned b hb)
  have hword : ramBytesTotal src ||| flagMemSize = (src.map fun b => b.length).sum +
      flagMemSize := by
    rw [ramBytesTotal, Nat.mod_eq_of_lt htotal]
    exact or_of_aligned hmod (by decide)
  have hlt : (src.map fun b => b.length).sum + flagMemSize < 256 ^ 8 := by
    have : 256 ^ 8 = 2 ^ 64 := rfl
    simp only [targetPageSize, flagMemSize] at *
    omega
  have hflags : ((src.map fun b => b.length).sum + flagMemSize) % targetPageSize = flagMemSize := by
    rw [Nat.add_mod, hmod, Nat.zero_add, Nat.mod_mod]
    rfl
  rw [listBytes, hword, append_assoc] at hl
  have hheader : loadStep env 4 l = some { l with
      file := ⟨entryBytes src ++ rest, false⟩
      phase := .sizes flagMemSize (src.map fun b => b.length).sum
        (src.map fun b => b.length).sum } := by
    simp only [loadStep, hl.phase, headerStep, hl.file, Stream.getBe_beBytes 8 _ hlt, hflags,
      Nat.add_sub_cancel]
    rfl
  have hsizes : Reaches env 4 { l with
      file := ⟨entryBytes src ++ rest, false⟩
      phase := .sizes flagMemSize (src.map fun b => b.length).sum
        (src.map fun b => b.length).sum } _ :=
    reaches_sizes (hl.blocks ▸ hsrc) htotal rfl rfl
  refine ⟨{ l with file := ⟨rest, false⟩, phase := .header },
    .head ⟨by rw [hl.phase]; rfl, hheader⟩ (hsizes.tail ⟨rfl, rfl⟩), ?_⟩
  exact ⟨rfl, hl.blocks, hl.block, hl.mem, rfl⟩

/-! ### Sections -/

/-- A call of `ram_load` that reads a section returns 0 and takes a receiver to another. -/
def Loads (env : LoadEnv) (blocks : List RamBlock) (bs : List UInt8) (r r' : Receiver) : Prop :=
  ∀ rest, ∃ n l, (∀ fuel, n ≤ fuel →
    ramLoad env 4 fuel ⟨bs ++ rest, false⟩ blocks r.block = some l) ∧
    l.phase = .done 0 ∧ l.file = ⟨rest, false⟩ ∧ l.block = r'.block ∧
    applyAccesses r.mem l.accesses = r'.mem

/-- The loop returns what it leads to. -/
theorem loadLoop_of_done (h : Reaches env 4 l l') (hdone : l'.phase.isDone = true) :
    ∃ n, ∀ fuel, n ≤ fuel → loadLoop env 4 fuel l = some l' := by
  induction h using Relation.ReflTransGen.head_induction_on with
  | refl =>
    refine ⟨1, fun fuel hfuel => ?_⟩
    obtain ⟨fuel, rfl⟩ := Nat.exists_eq_add_one.mpr hfuel
    rw [loadLoop, if_pos hdone]
  | head hstep _ ih =>
    obtain ⟨n, hn⟩ := ih
    refine ⟨n + 1, fun fuel hfuel => ?_⟩
    obtain ⟨fuel, rfl⟩ := Nat.exists_eq_succ_of_ne_zero (Nat.ne_zero_of_lt hfuel)
    rw [loadLoop, hstep.1, if_neg Bool.false_ne_true, hstep.2, bind_some,
      hn fuel (Nat.le_of_succ_le_succ hfuel)]

/-- Records and the end of the section. -/
theorem Delivers.loads (h : Delivers env blocks bs r r') :
    Loads env blocks (bs ++ eosBytes) r r' := by
  intro rest
  have hstart : Awaits blocks r.mem r (bs ++ (eosBytes ++ rest))
      (loadStart 4 ⟨bs ++ eosBytes ++ rest, false⟩ blocks r.block) :=
    ⟨rfl, rfl, rfl, rfl, by rw [← append_assoc]; rfl⟩
  obtain ⟨l, hreach, hl⟩ := h _ _ _ hstart
  have hheader : Steps env 4 l _ := hl.header (by decide) (by decide)
  have hend : Steps env 4 { l with file := ⟨rest, false⟩, phase := .page flagEos 0 }
      { l with file := ⟨rest, false⟩, phase := .done 0 } := ⟨rfl, rfl⟩
  obtain ⟨n, hn⟩ := loadLoop_of_done ((hreach.tail hheader).tail hend) rfl
  exact ⟨n, _, hn, rfl, rfl, hl.block, hl.mem⟩

/-- Sections one after the other. -/
def LoadsAll (env : LoadEnv) (blocks : List RamBlock) (sections : List (List UInt8))
    (r r' : Receiver) : Prop :=
  ∀ rest, ∃ n, ∀ fuel, n ≤ fuel →
    loadCalls env fuel blocks sections.length ⟨sections.flatten ++ rest, false⟩ r =
      some (⟨rest, false⟩, r')

theorem loadsAll_nil (r : Receiver) : LoadsAll env blocks [] r r := fun _ => ⟨0, fun _ _ => rfl⟩

theorem Loads.cons {sections : List (List UInt8)} (h : Loads env blocks bs r r')
    (h' : LoadsAll env blocks sections r' r'') : LoadsAll env blocks (bs :: sections) r r'' := by
  intro rest
  obtain ⟨n, l, hload, hphase, hfile, hblock, hmem⟩ := h (sections.flatten ++ rest)
  obtain ⟨n', hn'⟩ := h' rest
  refine ⟨max n n', fun fuel hfuel => ?_⟩
  have hl := hload fuel (le_trans (le_max_left _ _) hfuel)
  rw [flatten_cons, append_assoc, length_cons, loadCalls, hl, bind_eq_bind,
    bind_some, if_pos hphase, hfile, hblock, hmem]
  exact hn' fuel (le_trans (le_max_right _ _) hfuel)

end

/-! ### The two machines -/

/-- A machine with blocks of the same names and lengths, in any order. -/
structure Destination (c : RamConfig) where
  blocks : List RamBlock
  same : (blocks.map fun b => (b.idstr, b.length)).Perm (c.blocks.map fun b => (b.idstr, b.length))
  disjointHost : blocks.Pairwise fun b c => b.host + b.length ≤ c.host ∨ c.host + c.length ≤ b.host

namespace Destination

variable {c : RamConfig} (d : Destination c)

/-- The block of the same name. -/
def twin (b : RamBlock) : RamBlock := (findBlock d.blocks b.idstr).getD b

theorem names : (d.blocks.map fun b => b.idstr).Nodup := by
  have hperm := d.same.map Prod.fst
  rw [List.map_map, List.map_map] at hperm
  exact hperm.nodup_iff.mpr c.names

theorem length_of_idstr {b b' : RamBlock} (hb : b ∈ c.blocks) (hb' : b' ∈ d.blocks)
    (h : b'.idstr = b.idstr) : b'.length = b.length := by
  have hmem : (b'.idstr, b'.length) ∈ c.blocks.map fun b => (b.idstr, b.length) :=
    d.same.mem_iff.mp (List.mem_map_of_mem hb')
  obtain ⟨b₁, hb₁, heq⟩ := List.mem_map.mp hmem
  obtain ⟨hid, hlen⟩ := Prod.mk.inj heq
  have hsame : b₁ = b := inj_on_of_nodup_map c.names hb₁ hb (hid.trans h)
  rw [← hlen, hsame]

theorem findBlock_eq {b : RamBlock} (hb : b ∈ c.blocks) :
    findBlock d.blocks b.idstr = some (d.twin b) ∧ d.twin b ∈ d.blocks ∧
      (d.twin b).idstr = b.idstr ∧ (d.twin b).length = b.length := by
  have hmem : (b.idstr, b.length) ∈ d.blocks.map fun b => (b.idstr, b.length) :=
    d.same.mem_iff.mpr (List.mem_map_of_mem hb)
  obtain ⟨b₁, hb₁, heq⟩ := List.mem_map.mp hmem
  obtain ⟨b', hb'⟩ : ∃ b', findBlock d.blocks b.idstr = some b' := by
    rw [← isSome_iff_exists, findBlock, find?_isSome]
    exact ⟨b₁, hb₁, by simpa using (Prod.mk.inj heq).1⟩
  have htwin : d.twin b = b' := by rw [twin, hb', getD_some]
  have hid : b'.idstr = b.idstr := by simpa using find?_some hb'
  rw [htwin]
  exact ⟨hb', mem_of_findBlock hb', hid, d.length_of_idstr hb (mem_of_findBlock hb') hid⟩

/-- Where a page is on the other side. -/
def host (p : Position) : ℕ := (d.twin p.block).host + p.offset

/-- Pages that are not the same do not overlap on the other side. -/
theorem page_disjoint {p q : Position} (hp : p ∈ positions c.blocks) (hq : q ∈ positions c.blocks)
    (h : p ≠ q) :
    d.host p + targetPageSize ≤ d.host q ∨ d.host q + targetPageSize ≤ d.host p := by
  refine c.pages_apart (fun b => (d.twin b).host) (fun b hb b' hb' hne => ?_) hp hq h
  obtain ⟨-, hmem, hid, hlen⟩ := d.findBlock_eq hb
  obtain ⟨-, hmem', hid', hlen'⟩ := d.findBlock_eq hb'
  have htwin : d.twin b ≠ d.twin b' := by
    intro heq
    exact hne (inj_on_of_nodup_map c.names hb hb' (by rw [← hid, ← hid', heq]))
  rw [← hlen, ← hlen']
  exact Memory.RamList.or_of_pairwise d.disjointHost hmem hmem' htwin

/-- Since the page of a byte was sent for the last time, the byte was discarded with another page.
The list has the pages that were sent, the last one first. -/
def lost (env : LoadEnv) (a : ℕ) : List (Position × List UInt8) → Bool
  | [] => false
  | (p, page) :: sent =>
    if d.host p ≤ a ∧ a < d.host p + targetPageSize then false
    else d.host p ≤ a ∧ a < d.host p + discardedWith env (d.host p) page ∨ lost env a sent

end Destination

/-- Blocks that do not overlap in the host have room there. -/
theorem sum_length_lt {blocks : List RamBlock}
    (h : blocks.Pairwise fun b c => b.host + b.length ≤ c.host ∨ c.host + c.length ≤ b.host) :
    (blocks.map fun b => b.length).sum < 2 ^ 64 := by
  -- the addresses of the host that the blocks take
  have hnodup : (blocks.flatMap fun b => range' b.host b.length).Nodup := by
    refine nodup_flatMap.mpr ⟨fun b _ => nodup_range', h.imp fun {b d} hor a ha ha' => ?_⟩
    have := mem_range'_1.mp ha
    have := mem_range'_1.mp ha'
    omega
  have hsub : (blocks.flatMap fun b => range' b.host b.length) ⊆ range' 1 (2 ^ 64 - 1) := by
    intro a ha
    obtain ⟨b, -, hb⟩ := mem_flatMap.mp ha
    have hmem := mem_range'_1.mp hb
    have hpos := b.hostPos
    have hle := b.hostLe
    exact mem_range'_1.mpr ⟨by omega, by omega⟩
  have hlen := (hnodup.subperm hsub).length_le
  rw [length_flatMap, length_range'] at hlen
  simp only [length_range'] at hlen
  omega

/-! ### Sender and receiver -/

/-- A page is dirty or the receiver has it, but for what is lost, and the sender and the receiver
mean the same by the last block. -/
structure Synced (env : LoadEnv) {c : RamConfig} (d : Destination c) (s : Saver) (r : Receiver) :
    Prop where
  ok : s.Ok c
  block : ∀ b, s.lastBlock = some b → r.block = some (d.twin b)
  pages : ∀ p ∈ positions c.blocks, s.dirty (p.addr / targetPageSize) = true ∨
    ∀ i < targetPageSize, r.mem (d.host p + i) =
      if d.lost env (d.host p + i) s.sent then 0 else s.mem (p.block.host + p.offset + i)

section

variable {env : LoadEnv} {c : RamConfig} {d : Destination c} {s : Saver} {r : Receiver} {fuel : ℕ}

/-- **What the guest does keeps the relation.** -/
theorem Synced.guestStep (h : Synced env d s r) (op : GuestOp) :
    Synced env d (guestStep s op) r := by
  cases op with
  | touch addr =>
    rw [Migration.guestStep]
    cases hfind : s.blocks.find? fun b => b.Contains addr with
    | none => exact h
    | some b =>
      have hperm := (perm_cons_erase (mem_of_find?_eq_some hfind)).symm.trans h.ok.perm
      exact ⟨⟨hperm, h.ok.last, h.ok.first⟩, h.block, h.pages⟩
  | write b k page =>
    simp only [Migration.guestStep]
    split_ifs with hwrite
    · obtain ⟨hb, hk⟩ := hwrite
      have hp : (⟨b, k * targetPageSize⟩ : Position) ∈ positions c.blocks :=
        c.mem_positions.mpr ⟨h.ok.perm.mem_iff.mp hb, k, rfl, hk⟩
      have hstays : ∀ n, s.dirty n = true →
          Function.update s.dirty ((b.offset + k * targetPageSize) / targetPageSize) true n =
          true := by
        intro n hn
        rw [update_apply]
        split_ifs
        · rfl
        · exact hn
      refine ⟨⟨h.ok.perm, h.ok.last, fun hnone => ⟨(h.ok.first hnone).1, fun q hq => ?_⟩⟩, h.block,
        fun q hq => ?_⟩
      · exact hstays _ ((h.ok.first hnone).2 q hq)
      · by_cases hsame : q = ⟨b, k * targetPageSize⟩
        · left
          rw [hsame]
          exact update_self _ _ _
        · refine (h.pages q hq).imp (hstays _) fun heq i hi => ?_
          have hapart := c.pages_apart (fun b => b.host)
            (fun _ hb _ hb' => Memory.RamList.or_of_pairwise c.disjointHost hb hb') hp hq
            (Ne.symm hsame)
          dsimp only at hapart ⊢
          rw [heq i hi, if_neg (c := b.host + k * targetPageSize ≤ _ ∧ _) (by omega)]
    · exact h

/-- **Sending a page keeps the relation.** -/
theorem Synced.send (h : Synced env d s r) {p : Position} (hp : p ∈ positions c.blocks) :
    ∃ r', Delivers env d.blocks (sendPage s p).bytes r r' ∧
    Synced env d (sendPage s p).saver r' := by
  obtain ⟨hb, k, hk, hle⟩ := c.mem_positions.mp hp
  obtain ⟨hfind, -, -, hlen⟩ := d.findBlock_eq hb
  obtain ⟨page, hpage⟩ : ∃ page, page = loadBytes s.mem (p.block.host + p.offset) targetPageSize :=
    ⟨_, rfl⟩
  have hlength : page.length = targetPageSize := by rw [hpage, length_loadBytes]
  have hsend : sendPage s p = ⟨{ s with
      dirty := update s.dirty (p.addr / targetPageSize) false
      lastBlock := some p.block
      lastOffset := p.offset
      sent := (p, page) :: s.sent },
      recordBytes p.block p.offset (decide (s.lastBlock = some p.block)) page,
      if isDupPage page (page.headD 0) then 1 else targetPageSize⟩ := by
    simp only [sendPage, hpage]
  rw [hsend]
  refine ⟨⟨some (d.twin p.block), receive env r.mem (d.host p) page⟩, ?_, ?_⟩
  · refine delivers_record hfind (c.text _ hb) (fun hcont => ?_) ?_ ?_ hlength
    · exact h.block _ (by simpa using hcont)
    · rw [hk]
      exact Nat.mul_mod_left _ _
    · rw [hlen, hk, ← Nat.succ_mul]
      exact hle
  · refine ⟨⟨h.ok.perm, fun b heq => ?_, fun hnone => ?_⟩, fun b heq => ?_, fun q hq => ?_⟩
    · cases heq
      exact hp
    · exact absurd hnone (some_ne_none _)
    · cases heq
      rfl
    · dsimp only
      by_cases hsame : q = p
      · refine .inr fun i hi => ?_
        have hget : page[i]? = some (s.mem (p.block.host + p.offset + i)) := by
          rw [hpage]
          exact getElem?_loadBytes hi
        have hlost : d.lost env (d.host p + i) ((p, page) :: s.sent) = false :=
          if_pos ⟨Nat.le_add_right _ _, Nat.add_lt_add_left hi _⟩
        rw [hsame, receive_inside env r.mem (d.host p) hget, hlost, if_neg Bool.false_ne_true]
      · have hdirty : update s.dirty (p.addr / targetPageSize) false (q.addr / targetPageSize) =
            s.dirty (q.addr / targetPageSize) :=
          update_of_ne (fun heq => hsame (c.eq_of_page hq hp heq)) _ _
        rw [hdirty]
        refine (h.pages q hq).imp id fun heq i hi => ?_
        have hapart := d.page_disjoint hp hq (Ne.symm hsame)
        have hlost : d.lost env (d.host q + i) ((p, page) :: s.sent) =
            decide (d.host p ≤ d.host q + i ∧
              d.host q + i < d.host p + discardedWith env (d.host p) page ∨
                d.lost env (d.host q + i) s.sent = true) := if_neg (by omega)
        have houtside : d.host q + i < d.host p ∨ d.host p + page.length ≤ d.host q + i := by omega
        simp only [receive_outside env r.mem houtside, heq i hi, hlost, decide_eq_true_eq, ite_or]

theorem Synced.guest (h : Synced env d s r) (ops : List GuestOp) :
    Synced env d (ops.foldl Migration.guestStep s) r := by
  induction ops generalizing s with
  | nil => exact h
  | cons op ops ih => exact ih (h.guestStep op)

/-- The number of pages that are dirty. -/
def dirtyPages (c : RamConfig) (s : Saver) : ℕ :=
  (positions c.blocks).countP fun p => s.dirty (p.addr / targetPageSize)

theorem sendPage_ret (s : Saver) (p : Position) : (sendPage s p).ret ≠ 0 := by
  simp only [sendPage]
  split_ifs <;> decide

theorem dirtyPages_sendPage {p : Position} (hp : p ∈ positions c.blocks)
    (hdirty : s.dirty (p.addr / targetPageSize) = true) :
    dirtyPages c (sendPage s p).saver < dirtyPages c s := by
  have hle : ∀ q ∈ positions c.blocks, (sendPage s p).saver.dirty (q.addr / targetPageSize) = true →
      s.dirty (q.addr / targetPageSize) = true := by
    intro q _ hq
    have hq' : Function.update s.dirty (p.addr / targetPageSize) false
        (q.addr / targetPageSize) = true := hq
    rw [update_apply] at hq'
    split_ifs at hq' with heq
    exact hq'
  have hclean : (sendPage s p).saver.dirty (p.addr / targetPageSize) = false := update_self _ _ _
  obtain ⟨l₁, l₂, hsplit⟩ := append_of_mem hp
  rw [hsplit] at hle
  simp only [dirtyPages, hsplit, countP_append, countP_cons, hclean, hdirty,
    Bool.false_eq_true, if_false, if_true]
  have h₁ : l₁.countP (fun q => (sendPage s p).saver.dirty (q.addr / targetPageSize)) ≤
      l₁.countP fun q => s.dirty (q.addr / targetPageSize) :=
    countP_mono_left fun q hq => hle q (mem_append_left _ hq)
  have h₂ : l₂.countP (fun q => (sendPage s p).saver.dirty (q.addr / targetPageSize)) ≤
      l₂.countP fun q => s.dirty (q.addr / targetPageSize) :=
    countP_mono_left fun q hq => hle q (mem_append_right _ (.tail _ hq))
  omega

section

variable (h : Synced env d s r) (hfuel : (positions c.blocks).length < fuel)
include h hfuel

/-- **A call of `ram_save_block` keeps the relation.** If it returns 0, no page is dirty. -/
theorem Synced.ramSaveBlock :
    ∃ t r', ramSaveBlock fuel s = some t ∧ Delivers env d.blocks t.bytes r r' ∧
    Synced env d t.saver r' ∧
      (t.ret = 0 → ∀ p ∈ positions c.blocks, t.saver.dirty (p.addr / targetPageSize) = false) ∧
      (t.ret ≠ 0 → dirtyPages c t.saver < dirtyPages c s) := by
  rcases ramSaveBlock_spec h.ok hfuel with ⟨p, hp, hdirty, heq⟩ | ⟨hclean, -, heq⟩
  · obtain ⟨r', hr', hs⟩ := h.send hp
    exact ⟨_, r', heq, hr', hs, fun hret => absurd hret (sendPage_ret s p),
      fun _ => dirtyPages_sendPage hp hdirty⟩
  · exact ⟨_, r, heq, delivers_nil r, h, fun _ => hclean, fun hret => absurd rfl hret⟩

/-- The loop until the rate limit keeps the relation. -/
theorem Synced.saveLoop (batches : List (List GuestOp)) :
    ∃ s' bytes r', saveLoop fuel batches s = some (s', bytes) ∧ Delivers env d.blocks bytes r r' ∧
      Synced env d s' r' := by
  induction batches generalizing s r with
  | nil => exact ⟨s, [], r, rfl, delivers_nil r, h⟩
  | cons ops batches ih =>
    obtain ⟨t, r', heq, hr', hs, -, -⟩ := (h.guest ops).ramSaveBlock hfuel
    by_cases hret : t.ret = 0
    · exact ⟨t.saver, t.bytes, r', by simp [Migration.saveLoop, heq, hret], hr', hs⟩
    · obtain ⟨s', bytes, r'', heq', hr'', hs'⟩ := ih hs
      exact ⟨s', t.bytes ++ bytes, r'', by simp [Migration.saveLoop, heq, hret, heq'],
        hr'.append hr'', hs'⟩

/-- **The loop of stage 3 ends, and then no page is dirty.** -/
theorem Synced.drainLoop {rounds : ℕ} (hrounds : dirtyPages c s < rounds) :
    ∃ s' bytes r', drainLoop fuel rounds s = some (s', bytes) ∧ Delivers env d.blocks bytes r r' ∧
      Synced env d s' r' ∧
      ∀ p ∈ positions c.blocks, s'.dirty (p.addr / targetPageSize) = false := by
  induction rounds generalizing s r with
  | zero => cases hrounds
  | succ rounds ih =>
    obtain ⟨t, r', heq, hr', hs, hclean, hless⟩ := h.ramSaveBlock hfuel
    by_cases hret : t.ret = 0
    · exact ⟨t.saver, t.bytes, r', by simp [Migration.drainLoop, heq, hret], hr', hs, hclean hret⟩
    · obtain ⟨s', bytes, r'', heq', hr'', hs', hclean'⟩ := ih hs (by have := hless hret; omega)
      exact ⟨s', t.bytes ++ bytes, r'', by simp [Migration.drainLoop, heq, hret, heq'],
        hr'.append hr'', hs', hclean'⟩

end

/-! ### Stages -/

/-- At the start of stage 1 everything is dirty. -/
theorem synced_beginSave (env : LoadEnv) (d : Destination c) (hs : s.blocks.Perm c.blocks)
    (r : Receiver) :
    Synced env d (beginSave s) r := by
  have hperm : (beginSave s).blocks.Perm c.blocks := (perm_insertionSort _ _).trans hs
  have hall : ∀ p ∈ positions c.blocks, (beginSave s).dirty (p.addr / targetPageSize) = true := by
    intro p hp
    obtain ⟨hb, k, hk, hle⟩ := c.mem_positions.mp hp
    have hmem : p.addr ∈ s.blocks.flatMap pageAddrs := by
      refine mem_flatMap.mpr ⟨p.block, hs.mem_iff.mpr hb, List.mem_map.mpr ⟨k, ?_, ?_⟩⟩
      · exact mem_range.mpr ((Nat.le_div_iff_mul_le (by decide)).mpr hle)
      · rw [Position.addr, hk]
    rw [beginSave, Bool.or_eq_true, List.any_eq_true]
    exact .inr ⟨p.addr, hmem, by simp⟩
  refine ⟨⟨hperm, fun b hb => ?_, fun _ => ⟨rfl, hall⟩⟩, fun b hb => ?_, fun p hp =>
    .inl (hall p hp)⟩
  · exact absurd hb.symm (some_ne_none b)
  · exact absurd hb.symm (some_ne_none b)

theorem delivers_listBytes (env : LoadEnv) (hs : s.blocks.Perm c.blocks) (r : Receiver) :
    Delivers env d.blocks (listBytes (beginSave s).blocks) r r := by
  have hperm : (beginSave s).blocks.Perm c.blocks := (perm_insertionSort _ _).trans hs
  refine delivers_list (fun b hb => ?_) (fun b hb => ?_) ?_ r
  · have hb' := hperm.mem_iff.mp hb
    obtain ⟨hfind, -, -, hlen⟩ := d.findBlock_eq hb'
    exact ⟨c.text b hb', c.positive b hb', d.twin b, hfind, hlen⟩
  · exact (c.aligned b (hperm.mem_iff.mp hb)).2
  · rw [(hperm.map fun b => b.length).sum_eq]
    exact sum_length_lt c.disjointHost

/-- The rounds of stage 2 keep the relation. -/
theorem Synced.saveRounds (h : Synced env d s r) (hfuel : (positions c.blocks).length < fuel)
    (rounds : List (List GuestOp × List (List GuestOp))) :
    ∃ s' sections r', saveRounds fuel rounds s = some (s', sections) ∧ Synced env d s' r' ∧
      ∀ {last r''}, LoadsAll env d.blocks last r' r'' →
      LoadsAll env d.blocks (sections ++ last) r r'' := by
  induction rounds generalizing s r with
  | nil => exact ⟨s, [], r, rfl, h, fun hlast => hlast⟩
  | cons round rounds ih =>
    obtain ⟨ops, batches⟩ := round
    obtain ⟨s₁, bytes, r₁, heq, hr₁, hs₁⟩ := (h.guest ops).saveLoop hfuel batches
    obtain ⟨s₂, sections, r₂, heq₂, hs₂, hload⟩ := ih hs₁
    refine ⟨s₂, (bytes ++ eosBytes) :: sections, r₂, ?_, hs₂, fun hlast =>
      hr₁.loads.cons (hload hlast)⟩
    simp [Migration.saveRounds, saveStage2, heq, heq₂]

/-- With no page dirty, the memories are equal but for what is lost. -/
theorem Synced.mem_eq (h : Synced env d s r)
    (hclean : ∀ p ∈ positions c.blocks, s.dirty (p.addr / targetPageSize) = false) {b b' : RamBlock}
    (hb : b ∈ c.blocks) (hb' : b' ∈ d.blocks) (hid : b'.idstr = b.idstr) {i : ℕ}
    (hi : i < b.length) :
    r.mem (b'.host + i) = if d.lost env (b'.host + i) s.sent then 0 else s.mem (b.host + i) := by
  have hp : (⟨b, i / targetPageSize * targetPageSize⟩ : Position) ∈ positions c.blocks := by
    refine c.mem_positions.mpr ⟨hb, i / targetPageSize, rfl, ?_⟩
    have haligned := (c.aligned b hb).2
    show (i / targetPageSize + 1) * targetPageSize ≤ b.length
    simp only [targetPageSize] at *
    omega
  have htwin : d.twin b = b' := by
    obtain ⟨-, hmem, hid', -⟩ := d.findBlock_eq hb
    exact inj_on_of_nodup_map d.names hmem hb' (hid'.trans hid.symm)
  have hpage := (h.pages _ hp).resolve_left (by rw [hclean _ hp]; exact Bool.false_ne_true)
  have hget := hpage (i % targetPageSize) (Nat.mod_lt _ (by decide))
  simpa only [Destination.host, htwin, Nat.add_assoc, Nat.div_add_mod'] using hget

/-- One block of a page of the host, with four pages of the guest. -/
def fourPages : RamBlock := ⟨⟨0, 4096, 4096⟩, [97], by decide, by decide, by decide⟩

end

end VariabilityTestbed.Migration
