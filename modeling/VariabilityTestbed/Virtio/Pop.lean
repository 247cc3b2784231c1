import VariabilityTestbed.Virtio.Ring

/-!
# Taking a buffer from a queue

`virtqueue_pop` reads the next head from the available ring and walks the chain that starts there,
in the table of the queue or, if the head is an indirect descriptor, in the table that it leads to.
The links are those of the guest: they may lead out of the table or in circles, and a table may be
empty or longer than what an element can hold. Every such case stops the process. The loop counts
what it has stored and compares with the size of the table, but only after storing; the arrays of
the element are protected by their own checks, which also bound the loop.
-/

namespace VariabilityTestbed.Virtio

open List

/-- `VIRTQUEUE_MAX_SIZE`, the size of the arrays in an element. -/
def virtqueueMaxSize : ℕ := 1024

/-- A piece of a buffer: address and length. -/
abbrev Sg := ℕ × ℕ

/-- The piece that a descriptor describes. The address is cut to a `target_phys_addr_t`. -/
def VRingDesc.sg (d : VRingDesc) : Sg := (phys d.addr, d.len)

/-- A `VirtQueueElement`: the pieces, each with the host address that it is mapped to. -/
structure VirtQueueElement where
  index : ℕ
  inSg : List (Sg × ℕ)
  outSg : List (Sg × ℕ)
  deriving DecidableEq, Repr

/-- The loop over the descriptors from `i` on. It is left when the fuel is used up, with `none`. -/
def collect (m : GuestMemory) (pa max : ℕ) :
    ℕ → ℕ → List Sg → List Sg → Option (Except Fatal (List Sg × List Sg))
  | 0, _, _, _ => none
  | fuel + 1, i, ins, outs =>
    let d := desc m pa i
    if d.isWrite ∧ ins.length ≥ virtqueueMaxSize then some (.error .tooManyWrite)
    else if ¬d.isWrite ∧ outs.length ≥ virtqueueMaxSize then some (.error .tooManyRead)
    else
      let ins' := if d.isWrite then ins ++ [d.sg] else ins
      let outs' := if d.isWrite then outs else outs ++ [d.sg]
      -- the number of descriptors is compared with the table only now
      if ins'.length + outs'.length > max then some (.error .looped)
      else
        match virtqueueNextDesc m pa i max with
        | .error e => some (.error e)
        | .ok none => some (.ok (ins', outs'))
        | .ok (some j) => collect m pa max fuel j ins' outs'

/-- `virtqueue_map_sg`: `map` is what `cpu_physical_memory_map` answers to each call, a host address
and the length that was mapped. -/
def virtqueueMapSg (map : ℕ → Option (ℕ × ℕ)) : ℕ → List Sg → Except Fatal (List (Sg × ℕ))
  | _, [] => .ok []
  | k, sg :: sgs =>
    match map k with
    | none => .error .mmio
    | some (base, len) =>
      if len ≠ sg.2 then .error .mmio
      else
        match virtqueueMapSg map (k + 1) sgs with
        | .error e => .error e
        | .ok l => .ok ((sg, base) :: l)

/-- Where the descriptors of a head are: the table, its size, and the first descriptor. -/
structure Table where
  pa : ℕ
  max : ℕ
  first : ℕ
  deriving DecidableEq, Repr

/-- The table of a head. -/
def headTable (m : GuestMemory) (r : VRing) (head : ℕ) : Except Fatal Table :=
  let d := desc m r.desc head
  if d.isIndirect then
    if d.len % 16 ≠ 0 then .error .indirectSize else .ok ⟨phys d.addr, d.len / 16, 0⟩
  else .ok ⟨r.desc, r.num, head⟩

/-- More than the loop can take: both arrays full, and one more round. -/
def collectFuel : ℕ := 2 * virtqueueMaxSize + 1

/-- What a call leaves: an element or nothing, the queue and guest memory. -/
abbrev PopResult := Option VirtQueueElement × VirtQueue × GuestMemory

/-- From the table on: collect the descriptors and map them. -/
def popTable (map : ℕ → Option (ℕ × ℕ)) (m : GuestMemory) (q : VirtQueue) (head : ℕ) (t : Table) :
    Option (Except Fatal PopResult) :=
  match collect m t.pa t.max collectFuel t.first [] [] with
  | none => none
  | some (.error e) => some (.error e)
  | some (.ok (ins, outs)) =>
    match virtqueueMapSg map 0 ins with
    | .error e => some (.error e)
    | .ok inSg =>
      match virtqueueMapSg map ins.length outs with
      | .error e => some (.error e)
      | .ok outSg => some (.ok (some ⟨head, inSg, outSg⟩, { q with inuse := q.inuse + 1 }, m))

/-- `virtqueue_pop`; `none` if it does not end. -/
def virtqueuePop (features : Features) (map : ℕ → Option (ℕ × ℕ)) (m : GuestMemory)
    (q : VirtQueue) :
    Option (Except Fatal PopResult) :=
  match virtqueueNumHeads m q.vring q.lastAvailIdx with
  | .error e => some (.error e)
  | .ok 0 => some (.ok (none, q, m))
  | .ok _ =>
    match virtqueueGetHead m q.vring q.lastAvailIdx.toNat with
    | .error e => some (.error e)
    | .ok head =>
      let q' := { q with lastAvailIdx := q.lastAvailIdx + 1 }
      let m' := if features.eventIdx then vringAvailEvent m q' (vringAvailIdx m q.vring) else m
      match headTable m' q.vring head with
      | .error e => some (.error e)
      | .ok t => popTable map m' q' head t

/-! ### The walk -/

/-- The writable pieces of descriptors. -/
def inPieces (m : GuestMemory) (pa : ℕ) (l : List ℕ) : List Sg :=
  ((l.map (desc m pa)).filter VRingDesc.isWrite).map VRingDesc.sg

/-- The readable pieces of descriptors. -/
def outPieces (m : GuestMemory) (pa : ℕ) (l : List ℕ) : List Sg :=
  ((l.map (desc m pa)).filter fun d => !d.isWrite).map VRingDesc.sg

variable {m : GuestMemory} {pa max fuel i : ℕ} {ins outs ins' outs' : List Sg} {l : List ℕ}

theorem inPieces_cons (i : ℕ) (l : List ℕ) :
    inPieces m pa (i :: l) =
      (if (desc m pa i).isWrite then [(desc m pa i).sg] else []) ++ inPieces m pa l := by
  by_cases h : (desc m pa i).isWrite <;> simp [inPieces, h]

theorem outPieces_cons (i : ℕ) (l : List ℕ) :
    outPieces m pa (i :: l) =
      (if (desc m pa i).isWrite then [] else [(desc m pa i).sg]) ++ outPieces m pa l := by
  by_cases h : (desc m pa i).isWrite <;> simp [outPieces, h]

theorem length_pieces (l : List ℕ) :
    (inPieces m pa l).length + (outPieces m pa l).length = l.length := by
  induction l with
  | nil => rfl
  | cons i l ih =>
    rw [inPieces_cons, outPieces_cons]
    by_cases h : (desc m pa i).isWrite <;> simp [h] <;> omega

/-- One round of the loop. -/
theorem collect_succ (fuel i : ℕ) (ins outs : List Sg) :
    collect m pa max (fuel + 1) i ins outs =
      if (desc m pa i).isWrite ∧ ins.length ≥ virtqueueMaxSize then some (.error .tooManyWrite)
      else if ¬(desc m pa i).isWrite ∧ outs.length ≥ virtqueueMaxSize then
      some (.error .tooManyRead)
      else if ins.length + outs.length ≥ max then some (.error .looped)
      else
        match virtqueueNextDesc m pa i max with
        | .error e => some (.error e)
        | .ok none => some (.ok (ins ++ inPieces m pa [i], outs ++ outPieces m pa [i]))
        | .ok (some j) =>
          collect m pa max fuel j (ins ++ inPieces m pa [i]) (outs ++ outPieces m pa [i]) := by
  by_cases h : (desc m pa i).isWrite
  · have hlen : (ins ++ [(desc m pa i).sg]).length + outs.length > max ↔
        ins.length + outs.length ≥ max := by
      rw [length_append, length_singleton]
      omega
    simp only [collect, h, if_true, not_true_eq_false, false_and, if_false, inPieces,
      outPieces, hlen, map_cons, map_nil, filter_cons, filter_nil, Bool.not_true,
      Bool.false_eq_true, append_nil]
  · have hlen : ins.length + (outs ++ [(desc m pa i).sg]).length > max ↔
        ins.length + outs.length ≥ max := by
      rw [length_append, length_singleton]
      omega
    simp only [Bool.not_eq_true] at h
    simp only [collect, h, Bool.false_eq_true, if_true, false_and, if_false, inPieces,
      outPieces, hlen, map_cons, map_nil, filter_cons, filter_nil, Bool.not_false,
      append_nil]

/-- **The loop ends**: each round fills a place of one of the arrays. -/
theorem collect_isSome (hins : ins.length ≤ virtqueueMaxSize)
    (houts : outs.length ≤ virtqueueMaxSize)
    (hfuel : collectFuel ≤ fuel + ins.length + outs.length) :
    (collect m pa max fuel i ins outs).isSome = true := by
  induction fuel generalizing i ins outs with
  | zero =>
    rw [collectFuel] at hfuel
    omega
  | succ fuel ih =>
    rw [collect_succ]
    split_ifs with hw hr hmax
    · rfl
    · rfl
    · rfl
    · cases hnext : virtqueueNextDesc m pa i max with
      | error e => rfl
      | ok next =>
        cases next with
        | none => rfl
        | some j =>
          by_cases hwrite : (desc m pa i).isWrite
          · have hin : inPieces m pa [i] = [(desc m pa i).sg] := by simp [inPieces, hwrite]
            have hout : outPieces m pa [i] = [] := by simp [outPieces, hwrite]
            simp only [hin, hout, append_nil]
            have hroom : ins.length < virtqueueMaxSize := not_le.mp fun h => hw ⟨hwrite, h⟩
            refine ih ?_ houts ?_ <;> rw [length_append, length_singleton] <;> omega
          · have hin : inPieces m pa [i] = [] := by simp [inPieces, hwrite]
            have hout : outPieces m pa [i] = [(desc m pa i).sg] := by simp [outPieces, hwrite]
            simp only [hin, hout, append_nil]
            have hroom : outs.length < virtqueueMaxSize := not_le.mp fun h => hr ⟨hwrite, h⟩
            refine ih hins ?_ ?_ <;> rw [length_append, length_singleton] <;> omega

/-- What a round that succeeds has done. -/
theorem collect_ok_cases (h : collect m pa max (fuel + 1) i ins outs = some (.ok (ins', outs'))) :
    ((desc m pa i).isWrite = true → ins.length < virtqueueMaxSize) ∧
      ((desc m pa i).isWrite = false → outs.length < virtqueueMaxSize) ∧
      ins.length + outs.length < max ∧
      (virtqueueNextDesc m pa i max = .ok none ∧ ins' = ins ++ inPieces m pa [i] ∧
          outs' = outs ++ outPieces m pa [i] ∨
        ∃ j, virtqueueNextDesc m pa i max = .ok (some j) ∧
          collect m pa max fuel j (ins ++ inPieces m pa [i]) (outs ++ outPieces m pa [i]) =
            some (.ok (ins', outs'))) := by
  rw [collect_succ] at h
  split_ifs at h with hw hr hmax
  · simp at h
  · simp at h
  · simp at h
  · refine ⟨fun hwrite => not_le.mp fun hle => hw ⟨hwrite, hle⟩,
      fun hread => not_le.mp fun hle => hr ⟨by simp [hread], hle⟩, not_le.mp hmax, ?_⟩
    cases hnext : virtqueueNextDesc m pa i max with
    | error e => simp [hnext] at h
    | ok next =>
      cases next with
      | none =>
        simp only [hnext, Option.some.injEq, Except.ok.injEq, Prod.mk.injEq] at h
        exact .inl ⟨rfl, h.1.symm, h.2.symm⟩
      | some j =>
        simp only [hnext] at h
        exact .inr ⟨j, rfl, h⟩

/-- **What the loop returns** are the descriptors of a chain. -/
theorem collect_eq_ok (h : collect m pa max fuel i ins outs = some (.ok (ins', outs'))) :
    ∃ l, DescChain m pa max i l ∧ ins' = ins ++ inPieces m pa l ∧ outs' = outs ++ outPieces m pa l ∧
      ins.length + outs.length + l.length ≤ max := by
  induction fuel generalizing i ins outs with
  | zero => exact absurd h (by simp [collect])
  | succ fuel ih =>
    obtain ⟨-, -, hmax, ⟨hnext, rfl, rfl⟩ | ⟨j, hnext, hrest⟩⟩ := collect_ok_cases h
    · exact ⟨[i], .last hnext, rfl, rfl, hmax⟩
    · obtain ⟨l, hchain, rfl, rfl, hlen⟩ := ih hrest
      refine ⟨i :: l, .link hnext hchain, ?_, ?_, ?_⟩
      · rw [append_assoc, inPieces_cons i l, inPieces_cons i []]
        simp [inPieces]
      · rw [append_assoc, outPieces_cons i l, outPieces_cons i []]
        simp [outPieces]
      · have hone : (inPieces m pa [i]).length + (outPieces m pa [i]).length = 1 :=
          length_pieces [i]
        rw [length_append, length_append] at hlen
        rw [length_cons]
        omega

/-- The arrays of an element are never passed. -/
theorem collect_length (h : collect m pa max fuel i ins outs = some (.ok (ins', outs')))
    (hins : ins.length ≤ virtqueueMaxSize) (houts : outs.length ≤ virtqueueMaxSize) :
    ins'.length ≤ virtqueueMaxSize ∧ outs'.length ≤ virtqueueMaxSize := by
  induction fuel generalizing i ins outs with
  | zero => exact absurd h (by simp [collect])
  | succ fuel ih =>
    obtain ⟨hw, hr, -, hcases⟩ := collect_ok_cases h
    have hroom : (ins ++ inPieces m pa [i]).length ≤ virtqueueMaxSize ∧
        (outs ++ outPieces m pa [i]).length ≤ virtqueueMaxSize := by
      rw [length_append, length_append]
      cases hwrite : (desc m pa i).isWrite with
      | true =>
        have := hw hwrite
        simp [inPieces, outPieces, hwrite]
        omega
      | false =>
        have := hr hwrite
        simp [inPieces, outPieces, hwrite]
        omega
    obtain ⟨-, rfl, rfl⟩ | ⟨j, -, hrest⟩ := hcases
    · exact hroom
    · exact ih hrest hroom.1 hroom.2

/-- **Every chain that fits is collected.** -/
theorem collect_of_chain (hchain : DescChain m pa max i l) (hfuel : l.length ≤ fuel)
    (hin : ins.length + (inPieces m pa l).length ≤ virtqueueMaxSize)
    (hout : outs.length + (outPieces m pa l).length ≤ virtqueueMaxSize)
    (hmax : ins.length + outs.length + l.length ≤ max) :
    collect m pa max fuel i ins outs =
      some (.ok (ins ++ inPieces m pa l, outs ++ outPieces m pa l)) := by
  have hnone : ∀ (i : ℕ) (l : List ℕ) (ins outs : List Sg),
      ins.length + (inPieces m pa (i :: l)).length ≤ virtqueueMaxSize →
      outs.length + (outPieces m pa (i :: l)).length ≤ virtqueueMaxSize →
      ¬((desc m pa i).isWrite ∧ ins.length ≥ virtqueueMaxSize) ∧
        ¬(¬(desc m pa i).isWrite ∧ outs.length ≥ virtqueueMaxSize) := by
    intro i l ins outs hin hout
    rw [inPieces_cons, length_append] at hin
    rw [outPieces_cons, length_append] at hout
    refine ⟨?_, ?_⟩
    · rintro ⟨hw, hle⟩
      rw [if_pos hw, length_singleton] at hin
      omega
    · rintro ⟨hw, hle⟩
      rw [if_neg hw, length_singleton] at hout
      omega
  induction hchain generalizing fuel ins outs with
  | @last i hend =>
    obtain ⟨fuel, rfl⟩ : ∃ k, fuel = k + 1 := ⟨fuel - 1, (Nat.sub_add_cancel hfuel).symm⟩
    obtain ⟨hw, hr⟩ := hnone i [] ins outs hin hout
    rw [length_singleton] at hmax
    rw [collect_succ, if_neg hw, if_neg hr, if_neg (by omega)]
    simp only [hend]
  | @link i j l hnext htail ih =>
    rw [length_cons] at hfuel hmax
    obtain ⟨fuel, rfl⟩ : ∃ k, fuel = k + 1 := ⟨fuel - 1, by omega⟩
    obtain ⟨hw, hr⟩ := hnone i l ins outs hin hout
    have hsplit : inPieces m pa (i :: l) = inPieces m pa [i] ++ inPieces m pa l := by
      rw [inPieces_cons i l, inPieces_cons i []]
      simp [inPieces]
    have hsplit' : outPieces m pa (i :: l) = outPieces m pa [i] ++ outPieces m pa l := by
      rw [outPieces_cons i l, outPieces_cons i []]
      simp [outPieces]
    have hone : (inPieces m pa [i]).length + (outPieces m pa [i]).length = 1 := length_pieces [i]
    rw [hsplit, length_append] at hin
    rw [hsplit', length_append] at hout
    rw [collect_succ, if_neg hw, if_neg hr, if_neg (by omega)]
    simp only [hnext]
    rw [ih (by omega) (by rw [length_append]; omega) (by rw [length_append]; omega)
      (by rw [length_append, length_append]; omega), hsplit, hsplit', append_assoc,
      append_assoc]

theorem virtqueueMapSg_eq_ok {map : ℕ → Option (ℕ × ℕ)} {k : ℕ} {sgs : List Sg} {l : List (Sg × ℕ)}
    (h : virtqueueMapSg map k sgs = .ok l) : l.map Prod.fst = sgs := by
  induction sgs generalizing k l with
  | nil =>
    obtain rfl : [] = l := by simpa [virtqueueMapSg] using h
    rfl
  | cons sg sgs ih =>
    rw [virtqueueMapSg] at h
    cases hmap : map k with
    | none => simp [hmap] at h
    | some r =>
      simp only [hmap] at h
      split_ifs at h with hlen
      cases hrest : virtqueueMapSg map (k + 1) sgs with
      | error e => simp [hrest] at h
      | ok l' =>
        obtain rfl : _ = l := by simpa [hrest] using h
        rw [map_cons, ih hrest]

/-! ### Elements -/

/-- The element of a head: its pieces are those of a chain in the table of the head. -/
structure IsElement (m : GuestMemory) (r : VRing) (e : VirtQueueElement) (t : Table) (l : List ℕ) :
    Prop where
  index_lt : e.index < r.num
  table : headTable m r e.index = .ok t
  chain : DescChain m t.pa t.max t.first l
  nodup : l.Nodup
  inSg : e.inSg.map Prod.fst = inPieces m t.pa l
  outSg : e.outSg.map Prod.fst = outPieces m t.pa l
  in_le : e.inSg.length ≤ virtqueueMaxSize
  out_le : e.outSg.length ≤ virtqueueMaxSize

theorem popTable_isSome (map : ℕ → Option (ℕ × ℕ)) (m : GuestMemory) (q : VirtQueue) (head : ℕ)
    (t : Table) : (popTable map m q head t).isSome = true := by
  have hsome : (collect m t.pa t.max collectFuel t.first [] []).isSome = true :=
    collect_isSome (Nat.zero_le _) (Nat.zero_le _) le_rfl
  obtain ⟨r, hr⟩ := Option.isSome_iff_exists.mp hsome
  simp only [popTable, hr]
  cases r with
  | error e => rfl
  | ok r =>
    obtain ⟨ins, outs⟩ := r
    simp only
    cases virtqueueMapSg map 0 ins with
    | error e => rfl
    | ok inSg =>
      simp only
      cases virtqueueMapSg map ins.length outs with
      | error e => rfl
      | ok outSg => rfl

theorem popTable_eq_ok {map : ℕ → Option (ℕ × ℕ)} {q : VirtQueue} {head : ℕ} {t : Table}
    {r : PopResult} (h : popTable map m q head t = some (.ok r)) :
    ∃ e l, r = (some e, { q with inuse := q.inuse + 1 }, m) ∧ e.index = head ∧
      DescChain m t.pa t.max t.first l ∧ e.inSg.map Prod.fst = inPieces m t.pa l ∧
      e.outSg.map Prod.fst = outPieces m t.pa l ∧ e.inSg.length ≤ virtqueueMaxSize ∧
      e.outSg.length ≤ virtqueueMaxSize := by
  rw [popTable] at h
  cases hcollect : collect m t.pa t.max collectFuel t.first [] [] with
  | none => simp [hcollect] at h
  | some c =>
    cases c with
    | error e => simp [hcollect] at h
    | ok c =>
      obtain ⟨ins, outs⟩ := c
      simp only [hcollect] at h
      cases hin : virtqueueMapSg map 0 ins with
      | error e => simp [hin] at h
      | ok inSg =>
        cases hout : virtqueueMapSg map ins.length outs with
        | error e => simp [hin, hout] at h
        | ok outSg =>
          obtain rfl : _ = r := by simpa [hin, hout] using h
          obtain ⟨l, hchain, hins, houts, -⟩ := collect_eq_ok hcollect
          have hlen := collect_length hcollect (Nat.zero_le _) (Nat.zero_le _)
          have hin' := virtqueueMapSg_eq_ok hin
          have hout' := virtqueueMapSg_eq_ok hout
          refine ⟨_, l, rfl, rfl, hchain, hin'.trans hins, hout'.trans houts, ?_, ?_⟩
          · have := congrArg List.length hin'
            rw [length_map] at this
            exact this.trans_le hlen.1
          · have := congrArg List.length hout'
            rw [length_map] at this
            exact this.trans_le hlen.2

theorem virtqueueGetHead_eq_ok {r : VRing} {idx head : ℕ}
    (h : virtqueueGetHead m r idx = .ok head) :
    head = vringAvailRing m r (idx % r.num) ∧ head < r.num := by
  simp only [virtqueueGetHead] at h
  split_ifs at h with hlt
  obtain rfl : _ = head := by simpa using h
  exact ⟨rfl, not_le.mp hlt⟩

theorem virtqueueGetHead_lt {r : VRing} {idx head : ℕ} (h : virtqueueGetHead m r idx = .ok head) :
    head < r.num :=
  (virtqueueGetHead_eq_ok h).2

theorem virtqueueNumHeads_eq_zero {r : VRing} {idx : UInt16}
    (h : virtqueueNumHeads m r idx = .ok 0) :
    vringAvailIdx m r = idx := by
  simp only [virtqueueNumHeads] at h
  split_ifs at h with hlt
  have hzero : (vringAvailIdx m r - idx).toNat = (0 : UInt16).toNat := by simpa using h
  have hsub := UInt16.toNat_inj.mp hzero
  grind

/-- **`virtqueue_pop` is safe for every guest memory.** It ends; it stops the process, or finds
nothing available and changes nothing, or returns the element of the head that the available ring
has at `last_avail_idx`. -/
theorem pop_safe (features : Features) (map : ℕ → Option (ℕ × ℕ)) (m : GuestMemory)
    (q : VirtQueue) :
    ∃ r, virtqueuePop features map m q = some r ∧
      ∀ e q' m', r = .ok (e, q', m') →
        (e = none ∧ q' = q ∧ m' = m ∧ vringAvailIdx m q.vring = q.lastAvailIdx) ∨
        ∃ e' t l, e = some e' ∧ q'.vring = q.vring ∧
          e'.index = vringAvailRing m q.vring (q.lastAvailIdx.toNat % q.vring.num) ∧
          IsElement m' q.vring e' t l := by
  rw [virtqueuePop]
  cases hheads : virtqueueNumHeads m q.vring q.lastAvailIdx with
  | error e => exact ⟨_, rfl, nofun⟩
  | ok n =>
    cases n with
    | zero =>
      refine ⟨_, rfl, fun e q' m' h => .inl ?_⟩
      obtain ⟨rfl, rfl, rfl⟩ : none = e ∧ q = q' ∧ m = m' := by simpa using h
      exact ⟨rfl, rfl, rfl, virtqueueNumHeads_eq_zero hheads⟩
    | succ n =>
      simp only
      cases hhead : virtqueueGetHead m q.vring q.lastAvailIdx.toNat with
      | error e => exact ⟨_, rfl, nofun⟩
      | ok head =>
        simp only
        generalize hmem : (if features.eventIdx = true then
          vringAvailEvent m { q with lastAvailIdx := q.lastAvailIdx + 1 } (vringAvailIdx m q.vring)
          else m) = m₁
        cases htable : headTable m₁ q.vring head with
        | error e => exact ⟨_, rfl, nofun⟩
        | ok t =>
          simp only
          obtain ⟨r, hr⟩ := Option.isSome_iff_exists.mp
            (popTable_isSome map m₁ { q with lastAvailIdx := q.lastAvailIdx + 1 } head t)
          refine ⟨r, hr, fun e q' m' heq => .inr ?_⟩
          subst heq
          obtain ⟨e', l, hres, rfl, hchain, hin, hout, hinLe, houtLe⟩ := popTable_eq_ok hr
          obtain ⟨rfl, rfl, rfl⟩ : e = some e' ∧ q' = _ ∧ m' = m₁ := by simpa using hres
          exact ⟨e', t, l, rfl, rfl, (virtqueueGetHead_eq_ok hhead).1, virtqueueGetHead_lt hhead,
            htable, hchain, hchain.nodup, hin, hout, hinLe, houtLe⟩

end VariabilityTestbed.Virtio
