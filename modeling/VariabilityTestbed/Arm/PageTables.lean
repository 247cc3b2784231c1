import Mathlib.Data.List.FinRange
import VariabilityTestbed.Arm.Cpu
import VariabilityTestbed.Lib.AddressMasks

/-!
# Translation of addresses

`get_phys_addr` translates an address for one access. It returns what is allowed at that address,
and the TLB then uses that for every access to the page of 1 KB around it, without asking again. So
the result has to allow the access that was asked for, and what it allows has to be what
`get_phys_addr` would say for the other accesses.

For the MMU that is so, because the walk does not depend on the access and `check_ap` treats the
accesses alike. The MPU has no such check: it grants a region whose permission allows anything at
all, whatever the access, and lets code be executed where data may be read. And a process identifier
that is not a multiple of the page size moves addresses within their page.
-/

namespace VariabilityTestbed.Arm

open BitVec Option

namespace PageTables

/-! ### The code -/

/-- `access_type`. -/
inductive Access where
  | read
  | write
  | exec
  deriving DecidableEq

/-- `PAGE_READ`. -/
def PAGE_READ : BitVec 3 := 1

/-- `PAGE_WRITE`. -/
def PAGE_WRITE : BitVec 3 := 2

/-- `PAGE_EXEC`. -/
def PAGE_EXEC : BitVec 3 := 4

/-- The permission for an access. -/
def Access.page : Access → BitVec 3
  | .read => PAGE_READ
  | .write => PAGE_WRITE
  | .exec => PAGE_EXEC

def Allows (prot : BitVec 3) (t : Access) : Prop := prot &&& t.page ≠ 0

instance (prot : BitVec 3) (t : Access) : Decidable (Allows prot t) :=
  inferInstanceAs (Decidable (_ ≠ _))

/-- The features and the registers of CP15 that decide. -/
structure Cpu where
  featureMpu : Bool
  featureXscale : Bool
  featureV6 : Bool
  featureV7 : Bool
  c1Sys : BitVec 32
  c2Base0 : BitVec 32
  c2Base1 : BitVec 32
  c2Control : BitVec 3
  c3 : BitVec 32
  c5Data : BitVec 32
  c5Insn : BitVec 32
  c6Region : Fin 8 → BitVec 32
  c13Fcse : BitVec 32

/-- `c2_mask`, which is computed when `c2_control` is written. -/
def Cpu.c2Mask (c : Cpu) : BitVec 32 := ~~~(0xffffffff#32 >>> c.c2Control)

/-- `c2_base_mask`, which is computed when `c2_control` is written. -/
def Cpu.c2BaseMask (c : Cpu) : BitVec 32 := ~~~(0x3fff#32 >>> c.c2Control)

/-- `check_ap`. There are eight values of `ap`. -/
def checkAp (c : Cpu) (ap domain : BitVec 32) (accessType : Access) (isUser : Bool) : BitVec 3 :=
  let protRo := if accessType = .write then 0 else PAGE_READ
  if domain = 3 then PAGE_READ ||| PAGE_WRITE
  else if ap = 0 then
    if accessType = .write then 0
    else if (c.c1Sys >>> 8) &&& 3#32 = 1 then if isUser then 0 else PAGE_READ
    else if (c.c1Sys >>> 8) &&& 3#32 = 2 then PAGE_READ
    else 0
  else if ap = 1 then if isUser then 0 else PAGE_READ ||| PAGE_WRITE
  else if ap = 2 then if isUser then protRo else PAGE_READ ||| PAGE_WRITE
  else if ap = 3 then PAGE_READ ||| PAGE_WRITE
  else if ap = 4 then 0
  else if ap = 5 then if isUser then 0 else protRo
  else if ap = 6 then protRo
  else if c.featureV7 then protRo
  else 0

/-- `get_level1_table_address`. -/
def getLevel1TableAddress (c : Cpu) (address : BitVec 32) : BitVec 32 :=
  let table := if address &&& c.c2Mask ≠ 0 then c.c2Base1 &&& 0xffffc000#32
    else c.c2Base0 &&& c.c2BaseMask
  table ||| ((address >>> 18) &&& 0x3ffc#32)

/-- What a walk of the page tables finds. `code` is the fault if the access is not permitted. -/
structure Page where
  physAddr : BitVec 32
  ap : BitVec 32
  xn : Bool
  domain : BitVec 32
  code : BitVec 32
  pageSize : ℕ

/-- What is returned for a fault. -/
def fault (code domain : BitVec 32) : BitVec 32 := code ||| (domain <<< 4)

/-- A domain allows no access if its field is 0 or 2. -/
def domainFault (domain : BitVec 32) : Prop := domain = 0 ∨ domain = 2

instance (domain : BitVec 32) : Decidable (domainFault domain) :=
  inferInstanceAs (Decidable (_ ∨ _))

/-- A physical address that has the high bits of a descriptor and the low bits of the address. -/
def physAddr (desc mask address : BitVec 32) : BitVec 32 :=
  (desc &&& mask) ||| (address &&& ~~~mask)

/-- The walk of `get_phys_addr_v5` in a table of the second level. -/
def walkV5L2 (c : Cpu) (type desc domain address : BitVec 32) : Except (BitVec 32) Page :=
  let ap := (desc >>> (4#32 + ((address >>> 13) &&& 6#32))) &&& 3#32
  if desc &&& 3#32 = 0 then .error (fault 7 domain)
  else if desc &&& 3#32 = 1 then .ok ⟨physAddr desc 0xffff0000 address, ap, false,
    domain, 15, 0x10000⟩
  else if desc &&& 3#32 = 2 then .ok ⟨physAddr desc 0xfffff000 address, ap, false,
    domain, 15, 0x1000⟩
  else
    let ap := (desc >>> 4) &&& 3#32
    if type = 1 then
      if c.featureXscale then .ok ⟨physAddr desc 0xfffff000 address, ap, false, domain, 15, 0x400⟩
      else .error (fault 7 domain)
    else .ok ⟨physAddr desc 0xfffffc00 address, ap, false, domain, 15, 0x400⟩

/-- The walk of `get_phys_addr_v5`. `ldlPhys` is the content of memory; the addresses of tables are
multiples of 4. -/
def walkV5 (c : Cpu) (ldlPhys : BitVec 32 → BitVec 32) (address : BitVec 32) :
    Except (BitVec 32) Page :=
  let desc := ldlPhys (getLevel1TableAddress c address)
  let type := desc &&& 3#32
  let domain := (c.c3 >>> ((desc >>> 4) &&& 0x1e#32)) &&& 3#32
  if type = 0 then .error (fault 5 domain)
  else if domainFault domain then .error (fault (if type = 2 then 9 else 11) domain)
  else if type = 2 then
    .ok ⟨physAddr desc 0xfff00000 address, (desc >>> 10) &&& 3#32, false, domain, 13, 1024 * 1024⟩
  else
    let table :=
      if type = 1 then (desc &&& 0xfffffc00#32) ||| ((address >>> 10) &&& 0x3fc#32)
      else (desc &&& 0xfffff000#32) ||| ((address >>> 8) &&& 0xffc#32)
    walkV5L2 c type (ldlPhys table) domain address

/-- What `get_phys_addr` returns if there is no fault. -/
structure Translation where
  physAddr : BitVec 32
  prot : BitVec 3
  pageSize : ℕ

/-- The end of `get_phys_addr_v5`. -/
def permitV5 (c : Cpu) (p : Page) (accessType : Access) (isUser : Bool) :
    Except (BitVec 32) Translation :=
  let prot := checkAp c p.ap p.domain accessType isUser
  if prot = 0 then .error (fault p.code p.domain)
  else .ok ⟨p.physAddr, prot ||| PAGE_EXEC, p.pageSize⟩

/-- `get_phys_addr_v5`. -/
def getPhysAddrV5 (c : Cpu) (ldlPhys : BitVec 32 → BitVec 32) (address : BitVec 32)
    (accessType : Access) (isUser : Bool) : Except (BitVec 32) Translation :=
  (walkV5 c ldlPhys address).bind fun p => permitV5 c p accessType isUser

/-- The walk of `get_phys_addr_v6` in a table of the second level. -/
def walkV6L2 (desc domain address : BitVec 32) : Except (BitVec 32) Page :=
  let ap := ((desc >>> 4) &&& 3#32) ||| ((desc >>> 7) &&& 4#32)
  if desc &&& 3#32 = 0 then .error (fault 7 domain)
  else if desc &&& 3#32 = 1 then
    .ok ⟨physAddr desc 0xffff0000 address, ap, desc.getLsbD 15, domain, 15, 0x10000⟩
  else .ok ⟨physAddr desc 0xfffff000 address, ap, desc.getLsbD 0, domain, 15, 0x1000⟩

/-- The walk of `get_phys_addr_v6`. -/
def walkV6 (c : Cpu) (ldlPhys : BitVec 32 → BitVec 32) (address : BitVec 32) :
    Except (BitVec 32) Page :=
  let desc := ldlPhys (getLevel1TableAddress c address)
  let type := desc &&& 3#32
  if type = 0 then .error (fault 5 0)
  else
    let supersection := type = 2 ∧ desc.getLsbD 18 = true
    let domain := (c.c3 >>> (if supersection then 0#32 else (desc >>> 4) &&& 0x1e#32)) &&& 3#32
    if domainFault domain then .error (fault (if type = 2 then 9 else 11) domain)
    else if type = 2 then
      let ap := ((desc >>> 10) &&& 3#32) ||| ((desc >>> 13) &&& 4#32)
      if supersection then .ok ⟨physAddr desc 0xff000000 address, ap, desc.getLsbD 4, domain,
        13, 0x1000000⟩
      else .ok ⟨physAddr desc 0xfff00000 address, ap, desc.getLsbD 4, domain, 13, 0x100000⟩
    else
      walkV6L2 (ldlPhys ((desc &&& 0xfffffc00#32) ||| ((address >>> 10) &&& 0x3fc#32)))
        domain address

/-- The end of `get_phys_addr_v6`. -/
def permitV6 (c : Cpu) (p : Page) (accessType : Access) (isUser : Bool) :
    Except (BitVec 32) Translation :=
  if p.domain = 3 then .ok ⟨p.physAddr, PAGE_READ ||| PAGE_WRITE ||| PAGE_EXEC, p.pageSize⟩
  else if p.xn ∧ accessType = .exec then .error (fault p.code p.domain)
  -- the simplified model uses AP[0] as an access control bit
  else if c.c1Sys.getLsbD 29 = true ∧ p.ap &&& 1#32 = 0 then
    .error (fault (if p.code = 15 then 6 else 3) p.domain)
  else
    let prot := checkAp c p.ap p.domain accessType isUser
    if prot = 0 then .error (fault p.code p.domain)
    else .ok ⟨p.physAddr, if p.xn then prot else prot ||| PAGE_EXEC, p.pageSize⟩

/-- `get_phys_addr_v6`. -/
def getPhysAddrV6 (c : Cpu) (ldlPhys : BitVec 32 → BitVec 32) (address : BitVec 32)
    (accessType : Access) (isUser : Bool) : Except (BitVec 32) Translation :=
  (walkV6 c ldlPhys address).bind fun p => permitV6 c p accessType isUser

/-- Whether an address is in a region of the MPU. -/
def inRegion (base address : BitVec 32) : Bool :=
  let mask := (1#32 <<< ((base >>> 1) &&& 0x1f#32) <<< 1) - 1
  base.getLsbD 0 && (base ^^^ address) &&& ~~~mask == 0

/-- The loop of `get_phys_addr_mpu`. -/
def findRegion (c : Cpu) (address : BitVec 32) : Option (Fin 8) :=
  (List.finRange 8).reverse.find? fun n => inRegion (c.c6Region n) address

/-- The switch of `get_phys_addr_mpu`. -/
def regionProt (mask : BitVec 32) (isUser : Bool) : Option (BitVec 3) :=
  if mask = 0 then none
  else if mask = 1 then if isUser then none else some (PAGE_READ ||| PAGE_WRITE)
  else if mask = 2 then some (if isUser then PAGE_READ else PAGE_READ ||| PAGE_WRITE)
  else if mask = 3 then some (PAGE_READ ||| PAGE_WRITE)
  else if mask = 5 then if isUser then none else some PAGE_READ
  else if mask = 6 then some PAGE_READ
  else none

/-- The field of a permission register for a region. -/
def regionMask (perms : BitVec 32) (n : Fin 8) : BitVec 32 := (perms >>> (n.val * 4)) &&& 0xf#32

/-- `TARGET_PAGE_SIZE`. -/
def TARGET_PAGE_SIZE : ℕ := 1024

/-- `get_phys_addr_mpu`. -/
def getPhysAddrMpu (c : Cpu) (address : BitVec 32) (accessType : Access) (isUser : Bool) :
    Except (BitVec 32) Translation :=
  match findRegion c address with
  | none => .error 2
  | some n =>
    match regionProt (regionMask (if accessType = .exec then c.c5Insn else c.c5Data) n) isUser with
    | none => .error 1
    | some prot => .ok ⟨address, prot ||| PAGE_EXEC, TARGET_PAGE_SIZE⟩

/-- Fast Context Switch Extension. -/
def fcse (c : Cpu) (address : BitVec 32) : BitVec 32 :=
  if address < 0x02000000 then address + c.c13Fcse else address

/-- `get_phys_addr`. -/
def getPhysAddr (c : Cpu) (ldlPhys : BitVec 32 → BitVec 32) (address : BitVec 32)
    (accessType : Access) (isUser : Bool) : Except (BitVec 32) Translation :=
  let address := fcse c address
  if c.c1Sys.getLsbD 0 = false then .ok ⟨address, PAGE_READ ||| PAGE_WRITE ||| PAGE_EXEC,
    TARGET_PAGE_SIZE⟩
  else if c.featureMpu then getPhysAddrMpu c address accessType isUser
  else if c.c1Sys.getLsbD 23 then getPhysAddrV6 c ldlPhys address accessType isUser
  else getPhysAddrV5 c ldlPhys address accessType isUser

/-! ### Pages -/

/-- Two addresses in one page of 1 KB. -/
def SamePage (a b : BitVec 32) : Prop := a.toNat / 1024 = b.toNat / 1024

/-- The address in a page frame that corresponds to `address`. -/
def inFrame (frame address : BitVec 32) : BitVec 32 := (frame &&& ~~~0x3ff) ||| (address &&& 0x3ff)

/-- **What a TLB entry needs.** The access that fills it is allowed; and for every access that is
allowed and every address in the page, the translation is in the same frame. -/
def Grants (c : Cpu) (ldlPhys : BitVec 32 → BitVec 32) (address : BitVec 32) (t : Access)
    (isUser : Bool) : Prop :=
  ∀ r, getPhysAddr c ldlPhys address t isUser = .ok r →
    Allows r.prot t ∧
    ∀ t' address', Allows r.prot t' → SamePage address address' →
      ∃ r', getPhysAddr c ldlPhys address' t' isUser = .ok r' ∧
      r'.physAddr = inFrame r.physAddr address'

section

variable {a b f : BitVec 32}

theorem SamePage.symm (h : SamePage a b) : SamePage b a := Eq.symm h

theorem getLsbD_page_mask {i : ℕ} : (0x3ff#32).getLsbD i = decide (i < 10) := by
  have h : (0x3ff#32) = (allOnes 10).setWidth 32 := rfl
  rw [h, getLsbD_setWidth, getLsbD_allOnes]
  rcases Nat.lt_or_ge i 10 with hi | hi
  · simp [hi, Nat.lt_trans hi (show 10 < 32 by decide)]
  · simp [Nat.not_lt.mpr hi]

theorem SamePage.getLsbD (h : SamePage a b) {i : ℕ} (hi : 10 ≤ i) : a.getLsbD i = b.getLsbD i := by
  have hshift : ∀ x : BitVec 32, x.getLsbD i = (x.toNat / 1024).testBit (i - 10) := by
    intro x
    rw [show 1024 = 2 ^ 10 by rfl, ← Nat.shiftRight_eq_div_pow, Nat.testBit_shiftRight,
      show 10 + (i - 10) = i by omega]
    rfl
  rw [hshift, hshift, h]

theorem SamePage.add (h : SamePage a b) (hf : f.toNat % 1024 = 0) : SamePage (a + f) (b + f) := by
  rw [SamePage, toNat_add, toNat_add]
  rw [SamePage] at h
  omega

theorem SamePage.lt_iff (h : SamePage a b) : a < 0x02000000 ↔ b < 0x02000000 := by
  rw [SamePage] at h
  rw [lt_def, lt_def]
  show a.toNat < 0x02000000 ↔ b.toNat < 0x02000000
  omega

/-- A part of the address that has no bits of the offset. -/
theorem SamePage.shiftRight_and (h : SamePage a b) {k : ℕ} {m : BitVec 32}
    (hm : ∀ i, k + i < 10 → m.getLsbD i = false) : (a >>> k) &&& m = (b >>> k) &&& m := by
  apply eq_of_getLsbD_eq
  intro i _
  rw [getLsbD_and, getLsbD_and, getLsbD_ushiftRight, getLsbD_ushiftRight]
  rcases Nat.lt_or_ge (k + i) 10 with hi | hi
  · rw [hm i hi, Bool.and_false, Bool.and_false]
  · rw [h.getLsbD hi]

theorem toNat_inFrame (frame address : BitVec 32) :
    (inFrame frame address).toNat = frame.toNat / 1024 * 1024 + address.toNat % 1024 := by
  have hoffset : (address &&& 0x3ff).toNat = address.toNat % 1024 := by
    rw [toNat_and]
    exact Nat.and_two_pow_sub_one_eq_mod address.toNat 10
  rw [inFrame, AddressMasks.toNat_and_or (k := 10) (by decide) rfl frame (by omega), hoffset]
  rfl

theorem getLsbD_inFrame (frame address : BitVec 32) {i : ℕ} (hi : i < 32) :
    (inFrame frame address).getLsbD i = if i < 10 then address.getLsbD i else frame.getLsbD i := by
  rw [inFrame, getLsbD_or, getLsbD_and, getLsbD_and, getLsbD_not]
  have hmask : BitVec.getLsbD (0x3ff : BitVec 32) i = decide (i < 10) := getLsbD_page_mask
  rw [hmask]
  split_ifs with h <;> simp [h, hi]

/-- The pages of the tables are made of pages of 1 KB. -/
theorem physAddr_inFrame (h : SamePage a b) (desc mask : BitVec 32)
    (hmask : mask &&& 0x3ff#32 = 0) : physAddr desc mask b = inFrame (physAddr desc mask a) b := by
  apply eq_of_getLsbD_eq
  intro i hi
  rw [getLsbD_inFrame _ _ hi, physAddr, physAddr, getLsbD_or, getLsbD_or, getLsbD_and,
    getLsbD_and, getLsbD_and, getLsbD_not]
  split_ifs with h10
  · have hlow := congrArg (BitVec.getLsbD · i) hmask
    rw [getLsbD_and, getLsbD_page_mask, decide_eq_true h10, Bool.and_true] at hlow
    rw [hlow]
    simp [hi]
  · rw [h.getLsbD (Nat.not_lt.mp h10)]

theorem inFrame_eq_iff (x y : BitVec 32) : x = inFrame x y ↔ x.toNat % 1024 = y.toNat % 1024 := by
  rw [← toNat_inj, toNat_inFrame]
  omega

theorem SamePage.eq_inFrame (h : SamePage a b) : b = inFrame a b := by
  rw [SamePage] at h
  rw [← toNat_inj, toNat_inFrame]
  omega

theorem getLsbD_c2Mask (c : Cpu) {i : ℕ} (hi : i < 10) : c.c2Mask.getLsbD i = false := by
  have hn := c.c2Control.isLt
  have hones : (0xffffffff#32) = allOnes 32 := rfl
  rw [Cpu.c2Mask, hones, getLsbD_not, ushiftRight_eq', getLsbD_ushiftRight, getLsbD_allOnes]
  simp
  omega

theorem getLevel1TableAddress_eq (c : Cpu) (h : SamePage a b) :
    getLevel1TableAddress c a = getLevel1TableAddress c b := by
  have hmask : a &&& c.c2Mask = b &&& c.c2Mask :=
    h.shiftRight_and (k := 0) fun i hi => getLsbD_c2Mask c (by omega)
  rw [getLevel1TableAddress, getLevel1TableAddress, hmask, h.shiftRight_and (k := 18) (by omega)]

end

/-! ### Permissions -/

theorem allows_or_exec (prot : BitVec 3) (t : Access) :
    Allows (prot ||| PAGE_EXEC) t ↔ t = .exec ∨ Allows prot t := by
  cases t <;> revert prot <;> decide

theorem allows_all (t : Access) : Allows (PAGE_READ ||| PAGE_WRITE ||| PAGE_EXEC) t := by
  cases t <;> decide

/-- What `check_ap` grants for reading and for writing: the same, or reading only. -/
def Alike (r w : BitVec 3) : Prop :=
  r = 0 ∧ w = 0 ∨ r = PAGE_READ ∧ w = 0 ∨ r = PAGE_READ ||| PAGE_WRITE ∧
    w = PAGE_READ ||| PAGE_WRITE

theorem Alike.ite {p : Prop} [Decidable p] {r w r' w' : BitVec 3} (h : Alike r w)
    (h' : Alike r' w') :
    Alike (if p then r else r') (if p then w else w') := by
  split_ifs
  · exact h
  · exact h'

theorem Alike.ite_left {p : Prop} [Decidable p] {r r' w : BitVec 3} (h : Alike r w)
    (h' : Alike r' w) :
    Alike (if p then r else r') w := by
  split_ifs
  · exact h
  · exact h'

theorem alike_checkAp (c : Cpu) (ap domain : BitVec 32) (isUser : Bool) :
    Alike (checkAp c ap domain .read isUser) (checkAp c ap domain .write isUser) := by
  have hnone : Alike 0 0 := .inl ⟨rfl, rfl⟩
  have hread : Alike PAGE_READ 0 := .inr (.inl ⟨rfl, rfl⟩)
  have hall : Alike (PAGE_READ ||| PAGE_WRITE) (PAGE_READ ||| PAGE_WRITE) := .inr (.inr ⟨rfl, rfl⟩)
  rw [checkAp, checkAp]
  simp only [reduceCtorEq, if_false, if_true]
  repeat' first | assumption | apply Alike.ite | apply Alike.ite_left

/-- **`check_ap` treats accesses alike**: what it grants for a write is all or nothing, and it is
what it grants for reading. -/
theorem checkAp_eq (c : Cpu) (ap domain : BitVec 32) (isUser : Bool) :
    ∃ prot, (prot = 0 ∨ prot = PAGE_READ ∨ prot = PAGE_READ ||| PAGE_WRITE) ∧
      ∀ t, checkAp c ap domain t isUser =
        if t = .write ∧ prot ≠ PAGE_READ ||| PAGE_WRITE then 0 else prot := by
  have hexec : checkAp c ap domain .exec isUser = checkAp c ap domain .read isUser := rfl
  have hne : PAGE_READ ≠ PAGE_READ ||| PAGE_WRITE := by decide
  rcases alike_checkAp c ap domain isUser with ⟨hread, hwrite⟩ | ⟨hread, hwrite⟩ | ⟨hread, hwrite⟩
  · exact ⟨0, .inl rfl, fun t => by cases t <;> simp [hexec, hread, hwrite]⟩
  · exact ⟨PAGE_READ, .inr (.inl rfl), fun t => by cases t <;> simp [hexec, hread, hwrite, hne]⟩
  · exact ⟨PAGE_READ ||| PAGE_WRITE, .inr (.inr rfl), fun t =>
      by cases t <;> simp [hexec, hread, hwrite]⟩

/-- What is granted for an access includes it, and is granted for the accesses that are included.
Code may be executed where data may be read. -/
theorem checkAp_closed {c : Cpu} {ap domain : BitVec 32} {t : Access} {isUser : Bool}
    (h : checkAp c ap domain t isUser ≠ 0) :
    (t = .exec ∨ Allows (checkAp c ap domain t isUser) t) ∧
    ¬Allows (checkAp c ap domain t isUser) .exec ∧
      ∀ t', t' = .exec ∨ Allows (checkAp c ap domain t isUser) t' →
      checkAp c ap domain t' isUser ≠ 0 := by
  obtain ⟨prot, hprot, heq⟩ := checkAp_eq c ap domain isUser
  rw [heq t] at h ⊢
  rcases hprot with rfl | rfl | rfl <;> cases t <;> revert h <;>
    exact fun h => ⟨by revert h; decide, by revert h; decide, fun t' =>
    by rw [heq t']; cases t' <;> revert h <;> decide⟩

/-- A page, for another address in it. -/
def Page.move (p : Page) (address : BitVec 32) : Page :=
  { p with physAddr := inFrame p.physAddr address }

/-- **What a walk and a check of permissions have to do**: the walk finds the same for all addresses
of a page of 1 KB, and the check grants what it would grant for the other accesses. -/
theorem grants_of_walk {ε : Type*} {walk : BitVec 32 → Except ε Page}
    {permit : Page → Access → Except ε Translation}
    (hwalk : ∀ a b, SamePage a b → walk b = (walk a).map (·.move b))
    (hpermit : ∀ p t r, permit p t = .ok r → r.physAddr = p.physAddr ∧ Allows r.prot t ∧
      ∀ t' b, Allows r.prot t' → ∃ r', permit (p.move b) t' = .ok r' ∧
      r'.physAddr = inFrame p.physAddr b)
    {a : BitVec 32} {t : Access} {r : Translation} (h : (walk a).bind (permit · t) = .ok r) :
    Allows r.prot t ∧ ∀ t' b, Allows r.prot t' → SamePage a b →
      ∃ r', (walk b).bind (permit · t') = .ok r' ∧ r'.physAddr = inFrame r.physAddr b := by
  cases hp : walk a with
  | error e =>
    rw [hp] at h
    exact nomatch h
  | ok p =>
    rw [hp] at h
    obtain ⟨hphys, hallows, hother⟩ := hpermit p t r h
    refine ⟨hallows, fun t' b ht' hb => ?_⟩
    rw [hwalk a b hb, hp, hphys]
    exact hother t' b ht'

theorem permitV5_spec {c : Cpu} {isUser : Bool} (p : Page) (t : Access) (r : Translation)
    (h : permitV5 c p t isUser = .ok r) : r.physAddr = p.physAddr ∧ Allows r.prot t ∧
      ∀ t' b, Allows r.prot t' →
        ∃ r', permitV5 c (p.move b) t' isUser = .ok r' ∧ r'.physAddr = inFrame p.physAddr b := by
  rw [permitV5] at h
  split_ifs at h with hprot
  cases h
  obtain ⟨hself, -, hother⟩ := checkAp_closed hprot
  refine ⟨rfl, (allows_or_exec _ t).mpr hself, fun t' b ht' => ?_⟩
  have hmove : checkAp c (p.move b).ap (p.move b).domain t' isUser ≠ 0 :=
    hother t' ((allows_or_exec _ t').mp ht')
  exact ⟨_, by rw [permitV5, if_neg hmove], rfl⟩

theorem permitV6_eq_ok {c : Cpu} {isUser : Bool} {p : Page} {t : Access} {r : Translation}
    (hdomain : p.domain ≠ 3) :
    permitV6 c p t isUser = .ok r ↔
      ¬(p.xn = true ∧ t = .exec) ∧ ¬(c.c1Sys.getLsbD 29 = true ∧ p.ap &&& 1#32 = 0) ∧
      checkAp c p.ap p.domain t isUser ≠ 0 ∧
      ⟨p.physAddr, if p.xn then checkAp c p.ap p.domain t isUser
        else checkAp c p.ap p.domain t isUser ||| PAGE_EXEC, p.pageSize⟩ = r := by
  rw [permitV6, if_neg hdomain]
  generalize checkAp c p.ap p.domain t isUser = prot
  by_cases hxn : p.xn = true ∧ t = .exec
  · simp [hxn]
  · by_cases haf : c.c1Sys.getLsbD 29 = true ∧ p.ap &&& 1#32 = 0
    · rw [if_neg hxn, if_pos haf]
      exact iff_of_false nofun fun h => h.2.1 haf
    · by_cases hprot : prot = 0
      · rw [if_neg hxn, if_neg haf, if_pos hprot]
        exact iff_of_false nofun fun h => h.2.2.1 hprot
      · rw [if_neg hxn, if_neg haf, if_neg hprot, Except.ok.injEq]
        exact ⟨fun h => ⟨hxn, haf, hprot, h⟩, fun h => h.2.2.2⟩

theorem permitV6_spec {c : Cpu} {isUser : Bool} (p : Page) (t : Access) (r : Translation)
    (h : permitV6 c p t isUser = .ok r) : r.physAddr = p.physAddr ∧ Allows r.prot t ∧
      ∀ t' b, Allows r.prot t' →
        ∃ r', permitV6 c (p.move b) t' isUser = .ok r' ∧ r'.physAddr = inFrame p.physAddr b := by
  by_cases hdomain : p.domain = 3
  · rw [permitV6, if_pos hdomain] at h
    cases h
    refine ⟨rfl, allows_all t, fun t' b _ => ?_⟩
    rw [permitV6, if_pos (show (p.move b).domain = 3 from hdomain)]
    exact ⟨_, rfl, rfl⟩
  · obtain ⟨hxn, haf, hprot, rfl⟩ := (permitV6_eq_ok hdomain).mp h
    obtain ⟨hself, hexec, hother⟩ := checkAp_closed hprot
    have hmove : ∀ t' b, (t' = .exec ∨ Allows (checkAp c p.ap p.domain t isUser) t') →
        ¬(p.xn = true ∧ t' = .exec) →
        ∃ r', permitV6 c (p.move b) t' isUser = .ok r' ∧ r'.physAddr = inFrame p.physAddr b :=
        fun t' b ht' hxn' =>
      ⟨_, (permitV6_eq_ok (p := p.move b) hdomain).mpr ⟨hxn', haf, hother t' ht', rfl⟩, rfl⟩
    dsimp only
    split_ifs with hx
    · refine ⟨rfl, hself.resolve_left fun ht => hxn ⟨hx, ht⟩, fun t' b ht' =>
        hmove t' b (.inr ht') ?_⟩
      rintro ⟨-, rfl⟩
      exact hexec ht'
    · refine ⟨rfl, (allows_or_exec _ t).mpr hself, fun t' b ht' => ?_⟩
      exact hmove t' b ((allows_or_exec _ t').mp ht') fun h => hx h.1

/-! ### Walks -/

section

variable {a b : BitVec 32}

theorem walkV5L2_samePage (c : Cpu) (type desc domain : BitVec 32) (h : SamePage a b) :
    walkV5L2 c type desc domain b = (walkV5L2 c type desc domain a).map (·.move b) := by
  have hap : (b >>> 13) &&& 6#32 = (a >>> 13) &&& 6#32 := h.symm.shiftRight_and (by omega)
  have h16 := physAddr_inFrame h desc 0xffff0000 rfl
  have h12 := physAddr_inFrame h desc 0xfffff000 rfl
  have h10 := physAddr_inFrame h desc 0xfffffc00 rfl
  rw [walkV5L2, walkV5L2, hap, h16, h12, h10]
  split_ifs <;> rfl

/-- **The walk of version 5** finds the same for all addresses of a page. -/
theorem walkV5_samePage (c : Cpu) (ldlPhys : BitVec 32 → BitVec 32) (h : SamePage a b) :
    walkV5 c ldlPhys b = (walkV5 c ldlPhys a).map (·.move b) := by
  have hcoarse : (b >>> 10) &&& 0x3fc#32 = (a >>> 10) &&& 0x3fc#32 :=
    h.symm.shiftRight_and (by omega)
  have hfine : (b >>> 8) &&& 0xffc#32 = (a >>> 8) &&& 0xffc#32 := by
    refine h.symm.shiftRight_and fun i hi => ?_
    have hi : i < 2 := by omega
    interval_cases i <;> rfl
  have hsection := fun desc => physAddr_inFrame h desc 0xfff00000 rfl
  rw [walkV5, walkV5, ← getLevel1TableAddress_eq c h]
  dsimp only
  rw [hcoarse, hfine, hsection, walkV5L2_samePage _ _ _ _ h]
  split_ifs <;> rfl

theorem walkV6L2_samePage (desc domain : BitVec 32) (h : SamePage a b) :
    walkV6L2 desc domain b = (walkV6L2 desc domain a).map (·.move b) := by
  have h16 := physAddr_inFrame h desc 0xffff0000 rfl
  have h12 := physAddr_inFrame h desc 0xfffff000 rfl
  rw [walkV6L2, walkV6L2, h16, h12]
  split_ifs <;> rfl

/-- **The walk of version 6** finds the same for all addresses of a page. -/
theorem walkV6_samePage (c : Cpu) (ldlPhys : BitVec 32 → BitVec 32) (h : SamePage a b) :
    walkV6 c ldlPhys b = (walkV6 c ldlPhys a).map (·.move b) := by
  have hcoarse : (b >>> 10) &&& 0x3fc#32 = (a >>> 10) &&& 0x3fc#32 :=
    h.symm.shiftRight_and (by omega)
  have hsection := fun desc => physAddr_inFrame h desc 0xfff00000 rfl
  have hsuper := fun desc => physAddr_inFrame h desc 0xff000000 rfl
  rw [walkV6, walkV6, ← getLevel1TableAddress_eq c h]
  dsimp only
  rw [hcoarse, hsection, hsuper, walkV6L2_samePage _ _ h]
  split_ifs <;> rfl

end

/-! ### The registers that decide -/

/-- The process identifier is a multiple of the page size. -/
def Aligned (c : Cpu) : Prop := c.c13Fcse.toNat % 1024 = 0

/-- What the MPU grants for the region that an address is in, by one of the permission registers. -/
def mpuProt (c : Cpu) (perms address : BitVec 32) (isUser : Bool) : Option (BitVec 3) :=
  (findRegion c (fcse c address)).bind fun n => regionProt (regionMask perms n) isUser

/-- In each page, the MPU allows access to data at one address exactly if it allows execution at
another; and where it allows access to data, it allows writes. -/
def MpuConsistent (c : Cpu) : Prop :=
  ∀ a b isUser, SamePage a b →
    (mpuProt c c.c5Data a isUser).isSome = (mpuProt c c.c5Insn b isUser).isSome ∧
    ∀ prot, mpuProt c c.c5Data a isUser = some prot → Allows prot .write ∧
    (a < 0x02000000 → Aligned c)

/-- No domain allows access. -/
def NoDomain (c : Cpu) : Prop := ∀ d : Fin 16, domainFault ((c.c3 >>> (2 * d.val)) &&& 3#32)

/-- **The registers with which a TLB entry is always right.** -/
def Consistent (c : Cpu) : Prop :=
  if c.c1Sys.getLsbD 0 = false then Aligned c
  else if c.featureMpu then MpuConsistent c
  else Aligned c ∨ NoDomain c

section

variable {c : Cpu} {a b : BitVec 32} {isUser : Bool}

theorem SamePage.fcse (h : SamePage a b) (hc : a < 0x02000000 → Aligned c) :
    SamePage (fcse c a) (fcse c b) := by
  rw [PageTables.fcse, PageTables.fcse]
  by_cases ha : a < 0x02000000
  · rw [if_pos ha, if_pos (h.lt_iff.mp ha)]
    exact h.add (hc ha)
  · rw [if_neg ha, if_neg (mt h.lt_iff.mpr ha)]
    exact h

/-- The offset in the page stays, unless the process identifier moves it. -/
theorem fcse_mod_iff (c : Cpu) (a : BitVec 32) :
    (fcse c a).toNat % 1024 = a.toNat % 1024 ↔ (a < 0x02000000 → Aligned c) := by
  rw [fcse, Aligned]
  split_ifs with h
  · rw [toNat_add]
    constructor
    · intro heq _
      omega
    · intro haligned
      have := haligned h
      omega
  · exact iff_of_true rfl fun ha => absurd ha h

theorem inFrame_fcse (frame : BitVec 32) (hc : a < 0x02000000 → Aligned c) :
    inFrame frame (fcse c a) = inFrame frame a := by
  rw [← toNat_inj, toNat_inFrame, toNat_inFrame, (fcse_mod_iff c a).mpr hc]

theorem SamePage.lt_imp (h : SamePage a b) (hc : a < 0x02000000 → Aligned c) :
    b < 0x02000000 → Aligned c :=
  fun hb => hc (h.lt_iff.mpr hb)

/-- An entry that is right for its own address has the offset of the address. -/
theorem Grants.mod_eq {ldlPhys : BitVec 32 → BitVec 32} {t : Access} {r : Translation}
    (h : Grants c ldlPhys a t isUser) (hr : getPhysAddr c ldlPhys a t isUser = .ok r) :
    r.physAddr.toNat % 1024 = a.toNat % 1024 := by
  obtain ⟨hself, hother⟩ := h r hr
  obtain ⟨r', hr', hphys⟩ := hother t a hself rfl
  obtain rfl := Except.ok.inj (hr.symm.trans hr')
  exact (inFrame_eq_iff _ _).mp hphys

/-! ### Without translation -/

theorem grants_iff_of_off (hoff : c.c1Sys.getLsbD 0 = false) :
    (∀ ldlPhys address t isUser, Grants c ldlPhys address t isUser) ↔ Aligned c := by
  have heq : ∀ ldlPhys address t isUser, getPhysAddr c ldlPhys address t isUser =
      .ok ⟨fcse c address, PAGE_READ ||| PAGE_WRITE ||| PAGE_EXEC, TARGET_PAGE_SIZE⟩ := by
    intro ldlPhys address t isUser
    rw [getPhysAddr, if_pos hoff]
  constructor
  · intro h
    exact (fcse_mod_iff c 0).mp ((h (fun _ => 0) 0 .read false).mod_eq (heq ..)) (by decide)
  · intro hc ldlPhys address t isUser r hr
    rw [heq] at hr
    cases hr
    refine ⟨allows_all t, fun t' address' _ hpage => ⟨_, heq .., ?_⟩⟩
    have hmoved := (hpage.fcse fun _ => hc).eq_inFrame
    rwa [inFrame_fcse _ fun _ => hc] at hmoved

/-! ### With the MPU -/

theorem regionProt_spec {mask : BitVec 32} {prot : BitVec 3}
    (h : regionProt mask isUser = some prot) :
    Allows prot .read ∧ ¬Allows prot .exec := by
  rw [regionProt] at h
  split_ifs at h <;> obtain rfl := some.inj h <;> decide

theorem mpuProt_spec {perms : BitVec 32} {prot : BitVec 3}
    (h : mpuProt c perms a isUser = some prot) :
    Allows prot .read ∧ ¬Allows prot .exec := by
  obtain ⟨n, -, hn⟩ := bind_eq_some_iff.mp h
  exact regionProt_spec hn

/-- The permission register for an access. -/
def Cpu.perms (c : Cpu) (t : Access) : BitVec 32 := if t = .exec then c.c5Insn else c.c5Data

theorem getPhysAddr_mpu_eq_ok {ldlPhys : BitVec 32 → BitVec 32} {t : Access} {r : Translation}
    (hon : c.c1Sys.getLsbD 0 = true) (hmpu : c.featureMpu = true) :
    getPhysAddr c ldlPhys a t isUser = .ok r ↔
      ∃ prot, mpuProt c (c.perms t) a isUser = some prot ∧
        ⟨fcse c a, prot ||| PAGE_EXEC, TARGET_PAGE_SIZE⟩ = r := by
  have hoff : ¬c.c1Sys.getLsbD 0 = false := by simp [hon]
  rw [getPhysAddr, if_neg hoff, if_pos hmpu, getPhysAddrMpu, mpuProt, Cpu.perms]
  cases findRegion c (fcse c a) with
  | none => simp
  | some n =>
    rw [bind_some]
    dsimp only
    cases regionProt (regionMask (if t = .exec then c.c5Insn else c.c5Data) n) isUser with
    | none => simp
    | some prot => simp

/-- A page in which data may be accessed at some address. -/
theorem MpuConsistent.page (h : MpuConsistent c) {t : Access}
    {prot : BitVec 3} (hprot : mpuProt c (c.perms t) a isUser = some prot) :
    (∀ t' b, SamePage a b → (mpuProt c (c.perms t') b isUser).isSome) ∧
      (∀ b, SamePage a b → ∀ prot, mpuProt c c.c5Data b isUser = some prot → Allows prot .write) ∧
      (a < 0x02000000 → Aligned c) := by
  -- one access that is allowed makes the others allowed in the whole page
  have hdata : (mpuProt c c.c5Data a isUser).isSome := by
    cases t with
    | exec =>
      rw [(h a a isUser rfl).1]
      exact isSome_iff_exists.mpr ⟨prot, hprot⟩
    | read | write => exact isSome_iff_exists.mpr ⟨prot, hprot⟩
  have hinsn : ∀ b, SamePage a b → (mpuProt c c.c5Insn b isUser).isSome := by
    intro b hb
    rw [← (h a b isUser hb).1]
    exact hdata
  have hdata' : ∀ b, SamePage a b → (mpuProt c c.c5Data b isUser).isSome := by
    intro b hb
    rw [(h b a isUser hb.symm).1]
    exact hinsn a rfl
  refine ⟨?_, fun b hb prot hprot => ((h b b isUser rfl).2 prot hprot).1, ?_⟩
  · intro t' b hb
    cases t' with
    | exec => exact hinsn b hb
    | read | write => exact hdata' b hb
  · obtain ⟨prot', hprot'⟩ := isSome_iff_exists.mp hdata
    exact ((h a a isUser rfl).2 prot' hprot').2

theorem grants_iff_of_mpu (hon : c.c1Sys.getLsbD 0 = true) (hmpu : c.featureMpu = true) :
    (∀ ldlPhys address t isUser, Grants c ldlPhys address t isUser) ↔ MpuConsistent c := by
  constructor
  · intro h
    have hallows : ∀ {a : BitVec 32} {isUser : Bool} {t : Access} {prot : BitVec 3},
        mpuProt c (c.perms t) a isUser = some prot → Allows (prot ||| PAGE_EXEC) t ∧
          ∀ t' b, Allows (prot ||| PAGE_EXEC) t' → SamePage a b →
          (mpuProt c (c.perms t') b isUser).isSome := by
      intro a isUser t prot hprot
      obtain ⟨hself, hother⟩ :=
        h (fun _ => 0) a t isUser _ ((getPhysAddr_mpu_eq_ok hon hmpu).mpr ⟨prot, hprot, rfl⟩)
      refine ⟨hself, fun t' b ht' hb => ?_⟩
      obtain ⟨r', hr', -⟩ := hother t' b ht' hb
      obtain ⟨prot', hprot', -⟩ := (getPhysAddr_mpu_eq_ok hon hmpu).mp hr'
      exact isSome_iff_exists.mpr ⟨prot', hprot'⟩
    intro a b isUser hpage
    refine ⟨?_, fun prot hprot => ⟨?_, ?_⟩⟩
    · rw [Bool.eq_iff_iff, isSome_iff_exists]
      constructor
      · rintro ⟨prot, hprot⟩
        exact (hallows (t := .read) hprot).2 .exec b ((allows_or_exec _ _).mpr (.inl rfl)) hpage
      · rw [isSome_iff_exists]
        rintro ⟨prot, hprot⟩
        have hread := (allows_or_exec prot .read).mpr (.inr (mpuProt_spec hprot).1)
        exact isSome_iff_exists.mp ((hallows (t := .exec) hprot).2 .read a hread hpage.symm)
    · exact ((allows_or_exec _ _).mp (hallows (t := .write) hprot).1).resolve_left nofun
    · have hmod := (h (fun _ => 0) a .read isUser).mod_eq
        ((getPhysAddr_mpu_eq_ok hon hmpu).mpr ⟨prot, hprot, rfl⟩)
      exact (fcse_mod_iff c a).mp hmod
  · intro h ldlPhys address t isUser r hr
    obtain ⟨prot, hprot, rfl⟩ := (getPhysAddr_mpu_eq_ok hon hmpu).mp hr
    obtain ⟨hall, hwrite, hc⟩ := h.page hprot
    constructor
    · rw [allows_or_exec]
      cases t with
      | exec => exact .inl rfl
      | read => exact .inr (mpuProt_spec hprot).1
      | write => exact .inr (hwrite address rfl prot hprot)
    · intro t' address' _ hpage
      obtain ⟨prot', hprot'⟩ := isSome_iff_exists.mp (hall t' address' hpage)
      refine ⟨_, (getPhysAddr_mpu_eq_ok hon hmpu).mpr ⟨prot', hprot', rfl⟩, ?_⟩
      have hmoved := (hpage.fcse hc).eq_inFrame
      rwa [inFrame_fcse _ (hpage.lt_imp hc)] at hmoved

/-! ### With page tables -/

/-- The descriptor of a section at address 0 in a domain, which anyone may read and write. -/
def openSection (d : Fin 16) : BitVec 32 := 0xc02#32 ||| (BitVec.ofNat 32 d.val <<< 5)

theorem openSection_spec : ∀ d : Fin 16, openSection d &&& 3#32 = 2 ∧
    ((openSection d >>> 4) &&& 0x1e#32).toNat = 2 * d.val ∧ (openSection d).getLsbD 18 = false ∧
    (openSection d >>> 10) &&& 3#32 = 3 ∧ (openSection d >>> 13) &&& 4#32 = 0 ∧
    (openSection d).getLsbD 4 = false ∧ openSection d &&& 0xfff00000#32 = 0 := by decide

theorem toNat_physAddr_openSection (d : Fin 16) (x : BitVec 32) :
    (physAddr (openSection d) 0xfff00000 x).toNat % 1024 = x.toNat % 1024 := by
  have hzero : openSection d &&& 0xfff00000 = 0#32 := (openSection_spec d).2.2.2.2.2.2
  have hmask : ~~~(0xfff00000 : BitVec 32) = 0xfffff#32 := rfl
  have hmod : (x &&& 0xfffff#32).toNat = x.toNat % 2 ^ 20 := by
    rw [toNat_and]
    exact Nat.and_two_pow_sub_one_eq_mod x.toNat 20
  rw [physAddr, hzero, zero_or, hmask, hmod]
  omega

theorem walkV5_openSection {d : Fin 16} (hd : ¬domainFault ((c.c3 >>> (2 * d.val)) &&& 3#32)) :
    walkV5 c (fun _ => openSection d) a = .ok ⟨physAddr (openSection d) 0xfff00000 a, 3, false,
      (c.c3 >>> (2 * d.val)) &&& 3#32, 13, 1024 * 1024⟩ := by
  obtain ⟨htype, hdomain, -, hap, -, -, -⟩ := openSection_spec d
  rw [walkV5]
  dsimp only
  rw [ushiftRight_eq' c.c3, hdomain, htype, hap, if_neg (by decide), if_neg hd, if_pos rfl]

theorem walkV6_openSection {d : Fin 16} (hd : ¬domainFault ((c.c3 >>> (2 * d.val)) &&& 3#32)) :
    walkV6 c (fun _ => openSection d) a = .ok ⟨physAddr (openSection d) 0xfff00000 a, 3, false,
      (c.c3 >>> (2 * d.val)) &&& 3#32, 13, 0x100000⟩ := by
  obtain ⟨htype, hdomain, hsuper, hap, hapx, hxn, -⟩ := openSection_spec d
  rw [walkV6]
  dsimp only
  rw [htype, hsuper, if_neg (by decide)]
  simp only [Bool.false_eq_true, and_false, if_false]
  rw [ushiftRight_eq' c.c3, hdomain, if_neg hd, if_pos trivial, hap, hapx, hxn]
  rfl

section

variable {p : Page} (hap : p.ap = 3)

include hap

theorem checkAp_open : checkAp c p.ap p.domain .read isUser ≠ 0 := by
  rw [checkAp, hap]
  simp
  decide

theorem permitV5_open : ∃ r, permitV5 c p .read isUser = .ok r ∧ r.physAddr = p.physAddr :=
  ⟨_, by rw [permitV5, if_neg (checkAp_open hap)], rfl⟩

theorem permitV6_open : ∃ r, permitV6 c p .read isUser = .ok r ∧ r.physAddr = p.physAddr := by
  by_cases hdomain : p.domain = 3
  · exact ⟨_, by rw [permitV6, if_pos hdomain], rfl⟩
  · refine ⟨_, (permitV6_eq_ok hdomain).mpr ⟨by simp, ?_, checkAp_open hap, rfl⟩, rfl⟩
    rw [hap]
    exact fun h => absurd h.2 (by decide)

end

section

variable (hon : c.c1Sys.getLsbD 0 = true) (hmpu : c.featureMpu = false)

include hon hmpu

theorem getPhysAddr_mmu (ldlPhys : BitVec 32 → BitVec 32) (a : BitVec 32) (t : Access) :
    getPhysAddr c ldlPhys a t isUser =
      if c.c1Sys.getLsbD 23 then getPhysAddrV6 c ldlPhys (fcse c a) t isUser
      else getPhysAddrV5 c ldlPhys (fcse c a) t isUser := by
  rw [getPhysAddr, if_neg (by simp [hon]), if_neg (by simp [hmpu])]

/-- With one domain that allows access, there are page tables that map address 0. -/
theorem exists_getPhysAddr (a : BitVec 32) (isUser : Bool) {d : Fin 16}
    (hd : ¬domainFault ((c.c3 >>> (2 * d.val)) &&& 3#32)) :
    ∃ r, getPhysAddr c (fun _ => openSection d) a .read isUser = .ok r ∧
      r.physAddr = physAddr (openSection d) 0xfff00000 (fcse c a) := by
  rw [getPhysAddr_mmu hon hmpu]
  split_ifs
  · rw [getPhysAddrV6, walkV6_openSection hd]
    exact permitV6_open rfl
  · rw [getPhysAddrV5, walkV5_openSection hd]
    exact permitV5_open rfl

end

theorem exists_domain (desc : BitVec 32) :
    ∃ d : Fin 16, ((desc >>> 4) &&& 0x1e#32).toNat = 2 * d.val := by
  have hle : ((desc >>> 4) &&& 0x1e#32).toNat ≤ 0x1e := by
    rw [toNat_and]
    exact Nat.and_le_right
  have heven : ((desc >>> 4) &&& 0x1e#32).toNat % 2 = 0 := by
    have hbit : ((desc >>> 4) &&& 0x1e#32).getLsbD 0 = false := by
      rw [getLsbD_and]
      exact Bool.and_false _
    exact Nat.mod_two_eq_zero_iff_testBit_zero.mpr hbit
  exact ⟨⟨((desc >>> 4) &&& 0x1e#32).toNat / 2, by omega⟩, by simp only; omega⟩

theorem NoDomain.fault (h : NoDomain c) (desc : BitVec 32) :
    domainFault ((c.c3 >>> ((desc >>> 4) &&& 0x1e#32)) &&& 3#32) := by
  obtain ⟨d, hd⟩ := exists_domain desc
  rw [ushiftRight_eq' c.c3, hd]
  exact h d

theorem NoDomain.walkV5 (h : NoDomain c) (ldlPhys : BitVec 32 → BitVec 32) (a : BitVec 32) :
    ∃ e, walkV5 c ldlPhys a = .error e := by
  rw [PageTables.walkV5]
  dsimp only
  rw [if_pos (h.fault _)]
  split_ifs <;> exact ⟨_, rfl⟩

theorem NoDomain.walkV6 (h : NoDomain c) (ldlPhys : BitVec 32 → BitVec 32) (a : BitVec 32) :
    ∃ e, walkV6 c ldlPhys a = .error e := by
  have hshift : ∀ (p : Prop) [Decidable p] (desc : BitVec 32),
      domainFault ((c.c3 >>> (if p then 0#32 else (desc >>> 4) &&& 0x1e#32)) &&& 3#32) := by
    intro p _ desc
    split_ifs
    · exact h 0
    · exact h.fault desc
  rw [PageTables.walkV6]
  dsimp only
  rw [if_pos (hshift _ _)]
  split_ifs <;> exact ⟨_, rfl⟩

section

variable (hon : c.c1Sys.getLsbD 0 = true) (hmpu : c.featureMpu = false)
    (ldlPhys : BitVec 32 → BitVec 32)
  (a : BitVec 32) (t : Access) (isUser : Bool)

include hon hmpu

theorem NoDomain.grants (h : NoDomain c) : Grants c ldlPhys a t isUser := by
  intro r hr
  obtain ⟨e₅, h₅⟩ := h.walkV5 ldlPhys (fcse c a)
  obtain ⟨e₆, h₆⟩ := h.walkV6 ldlPhys (fcse c a)
  rw [getPhysAddr_mmu hon hmpu, getPhysAddrV5, getPhysAddrV6, h₅, h₆] at hr
  split_ifs at hr <;> exact nomatch hr

theorem Aligned.grants (hc : Aligned c) : Grants c ldlPhys a t isUser := by
  intro r hr
  rw [getPhysAddr_mmu hon hmpu] at hr
  have hgrants : Allows r.prot t ∧ ∀ t' b, Allows r.prot t' → SamePage (fcse c a) b →
      ∃ r', (if c.c1Sys.getLsbD 23 then getPhysAddrV6 c ldlPhys b t' isUser
        else getPhysAddrV5 c ldlPhys b t' isUser) = .ok r' ∧
        r'.physAddr = inFrame r.physAddr b := by
    split_ifs at hr ⊢
    · exact grants_of_walk (fun _ _ h => walkV6_samePage c ldlPhys h) permitV6_spec hr
    · exact grants_of_walk (fun _ _ h => walkV5_samePage c ldlPhys h) permitV5_spec hr
  refine ⟨hgrants.1, fun t' b ht' hb => ?_⟩
  obtain ⟨r', hr', hphys⟩ := hgrants.2 t' (fcse c b) ht' (hb.fcse fun _ => hc)
  rw [inFrame_fcse _ fun _ => hc] at hphys
  exact ⟨r', (getPhysAddr_mmu hon hmpu ..).trans hr', hphys⟩

theorem grants_iff_of_mmu :
    (∀ ldlPhys address t isUser, Grants c ldlPhys address t isUser) ↔ Aligned c ∨ NoDomain c := by
  constructor
  · intro h
    by_cases hdomain : NoDomain c
    · exact .inr hdomain
    · obtain ⟨d, hd⟩ := not_forall.mp hdomain
      obtain ⟨r, hr, hphys⟩ := exists_getPhysAddr hon hmpu 0 false hd
      have hmod := (h _ _ _ _).mod_eq hr
      rw [hphys, toNat_physAddr_openSection] at hmod
      exact .inl ((fcse_mod_iff c 0).mp hmod (by decide))
  · rintro (hc | hdomain)
    · exact hc.grants hon hmpu
    · exact hdomain.grants hon hmpu

end

end

/-- **A TLB entry grants what the tables grant**, for any content of memory, address, access and
privilege, exactly if the registers are consistent. -/
theorem grants_iff (c : Cpu) :
    (∀ ldlPhys address t isUser, Grants c ldlPhys address t isUser) ↔ Consistent c := by
  rw [Consistent]
  split_ifs with hoff hmpu
  · exact grants_iff_of_off hoff
  · exact grants_iff_of_mpu (by simpa using hoff) hmpu
  · exact grants_iff_of_mmu (by simpa using hoff) (by simpa using hmpu)

/-- A protection unit with one region of 4 GB that all may read and nobody may write. -/
def readOnlyMpu : Cpu where
  featureMpu := true
  featureXscale := false
  featureV6 := false
  featureV7 := false
  c1Sys := 1
  c2Base0 := 0
  c2Base1 := 0
  c2Control := 0
  c3 := 0
  c5Data := 6
  c5Insn := 6
  c6Region n := if n = 0 then 0x3f else 0
  c13Fcse := 0

/-- A write to memory that is read-only is translated, and the result does not allow it. -/
theorem write_to_read_only_translated : ∃ r,
    getPhysAddr readOnlyMpu (fun _ => 0) 0x1000 .write true = .ok r ∧ ¬Allows r.prot .write := by
  refine ⟨⟨0x1000, PAGE_READ ||| PAGE_EXEC, TARGET_PAGE_SIZE⟩, ?_, by decide⟩
  exact (getPhysAddr_mpu_eq_ok rfl rfl).mpr ⟨PAGE_READ, by decide +kernel, rfl⟩

end PageTables

end VariabilityTestbed.Arm
