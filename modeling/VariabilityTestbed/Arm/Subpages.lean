import VariabilityTestbed.Arm.PageTables

/-!
# The quarters of a page

A page of 64 KB and a page of 4 KB have four quarters with access permissions of their own, in four
fields of the descriptor. `get_phys_addr_v5` picks the field with bits 15:14 of the address for
both. For a page of 64 KB these are the quarter. The quarter of a page of 4 KB is in bits 11:10, and
bits 15:14 have nothing to do with it.

What the tables mean is stated with numbers, so that the shifts and masks of the code have something
to be compared with.
-/

namespace VariabilityTestbed.Arm

open BitVec

namespace PageTables

open AddressMasks

/-! ### What the tables say -/

/-- A field of two bits. -/
def field (x : BitVec 32) (pos : ℕ) : ℕ := x.toNat / 2 ^ pos % 4

/-- A descriptor that maps an address, the size of its page, and where in the descriptor the access
permissions of the part of the page are that the address is in. -/
structure Mapping where
  desc : BitVec 32
  size : ℕ
  pos : ℕ

/-- The access permissions. -/
def Mapping.ap (m : Mapping) : ℕ := field m.desc m.pos

/-- The frame of the page plus the offset. -/
def Mapping.physAddr (m : Mapping) (address : BitVec 32) : ℕ :=
  m.desc.toNat / m.size * m.size + address.toNat % m.size

/-- An entry of a table of `size` bytes. -/
def tableEntry (desc : BitVec 32) (size index : ℕ) : BitVec 32 :=
  BitVec.ofNat 32 (desc.toNat / size * size + 4 * index)

section

variable (c : Cpu) (ldlPhys : BitVec 32 → BitVec 32) (address : BitVec 32) (t : Access)
    (isUser : Bool)

/-- A descriptor of the second level. Pages of 1 KB are in fine tables; in a coarse table XScale has
pages of 4 KB with one field instead. -/
def mappingL2 (coarse : Bool) (desc : BitVec 32) : Option Mapping :=
  if field desc 0 = 0 then none
  else if field desc 0 = 1 then some ⟨desc, 0x10000, 4 + 2 * (address.toNat / 0x4000 % 4)⟩
  else if field desc 0 = 2 then some ⟨desc, 0x1000, 4 + 2 * (address.toNat / 0x400 % 4)⟩
  else if coarse then if c.featureXscale then some ⟨desc, 0x1000, 4⟩ else none
  else some ⟨desc, 0x400, 4⟩

/-- The descriptor of the first level for an address. -/
def firstLevel : BitVec 32 := ldlPhys (getLevel1TableAddress c address)

/-- **What maps an address**, if its descriptors are valid: a section, or a page of a coarse or of a
fine table. -/
def mapping : Option Mapping :=
  let desc := firstLevel c ldlPhys address
  if field desc 0 = 0 then none
  else if field desc 0 = 2 then some ⟨desc, 0x100000, 10⟩
  else
    let table := if field desc 0 = 1 then tableEntry desc 0x400 (address.toNat / 0x1000 % 0x100)
      else tableEntry desc 0x1000 (address.toNat / 0x400 % 0x400)
    mappingL2 c address (field desc 0 == 1) (ldlPhys table)

/-- The rights of the domain of an address: 1 for a client, 3 for a manager. -/
def domainAt : ℕ := field c.c3 (2 * ((firstLevel c ldlPhys address).toNat / 32 % 16))

/-- What a field of access permissions permits. For 0 the bits S and R of the control register
decide. -/
def Permits (ap : ℕ) : Bool :=
  if ap = 0 then t ≠ .write && (field c.c1Sys 8 = 1 && !isUser || field c.c1Sys 8 = 2)
  else if ap = 1 then !isUser
  else ap ≠ 2 || !isUser || t ≠ .write

/-- What a mapping gives for an access, if `ap` picks the permissions. -/
def granted (ap : Mapping → ℕ) (domain : ℕ) (m : Mapping) : Option ℕ :=
  if domain = 3 ∨ domain = 1 ∧ Permits c t isUser (ap m) then some (m.physAddr address) else none

/-- What `get_phys_addr_v5` comes to. -/
def outcome (r : Except (BitVec 32) Translation) : Option ℕ :=
  r.toOption.map fun r => r.physAddr.toNat

/-- **The translation is as the tables say.** -/
def WalkRight : Prop :=
  outcome (getPhysAddrV5 c ldlPhys address t isUser) =
    (mapping c ldlPhys address).bind
      (granted c address t isUser Mapping.ap (domainAt c ldlPhys address))

end

/-! ### Shifts and masks -/

theorem toNat_shiftRight_and_three (x : BitVec 32) (n : ℕ) :
    ((x >>> n) &&& 3#32).toNat = field x n := by
  rw [toNat_shiftRight_and_mask (s := 0) (k := 2) rfl, Nat.pow_zero, Nat.one_mul]
  rfl

theorem shiftRight_and_three_eq_iff (x : BitVec 32) (n : ℕ) (v : BitVec 32) :
    (x >>> n) &&& 3#32 = v ↔ field x n = v.toNat := by
  rw [← toNat_shiftRight_and_three, toNat_inj]

theorem and_three_eq_iff (x v : BitVec 32) : x &&& 3#32 = v ↔ field x 0 = v.toNat := by
  rw [← shiftRight_and_three_eq_iff, ushiftRight_zero]

theorem toNat_physAddr {k : ℕ} (hk : k ≤ 32) {m : BitVec 32}
    (hm : m.toNat = 2 ^ k * (2 ^ (32 - k) - 1)) (hlow : (~~~m).toNat = 2 ^ 0 * (2 ^ k - 1))
    (desc address : BitVec 32) :
    (physAddr desc m address).toNat = desc.toNat / 2 ^ k * 2 ^ k + address.toNat % 2 ^ k := by
  have hoffset : (address &&& ~~~m).toNat = address.toNat % 2 ^ k := by
    rw [toNat_and_mask hlow, Nat.pow_zero, Nat.one_mul, Nat.div_one]
  rw [physAddr, toNat_and_or hk hm, hoffset]
  rw [hoffset]
  exact Nat.mod_lt _ (Nat.two_pow_pos k)

theorem coarse_entry (desc address : BitVec 32) :
    (desc &&& 0xfffffc00#32) ||| ((address >>> 10) &&& 0x3fc#32) =
    tableEntry desc 0x400 (address.toNat / 0x1000 % 0x100) := by
  have hindex := toNat_shiftRight_and_mask (s := 2) (k := 8) (m := 0x3fc#32) rfl address 10
  refine eq_of_toNat_eq ?_
  rw [toNat_and_or (k := 10) (by decide) rfl desc (by omega), hindex, tableEntry, toNat_ofNat]
  omega

theorem fine_entry (desc address : BitVec 32) :
    (desc &&& 0xfffff000#32) ||| ((address >>> 8) &&& 0xffc#32) =
    tableEntry desc 0x1000 (address.toNat / 0x400 % 0x400) := by
  have hindex := toNat_shiftRight_and_mask (s := 2) (k := 10) (m := 0xffc#32) rfl address 8
  refine eq_of_toNat_eq ?_
  rw [toNat_and_or (k := 12) (by decide) rfl desc (by omega), hindex, tableEntry, toNat_ofNat]
  omega

/-- The field that bits 15:14 of the address pick. -/
theorem toNat_quarter (desc address : BitVec 32) :
    ((desc >>> (4#32 + ((address >>> 13) &&& 6#32))) &&& 3#32).toNat =
      field desc (4 + 2 * (address.toNat / 0x4000 % 4)) := by
  have hbits := toNat_shiftRight_and_mask (s := 1) (k := 2) (m := 6#32) rfl address 13
  have hshift :
      (4#32 + ((address >>> 13) &&& 6#32)).toNat = 4 + 2 * (address.toNat / 0x4000 % 4) := by
    rw [toNat_add, hbits, toNat_ofNat]
    omega
  rw [ushiftRight_eq', toNat_shiftRight_and_three, hshift]

theorem toNat_domain (c : Cpu) (desc : BitVec 32) :
    ((c.c3 >>> ((desc >>> 4) &&& 0x1e#32)) &&& 3#32).toNat =
      field c.c3 (2 * (desc.toNat / 32 % 16)) := by
  rw [ushiftRight_eq', toNat_shiftRight_and_three, toNat_shiftRight_and_mask (s := 1) (k := 4) rfl]
  rfl

/-! ### What the code finds -/

/-- A page of 4 KB with four quarters. -/
def Mapping.IsSmall (m : Mapping) : Prop := m.size = 0x1000 ∧ field m.desc 0 = 2

instance (m : Mapping) : Decidable m.IsSmall := inferInstanceAs (Decidable (_ ∧ _))

/-- The access permissions that the code looks at. -/
def Mapping.usedAp (m : Mapping) (address : BitVec 32) : ℕ :=
  field m.desc (if m.IsSmall then 4 + 2 * (address.toNat / 0x4000 % 4) else m.pos)

section

variable {c : Cpu} {ldlPhys : BitVec 32 → BitVec 32} {address : BitVec 32} {t : Access}
    {isUser : Bool}

/-- The permissions decide, unless the domain is that of a manager. -/
theorem checkAp_ne_zero_iff {ap domain : BitVec 32} (hap : ap.toNat < 4) :
    checkAp c ap domain t isUser ≠ 0 ↔ domain.toNat = 3 ∨ Permits c t isUser ap.toNat := by
  have hread : PAGE_READ ≠ 0 := by decide
  have hwrite : PAGE_READ ||| PAGE_WRITE ≠ 0 := by decide
  have hdomain : domain = 3 ↔ domain.toNat = 3 := toNat_inj.symm
  rw [checkAp]
  simp only [hdomain, shiftRight_and_three_eq_iff, reduceToNat]
  obtain rfl | rfl | rfl | rfl : ap = 0 ∨ ap = 1 ∨ ap = 2 ∨ ap = 3 := by bv_omega
  all_goals
    simp only [Permits, reduceToNat, reduceEq, OfNat.ofNat_ne_zero, if_true, if_false]
    grind

theorem outcome_permitV5 {p : Page} {m : Mapping}
    (hdomain : p.domain.toNat = 1 ∨ p.domain.toNat = 3)
    (hphys : p.physAddr.toNat = m.physAddr address) (hap : p.ap.toNat = m.usedAp address) :
    outcome (permitV5 c p t isUser) = granted c address t isUser
      (·.usedAp address) p.domain.toNat m := by
  have hprot : checkAp c p.ap p.domain t isUser ≠ 0 ↔ _ :=
    checkAp_ne_zero_iff (hap ▸ Nat.mod_lt _ (by decide))
  rw [permitV5, granted, ← hap, ← hphys]
  split_ifs with hzero hok hok
  · exact absurd hzero (hprot.mpr (hok.imp_right And.right))
  · rfl
  · rfl
  · exact absurd ((hprot.mp hzero).imp_right fun h => ⟨by omega, h⟩) hok

theorem outcome_walkV5L2 {coarse : Bool} {type : BitVec 32} (htype : coarse = true ↔ type = 1)
    (desc : BitVec 32) {domain : BitVec 32} (hdomain : domain.toNat = 1 ∨ domain.toNat = 3) :
    outcome ((walkV5L2 c type desc domain address).bind fun p => permitV5 c p t isUser) =
      (mappingL2 c address coarse desc).bind
        (granted c address t isUser (·.usedAp address) domain.toNat) := by
  have hquarter := toNat_quarter desc address
  have hap := toNat_shiftRight_and_three desc 4
  have h16 := toNat_physAddr (k := 16) (by decide) (m := 0xffff0000) rfl rfl desc address
  have h12 := toNat_physAddr (k := 12) (by decide) (m := 0xfffff000) rfl rfl desc address
  have h10 := toNat_physAddr (k := 10) (by decide) (m := 0xfffffc00) rfl rfl desc address
  rw [walkV5L2, mappingL2]
  simp only [and_three_eq_iff, reduceToNat, htype]
  split_ifs with h0 h1 h2 hcoarse hxscale
  · rfl
  · exact outcome_permitV5 hdomain h16 hquarter
  · exact outcome_permitV5 hdomain h12
      (hquarter.trans (congrArg (field desc) (if_pos ⟨rfl, h2⟩).symm))
  · exact outcome_permitV5 hdomain h12
      (hap.trans (congrArg (field desc) (if_neg fun h => h2 h.2).symm))
  · rfl
  · exact outcome_permitV5 hdomain h10 hap

/-- **What the code does**: it looks at the wrong permissions of a page of 4 KB, and everything else
is right. -/
theorem outcome_getPhysAddrV5 : outcome (getPhysAddrV5 c ldlPhys address t isUser) =
    (mapping c ldlPhys address).bind
      (granted c address t isUser (·.usedAp address) (domainAt c ldlPhys address)) := by
  have hfirst : ldlPhys (getLevel1TableAddress c address) = firstLevel c ldlPhys address := rfl
  simp only [getPhysAddrV5, walkV5, mapping, domainAt, hfirst, and_three_eq_iff,
    reduceToNat, coarse_entry, fine_entry, ← toNat_domain]
  generalize firstLevel c ldlPhys address = desc
  have hlt : ((c.c3 >>> ((desc >>> 4) &&& 0x1e#32)) &&& 3#32).toNat < 4 := by
    rw [toNat_domain]
    exact Nat.mod_lt _ (by decide)
  generalize (c.c3 >>> ((desc >>> 4) &&& 0x1e#32)) &&& 3#32 = domain at hlt ⊢
  have hfault : domainFault domain ↔ ¬(domain.toNat = 1 ∨ domain.toNat = 3) := by
    rw [domainFault, ← toNat_inj, ← toNat_inj]
    simp only [reduceToNat]
    omega
  by_cases h0 : field desc 0 = 0
  · simp only [if_pos h0]
    rfl
  by_cases hdom : domainFault domain
  · simp only [if_neg h0, if_pos hdom]
    refine (Option.bind_eq_none_iff.mpr fun m _ => if_neg fun h => hfault.mp hdom ?_).symm
    exact h.symm.imp And.left id
  · have hrights := not_not.mp (mt hfault.mpr hdom)
    simp only [if_neg h0, if_neg hdom]
    generalize ldlPhys (if field desc 0 = 1 then _ else _) = desc'
    split_ifs with h2
    · exact outcome_permitV5 hrights (toNat_physAddr (k := 20) (by decide) rfl rfl desc address)
        (toNat_shiftRight_and_three desc 10)
    · refine outcome_walkV5L2 ?_ desc' hrights
      rw [and_three_eq_iff, beq_iff_eq]
      rfl

/-- **The permissions of the right quarter** decide exactly if, for a page of 4 KB in the domain of
a client, those of the quarter that bits 15:14 of the address pick come to the same. -/
theorem walk_right_iff : WalkRight c ldlPhys address t isUser ↔
    ∀ m, mapping c ldlPhys address = some m → m.IsSmall → domainAt c ldlPhys address = 1 →
      Permits c t isUser (field m.desc (4 + 2 * (address.toNat / 0x4000 % 4))) =
        Permits c t isUser m.ap := by
  rw [WalkRight, outcome_getPhysAddrV5]
  cases mapping c ldlPhys address with
  | none => simp
  | some m =>
    simp only [Option.bind_some, Option.some.injEq, forall_eq', granted]
    by_cases hsmall : m.IsSmall
    · have hused : m.usedAp address = field m.desc _ := congrArg (field m.desc) (if_pos hsmall)
      by_cases hclient : domainAt c ldlPhys address = 1
      · simp only [hused, hsmall, hclient, true_and, forall_const, OfNat.one_ne_ofNat, false_or]
        generalize Permits c t isUser _ = p
        generalize Permits c t isUser m.ap = q
        cases p <;> cases q <;> simp
      · simp [hclient]
    · have hused : m.usedAp address = m.ap := congrArg (field m.desc) (if_neg hsmall)
      simp [hused, hsmall]

end

/-- A processor with an MMU and domain 0 for clients. -/
def clientCpu : Cpu := { readOnlyMpu with featureMpu := false, c3 := 1 }

/-- A coarse table, and pages of 4 KB whose first quarter all may access and whose other quarters
nobody may. -/
def firstQuarter (table : BitVec 32) : BitVec 32 := if table = 0 then 0x401 else 0x32

/-- The second quarter of a page of 4 KB is read with the permissions of the first. -/
theorem walk_not_right : ¬ WalkRight clientCpu firstQuarter 0x400 .read true := by
  have hdone : outcome (getPhysAddrV5 clientCpu firstQuarter 0x400 .read true) = some 0x400 := by
      decide +kernel
  intro h
  exact absurd (hdone.symm.trans h) (by decide +kernel)

end PageTables

end VariabilityTestbed.Arm
