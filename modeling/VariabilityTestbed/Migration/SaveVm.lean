import VariabilityTestbed.Lib.Entries
import VariabilityTestbed.Migration.RamLoad

/-!
# Sections of a saved machine

Devices register an entry in a list, `savevm_handlers`. To save a machine, each entry writes
sections: live entries write one of type `START`, any number of type `PART` and one of type `END`,
the others one of type `FULL`. A section of type `START` or `FULL` names its entry by a string and
an instance number; the others refer to it by the number of the section. To load a machine,
`find_se` looks for the first entry that matches the name.

An entry is matched by its own name and instance, but also by its alias, and by the name and
instance that it had before names contained the path of the device. Nothing prefers the entry that
has the name for its own: an earlier entry that matches through an alias or an old name gets the
section of another. In particular `register_savevm_live` leaves the alias at 0, so an entry with any
instance matches instance 0.
-/

namespace VariabilityTestbed.Migration

open Runs BigEndian List Option

/-! ### Registration -/

/-- A C string in memory ends at the first `NUL`. -/
def cStr (l : List UInt8) : List UInt8 := l.takeWhile (· ≠ 0)

/-- `pstrcat` to an array of 256 characters. -/
def pstrcat (buf str : List UInt8) : List UInt8 := (buf ++ cStr str).take 255

/-- The bytes of `"/"`. -/
def slash : List UInt8 := [47]

/-- A `SaveStateEntry`. Of the handlers it is only kept whether there are any that save: live ones,
or either `save_state` or a description. -/
structure Entry where
  idstr : List UInt8
  instanceId : Int32
  aliasId : Int32
  versionId : Int32
  sectionId : ℕ
  live : Bool
  full : Bool
  vmsd : Option ℕ
  device : ℕ
  compat : Option (List UInt8 × Int32)
  deriving DecidableEq

/-- `savevm_handlers` and `global_section_id`. -/
structure Registry where
  entries : List Entry
  globalSectionId : ℕ

/-- `INT_MAX`. -/
def intMax : Int32 := 0x7fffffff

/-- A round of the loops that look for a free instance number. -/
def bumpId (found : Bool) (id entry : Int32) : Option Int32 :=
  if found && decide (id ≤ entry) then if entry = intMax then none
  else some (entry + 1) else some id

/-- `calculate_new_instance_id`. -/
def calculateNewInstanceId (entries : List Entry) (idstr : List UInt8) : Option Int32 :=
  entries.foldlM (fun id e => bumpId (e.idstr = idstr) id e.instanceId) 0

/-- `calculate_compat_instance_id`. -/
def calculateCompatInstanceId (entries : List Entry) (idstr : List UInt8) : Option Int32 :=
  entries.foldlM (fun id e =>
    match e.compat with
    | none => some id
    | some c => bumpId (c.1 = idstr) id c.2) 0

/-- What is registered. The path is that of the device, if it has one. -/
structure Registration where
  path : Option (List UInt8)
  idstr : List UInt8
  instanceId : Int32
  aliasId : Int32
  versionId : Int32
  live : Bool
  full : Bool
  vmsd : Option ℕ
  device : ℕ

/-- The name of an entry. -/
def entryName (path : Option (List UInt8)) (idstr : List UInt8) : List UInt8 :=
  match path with
  | none => pstrcat [] idstr
  | some id => pstrcat (pstrcat (pstrcat [] id) slash) idstr

/-- The name that the entry had before there were paths. -/
def compatOf (entries : List Entry) (r : Registration) : Option (Option (List UInt8 × Int32)) :=
  match r.path with
  | none => some none
  | some _ => do
    let id ← if r.instanceId = -1 then calculateCompatInstanceId entries (cStr r.idstr)
      else some r.instanceId
    some (some (pstrcat [] r.idstr, id))

/-- The instance number, which is calculated if there is a path or none is given. -/
def instanceIdOf (entries : List Entry) (r : Registration) : Option Int32 :=
  if r.path.isSome || r.instanceId = -1 then
    calculateNewInstanceId entries (entryName r.path r.idstr)
  else some r.instanceId

/-- What `register_savevm_live` and `vmstate_register_with_alias_id` have in common. The numbers
must not overflow, and an assertion fails if a device with a path gets an instance number other than
0. -/
def register (g : Registry) (r : Registration) : Option Registry := do
  let compat ← compatOf g.entries r
  let instanceId ← instanceIdOf g.entries r
  if compat.isSome && instanceId ≠ 0 || decide (2 ^ 31 - 1 ≤ g.globalSectionId) then none
  else
    some {
      entries := g.entries ++ [{
        idstr := entryName r.path r.idstr, instanceId := instanceId, aliasId := r.aliasId,
        versionId := r.versionId, sectionId := g.globalSectionId, live := r.live, full := r.full,
        vmsd := r.vmsd, device := r.device, compat := compat }]
      globalSectionId := g.globalSectionId + 1 }

/-- Calls that change the list. -/
inductive RegOp where
  | live (path : Option (List UInt8)) (idstr : List UInt8) (instanceId versionId : Int32)
      (saveLive save : Bool) (device : ℕ)
  | vmstate (path : Option (List UInt8)) (instanceId : Int32) (vmsd : ℕ) (name : List UInt8)
      (versionId minimumVersionId : Int32) (device : ℕ) (aliasId requiredForVersion : Int32)
  | unregister (path : Option (List UInt8)) (idstr : List UInt8) (device : ℕ)
  | vmstateUnregister (vmsd device : ℕ)

/-- One call. -/
def regStep (g : Registry) : RegOp → Option Registry
  | .live path idstr instanceId versionId saveLive save device =>
    register g ⟨path, idstr, instanceId, 0, versionId, saveLive, save, none, device⟩
  | .vmstate path instanceId vmsd name versionId minimumVersionId device aliasId required =>
    if aliasId = -1 ∨ minimumVersionId ≤ required then
      register g ⟨path, name, instanceId, aliasId, versionId, false, true, some vmsd, device⟩
    else none
  | .unregister path idstr device =>
    some { g with
      entries := g.entries.filter fun e => !(e.idstr = entryName path idstr && e.device = device) }
  | .vmstateUnregister vmsd device =>
    some { g with entries := g.entries.filter fun e => !(e.vmsd = some vmsd && e.device = device) }

/-- Before anything is registered. -/
def emptyRegistry : Registry := ⟨[], 0⟩

/-! ### Saving -/

/-- The types of sections. -/
inductive SectionType where
  | start
  | part
  | finish
  | full
  deriving DecidableEq

/-- `QEMU_VM_SECTION_START` and so on. -/
def SectionType.code : SectionType → UInt8
  | start => 1
  | part => 2
  | finish => 3
  | full => 4

/-- The section has the name of the entry. -/
def SectionType.isHead : SectionType → Bool
  | start => true
  | part => false
  | finish => false
  | full => true

/-- A section: the entry that wrote it, and what the handler wrote. -/
structure Section where
  type : SectionType
  entry : Entry
  body : List UInt8

/-- `qemu_put_be32` of an `int`. -/
def putInt (i : Int32) : List UInt8 := beBytes 4 i.toUInt32.toNat

/-- What is written before the handler is called. -/
def Section.head (x : Section) : List UInt8 :=
  x.type.code :: beBytes 4 x.entry.sectionId ++
    if x.type.isHead then
      UInt8.ofNat x.entry.idstr.length :: x.entry.idstr ++ putInt x.entry.instanceId ++
        putInt x.entry.versionId
    else []

/-- The bytes of a section. -/
def Section.bytes (x : Section) : List UInt8 := x.head ++ x.body

/-- What the handlers that save do: for each call the bytes and what it returns. -/
abbrev Answers := ℕ → List UInt8 × ℤ

/-- A section for each entry. -/
def writeAll (answer : Answers) (type : SectionType) : ℕ → List Entry → List Section
  | _, [] => []
  | k, e :: l => ⟨type, e, (answer k).1⟩ :: writeAll answer type (k + 1) l

/-- A section for each entry until a handler returns 0. -/
def writeParts (answer : Answers) : ℕ → List Entry → List Section
  | _, [] => []
  | k, e :: l =>
    ⟨.part, e, (answer k).1⟩ :: if (answer k).2 = 0 then [] else writeParts answer (k + 1) l

/-- `qemu_savevm_state_begin`. -/
def savevmStateBegin (answer : Answers) (entries : List Entry) : List Section :=
  writeAll answer .start 0 (entries.filter fun e => e.live)

/-- `qemu_savevm_state_iterate`, behind the sections that were written before. -/
def savevmStateIterate (answer : Answers) (entries : List Entry) (before : List Section) :
    List Section :=
  before ++ writeParts answer before.length (entries.filter fun e => e.live)

/-- `qemu_savevm_state_complete`, behind the sections that were written before. -/
def savevmStateComplete (answer : Answers) (entries : List Entry) (before : List Section) :
    List Section :=
  let l := before ++ writeAll answer .finish before.length (entries.filter fun e => e.live)
  l ++ writeAll answer .full l.length (entries.filter fun e => e.full)

/-- All sections, with `n` calls of `qemu_savevm_state_iterate`. -/
def savevm (answer : Answers) (n : ℕ) (entries : List Entry) : List Section :=
  savevmStateComplete answer entries
    ((savevmStateIterate answer entries)^[n] (savevmStateBegin answer entries))

/-- `QEMU_VM_FILE_MAGIC`. -/
def vmFileMagic : ℕ := 0x5145564d

/-- `QEMU_VM_FILE_VERSION_COMPAT`. -/
def vmFileVersionCompat : ℕ := 2

/-- `QEMU_VM_FILE_VERSION`. -/
def vmFileVersion : ℕ := 3

/-- The stream. -/
def vmBytes (l : List Section) : List UInt8 :=
  beBytes 4 vmFileMagic ++ beBytes 4 vmFileVersion ++ l.flatMap Section.bytes ++ [0]

/-! ### Loading -/

/-- `strstr`. -/
def strstr (haystack needle : List UInt8) : Bool := haystack.tails.any fun l => needle.isPrefixOf l

/-- The condition in `find_se`. -/
def Entry.isMatch (e : Entry) (idstr : List UInt8) (instanceId : Int32) : Bool :=
  (e.idstr = idstr && (instanceId = e.instanceId || instanceId = e.aliasId)) ||
    (strstr e.idstr idstr &&
      match e.compat with
      | none => false
      | some c => c.1 = idstr && (instanceId = c.2 || instanceId = e.aliasId))

/-- `find_se`. -/
def findSe (entries : List Entry) (idstr : List UInt8) (instanceId : Int32) : Option Entry :=
  entries.find? fun e => e.isMatch idstr instanceId

/-- A `LoadStateEntry`. -/
structure LoadEntry where
  se : Entry
  sectionId : ℕ
  versionId : ℕ

/-- The state of `qemu_loadvm_state`, with the calls of load handlers and the version that they
got. -/
structure VmLoader where
  file : Stream
  handlers : List LoadEntry
  calls : List (Entry × ℕ)

/-- What the handlers that load do at each call: they read from the stream and return a number. -/
abbrev Handlers := ℕ → Entry → ℕ → Stream → ℤ × Stream

/-- `ENOTSUP`. -/
def enotsup : ℤ := 95

/-- `vmstate_load`. -/
def vmstateLoad (handler : Handlers) (s : VmLoader) (le : LoadEntry) : ℤ × VmLoader :=
  let r := handler s.calls.length le.se le.versionId s.file
  (r.1, { s with file := r.2, calls := s.calls ++ [(le.se, le.versionId)] })

/-- A section with a name. -/
def loadHead (handler : Handlers) (junk : ℕ → UInt8) (entries : List Entry) (s : VmLoader) :
    ℤ × VmLoader :=
  let sectionId := s.file.getBe 4
  let idstr := getName junk sectionId.2
  let instanceId := idstr.2.getBe 4
  let versionId := instanceId.2.getBe 4
  let s := { s with file := versionId.2 }
  match findSe entries idstr.1 (UInt32.ofNat instanceId.1).toInt32 with
  | none => (-einval, s)
  | some se =>
    if se.versionId.toUInt32.toNat < versionId.1 then (-einval, s)
    else
      let le := ⟨se, sectionId.1, versionId.1⟩
      vmstateLoad handler { s with handlers := le :: s.handlers } le

/-- A section that refers to one before. -/
def loadPart (handler : Handlers) (s : VmLoader) : ℤ × VmLoader :=
  let sectionId := s.file.getBe 4
  let s := { s with file := sectionId.2 }
  match s.handlers.find? fun le => le.sectionId = sectionId.1 with
  | none => (-einval, s)
  | some le => vmstateLoad handler s le

/-- A section, behind its type. -/
def loadSection (handler : Handlers) (junk : ℕ → UInt8) (entries : List Entry) (type : UInt8)
    (s : VmLoader) : ℤ × VmLoader :=
  if type = 1 ∨ type = 4 then loadHead handler junk entries s
  else if type = 2 ∨ type = 3 then loadPart handler s
  else (-einval, s)

/-- The loop over the sections. -/
def loadvmLoop (handler : Handlers) (junk : ℕ → UInt8) (entries : List Entry) :
    ℕ → VmLoader → Option (ℤ × VmLoader)
  | 0, _ => none
  | fuel + 1, s =>
    let type := s.file.getByte
    let s := { s with file := type.2 }
    if type.1 = 0 then some (0, s)
    else
      let r := loadSection handler junk entries type.1 s
      if r.1 < 0 then some r else loadvmLoop handler junk entries fuel r.2

/-- `qemu_loadvm_state`. -/
def qemuLoadvmState (handler : Handlers) (junk : ℕ → UInt8) (fuel : ℕ) (entries : List Entry)
    (file : Stream) : Option (ℤ × VmLoader) :=
  let magic := file.getBe 4
  let version := magic.2.getBe 4
  if magic.1 ≠ vmFileMagic then some (-einval, ⟨magic.2, [], []⟩)
  else if version.1 = vmFileVersionCompat then some (-enotsup, ⟨version.2, [], []⟩)
  else if version.1 ≠ vmFileVersion then some (-enotsup, ⟨version.2, [], []⟩)
  else
    (loadvmLoop handler junk entries fuel ⟨version.2, [], []⟩).map fun r =>
      (if r.2.file.hasError then -eio else r.1, r.2)

/-! ### The registry -/

/-- What is true of every registry: the numbers of the sections go up along the list and fit into a
word, and names fit into a section. -/
structure Registry.Ok (g : Registry) : Prop where
  sections : g.entries.Pairwise fun e e' => e.sectionId < e'.sectionId
  below : ∀ e ∈ g.entries, e.sectionId < g.globalSectionId
  limit : g.globalSectionId < 2 ^ 31
  text : ∀ e ∈ g.entries, e.idstr.length < 256 ∧ 0 ∉ e.idstr

theorem zero_notMem_cStr (l : List UInt8) : 0 ∉ cStr l := by
  intro h
  simpa using mem_takeWhile_imp h

theorem pstrcat_text {buf : List UInt8} (h : 0 ∉ buf) (str : List UInt8) :
    (pstrcat buf str).length < 256 ∧ 0 ∉ pstrcat buf str := by
  constructor
  · rw [pstrcat, length_take]
    omega
  · intro hmem
    rcases mem_append.mp (mem_of_mem_take hmem) with hbuf | hstr
    · exact h hbuf
    · exact zero_notMem_cStr str hstr

theorem entryName_text (path : Option (List UInt8)) (idstr : List UInt8) :
    (entryName path idstr).length < 256 ∧ 0 ∉ entryName path idstr := by
  have hnil : (0 : UInt8) ∉ ([] : List UInt8) := not_mem_nil
  cases path with
  | none => exact pstrcat_text hnil idstr
  | some id => exact pstrcat_text (pstrcat_text (pstrcat_text hnil id).2 slash).2 idstr

theorem register_ok {g g' : Registry} {r : Registration} (hg : g.Ok) (h : register g r = some g') :
    g'.Ok := by
  simp only [register, bind_eq_bind, bind_eq_some_iff] at h
  obtain ⟨compat, -, instanceId, -, h⟩ := h
  split_ifs at h with hlimit
  cases h
  simp only [Bool.or_eq_true, decide_eq_true_eq, not_or, Nat.not_le] at hlimit
  refine ⟨?_, fun e he => ?_, Nat.add_lt_of_lt_sub hlimit.2, fun e he => ?_⟩
  · refine pairwise_append.mpr ⟨hg.sections, pairwise_singleton _ _, fun e he e' he' => ?_⟩
    obtain rfl := mem_singleton.mp he'
    exact hg.below e he
  · rcases mem_append.mp he with he | he
    · exact Nat.lt_succ_of_lt (hg.below e he)
    · obtain rfl := mem_singleton.mp he
      exact Nat.lt_succ_self _
  · rcases mem_append.mp he with he | he
    · exact hg.text e he
    · obtain rfl := mem_singleton.mp he
      exact entryName_text r.path r.idstr

theorem Registry.Ok.filter {g : Registry} (hg : g.Ok) (p : Entry → Bool) :
    Registry.Ok { g with entries := g.entries.filter p } where
  sections := hg.sections.filter p
  below e he := hg.below e (mem_filter.mp he).1
  limit := hg.limit
  text e he := hg.text e (mem_filter.mp he).1

theorem regStep_ok (g : Registry) (op : RegOp) (g' : Registry) (hg : g.Ok)
    (h : regStep g op = some g') :
    g'.Ok := by
  cases op with
  | live => exact register_ok hg h
  | vmstate =>
    rw [regStep] at h
    split_ifs at h
    exact register_ok hg h
  | unregister | vmstateUnregister =>
    cases h
    exact hg.filter _

/-- **Every history leaves a good registry.** -/
theorem registry_ok {ops : List RegOp} {g : Registry} (h : run regStep emptyRegistry ops = some g) :
    g.Ok := by
  refine run_invariant (P := Registry.Ok) regStep_ok ⟨.nil, ?_, by decide, ?_⟩ h
  · exact nofun
  · exact nofun

theorem Registry.Ok.nodup {g : Registry} (hg : g.Ok) : g.entries.Nodup :=
  hg.sections.imp fun h heq => absurd (congrArg Entry.sectionId heq) (Nat.ne_of_lt h)

theorem Registry.Ok.eq_of_sectionId {g : Registry} (hg : g.Ok) {e e' : Entry} (he : e ∈ g.entries)
    (he' : e' ∈ g.entries) (h : e.sectionId = e'.sectionId) : e = e' := by
  have hnodup : (g.entries.map Entry.sectionId).Nodup :=
    List.Pairwise.map _ (fun _ _ => Nat.ne_of_lt) hg.sections
  exact inj_on_of_nodup_map hnodup he he' h

theorem Registry.Ok.sectionId_lt {g : Registry} (hg : g.Ok) {e : Entry} (he : e ∈ g.entries) :
    e.sectionId < 256 ^ 4 := by
  have hbelow := hg.below e he
  have hlimit := hg.limit
  omega

/-! ### Reading a section -/

/-- The version of an entry as a word. -/
def Entry.version (e : Entry) : ℕ := e.versionId.toUInt32.toNat

/-- The call of the handler of the entry that wrote a section. -/
def Section.call (x : Section) : Entry × ℕ := (x.entry, x.entry.version)

/-- The section is loaded by the entry that wrote it. -/
def Found (entries : List Entry) (x : Section) : Prop :=
  x.type.isHead = true → findSe entries x.entry.idstr x.entry.instanceId = some x.entry

/-- The handler consumes what was written and returns 0. -/
def Consumes (handler : Handlers) (k : ℕ) (x : Section) : Prop :=
  ∀ rest, handler k x.entry x.entry.version ⟨x.body ++ rest, false⟩ = (0, ⟨rest, false⟩)

/-- The handlers that are known are those of entries, and all of `seen` are known. -/
structure Known (g : Registry) (seen : List Entry) (s : VmLoader) : Prop where
  handlers : ∀ le ∈ s.handlers, le.se ∈ g.entries ∧ le.sectionId = le.se.sectionId ∧
    le.versionId = le.se.version
  seen : ∀ e ∈ seen, ∃ le ∈ s.handlers, le.se = e

section

variable {handler : Handlers} {junk : ℕ → UInt8} {g : Registry} {seen : List Entry} {s t : VmLoader}
  {x : Section} {rest : List UInt8} {fuel : ℕ} {ret : ℤ}

theorem getBe_putInt (i : Int32) : Stream.getBe ⟨putInt i ++ rest, false⟩ 4 =
    (i.toUInt32.toNat, ⟨rest, false⟩) :=
  Stream.getBe_beBytes 4 _ i.toUInt32.toNat_lt false

/-- The head of a section is read back. -/
theorem loadHead_eq (hg : g.Ok) (hx : x.entry ∈ g.entries) (hhead : x.type.isHead = true)
    (hfile : s.file = ⟨x.bytes.tail ++ rest, false⟩) :
    loadHead handler junk g.entries s =
      match findSe g.entries x.entry.idstr x.entry.instanceId with
      | none => (-einval, { s with file := ⟨x.body ++ rest, false⟩ })
      | some se =>
        if se.version < x.entry.version then (-einval, { s with file := ⟨x.body ++ rest, false⟩ })
        else vmstateLoad handler { s with
          file := ⟨x.body ++ rest, false⟩
          handlers := ⟨se, x.entry.sectionId, x.entry.version⟩ :: s.handlers }
          ⟨se, x.entry.sectionId, x.entry.version⟩ := by
  have hbytes : x.bytes.tail ++ rest = beBytes 4 x.entry.sectionId ++
      (UInt8.ofNat x.entry.idstr.length :: x.entry.idstr ++
        (putInt x.entry.instanceId ++ (putInt x.entry.versionId ++ (x.body ++ rest)))) := by
    simp [Section.bytes, Section.head, hhead]
  obtain ⟨hlen, hname⟩ := hg.text _ hx
  have hint : (UInt32.ofNat x.entry.instanceId.toUInt32.toNat).toInt32 = x.entry.instanceId := by
    rw [UInt32.ofNat_toNat]
    rfl
  simp only [loadHead, hfile, hbytes, Stream.getBe_beBytes 4 _ (hg.sectionId_lt hx),
    getName_append hlen hname, getBe_putInt, hint]
  rfl

theorem loadPart_eq (hg : g.Ok) (hx : x.entry ∈ g.entries) (hhead : x.type.isHead = false)
    (hk : Known g seen s) (hseen : x.entry ∈ seen)
    (hfile : s.file = ⟨x.bytes.tail ++ rest, false⟩) :
    loadPart handler s = vmstateLoad handler { s with file := ⟨x.body ++ rest, false⟩ }
      ⟨x.entry, x.entry.sectionId, x.entry.version⟩ := by
  have hbytes : x.bytes.tail ++ rest = beBytes 4 x.entry.sectionId ++ (x.body ++ rest) := by
    simp [Section.bytes, Section.head, hhead]
  obtain ⟨le, hle⟩ :
    ∃ le, s.handlers.find? (fun le => le.sectionId = x.entry.sectionId) = some le := by
    rw [← isSome_iff_exists, find?_isSome]
    obtain ⟨le, hmem, heq⟩ := hk.seen _ hseen
    exact ⟨le, hmem, by simp [(hk.handlers le hmem).2.1, heq]⟩
  obtain ⟨hse, hid, hversion⟩ := hk.handlers le (mem_of_find?_eq_some hle)
  have hsame : le.se = x.entry := by
    refine hg.eq_of_sectionId hse hx ?_
    rw [← hid]
    simpa using find?_some hle
  have heq : le = ⟨x.entry, x.entry.sectionId, x.entry.version⟩ := by
    obtain ⟨se, sectionId, versionId⟩ := le
    simp only at hse hid hversion hsame
    subst hsame
    rw [hid, hversion]
  simp only [loadPart, hfile, hbytes, Stream.getBe_beBytes 4 _ (hg.sectionId_lt hx), hle, heq]

theorem vmstateLoad_eq {calls : List (Entry × ℕ)} (hc : Consumes handler calls.length x)
    (handlers : List LoadEntry) (n : ℕ) :
    vmstateLoad handler ⟨⟨x.body ++ rest, false⟩, handlers, calls⟩ ⟨x.entry, n, x.entry.version⟩ =
      (0, ⟨⟨rest, false⟩, handlers, calls ++ [x.call]⟩) := by
  simp only [vmstateLoad, hc rest]
  rfl

/-- One round of the loop. -/
theorem loadvmLoop_section (hfile : s.file = ⟨x.bytes ++ rest, false⟩) :
    loadvmLoop handler junk g.entries (fuel + 1) s =
      let r := if x.type.isHead then
          loadHead handler junk g.entries { s with file := ⟨x.bytes.tail ++ rest, false⟩ }
        else loadPart handler { s with file := ⟨x.bytes.tail ++ rest, false⟩ }
      if r.1 < 0 then some r else loadvmLoop handler junk g.entries fuel r.2 := by
  have hget : Stream.getByte ⟨x.bytes ++ rest, false⟩ =
      (x.type.code, ⟨x.bytes.tail ++ rest, false⟩) := by
    simp [Section.bytes, Section.head, Stream.getByte]
  have hcode : x.type.code ≠ 0 := by
    cases x.type <;> decide
  have hsection : ∀ s, loadSection handler junk g.entries x.type.code s =
      if x.type.isHead then loadHead handler junk g.entries s else loadPart handler s := by
    intro s
    cases x.type <;> rfl
  rw [loadvmLoop, hfile, hget]
  simp only [if_neg hcode, hsection]

/-- Sections only refer to entries of sections before them. -/
def Opened : List Entry → List Section → Prop
  | _, [] => True
  | seen, x :: l => (x.type.isHead = false → x.entry ∈ seen) ∧ Opened (x.entry :: seen) l

/-- The loader is before the sections `l`, which the handlers will consume. -/
structure Ahead (handler : Handlers) (g : Registry) (rest : List UInt8) (seen : List Entry)
    (s : VmLoader) (l : List Section) : Prop where
  mem : ∀ x ∈ l, x.entry ∈ g.entries
  opened : Opened seen l
  known : Known g seen s
  consumes : ∀ k x, l[k]? = some x → Consumes handler (s.calls.length + k) x
  file : s.file = ⟨l.flatMap Section.bytes ++ 0 :: rest, false⟩

/-- **A section that is loaded by its writer.** -/
theorem Ahead.found {l : List Section} (h : Ahead handler g rest seen s (x :: l))
    (junk : ℕ → UInt8) (hg : g.Ok) (hfound : Found g.entries x) :
    ∃ t, Ahead handler g rest (x.entry :: seen) t l ∧ t.calls = s.calls ++ [x.call] ∧
      ∀ fuel, loadvmLoop handler junk g.entries (fuel + 1) s =
        loadvmLoop handler junk g.entries fuel t := by
  obtain ⟨hmem, ⟨hseen, hopen⟩, hk, hc, hfile⟩ := h
  have hx := hmem x (.head _)
  rw [flatMap_cons, append_assoc] at hfile
  have hc' : ∀ k y, l[k]? = some y → Consumes handler ((s.calls ++ [x.call]).length + k) y := by
    intro k y hy
    rw [length_append, length_singleton, Nat.add_assoc, Nat.add_comm 1 k]
    exact hc (k + 1) y hy
  suffices h : ∃ handlers, (∀ file calls, Known g (x.entry :: seen) ⟨file, handlers, calls⟩) ∧
      ∀ fuel, loadvmLoop handler junk g.entries (fuel + 1) s =
      loadvmLoop handler junk g.entries fuel
        ⟨⟨l.flatMap Section.bytes ++ 0 :: rest, false⟩, handlers, s.calls ++ [x.call]⟩ by
    obtain ⟨handlers, hknown, hloop⟩ := h
    exact ⟨_, ⟨fun y hy => hmem y (.tail _ hy), hopen, hknown _ _, hc', rfl⟩, rfl, hloop⟩
  cases hhead : x.type.isHead with
  | true =>
    refine ⟨⟨x.entry, x.entry.sectionId, x.entry.version⟩ :: s.handlers, fun file calls => ⟨?_, ?_⟩,
      fun fuel => ?_⟩
    · intro le hle
      rcases mem_cons.mp hle with rfl | hle
      · exact ⟨hx, rfl, rfl⟩
      · exact hk.handlers le hle
    · intro e he
      rcases mem_cons.mp he with rfl | he
      · exact ⟨_, .head _, rfl⟩
      · obtain ⟨le, hle, heq⟩ := hk.seen e he
        exact ⟨le, .tail _ hle, heq⟩
    · rw [loadvmLoop_section hfile, hhead, if_pos rfl, loadHead_eq hg hx hhead rfl, hfound hhead]
      simp only [Nat.lt_irrefl, if_false]
      rw [vmstateLoad_eq (hc 0 x rfl)]
      rfl
  | false =>
    refine ⟨s.handlers, fun file calls => ⟨hk.handlers, fun e he => ?_⟩, fun fuel => ?_⟩
    · rcases mem_cons.mp he with rfl | he
      · exact hk.seen _ (hseen hhead)
      · exact hk.seen e he
    · rw [loadvmLoop_section hfile, hhead, if_neg Bool.false_ne_true,
        loadPart_eq (s := { s with file := ⟨_, false⟩ }) hg hx hhead ⟨hk.handlers, hk.seen⟩
        (hseen hhead) rfl,
        vmstateLoad_eq (hc 0 x rfl)]
      rfl

/-- **All sections are loaded by their writers.** -/
theorem Ahead.loadvmLoop_all {l : List Section} (h : Ahead handler g rest seen s l)
    (junk : ℕ → UInt8) (hg : g.Ok) (hfound : ∀ x ∈ l, Found g.entries x) (hfuel : l.length < fuel) :
    ∃ t, loadvmLoop handler junk g.entries fuel s = some (0, t) ∧ t.file = ⟨rest, false⟩ ∧
      t.calls = s.calls ++ l.map Section.call := by
  obtain ⟨fuel, rfl⟩ := Nat.exists_eq_succ_of_ne_zero (Nat.ne_zero_of_lt hfuel)
  induction l generalizing seen s fuel with
  | nil =>
    refine ⟨{ s with file := ⟨rest, false⟩ }, ?_, rfl, (append_nil _).symm⟩
    rw [loadvmLoop, h.file]
    rfl
  | cons x l ih =>
    obtain ⟨t, ht, htcalls, hloop⟩ := h.found junk hg (hfound x (.head _))
    rw [hloop]
    obtain ⟨fuel, rfl⟩ := Nat.exists_eq_succ_of_ne_zero (show fuel ≠ 0 by
      rw [length_cons] at hfuel
      omega)
    obtain ⟨u, hu, hufile, hucalls⟩ :=
      ih ht (fun y hy => hfound y (.tail _ hy)) fuel (Nat.lt_of_succ_lt_succ hfuel)
    refine ⟨u, hu, hufile, ?_⟩
    rw [hucalls, htcalls, append_assoc]
    rfl

/-! ### Sections that are loaded by another entry -/

theorem loadSection_calls (entries : List Entry) (type : UInt8) (s : VmLoader) :
    s.calls <+: (loadSection handler junk entries type s).2.calls := by
  rw [loadSection]
  split_ifs
  · simp only [loadHead]
    split
    · exact prefix_rfl
    · split_ifs
      · exact prefix_rfl
      · exact prefix_append _ _
  · simp only [loadPart]
    split
    · exact prefix_rfl
    · exact prefix_append _ _
  · exact prefix_rfl

/-- Calls are only added. -/
theorem loadvmLoop_calls {entries : List Entry}
    (h : loadvmLoop handler junk entries fuel s = some (ret, t)) :
    s.calls <+: t.calls := by
  induction fuel generalizing s with
  | zero => exact absurd h (by simp [loadvmLoop])
  | succ fuel ih =>
    simp only [loadvmLoop] at h
    have hcalls : s.calls <+: (loadSection handler junk entries s.file.getByte.1
        { s with file := s.file.getByte.2 }).2.calls :=
      loadSection_calls entries s.file.getByte.1 { s with file := s.file.getByte.2 }
    split_ifs at h
    · cases h
      exact prefix_rfl
    · rw [some.inj h] at hcalls
      exact hcalls
    · exact hcalls.trans (ih h)

theorem isMatch_self (e : Entry) : e.isMatch e.idstr e.instanceId = true := by
  simp [Entry.isMatch]

/-- If a section is loaded by another entry than the one that wrote it, the calls are not those of
the writers. -/
theorem loadvmLoop_not_found (hg : g.Ok) (hx : x.entry ∈ g.entries) (hfound : ¬ Found g.entries x)
    (hfile : s.file = ⟨x.bytes ++ rest, false⟩)
    (h : loadvmLoop handler junk g.entries fuel s = some (ret, t)) :
    ¬ s.calls ++ [x.call] <+: t.calls := by
  obtain ⟨hhead, hother⟩ := Classical.not_imp.mp hfound
  obtain ⟨y, hy⟩ : ∃ y, findSe g.entries x.entry.idstr x.entry.instanceId = some y := by
    rw [← isSome_iff_exists, findSe, find?_isSome]
    exact ⟨x.entry, hx, isMatch_self x.entry⟩
  have hne : y ≠ x.entry := fun heq => hother (heq ▸ hy)
  cases fuel with
  | zero => exact absurd h (by simp [loadvmLoop])
  | succ fuel =>
    rw [loadvmLoop_section hfile, hhead, if_pos rfl, loadHead_eq hg hx hhead rfl, hy] at h
    intro hprefix
    -- a call of another entry takes the place in the log
    have hcall : ∀ l, s.calls ++ [(y, x.entry.version)] <+: l → ¬ s.calls ++ [x.call] <+: l := by
      intro l hl hl'
      have heq := (prefix_of_prefix_length_le hl hl' (by simp)).eq_of_length (by simp)
      have hlast := append_cancel_left heq
      exact hne (Prod.mk.inj (singleton_inj.mp hlast)).1
    simp only at h
    split_ifs at h with hversion hneg hneg
    · cases h
      have hlen := hprefix.length_le
      rw [length_append, length_singleton] at hlen
      exact absurd hlen (Nat.not_succ_le_self _)
    · exact absurd (show -einval < 0 by decide) hneg
    · have ht := congrArg (fun r => r.2.calls) (some.inj h)
      exact hcall t.calls (ht ▸ prefix_rfl) hprefix
    · exact hcall t.calls (loadvmLoop_calls h) hprefix

/-- **The calls are those of the writers only if every section finds its writer.** -/
theorem Ahead.found_of_calls {l : List Section} (ha : Ahead handler g rest seen s l) (hg : g.Ok)
    (h : loadvmLoop handler junk g.entries fuel s = some (ret, t))
    (hcalls : t.calls = s.calls ++ l.map Section.call) : ∀ x ∈ l, Found g.entries x := by
  induction l generalizing seen s fuel with
  | nil => exact nofun
  | cons x l ih =>
    have hsplit : t.calls = s.calls ++ [x.call] ++ l.map Section.call := by
      rw [hcalls, append_assoc]
      rfl
    by_cases hfound : Found g.entries x
    · obtain ⟨u, hu, hucalls, hloop⟩ := ha.found junk hg hfound
      cases fuel with
      | zero => exact absurd h (by simp [loadvmLoop])
      | succ fuel =>
        rw [hloop] at h
        exact forall_mem_cons.mpr ⟨hfound, ih hu h (by rw [hsplit, hucalls])⟩
    · have hfile := ha.file
      rw [flatMap_cons, append_assoc] at hfile
      refine absurd ?_ (loadvmLoop_not_found hg (ha.mem x (.head _)) hfound hfile h)
      rw [hsplit]
      exact prefix_append _ _

end

/-! ### What is written -/

section

variable {answer : Answers} {entries seen : List Entry}

theorem mem_writeAll {type : SectionType} {k : ℕ} {l : List Entry} {x : Section}
    (h : x ∈ writeAll answer type k l) : x.type = type ∧ x.entry ∈ l := by
  induction l generalizing k with
  | nil => cases h
  | cons e l ih =>
    rcases mem_cons.mp h with rfl | h
    · exact ⟨rfl, .head _⟩
    · exact ⟨(ih h).1, .tail _ (ih h).2⟩

theorem exists_writeAll (answer : Answers) (type : SectionType) (k : ℕ) {l : List Entry}
    {e : Entry} (h : e ∈ l) :
    ∃ x ∈ writeAll answer type k l, x.type = type ∧ x.entry = e := by
  induction l generalizing k with
  | nil => cases h
  | cons d l ih =>
    rcases mem_cons.mp h with rfl | h
    · exact ⟨_, .head _, rfl, rfl⟩
    · obtain ⟨x, hx, heq⟩ := ih (k + 1) h
      exact ⟨x, .tail _ hx, heq⟩

theorem mem_writeParts {k : ℕ} {l : List Entry} {x : Section} (h : x ∈ writeParts answer k l) :
    x.type = .part ∧ x.entry ∈ l := by
  induction l generalizing k with
  | nil => cases h
  | cons e l ih =>
    rcases mem_cons.mp h with rfl | h
    · exact ⟨rfl, .head _⟩
    · split_ifs at h
      · cases h
      · exact ⟨(ih h).1, .tail _ (ih h).2⟩

/-- The sections behind those of type `START`. -/
theorem savevm_eq (answer : Answers) (n : ℕ) (entries : List Entry) :
    ∃ l, savevm answer n entries = savevmStateBegin answer entries ++ l ∧
      (∀ x ∈ l, x.entry ∈ entries ∧ (x.type.isHead = true → x.entry.full = true) ∧
        (x.type.isHead = false → x.entry ∈ entries.filter fun e => e.live)) ∧
      ∀ e ∈ entries.filter (fun e => e.full), ∃ x ∈ l, x.type.isHead = true ∧ x.entry = e := by
  obtain ⟨parts, hparts, hmem⟩ : ∃ l, (savevmStateIterate answer entries)^[n]
      (savevmStateBegin answer entries) = savevmStateBegin answer entries ++ l ∧
      ∀ x ∈ l, x.type = .part ∧ x.entry ∈ entries.filter fun e => e.live := by
    induction n with
    | zero => exact ⟨[], (append_nil _).symm, nofun⟩
    | succ n ih =>
      obtain ⟨l, hl, hmem⟩ := ih
      rw [Function.iterate_succ_apply', hl, savevmStateIterate, append_assoc]
      refine ⟨_, rfl, fun x hx => ?_⟩
      rcases mem_append.mp hx with hx | hx
      · exact hmem x hx
      · exact mem_writeParts hx
  rw [savevm, hparts, savevmStateComplete]
  simp only [append_assoc]
  refine ⟨_, rfl, fun x hx => ?_, fun e he => ?_⟩
  · rcases mem_append.mp hx with hx | hx
    · obtain ⟨htype, hlive⟩ := hmem x hx
      rw [htype]
      exact ⟨(mem_filter.mp hlive).1, fun h => Bool.noConfusion h, fun _ => hlive⟩
    · rcases mem_append.mp hx with hx | hx
      · obtain ⟨htype, hlive⟩ := mem_writeAll hx
        rw [htype]
        exact ⟨(mem_filter.mp hlive).1, fun h => Bool.noConfusion h, fun _ => hlive⟩
      · obtain ⟨htype, hfull⟩ := mem_writeAll hx
        obtain ⟨hmem, hfull⟩ := mem_filter.mp hfull
        rw [htype]
        exact ⟨hmem, fun _ => hfull, fun h => Bool.noConfusion h⟩
  · obtain ⟨x, hx, htype, heq⟩ := exists_writeAll answer .full _ he
    refine ⟨x, mem_append_right _ (mem_append_right _ hx), ?_, heq⟩
    rw [htype]
    rfl

theorem opened_of_forall {l : List Section}
    (h : ∀ x ∈ l, x.type.isHead = false → x.entry ∈ seen) : Opened seen l := by
  induction l generalizing seen with
  | nil => trivial
  | cons x l ih =>
    refine ⟨h x (.head _), ih fun y hy hhead => ?_⟩
    exact .tail _ (h y (.tail _ hy) hhead)

theorem opened_begin {k : ℕ} {live : List Entry} {l : List Section}
    (h : ∀ x ∈ l, x.type.isHead = false → x.entry ∈ live ∨ x.entry ∈ seen) :
    Opened seen (writeAll answer .start k live ++ l) := by
  induction live generalizing seen k with
  | nil => exact opened_of_forall fun x hx hhead => (h x hx hhead).resolve_left not_mem_nil
  | cons e live ih =>
    refine ⟨fun hhead => Bool.noConfusion hhead, ih fun x hx hhead => ?_⟩
    rcases h x hx hhead with hmem | hmem
    · rcases mem_cons.mp hmem with heq | hmem
      · exact .inr (heq ▸ mem_cons_self)
      · exact .inl hmem
    · exact .inr (.tail _ hmem)

/-- What is known of the sections of a machine. -/
theorem savevm_spec (answer : Answers) (n : ℕ) (entries : List Entry) :
    Opened [] (savevm answer n entries) ∧ (∀ x ∈ savevm answer n entries, x.entry ∈ entries) ∧
      ((∀ x ∈ savevm answer n entries, Found entries x) ↔
        ∀ e ∈ entries, (e.live = true ∨ e.full = true) →
          findSe entries e.idstr e.instanceId = some e) := by
  obtain ⟨l, heq, hl, hfull⟩ := savevm_eq answer n entries
  rw [heq]
  refine ⟨opened_begin fun x hx hhead => .inl ((hl x hx).2.2 hhead), fun x hx => ?_,
    fun h e he hsaves => ?_,
    fun h x hx hhead => ?_⟩
  · rcases mem_append.mp hx with hx | hx
    · exact (mem_filter.mp (mem_writeAll hx).2).1
    · exact (hl x hx).1
  · rcases hsaves with hlive | hsaves
    · obtain ⟨x, hx, htype, rfl⟩ := exists_writeAll answer .start 0 (mem_filter.mpr ⟨he, hlive⟩)
      exact h x (mem_append_left _ hx) (by rw [htype]; rfl)
    · obtain ⟨x, hx, hhead, rfl⟩ := hfull e (mem_filter.mpr ⟨he, hsaves⟩)
      exact h x (mem_append_right _ hx) hhead
  · rcases mem_append.mp hx with hx | hx
    · obtain ⟨hmem, hlive⟩ := mem_filter.mp (mem_writeAll hx).2
      exact h _ hmem (.inl hlive)
    · exact h _ (hl x hx).1 (.inr ((hl x hx).2.1 hhead))

end

/-! ### Every history -/

/-- An entry matches the name of another, through its alias or its old name. -/
def Captures (x e : Entry) : Prop :=
  (x.idstr = e.idstr ∧ x.aliasId = e.instanceId) ∨
    ∃ c, x.compat = some c ∧ strstr x.idstr e.idstr = true ∧ c.1 = e.idstr ∧
      (c.2 = e.instanceId ∨ x.aliasId = e.instanceId)

theorem isMatch_iff_captures {x e : Entry} (h : (x.idstr, x.instanceId) ≠ (e.idstr, e.instanceId)) :
    x.isMatch e.idstr e.instanceId = true ↔ Captures x e := by
  rw [Entry.isMatch, Captures]
  simp only [Bool.or_eq_true, Bool.and_eq_true, decide_eq_true_eq]
  refine or_congr ⟨?_, ?_⟩ ?_
  · rintro ⟨hid, hinst | halias⟩
    · exact absurd (by rw [hid, hinst]) h
    · exact ⟨hid, halias.symm⟩
  · rintro ⟨hid, halias⟩
    exact ⟨hid, .inr halias.symm⟩
  · cases hcompat : x.compat with
    | none => simp
    | some c =>
      simp only [Bool.and_eq_true, Bool.or_eq_true, decide_eq_true_eq]
      constructor
      · rintro ⟨hstr, hid, h⟩
        exact ⟨c, rfl, hstr, hid, h.imp Eq.symm Eq.symm⟩
      · rintro ⟨c', hc, hstr, hid, h⟩
        cases hc
        exact ⟨hstr, hid, h.imp Eq.symm Eq.symm⟩

/-- **When each section is loaded by the entry that wrote it.** In every history in which the pairs
of name and instance are distinct, and if all handlers consume what was written, `qemu_loadvm_state`
returns 0 after it has called exactly the handlers of the entries that wrote the sections, in this
order and with their versions, if and only if no entry matches the name of a later one through its
alias or its old name. -/
theorem writers_called_iff {ops : List RegOp} {g : Registry}
    (hg : run regStep emptyRegistry ops = some g)
    (hpairs : (g.entries.map fun e => (e.idstr, e.instanceId)).Nodup) (answer : Answers) (n : ℕ)
    (handler : Handlers)
    (hhandler : ∀ k x, (savevm answer n g.entries)[k]? = some x → Consumes handler k x)
    (junk : ℕ → UInt8) (rest : List UInt8) :
    (∃ m, ∀ fuel, m ≤ fuel → ∃ t,
        qemuLoadvmState handler junk fuel g.entries
          ⟨vmBytes (savevm answer n g.entries) ++ rest, false⟩ =
          some (0, t) ∧
        t.calls = (savevm answer n g.entries).map Section.call ∧ t.file = ⟨rest, false⟩) ↔
      g.entries.Pairwise fun x e => (e.live = true ∨ e.full = true) → ¬ Captures x e := by
  have hok := registry_ok hg
  obtain ⟨hopen, hmem, hfound⟩ := savevm_spec answer n g.entries
  have hstart : ∀ fuel, qemuLoadvmState handler junk fuel g.entries
      ⟨vmBytes (savevm answer n g.entries) ++ rest, false⟩ =
        (loadvmLoop handler junk g.entries fuel
          ⟨⟨(savevm answer n g.entries).flatMap Section.bytes ++ 0 :: rest, false⟩, [], []⟩).map
          fun r => (if r.2.file.hasError then -eio else r.1, r.2) := by
    intro fuel
    have hbytes : vmBytes (savevm answer n g.entries) ++ rest = beBytes 4 vmFileMagic ++
        (beBytes 4 vmFileVersion ++ ((savevm answer n g.entries).flatMap Section.bytes ++
        0 :: rest)) := by
      simp [vmBytes]
    rw [qemuLoadvmState, hbytes, Stream.getBe_beBytes 4 vmFileMagic (by decide)]
    simp only [Stream.getBe_beBytes 4 vmFileVersion (by decide)]
    rfl
  have hahead : Ahead handler g rest []
      ⟨⟨(savevm answer n g.entries).flatMap Section.bytes ++ 0 :: rest, false⟩, [], []⟩
      (savevm answer n g.entries) := by
    refine ⟨hmem, hopen, ⟨nofun, nofun⟩, ?_, rfl⟩
    intro k x hx
    rw [length_nil, Nat.zero_add]
    exact hhandler k x hx
  have hpairwise : (∀ e ∈ g.entries, (e.live = true ∨ e.full = true) →
      findSe g.entries e.idstr e.instanceId = some e) ↔
        g.entries.Pairwise fun x e => (e.live = true ∨ e.full = true) → ¬ Captures x e := by
    refine (Entries.find?_self_iff (p := fun x e => x.isMatch e.idstr e.instanceId) hok.nodup
      fun e _ => isMatch_self e).trans ?_
    have hdistinct := pairwise_map.mp hpairs
    constructor
    · intro h
      refine (h.and hdistinct).imp fun {x e} hxe hsaves hcap => ?_
      have := (isMatch_iff_captures hxe.2).mpr hcap
      rw [hxe.1 hsaves] at this
      exact Bool.false_ne_true this
    · intro h
      refine (h.and hdistinct).imp fun {x e} hxe hsaves => ?_
      rw [← Bool.not_eq_true, isMatch_iff_captures hxe.2]
      exact hxe.1 hsaves
  rw [← hpairwise, ← hfound]
  constructor
  · rintro ⟨m, hm⟩
    obtain ⟨t, ht, hcalls, -⟩ := hm m le_rfl
    rw [hstart, map_eq_some_iff] at ht
    obtain ⟨⟨ret, u⟩, hu, heq⟩ := ht
    obtain ⟨-, rfl⟩ := Prod.mk.inj heq
    exact hahead.found_of_calls hok hu hcalls
  · intro h
    refine ⟨(savevm answer n g.entries).length + 1, fun fuel hfuel => ?_⟩
    obtain ⟨t, ht, hfile, hcalls⟩ := hahead.loadvmLoop_all junk hok h hfuel
    refine ⟨t, ?_, hcalls, hfile⟩
    rw [hstart, ht, map_some, hfile]
    rfl

/-- Two instances of one device, where the first one is registered with number 5: it gets the
section of the second one too. -/
theorem zero_alias_captures :
    (run regStep emptyRegistry
        [.live none [120] 5 1 false true 1, .live none [120] 0 1 false true 2]).map (fun g =>
      (g.entries.map fun e => (e.instanceId, e.device),
        (qemuLoadvmState (fun _ _ _ file => (0, ⟨file.rest.drop 1, file.hasError⟩))
          (fun _ => 0) 8 g.entries
          ⟨vmBytes (savevm (fun _ => ([7], 0)) 0 g.entries), false⟩).map fun r =>
            (r.1, r.2.calls.map fun c => c.1.device))) =
      some ([(5, 1), (0, 2)], some (0, [1, 1])) := by
  decide +kernel

/-- The two instances in the other order, each of which gets its own section. -/
theorem instances_in_order_loaded :
    ∃ g, run regStep emptyRegistry
        [.live none [120] 0 1 false true 1, .live none [120] 5 1 true true 2] = some g ∧
      (g.entries.map fun e => (e.idstr, e.instanceId)).Nodup ∧
      (∀ k x, (savevm (fun _ => ([7], 0)) 1 g.entries)[k]? = some x →
        Consumes (fun _ _ _ file => (0, ⟨file.rest.drop 1, file.hasError⟩)) k x) ∧
      ((∃ m, ∀ fuel, m ≤ fuel → ∃ t,
          qemuLoadvmState (fun _ _ _ file => (0, ⟨file.rest.drop 1, file.hasError⟩))
            (fun _ => 0) fuel
              g.entries ⟨vmBytes (savevm (fun _ => ([7], 0)) 1 g.entries) ++ [], false⟩ =
                some (0, t) ∧
            t.calls = (savevm (fun _ => ([7], 0)) 1 g.entries).map Section.call ∧
              t.file = ⟨[], false⟩) ↔
        g.entries.Pairwise fun x e => (e.live = true ∨ e.full = true) → ¬ Captures x e) ∧
      g.entries.Pairwise fun x e => (e.live = true ∨ e.full = true) → ¬ Captures x e := by
  refine exists_of_map Registry.entries [⟨[120], 0, 0, 1, 0, false, true, none, 1, none⟩,
    ⟨[120], 5, 0, 1, 1, true, true, none, 2, none⟩] (by decide +kernel) fun g hg hentries => ?_
  have hpairs : (g.entries.map fun e => (e.idstr, e.instanceId)).Nodup := by
    rw [hentries]
    decide
  have hconsumes : ∀ k x, (savevm (fun _ => ([7], 0)) 1 g.entries)[k]? = some x →
      Consumes (fun _ _ _ file => (0, ⟨file.rest.drop 1, file.hasError⟩)) k x := by
    intro k x hx rest
    have hbody : ∀ x ∈ savevm (fun _ => ([7], 0)) 1 g.entries, x.body = [7] := by
      rw [hentries]
      decide +kernel
    rw [hbody x (mem_of_getElem? hx)]
    rfl
  refine ⟨hpairs, hconsumes, writers_called_iff hg hpairs _ _ _ hconsumes _ _, ?_⟩
  rw [hentries]
  refine pairwise_pair.mpr fun _ => ?_
  rintro (⟨-, halias⟩ | ⟨c, hc, -⟩)
  · cases halias
  · cases hc

end VariabilityTestbed.Migration
