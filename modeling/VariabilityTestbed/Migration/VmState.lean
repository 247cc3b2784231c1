import VariabilityTestbed.Lib.Bytes
import VariabilityTestbed.Lib.Words
import VariabilityTestbed.Migration.RamLoad

/-!
# Descriptions of device state

The state of a device is saved and loaded by two interpreters of one description,
`vmstate_save_state` and `vmstate_load_state`. A description lists fields and subsections. A field
is an element or an array of elements, whose number may be a constant or stand in the device; an
element is a value that an info knows how to write and read, or a structure with a description of
its own.

The memory of a device is a tree: `opaque + offset` is a cell that is reached by a `Key`, and what a
pointer leads to is another cell. So loading never writes to a pointer, and different keys are
different cells. A subsection has no subsections, which the source asserts and `VMStateSubsection`
says by its type.

The two interpreters disagree in places. `vmstate_save_state` does not know `VMS_VARRAY_UINT32` and
saves one element. That there is a subsection is guessed from the next byte being 5, which may also
be the first byte of what follows the structure. The version of a subsection and the length of its
name are cut to a byte.
-/

namespace VariabilityTestbed.Migration

open BigEndian Bytes List Words

/-! ### Devices -/

/-- How an element of a field is reached from its structure: the offset, the `start` behind a
pointer that stands there, the index, and whether the array is one of pointers. -/
structure Key where
  offset : ℕ
  pointer : Option ℕ
  index : ℕ
  indirect : Bool
  deriving DecidableEq, Repr

/-- The memory of a device or of a structure in it: the bytes from each cell on. -/
abbrev Device := List Key → ℕ → UInt8

namespace Device

/-- The element at a key, as a device of its own. -/
def sub (o : Device) (k : Key) : Device := fun q => o (k :: q)

/-- Replace the element at a key. -/
def set (o : Device) (k : Key) (x : Device) : Device
  | [] => o []
  | k' :: q => if k' = k then x q else o (k' :: q)

/-- The bytes at an offset of the structure. -/
def cell (o : Device) (offset : ℕ) : ℕ → UInt8 := o [⟨offset, none, 0, false⟩]

end Device

/-- A number of `w` bytes in the memory of the host. -/
def hostNat (cell : ℕ → UInt8) (w : ℕ) : ℕ := ofBe (loadBytes cell 0 w).reverse

/-- The bytes of a number in the memory of the host. -/
def hostBytes (w v : ℕ) : List UInt8 := (beBytes w v).reverse

/-! ### Infos -/

/-- `VMStateInfo`: `put` writes a value to the stream, `get` reads one, given the value that is
there, and answers with the bytes it stores. The number is the size of the field. Of those bytes
`width` are the value. -/
structure VMStateInfo where
  put : (ℕ → UInt8) → ℕ → List UInt8
  get : (ℕ → UInt8) → ℕ → Stream → ℤ × List UInt8 × Stream
  width : ℕ → ℕ

/-- `vmstate_info_int8` to `vmstate_info_uint64`. -/
def infoInt (w : ℕ) : VMStateInfo where
  put cell _ := beBytes w (hostNat cell w)
  get _ _ s := (0, hostBytes w (s.getBe w).1, (s.getBe w).2)
  width _ := w

/-- `vmstate_info_buffer`. -/
def infoBuffer : VMStateInfo where
  put cell size := loadBytes cell 0 size
  get _ size s := (0, (s.getBuffer size).1, (s.getBuffer size).2)
  width size := size

/-- `vmstate_info_unused_buffer`: as many zeros, which are skipped. -/
def infoUnusedBuffer : VMStateInfo where
  put _ size := List.replicate size 0
  get _ size s := (0, [], (s.getBuffer size).2)
  width _ := 0

/-- The value is carried over in front of `next`, whatever was there. -/
def VMStateInfo.Carries (info : VMStateInfo) (cell : ℕ → UInt8) (size : ℕ) (next : List UInt8) :
    Prop :=
  ∀ old e, info.get old size ⟨info.put cell size ++ next, e⟩ =
    (0, loadBytes cell 0 (info.width size), ⟨next, e⟩)

theorem hostBytes_hostNat (cell : ℕ → UInt8) (w : ℕ) :
    hostBytes w (hostNat cell w) = loadBytes cell 0 w := by
  have h := beBytes_ofBe (loadBytes cell 0 w).reverse
  rw [length_reverse, length_loadBytes] at h
  rw [hostBytes, hostNat, h, reverse_reverse]

theorem hostNat_lt (cell : ℕ → UInt8) (w : ℕ) : hostNat cell w < 256 ^ w := by
  have h := ofBe_lt (loadBytes cell 0 w).reverse
  rwa [length_reverse, length_loadBytes] at h

section Carries

variable (cell : ℕ → UInt8) (size : ℕ) (next : List UInt8)

theorem infoInt_carries (w : ℕ) : (infoInt w).Carries cell size next := by
  intro old e
  simp only [infoInt, Stream.getBe_beBytes w _ (hostNat_lt cell w), hostBytes_hostNat]

theorem infoBuffer_carries : infoBuffer.Carries cell size next := by
  intro old e
  simp only [infoBuffer, Stream.getBuffer_append (length_loadBytes cell 0 size)]

theorem infoUnusedBuffer_carries : infoUnusedBuffer.Carries cell size next := by
  intro old e
  simp only [infoUnusedBuffer, Stream.getBuffer_append (length_replicate (n := size))]
  rfl

end Carries

/-! ### Descriptions -/

/-- A `VMStateField`, without what its elements are. -/
structure Layout where
  fieldExists : Option (Device → ℤ → Bool)
  versionId : ℤ
  offset : ℕ
  size : ℕ
  start : ℕ
  num : ℤ
  numOffset : ℕ
  sizeOffset : ℕ
  pointer : Bool
  array : Bool
  varrayInt32 : Bool
  varrayUint32 : Bool
  varrayUint16 : Bool
  varrayUint8 : Bool
  arrayOfPointer : Bool
  vbuffer : Bool
  multiply : Bool

/-- The name and the versions of a description. -/
structure Header where
  name : List UInt8
  versionId : ℤ
  minimumVersionId : ℤ
  minimumVersionIdOld : ℤ

/-- A description may load its own version. -/
def Header.Current (h : Header) : Prop :=
  h.minimumVersionId ≤ h.versionId ∧ h.minimumVersionIdOld ≤ h.versionId

mutual

/-- A `VMStateDescription` without hooks. -/
inductive VMStateDescription
  | mk (body : Body) (subsections : List VMStateSubsection)

/-- A description without its subsections. -/
inductive Body
  | mk (header : Header) (fields : List VMStateField)

/-- A field of values, or of structures if the flag `VMS_STRUCT` is set. -/
inductive VMStateField
  | value (layout : Layout) (info : VMStateInfo)
  | struct (layout : Layout) (vmsd : VMStateDescription)

/-- A subsection. -/
inductive VMStateSubsection
  | mk (needed : Device → Bool) (vmsd : Body)

end

/-- The version of a description. -/
def versionOf : VMStateDescription → ℤ
  | .mk (.mk header _) _ => header.versionId

/-- The name of a subsection. -/
def nameOfSubsection : VMStateSubsection → List UInt8
  | .mk _ (.mk header _) => header.name

namespace Layout

variable (f : Layout)

/-- `size`. -/
def elemSize (o : Device) : ℤ :=
  if f.vbuffer then
    let size := toInt (hostNat (o.cell f.sizeOffset) 4)
    if f.multiply then toInt (size * f.size) else size
  else
    toInt f.size

/-- `n_elems` in `vmstate_load_state`. -/
def loadCount (o : Device) : ℤ :=
  if f.array then f.num
  else if f.varrayInt32 then toInt (hostNat (o.cell f.numOffset) 4)
  else if f.varrayUint32 then toInt (hostNat (o.cell f.numOffset) 4)
  else if f.varrayUint16 then hostNat (o.cell f.numOffset) 2
  else if f.varrayUint8 then hostNat (o.cell f.numOffset) 1
  else 1

/-- `n_elems` in `vmstate_save_state`, where there is no case for `VMS_VARRAY_UINT32`. -/
def saveCount (o : Device) : ℤ :=
  if f.array then f.num
  else if f.varrayInt32 then toInt (hostNat (o.cell f.numOffset) 4)
  else if f.varrayUint16 then hostNat (o.cell f.numOffset) 2
  else if f.varrayUint8 then hostNat (o.cell f.numOffset) 1
  else 1

/-- Where element `i` stands. -/
def key (i : ℕ) : Key := ⟨f.offset, if f.pointer then some f.start else none, i, f.arrayOfPointer⟩

/-- The field is saved. -/
def saved (o : Device) (version : ℤ) : Bool :=
  match f.fieldExists with
  | none => true
  | some exist => exist o version

/-- The field is loaded. -/
def loaded (o : Device) (version : ℤ) : Bool :=
  match f.fieldExists with
  | none => decide (f.versionId ≤ version)
  | some exist => exist o version

end Layout

/-! ### Saving -/

/-- `n` elements from index `i` on. -/
def saveElems (save : Device → List UInt8) (key : ℕ → Key) (o : Device) : ℕ → ℕ → List UInt8
  | 0, _ => []
  | n + 1, i => save (o.sub (key i)) ++ saveElems save key o n (i + 1)

mutual

/-- `vmstate_save_state`. -/
def vmstateSaveState : VMStateDescription → Device → List UInt8
  | .mk body subs, o => saveBody body o ++ vmstateSubsectionSave subs o

/-- The fields of a description. -/
def saveBody : Body → Device → List UInt8
  | .mk header fields, o => saveFields header.versionId fields o

/-- The fields from one on. -/
def saveFields (version : ℤ) : List VMStateField → Device → List UInt8
  | [], _ => []
  | f :: fs, o => saveField version f o ++ saveFields version fs o

/-- A field. -/
def saveField (version : ℤ) : VMStateField → Device → List UInt8
  | .value f info, o =>
    if f.saved o version then
      saveElems (fun x => info.put (x []) (f.elemSize o).toNat) f.key o (f.saveCount o).toNat 0
    else []
  | .struct f vmsd, o =>
    if f.saved o version then saveElems (vmstateSaveState vmsd) f.key o (f.saveCount o).toNat 0
    else []

/-- `vmstate_subsection_save`. -/
def vmstateSubsectionSave : List VMStateSubsection → Device → List UInt8
  | [], _ => []
  | sub :: subs, o => saveSubsection sub o ++ vmstateSubsectionSave subs o

/-- A subsection, if it is needed. -/
def saveSubsection : VMStateSubsection → Device → List UInt8
  | .mk needed (.mk header fields), o =>
    if needed o then
      let len := UInt8.ofNat header.name.length
      5 :: len :: header.name.take len.toNat ++ beBytes 4 (header.versionId % 2 ^ 32).toNat ++
        saveFields header.versionId fields o
    else []

end

/-! ### Loading -/

/-- What a load ends with: the result, the device and what is left of the stream. -/
abbrev Outcome := ℤ × Device × Stream

/-- `n` elements from index `i` on. -/
def loadElems (load : Device → Stream → Option Outcome) (key : ℕ → Key) :
    ℕ → ℕ → Device → Stream → Option Outcome
  | 0, _, o, s => some (0, o, s)
  | n + 1, i, o, s =>
    (load (o.sub (key i)) s).bind fun r =>
      if r.1 < 0 then some (r.1, o.set (key i) r.2.1, r.2.2)
      else loadElems load key n (i + 1) (o.set (key i) r.2.1) r.2.2

/-- A value. -/
def loadValue (info : VMStateInfo) (size : ℕ) (x : Device) (s : Stream) : Option Outcome :=
  let r := info.get (x []) size s
  some (r.1, fun q => if q = [] then storeBytes (x []) 0 r.2.1 else x q, r.2.2)

/-- The loop of `vmstate_subsection_load`, where `named` loads the subsection with a name. -/
def subsectionLoop (junk : ℕ → UInt8) (named : List UInt8 → ℤ → Device → Stream → Option Outcome) :
    ℕ → Device → Stream → Option Outcome
  | 0, _, _ => none
  | fuel + 1, o, s =>
    let p := s.peekByte
    if p.1 = 5 then
      let name := getName junk p.2.getByte.2
      let version := name.2.getBe 4
      (named name.1 (version.1 % 256 : ℕ) o version.2).bind fun r =>
        if r.1 ≠ 0 then some r else subsectionLoop junk named fuel r.2.1 r.2.2
    else some (0, o, p.2)

mutual

/-- `vmstate_load_state`. Every round of the loop takes a byte, so it needs no more rounds than
there are bytes. -/
def vmstateLoadState (junk : ℕ → UInt8) : VMStateDescription → Device → ℤ → Stream → Option Outcome
  | .mk body subs, o, version, s =>
    (loadBody junk body o version s).bind fun r =>
      if r.1 < 0 ∨ subs.isEmpty then some r
      else subsectionLoop junk (loadNamed junk subs) (r.2.2.rest.length + 1) r.2.1 r.2.2

/-- The checks of the version and the fields. There is no `load_state_old`. -/
def loadBody (junk : ℕ → UInt8) : Body → Device → ℤ → Stream → Option Outcome
  | .mk header fields, o, version, s =>
    if header.versionId < version ∨ version < header.minimumVersionIdOld then some (-22, o, s)
    else if version < header.minimumVersionId then none
    else loadFields junk version fields o s

/-- The fields from one on. -/
def loadFields (junk : ℕ → UInt8) (version : ℤ) :
    List VMStateField → Device → Stream → Option Outcome
  | [], o, s => some (0, o, s)
  | f :: fs, o, s =>
    (loadField junk version f o s).bind fun r =>
      if r.1 < 0 then some r else loadFields junk version fs r.2.1 r.2.2

/-- A field. -/
def loadField (junk : ℕ → UInt8) (version : ℤ) : VMStateField → Device → Stream → Option Outcome
  | .value f info, o, s =>
    if f.loaded o version then
      loadElems (loadValue info (f.elemSize o).toNat) f.key (f.loadCount o).toNat 0 o s
    else some (0, o, s)
  | .struct f vmsd, o, s =>
    if f.loaded o version then
      loadElems (fun x => vmstateLoadState junk vmsd x (versionOf vmsd)) f.key
        (f.loadCount o).toNat 0 o s
    else some (0, o, s)

/-- `vmstate_get_subsection`, and the load of what is found. -/
def loadNamed (junk : ℕ → UInt8) :
    List VMStateSubsection → List UInt8 → ℤ → Device → Stream → Option Outcome
  | [], _, _, o, s => some (-2, o, s)
  | sub :: subs, name, version, o, s =>
    if name = nameOfSubsection sub then loadSubsection junk sub o version s
    else loadNamed junk subs name version o s

/-- The fields of a subsection. -/
def loadSubsection (junk : ℕ → UInt8) : VMStateSubsection → Device → ℤ → Stream → Option Outcome
  | .mk _ body, o, version, s => loadBody junk body o version s

end

/-! ### What is in the destination -/

mutual

/-- The destination has what was saved of the source. -/
def Agree : VMStateDescription → Device → Device → Prop
  | .mk body subs, src, dst => AgreeBody body src dst ∧ AgreeSubsections subs src dst

/-- The fields of a description. -/
def AgreeBody : Body → Device → Device → Prop
  | .mk header fields, src, dst => AgreeFields header.versionId fields src dst

/-- The fields from one on. -/
def AgreeFields (version : ℤ) : List VMStateField → Device → Device → Prop
  | [], _, _ => True
  | f :: fs, src, dst => AgreeField version f src dst ∧ AgreeFields version fs src dst

/-- A field. -/
def AgreeField (version : ℤ) : VMStateField → Device → Device → Prop
  | .value f info, src, dst =>
    f.saved src version = true → ∀ i < (f.saveCount src).toNat,
      ∀ k < info.width (f.elemSize src).toNat, dst.sub (f.key i) [] k = src.sub (f.key i) [] k
  | .struct f vmsd, src, dst =>
    f.saved src version = true → ∀ i < (f.saveCount src).toNat,
      Agree vmsd (src.sub (f.key i)) (dst.sub (f.key i))

/-- The subsections from one on. -/
def AgreeSubsections : List VMStateSubsection → Device → Device → Prop
  | [], _, _ => True
  | sub :: subs, src, dst => AgreeSubsection sub src dst ∧ AgreeSubsections subs src dst

/-- A subsection. -/
def AgreeSubsection : VMStateSubsection → Device → Device → Prop
  | .mk needed body, src, dst => needed src = true → AgreeBody body src dst

end

/-- On the way from `dst` to `dst'` only bytes of the source have been stored. -/
def Closer (src dst dst' : Device) : Prop := ∀ q i, dst' q i = src q i ∨ dst' q i = dst q i

namespace Closer

variable {src a b c : Device}

theorem refl (src a : Device) : Closer src a a := fun _ _ => .inr rfl

theorem trans (hab : Closer src a b) (hbc : Closer src b c) : Closer src a c := by
  intro q i
  rcases hbc q i with hc | hc
  · exact .inl hc
  · rw [hc]
    exact hab q i

/-- What was equal stays equal. -/
theorem keep (hab : Closer src a b) {q : List Key} {i : ℕ} (ha : a q i = src q i) :
    b q i = src q i := by
  rcases hab q i with hb | hb
  · exact hb
  · exact hb.trans ha

theorem sub (hab : Closer src a b) (k : Key) : Closer (src.sub k) (a.sub k) (b.sub k) :=
  fun q i => hab (k :: q) i

/-- One element is brought closer. -/
theorem set {k : Key} {x : Device} (hx : Closer (src.sub k) (a.sub k) x) :
    Closer src a (a.set k x) := by
  intro q i
  rcases q with _ | ⟨k', q⟩
  · exact .inr rfl
  · by_cases hk : k' = k
    · subst hk
      rw [Device.set, if_pos rfl]
      exact hx q i
    · exact .inr (by rw [Device.set, if_neg hk])

end Closer

theorem Device.sub_set (o : Device) (k : Key) (x : Device) : (o.set k x).sub k = x := by
  funext q
  exact if_pos rfl

mutual

/-- What the destination has of the source it keeps. -/
theorem Agree.mono {src dst dst' : Device} (hc : Closer src dst dst') :
    ∀ d : VMStateDescription, Agree d src dst → Agree d src dst'
  | .mk body subs, h => ⟨AgreeBody.mono hc body h.1, AgreeSubsections.mono hc subs h.2⟩

theorem AgreeBody.mono {src dst dst' : Device} (hc : Closer src dst dst') :
    ∀ b : Body, AgreeBody b src dst → AgreeBody b src dst'
  | .mk _ fields, h => AgreeFields.mono hc fields h

theorem AgreeFields.mono {src dst dst' : Device} {version : ℤ} (hc : Closer src dst dst') :
    ∀ fs : List VMStateField, AgreeFields version fs src dst → AgreeFields version fs src dst'
  | [], _ => trivial
  | f :: fs, h => ⟨AgreeField.mono hc f h.1, AgreeFields.mono hc fs h.2⟩

theorem AgreeField.mono {src dst dst' : Device} {version : ℤ} (hc : Closer src dst dst') :
    ∀ f : VMStateField, AgreeField version f src dst → AgreeField version f src dst'
  | .value _ _, h => fun hsaved i hi k hk => hc.keep (h hsaved i hi k hk)
  | .struct f vmsd, h => fun hsaved i hi => Agree.mono (hc.sub (f.key i)) vmsd (h hsaved i hi)

theorem AgreeSubsections.mono {src dst dst' : Device} (hc : Closer src dst dst') :
    ∀ subs : List VMStateSubsection, AgreeSubsections subs src dst → AgreeSubsections subs src dst'
  | [], _ => trivial
  | sub :: subs, h => ⟨AgreeSubsection.mono hc sub h.1, AgreeSubsections.mono hc subs h.2⟩

theorem AgreeSubsection.mono {src dst dst' : Device} (hc : Closer src dst dst') :
    ∀ sub : VMStateSubsection, AgreeSubsection sub src dst → AgreeSubsection sub src dst'
  | .mk _ body, h => fun hneeded => AgreeBody.mono hc body (h hneeded)

end

/-! ### Descriptions that can be loaded -/

/-- The version of the field is not above that of the description, and if the destination has what
is `known`, then the condition, the number of elements and the size are the same in both devices. -/
structure Layout.Determined (f : Layout) (version : ℤ) (known : Device → Device → Prop) : Prop where
  version_le : f.versionId ≤ version
  exist : ∀ exist, f.fieldExists = some exist → ∀ src dst, known src dst →
    exist dst version = exist src version
  size : ∀ src dst, known src dst → f.saved src version = true → f.elemSize dst = f.elemSize src
  count : ∀ src dst, known src dst → f.saved src version = true → f.loadCount dst = f.loadCount src

mutual

/-- Conditions, numbers and sizes depend on what is loaded before. -/
def WellFormed : VMStateDescription → Prop
  | .mk body subs =>
    WellFormedBody (fun _ _ => True) body ∧ WellFormedSubsections (AgreeBody body) subs

/-- The fields, when `known` has been loaded before. -/
def WellFormedBody (known : Device → Device → Prop) : Body → Prop
  | .mk header fields => WellFormedFields header.versionId known fields

/-- The fields from one on. -/
def WellFormedFields (version : ℤ) (known : Device → Device → Prop) : List VMStateField → Prop
  | [] => True
  | f :: fs =>
    WellFormedField version known f ∧
      WellFormedFields version (fun src dst => known src dst ∧ AgreeField version f src dst) fs

/-- A field. -/
def WellFormedField (version : ℤ) (known : Device → Device → Prop) : VMStateField → Prop
  | .value f _ => f.Determined version known
  | .struct f vmsd => f.Determined version known ∧ WellFormed vmsd

/-- The subsections from one on. -/
def WellFormedSubsections (known : Device → Device → Prop) : List VMStateSubsection → Prop
  | [] => True
  | sub :: subs =>
    WellFormedSubsection known sub ∧
      WellFormedSubsections (fun src dst => known src dst ∧ AgreeSubsection sub src dst) subs

/-- A subsection. -/
def WellFormedSubsection (known : Device → Device → Prop) : VMStateSubsection → Prop
  | .mk _ body => WellFormedBody known body

end

/-- Each element is readable in front of the elements behind it and of `next`. -/
def ReadableElems (save : Device → List UInt8) (readable : Device → List UInt8 → Prop)
    (key : ℕ → Key) (o : Device) (next : List UInt8) : ℕ → ℕ → Prop
  | 0, _ => True
  | n + 1, i =>
    readable (o.sub (key i)) (saveElems save key o n (i + 1) ++ next) ∧
      ReadableElems save readable key o next n (i + 1)

mutual

/-- In front of the bytes `next`: wherever a structure with subsections ends, the next byte is not
that of a subsection; an array that is counted by a `uint32_t` has one element; a subsection that is
saved has a name of at most 255 characters that none before it has, and a version of one byte; and
what is saved has versions in order and infos that carry it. -/
def Readable : VMStateDescription → Device → List UInt8 → Prop
  | .mk body subs, src, next =>
    (subs.isEmpty = false → next.head? ≠ some 5) ∧
      ReadableBody body src (vmstateSubsectionSave subs src ++ next) ∧
      ReadableSubsections subs [] src next

/-- The fields of a description. -/
def ReadableBody : Body → Device → List UInt8 → Prop
  | .mk header fields, src, next => header.Current ∧ ReadableFields header.versionId fields src next

/-- The fields from one on. -/
def ReadableFields (version : ℤ) : List VMStateField → Device → List UInt8 → Prop
  | [], _, _ => True
  | f :: fs, src, next =>
    ReadableField version f src (saveFields version fs src ++ next) ∧
      ReadableFields version fs src next

/-- A field. -/
def ReadableField (version : ℤ) : VMStateField → Device → List UInt8 → Prop
  | .value f info, src, next =>
    f.saved src version = true → f.loadCount src = f.saveCount src ∧
      ReadableElems (fun x => info.put (x []) (f.elemSize src).toNat)
        (fun x => info.Carries (x []) (f.elemSize src).toNat) f.key src
        next (f.saveCount src).toNat 0
  | .struct f vmsd, src, next =>
    f.saved src version = true → f.loadCount src = f.saveCount src ∧
      ReadableElems (vmstateSaveState vmsd) (Readable vmsd) f.key src next (f.saveCount src).toNat 0

/-- The subsections from one on, behind those with the `names`. -/
def ReadableSubsections : List VMStateSubsection → List (List UInt8) → Device → List UInt8 → Prop
  | [], _, _, _ => True
  | sub :: subs, names, src, next =>
    ReadableSubsection sub names src (vmstateSubsectionSave subs src ++ next) ∧
      ReadableSubsections subs (nameOfSubsection sub :: names) src next

/-- A subsection. -/
def ReadableSubsection : VMStateSubsection → List (List UInt8) → Device → List UInt8 → Prop
  | .mk needed (.mk header fields), names, src, next =>
    needed src = true → header.name.length < 256 ∧ 0 ∉ header.name ∧ header.name ∉ names ∧
      0 ≤ header.versionId ∧ header.versionId < 256 ∧ header.Current ∧
      ReadableFields header.versionId fields src next

end

theorem ReadableElems.get {save : Device → List UInt8} {readable : Device → List UInt8 → Prop}
    {key : ℕ → Key} {o : Device} {next : List UInt8} {n i m j : ℕ}
    (h : ReadableElems save readable key o next n i) (hle : i ≤ j) (hm : m + j + 1 = i + n) :
    readable (o.sub (key j)) (saveElems save key o m (j + 1) ++ next) := by
  induction n generalizing i with
  | zero => omega
  | succ n ih =>
    by_cases hj : i = j
    · subst hj
      obtain rfl : m = n := by omega
      exact h.1
    · exact ih h.2 (by omega) (by omega)

/-! ### Loads that restore -/

/-- If `pre` holds of the destination, the load takes exactly `bytes` in front of `next`, succeeds,
and `post` holds afterwards. -/
def Restores (load : Device → Stream → Option Outcome) (src : Device) (bytes next : List UInt8)
    (pre post : Device → Prop) : Prop :=
  ∀ dst e, pre dst → ∃ dst' e', load dst ⟨bytes ++ next, e⟩ = some (0, dst', ⟨next, e'⟩) ∧
    Closer src dst dst' ∧ post dst'

variable {junk : ℕ → UInt8} {src : Device} {bytes next : List UInt8} {version : ℤ}

theorem restores_value {info : VMStateInfo} {size : ℕ} (h : info.Carries (src []) size next) :
    Restores (loadValue info size) src (info.put (src []) size) next (fun _ => True)
      (fun dst => ∀ k < info.width size, dst [] k = src [] k) := by
  intro dst e _
  refine ⟨_, e, by rw [loadValue, h], fun q i => ?_, fun k hk => ?_⟩
  · by_cases hq : q = []
    · subst hq
      simp only [if_true]
      rcases storeBytes_eq_or (dst []) 0 (loadBytes (src []) 0 (info.width size)) i
        with heq | ⟨k, hk, rfl⟩
      · exact .inr heq
      · left
        have hlt : k < info.width size := by
          simpa using (List.getElem?_eq_some_iff.mp hk).1
        rw [getElem?_loadBytes hlt] at hk
        exact (Option.some.inj hk).symm
    · exact .inr (by simp only [if_neg hq])
  · have hstore :=
      storeBytes_add (m := dst []) (p := 0) (getElem?_loadBytes (m := src []) (p := 0) hk)
    simpa using hstore

theorem restores_elems (src : Device) (next : List UInt8) (load : Device → Stream → Option Outcome)
    (save : Device → List UInt8) (post : Device → Device → Prop) (key : ℕ → Key)
    (hmono : ∀ x a b, post x a → Closer x a b → post x b) (n i : ℕ)
    (hload : ∀ m j, j < i + n → m + j + 1 = i + n →
      Restores load (src.sub (key j)) (save (src.sub (key j)))
        (saveElems save key src m (j + 1) ++ next)
        (fun _ => True) (post (src.sub (key j)))) :
    Restores (loadElems load key n i) src (saveElems save key src n i) next (fun _ => True)
      (fun dst => ∀ j, i ≤ j → j < i + n → post (src.sub (key j)) (dst.sub (key j))) := by
  induction n generalizing i with
  | zero => exact fun dst e _ => ⟨dst, e, rfl, .refl src dst, fun j hle hlt => by omega⟩
  | succ n ih =>
    intro dst e _
    obtain ⟨x, e₁, hx, hcx, hpx⟩ := hload n i (by omega) (by omega) (dst.sub (key i)) e trivial
    have hrest := ih (i + 1) fun m j hj hm => hload m j (by omega) (by omega)
    obtain ⟨dst', e', hdst', hc, hp⟩ := hrest (dst.set (key i) x) e₁ trivial
    have hset : Closer src dst (dst.set (key i) x) := .set hcx
    refine ⟨dst', e', ?_, hset.trans hc, fun j hle hlt => ?_⟩
    · rw [saveElems, append_assoc, loadElems, hx]
      exact hdst'
    · by_cases hj : i = j
      · subst hj
        have hsub : post (src.sub (key i)) ((dst.set (key i) x).sub (key i)) := by
          rw [Device.sub_set]
          exact hpx
        exact hmono _ _ _ hsub (hc.sub (key i))
      · exact hp j (by omega) (by omega)

/-- One load after the other. -/
theorem Restores.bind {load load' : Device → Stream → Option Outcome} {bytes' : List UInt8}
    {pre mid post : Device → Prop} (h : Restores load src bytes (bytes' ++ next) pre mid)
    (h' : Restores load' src bytes' next mid post) :
    Restores (fun o s => (load o s).bind fun r => if r.1 < 0 then some r else load' r.2.1 r.2.2) src
      (bytes ++ bytes') next pre post := by
  intro dst e hpre
  obtain ⟨dst₁, e₁, h₁, hc₁, hmid⟩ := h dst e hpre
  obtain ⟨dst₂, e₂, h₂, hc₂, hpost⟩ := h' dst₁ e₁ hmid
  refine ⟨dst₂, e₂, ?_, hc₁.trans hc₂, hpost⟩
  simp only [append_assoc, h₁, Option.bind_some, lt_irrefl, if_false, h₂]

/-- What is known before is known afterwards. -/
theorem Restores.frame {load : Device → Stream → Option Outcome} {pre post : Device → Prop}
    (h : Restores load src bytes next pre post) (hpre : ∀ a b, pre a → Closer src a b → pre b) :
    Restores load src bytes next pre (fun dst => pre dst ∧ post dst) := by
  intro dst e hdst
  obtain ⟨dst', e', heq, hc, hpost⟩ := h dst e hdst
  exact ⟨dst', e', heq, hc, hpre dst dst' hdst hc, hpost⟩

theorem Layout.Determined.loaded_eq {f : Layout} {known : Device → Device → Prop} {dst : Device}
    (h : f.Determined version known) (hknown : known src dst) :
    f.loaded dst version = f.saved src version := by
  cases hexists : f.fieldExists with
  | none => simp only [Layout.loaded, Layout.saved, hexists, h.version_le, decide_true]
  | some exist =>
    simp only [Layout.loaded, Layout.saved, hexists, h.exist exist hexists src dst hknown]

theorem head_subsection_name {name l : List UInt8} (hlen : name.length < 256) :
    UInt8.ofNat name.length :: name.take (UInt8.ofNat name.length).toNat ++ l =
      UInt8.ofNat name.length :: name ++ l := by
  have hbyte : (UInt8.ofNat name.length).toNat = name.length := by
    rw [UInt8.toNat_ofNat']
    exact Nat.mod_eq_of_lt hlen
  rw [hbyte, take_length]

/-- A round of the loop, at the head of a subsection. -/
theorem subsectionLoop_head {named : List UInt8 → ℤ → Device → Stream → Option Outcome}
    {name : List UInt8}
    {v : ℕ} (hlen : name.length < 256) (hname : 0 ∉ name) (hv : v < 256) (fuel : ℕ)
    (o : Device) (e : Bool) :
    subsectionLoop junk named
    (fuel + 1) o ⟨5 :: UInt8.ofNat name.length :: name ++ beBytes 4 v ++ next, e⟩ =
      (named name v o ⟨next, e⟩).bind fun r =>
        if r.1 ≠ 0 then some r else subsectionLoop junk named fuel r.2.1 r.2.2 := by
  have hread : getName junk ⟨UInt8.ofNat name.length :: (name ++ (beBytes 4 v ++ next)), e⟩ =
      (name, ⟨beBytes 4 v ++ next, e⟩) := getName_append hlen hname
  have hbe := Stream.getBe_beBytes (l := next) 4 v (by omega) e
  simp only [subsectionLoop, Stream.peekByte, Stream.getByte, cons_append, append_assoc, if_true,
    hread, hbe, Nat.mod_eq_of_lt hv]

/-- The loop ends at any other byte. -/
theorem subsectionLoop_end (junk : ℕ → UInt8)
    (named : List UInt8 → ℤ → Device → Stream → Option Outcome) (h : next.head? ≠ some 5) (fuel : ℕ)
    (o : Device) (e : Bool) :
    ∃ e', subsectionLoop junk named (fuel + 1) o ⟨next, e⟩ = some (0, o, ⟨next, e'⟩) := by
  rcases next with _ | ⟨b, l⟩
  · exact ⟨true, rfl⟩
  · have hb : b ≠ 5 := fun hb => h (by rw [hb]; rfl)
    refine ⟨e, ?_⟩
    rw [subsectionLoop]
    exact if_neg hb

mutual

/-- What `vmstate_save_state` writes, `vmstate_load_state` restores. -/
theorem restores_state (junk : ℕ → UInt8) :
    ∀ (d : VMStateDescription) (src : Device) (next : List UInt8), WellFormed d →
    Readable d src next →
      Restores (fun o s => vmstateLoadState junk d o (versionOf d) s) src
        (vmstateSaveState d src) next (fun _ => True) (Agree d src)
  | .mk (.mk header fields) subs, src, next, hwf, hr => by
    obtain ⟨hfields, hsubs⟩ := hwf
    obtain ⟨hnext, ⟨⟨hmin, hold⟩, hreadFields⟩, hreadSubs⟩ := hr
    have hbody := restores_fields junk header.versionId fields (fun _ _ => True) src _
      (fun _ _ _ _ _ => trivial) hfields hreadFields
    intro dst e _
    obtain ⟨dst₁, e₁, h₁, hc₁, hagree⟩ := hbody dst e trivial
    have hload : loadBody junk (.mk header fields) dst header.versionId
        ⟨saveFields header.versionId fields src ++ (vmstateSubsectionSave subs src ++ next), e⟩ =
          some (0, dst₁, ⟨vmstateSubsectionSave subs src ++ next, e₁⟩) := by
      rw [loadBody, if_neg (by omega), if_neg (by omega), h₁]
    have hstate : vmstateLoadState junk (.mk (.mk header fields) subs) dst header.versionId
        ⟨saveFields header.versionId fields src ++ (vmstateSubsectionSave subs src ++ next), e⟩ =
          if subs.isEmpty then some (0, dst₁, ⟨vmstateSubsectionSave subs src ++ next, e₁⟩)
          else subsectionLoop junk (loadNamed junk subs)
            ((vmstateSubsectionSave subs src ++ next).length + 1)
            dst₁ ⟨vmstateSubsectionSave subs src ++ next, e₁⟩ := by
      simp only [vmstateLoadState, hload, Option.bind_some, lt_irrefl, false_or]
    by_cases hempty : subs.isEmpty
    · obtain rfl := List.isEmpty_iff.mp hempty
      refine ⟨dst₁, e₁, ?_, hc₁, hagree, trivial⟩
      rw [vmstateSaveState, append_assoc]
      exact hstate
    · have hloop := restores_subsections junk subs (AgreeBody (.mk header fields)) [] src next
        (loadNamed junk subs) (fun src a b ha hc => AgreeBody.mono hc _ ha)
        (fun _ _ _ _ _ => rfl) hsubs hreadSubs (hnext (Bool.eq_false_iff.mpr hempty))
        ((vmstateSubsectionSave subs src ++ next).length + 1) (Nat.lt_succ_self _)
      obtain ⟨dst₂, e₂, h₂, hc₂, hfinal⟩ := hloop dst₁ e₁ hagree
      refine ⟨dst₂, e₂, ?_, hc₁.trans hc₂, AgreeBody.mono hc₂ _ hagree, hfinal⟩
      rw [vmstateSaveState, append_assoc]
      exact hstate.trans ((if_neg hempty).trans h₂)

theorem restores_fields (junk : ℕ → UInt8) (version : ℤ) :
    ∀ (fs : List VMStateField) (known : Device → Device → Prop) (src : Device) (next : List UInt8),
      (∀ src a b, known src a → Closer src a b → known src b) → WellFormedFields version known fs →
      ReadableFields version fs src next →
      Restores (loadFields junk version fs) src (saveFields version fs src) next (known src)
        (AgreeFields version fs src)
  | [], _, src, _, _, _, _ => fun dst e _ => ⟨dst, e, rfl, .refl src dst, trivial⟩
  | f :: fs, known, src, next, hknown, hwf, hr => by
    have hmono : ∀ src a b, known src a ∧ AgreeField version f src a → Closer src a b →
        known src b ∧ AgreeField version f src b :=
      fun src a b h hc => ⟨hknown src a b h.1 hc, AgreeField.mono hc f h.2⟩
    have hfield := (restores_field junk version f known src _ hwf.1 hr.1).frame (hknown src)
    have hrest := (restores_fields junk version fs _ src next hmono hwf.2 hr.2).frame (hmono src)
    intro dst e hpre
    obtain ⟨dst', e', heq, hc, hpost⟩ := (hfield.bind hrest) dst e hpre
    exact ⟨dst', e', heq, hc, hpost.1.2, hpost.2⟩

theorem restores_field (junk : ℕ → UInt8) (version : ℤ) :
    ∀ (f : VMStateField) (known : Device → Device → Prop) (src : Device) (next : List UInt8),
      WellFormedField version known f → ReadableField version f src next →
      Restores (loadField junk version f) src (saveField version f src) next (known src)
        (AgreeField version f src)
  | .value f info, known, src, next, hwf, hr => by
    intro dst e hpre
    have hloaded := hwf.loaded_eq hpre
    by_cases hsaved : f.saved src version = true
    · have helems := restores_elems src next (loadValue info (f.elemSize src).toNat)
        (fun x => info.put (x []) (f.elemSize src).toNat)
        (fun x dst => ∀ k < info.width (f.elemSize src).toNat, dst [] k = x [] k) f.key
        (fun x a b h hc k hk => hc.keep (h k hk)) (f.saveCount src).toNat 0
        (fun m j _ hm => restores_value ((hr hsaved).2.get j.zero_le hm))
      obtain ⟨dst', e', heq, hc, hpost⟩ := helems dst e trivial
      refine ⟨dst', e', ?_, hc, fun _ i hi => hpost i i.zero_le (by omega)⟩
      rw [loadField, saveField, hloaded, if_pos hsaved, if_pos hsaved, hwf.size src dst hpre hsaved,
        hwf.count src dst hpre hsaved, (hr hsaved).1]
      exact heq
    · refine ⟨dst, e, ?_, .refl src dst, fun h => absurd h hsaved⟩
      rw [loadField, saveField, hloaded, if_neg hsaved, if_neg hsaved]
      rfl
  | .struct f vmsd, known, src, next, hwf, hr => by
    intro dst e hpre
    have hloaded := hwf.1.loaded_eq hpre
    by_cases hsaved : f.saved src version = true
    · have helems := restores_elems src next
        (fun x => vmstateLoadState junk vmsd x (versionOf vmsd)) (vmstateSaveState vmsd)
        (Agree vmsd) f.key (fun x a b h hc => Agree.mono hc vmsd h) (f.saveCount src).toNat 0
        (fun m j _ hm => restores_state junk vmsd _ _ hwf.2 ((hr hsaved).2.get j.zero_le hm))
      obtain ⟨dst', e', heq, hc, hpost⟩ := helems dst e trivial
      refine ⟨dst', e', ?_, hc, fun _ i hi => hpost i i.zero_le (by omega)⟩
      rw [loadField, saveField, hloaded, if_pos hsaved, if_pos hsaved,
        hwf.1.count src dst hpre hsaved, (hr hsaved).1]
      exact heq
    · refine ⟨dst, e, ?_, .refl src dst, fun h => absurd h hsaved⟩
      rw [loadField, saveField, hloaded, if_neg hsaved, if_neg hsaved]
      rfl

theorem restores_subsections (junk : ℕ → UInt8) :
    ∀ (subs : List VMStateSubsection) (known : Device → Device →
      Prop) (names : List (List UInt8)) (src : Device) (next : List UInt8) (named :
        List UInt8 → ℤ → Device → Stream → Option Outcome),
      (∀ src a b, known src a → Closer src a b → known src b) →
      (∀ name v o s, name ∉ names → named name v o s = loadNamed junk subs name v o s) →
      WellFormedSubsections known subs → ReadableSubsections subs names src next →
      next.head? ≠ some 5 →
      ∀ fuel, (vmstateSubsectionSave subs src ++ next).length < fuel →
      Restores (subsectionLoop junk named fuel) src (vmstateSubsectionSave subs src)
        next (known src) (AgreeSubsections subs src)
  | [], _, _, src, next, named, _, _, _, _, hnext, fuel, hfuel => by
    obtain ⟨fuel, rfl⟩ := Nat.exists_eq_add_of_lt (Nat.zero_lt_of_lt hfuel)
    intro dst e _
    obtain ⟨e', heq⟩ := subsectionLoop_end junk named hnext (0 + fuel) dst e
    exact ⟨dst, e', heq, .refl src dst, trivial⟩
  | .mk needed (.mk header fields) :: subs, known, names, src, next, named, hknown, hnamed, hwf,
      hr, hnext, fuel,
      hfuel => by
    obtain ⟨hfields, hsubs⟩ := hwf
    have hmono : ∀ src' a b, known src' a ∧
        AgreeSubsection (.mk needed (.mk header fields)) src' a →
        Closer src' a b → known src' b ∧ AgreeSubsection (.mk needed (.mk header fields)) src' b :=
      fun src' a b h hc => ⟨hknown src' a b h.1 hc, AgreeSubsection.mono hc _ h.2⟩
    have hrest := fun fuel hfuel =>
        restores_subsections junk subs _ (header.name :: names) src next named hmono
      (fun name v o s hnew => (hnamed name v o s fun hmem => hnew (.tail _ hmem)).trans
        (if_neg fun heq : name = header.name => hnew (heq ▸ mem_cons_self))) hsubs hr.2
        hnext fuel hfuel
    by_cases hneeded : needed src = true
    · obtain ⟨hlen, hname, hnew, hnonneg, hversion, ⟨hmin, hold⟩, hreadFields⟩ := hr.1 hneeded
      have hbody := restores_fields junk header.versionId fields known src
        (vmstateSubsectionSave subs src ++ next) hknown hfields hreadFields
      obtain ⟨v, hv⟩ : ∃ v : ℕ, header.versionId = v := ⟨header.versionId.toNat, by omega⟩
      have hbytes : saveSubsection (.mk needed (.mk header fields)) src =
          5 :: UInt8.ofNat header.name.length :: header.name ++ beBytes 4 v ++
            saveFields header.versionId fields src := by
        have hmod : (header.versionId % 2 ^ 32).toNat = v := by omega
        simp only [saveSubsection, if_pos hneeded, hmod, cons_append, append_assoc,
          ← head_subsection_name hlen]
      obtain ⟨fuel, rfl⟩ := Nat.exists_eq_add_of_lt (Nat.zero_lt_of_lt hfuel)
      rw [vmstateSubsectionSave, hbytes] at hfuel ⊢
      intro dst e hpre
      obtain ⟨dst₁, e₁, h₁, hc₁, hagree⟩ := hbody dst e hpre
      obtain ⟨dst₂, e₂, h₂, hc₂, hpost⟩ := hrest (0 + fuel) (by
        simp only [length_append, length_cons] at hfuel ⊢
        omega) dst₁ e₁ ⟨hknown src dst dst₁ hpre hc₁, fun _ => hagree⟩
      refine ⟨dst₂, e₂, ?_, hc₁.trans hc₂, ⟨fun _ => AgreeFields.mono hc₂ fields hagree, hpost⟩⟩
      have hloaded : named header.name v dst
          ⟨saveFields header.versionId fields src ++ (vmstateSubsectionSave subs src ++ next), e⟩ =
            some (0, dst₁, ⟨vmstateSubsectionSave subs src ++ next, e₁⟩) := by
        rw [hnamed _ _ _ _ hnew, loadNamed, nameOfSubsection, if_pos rfl, loadSubsection,
          loadBody, ← hv,
          if_neg (by omega), if_neg (by omega), h₁]
      rw [append_assoc, append_assoc, subsectionLoop_head hlen hname (by omega), hloaded]
      exact h₂
    · have hnone : saveSubsection (.mk needed (.mk header fields)) src = [] := by
        simp only [saveSubsection, if_neg hneeded]
      rw [vmstateSubsectionSave, hnone, nil_append] at hfuel ⊢
      intro dst e hpre
      obtain ⟨dst', e', heq, hc, hpost⟩ := hrest fuel hfuel dst e ⟨hpre, fun h => absurd h hneeded⟩
      exact ⟨dst', e', heq, hc, fun h => absurd h hneeded, hpost⟩

end

/-- The layout of one element without flags. -/
def singleLayout (offset size : ℕ) : Layout :=
  ⟨none, 0, offset, size, 0, 0, 0, 0, false, false, false, false, false, false, false, false, false⟩

/-- `VMSTATE_SINGLE`: a number of `w` bytes at an offset. -/
def vmstateSingle (offset w : ℕ) : VMStateField := .value (singleLayout offset w) (infoInt w)

/-- `VMSTATE_BUFFER`. -/
def vmstateBuffer (offset size : ℕ) : VMStateField := .value (singleLayout offset size) infoBuffer

/-- `VMSTATE_UNUSED`. -/
def vmstateUnused (size : ℕ) : VMStateField := .value (singleLayout 0 size) infoUnusedBuffer

/-- `VMSTATE_VARRAY_UINT32`: bytes behind a pointer, as many as a `uint32_t` says. -/
def vmstateVarrayUint32 (offset numOffset : ℕ) : VMStateField :=
  .value { singleLayout offset 1 with
    numOffset := numOffset, pointer := true, varrayUint32 := true } (infoInt 1)

/-- A subsection of a name. -/
def vmstateNamed (needed : Bool) (name : UInt8) : VMStateSubsection :=
  .mk (fun _ => needed) (.mk ⟨[name], 1, 1, 1⟩ [])

/-- A `uint32_t` that counts the bytes behind a pointer, a buffer and unused bytes, with two
subsections of one name. -/
def countedBytes : VMStateDescription :=
  .mk (.mk ⟨[], 1, 1, 1⟩ [vmstateSingle 0 4, vmstateVarrayUint32 8 0, vmstateBuffer 16 2,
    vmstateUnused 3])
    [vmstateNamed false 97, vmstateNamed false 97]

/-- A device with `n` bytes. -/
def deviceOf (n : UInt8) : Device := fun q i => if q = [⟨0, none, 0, false⟩] ∧ i = 0 then n else 0

theorem hostNat_congr {c c' : ℕ → UInt8} {w : ℕ} (h : ∀ k < w, c k = c' k) :
    hostNat c w = hostNat c' w := by
  have hload : loadBytes c 0 w = loadBytes c' 0 w := by
    refine map_congr_left fun k hk => ?_
    rw [Nat.zero_add]
    exact h k (mem_range.mp hk)
  rw [hostNat, hostNat, hload]

theorem singleLayout_determined (offset size : ℕ) {version : ℤ} (h : 0 ≤ version)
    (known : Device → Device → Prop) :
    (singleLayout offset size).Determined version known := by
  refine ⟨h, nofun, fun _ _ _ _ => ?_, fun _ _ _ _ => ?_⟩
  · simp [Layout.elemSize, singleLayout]
  · simp [Layout.loadCount, singleLayout]

theorem readableField_single {info : VMStateInfo} {offset size : ℕ}
    (h : ∀ cell next, info.Carries cell ((singleLayout offset size).elemSize src).toNat next) :
    ReadableField version (.value (singleLayout offset size) info) src next :=
  fun _ => ⟨by simp [Layout.loadCount, Layout.saveCount, singleLayout], h _ _, trivial⟩

theorem countedBytes_wellFormed : WellFormed countedBytes := by
  have hone : (0 : ℤ) ≤ 1 := by decide
  refine ⟨⟨singleLayout_determined 0 4 hone _,
    ⟨hone, nofun, fun _ _ _ _ => ?_, fun src dst hknown _ => ?_⟩,
    singleLayout_determined 16 2 hone _, singleLayout_determined 0 3 hone _, trivial⟩, trivial,
    trivial, trivial⟩
  · simp [Layout.elemSize, singleLayout]
  · have hcell : ∀ k < 4, dst.cell 0 k = src.cell 0 k := hknown.2 rfl 0 Nat.one_pos
    simp [Layout.loadCount, singleLayout, hostNat_congr hcell]

end VariabilityTestbed.Migration
