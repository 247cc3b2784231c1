import Mathlib.Algebra.Ring.Nat
import VariabilityTestbed.Lib.Runs

/-!
# Physical pages

What the program knows about a physical page is one number, `phys_offset`: its low bits say whether
the page is RAM, ROM or an entry of the table of I/O handlers, and its high bits say where RAM and
ROM are.

The number is kept as a number here, with the low bits taken out by `%`, because the code passes it
around and adds to it without looking at what it means.
-/

namespace VariabilityTestbed.Memory

/-- `TARGET_PAGE_SIZE`. -/
def targetPageSize : ℕ := 1024

/-- `IO_MEM_ROM`. -/
def ioMemRom : ℕ := 8

/-- `IO_MEM_UNASSIGNED`. -/
def ioMemUnassigned : ℕ := 16

/-- `pd & ~TARGET_PAGE_MASK`. -/
def ioType (pd : ℕ) : ℕ := pd % targetPageSize

/-- `pd & IO_MEM_ROMD`: read like ROM, written like a device. -/
def isRomd (pd : ℕ) : Bool := pd % 2 = 1

/-- `IO_MEM_NB_ENTRIES`. -/
def ioMemNbEntries : ℕ := 128

/-- `(pd >> IO_MEM_SHIFT) & (IO_MEM_NB_ENTRIES - 1)`. -/
def ioIndex (pd : ℕ) : ℕ := pd / 8 % ioMemNbEntries

/-- A `PhysPageDesc`. -/
structure PhysPageDesc where
  physOffset : ℕ
  regionOffset : ℕ
  deriving DecidableEq, Repr

end VariabilityTestbed.Memory
