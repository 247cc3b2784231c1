import Mathlib.Data.Nat.Notation
import VariabilityTestbed.QDict

/-!
# QObjects

The dynamically typed values of `qobject.h`, which configuration files are parsed into and which
monitor commands answer with.

A `QDict` is kept here as the list of its entries, in the order in which `qdict_first` and
`qdict_next` visit them.

A `NULL` pointer or a failed assertion is `none`.
-/

namespace VariabilityTestbed

/-- A reference to a `QObject`. A `QFloat` is kept as the bits of its `double`. -/
inductive QObject where
  | qint (value : Int64)
  | qstring (string : String)
  | qdict (entries : List (String × QObject))
  | qlist (elems : List QObject)
  | qfloat (bits : UInt64)
  | qbool (value : Bool)

namespace QObject

/-- The entries of a dictionary, in iteration order. -/
abbrev QDict : Type := List (String × QObject)

/-- `qobject_to_qdict`. -/
def toQDict : QObject → Option QDict
  | .qdict d => some d
  | _ => none

/-- `qobject_to_qlist`. -/
def toQList : QObject → Option (List QObject)
  | .qlist l => some l
  | _ => none

/-- `qstring_get_str (qobject_to_qstring obj)`; the dereference needs a string. -/
def getStr : QObject → Option String
  | .qstring s => some s
  | _ => none

/-- `qint_get_int (qobject_to_qint obj)`; the dereference needs an integer. -/
def getInt : QObject → Option Int64
  | .qint v => some v
  | _ => none

/-- `qdict_get`. -/
def qdictGet (d : QDict) (key : String) : Option QObject := QDict.getEntry d key

/-- `qdict_haskey`. -/
def qdictHaskey (d : QDict) (key : String) : Bool := d.any fun e => e.1 == key

/-- `qdict_size`: `size` is incremented with each entry that is allocated. -/
def qdictSize (d : QDict) : ℕ := d.length

/-- `qdict_get_int`, with the assertions of `qdict_get_obj`. -/
def qdictGetInt (d : QDict) (key : String) : Option Int64 := (qdictGet d key).bind getInt

/-- `qdict_get_str`, with the assertions of `qdict_get_obj`. -/
def qdictGetStr (d : QDict) (key : String) : Option String := (qdictGet d key).bind getStr

/-- `qdict_put_obj`. -/
def qdictPutObj (d : QDict) (key : String) (value : QObject) : QDict :=
  QDict.putEntry (fun name => name.toUTF8.toList) d key value

/-! ### A dictionary is a map -/

theorem qdictGet_put (d : QDict) (key key' : String) (value : QObject) :
    qdictGet (qdictPutObj d key value) key' =
      if key = key' then some value else qdictGet d key' := QDict.getEntry_putEntry ..

@[simp] theorem qdictGet_put_self (d : QDict) (key : String) (value : QObject) :
    qdictGet (qdictPutObj d key value) key = some value := by
  rw [qdictGet_put, if_pos rfl]

theorem qdictGet_put_of_ne {key key' : String} (h : key ≠ key') (d : QDict) (value : QObject) :
    qdictGet (qdictPutObj d key value) key' = qdictGet d key' := by
  rw [qdictGet_put, if_neg h]

end QObject

end VariabilityTestbed
