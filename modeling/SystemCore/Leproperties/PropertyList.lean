import SystemCore.Lib.Ascii
import SystemCore.Lib.Lines

/-!
# The list of properties

The list that the property service keeps. Names and values are in buffers of fixed size, and
the list holds each value with a newline behind it. The functions take the contents of the
buffers, up to the terminator where there is one.
-/
namespace SystemCore.Leproperties

open Lib

def PROP_NAME_MAX : Nat := 64

def PROP_VALUE_MAX : Nat := 92

def MAX_ALLOWED_LINE_LEN : Nat := PROP_NAME_MAX + PROP_VALUE_MAX + 1

/-- The character between the name and the value. -/
def delimiter : UInt8 := 61

def newline : UInt8 := 10

def roPrefix : List UInt8 := ascii "ro."

def persistPrefix : List UInt8 := ascii "persist."

/-- What `strlcpy` leaves in a destination of this size, which is not 0. -/
def strlcpy (size : Nat) (src : List UInt8) : List UInt8 := src.take (size - 1)

structure PropertyUnit where
  propertyName : List UInt8
  propertyValue : List UInt8
  deriving DecidableEq, Repr

/-- The name as a string. A name that fills its buffer has no terminator, and the string goes
on in the next field. The value is followed by a field that is 0. -/
def PropertyUnit.nameString (u : PropertyUnit) : List UInt8 :=
  if u.propertyName.length < PROP_NAME_MAX then u.propertyName
  else u.propertyName ++ u.propertyValue

def isReadOnly (name : List UInt8) : Bool := roPrefix.isPrefixOf name

def isPersist (name : List UInt8) : Bool := persistPrefix.isPrefixOf name

abbrev PropertyDb := List PropertyUnit

namespace PropertyDb

def listMatchesPropName (searchName : List UInt8) (db : PropertyDb) : Option PropertyUnit :=
  db.find? fun u => u.nameString = searchName

def setValue (name value : List UInt8) : PropertyDb → PropertyDb
  | [] => []
  | u :: db =>
    if u.nameString = name then { u with propertyValue := value } :: db
    else u :: setValue name value db

def listAdd (u : PropertyUnit) (db : PropertyDb) : PropertyDb :=
  match db with
  | [] => [u]
  | _ :: _ =>
    match listMatchesPropName u.nameString db with
    | none => db ++ [u]
    | some _ => setValue u.nameString (strlcpy PROP_VALUE_MAX u.propertyValue) db

def createListAndAdd (searchName propertyValue : List UInt8) (db : PropertyDb) : PropertyDb :=
  listAdd ⟨strlcpy PROP_NAME_MAX searchName, strlcpy PROP_VALUE_MAX propertyValue⟩ db

/-- The buffer with the newline in the place of the terminator. With the longest value there is
no terminator behind it. -/
def withNewline (value : List UInt8) : List UInt8 := strlcpy PROP_VALUE_MAX value ++ [newline]

def updatePropValue (searchName value : List UInt8) (db : PropertyDb) : PropertyDb :=
  match listMatchesPropName searchName db with
  | some _ =>
    if isReadOnly searchName then db
    else setValue searchName (strlcpy PROP_VALUE_MAX (withNewline value)) db
  | none => createListAndAdd searchName (withNewline value) db

/-- The value that is left in the caller's buffer, which had `value`. The last character is
not copied, and with nothing to copy the buffer stays as it was. -/
def retrivePropValue (searchName value : List UInt8) (db : PropertyDb) : List UInt8 :=
  match listMatchesPropName searchName db with
  | none => value
  | some u =>
    let propertyValue := strlcpy PROP_VALUE_MAX u.propertyValue
    if propertyValue = [] then value else strlcpy propertyValue.length propertyValue

/-- One line of the file. -/
def stringToWrite (u : PropertyUnit) : List UInt8 :=
  (u.nameString ++ delimiter :: u.propertyValue).take (MAX_ALLOWED_LINE_LEN - 1)

/-- What `__save_persist_nodes_to_file` writes. -/
def savePersistNodesToFile (db : PropertyDb) : List UInt8 :=
  ((db.filter fun u => isPersist u.nameString).map stringToWrite).flatten

end PropertyDb

end SystemCore.Leproperties
