import Mathlib
import SystemCore.Leproperties.PropertyList

/-!
# The property service and its client

A client sends a message with a name and a value, the service parses it and works on the list.
Properties with the persist prefix are also kept in a file, which is read back with the same
parser. A message reaches the service as it was sent, and the file can be read and written.
-/
namespace SystemCore.Leproperties

open Lib Lib.Lines

def PROP_MSG_GETPROP : UInt8 := 48

def PROP_MSG_SETPROP : UInt8 := 49

/-! ## The service -/

/-- The list, `persist_storage_ready`, and the contents of the persist file. -/
structure Service where
  db : PropertyDb
  persistStorageReady : Bool
  file : List UInt8
  deriving DecidableEq, Repr

/-- A line without a delimiter gives a node with neither name nor value. -/
def pullOneLineData (line : List UInt8) : PropertyUnit :=
  match cut delimiter line with
  | none => ⟨[], []⟩
  | some (name, value) => ⟨name.take PROP_NAME_MAX, value.take PROP_VALUE_MAX⟩

def enableName : List UInt8 := ascii "le.persistprop.enable"

def enableValue : List UInt8 := ascii "true"

namespace Service

def searchAndAddPropertyVal (file : List UInt8) (db : PropertyDb) : PropertyDb :=
  (readLines newline (MAX_ALLOWED_LINE_LEN - 1) [] file).foldl
    (fun db line => db.listAdd (pullOneLineData line)) db

def loadPersistProperties (s : Service) : Service :=
  { s with db := searchAndAddPropertyVal s.file s.db, persistStorageReady := true }

def savePersistDsToFile (s : Service) : Service := { s with file := s.db.savePersistNodesToFile }

def setNode (u : PropertyUnit) (s : Service) : Service :=
  let s := { s with db := s.db.updatePropValue u.nameString u.propertyValue }
  let s :=
    if u.nameString = enableName ∧ u.propertyValue = enableValue then
      s.loadPersistProperties.savePersistDsToFile
    else s
  if s.persistStorageReady = true ∧ isPersist u.nameString = true then s.savePersistDsToFile else s

def processSetpropMsg (buff : List UInt8) (s : Service) : Service :=
  s.setNode (pullOneLineData buff.tail)

/-- The answer to a get message, with the parsed name. -/
def processGetpropMsg (buff : List UInt8) (s : Service) : PropertyUnit :=
  let u := pullOneLineData buff.tail
  { u with propertyValue := s.db.retrivePropValue u.nameString u.propertyValue }

/-! ## The client -/

def setMessage (propName propVal : List UInt8) : List UInt8 :=
  (PROP_MSG_SETPROP :: propName ++ delimiter :: propVal).take MAX_ALLOWED_LINE_LEN

def propertySet (key value : List UInt8) (s : Service) : Service :=
  if key.length ≥ PROP_NAME_MAX then s
  else if value.length ≥ PROP_VALUE_MAX then s
  else s.processSetpropMsg (setMessage key value)

def getMessage (propName : List UInt8) : List UInt8 :=
  (PROP_MSG_GETPROP :: propName ++ [delimiter]).take MAX_ALLOWED_LINE_LEN

def response (u : PropertyUnit) : List UInt8 :=
  (PROP_MSG_GETPROP :: u.nameString ++ delimiter :: u.propertyValue).take MAX_ALLOWED_LINE_LEN

/-- `property_get` without a default. `none` is a property that is not there, or has no
value. -/
def propertyGet (key : List UInt8) (s : Service) : Option (List UInt8) :=
  match cut delimiter (response (s.processGetpropMsg (getMessage key))).tail with
  | none => none
  | some (_, value) => if value = [] then none else some (strlcpy PROP_VALUE_MAX value)

end Service

end SystemCore.Leproperties
