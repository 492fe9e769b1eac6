import Mathlib.Data.List.Basic

/-!
# The elements of the log buffer

An element is a message, or the count of the messages that were dropped for its uid, pid and
tid: then its message is gone, and the field for the length holds the count. The text of a
message is of no account here, so it is of any type `μ`.
-/
namespace SystemCore.Logd

inductive LogId where
  | main
  | radio
  | events
  | system
  | crash
  | kernel
  deriving DecidableEq, Repr

/-- The `log_id_t` values below `LOG_ID_MAX`. -/
def LogId.ofInt : Int → Option LogId
  | 0 => some .main
  | 1 => some .radio
  | 2 => some .events
  | 3 => some .system
  | 4 => some .crash
  | 5 => some .kernel
  | _ => none

def LogId.toNat : LogId → Nat
  | .main => 0
  | .radio => 1
  | .events => 2
  | .system => 3
  | .crash => 4
  | .kernel => 5

def worstUidEnabledForLogid (id : LogId) : Bool :=
  id ≠ .crash ∧ id ≠ .kernel ∧ id ≠ .events

/-! ## Times -/

structure LogTime where
  tvSec : UInt32
  tvNsec : UInt32
  deriving DecidableEq, Repr

namespace LogTime

def lt (a b : LogTime) : Prop :=
  a.tvSec < b.tvSec ∨ a.tvSec = b.tvSec ∧ a.tvNsec < b.tvNsec

instance (a b : LogTime) : Decidable (lt a b) := inferInstanceAs (Decidable (_ ∨ _))

/-- `operator<=` is the negation of `operator>`. -/
def le (a b : LogTime) : Prop := ¬ lt b a

instance (a b : LogTime) : Decidable (le a b) := inferInstanceAs (Decidable (¬ _))

def EPOCH : LogTime := ⟨0, 0⟩

/-- `operator-`: there is no negative time. -/
def sub (a t : LogTime) : LogTime :=
  if le a t then EPOCH
  else if a.tvNsec < t.tvNsec then
    ⟨a.tvSec - 1 - t.tvSec, 1000000000 + a.tvNsec - t.tvNsec⟩
  else ⟨a.tvSec - t.tvSec, a.tvNsec - t.tvNsec⟩

def nsec (a : LogTime) : UInt64 := a.tvSec.toUInt64 * 1000000000 + a.tvNsec.toUInt64

end LogTime

/-- Expire chatty logs only when younger than this: `EXPIRE_HOUR_THRESHOLD` hours. -/
def tooOld : LogTime := ⟨24 * 60 * 60, 0⟩

def EXPIRE_THRESHOLD : UInt16 := 10

/-- `EXPIRE_RATELIMIT` seconds in nanoseconds. -/
def expireRatelimit : UInt64 := 10 * 1000000000

/-! ## Elements -/

/-- An element, with the address of the object. Its list node has the same address. -/
structure LogBufferElement (μ : Type) where
  addr : Nat
  mLogId : LogId
  mUid : UInt32
  mPid : Int32
  mTid : Int32
  mMsg : Option μ
  /-- The union of `mMsgLen` and `mDropped`. -/
  mLenOrDropped : UInt16
  mSequence : Nat
  mRealTime : LogTime
  deriving DecidableEq, Repr

/-- `LogBufferElementKey`: the ids cut down to 16 bits. -/
structure ElementKey where
  uid : UInt16
  pid : UInt16
  tid : UInt16
  deriving DecidableEq, Repr

namespace LogBufferElement

variable {μ : Type} (value : UInt16)

def getDropped (e : LogBufferElement μ) : UInt16 :=
  if e.mMsg.isSome then 0 else e.mLenOrDropped

def setDropped (value : UInt16) (e : LogBufferElement μ) : LogBufferElement μ :=
  { e with mMsg := none, mLenOrDropped := value }

def getMsgLen (e : LogBufferElement μ) : UInt16 :=
  if e.mMsg.isSome then e.mLenOrDropped else 0

def key (e : LogBufferElement μ) : ElementKey :=
  ⟨e.mUid.toUInt16, e.mPid.toUInt32.toUInt16, e.mTid.toUInt32.toUInt16⟩

@[simp] theorem getDropped_setDropped (e : LogBufferElement μ) :
    (e.setDropped value).getDropped = value := rfl

@[simp] theorem getMsgLen_setDropped (e : LogBufferElement μ) :
    (e.setDropped value).getMsgLen = 0 := rfl

@[simp, grind =] theorem addr_setDropped (e : LogBufferElement μ) :
    (e.setDropped value).addr = e.addr := rfl

@[simp, grind =] theorem mLogId_setDropped (e : LogBufferElement μ) :
    (e.setDropped value).mLogId = e.mLogId := rfl

@[simp, grind =] theorem mUid_setDropped (e : LogBufferElement μ) :
    (e.setDropped value).mUid = e.mUid := rfl

variable {e : LogBufferElement μ}

theorem getMsgLen_of_none (h : e.mMsg = none) : e.getMsgLen = 0 := by
  unfold getMsgLen
  rw [h]
  rfl

theorem getDropped_of_isSome (h : e.mMsg.isSome = true) : e.getDropped = 0 :=
  if_pos h

theorem mMsg_eq_none_of_getDropped (h : e.getDropped ≠ 0) : e.mMsg = none := by
  by_contra hne
  exact h (getDropped_of_isSome (Option.isSome_iff_ne_none.mpr hne))

end LogBufferElement

end SystemCore.Logd
