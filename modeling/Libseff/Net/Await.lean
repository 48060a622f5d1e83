import Libseff.Foundation.SystemCalls
import Mathlib.Data.BitVec
import Mathlib.Tactic

/-!
# Awaiting a connection

`await_recv`, `await_send` and `await_send_all` of `utils/net.c`. Each tries the system call at
once, waits if there is nothing to do yet, and tries once more. They are programs whose calls are
those to the kernel and the accesses to the buffer, by the distance from its start; the connection
is an argument that they pass on and is left out. An `int` takes what it is given modulo `2 ^ 32`.
A program that reads an unset variable ends without a result.
-/

set_option autoImplicit false
set_option relaxedAutoImplicit false

namespace Libseff.Net

open Libseff.Foundation.SystemCalls

/-! ### Integers -/

/-- The conversion to `int`. -/
def asInt (value : ℤ) : ℤ := Int.bmod value (2 ^ 32)

/-- The conversion to `size_t`. -/
def asSize (value : ℤ) : ℕ := (value % 2 ^ 64).toNat

theorem asInt_eq_self {value : ℤ} (hlow : -2 ^ 31 ≤ value) (hhigh : value < 2 ^ 31) :
    asInt value = value := by
  unfold asInt
  exact Int.bmod_eq_of_le (by omega) (by omega)

theorem asSize_eq_toNat {value : ℤ} (hlow : 0 ≤ value) (hhigh : value < 2 ^ 64) :
    asSize value = value.toNat := by
  unfold asSize
  rw [Int.emod_eq_of_lt hlow hhigh]

/-! ### Calls -/

/-- `READ`, `WRITE` and `HANGUP` of `event_t`. -/
def READ : BitVec 16 := 0x1

def WRITE : BitVec 16 := 0x4

def HANGUP : BitVec 16 := 0x10

def EAGAIN : ℤ := 11

def EWOULDBLOCK : ℤ := 11

inductive Call where
  /-- `send(conn_fd, buffer + offset, length, MSG_DONTWAIT)` -/
  | send (offset : ℤ) (length : ℕ)
  /-- `recv(conn_fd, buffer, capacity, MSG_DONTWAIT)` -/
  | recv (capacity : ℕ)
  | errno
  /-- The wait of `scheff_poll`, up to the evaluation of `poll(&polls, 1, 0)` that is not 0. If it
  fails, `revents` counts as unset, even after an evaluation to 0 has cleared it. -/
  | poll (events : BitVec 16)
  /-- `buffer[index] = byte` -/
  | store (index : ℤ) (byte : UInt8)
  /-- The caller reads the beginning of the buffer. -/
  | load (length : ℤ)
  deriving DecidableEq

/-- What a call gives. A `recv` that does not fail has stored its bytes, and a `poll` that fails
leaves `revents` unset. -/
@[reducible]
def Answer : Call → Type
  | .send _ _ => ℤ
  | .recv _ => Option (List UInt8)
  | .errno => ℤ
  | .poll _ => Option (BitVec 16)
  | .store _ _ => Unit
  | .load _ => List UInt8

/-- The result of `recv`. -/
def received : Option (List UInt8) → ℤ
  | none => -1
  | some bytes => bytes.length

/-- An `int` counts the bytes that are delivered. -/
def Counted {Event : Type} : Label Call Answer Event → Prop
  | .answer (.recv _) (some bytes) => bytes.length < 2 ^ 31
  | _ => True

/-- Assumes: an `int` counts the bytes. Their number is what the call gives. -/
theorem asInt_received {bytes : List UInt8} (hcounted : bytes.length < 2 ^ 31) :
    asInt (received (some bytes)) = bytes.length :=
  asInt_eq_self (by rw [received]; omega) (by rw [received]; omega)

/-! ### Buffers -/

/-- The bytes at the distances from the start of a buffer. -/
abbrev Buffer := ℤ → UInt8

/-- Bytes are stored from the start on. -/
def fill (buffer : Buffer) (bytes : List UInt8) : Buffer := fun index ↦
  if 0 ≤ index ∧ index < bytes.length then bytes.getD index.toNat 0 else buffer index

theorem fill_of_lt (buffer : Buffer) {bytes : List UInt8} {index : ℕ}
    (hindex : index < bytes.length) : fill buffer bytes index = bytes[index] := by
  rw [fill, if_pos ⟨Int.natCast_nonneg index, by exact_mod_cast hindex⟩, Int.toNat_natCast,
    List.getD_eq_getElem?_getD, List.getElem?_eq_getElem hindex, Option.getD_some]

theorem fill_length (buffer : Buffer) (bytes : List UInt8) :
    fill buffer bytes bytes.length = buffer bytes.length :=
  if_neg fun h ↦ lt_irrefl _ h.2

/-! ### Functions -/

/-- `poll_await`, with no result if `revents` is unset. -/
def pollAwait (awaitingEvents : BitVec 16) : Program Call Answer (Option (BitVec 16)) :=
  ask Answer (.poll awaitingEvents)

def awaitRecv (bufsz : ℕ) : Program Call Answer (Option ℤ) := do
  let nRead := asInt (received (← ask Answer (.recv bufsz)))
  if nRead ≥ 0 then
    ask Answer (.store nRead 0)
    return some nRead
  else
    let err ← ask Answer .errno
    if err ≠ EAGAIN ∧ err ≠ EWOULDBLOCK then
      return some nRead
    else
      match ← pollAwait READ with
      | none => return none
      | some revents =>
        if HANGUP &&& revents ≠ 0 then
          return some 0
        else if READ &&& revents = 0 then
          return some (-1)
        else
          return some (asInt (received (← ask Answer (.recv bufsz))))

def awaitSend (offset : ℤ) (bufsz : ℕ) : Program Call Answer (Option ℤ) := do
  let nRead := asInt (← ask Answer (.send offset bufsz))
  if nRead ≥ 0 then
    return some nRead
  else
    let err ← ask Answer .errno
    if err ≠ EAGAIN ∧ err ≠ EWOULDBLOCK then
      return some nRead
    else
      match ← pollAwait WRITE with
      | none => return none
      | some revents =>
        if HANGUP &&& revents ≠ 0 then
          return some 0
        else if WRITE &&& revents = 0 then
          return some (-1)
        else
          return some (asInt (← ask Answer (.send offset bufsz)))

/-- The variables of `await_send_all`. The last one is unset at the start. -/
structure Sending where
  total : ℤ
  bytesleft : ℤ
  n : Option ℤ

/-- The variables before the loop. -/
def Sending.start (bufsz : ℕ) : Sending := ⟨0, asInt bufsz, none⟩

/-- A round of the loop of `await_send_all`, or what comes after the loop. -/
def awaitSendAll (bufsz : ℕ) : Loop Call Answer Sending (Option ℤ) := fun locals ↦
  if asSize locals.total < bufsz then do
    match ← awaitSend locals.total (asSize locals.bytesleft) with
    | none => return .inr none
    | some n =>
      if n = -1 then
        return .inr (some (-1))
      else
        return .inl ⟨asInt (locals.total + n), asInt (locals.bytesleft - n), some n⟩
  else
    return .inr (locals.n.map fun n ↦ if n = -1 then -1 else locals.total)

end Libseff.Net
