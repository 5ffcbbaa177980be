import Henson.Library.MachineInt
import Henson.Serialization.MemoryBuffer

/-!
# Buffers as messages

A buffer is sent as so many bytes, by an `int` count, and received into a new
buffer of the size that was probed for.
-/

namespace Henson

open MachineInt

namespace MemoryBuffer

/-- `MPI_Send(bb.data(), bb.size(), MPI_BYTE, ...)`; a negative count is an error. -/
def send (bb : MemoryBuffer) : Option (List Byte) :=
  let count := (toInt32 bb.size).toInt
  if 0 ≤ count then some (bb.buffer.take count.toNat) else none

/-- `bb.buffer.resize(count)` and `MPI_Recv`, for a message that was probed for. -/
def recv (message : List Byte) : MemoryBuffer := { buffer := message }

theorem send_of_lt {bb : MemoryBuffer} (h : bb.size < 2 ^ 31) : bb.send = some bb.buffer := by
  have hCount : (toInt32 bb.size).toInt = bb.size := by
    rw [toInt_toInt32, Int.bmod_def]
    omega
  rw [send]
  simp only [hCount]
  rw [if_pos (Int.natCast_nonneg bb.size), Int.toNat_natCast]
  exact congrArg some (List.take_of_length_le (Nat.le_refl _))

theorem send_eq_none {bb : MemoryBuffer} (hLow : 2 ^ 31 ≤ bb.size) (hHigh : bb.size < 2 ^ 32) :
    bb.send = none := by
  have hCount : (toInt32 bb.size).toInt = bb.size - 2 ^ 32 := by
    rw [toInt_toInt32, Int.bmod_def]
    omega
  rw [send]
  simp only [hCount]
  rw [if_neg (by omega)]

end MemoryBuffer

end Henson
