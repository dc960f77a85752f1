import BytePatch.Fault
/-!
Places to write bytes to, some of which hold only so many.
-/
namespace BytePatch

/-- `room? = none` is room without end. -/
structure Sink where
  written : Bytes
  room? : Option Nat
deriving DecidableEq

namespace Sink

def unbounded : Sink := ⟨[], none⟩

/-- A write that does not fit fills the room there is before it fails. -/
def write (bytes : Bytes) (sink : Sink) : Except IoFault Unit × Sink :=
  match sink.room? with
  | none => (.ok (), { sink with written := sink.written ++ bytes })
  | some room =>
    if bytes.length ≤ room then
      (.ok (), ⟨sink.written ++ bytes, some (room - bytes.length)⟩)
    else (.error .unwritten, ⟨sink.written ++ bytes.take room, some 0⟩)

theorem write_unbounded (bytes out : Bytes) :
    write bytes ⟨out, none⟩ = (.ok (), ⟨out ++ bytes, none⟩) := rfl

end Sink

end BytePatch
