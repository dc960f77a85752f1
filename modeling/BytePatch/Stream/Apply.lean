import BytePatch.Script
import BytePatch.Stream.Reader
import BytePatch.Stream.Sink
/-!
Ops replayed from a stream into a sink, with everything that was written before a failure kept.
-/
namespace BytePatch.Op

/-- Reading came short of a run because the stream failed, or because it ended. -/
def shortfall? (run : Nat) (taken : Reader.Taken) : Option IoFault :=
  match taken.failure? with
  | some failure => some failure
  | none => if taken.bytes.length = run then none else some (.endedAfter taken.bytes.length run)

private def outcome : Option IoFault → Except Fault Unit
  | none => .ok ()
  | some cause => .error (.io cause)

/-- A copy writes what it read even when that is less than its run, so a sink that is full by
then is noticed first. -/
def apply (op : Op) (orig : Reader) (sink : Sink) : Except Fault Unit × Reader × Sink :=
  match op with
  | .copy run =>
    let taken := orig.take run
    match sink.write taken.bytes with
    | (.error cause, sink) => (.error (.io cause), taken.rest, sink)
    | (.ok (), sink) => (outcome (shortfall? run taken), taken.rest, sink)
  | .skip run => passing run
  | .delete bytes => passing bytes.length
  | .insert bytes =>
    match sink.write bytes with
    | (.error cause, sink) => (.error (.io cause), orig, sink)
    | (.ok (), sink) => (.ok (), orig, sink)
where
  passing (run : Nat) : Except Fault Unit × Reader × Sink :=
    let taken := orig.take run
    (outcome (shortfall? run taken), taken.rest, sink)

end BytePatch.Op
