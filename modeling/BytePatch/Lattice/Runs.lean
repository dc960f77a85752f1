import BytePatch.Fault
import BytePatch.Lattice.Step
/-!
Scripts put together step by step on the way back from the ends of both strings.
-/
namespace BytePatch

/-- The ops that are done, the latest first, and the run that still grows. Bytes are met last first,
so the latest of them stands in front where it belongs. -/
structure Runs where
  done : Script
  kind : Kind
  run : Nat
  bytes : Bytes
deriving DecidableEq

namespace Runs

def empty : Runs := ⟨[], .stop, 0, []⟩

/-- The op that the growing run makes. -/
def op (runs : Runs) : Op :=
  match runs.kind with
  | .delete => .delete runs.bytes
  | .insert => .insert runs.bytes
  | .stop | .copy => .copy runs.run

/-- The growing run is done, if it has begun. -/
def flush (runs : Runs) : Runs :=
  if runs.run = 0 then runs
  else { runs with done := runs.op :: runs.done, run := 0, bytes := [] }

/-- A run of another kind ends the one that grows. -/
def turn (kind : Kind) (runs : Runs) : Runs :=
  if kind = runs.kind then runs else { runs.flush with kind }

def step (kind : Kind) (byte? : Option UInt8) (runs : Runs) : Runs :=
  let runs := runs.turn kind
  { runs with run := runs.run + 1, bytes := byte?.toList ++ runs.bytes }

/-- Several bytes copied at once, as far as they can be counted. No memory holds the bytes of a
delete or an insert that could not. -/
def copyRun (count : Nat) (runs : Runs) : Except Fault Runs :=
  let runs := runs.turn .copy
  if runs.run + count < UInt64.size then .ok { runs with run := runs.run + count }
  else .error .overflow

/-- The ops in the order they were met, the last one of the script first. -/
def finish (runs : Runs) : Script := runs.flush.done.reverse

end Runs

end BytePatch
