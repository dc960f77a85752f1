import BytePatch.Kind
import BytePatch.Wire.Opcode
import BytePatch.Text.Quoted
/-!
Everything that can go wrong, by cause, and the one place where causes are worded.
-/
namespace BytePatch

/-- Why a kind, a run and a payload do not make an op. -/
inductive InvalidOp where
  | sentinel
  | zeroRun (kind : Kind)
  | insertWithoutPayload
  | copyWithPayload
  | payloadLength (kind : Kind) (bytes run : Nat)
deriving DecidableEq

/-- Why bytes are not an encoded script. -/
inductive BadFormat where
  | missingEnd
  | unknownOpcode (byte : UInt8)
  | truncatedRun
  | runOverflow
  | zeroRun (code : Opcode)
  | shortPayload (code : Opcode) (run left : Nat)
  | afterEnd (count : Nat)
deriving DecidableEq

/-- Failures of the byte streams a script is read from, replayed on and written to. -/
inductive IoFault where
  | endedAfter (read wanted : Nat)
  | unfilled
  | unwritten
  | device (reason : String)
deriving DecidableEq

/-- Calls that come too early or too late. -/
inductive IllegalState where
  | decodeFailed
  | scriptBeforeCompute
  | costBeforeCompute
  | poolClosed
deriving DecidableEq

/-- Sources that hand out ops of their own and take none. -/
inductive ReadOnly where
  | list
  | comparison
  | streams
  | encoded
deriving DecidableEq

inductive BadConfig where
  | zeroChunk
  | noWorkers
  | nothingToRewind
  | zeroChunkSize
  | zeroWorkers
  | malformed
deriving DecidableEq

inductive Fault where
  | capacityExceeded (required capacity : Nat)
  | illegalState (cause : IllegalState)
  | offerUnsupported (source : ReadOnly)
  | missingDeletePayload (run : Nat)
  | invalidOp (cause : InvalidOp)
  | unknownStage (code : Char)
  | io (cause : IoFault)
  | cancelled
  | invalidFormat (cause : BadFormat)
  | config (cause : BadConfig)
  /-- A count does not fit into 64 bits. -/
  | overflow
deriving DecidableEq

def InvalidOp.message : InvalidOp → String
  | .sentinel => "STOP is a sentinel"
  | .zeroRun kind => s!"{kind.name} with zero run"
  | .insertWithoutPayload => "INSERT requires a payload"
  | .copyWithPayload => "COPY cannot carry a payload"
  | .payloadLength kind bytes run => s!"{kind.name} payload of {bytes} bytes for run {run}"

/-- Two lower-case hexadecimal digits. -/
private def hexByte (byte : UInt8) : String :=
  String.ofList [Nat.digitChar (byte.toNat / 16), Nat.digitChar (byte.toNat % 16)]

def BadFormat.message : BadFormat → String
  | .missingEnd => "missing end marker"
  | .unknownOpcode byte => s!"Unknown opcode: 0x{hexByte byte}"
  | .truncatedRun => "truncated run length"
  | .runOverflow => "run length overflows 64 bits"
  | .zeroRun code => s!"{code.name} with zero run"
  | .shortPayload code run left => s!"{code.name} needs {run} payload bytes, {left} left"
  | .afterEnd count => s!"{count} bytes after end marker"

def IoFault.message : IoFault → String
  | .endedAfter read wanted => s!"original ended after {read} of {wanted} bytes"
  | .unfilled => "failed to fill whole buffer"
  | .unwritten => "failed to write whole buffer"
  | .device reason => reason

def IllegalState.message : IllegalState → String
  | .decodeFailed => "encoded script already failed to decode"
  | .scriptBeforeCompute => "script requested before compute"
  | .costBeforeCompute => "cost requested before compute"
  | .poolClosed => "offer after the graph pool shut down"

def ReadOnly.message : ReadOnly → String
  | .list => "offer on a list-backed queue"
  | .comparison => "offer on a byte comparison queue"
  | .streams => "offer on a stream comparison queue"
  | .encoded => "offer on an encoded script"

def BadConfig.message : BadConfig → String
  | .zeroChunk => "chunk size must be at least 1"
  | .noWorkers => "graph pool needs at least one worker"
  | .nothingToRewind => "rewind stage needs an original byte source"
  | .zeroChunkSize => "chunk_size must be at least 1"
  | .zeroWorkers => "workers must be at least 1"
  | .malformed => "not a configuration"

def Fault.message : Fault → String
  | .capacityExceeded required capacity =>
    s!"Graph capacity exceeded: {required} cells (capacity: {capacity})"
  | .illegalState cause => s!"Illegal state: {cause.message}"
  | .offerUnsupported source => s!"Unsupported operation: {source.message}"
  | .missingDeletePayload run => s!"Cannot undo a DELETE of {run} bytes without payload"
  | .invalidOp cause => s!"Invalid op: {cause.message}"
  | .unknownStage code => s!"Unknown pipeline stage: {Text.quoted code}"
  | .io cause => s!"I/O error: {cause.message}"
  | .cancelled => "Cancelled"
  | .invalidFormat cause => s!"Invalid diff format: {cause.message}"
  | .config cause => s!"Invalid configuration: {cause.message}"
  | .overflow => "arithmetic overflow"

end BytePatch
