import BytePatch.Config
/-!
Diffs computed, applied and undone, as queues of ops and as bytes.
-/
namespace BytePatch

/-- Settings that have been checked, the schedule of the pool that works under them, whose threads are
taken to start, and what divides strings if that is the method. -/
structure Differ where
  config : Config
  early : Nat → Bool
  divider : Divider := .myers

namespace Differ

def new (config : Config) (early : Nat → Bool) (divider : Divider := .myers) :
    Except Fault Differ :=
  match config.validate with
  | .error fault => .error fault
  | .ok () => .ok ⟨config, early, divider⟩

def pipeline (differ : Differ) : Pipeline := differ.config.pipeline differ.divider

/-- There is one pool at most, so it does not matter which stage its schedule is for. -/
def crews (differ : Differ) (_ : Nat) : Crew := .ok differ.early

/-- The ops that turn one string into another. -/
def diff (differ : Differ) (orig target : Bytes) : Except Fault Queue :=
  differ.pipeline.build differ.crews (.ofSource (.replacing orig target))

/-- The same for two streams, compared chunk by chunk as they are read. -/
def diffStreams (differ : Differ) (orig target : Reader) : Except Fault Queue :=
  differ.pipeline.build differ.crews
    (.ofSource (.comparing orig target differ.config.chunkSize))

/-- The encoded ops that turn one string into another. -/
def compute (differ : Differ) (orig target : Bytes) : Except Fault Bytes :=
  match differ.diff orig target with
  | .error fault => .error fault
  | .ok queue => queue.encode.1

end Differ

/-- Everything a queue writes when it is replayed on a string. -/
def Queue.replayOn (base : Bytes) (queue : Queue) : Except Fault Bytes :=
  match queue.apply (.ofBytes base) .unbounded with
  | (.error fault, _, _) => .error fault
  | (.ok (), replay, _) => .ok replay.sink.written

/-- What an encoded diff makes of a string. -/
def applyDiff (base diff : Bytes) : Except Fault Bytes :=
  (Queue.ofSource (.decoding diff)).replayOn base

/-- The string that an encoded diff made the given one of. -/
def undoDiff (base diff : Bytes) : Except Fault Bytes :=
  ((Queue.ofSource (.decoding diff)).under .undo).replayOn base

/-- The ops that turn one string into another under default settings. -/
def diff (orig target : Bytes) : Except Fault Queue :=
  Differ.diff ⟨.default, Pool.lazy, .myers⟩ orig target

/-- Replay what takes a queue back. -/
def undo (queue : Queue) (target : Reader) (orig : Sink) :
    Except Fault Unit × Queue.Replay × Queue :=
  (queue.under .undo).apply target orig

end BytePatch
