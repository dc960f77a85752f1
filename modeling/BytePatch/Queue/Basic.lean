import BytePatch.Queue.Source
import BytePatch.Queue.Stack
/-!
Queues: a source under any number of layers, seen from the top.
-/
namespace BytePatch

namespace Source

def base : Base Source := { feed with offer }

end Source

structure Queue where
  depth : Nat
  stack : Stack Source depth

namespace Queue

def ofSource (source : Source) : Queue := ⟨0, source⟩

/-- The queue with one more layer on top. -/
def under (work : Work) (queue : Queue) : Queue :=
  ⟨queue.depth + 1, (Layer.new work, queue.stack)⟩

/-- The next op, or `none` if there is none for now. -/
def poll (queue : Queue) : Answer × Queue :=
  let (answer, stack) := (Stack.feed Source.base queue.depth).poll queue.stack
  (answer, ⟨queue.depth, stack⟩)

/-- Refill the ready buffer of the topmost layer. -/
def shift : Queue → Except Fault Unit × Queue
  | ⟨0, source⟩ =>
    let (answer, source) := Source.shift source
    (answer, ⟨0, source⟩)
  | ⟨depth + 1, (layer, below)⟩ =>
    let (answer, layer, below) := Layer.shift (Stack.feed Source.base depth) layer below
    (answer, ⟨depth + 1, (layer, below)⟩)

def offer (op : Op) (queue : Queue) : Except Fault Unit × Queue :=
  let (answer, stack) := Stack.offer Source.base queue.depth op queue.stack
  (answer, ⟨queue.depth, stack⟩)

/-- Poll until there is nothing more or a poll fails; the ops up to then are given either way. -/
def drain (queue : Queue) : Except Fault Unit × List Op × Queue :=
  let (answer, ops, stack) := (Stack.feed Source.base queue.depth).drain queue.stack
  (answer, ops, ⟨queue.depth, stack⟩)

/-- Drain and encode, unless a poll fails. -/
def encode (queue : Queue) : Except Fault Bytes × Queue :=
  match queue.drain with
  | (.ok (), ops, queue) => (.ok (Script.encode ops), queue)
  | (.error fault, _, queue) => (.error fault, queue)

/-- What replaying has come to: the stream still to read and everything written. -/
structure Replay where
  orig : Reader
  sink : Sink

/-- Replay one more op, up to the first failure. -/
def replayStep (replay : Replay) (op : Op) : Next Replay (Fault × Replay) :=
  match op.apply replay.orig replay.sink with
  | (.ok (), orig, sink) => .more ⟨orig, sink⟩
  | (.error fault, orig, sink) => .done (fault, ⟨orig, sink⟩)

/-- Replay every op there is on a stream, each as soon as it is polled. -/
def apply (orig : Reader) (sink : Sink) (queue : Queue) : Except Fault Unit × Replay × Queue :=
  match (Stack.feed Source.base queue.depth).consume replayStep ⟨orig, sink⟩ queue.stack with
  | (.dry replay, stack) => (.ok (), replay, ⟨queue.depth, stack⟩)
  | (.failed fault replay, stack) => (.error fault, replay, ⟨queue.depth, stack⟩)
  | (.done (fault, replay), stack) => (.error fault, replay, ⟨queue.depth, stack⟩)

/-- The buffers of the topmost layer. -/
def buffers : Queue → Buffers
  | ⟨0, source⟩ => Source.buffers source
  | ⟨_ + 1, (layer, _)⟩ => layer.buffers

def withBuffers (buffers : Buffers) : Queue → Queue
  | ⟨0, source⟩ => ⟨0, { (source : Source) with buffers }⟩
  | ⟨depth + 1, (layer, below)⟩ => ⟨depth + 1, ({ layer with buffers }, below)⟩

def cancel (queue : Queue) : Queue := ⟨queue.depth, Stack.cancel queue.depth queue.stack⟩

def cancelled (queue : Queue) : List Bool := Stack.cancelled queue.depth queue.stack

/-- Hand the ops of a pump on top out again from the first on. -/
def replay : Queue → Queue
  | ⟨depth + 1, (⟨buffers, .pump pump⟩, below)⟩ =>
    ⟨depth + 1, (⟨{ buffers with ready := [] }, .pump pump.rewound⟩, below)⟩
  | queue => queue

/-- All ops of a pump on top, which drains what is below it if it has not yet. -/
def ops : Queue → Except Fault (List Op) × Queue
  | ⟨depth + 1, (⟨buffers, .pump pump⟩, below)⟩ =>
    let (answer, pump, below) := pump.fill (Stack.feed Source.base depth) below
    (answer.map fun () => pump.ops, ⟨depth + 1, (⟨buffers, .pump pump⟩, below)⟩)
  | queue => (.ok [], queue)

end Queue

end BytePatch
