import BytePatch.Queue.Buffers
import BytePatch.Queue.Feed
import BytePatch.Stream.Reader
import BytePatch.Wire.Decode
/-!
Where ops come from: ops offered one by one, a fixed list, the replacement of one string by
another, two streams compared chunk by chunk, and an encoded script.
-/
namespace BytePatch

/-- Two streams read in step, `chunk` bytes of each at a time, until neither gives any more. -/
structure Streams where
  orig : Reader
  target : Reader
  chunk : Nat
  exhausted : Bool
deriving DecidableEq

inductive Origin where
  | offered
  | list
  | replacement
  | streams (streams : Streams)
  | encoded (decoder : Decoder)
deriving DecidableEq

structure Source where
  buffers : Buffers
  origin : Origin
deriving DecidableEq

namespace Streams

def rank (streams : Streams) : Nat :=
  streams.orig.contents.length + streams.target.contents.length

/-- The next chunk of both streams as a delete and an insert. What a failing stream had already
given is lost, and so is the chunk of the first stream if it is the second that fails. -/
def next (streams : Streams) : Except Fault (List Op) × Streams :=
  let orig := streams.orig.take streams.chunk
  match orig.failure? with
  | some cause => (.error (.io cause), { streams with orig := orig.rest })
  | none =>
    let target := streams.target.take streams.chunk
    let streams := { streams with orig := orig.rest, target := target.rest }
    match target.failure? with
    | some cause => (.error (.io cause), streams)
    | none =>
      if orig.bytes = [] ∧ target.bytes = [] then (.ok [], { streams with exhausted := true })
      else (.ok (Script.removal orig.bytes ++ Script.addition target.bytes), streams)

theorem rank_next_le (streams : Streams) : streams.next.2.rank ≤ streams.rank := by
  have ho := congrArg List.length (Reader.take_contents streams.chunk streams.orig)
  have ht := congrArg List.length (Reader.take_contents streams.chunk streams.target)
  simp only [List.length_append] at ho ht
  unfold next
  dsimp only
  split
  · simp only [rank]; omega
  · split
    · simp only [rank]; omega
    · split <;> simp only [rank] <;> omega

theorem rank_next_ok {streams after : Streams} {ops : List Op}
    (h : streams.next = (.ok ops, after)) : Script.weight ops + after.rank ≤ streams.rank := by
  have ho := congrArg List.length (Reader.take_contents streams.chunk streams.orig)
  have ht := congrArg List.length (Reader.take_contents streams.chunk streams.target)
  simp only [List.length_append] at ho ht
  unfold next at h
  dsimp only at h
  split at h
  · cases h
  · split at h
    · cases h
    · split at h <;> cases h
      · simp only [rank, Script.weight_nil]; omega
      · simp only [rank, Script.weight_append, Script.weight_removal, Script.weight_addition]; omega

end Streams

namespace Source

def offering : Source := ⟨.empty, .offered⟩

def ofList (ops : List Op) : Source := ⟨⟨[], ops⟩, .list⟩

/-- All of one string deleted, then all of the other inserted. -/
def replacing (orig target : Bytes) : Source :=
  ⟨⟨[], Script.removal orig ++ Script.addition target⟩, .replacement⟩

def comparing (orig target : Reader) (chunk : Nat) : Source :=
  ⟨.empty, .streams ⟨orig, target, max 1 chunk, false⟩⟩

def decoding (bytes : Bytes) : Source := ⟨.empty, .encoded (.reading bytes)⟩

/-- Refill the ready buffer, from the pending ops if there are any. -/
def shift (source : Source) : Except Fault Unit × Source :=
  match source.origin with
  | .offered | .list | .replacement =>
    (.ok (), { source with buffers := source.buffers.shiftReady.2 })
  | .encoded decoder =>
    match decoder.next with
    | (.error fault, decoder) => (.error fault, { source with origin := .encoded decoder })
    | (.ok none, decoder) => (.ok (), { source with origin := .encoded decoder })
    | (.ok (some op), decoder) => (.ok (), ⟨source.buffers.pushReady op, .encoded decoder⟩)
  | .streams streams =>
    if source.buffers.pending = [] ∧ ¬ streams.exhausted then
      match streams.next with
      | (.error fault, streams) => (.error fault, { source with origin := .streams streams })
      | (.ok ops, streams) =>
        (.ok (), ⟨(Buffers.shiftReady ⟨source.buffers.ready, ops⟩).2, .streams streams⟩)
    else (.ok (), { source with buffers := source.buffers.shiftReady.2 })

def poll (source : Source) : Answer × Source :=
  match source.buffers.ready with
  | op :: ready => (.ok (some op), { source with buffers := { source.buffers with ready } })
  | [] =>
    match source.shift with
    | (.error fault, source) => (.error fault, source)
    | (.ok (), source) =>
      match source.buffers.ready with
      | [] => (.ok none, source)
      | op :: ready => (.ok (some op), { source with buffers := { source.buffers with ready } })

/-- Only a source of offered ops takes them. -/
def offer (op : Op) (source : Source) : Except Fault Unit × Source :=
  match source.origin with
  | .offered => (.ok (), { source with buffers := source.buffers.pushPending op })
  | .list => (.error (.offerUnsupported .list), source)
  | .replacement => (.error (.offerUnsupported .comparison), source)
  | .streams _ => (.error (.offerUnsupported .streams), source)
  | .encoded _ => (.error (.offerUnsupported .encoded), source)

def rank (source : Source) : Nat :=
  source.buffers.weight + match source.origin with
    | .streams streams => streams.rank
    | .encoded decoder => decoder.rank
    | _ => 0

theorem rank_shift_le (source : Source) : source.shift.2.rank ≤ source.rank := by
  obtain ⟨buffers, origin⟩ := source
  cases origin with
  | offered => simp [shift, rank]
  | list => simp [shift, rank]
  | replacement => simp [shift, rank]
  | encoded decoder =>
    have h := decoder.rank_next_le
    simp only [shift]
    split <;> rename_i heq
    · rw [heq] at h; simp only [rank] at *; omega
    · rw [heq] at h; simp only [rank] at *; omega
    · have := Decoder.rank_next_some heq
      simp only [rank, Buffers.pushReady, Buffers.weight, Script.weight_append, Script.weight_cons,
        Script.weight_nil] at *
      omega
  | streams streams =>
    have h := streams.rank_next_le
    simp only [shift]
    split
    · next hp =>
      split <;> rename_i heq
      · rw [heq] at h; simp only [rank] at *; omega
      · have := Streams.rank_next_ok heq
        simp only [rank, Buffers.weight_shiftReady, Buffers.weight_mk]
        simp only [Buffers.weight, hp.1, Script.weight_nil]
        omega
    · simp [rank]

theorem rank_poll_le (source : Source) :
    source.poll.2.rank + source.poll.1.weight ≤ source.rank := by
  unfold poll
  split
  · next op ready h =>
    simp only [rank, Buffers.weight, h, Script.weight_cons, Answer.weight]
    omega
  · have hs := source.rank_shift_le
    split <;> rename_i heq <;> rw [heq] at hs
    · exact hs
    · split
      · exact hs
      · next op ready h =>
        simp only [rank, Buffers.weight, h, Script.weight_cons, Answer.weight] at *
        omega

def feed : Feed Source := ⟨poll, rank, rank_poll_le⟩

end Source

end BytePatch
