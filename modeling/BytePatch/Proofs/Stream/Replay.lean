import BytePatch.Differ
import BytePatch.Proofs.Queue.Runs

/-! Replaying a queue as it is polled, from a stream, comes to what replaying the list of its ops on
a string comes to, as far as the queue goes. -/
namespace BytePatch

namespace Reader

/-- What reading `count` bytes comes to on a stream that delivers a string and then meets its failure,
if it has one. -/
private structure Reads (taken : Taken) (count : Nat) (bytes : Bytes)
    (failure? : Option IoFault) : Prop where
  bytes_eq : taken.bytes = bytes.take count
  failure_eq : taken.failure? = if count ≤ bytes.length then none else failure?
  rest_contents : taken.rest.contents = bytes.drop count
  rest_failure : taken.rest.failure? = failure?

private theorem reads_go (reader : Reader) (count : Nat) (blocks : List Bytes) :
    Reads (take.go reader count blocks) count blocks.flatten reader.failure? := by
  fun_induction take.go reader count blocks with
  | case1 blocks => exact ⟨rfl, rfl, rfl, rfl⟩
  | case2 => exact ⟨rfl, rfl, rfl, rfl⟩
  | case3 count block blocks hl more ih =>
    refine ⟨?_, ?_, ?_, ih.rest_failure⟩
    · rw [List.flatten_cons, List.take_append, List.take_of_length_le hl, ih.bytes_eq]
    · have hcount : count + 1 ≤ (block :: blocks).flatten.length ↔
          count + 1 - block.length ≤ blocks.flatten.length := by
        rw [List.flatten_cons, List.length_append]
        omega
      rw [ih.failure_eq]
      simp only [hcount]
    · rw [List.flatten_cons, List.drop_append, List.drop_of_length_le hl, ih.rest_contents,
        List.nil_append]
  | case4 count block blocks hl =>
    have hlt : count + 1 ≤ block.length := by omega
    refine ⟨?_, ?_, ?_, rfl⟩
    · rw [List.flatten_cons, List.take_append_of_le_length hlt]
    · rw [List.flatten_cons, List.length_append, if_pos (by omega)]
    · rw [List.flatten_cons, List.drop_append_of_le_length hlt]
      rfl

/-- A stream is read like the string it delivers. Its failure is met only by who wants more than
that. -/
theorem take_eq_ite (reader : Reader) (count : Nat) :
    ∃ rest : Reader, reader.take count = ⟨reader.contents.take count,
        if count ≤ reader.contents.length then none else reader.failure?, rest⟩ ∧
      rest.contents = reader.contents.drop count ∧ rest.failure? = reader.failure? := by
  have key : Reads (reader.take count) count reader.contents reader.failure? :=
    reads_go reader count reader.blocks
  generalize reader.take count = taken at key
  obtain ⟨bytes, failure?, rest⟩ := taken
  obtain ⟨rfl, rfl, hc, hf⟩ := key
  exact ⟨rest, rfl, hc, hf⟩

theorem take_eq {reader : Reader} (h : reader.failure? = none) (count : Nat) :
    ∃ rest : Reader, reader.take count = ⟨reader.contents.take count, none, rest⟩ ∧
      rest.contents = reader.contents.drop count ∧ rest.failure? = none := by
  simpa [h] using reader.take_eq_ite count

/-- The stream delivers a string, in whatever blocks, and comes to its end. -/
structure Whole (reader : Reader) (bytes : Bytes) : Prop where
  contents_eq : reader.contents = bytes
  failure_eq : reader.failure? = none

theorem Whole.take {reader : Reader} {bytes : Bytes} (h : reader.Whole bytes) (size : Nat) :
    ∃ rest : Reader, reader.take size = ⟨bytes.take size, none, rest⟩ ∧
      rest.Whole (bytes.drop size) := by
  obtain ⟨rest, htake, hcontents, hfailure⟩ := Reader.take_eq h.failure_eq size
  rw [h.contents_eq] at htake hcontents
  exact ⟨rest, htake, hcontents, hfailure⟩

end Reader

namespace Op

private theorem shortfall_eq (run : Nat) (bytes : Bytes) (rest : Reader) :
    shortfall? run ⟨bytes.take run, none, rest⟩ =
      if run ≤ bytes.length then none else some (.endedAfter bytes.length run) := by
  simp only [shortfall?, List.length_take]
  by_cases h : run ≤ bytes.length
  · rw [if_pos h, if_pos (by omega)]
  · rw [if_neg h, if_neg (by omega), Nat.min_eq_right (by omega)]

theorem apply_eq (op : Op) {orig : Reader} (h : orig.failure? = none) (written : Bytes) :
    match op.play orig.contents with
    | .error cause => (op.apply orig ⟨written, none⟩).1 = .error (.io cause)
    | .ok (out, left) => ∃ rest : Reader, op.apply orig ⟨written, none⟩ =
      (.ok (), rest, ⟨written ++ out, none⟩) ∧ rest.contents = left ∧ rest.failure? = none := by
  have passing (run : Nat) :
      match play.passing run orig.contents with
      | .error cause => (apply.passing orig ⟨written, none⟩ run).1 = .error (.io cause)
      | .ok (out, left) => ∃ rest : Reader, apply.passing orig ⟨written, none⟩ run =
        (.ok (), rest, ⟨written ++ out, none⟩) ∧ rest.contents = left ∧ rest.failure? = none := by
    obtain ⟨rest, ht, hc, hf⟩ := Reader.take_eq h run
    simp only [play.passing, apply.passing, ht, shortfall_eq]
    by_cases hr : run ≤ orig.contents.length
    · rw [if_pos hr, if_pos hr]
      exact ⟨rest, by rw [List.append_nil]; rfl, hc, hf⟩
    · rw [if_neg hr, if_neg hr]
      rfl
  cases op with
  | copy run =>
    obtain ⟨rest, ht, hc, hf⟩ := Reader.take_eq h run
    simp only [play, apply, ht, shortfall_eq, Sink.write_unbounded]
    by_cases hr : run ≤ orig.contents.length
    · rw [if_pos hr, if_pos hr]
      exact ⟨rest, rfl, hc, hf⟩
    · rw [if_neg hr, if_neg hr]
      rfl
  | skip run => exact passing run
  | delete bytes => exact passing bytes.length
  | insert bytes => exact ⟨orig, rfl, rfl, h⟩

end Op

/-- What replaying a script to its end and then meeting that ending comes to. -/
def Script.replayUntil (ops : Script) (ending : Option Fault) (orig : Bytes) :
    Except Fault Bytes :=
  match ops.replay orig with
  | .error cause => .error (.io cause)
  | .ok out => (fun () => out) <$> Feed.answer ending

namespace Feed
variable {σ : Type} {feed : Feed σ}

private theorem Runs.consume_replayStep {s : σ} {ops : List Op} {ending : Option Fault}
    (h : feed.Runs s ops ending) {orig : Reader} (hf : orig.failure? = none) (written : Bytes) :
    match Script.play ops orig.contents with
    | .error cause => ∃ left s', feed.consume Queue.replayStep ⟨orig, ⟨written, none⟩⟩ s =
      (.done (.io cause, left), s')
    | .ok (out, _) => ∃ rest s', feed.consume Queue.replayStep ⟨orig, ⟨written, none⟩⟩ s =
      (outcome ending ⟨rest, ⟨written ++ out, none⟩⟩, s') := by
  induction h generalizing orig written with
  | @dry s s' hp => exact ⟨orig, s', by rw [consume_dry hp, List.append_nil]; rfl⟩
  | @failed s s' fault hp => exact ⟨orig, s', by rw [consume_failed hp, List.append_nil]; rfl⟩
  | @op s s' op ops ending hp _ ih =>
    have hop := op.apply_eq hf written
    rw [Script.play]
    cases hplay : op.play orig.contents with
    | error cause =>
      rw [hplay] at hop
      rcases happly : op.apply orig ⟨written, none⟩ with ⟨answer, left, sink⟩
      rw [happly] at hop
      obtain rfl : answer = .error (.io cause) := hop
      exact ⟨⟨left, sink⟩, s', consume_done hp (by simp [Queue.replayStep, happly])⟩
    | ok result =>
      rw [hplay] at hop
      obtain ⟨rest, happly, hc, hf'⟩ := hop
      have hmore : Queue.replayStep ⟨orig, ⟨written, none⟩⟩ op =
          .more ⟨rest, ⟨written ++ result.1, none⟩⟩ := by simp [Queue.replayStep, happly]
      have key := ih hf' (written ++ result.1)
      rw [hc] at key
      rw [consume_more hp hmore]
      dsimp only
      cases hrest : Script.play ops result.2 with
      | error cause =>
        rw [hrest] at key
        exact key
      | ok results =>
        rw [hrest] at key
        simpa using key

end Feed

/-- Replaying a queue as it is polled is replaying the list of its ops. The first thing to go
wrong is what is reported: an op that cannot be replayed, or else the failure of the queue. -/
theorem Queue.Runs.replayOn {queue : Queue} {ops : List Op} {ending : Option Fault}
    (h : queue.Runs ops ending) (base : Bytes) :
    queue.replayOn base = Script.replayUntil ops ending base := by
  have key := @Feed.Runs.consume_replayStep _ _ _ _ _ h (.ofBytes base) rfl []
  have hbase : (Reader.ofBytes base).contents = base := by simp [Reader.ofBytes, Reader.contents]
  rw [hbase] at key
  unfold Queue.replayOn Queue.apply Script.replayUntil Script.replay Sink.unbounded
  cases hplay : Script.play ops base with
  | error cause =>
    rw [hplay] at key
    obtain ⟨left, s', hc⟩ := key
    rw [hc]
    rfl
  | ok result =>
    rw [hplay] at key
    obtain ⟨rest, s', hc⟩ := key
    rw [hc]
    cases ending <;> rfl

end BytePatch
