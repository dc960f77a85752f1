import BytePatch.Proofs.Queue.Answers
import BytePatch.Proofs.Stream.Chunks

/-! Two streams read in step, one of which breaks off. The chunks that it had whole are given with
those of the other, and from then on every poll meets the failure, so that what was given is never
taken for all there is. -/
namespace BytePatch

namespace Reader
variable {reader : Reader} {bytes : Bytes} {count : Nat} {cause : IoFault}

/-- The stream delivers the first `count` bytes of a string, in whatever blocks, and then every read
fails. -/
structure BreaksOff (reader : Reader) (bytes : Bytes) (count : Nat) (cause : IoFault) : Prop where
  contents_eq : reader.contents = bytes.take count
  failure_eq : reader.failure? = some cause
  count_le : count ≤ bytes.length

/-- As long as the bytes last, reading does not meet the failure. -/
theorem BreaksOff.take (h : reader.BreaksOff bytes count cause) {size : Nat} (hle : size ≤ count) :
    ∃ rest : Reader, reader.take size = ⟨bytes.take size, none, rest⟩ ∧
      rest.BreaksOff (bytes.drop size) (count - size) cause := by
  have hcount := h.count_le
  obtain ⟨rest, htake, hcontents, hfailure⟩ := reader.take_eq_ite size
  rw [h.contents_eq, List.length_take_of_le hcount, if_pos hle, List.take_take,
    Nat.min_eq_left hle] at htake
  rw [h.contents_eq, List.drop_take] at hcontents
  refine ⟨rest, htake, hcontents, hfailure.trans h.failure_eq, ?_⟩
  rw [List.length_drop]
  omega

/-- Who wants more loses what was left and leaves the stream with nothing but its failure. -/
theorem BreaksOff.take_short (h : reader.BreaksOff bytes count cause) {size : Nat}
    (hlt : count < size) : ∃ rest : Reader,
      reader.take size = ⟨bytes.take count, some cause, rest⟩ ∧ rest.BreaksOff [] 0 cause := by
  have hlength : (bytes.take count).length = count := List.length_take_of_le h.count_le
  obtain ⟨rest, htake, hcontents, hfailure⟩ := reader.take_eq_ite size
  rw [h.contents_eq, hlength, if_neg (Nat.not_le.2 hlt), h.failure_eq,
    List.take_of_length_le (by omega)] at htake
  rw [h.contents_eq, List.drop_of_length_le (by omega)] at hcontents
  exact ⟨rest, htake, hcontents, hfailure.trans h.failure_eq, Nat.zero_le _⟩

end Reader

namespace Streams

/-- Of two streams that deliver two strings one breaks off once `count` bytes have been handed out. -/
inductive OneBreaksOff (first second : Reader) (orig target : Bytes) (count : Nat)
    (cause : IoFault) : Prop
  | first : first.BreaksOff orig count cause → second.Whole target →
    OneBreaksOff first second orig target count cause
  | second : first.Whole orig → second.BreaksOff target count cause →
    OneBreaksOff first second orig target count cause

variable {streams : Streams} {orig target : Bytes} {count : Nat} {cause : IoFault}

private theorem OneBreaksOff.not_nil {first second : Reader}
    (h : OneBreaksOff first second orig target count cause) (hpos : 0 < count) :
    ¬ (orig = [] ∧ target = []) := by
  rintro ⟨rfl, rfl⟩
  cases h with
  | first hfirst _ => exact Nat.not_le.2 hpos hfirst.count_le
  | second _ hsecond => exact Nat.not_le.2 hpos hsecond.count_le

private theorem OneBreaksOff.next
    (h : OneBreaksOff streams.orig streams.target orig target count cause)
    (hs : 0 < streams.chunk) (hle : streams.chunk ≤ count) :
    ∃ first second, streams.next = (.ok (Script.removal (orig.take streams.chunk) ++
        Script.addition (target.take streams.chunk)),
        { streams with orig := first, target := second }) ∧
      OneBreaksOff first second (orig.drop streams.chunk) (target.drop streams.chunk)
        (count - streams.chunk) cause := by
  have full {bytes : Bytes} (hb : count ≤ bytes.length) : bytes.take streams.chunk ≠ [] := by
    rw [ne_eq, List.take_eq_nil_iff, ← List.length_eq_zero_iff]
    omega
  cases h with
  | first hfirst hsecond =>
    obtain ⟨left, hleft, hleft'⟩ := hfirst.take hle
    obtain ⟨right, hright, hright'⟩ := hsecond.take streams.chunk
    refine ⟨left, right, ?_, .first hleft' hright'⟩
    unfold Streams.next
    simp only [hleft, hright]
    rw [if_neg fun hdry => full hfirst.count_le hdry.1]
  | second hfirst hsecond =>
    obtain ⟨left, hleft, hleft'⟩ := hfirst.take streams.chunk
    obtain ⟨right, hright, hright'⟩ := hsecond.take hle
    refine ⟨left, right, ?_, .second hleft' hright'⟩
    unfold Streams.next
    simp only [hleft, hright]
    rw [if_neg fun hdry => full hsecond.count_le hdry.2]

private theorem OneBreaksOff.next_short
    (h : OneBreaksOff streams.orig streams.target orig target count cause)
    (hlt : count < streams.chunk) :
    ∃ first second orig' target', streams.next = (.error (.io cause),
        { streams with orig := first, target := second }) ∧
      OneBreaksOff first second orig' target' 0 cause := by
  cases h with
  | first hfirst hsecond =>
    obtain ⟨left, hleft, hleft'⟩ := hfirst.take_short hlt
    refine ⟨left, streams.target, [], target, ?_, .first hleft' hsecond⟩
    unfold Streams.next
    simp only [hleft]
  | second hfirst hsecond =>
    obtain ⟨left, hleft, hleft'⟩ := hfirst.take streams.chunk
    obtain ⟨right, hright, hright'⟩ := hsecond.take_short hlt
    refine ⟨left, right, _, [], ?_, .second hleft' hright'⟩
    unfold Streams.next
    simp only [hleft, hright]

end Streams

namespace Chunk

/-- The chunks that two strings have in a place, as a delete and an insert. A string that does not
reach so far has none. -/
def pairAt (size : Nat) (orig target : Bytes) (place : Nat) : Script :=
  Script.removal ((orig.drop (place * size)).take size) ++
    Script.addition ((target.drop (place * size)).take size)

/-- The chunks in the first places, one place after the other. -/
def pairs (size places : Nat) (orig target : Bytes) : Script :=
  (List.range places).flatMap (pairAt size orig target)

private theorem pairs_succ (size places : Nat) (orig target : Bytes) :
    pairs size (places + 1) orig target =
      Script.removal (orig.take size) ++ Script.addition (target.take size) ++
        pairs size places (orig.drop size) (target.drop size) := by
  have hplace (place : Nat) :
      pairAt size orig target (place + 1) = pairAt size (orig.drop size) (target.drop size) place := by
    simp only [pairAt, List.drop_drop, Nat.succ_mul, Nat.add_comm]
  have hfirst : pairAt size orig target 0 =
      Script.removal (orig.take size) ++ Script.addition (target.take size) := by
    simp [pairAt]
  simp only [pairs, List.range_succ_eq_map, List.flatMap_cons, List.flatMap_map, hplace, hfirst]

end Chunk

namespace Source

/-- A source of two streams of which one breaks off, what it holds and what is still to come before
the failure. -/
private def Breaking (size : Nat) (cause : IoFault) (source : Source)
    (answers : List Answer) : Prop :=
  ∃ pending streams orig target count, source = ⟨⟨[], pending⟩, .streams streams⟩ ∧
    Streams.OneBreaksOff streams.orig streams.target orig target count cause ∧
    streams.chunk = size ∧ ¬ streams.exhausted = true ∧
    answers = Answer.each (pending ++ Chunk.pairs size (count / size) orig target)

private theorem Breaking.poll {size : Nat} (hs : 0 < size) {cause : IoFault} {source : Source}
    {answers : List Answer} (h : source.Breaking size cause answers) :
    source.poll.1 = answers.headD (.error (.io cause)) ∧
      source.poll.2.Breaking size cause answers.tail := by
  obtain ⟨pending, streams, orig, target, count, rfl, hbreaks, rfl, hend, rfl⟩ := h
  cases pending with
  | cons op pending =>
    rw [poll_streams_cons]
    exact ⟨rfl, pending, streams, orig, target, count, rfl, hbreaks, rfl, hend, rfl⟩
  | nil =>
    by_cases hle : streams.chunk ≤ count
    · have hplaces : count / streams.chunk = (count - streams.chunk) / streams.chunk + 1 :=
        Nat.div_eq_sub_div hs hle
      obtain ⟨first, second, hnext, hafter⟩ := hbreaks.next hs hle
      have hdry := hbreaks.not_nil (Nat.lt_of_lt_of_le hs hle)
      rw [poll_streams_ok hend hnext, List.nil_append, hplaces, Chunk.pairs_succ]
      cases hops : Script.removal (orig.take streams.chunk) ++
          Script.addition (target.take streams.chunk) with
      | nil => exact absurd hops (replacing_take_ne_nil hs hdry)
      | cons op ops => exact ⟨rfl, ops, _, _, _, _, rfl, hafter, rfl, hend, rfl⟩
    · have hlt : count < streams.chunk := Nat.lt_of_not_le hle
      obtain ⟨first, second, orig', target', hnext, hafter⟩ := hbreaks.next_short hlt
      have hnone (places : Nat) (hp : places = 0) (orig target : Bytes) :
          Answer.each ([] ++ Chunk.pairs streams.chunk places orig target) = [] := by
        subst hp
        rfl
      rw [poll_streams_error hend hnext, hnone _ (Nat.div_eq_of_lt hlt)]
      exact ⟨rfl, [], _, orig', target', 0, rfl, hafter, rfl, hend,
        (hnone _ (Nat.zero_div _) _ _).symm⟩

end Source

namespace Queue

/-- If one of two streams breaks off, the chunks that it has whole come out place by place, each with
the chunk of the other stream in that place as far as there is one. The next poll fails as the stream
did, and so does every later one; none finds that there is nothing more. Draining fails too. -/
theorem answers_breakingOff {first second : Reader} {orig target : Bytes} {size count : Nat}
    {cause : IoFault} (hs : 0 < size)
    (h : Streams.OneBreaksOff first second orig target count cause) :
    (ofSource (.comparing first second size)).Answers
      (Answer.each (Chunk.pairs size (count / size) orig target)) (.error (.io cause)) ∧
    ∃ after, (ofSource (.comparing first second size)).drain =
      (.error (.io cause), Chunk.pairs size (count / size) orig target, after) := by
  have hmax : max 1 size = size := Nat.max_eq_right hs
  have hanswers : (ofSource (.comparing first second size)).Answers
      (Answer.each (Chunk.pairs size (count / size) orig target)) (.error (.io cause)) :=
    Feed.answers_of_invariant (Source.Breaking size cause) (fun _ _ h => h.poll hs)
      ⟨[], ⟨first, second, max 1 size, false⟩, orig, target, count, rfl, h, hmax, nofun, rfl⟩
  exact ⟨hanswers, hanswers.drain⟩

/-- The second stream breaks off within its third chunk, when the first has already come to its end
within its second. -/
theorem answers_breakingOff_uneven :
    0 < 2 ∧
    Streams.OneBreaksOff ⟨[[1], [2, 3]], none⟩ ⟨[[4, 5, 6], [7], [8]], some (.device "disk on fire")⟩
      [1, 2, 3] [4, 5, 6, 7, 8, 9] 5 (.device "disk on fire") ∧
    (ofSource (.comparing ⟨[[1], [2, 3]], none⟩
        ⟨[[4, 5, 6], [7], [8]], some (.device "disk on fire")⟩ 2)).Answers
      [.ok (some (.delete [1, 2])), .ok (some (.insert [4, 5])), .ok (some (.delete [3])),
        .ok (some (.insert [6, 7]))] (.error (.io (.device "disk on fire"))) :=
  have h : Streams.OneBreaksOff ⟨[[1], [2, 3]], none⟩
      ⟨[[4, 5, 6], [7], [8]], some (.device "disk on fire")⟩
      [1, 2, 3] [4, 5, 6, 7, 8, 9] 5 (.device "disk on fire") :=
    .second ⟨rfl, rfl⟩ ⟨rfl, rfl, by decide⟩
  ⟨by decide, h, (answers_breakingOff (by decide) h).1⟩

end Queue

end BytePatch
