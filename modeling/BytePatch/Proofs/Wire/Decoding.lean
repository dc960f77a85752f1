import BytePatch.Proofs.Queue.Delivery
import BytePatch.Proofs.Wire.RoundTrip

/-! What reading makes of bytes of any kind: the ops of the longest stretch of items at the front, and
then the end of the script or a failure for good. -/
namespace BytePatch.Script

namespace Items
variable {front rest : Bytes} {ops : Script}

theorem decode (h : Items front ops) (rest : Bytes) :
    Script.decode (front ++ rest) = (ops ++ ·) <$> Script.decode rest := by
  induction h with
  | nil => cases hd : Script.decode rest <;> simp [hd, Functor.map, Except.map]
  | cons hitem _ ih =>
    rw [List.append_assoc, decode_of_some (hitem.decode? _), ih]
    cases Script.decode rest <;> rfl

/-- What is true of a source that has come to the rest is true of one that has the items still in
front, if giving one op more keeps it true. -/
theorem decoding (h : Items front ops) (P : Source → List Op → Prop) (hrest : P (.decoding rest) [])
    (hop : ∀ {s s' op ops}, Source.feed.poll s = (.ok (some op), s') → P s' ops →
      P s (op :: ops)) : P (.decoding (front ++ rest)) ops := by
  induction h with
  | nil => exact hrest
  | cons hitem _ ih =>
    rw [List.append_assoc]
    exact hop (Source.poll_decoding (hitem.decode? _)) ih

private theorem delivers (h : Items front ops) (hrest : Source.feed.Delivers (.decoding rest) []) :
    Source.feed.Delivers (.decoding (front ++ rest)) ops :=
  h.decoding Source.feed.Delivers hrest .cons

private theorem breaks {fault later : Fault} (h : Items front ops)
    (hrest : Source.feed.Breaks (.decoding rest) [] fault later) :
    Source.feed.Breaks (.decoding (front ++ rest)) ops fault later :=
  h.decoding (Source.feed.Breaks · · fault later) hrest .cons

end Items

/-- Unless the end of the script and nothing else is left, reading fails where no item stands in
front. -/
theorem Stuck.exists_cause {bytes : Bytes} (h : Stuck bytes) (hend : bytes ≠ [0]) :
    ∃ cause, decode bytes = .error cause ∧
      Decoder.next (.reading bytes) = (.error (.invalidFormat cause), .failed) := by
  cases hread : Op.decode? bytes with
  | error cause =>
    refine ⟨cause, ?_, by simp only [Decoder.next, hread]⟩
    rw [decode]
    split <;> simp_all
  | ok answer =>
    obtain ⟨_ | op, rest⟩ := answer
    · cases rest with
      | nil => exact absurd (Op.eq_of_decode?_none hread) hend
      | cons byte rest =>
        refine ⟨.afterEnd (byte :: rest).length, ?_, by simp only [Decoder.next, hread]⟩
        rw [decode]
        split <;> simp_all
    · exact absurd hread (h op rest)

/-- Whatever the bytes, polls give the ops of the longest stretch of items they begin with. If the
end marker is all that follows it, there is nothing more; otherwise the next poll fails because of
the format, and all later ones because one has failed. Reading at once comes to the same, and every
op passes the checks it would be put together with. -/
theorem decoding_polls (bytes : Bytes) : ∃ front rest ops, bytes = front ++ rest ∧
    Items front ops ∧
    (∀ front' ops', front' <+: bytes → Items front' ops' → front' <+: front ∧ ops' <+: ops) ∧
    (∀ op ∈ ops, op.Valid ∧ Op.ofParts op.kind op.run op.payload? = .ok op) ∧
    (rest = [0] ∧ (Queue.ofSource (.decoding bytes)).Delivers ops ∧
        (∃ after, (Queue.ofSource (.decoding bytes)).drain = (.ok (), ops, after)) ∧
        decode bytes = .ok ops ∨
      rest ≠ [0] ∧ ∃ cause,
        (Queue.ofSource (.decoding bytes)).Breaks ops (.invalidFormat cause)
          (.illegalState .decodeFailed) ∧
        (∃ after, (Queue.ofSource (.decoding bytes)).drain =
          (.error (.invalidFormat cause), ops, after)) ∧
        decode bytes = .error cause) := by
  obtain ⟨front, rest, ops, rfl, hitems, hstuck⟩ := exists_items bytes
  refine ⟨front, rest, ops, rfl, hitems, fun front' ops' hfront h' => hitems.longest hstuck h' hfront,
    fun op hop => ⟨hitems.valid op hop, Op.ofParts_eq (hitems.valid op hop)⟩, ?_⟩
  by_cases hend : rest = [0]
  · subst hend
    have hdelivers : (Queue.ofSource (.decoding (front ++ [0]))).Delivers ops :=
      hitems.delivers (Feed.delivers_nil rfl rfl)
    refine .inl ⟨rfl, hdelivers, hdelivers.drain, ?_⟩
    rw [hitems.decode, decode_of_end rfl]
    exact congrArg Except.ok (List.append_nil ops)
  · obtain ⟨cause, hdecode, hnext⟩ := hstuck.exists_cause hend
    have hpoll : Source.poll (.decoding rest) =
        (.error (.invalidFormat cause), ⟨.empty, .encoded .failed⟩) := by
      simp [Source.poll, Source.shift, Source.decoding, hnext, Buffers.empty]
    have hbreaks : (Queue.ofSource (.decoding (front ++ rest))).Breaks ops (.invalidFormat cause)
        (.illegalState .decodeFailed) := hitems.breaks (Feed.breaks_nil hpoll rfl)
    refine .inr ⟨hend, cause, hbreaks, hbreaks.drain, ?_⟩
    rw [hitems.decode, hdecode]
    rfl

end BytePatch.Script
