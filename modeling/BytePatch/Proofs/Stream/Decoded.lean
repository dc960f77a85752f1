import BytePatch.Proofs.Stage.Undo
import BytePatch.Proofs.Stream.Replay
import BytePatch.Proofs.Wire.Decoding

/-! Encoded scripts replayed as they are read, with or without being taken back, against reading
them first: the same string comes out, and what goes wrong is what the first item in the way comes
to. -/
namespace BytePatch

namespace Script

/-- The items in front are read, turned and replayed one by one, and this is what comes of the first
thing that cannot be read, turned or replayed. -/
inductive Stumbles (turn : Op → Except Fault Op) : Bytes → Bytes → Fault → Prop
  | unreadable {bytes orig cause} : Stuck bytes → decode bytes = .error cause →
      Stumbles turn bytes orig (.invalidFormat cause)
  | unturned {item bytes orig op fault} : Op.Item item op → turn op = .error fault →
      Stumbles turn (item ++ bytes) orig fault
  | unplayable {item bytes orig op turned cause} : Op.Item item op → turn op = .ok turned →
      turned.play orig = .error cause → Stumbles turn (item ++ bytes) orig (.io cause)
  | later {item bytes orig op turned out rest fault} : Op.Item item op → turn op = .ok turned →
      turned.play orig = .ok (out, rest) → Stumbles turn bytes rest fault →
      Stumbles turn (item ++ bytes) orig fault

/-- What turning and replaying ops one by one and then meeting that ending comes to. -/
def streamed (turn : Op → Except Fault Op) : Script → Option Fault → Bytes → Except Fault Bytes
  | [], ending, _ => (fun () => []) <$> Feed.answer ending
  | op :: ops, ending, orig =>
    match turn op with
    | .error fault => .error fault
    | .ok turned =>
      match turned.play orig with
      | .error cause => .error (.io cause)
      | .ok (out, rest) => (out ++ ·) <$> streamed turn ops ending rest

/-- How reading bytes ends that are or are not a script. -/
def readEnding (bytes : Bytes) : Option Fault :=
  match decode bytes with
  | .ok _ => none
  | .error cause => some (.invalidFormat cause)

section Stumbles
variable {turn : Op → Except Fault Op}

private theorem stumbles_stuck_iff {bytes : Bytes} (h : Stuck bytes) (orig : Bytes)
    (fault : Fault) :
    Stumbles turn bytes orig fault ↔ readEnding bytes = some fault := by
  unfold readEnding
  constructor
  · intro hs
    cases hs with
    | unreadable _ hdecode => rw [hdecode]
    | unturned hitem => exact absurd (hitem.decode? _) (h _ _)
    | unplayable hitem => exact absurd (hitem.decode? _) (h _ _)
    | later hitem => exact absurd (hitem.decode? _) (h _ _)
  · intro hend
    cases hdecode : decode bytes with
    | ok ops =>
      rw [hdecode] at hend
      cases hend
    | error cause =>
      rw [hdecode] at hend
      cases hend
      exact .unreadable h hdecode

private theorem stumbles_item_iff {item : Bytes} {op : Op} (h : Op.Item item op)
    (bytes orig : Bytes) (fault : Fault) :
    Stumbles turn (item ++ bytes) orig fault ↔
      match turn op with
      | .error first => first = fault
      | .ok turned =>
        match turned.play orig with
        | .error cause => .io cause = fault
        | .ok (_, rest) => Stumbles turn bytes rest fault := by
  constructor
  · generalize hall : item ++ bytes = all
    intro hs
    cases hs with
    | unreadable hstuck _ =>
      subst hall
      exact absurd (h.decode? _) (hstuck _ _)
    | unturned hitem ht =>
      obtain ⟨rfl, -, -⟩ := h.inj hitem hall
      simp only [ht]
    | unplayable hitem ht hp =>
      obtain ⟨rfl, -, -⟩ := h.inj hitem hall
      simp only [ht, hp]
    | later hitem ht hp hlater =>
      obtain ⟨rfl, -, rfl⟩ := h.inj hitem hall
      simpa only [ht, hp] using hlater
  · cases ht : turn op with
    | error first =>
      rintro rfl
      exact .unturned h ht
    | ok turned =>
      dsimp only
      cases hp : turned.play orig with
      | error cause =>
        rintro rfl
        exact .unplayable h ht hp
      | ok result => exact .later h ht hp

private theorem map_eq_error_iff {α β : Type} (f : α → β) (x : Except Fault α) (fault : Fault) :
    f <$> x = .error fault ↔ x = .error fault := by
  cases x <;> simp [Functor.map, Except.map]

private theorem streamed_eq_error_iff {front rest : Bytes} {ops : Script} (h : Items front ops)
    (hstuck : Stuck rest) (orig : Bytes) (fault : Fault) :
    streamed turn ops (readEnding rest) orig = .error fault ↔
      Stumbles turn (front ++ rest) orig fault := by
  induction h generalizing orig with
  | nil =>
    rw [List.nil_append, stumbles_stuck_iff hstuck, streamed, map_eq_error_iff]
    cases readEnding rest <;> simp [Feed.answer]
  | @cons item bytes op ops hitem _ ih =>
    rw [List.append_assoc, stumbles_item_iff hitem, streamed]
    cases turn op with
    | error first => exact Except.error.injEq first fault ▸ Iff.rfl
    | ok turned =>
      dsimp only
      cases turned.play orig with
      | error cause => exact Except.error.injEq _ fault ▸ Iff.rfl
      | ok result => rw [map_eq_error_iff, ih]

end Stumbles

section Replayed
variable {ops : Script} {ending : Option Fault} {orig : Bytes}

private theorem replayUntil_cons (op : Op) :
    replayUntil (op :: ops) ending orig =
      match op.play orig with
      | .error cause => .error (.io cause)
      | .ok (out, rest) => (out ++ ·) <$> replayUntil ops ending rest := by
  unfold replayUntil replay
  rw [play]
  cases op.play orig with
  | error cause => rfl
  | ok result =>
    dsimp only
    cases play ops result.2 with
    | error cause => rfl
    | ok results => cases ending <;> rfl

private theorem replayUntil_eq_ok_iff {out : Bytes} :
    replayUntil ops ending orig = .ok out ↔ ending = none ∧ ops.replay orig = .ok out := by
  unfold replayUntil
  cases ops.replay orig <;> cases ending <;> simp [Feed.answer, Functor.map, Except.map]

private theorem streamed_ok : streamed .ok ops ending orig = replayUntil ops ending orig := by
  induction ops generalizing orig with
  | nil => rfl
  | cons op ops ih =>
    rw [streamed, replayUntil_cons]
    dsimp only
    cases op.play orig with
    | error cause => rfl
    | ok result => simp only [ih]

private theorem streamed_undo :
    streamed Op.undo ops ending orig = replayUntil ops.undo.1 (ops.undo.2.or ending) orig := by
  induction ops generalizing orig with
  | nil => rfl
  | cons op ops ih =>
    rw [streamed, undo]
    cases op.undo with
    | error fault => rfl
    | ok undone =>
      dsimp only
      rw [replayUntil_cons]
      cases undone.play orig with
      | error cause => rfl
      | ok result => simp only [ih]

end Replayed

private theorem exists_decoding (bytes : Bytes) : ∃ front rest ops, bytes = front ++ rest ∧
    Items front ops ∧ Stuck rest ∧ (Queue.ofSource (.decoding bytes)).Runs ops (readEnding rest) ∧
    ∀ ops', decode bytes = .ok ops' ↔ readEnding rest = none ∧ ops = ops' := by
  obtain ⟨front, rest, ops, rfl, hitems, hstuck⟩ := exists_items bytes
  refine ⟨front, rest, ops, rfl, hitems, hstuck, ?_⟩
  have hruns {ending : Option Fault} (hrest : Source.feed.Runs (.decoding rest) [] ending) :
      Source.feed.Runs (.decoding (front ++ rest)) ops ending :=
    hitems.decoding (Source.feed.Runs · · ending) hrest .op
  by_cases hend : rest = [0]
  · subst hend
    have hdecode : decode [0] = .ok [] := decode_of_end rfl
    have hending : readEnding [0] = none := by rw [readEnding, hdecode]
    have hpoll : Source.poll (.decoding [0]) = (.ok none, ⟨.empty, .encoded .finished⟩) :=
      Source.poll_decoding_end rfl
    refine ⟨hending ▸ hruns (.dry hpoll), fun ops' => ?_⟩
    rw [hitems.decode, hdecode, hending]
    simp [Functor.map, Except.map]
  · obtain ⟨cause, hdecode, hnext⟩ := hstuck.exists_cause hend
    have hending : readEnding rest = some (.invalidFormat cause) := by rw [readEnding, hdecode]
    have hpoll : Source.poll (.decoding rest) =
        (.error (.invalidFormat cause), ⟨.empty, .encoded .failed⟩) := by
      simp [Source.poll, Source.shift, Source.decoding, hnext, Buffers.empty]
    refine ⟨hending ▸ hruns (.failed hpoll), fun ops' => ?_⟩
    rw [hitems.decode, hdecode, hending]
    simp [Functor.map, Except.map]

end Script

private theorem Script.Stumbles.kind {turn : Op → Except Fault Op} {diff base : Bytes}
    {fault : Fault} (h : Stumbles turn diff base fault) :
    (∃ cause, fault = .invalidFormat cause) ∨ (∃ cause, fault = .io cause) ∨
      ∃ op, turn op = .error fault := by
  induction h with
  | unreadable _ hdecode => exact .inl ⟨_, rfl⟩
  | unturned _ ht => exact .inr (.inr ⟨_, ht⟩)
  | unplayable => exact .inr (.inl ⟨_, rfl⟩)
  | later _ _ _ _ ih => exact ih

open Script in
/-- Replaying an encoded script as it is read gives a string if and only if all of it can be read
and what was read gives that string when replayed. Taking it back gives one if and only if besides
every delete has its bytes and deletes and inserts swapped give it. Otherwise what is reported is
what the first item in the way comes to: it cannot be read, it cannot be taken back, or it cannot
be replayed on what the items before it have left. -/
theorem applyDiff_undoDiff_decoded (base diff : Bytes) :
    ((∀ out, applyDiff base diff = .ok out ↔
        ∃ ops, decode diff = .ok ops ∧ ops.replay base = .ok out) ∧
      (∀ fault, applyDiff base diff = .error fault ↔ Stumbles .ok diff base fault) ∧
      ∀ fault, applyDiff base diff = .error fault →
        (∃ cause, fault = .invalidFormat cause) ∨ ∃ cause, fault = .io cause) ∧
    (∀ out, undoDiff base diff = .ok out ↔
        ∃ ops, decode diff = .ok ops ∧ (∀ op ∈ ops, op.kind = .delete → op.payload?.isSome) ∧
          replay (ops.map Op.swapped) base = .ok out) ∧
      (∀ fault, undoDiff base diff = .error fault ↔ Stumbles Op.undo diff base fault) ∧
      ∀ fault, undoDiff base diff = .error fault →
        (∃ cause, fault = .invalidFormat cause) ∨ (∃ cause, fault = .io cause) ∨
          ∃ run, fault = .missingDeletePayload run := by
  obtain ⟨front, rest, ops, rfl, hitems, hstuck, hruns, hdecode⟩ := exists_decoding diff
  have happly : applyDiff base (front ++ rest) = replayUntil ops (readEnding rest) base :=
    hruns.replayOn base
  have hundo : undoDiff base (front ++ rest) =
      replayUntil ops.undo.1 (ops.undo.2.or (readEnding rest)) base :=
    hruns.under_undo.replayOn base
  have happlied (fault : Fault) : applyDiff base (front ++ rest) = .error fault ↔
      Stumbles .ok (front ++ rest) base fault := by
    rw [happly, ← streamed_ok, streamed_eq_error_iff hitems hstuck]
  have hundone (fault : Fault) : undoDiff base (front ++ rest) = .error fault ↔
      Stumbles Op.undo (front ++ rest) base fault := by
    rw [hundo, ← streamed_undo, streamed_eq_error_iff hitems hstuck]
  refine ⟨⟨fun out => ?_, happlied, fun fault hf => ?_⟩, fun out => ?_, hundone, fun fault hf => ?_⟩
  · rw [happly, replayUntil_eq_ok_iff]
    constructor
    · rintro ⟨hend, hplay⟩
      exact ⟨ops, (hdecode ops).2 ⟨hend, rfl⟩, hplay⟩
    · rintro ⟨ops', hd, hplay⟩
      obtain ⟨hend, rfl⟩ := (hdecode ops').1 hd
      exact ⟨hend, hplay⟩
  · rcases ((happlied fault).1 hf).kind with hformat | hio | ⟨op, ht⟩
    · exact .inl hformat
    · exact .inr hio
    · cases ht
  · rw [hundo, replayUntil_eq_ok_iff, Option.or_eq_none_iff]
    constructor
    · rintro ⟨⟨hkept, hend⟩, hplay⟩
      have hfull := unforgotten_of_undo hkept
      rw [hfull.undo_eq] at hplay
      exact ⟨ops, (hdecode ops).2 ⟨hend, rfl⟩, ops.unforgotten_iff.1 hfull, hplay⟩
    · rintro ⟨ops', hd, hfull, hplay⟩
      obtain ⟨hend, rfl⟩ := (hdecode ops').1 hd
      rw [(ops.unforgotten_iff.2 hfull).undo_eq]
      exact ⟨⟨rfl, hend⟩, hplay⟩
  · rcases ((hundone fault).1 hf).kind with hformat | hio | ⟨op, ht⟩
    · exact .inl hformat
    · exact .inr (.inl hio)
    · obtain ⟨run, -, rfl⟩ := undo_op_error ht
      exact .inr (.inr ⟨run, rfl⟩)

/-- A copy that is too long, in front of a byte that is no opcode. -/
example : Script.Stumbles .ok [3, 5, 9] [7, 8] (.io (.endedAfter 2 5)) :=
  have hcopy : Op.Item [3, 5] (.copy 5) := .copy rfl (by decide)
  show Script.Stumbles .ok ([3, 5] ++ [9]) [7, 8] _ from .unplayable hcopy rfl rfl

end BytePatch
