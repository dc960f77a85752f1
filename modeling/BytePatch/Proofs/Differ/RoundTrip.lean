import Mathlib.Algebra.Ring.Nat
import BytePatch.Proofs.Differ.Diff
import BytePatch.Proofs.Stream.Replay
import BytePatch.Proofs.Wire.RoundTrip

/-! Encoded diffs applied and taken back: what applying one makes of the first string is the second
one, and what taking it back makes of the second is the first, unless deleted bytes are
missing. -/
namespace BytePatch

private theorem runs_decoding {ops : Script} (h : ∀ op ∈ ops, op.Valid) :
    (Queue.ofSource (.decoding (Script.encode ops))).Runs ops none :=
  Source.yields_decoding (Script.decode_encode h)

private theorem Script.Edits.replayUntil {ops : Script} {src dst : Bytes} (h : Edits ops src dst)
    (ending : Option Fault) (rest : Bytes) :
    ops.replayUntil ending (src ++ rest) = (fun () => dst) <$> Feed.answer ending := by
  simp [Script.replayUntil, Script.replay, h.play rest, Functor.map, Except.map]

private theorem applyDiff_encode {ops : Script} {orig target : Bytes} (hv : ∀ op ∈ ops, op.Valid)
    (h : Script.Edits ops orig target) : applyDiff orig (Script.encode ops) = .ok target := by
  unfold applyDiff
  rw [(runs_decoding hv).replayOn]
  simpa [Feed.answer, Functor.map, Except.map] using h.replayUntil none []

private theorem undoDiff_encode {ops : Script} {orig target : Bytes} (hv : ∀ op ∈ ops, op.Valid)
    (h : Script.Edits ops orig target) :
    (ops.Unforgotten ∧ undoDiff target (Script.encode ops) = .ok orig) ∨
      ∃ run, .skip run ∈ ops ∧
        undoDiff target (Script.encode ops) = .error (.missingDeletePayload run) := by
  have hruns := (runs_decoding hv).under_undo
  have hundo := h.undo
  unfold undoDiff
  rw [hruns.replayOn]
  cases he : ops.undo.2 with
  | none =>
    rw [he] at hundo
    obtain ⟨hf, hs⟩ := hundo
    refine .inl ⟨hf, ?_⟩
    simpa [Feed.answer, Functor.map, Except.map] using hs.replayUntil none []
  | some fault =>
    rw [he] at hundo
    obtain ⟨run, hm, rfl, a, b, rest, rfl, hs⟩ := hundo
    refine .inr ⟨run, hm, ?_⟩
    simpa [Feed.answer, Functor.map, Except.map] using
      hs.replayUntil (some (.missingDeletePayload run)) rest

/-- Whatever the settings, a diff is computed without failure, and applying it to the one string
gives the other. -/
theorem applyDiff_compute {config : Config} {early : Nat → Bool} {divider : Divider}
    {differ : Differ} (hnew : Differ.new config early divider = .ok differ)
    (hchunk : config.chunkSize < 2 ^ 30)
    {orig target : Bytes} (horig : orig.length < 2 ^ 31) (htarget : target.length < 2 ^ 31) :
    ∃ diff, differ.compute orig target = .ok diff ∧ applyDiff orig diff = .ok target := by
  obtain ⟨hvalid, rfl⟩ := Differ.new_eq_ok_iff.1 hnew
  obtain ⟨ops, hcompute, hmakes⟩ :=
    Differ.exists_script ⟨config, early, divider⟩ hvalid hchunk horig htarget
  exact ⟨_, hcompute, applyDiff_encode hmakes.valid hmakes.edits⟩

/-- A pair cut in chunks, compared in a pool, in part forgotten again. -/
theorem applyDiff_compute_chunked : ∃ diff,
    Differ.compute ⟨⟨3, 2, .myers, true, false, true⟩, Pool.lazy, .myers⟩ [1, 2, 1, 3, 4]
      [2, 1, 3, 3] = .ok diff ∧ applyDiff [1, 2, 1, 3, 4] diff = .ok [2, 1, 3, 3] :=
  applyDiff_compute (show Differ.new ⟨3, 2, .myers, true, false, true⟩ Pool.lazy .myers = .ok _ from
    rfl) (by decide) (by decide) (by decide)

/-- Taking a diff back never gives any other string than the first one. It gives that string if
deleted bytes were to be kept or there are none, and else reports that they are missing. -/
theorem undoDiff_compute {config : Config} {early : Nat → Bool} {divider : Divider}
    {differ : Differ} (hnew : Differ.new config early divider = .ok differ)
    (hchunk : config.chunkSize < 2 ^ 30)
    {orig target : Bytes} (horig : orig.length < 2 ^ 31) (htarget : target.length < 2 ^ 31) :
    ∃ diff ops, differ.compute orig target = .ok diff ∧ Script.decode diff = .ok ops ∧
      (config.keepUndo = true → undoDiff target diff = .ok orig) ∧
      (config.keepUndo = false →
        if ∃ op ∈ ops, op.kind = .delete then
          ∃ run, undoDiff target diff = .error (.missingDeletePayload run)
        else undoDiff target diff = .ok orig) ∧
      ∀ out, undoDiff target diff = .ok out → out = orig := by
  obtain ⟨hvalid, rfl⟩ := Differ.new_eq_ok_iff.1 hnew
  obtain ⟨ops, hcompute, hmakes⟩ :=
    Differ.exists_script ⟨config, early, divider⟩ hvalid hchunk horig htarget
  refine ⟨_, ops, hcompute, Script.decode_encode hmakes.valid, ?_⟩
  rcases undoDiff_encode hmakes.valid hmakes.edits with ⟨hall, hundo⟩ | ⟨run, hm, hundo⟩
  · rw [hundo]
    refine ⟨fun _ => rfl, fun hk => ?_, fun out h => ?_⟩
    · have hnone : ¬ ∃ op ∈ ops, op.kind = .delete := by
        rintro ⟨op, hop, hkind⟩
        have hforgotten := hmakes.forgotten hk op hop
        cases op with
        | skip run => exact hall run hop
        | delete bytes => exact hforgotten bytes rfl
        | _ => cases hkind
      rw [if_neg hnone]
    · cases h
      rfl
  · rw [hundo]
    refine ⟨fun hk => absurd hm (hmakes.unforgotten hk run), fun _ => ?_, nofun⟩
    rw [if_pos ⟨_, hm, rfl⟩]
    exact ⟨run, rfl⟩

/-- Deleted bytes that were kept, in a pair where one of them is copied. -/
theorem undoDiff_compute_kept : ∃ diff ops,
    Differ.compute ⟨⟨2, 1, .inertial, false, true, false⟩, Pool.lazy, .myers⟩ [7, 8, 9] [8, 5] =
      .ok diff ∧ Script.decode diff = .ok ops ∧ undoDiff [8, 5] diff = .ok [7, 8, 9] := by
  obtain ⟨diff, ops, hcompute, hdecode, hkept, -⟩ :=
    undoDiff_compute
      (show Differ.new ⟨2, 1, .inertial, false, true, false⟩ Pool.lazy .myers = .ok _ from rfl)
      (by decide) (show [7, 8, 9].length < 2 ^ 31 by decide) (show [8, 5].length < 2 ^ 31 by decide)
  exact ⟨diff, ops, hcompute, hdecode, hkept rfl⟩

end BytePatch
