import BytePatch.Proofs.Stage.Undo
import BytePatch.Proofs.Stream.Replay

/-! Scripts taken back with the bytes of the string they were made for. Nothing needs to be
remembered then, and where all is remembered rightly it comes to what taking back comes to. -/
namespace BytePatch

namespace Op

/-- What takes an op back that finds the given bytes in front of it. -/
def rewound : Op → Bytes → Op
  | .copy run, _ => .copy run
  | .skip run, orig => .insert (orig.take run)
  | .delete bytes, orig => .insert (orig.take bytes.length)
  | .insert bytes, _ => .delete bytes

private theorem rewound_of_play {op : Op} {orig out rest : Bytes}
    (h : op.play orig = .ok (out, rest)) :
    op.reach ≤ orig.length ∧ rest = orig.drop op.reach ∧
      (op.rewound orig).Edits out (orig.take op.reach) := by
  have passing {run : Nat} (h : play.passing run orig = .ok (out, rest)) :
      run ≤ orig.length ∧ rest = orig.drop run ∧ out = [] := by
    unfold play.passing at h
    split at h
    · next hle =>
      cases h
      exact ⟨hle, rfl, rfl⟩
    · cases h
  cases op with
  | copy run =>
    rw [play] at h
    split at h
    · next hle =>
      cases h
      exact ⟨hle, rfl, List.length_take_of_le hle, rfl⟩
    · cases h
  | skip run =>
    obtain ⟨hle, rfl, rfl⟩ := passing h
    exact ⟨hle, rfl, rfl, rfl⟩
  | delete bytes =>
    obtain ⟨hle, rfl, rfl⟩ := passing h
    exact ⟨hle, rfl, rfl, rfl⟩
  | insert bytes =>
    cases h
    exact ⟨Nat.zero_le _, rfl, rfl, rfl⟩

private theorem rewind_eq {op : Op} {orig : Reader} (hf : orig.failure? = none) {out rest : Bytes}
    (h : op.play orig.contents = .ok (out, rest)) :
    ∃ left : Reader, op.rewind orig = (.ok (op.rewound orig.contents), left) ∧
      left.contents = rest ∧ left.failure? = none := by
  obtain ⟨hle, rfl, -⟩ := rewound_of_play h
  obtain ⟨left, htake, hcontents, hfailure⟩ := Reader.take_eq hf op.reach
  have restored {run : Nat} (hr : op.reach = run) :
      rewind.restored orig run = (.ok (.insert (orig.contents.take run)), left) := by
    subst hr
    simp [rewind.restored, htake, hle]
  cases op with
  | copy run =>
    refine ⟨left, ?_, hcontents, hfailure⟩
    rw [reach] at htake hle
    simp [rewind, htake, shortfall?, hle, rewound]
  | skip run => exact ⟨left, restored rfl, hcontents, hfailure⟩
  | delete bytes => exact ⟨left, restored rfl, hcontents, hfailure⟩
  | insert bytes => exact ⟨orig, rfl, rfl, hf⟩

private theorem reach_forget (op : Op) : op.forget.reach = op.reach := by
  cases op <;> rfl

private theorem play_forget (op : Op) : op.forget.play = op.play := by
  cases op <;> rfl

end Op

namespace Script

/-- The ops taken back one by one, each with what it finds in front of it. -/
def rewound : Script → Bytes → Script
  | [], _ => []
  | op :: ops, orig => op.rewound orig :: rewound ops (orig.drop op.reach)

private theorem play_cons_ok {op : Op} {ops : Script} {orig out rest : Bytes}
    (h : play (op :: ops) orig = .ok (out, rest)) :
    ∃ b mid dst, op.play orig = .ok (b, mid) ∧ ops.play mid = .ok (dst, rest) ∧ out = b ++ dst := by
  rw [play] at h
  split at h
  · cases h
  next b mid hop =>
  split at h
  · cases h
  next dst rest' hops =>
  cases h
  exact ⟨b, mid, dst, hop, hops, rfl⟩

/-- A script that plays is taken back from what it makes to what it uses up. -/
theorem edits_rewound {ops : Script} {orig out rest : Bytes} (h : ops.play orig = .ok (out, rest)) :
    ∃ src, orig = src ++ rest ∧ Edits (ops.rewound orig) out src := by
  induction ops generalizing orig out rest with
  | nil =>
    cases h
    exact ⟨[], rfl, .nil⟩
  | cons op ops ih =>
    obtain ⟨b, mid, dst, hop, hops, rfl⟩ := play_cons_ok h
    obtain ⟨-, rfl, hedits⟩ := Op.rewound_of_play hop
    obtain ⟨src, hsrc, hrest⟩ := ih hops
    refine ⟨orig.take op.reach ++ src, ?_, .cons hedits hrest⟩
    rw [List.append_assoc, ← hsrc, List.take_append_drop]

private theorem play_map_forget (ops : Script) (orig : Bytes) :
    play (ops.map Op.forget) orig = ops.play orig := by
  induction ops generalizing orig with
  | nil => rfl
  | cons op ops ih =>
    rw [List.map_cons, play, play, op.play_forget]
    simp only [ih]

private theorem rewound_map_forget {ops : Script} {orig : Bytes} (hr : ops.Remembers orig)
    (hu : ops.Unforgotten) : rewound (ops.map Op.forget) orig = ops.map Op.swapped := by
  induction ops generalizing orig with
  | nil => rfl
  | cons op ops ih =>
    obtain ⟨hop, hops⟩ := hr
    have hrest : Unforgotten ops := fun run hrun => hu run (List.mem_cons_of_mem _ hrun)
    have hfirst : op.forget.rewound orig = op.swapped := by
      cases op with
      | copy run => rfl
      | skip run => exact absurd List.mem_cons_self (hu run)
      | delete bytes => exact congrArg Op.insert (hop bytes rfl)
      | insert bytes => rfl
    rw [List.map_cons, rewound, hfirst, op.reach_forget, ih hops hrest, List.map_cons]

end Script

namespace Layer
variable {σ : Type} {below : Feed σ}

private theorem poll_rewind (orig : Reader) (s : σ) :
    poll below (.new (.rewind orig), s) =
      match below.poll s with
      | (.error fault, s') => (.error fault, .new (.rewind orig), s')
      | (.ok none, s') => (.ok none, .new (.rewind orig), s')
      | (.ok (some op), s') =>
        match op.rewind orig with
        | (.error fault, rest) => (.error fault, .new (.rewind rest), s')
        | (.ok undone, rest) => (.ok (some undone), .new (.rewind rest), s') := by
  simp only [poll, new, Buffers.empty, shift, Pointwise.shift]
  rcases below.poll s with ⟨fault | _ | op, s'⟩
  · rfl
  · rfl
  · dsimp only
    rcases op.rewind orig with ⟨fault | undone, rest⟩ <;> rfl

private theorem runs_rewind {s : σ} {ops : List Op} {ending : Option Fault}
    (h : below.Runs s ops ending) {orig : Reader} (hf : orig.failure? = none) {out rest : Bytes}
    (hp : Script.play ops orig.contents = .ok (out, rest)) :
    (feed below).Runs (.new (.rewind orig), s) (Script.rewound ops orig.contents) ending := by
  -- Every op leaves the stream where the ops after it have to find it.
  induction h generalizing orig out rest with
  | @dry s s' hpoll => exact .dry ((poll_rewind orig s).trans (by rw [hpoll]))
  | @failed s s' fault hpoll => exact .failed ((poll_rewind orig s).trans (by rw [hpoll]))
  | @op s s' op ops ending hpoll _ ih =>
    obtain ⟨b, mid, dst, hop, hops, -⟩ := Script.play_cons_ok hp
    obtain ⟨left, hrewind, hcontents, hfailure⟩ := Op.rewind_eq hf hop
    have hfirst : poll below (.new (.rewind orig), s) =
        (.ok (some (op.rewound orig.contents)), .new (.rewind left), s') := by
      rw [poll_rewind, hpoll]
      simp only [hrewind]
    rw [← hcontents] at hops
    have hlater := ih hfailure hops
    rw [hcontents, (Op.rewound_of_play hop).2.1] at hlater
    exact .op hfirst hlater

end Layer

namespace Queue
variable {source : Queue} {ops : Script} {reader : Reader}

theorem Runs.under_rewind {ending : Option Fault} (h : source.Runs ops ending)
    (hreader : reader.failure? = none) {out rest : Bytes}
    (hplay : ops.play reader.contents = .ok (out, rest)) :
    (source.under (.rewind reader)).Runs (ops.rewound reader.contents) ending :=
  Layer.runs_rewind h hreader hplay

/-- With a stream of the string that a script was made for, in whatever blocks it is read, a script
is taken back though its deletes have forgotten their bytes, and just as it is taken back if they
remember them. Any script that plays on the string is taken back so, from what it makes of the
string to what it uses up of it. -/
theorem drain_rewind (hsource : source.Yields ops) (hreader : reader.failure? = none) :
    (ops.Faithful reader.contents → (∀ op ∈ ops, op.kind = .delete → op.payload?.isSome) →
      ∃ out after after',
        ((source.under .forget).under (.rewind reader)).drain = (.ok (), out, after) ∧
        (source.under .undo).drain = (.ok (), out, after')) ∧
    ∀ target, ops.replay reader.contents = .ok target →
      ∃ out after taken left, (source.under (.rewind reader)).drain = (.ok (), out, after) ∧
        ops.play reader.contents = .ok (target, left) ∧ reader.contents = taken ++ left ∧
        Script.replay out target = .ok taken := by
  have exists_play {target : Bytes} (h : ops.replay reader.contents = .ok target) :
      ∃ left, ops.play reader.contents = .ok (target, left) := by
    unfold Script.replay at h
    cases hp : ops.play reader.contents with
    | error cause =>
      rw [hp] at h
      cases h
    | ok result =>
      rw [hp] at h
      cases h
      exact ⟨result.2, rfl⟩
  constructor
  · intro hfaithful hkept
    have hfull := ops.unforgotten_iff.2 hkept
    obtain ⟨target, htarget⟩ := hfaithful.plays
    obtain ⟨left, hplay⟩ := exists_play htarget
    rw [← Script.play_map_forget] at hplay
    have hrewound := hsource.under_forget.under_rewind hreader hplay
    rw [Script.rewound_map_forget hfaithful.remembers hfull] at hrewound
    have hundone := Runs.under_undo hsource
    rw [hfull.undo_eq] at hundone
    obtain ⟨after, hdrain⟩ := hrewound.drain
    obtain ⟨after', hdrain'⟩ := hundone.drain
    exact ⟨_, after, after', hdrain, hdrain'⟩
  · intro target htarget
    obtain ⟨left, hplay⟩ := exists_play htarget
    obtain ⟨taken, hcontents, hedits⟩ := Script.edits_rewound hplay
    obtain ⟨after, hdrain⟩ := (Runs.under_rewind hsource hreader hplay).drain
    refine ⟨_, after, taken, left, hdrain, hplay, hcontents, ?_⟩
    have hback := hedits.play []
    rw [List.append_nil] at hback
    rw [Script.replay, hback]
    rfl

/-- A script that leaves the last byte of the string alone. -/
def replacement : Script := [.copy 2, .delete [3, 4], .insert [9], .copy 3]

/-- The string, read three bytes at a time. -/
def threes : Reader := ⟨[[1, 2, 3], [4, 5, 6], [7, 8]], none⟩

theorem drain_rewind_threes : Script.Faithful replacement threes.contents ∧
    (∃ out after after',
      (((ofSource (.ofList replacement)).under .forget).under (.rewind threes)).drain =
        (.ok (), out, after) ∧
      ((ofSource (.ofList replacement)).under .undo).drain = (.ok (), out, after')) ∧
    ∃ out after taken left,
      ((ofSource (.ofList replacement)).under (.rewind threes)).drain = (.ok (), out, after) ∧
        Script.play replacement threes.contents = .ok ([1, 2, 9, 5, 6, 7], left) ∧
        threes.contents = taken ++ left ∧ Script.replay out [1, 2, 9, 5, 6, 7] = .ok taken := by
  have hfaithful : Script.Faithful replacement threes.contents :=
    ⟨⟨_, rfl⟩, by simp [replacement, threes, Reader.contents, Script.Remembers, Op.reach]⟩
  have hreader : threes.failure? = none := rfl
  obtain ⟨hundone, hplayed⟩ := drain_rewind (yields_list replacement) hreader
  exact ⟨hfaithful, hundone hfaithful (by decide), hplayed _ rfl⟩

end Queue

end BytePatch
