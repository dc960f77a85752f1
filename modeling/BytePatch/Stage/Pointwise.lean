import BytePatch.Queue.Buffers
import BytePatch.Queue.Feed
import BytePatch.Stream.Apply
/-!
Stages that give one op for each op they take: scripts taken back, with the bytes that deletes
remember or with those of the string the script was made for, and deletes made to forget.
-/
namespace BytePatch

/-- The op that takes this one back. A delete that has forgotten its bytes cannot be taken
back. -/
def Op.undo : Op → Except Fault Op
  | .copy run => .ok (.copy run)
  | .skip run => .error (.missingDeletePayload run)
  | .delete bytes => .ok (.insert bytes)
  | .insert bytes => .ok (.delete bytes)

/-- The op that takes this one back, with deleted bytes read from the string it was made for.
What was read is used up even if it was too little. -/
def Op.rewind (op : Op) (orig : Reader) : Except Fault Op × Reader :=
  match op with
  | .copy run =>
    let taken := orig.take run
    match shortfall? run taken with
    | none => (.ok (.copy run), taken.rest)
    | some cause => (.error (.io cause), taken.rest)
  | .skip run => restored run
  | .delete bytes => restored bytes.length
  | .insert bytes => (.ok (.delete bytes), orig)
where
  restored (run : Nat) : Except Fault Op × Reader :=
    let taken := orig.take run
    match taken.failure? with
    | some cause => (.error (.io cause), taken.rest)
    | none =>
      if taken.bytes.length = run then (.ok (.insert taken.bytes), taken.rest)
      else (.error (.io .unfilled), taken.rest)

theorem Op.weight_undo {op undone : Op} (h : op.undo = .ok undone) : undone.weight = op.weight := by
  cases op <;> cases h <;> rfl

theorem Op.weight_rewind_le {op undone : Op} {orig rest : Reader}
    (h : op.rewind orig = (.ok undone, rest)) : undone.weight ≤ op.weight := by
  have key : ∀ run, rewind.restored orig run = (.ok undone, rest) → undone.weight ≤ max 1 run := by
    intro run h
    unfold rewind.restored at h
    dsimp only at h
    split at h
    · cases h
    · split at h
      · next hl => cases h; simp only [weight, Op.run, hl]; omega
      · cases h
  cases op with
  | copy run => simp only [rewind] at h; split at h <;> cases h; exact Nat.le_refl _
  | skip run => exact key run h
  | delete bytes => exact key bytes.length h
  | insert bytes => cases h; exact Nat.le_refl _

namespace Pointwise

variable {σ τ : Type}

/-- Poll once and change the op by a rule with a state of its own. An op to which the rule does
not apply is lost. -/
def shift (rule : Op → τ → Except Fault Op × τ) (feed : Feed σ) (t : τ) (buffers : Buffers)
    (s : σ) : Except Fault Unit × τ × Buffers × σ :=
  match feed.poll s with
  | (.error fault, s) => (.error fault, t, buffers, s)
  | (.ok none, s) => (.ok (), t, buffers, s)
  | (.ok (some op), s) =>
    match rule op t with
    | (.error fault, t) => (.error fault, t, buffers, s)
    | (.ok op, t) => (.ok (), t, buffers.pushReady op, s)

theorem weight_shift_le (rule : Op → τ → Except Fault Op × τ)
    (hrule : ∀ {op t op' t'}, rule op t = (.ok op', t') → op'.weight ≤ op.weight)
    (feed : Feed σ) (t : τ) (buffers : Buffers) (s : σ) :
    (shift rule feed t buffers s).2.2.1.weight + feed.rank (shift rule feed t buffers s).2.2.2 ≤
      buffers.weight + feed.rank s := by
  have h := feed.rank_poll s
  unfold shift
  split <;> rename_i heq <;> rw [heq] at h <;> simp only [Answer.weight] at h
  · dsimp only; omega
  · dsimp only; omega
  · split
    · dsimp only; omega
    · next hr =>
      have := hrule hr
      simp only [Buffers.pushReady, Buffers.weight, Script.weight_append, Script.weight_cons,
        Script.weight_nil]
      omega

/-- Take back each op. -/
def undo (op : Op) (_ : Unit) : Except Fault Op × Unit := (op.undo, ())

/-- Forget deleted bytes. -/
def forget (op : Op) (_ : Unit) : Except Fault Op × Unit := (.ok op.forget, ())

theorem weight_undo_le {op op' : Op} {t t' : Unit} (h : undo op t = (.ok op', t')) :
    op'.weight ≤ op.weight :=
  Nat.le_of_eq (Op.weight_undo (congrArg Prod.fst h))

theorem weight_forget_le {op op' : Op} {t t' : Unit} (h : forget op t = (.ok op', t')) :
    op'.weight ≤ op.weight := by
  cases h
  simp [Op.weight]

end Pointwise

end BytePatch
