import BytePatch.Proofs.Queue.Answers
import BytePatch.Proofs.Script.Edits

/-! Scripts taken back: the way back from what a script makes of a string, as far as it is
remembered, and the layer that goes it op by op. Where deletes are made to forget, none remembers
anything. -/
namespace BytePatch

namespace Script

/-- The ops taken back one by one, and what goes wrong at the first one that cannot be. -/
def undo : Script → Script × Option Fault
  | [] => ([], none)
  | op :: ops =>
    match op.undo with
    | .error fault => ([], some fault)
    | .ok undone => (undone :: (undo ops).1, (undo ops).2)

/-- Nothing of a script is forgotten. -/
def Unforgotten (ops : Script) : Prop := ∀ run, .skip run ∉ ops

private theorem edits_undo_op {op undone : Op} {a b : Bytes} (h : op.Edits a b)
    (hu : op.undo = .ok undone) : undone.Edits b a := by
  cases op with
  | copy run =>
    cases hu
    exact ⟨by rw [h.2]; exact h.1, h.2.symm⟩
  | skip run => cases hu
  | delete bytes =>
    cases hu
    exact ⟨h.2, h.1⟩
  | insert bytes =>
    cases hu
    exact ⟨h.2, h.1⟩

theorem undo_op_error {op : Op} {fault : Fault} (h : op.undo = .error fault) :
    ∃ run, op = .skip run ∧ fault = .missingDeletePayload run := by
  cases op with
  | skip run =>
    cases h
    exact ⟨run, rfl, rfl⟩
  | _ => cases h

/-- A script that is taken back to its end edits the other way. One that is not has come to a
forgotten delete, and up to there it edits what the other string begins with. -/
theorem Edits.undo {ops : Script} {src dst : Bytes} (h : Edits ops src dst) :
    match ops.undo.2 with
    | none => ops.Unforgotten ∧ Edits ops.undo.1 dst src
    | some fault => ∃ run, .skip run ∈ ops ∧ fault = .missingDeletePayload run ∧
      ∃ a b rest, dst = a ++ rest ∧ Edits ops.undo.1 a b := by
  induction h with
  | nil => exact ⟨nofun, .nil⟩
  | @cons op ops a b src dst ho _ ih =>
    rw [Script.undo]
    cases hu : op.undo with
    | error fault =>
      obtain ⟨run, rfl, rfl⟩ := undo_op_error hu
      exact ⟨run, List.mem_cons_self, rfl, [], [], b ++ dst, rfl, .nil⟩
    | ok undone =>
      have hop := edits_undo_op ho hu
      dsimp only
      cases he : (Script.undo ops).2 with
      | none =>
        rw [he] at ih
        obtain ⟨hf, hs⟩ := ih
        refine ⟨fun run hm => ?_, .cons hop hs⟩
        rcases List.mem_cons.1 hm with rfl | hm
        · cases hu
        · exact hf run hm
      | some fault =>
        rw [he] at ih
        obtain ⟨run, hm, hfault, a', b', rest, rfl, hs⟩ := ih
        exact ⟨run, List.mem_cons_of_mem _ hm, hfault, b ++ a', a ++ b', rest, by simp,
          .cons hop hs⟩

end Script

/-- A delete made an insert and an insert a delete. -/
def Op.swapped : Op → Op
  | .delete bytes => .insert bytes
  | .insert bytes => .delete bytes
  | op => op

namespace Script

theorem unforgotten_iff (ops : Script) :
    ops.Unforgotten ↔ ∀ op ∈ ops, op.kind = .delete → op.payload?.isSome := by
  constructor
  · intro h op hop hkind
    cases op with
    | copy run => cases hkind
    | skip run => exact absurd hop (h run)
    | delete bytes => rfl
    | insert bytes => rfl
  · intro h run hrun
    cases h _ hrun rfl

theorem Unforgotten.undo_eq {ops : Script} (h : ops.Unforgotten) :
    ops.undo = (ops.map Op.swapped, none) := by
  induction ops with
  | nil => rfl
  | cons op ops ih =>
    have hrest : Unforgotten ops := fun run hrun => h run (List.mem_cons_of_mem _ hrun)
    rw [undo, ih hrest]
    cases op with
    | copy run => rfl
    | skip run => exact absurd List.mem_cons_self (h run)
    | delete bytes => rfl
    | insert bytes => rfl

theorem unforgotten_of_undo {ops : Script} (h : ops.undo.2 = none) : ops.Unforgotten := by
  induction ops with
  | nil => exact nofun
  | cons op ops ih =>
    rw [undo] at h
    cases hop : op.undo with
    | error fault =>
      rw [hop] at h
      cases h
    | ok undone =>
      rw [hop] at h
      intro run hrun
      rcases List.mem_cons.1 hrun with rfl | hrun
      · cases hop
      · exact ih h run hrun

end Script

/-- An answer with its op taken back, or why it cannot be. -/
def Answer.undone : Answer → Answer
  | .ok (some op) => op.undo.map some
  | answer => answer

namespace Layer
variable {σ : Type} {below : Feed σ}

theorem poll_undo (s : σ) :
    poll below (.new .undo, s) =
      match below.poll s with
      | (.error fault, s') => (.error fault, .new .undo, s')
      | (.ok none, s') => (.ok none, .new .undo, s')
      | (.ok (some op), s') =>
        match op.undo with
        | .error fault => (.error fault, .new .undo, s')
        | .ok undone => (.ok (some undone), .new .undo, s') := by
  simp only [poll, new, Buffers.empty, shift, Pointwise.shift, Pointwise.undo]
  rcases below.poll s with ⟨fault | _ | op, s'⟩
  · rfl
  · rfl
  · dsimp only
    cases op.undo <;> rfl

private theorem runs_undo {s : σ} {ops : List Op} {ending : Option Fault}
    (h : below.Runs s ops ending) :
    (feed below).Runs (.new .undo, s) (Script.undo ops).1
      ((Script.undo ops).2.or ending) := by
  induction h with
  | @dry s s' hp => exact .dry ((poll_undo s).trans (by rw [hp]))
  | @failed s s' fault hp => exact .failed ((poll_undo s).trans (by rw [hp]))
  | @op s s' op ops ending hp _ ih =>
    have hpoll := @poll_undo _ below s
    rw [hp] at hpoll
    rw [Script.undo]
    cases hu : op.undo with
    | error fault =>
      simp only [hu] at hpoll
      exact .failed hpoll
    | ok undone =>
      simp only [hu] at hpoll
      exact .op hpoll ih

/-- Each answer taken back for itself: where an op cannot be, the poll fails, and the next one goes
on. -/
theorem answers_undo {s : σ} {answers : List Answer} {last : Answer}
    (h : below.Answers s answers last) :
    (feed below).Answers (.new .undo, s) (answers.map Answer.undone) last.undone := by
  refine Feed.answers_of_invariant (fun state undone => ∃ answers s, state = (.new .undo, s) ∧
    below.Answers s answers last ∧ undone = answers.map Answer.undone) ?_ ⟨answers, s, rfl, h, rfl⟩
  rintro _ _ ⟨answers, s, rfl, h, rfl⟩
  obtain ⟨hhead, htail⟩ := h.poll
  have hpoll := @poll_undo _ below s
  generalize below.poll s = result at hhead htail hpoll
  obtain ⟨answer, s'⟩ := result
  obtain rfl : answer = answers.headD last := hhead
  have hundone : (answers.map Answer.undone).headD last.undone = (answers.headD last).undone := by
    cases answers <;> rfl
  have hstep : (feed below).poll (.new .undo, s) =
      ((answers.headD last).undone, (.new .undo, s')) := by
    refine hpoll.trans ?_
    rcases answers.headD last with fault | - | op
    · rfl
    · rfl
    · cases hu : op.undo <;> simp [Answer.undone, hu, Except.map]
  rw [hundone, hstep]
  exact ⟨rfl, answers.tail, s', rfl, htail, List.map_tail.symm⟩

theorem poll_forget (s : σ) :
    poll below (.new .forget, s) =
      match below.poll s with
      | (.error fault, s') => (.error fault, .new .forget, s')
      | (.ok none, s') => (.ok none, .new .forget, s')
      | (.ok (some op), s') => (.ok (some op.forget), .new .forget, s') := by
  simp only [poll, new, Buffers.empty, shift, Pointwise.shift, Pointwise.forget]
  rcases below.poll s with ⟨fault | _ | op, s'⟩ <;> rfl

private theorem runs_forget {s : σ} {ops : List Op} {ending : Option Fault}
    (h : below.Runs s ops ending) :
    (feed below).Runs (.new .forget, s) (ops.map Op.forget) ending := by
  induction h with
  | @dry s s' hp => exact .dry ((poll_forget s).trans (by rw [hp]))
  | @failed s s' fault hp => exact .failed ((poll_forget s).trans (by rw [hp]))
  | @op s s' op ops ending hp _ ih => exact .op ((poll_forget s).trans (by rw [hp])) ih

end Layer

theorem Queue.Runs.under_forget {queue : Queue} {ops : List Op} {ending : Option Fault}
    (h : queue.Runs ops ending) : (queue.under .forget).Runs (ops.map Op.forget) ending :=
  Layer.runs_forget h

theorem Queue.Runs.under_undo {queue : Queue} {ops : List Op} {ending : Option Fault}
    (h : queue.Runs ops ending) :
    (queue.under .undo).Runs (Script.undo ops).1 ((Script.undo ops).2.or ending) :=
  Layer.runs_undo h

/-- The op has no bytes that it could remember. -/
def Op.Forgotten (op : Op) : Prop := ∀ bytes, op ≠ .delete bytes

theorem Op.forgotten_forget (op : Op) : op.forget.Forgotten := by
  cases op <;> exact nofun

/-- Whatever is below, only forgotten ops come out of a layer that makes them forget. -/
private def Layer.forgetting {σ : Type} (below : Feed σ) :
    Account below (.every Op.Forgotten) fun _ => True where
  Sound work _ _ := work = .forget
  rest _ _ _ := []
  refill {work pending s} h _ := by
    obtain rfl := h
    simp only [shift, Pointwise.shift, Pointwise.forget]
    rcases below.poll s with ⟨fault | _ | op, s'⟩
    · trivial
    · exact ⟨rfl, id, fun _ => rfl⟩
    · refine ⟨rfl, fun _ other hop => ?_, fun _ => rfl⟩
      obtain rfl : other = op.forget := by simpa [Buffers.pushReady] using hop
      exact op.forgotten_forget

theorem Queue.carries_forgotten (queue : Queue) :
    (queue.under .forget).Carries (.every Op.Forgotten) (fun _ => True) [] :=
  ⟨(Layer.forgetting _).ledger, Layer.Account.sound_new rfl trivial⟩

end BytePatch
