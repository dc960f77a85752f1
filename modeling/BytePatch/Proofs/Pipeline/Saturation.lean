import BytePatch.Proofs.Pipeline.Building
import BytePatch.Proofs.Stage.Losses

/-! Where lengths and prices saturate: a pair that comes to the largest number is lost, and nothing
fails. -/
namespace BytePatch

namespace Align

private theorem runs_ready (aligner : Aligner) (ready : List Op) :
    (Layer.feed Source.feed).Runs (⟨⟨ready, []⟩, .align aligner⟩, .ofList []) ready none := by
  induction ready with
  | nil =>
    have hpoll : Layer.poll Source.feed (⟨⟨[], []⟩, .align aligner⟩, .ofList []) =
        (.ok none, ⟨⟨[], []⟩, .align aligner⟩, .ofList []) := by
      simp [Layer.poll, Layer.shift, shift, Source.require_nil, Buffers.flush]
    exact .dry hpoll
  | cons op ready ih => exact .op rfl ih

theorem runs_pair {aligner : Aligner} {orig target : Bytes} {script : Script}
    (h : aligner.align orig target = .ok script) :
    ((Queue.ofSource (.ofList [.delete orig, .insert target])).under (.align aligner)).Runs
      script none := by
  suffices key : (Layer.feed Source.feed).Runs
      (.new (.align aligner), .ofList [.delete orig, .insert target]) script none from key
  cases script with
  | nil => exact .dry (poll_lost rfl h (Source.require_pair _ _ []))
  | cons op script =>
    have hpoll : Layer.poll Source.feed
        (.new (.align aligner), .ofList [.delete orig, .insert target]) =
          (.ok (some op), ⟨⟨script, []⟩, .align aligner⟩, .ofList []) := by
      simp [Layer.poll, Layer.shift, Layer.new, shift, Buffers.empty, Source.require_pair, Op.pair?, h]
    exact .op hpoll (runs_ready aligner script)

/-- What comes after a lost pair stays behind when a list is drained. The next poll finds it. -/
theorem exists_drain_lost {aligner : Aligner} {orig target : Bytes}
    (h : aligner.align orig target = .ok []) (op : Op) : ∃ after,
    ((Queue.ofSource (.ofList [.delete orig, .insert target, op])).under (.align aligner)).drain =
        (.ok (), [], after) ∧
      after.poll.1 = .ok (some op) := by
  have hdrain : (Stack.feed Source.base 1).drain
      (.new (.align aligner), .ofList [.delete orig, .insert target, op]) =
        (.ok (), [], .new (.align aligner), .ofList [op]) :=
    drain_lost rfl h (Source.require_pair _ _ _)
  have hpoll : (Layer.feed Source.feed).poll (.new (.align aligner), .ofList [op]) =
      (.ok (some op), .new (.align aligner), .ofList []) := poll_last rfl rfl
  exact ⟨_, Queue.drain_of_stack hdrain, congrArg Prod.fst hpoll⟩

end Align

namespace Pipeline

/-- The method cannot tell the paths between the two strings from none. -/
def Lost (method : Method) (orig target : Bytes) : Prop :=
  method = .edit ∧ orig.length = 1 ∧ target.length = Nearest.farthest ∨
    method = .inertial ∧ orig.length + Priced.ceiling ≤ target.length

theorem target_ne_nil_of_lost {method : Method} {orig target : Bytes}
    (h : Lost method orig target) : target ≠ [] := by
  rintro rfl
  rcases h with ⟨-, -, h⟩ | ⟨-, h⟩
  · cases h
  · exact absurd (Nat.le_trans (Nat.le_add_left _ _) h) (by decide)

theorem play_script_of_lost (divider : Divider) {method : Method} {orig target : Bytes}
    (h : Lost method orig target) :
    ∃ rest, ((method.strategyWith divider).script orig target).play orig = .ok ([], rest) := by
  rcases h with ⟨rfl, ho, ht⟩ | ⟨rfl, hlong⟩
  · obtain ⟨byte, rfl⟩ := List.length_eq_one_iff.1 ho
    have hscript : (Method.edit.strategyWith divider).script [byte] target = [.delete [byte]] := by
      change Path.scriptBack (Nearest.trail [byte] target) = _
      rw [Nearest.trail_farthest byte ht]
      rfl
    rw [hscript]
    exact ⟨_, rfl⟩
  · have hscript : (Method.inertial.strategyWith divider).script orig target = [] := by
      change Path.scriptBack (Priced.trail .encoding orig target) = _
      rw [Priced.trail_encoding_eq_nil hlong]
      rfl
    rw [hscript]
    exact ⟨_, rfl⟩

theorem build_graph {pipeline : Pipeline} (crews : Nat → Crew) (hstages : pipeline.stages = [.graph])
    (hchunk : 1 ≤ pipeline.chunk) (hcount : pipeline.chunk + 1 < 2 ^ 32) (queue : Queue) :
    pipeline.build crews queue = .ok (queue.under (.align pipeline.aligner)) := by
  have hpos : pipeline.chunk ≠ 0 := Nat.pos_iff_ne_zero.1 hchunk
  simp [build, works, work, hstages, hpos, (graph_of_lt hcount).1, Functor.map, Except.map]

/-- Pairs are compared by price, and there is room for more cells than prices can be counted to. -/
abbrev graphing : Pipeline := ⟨[.graph], 2 ^ 17, .inertial, 1, none, .myers⟩

/-- More bytes are inserted than can be paid for. -/
abbrev flooding : Script := [.delete [0], .insert (List.replicate (2 ^ 32) 0)]

theorem build_graphing (crews : Nat → Crew) (queue : Queue) :
    graphing.build crews queue = .ok (queue.under (.align graphing.aligner)) :=
  build_graph crews rfl (by decide) (by decide) queue

theorem lost_flooding : Lost .inertial [0] (List.replicate (2 ^ 32) 0) := by
  refine .inr ⟨rfl, ?_⟩
  rw [List.length_replicate]
  decide

theorem hasRoom_flooding : graphing.aligner.HasRoom [0] (List.replicate (2 ^ 32) 0) := by
  rw [(graph_of_lt (by decide)).2, Aligner.HasRoom, Aligner.cells, List.length_replicate]
  decide

theorem align_flooding : graphing.aligner.align [0] (List.replicate (2 ^ 32) 0) = .ok [] := by
  have hlost : Method.inertial.Loses [0] (List.replicate (2 ^ 32) 0) := by
    refine Method.loses_of_length ?_
    rw [List.length_replicate]
    decide
  rw [Aligner.align_of_fits hasRoom_flooding, strategy_aligner, hlost.script_eq_nil]

theorem valid_flooding : ∀ op ∈ flooding, op.Valid := by
  have hinsert : Op.Valid (.insert (List.replicate (2 ^ 32) 0)) := by
    rw [Op.Valid, Op.run, List.length_replicate]
    decide
  exact List.forall_mem_cons.2 ⟨by decide, List.forall_mem_singleton.2 hinsert⟩

end Pipeline

end BytePatch
