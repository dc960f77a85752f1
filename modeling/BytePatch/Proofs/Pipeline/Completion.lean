import BytePatch.Proofs.Pipeline.Saturation
import BytePatch.Proofs.Queue.Rest
import BytePatch.Proofs.Queue.Towers

/-! Calls that succeed have missed nothing. Whatever failed before, if a pipeline is drained now
without a failure then nothing failed below either, the source has come to its end, and all that it
gave has been handed on, unless a pair was lost. -/
namespace BytePatch

open Feed (given)

/-- No ops are taken by a base that only answers. -/
def Base.answering : Base (List Answer) :=
  { Feed.answering with offer := fun _ answers => (.error (.offerUnsupported .list), answers) }

namespace Pipeline
variable {σ : Type}

/-- What comes on top of a new stack is what its base gave. -/
theorem sound_raised {pipeline : Pipeline} {crews : Nat → Crew} {start : σ} {tower : Tower σ}
    (base : Feed σ) (hraise : pipeline.raise crews start = .ok tower) :
    Recorded.Sound base start tower.depth (.blank _ tower.stack) := by
  obtain ⟨hchunk, works, rfl, hlays⟩ := exists_works_of_raise hraise
  refine Recorded.sound_blank base start fun work hm => ?_
  obtain ⟨stage, -, hl⟩ := hlays work hm
  refine ⟨hl.fresh, ?_⟩
  rintro size rfl
  cases hl
  exact hchunk

private theorem Lays.serial {pipeline : Pipeline} {stage : Stage} {work : Work}
    (h : pipeline.Lays stage work) {aligner : Aligner} (ha : aligner ∈ work.serial?) :
    stage = .graph ∧ aligner = pipeline.aligner := by
  cases h with
  | graph =>
    cases ha
    exact ⟨rfl, rfl⟩
  | _ => cases ha

/-- No pair is lost unless a graph stage comes to a long one. -/
theorem spared_of_short {pipeline : Pipeline} {crews : Nat → Crew} {start : σ} {tower : Tower σ}
    {base : Feed σ} (hraise : pipeline.raise crews start = .ok tower)
    (hpos : base.Gives (fun op => 0 < op.run) start)
    (hshort : .graph ∈ pipeline.stages → base.GivesBelow (2 ^ 31) start) {polled : List Answer}
    {record : Recorded σ tower.depth}
    (hpolls : (Recorded.feed base tower.depth).Polls (.blank _ tower.stack) polled record) :
    record.Spared := by
  have hlast := (sound_raised base hraise).advances hpolls
  have hgiven := hpos _ _ hlast.sound.polls_base
  refine hlast.sound.spared hgiven fun aligner ha orig target htarget _ hlost => ?_
  rw [hlast.serials_eq, Recorded.stack_blank] at ha
  obtain ⟨-, works, rfl, hlays⟩ := exists_works_of_raise hraise
  obtain ha | ⟨work, hm, ha⟩ := Tower.exists_serial ha
  · cases ha
  obtain ⟨stage, hstage, hl⟩ := hlays work hm
  obtain ⟨rfl, rfl⟩ := hl.serial ha
  rw [strategy_aligner, Method.loses_strategyWith_iff] at hlost
  have hlong := Nat.le_trans hlost.length_le (Nat.add_le_add_right htarget 4)
  have hbelow := hshort hstage _ _ hlast.sound.polls_base
  exact absurd (Nat.lt_of_le_of_lt hlong (Nat.add_lt_add_right hbelow 4)) (by decide)

/-- Polls before the call may have failed or not. If the call succeeds, no poll made meanwhile fails
at any level. Unless a stage that compares serially has ever come to a pair of which no op came, the
last thing the source says is that there is nothing more, and no op is left anywhere. -/
theorem call_completes {base : Base σ} {start : σ} {pipeline : Pipeline} {crews : Nat → Crew}
    {tower : Tower σ} (hraise : pipeline.raise crews start = .ok tower)
    (hvalid : base.Gives Op.Valid start) {earlier : List Answer} {stack after : Stack σ tower.depth}
    (hearlier : (Stack.feed base tower.depth).Polls tower.stack earlier stack) {call : Call}
    (hcall : (Stack.feed base tower.depth).call stack call = (.ok (), after)) :
    ∃ before record : Recorded σ tower.depth,
      (Recorded.feed base.toFeed tower.depth).Polls (.blank _ tower.stack) earlier before ∧
      before.stack = stack ∧
      (Recorded.feed base.toFeed tower.depth).call before call = (.ok (), record) ∧
      record.stack = after ∧ Recorded.CleanSince _ before record ∧
      (record.Spared → record.Spent) := by
  obtain ⟨before, record, hbefore, hstack, hr, hafter⟩ := Recorded.exists_call hearlier hcall
  obtain ⟨polled, hpolled, hclean, hdry⟩ := Feed.polls_call hr
  have hcalled := ((sound_raised base.toFeed hraise).advances hbefore).sound.advances hpolled
  have hpos : ∀ op ∈ given record.baseAnswers, 0 < op.run := fun op hop =>
    (hvalid _ _ hcalled.sound.polls_base op hop).1
  exact ⟨before, record, hbefore, hstack, hr, hafter, hcalled.clean hclean,
    hcalled.spent hdry hpos⟩

section Broken

private abbrev failure : Answer := .error (.io .unfilled)

private abbrev rest : List Answer := [.ok (some (.insert [9]))]

private abbrev pumping (pump : Pump) (answers : List Answer) : Tower (List Answer) :=
  ⟨2, (.new (.pump pump), (.new .forget, answers))⟩

private theorem keepAll_eq (kept : List Op) (op : Op) :
    Feed.keepAll kept op = .more (op :: kept) := rfl

private theorem poll_broken :
    (Stack.feed Base.answering 2).poll
        (pumping .new (.ok (some (.delete [7])) :: failure :: rest)).stack =
      (failure, (pumping ⟨[], [.skip 1], false⟩ rest).stack) := by
  have hfirst : (Layer.feed Feed.answering).poll
      (.new .forget, .ok (some (.delete [7])) :: failure :: rest) =
        (.ok (some (.skip 1)), (.new .forget, failure :: rest)) := rfl
  have hsecond : (Layer.feed Feed.answering).poll (.new .forget, failure :: rest) =
      (failure, (.new .forget, rest)) := rfl
  have hfill : Pump.fill (Layer.feed Feed.answering) .new
      (.new .forget, .ok (some (.delete [7])) :: failure :: rest) =
        (.error (.io .unfilled), ⟨[], [.skip 1], false⟩, (.new .forget, rest)) := by
    simp [Pump.fill, Pump.new, Feed.drain, Feed.consume_more hfirst (keepAll_eq _ _),
      Feed.consume_failed hsecond]
  exact Layer.poll_pump_failed hfill

private theorem drain_rest :
    (Stack.feed Base.answering 2).drain (pumping ⟨[], [.skip 1], false⟩ rest).stack =
      (.ok (), [.skip 1, .insert [9]], (pumping ⟨[.insert [9], .skip 1], [], true⟩ []).stack) := by
  have hlast : (Layer.feed Feed.answering).poll (.new .forget, rest) =
      (.ok (some (.insert [9])), (.new .forget, [])) := rfl
  have hdry : (Layer.feed Feed.answering).poll (.new .forget, []) =
      (.ok none, (.new .forget, [])) := rfl
  have hfill : Pump.fill (Layer.feed Feed.answering) ⟨[], [.skip 1], false⟩ (.new .forget, rest) =
      (.ok (), ⟨[], [.skip 1, .insert [9]], true⟩, (.new .forget, [])) := by
    simp [Pump.fill, Feed.drain, Feed.consume_more hlast (keepAll_eq _ _), Feed.consume_dry hdry]
  have hskip : (Stack.feed Base.answering 2).poll (pumping ⟨[], [.skip 1], false⟩ rest).stack =
      (.ok (some (.skip 1)), (pumping ⟨[.skip 1], [.insert [9]], true⟩ []).stack) :=
    Layer.poll_pump hfill
  have hinsert : (Stack.feed Base.answering 2).poll
      (pumping ⟨[.skip 1], [.insert [9]], true⟩ []).stack =
        (.ok (some (.insert [9])), (pumping ⟨[.insert [9], .skip 1], [], true⟩ []).stack) := rfl
  have hend : (Stack.feed Base.answering 2).poll
      (pumping ⟨[.insert [9], .skip 1], [], true⟩ []).stack =
        (.ok none, (pumping ⟨[.insert [9], .skip 1], [], true⟩ []).stack) := rfl
  simp [Feed.drain, Feed.consume_more hskip (keepAll_eq _ _),
    Feed.consume_more hinsert (keepAll_eq _ _), Feed.consume_dry hend]

/-- A poll that fails midway, and then a drain that succeeds with the op from before the failure and
the op from after it. -/
theorem call_completes_broken :
    ∃ before record : Recorded (List Answer) 2,
      (Recorded.feed Feed.answering 2).Polls
        (.blank 2 (pumping .new (.ok (some (.delete [7])) :: failure :: rest)).stack) [failure]
          before ∧
      (Recorded.feed Feed.answering 2).call before .drain = (.ok (), record) ∧
      Recorded.CleanSince 2 before record ∧ record.Spent := by
  have hraise : raise ⟨[.oneWay, .pump], 2, .inertial, 1, none, .myers⟩ (fun _ => .ok Pool.lazy)
      (.ok (some (.delete [7])) :: failure :: rest) =
        .ok (pumping .new (.ok (some (.delete [7])) :: failure :: rest)) := rfl
  have hvalid : Base.answering.Gives Op.Valid (.ok (some (.delete [7])) :: failure :: rest) :=
    Feed.gives_answering (by decide)
  have hcall : (Stack.feed Base.answering 2).call (pumping ⟨[], [.skip 1], false⟩ rest).stack
      .drain = (.ok (), (pumping ⟨[.insert [9], .skip 1], [], true⟩ []).stack) :=
    Feed.call_drain drain_rest
  obtain ⟨before, record, hbefore, -, hrecord, hstack, hclean, hspent⟩ :=
    call_completes hraise hvalid (.single poll_broken) hcall
  obtain ⟨polled, hpolled, -⟩ := Feed.polls_call hrecord
  have hpos := hvalid.imp fun _ h => h.1
  have hspared := spared_of_short hraise hpos (by simp) (hbefore.append hpolled)
  exact ⟨before, record, hbefore, hrecord, hclean, hspent hspared⟩

end Broken

section Lost

private abbrev serial (aligner : Aligner) (ops : Script) : Stack Source 1 :=
  (.new (.align aligner), .ofList ops)

private theorem exists_call_of_lost {aligner : Aligner} {orig target : Bytes}
    (h : aligner.align orig target = .ok []) (op : Op) :
    ∃ record : Recorded Source 1,
      (Recorded.feed Source.base.toFeed 1).call
        (.blank 1 (serial aligner [.delete orig, .insert target, op])) .drain = (.ok (), record) ∧
      (Stack.feed Source.base 1).call (serial aligner [.delete orig, .insert target, op]) .drain =
        (.ok (), record.stack) ∧ ¬ record.Spent := by
  have hcall : (Stack.feed Source.base 1).call (serial aligner [.delete orig, .insert target, op])
      .drain = (.ok (), serial aligner [op]) :=
    Feed.call_drain (Align.drain_lost rfl h (Source.require_pair _ _ _))
  obtain ⟨before, record, hbefore, -, hr, hstack⟩ := Recorded.exists_call .nil hcall
  cases hbefore
  refine ⟨record, hr, hstack ▸ hcall, fun hspent => ?_⟩
  have hworks : ∀ work ∈ [Work.align aligner],
      work.Fresh ∧ ∀ size, work = .chunk size → 0 < size := by simp [Work.Fresh]
  have hsound : Recorded.Sound Source.base.toFeed _ 1
      (.blank 1 (serial aligner [.delete orig, .insert target, op])) :=
    Recorded.sound_blank Source.base.toFeed _ hworks
  obtain ⟨polled, hpolled, -⟩ := Feed.polls_call hr
  have hlast := hsound.advances hpolled
  -- With nothing left the stack would have come to its end, but it gives the op.
  obtain ⟨s', hnone, -⟩ := (hlast.sound.over (fun _ => Source.over_of_exhausted) hspent).poll
  have hsome : (Stack.feed Source.base 1).poll (serial aligner [op]) =
      (.ok (some op), serial aligner []) := Align.poll_last rfl rfl
  rw [← hstack, hnone] at hsome
  cases hsome

/-- The drain succeeds, and a copy is still there. -/
theorem not_spent_flooding :
    ∃ tower, graphing.raise (fun _ => .ok Pool.lazy) (Source.ofList (flooding ++ [.copy 1])) =
        .ok tower ∧
      Source.base.Gives Op.Valid (.ofList (flooding ++ [.copy 1])) ∧
      ∃ record, (Recorded.feed Source.base.toFeed tower.depth).call (.blank _ tower.stack) .drain =
          (.ok (), record) ∧
        (Stack.feed Source.base tower.depth).call tower.stack .drain = (.ok (), record.stack) ∧
        ¬ record.Spent := by
  obtain ⟨record, hrecorded, hcall, hspent⟩ := exists_call_of_lost align_flooding (.copy 1)
  have hraise : graphing.raise (fun _ => .ok Pool.lazy) (Source.ofList (flooding ++ [.copy 1])) =
      .ok ⟨1, serial graphing.aligner (flooding ++ [.copy 1])⟩ := rfl
  have hvalid : ∀ op ∈ flooding ++ [.copy 1], op.Valid :=
    List.forall_mem_append.2 ⟨valid_flooding, by decide⟩
  exact ⟨_, hraise, Source.gives_list hvalid, record, hrecorded, hcall, hspent⟩

end Lost

end Pipeline

end BytePatch
