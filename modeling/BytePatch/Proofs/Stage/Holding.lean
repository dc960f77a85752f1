import BytePatch.Proofs.Stage.Turns

/-! Refills of the layers that hold ops besides those in their buffers, and with them of every
layer. Once such a layer has seen that there is nothing more, it takes nothing from below again. -/
namespace BytePatch

open Script (Tames)
open Feed (given Clean Dry)

variable {σ : Type}

namespace Work

/-- What is true of a layer between two refills, whatever became of the polls below. -/
def Serves (pending : List Op) : Work → Prop
  | .coalesce => pending.length ≤ 1
  | .chunk size => 0 < size
  | .undo | .forget | .rewind _ | .pump _ => pending = []
  | .pool state => 0 < state.workers ∧ state.cancelled = false ∧
    (state.isOpen = false → pending = [])
  | _ => True

/-- The layer takes nothing more from below. -/
def Shut : Work → Prop
  | .pump state => state.drained = true
  | .pool state => state.isOpen = false
  | _ => False

/-- What the layer compares pairs with, if it does so itself. -/
def serial? : Work → Option Aligner
  | .align aligner => some aligner
  | _ => none

end Work

/-- All ops in a layer, the ready ones first. -/
def Layer.script (layer : Layer) : Script :=
  layer.buffers.ready ++ (layer.work.held ++ layer.buffers.pending)

/-- No op is left in the layer, neither in its buffers nor to be handed out by a pump, nor in the
chain of a pool. -/
structure Layer.Emptied (layer : Layer) : Prop where
  ready : layer.buffers.ready = []
  pending : layer.buffers.pending = []
  coming : ∀ pump, layer.work = .pump pump → pump.coming = []
  chain : ∀ pool, layer.work = .pool pool → pool.chain = []

theorem Layer.Emptied.of_script {layer : Layer} (h : layer.script = []) : layer.Emptied := by
  obtain ⟨⟨ready, pending⟩, work⟩ := layer
  obtain ⟨hready, hrest⟩ := List.append_eq_nil_iff.1 h
  obtain ⟨hheld, hpending⟩ := List.append_eq_nil_iff.1 hrest
  refine ⟨hready, hpending, ?_, ?_⟩
  · rintro pump rfl
    exact hheld
  · rintro pool rfl
    obtain hnil | ⟨entry, chain, hcons⟩ : pool.chain = [] ∨ ∃ e c, pool.chain = e :: c := by
      cases pool.chain <;> simp
    · exact hnil
    · have hscript : pool.script = [] := hheld
      cases entry <;> simp [Pool.script, hcons, Entry.script] at hscript

/-- What a refill of an empty ready buffer makes of a layer, given what its polls were answered. -/
structure Layer.Turn (layer : Layer) (answers : List Answer) (answer : Except Fault Unit)
    (after : Layer) : Prop where
  tames : Tames (layer.script ++ given answers) after.script
  serves : after.work.Serves after.buffers.pending
  serial : after.work.serial? = layer.work.serial?
  settles : layer.work.serial?.isSome →
    Entry.Settles layer.buffers.pending answers after.buffers.pending
  shut : after.work.Shut → layer.work.Shut ∧ answers = [] ∨ Dry answers
  clean : answer = .ok () → Clean answers
  empty : answer = .ok () → (∀ op ∈ layer.script ++ given answers, 0 < op.run) →
    (∀ aligner ∈ layer.work.serial?,
      Entry.Pairs aligner.Spares (Entry.met layer.buffers.pending answers)) →
    after.buffers.ready = [] → after.script = [] ∧ (after.work.Shut ∨ Dry answers)

/-- What is left after a refill that fails may be anything that is no more than what there was. -/
private theorem Layer.Turn.of_failed {layer after : Layer} {answers : List Answer} {fault : Fault}
    (tames : Tames (layer.script ++ given answers) after.script)
    (serves : after.work.Serves after.buffers.pending)
    (serial : after.work.serial? = layer.work.serial?)
    (settles : layer.work.serial?.isSome →
      Entry.Settles layer.buffers.pending answers after.buffers.pending)
    (shut : after.work.Shut → layer.work.Shut ∧ answers = [] ∨ Dry answers) :
    layer.Turn answers (.error fault) after where
  tames := tames
  serves := serves
  serial := serial
  settles := settles
  shut := shut
  clean ho := by cases ho
  empty ho := by cases ho

namespace Pump

private theorem polls_fill (below : Feed σ) (pump : Pump) (s : σ) :
    ∃ answers, below.Polls s answers (pump.fill below s).2.2 ∧
      (pump.fill below s).2.1.coming = pump.coming ++ given answers ∧
      ((pump.fill below s).2.1.drained = true → pump.drained = true ∧ answers = [] ∨ Dry answers) ∧
      ((pump.fill below s).1 = .ok () → Clean answers ∧ (pump.fill below s).2.1.drained = true) := by
  unfold fill
  by_cases hd : pump.drained = true
  · rw [if_pos hd]
    exact ⟨[], .nil, by simp, fun _ => .inl ⟨hd, rfl⟩, fun _ => ⟨Feed.clean_nil, hd⟩⟩
  rw [if_neg hd]
  obtain ⟨answers, hpolls, hops, hend⟩ := below.polls_drain s
  refine ⟨answers, ?_⟩
  rcases hr : below.drain s with ⟨fault | _, ops, s'⟩
  · rw [hr] at hpolls hops
    exact ⟨hpolls, by rw [← hops], fun h => absurd h hd, nofun⟩
  · rw [hr] at hpolls hops hend
    obtain ⟨hclean, hdry⟩ := hend rfl
    exact ⟨hpolls, by rw [← hops], fun _ => .inr hdry, fun _ => ⟨hclean, rfl⟩⟩

theorem turn (below : Feed σ) (pump : Pump) (s : σ) :
    ∃ answers, below.Polls s answers (shift below pump ⟨[], []⟩ s).2.2.2 ∧
      Layer.Turn ⟨⟨[], []⟩, .pump pump⟩ answers (shift below pump ⟨[], []⟩ s).1
        ⟨(shift below pump ⟨[], []⟩ s).2.2.1, .pump (shift below pump ⟨[], []⟩ s).2.1⟩ := by
  obtain ⟨answers, hpolls, hcoming, hshut, hend⟩ := polls_fill below pump s
  refine ⟨answers, ?_⟩
  unfold shift
  rcases hr : pump.fill below s with ⟨fault | _, pump', s'⟩
  · rw [hr] at hpolls hcoming hshut
    have hcoming : pump'.coming = pump.coming ++ given answers := hcoming
    refine ⟨hpolls, .of_failed ?_ rfl rfl nofun hshut⟩
    simpa [Layer.script, Work.held, hcoming] using Tames.refl _
  · rw [hr] at hpolls hcoming hshut hend
    have hcoming : pump'.coming = pump.coming ++ given answers := hcoming
    obtain ⟨hclean, hdrained⟩ := hend rfl
    dsimp only
    cases hc : pump'.coming with
    | nil =>
      refine ⟨hpolls, ?_, rfl, rfl, nofun, hshut, fun _ => hclean,
        fun _ _ _ _ => ⟨?_, .inl hdrained⟩⟩
      · simpa [Layer.script, Work.held, hcoming] using Tames.refl _
      · simp [Layer.script, Work.held, hc]
    | cons op coming =>
      refine ⟨hpolls, ?_, rfl, rfl, nofun, hshut, fun _ => hclean, fun _ _ _ hn => ?_⟩
      · rw [hc] at hcoming
        simpa [Layer.script, Work.held, Buffers.pushReady, ← hcoming] using Tames.refl _
      · simp [Buffers.pushReady] at hn

end Pump

namespace Pool

private theorem turns_tame : Refinement.tame.Turns := fun _ => Script.tames_pair rfl

/-- What giving the workers work makes of a pool, given what its polls were answered. -/
private structure Pumps (pool : Pool) (buffers : Buffers) (answers : List Answer)
    (answer : Except Fault Unit) (pool' : Pool) (buffers' : Buffers) : Prop where
  tames : Tames (pool.script ++ (buffers.pending ++ given answers))
    (pool'.script ++ buffers'.pending)
  ready : buffers'.ready = buffers.ready
  serves : (Work.pool pool').Serves buffers'.pending
  shut : pool'.isOpen = false → pool.isOpen = false ∧ answers = [] ∨ Dry answers
  clean : answer = .ok () → Clean answers
  empty : answer = .ok () → pool'.chain = [] → pool'.isOpen = false

private theorem Serves.work {aligner : Aligner} {pool : Pool} (h : Serves aligner pool)
    (pending : List Op) : (Work.pool pool).Serves pending :=
  ⟨h.staffed, h.going, fun hc => by simp [h.isOpen] at hc⟩

private theorem not_shut {aligner : Aligner} {pool : Pool} (h : Serves aligner pool) {P : Prop}
    (hc : pool.isOpen = false) : P := by
  simp [h.isOpen] at hc

private theorem polls_pump (below : Feed σ) {pool : Pool} {buffers : Buffers}
    (hserves : (Work.pool pool).Serves buffers.pending) (s : σ) :
    ∃ answers, below.Polls s answers (pump below pool buffers s).2.2.2 ∧
      Pumps pool buffers answers (pump below pool buffers s).1
        (pump below pool buffers s).2.1 (pump below pool buffers s).2.2.1 := by
  obtain ⟨hstaff, hgoing, hclosed⟩ := hserves
  unfold pump
  rw [if_neg (by simp [hgoing])]
  by_cases hopen : pool.isOpen = false
  · rw [if_pos (by simp [hopen])]
    exact ⟨[], .nil, by simpa using Tames.refl _, rfl, ⟨hstaff, hgoing, hclosed⟩,
      fun _ => .inl ⟨hopen, rfl⟩, fun _ => Feed.clean_nil, fun _ _ => hopen⟩
  rw [if_neg (by simpa using hopen)]
  by_cases hidle : pool.idle = false
  · rw [if_pos (by simp [hidle])]
    refine ⟨[], .nil, by simpa using Tames.refl _, rfl, ⟨hstaff, hgoing, hclosed⟩,
      fun hc => absurd hc hopen, fun _ => Feed.clean_nil, fun _ hc => ?_⟩
    -- With an empty chain there is always a worker to spare.
    have hc : pool.chain = [] := hc
    simp [idle, hc, hstaff] at hidle
  rw [if_neg (by simpa using hidle)]
  have hp : Serves pool.aligner pool.looked :=
    ⟨rfl, hstaff, hgoing, by simpa [looked] using hopen⟩
  have hd := dispatch_holds turns_tame pool.looked buffers.pending hp trivial
  cases hm : dispatch pool.looked buffers.pending with
  | done state =>
    rw [hm] at hd
    obtain ⟨⟨hp', hne⟩, hr⟩ := hd
    exact ⟨[], .nil, by simpa [waiting] using hr, rfl, hp'.work _, not_shut hp',
      fun _ => Feed.clean_nil, fun _ hc => absurd hc hne⟩
  | more state =>
    rw [hm] at hd
    obtain ⟨hp', hr⟩ := hd
    obtain ⟨answers, hpolls, hend⟩ := below.polls_consume .tame receive waiting waiting
      (fun state => Serves pool.aligner state.1)
      (fun state => Serves pool.aligner state.1 ∧ state.1.chain ≠ [])
      (fun state op hp => by
        have h := dispatch_holds turns_tame state.1 (state.2 ++ [op]) hp trivial
        simpa [waiting, receive] using h) s hp'
    have hr' : Tames (pool.script ++ (buffers.pending ++ given answers))
        (waiting state ++ given answers) := by
      simpa [waiting] using Tames.postpend hr (given answers)
    refine ⟨answers, ?_⟩
    dsimp only
    generalize below.consume receive state s = result at hpolls hend
    obtain ⟨outcome, s'⟩ := result
    cases outcome with
    | done state' =>
      obtain ⟨hclean, ⟨hp', hne⟩, hk⟩ := hend
      exact ⟨hpolls, hr'.trans hk, rfl, hp'.work _, not_shut hp', fun _ => hclean,
        fun _ hc => absurd hc hne⟩
    | dry state' =>
      obtain ⟨hclean, hdry, hp', hk⟩ := hend
      refine ⟨hpolls, ?_, rfl, ⟨hp'.staffed, hp'.going, fun _ => rfl⟩, fun _ => .inr hdry,
        fun _ => hclean, fun _ _ => rfl⟩
      simpa [script_closed, waiting] using hr'.trans hk
    | failed fault state' =>
      obtain ⟨hp', hk⟩ := hend
      exact ⟨hpolls, hr'.trans hk, rfl, hp'.work _, not_shut hp',
        fun ho => absurd ho (by simp), fun ho => absurd ho (by simp)⟩

private theorem Pumps.kept {pool pool' : Pool} {buffers buffers' : Buffers}
    {answers : List Answer} {answer : Except Fault Unit}
    (h : Pumps pool buffers answers answer pool' buffers') (hready : buffers.ready = []) :
    Tames (Layer.script ⟨buffers, .pool pool⟩ ++ given answers)
      (Layer.script ⟨buffers', .pool pool'⟩) := by
  have hready' : buffers'.ready = [] := h.ready.trans hready
  simpa [Layer.script, Work.held, hready, hready'] using h.tames

private theorem Pumps.first {pool pool' : Pool} {buffers buffers' : Buffers}
    {answers : List Answer} {answer : Except Fault Unit} {entry : Entry} {chain : List Entry}
    (h : Pumps pool buffers answers answer pool' buffers') (hready : buffers.ready = [])
    (hc : pool'.chain = entry :: chain) :
    Tames (Layer.script ⟨buffers, .pool pool⟩ ++ given answers)
      (entry.script ++ Layer.script ⟨buffers', .pool { pool' with chain }⟩) := by
  have hready' : buffers'.ready = [] := h.ready.trans hready
  have hkept := h.kept hready
  simpa [Layer.script, Work.held, script, hready', hc] using hkept

private theorem not_serial {pool : Pool} {P : Prop} (h : (Work.pool pool).serial?.isSome) : P :=
  absurd h Bool.false_ne_true

/-- A refill takes the first entry off the chain. As long as that is a pair of which nothing comes,
the workers are given more, and the next entry is taken. -/
theorem turn (below : Feed σ) {pool : Pool} {buffers : Buffers}
    (hready : buffers.ready = []) (hserves : (Work.pool pool).Serves buffers.pending) (s : σ) :
    ∃ answers, below.Polls s answers (shift below pool buffers s).2.2.2 ∧
      Layer.Turn ⟨buffers, .pool pool⟩ answers (shift below pool buffers s).1
        ⟨(shift below pool buffers s).2.2.1, .pool (shift below pool buffers s).2.1⟩ := by
  fun_induction shift below pool buffers s with
  | case1 pool buffers s fault pool' buffers' s' hp =>
    obtain ⟨answers, hpolls, h⟩ := polls_pump below hserves s
    rw [hp] at hpolls h
    exact ⟨answers, hpolls, .of_failed (h.kept hready) h.serves rfl not_serial h.shut⟩
  | case2 pool buffers s pool' buffers' s' hp hc =>
    obtain ⟨answers, hpolls, h⟩ := polls_pump below hserves s
    rw [hp] at hpolls h
    have hready' : buffers'.ready = [] := h.ready.trans hready
    have hshut := h.empty rfl hc
    have hpending : buffers'.pending = [] := h.serves.2.2 hshut
    refine ⟨answers, hpolls, h.kept hready, h.serves, rfl, not_serial, h.shut, h.clean,
      fun _ _ _ _ => ⟨?_, .inl hshut⟩⟩
    simp [Layer.script, Work.held, hready', hpending, script, hc]
  | case3 pool buffers s pool' buffers' s' hp op chain hc =>
    obtain ⟨answers, hpolls, h⟩ := polls_pump below hserves s
    rw [hp] at hpolls h
    have hready' : buffers'.ready = [] := h.ready.trans hready
    refine ⟨answers, hpolls, ?_, h.serves, rfl, not_serial, h.shut, h.clean, fun _ _ _ hn => ?_⟩
    · have hfirst := h.first hready hc
      simpa [Layer.script, Buffers.pushReady, Entry.script, hready'] using hfirst
    · simp [Buffers.pushReady] at hn
  | case4 pool buffers s pool' buffers' s' hp orig target chain hc fault ha =>
    obtain ⟨answers, hpolls, h⟩ := polls_pump below hserves s
    rw [hp] at hpolls h
    have hlost := (h.first hready hc).trans (Tames.of_sublist (List.sublist_append_right _ _))
    exact ⟨answers, hpolls, .of_failed hlost h.serves rfl not_serial h.shut⟩
  | case5 pool buffers s pool' buffers' s' hp orig target chain hc script ha hr ih =>
    obtain ⟨answers, hpolls, h⟩ := polls_pump below hserves s
    rw [hp] at hpolls h
    obtain ⟨answers', hpolls', h'⟩ := ih (h.ready.trans hready) h.serves
    have hgone := (h.first hready hc).trans (Tames.of_sublist (List.sublist_append_right _ _))
    have hgiven : Tames (Layer.script ⟨buffers, .pool pool⟩ ++ given (answers ++ answers'))
        (Layer.script ⟨buffers', .pool { pool' with chain }⟩ ++ given answers') := by
      rw [Feed.given_append, ← List.append_assoc]
      exact hgone.postpend _
    refine ⟨answers ++ answers', hpolls.append hpolls', hgiven.trans h'.tames, h'.serves, rfl,
      not_serial, ?_, ?_, ?_⟩
    · intro hshut
      rcases h'.shut hshut with ⟨hbefore, rfl⟩ | hdry
      · rw [List.append_nil]
        exact h.shut hbefore
      · exact .inr (hdry.append answers)
    · exact fun ho => (h.clean rfl).append (h'.clean ho)
    · intro ho hpos _ hn
      obtain ⟨hscript, hend⟩ := h'.empty ho (hgiven.pos hpos) (fun _ ha => by cases ha) hn
      exact ⟨hscript, hend.imp id (·.append answers)⟩
  | case6 pool buffers s pool' buffers' s' hp orig target chain hc script ha hr =>
    obtain ⟨answers, hpolls, h⟩ := polls_pump below hserves s
    rw [hp] at hpolls h
    have hready' : buffers'.ready = [] := h.ready.trans hready
    refine ⟨answers, hpolls, ?_, h.serves, rfl, not_serial, h.shut, h.clean,
      fun _ _ _ hn => absurd hn hr⟩
    have hmade := (h.first hready hc).trans ((Script.tames_align ha).postpend _)
    simpa [Layer.script, hready'] using hmade

end Pool

namespace Align

/-- A pair that is refused stays where it is, and a pair of which ops come is settled. -/
theorem turn (aligner : Aligner) (below : Feed σ) (pending : List Op) (s : σ) :
    ∃ answers, below.Polls s answers (shift aligner below ⟨[], pending⟩ s).2.2 ∧
      Layer.Turn ⟨⟨[], pending⟩, .align aligner⟩ answers (shift aligner below ⟨[], pending⟩ s).1
        ⟨(shift aligner below ⟨[], pending⟩ s).2.1, .align aligner⟩ := by
  obtain ⟨answers, s', hpolls, hpulls⟩ := below.pulls_require pending s
  unfold shift
  generalize below.require 2 pending s = result at hpulls
  cases hpulls with
  | @failed ops fault hshort =>
    have hsettles : Entry.Settles (pending ++ ops) [.error fault] (pending ++ ops) :=
      ⟨[], fun _ => rfl⟩
    refine ⟨_, hpolls, .of_failed ?_ trivial rfl (fun _ => ?_) False.elim⟩
    · simpa [Layer.script, Work.held] using Tames.refl _
    · exact (Entry.Settles.refl _).pulled.trans hsettles
  | @dry ops hshort =>
    have hsettles : Entry.Settles (pending ++ ops) [.ok none] [] :=
      ⟨Entry.cut (pending ++ ops), fun _ => rfl⟩
    have hdry : Dry (Answer.each ops ++ [.ok none]) := Feed.dry_singleton.append _
    refine ⟨_, hpolls, ?_, trivial, rfl, fun _ => ?_, False.elim, fun _ => Feed.clean_each_dry ops,
      fun _ _ _ hn => ⟨?_, .inr hdry⟩⟩
    · simpa [Layer.script, Work.held, Buffers.flush] using Tames.refl _
    · exact (Entry.Settles.refl _).pulled.trans hsettles
    · have hnil : pending ++ ops = [] := by simpa [Buffers.flush] using hn
      simp [Layer.script, Work.held, Buffers.flush, hnil]
  | @enough ops a b rest hpending =>
    have hclean : Clean (Answer.each ops) := Feed.clean_each ops
    have hgiven : Layer.script ⟨⟨[], pending⟩, .align aligner⟩ ++ given (Answer.each ops) =
        [a, b] ++ rest := by
      simpa [Layer.script, Work.held] using hpending
    have pulled {pending' : List Op} (h : Entry.Settles (a :: b :: rest) [] pending') :
        Entry.Settles pending (Answer.each ops) pending' := by
      rw [← hpending] at h
      exact h.pulled
    cases hp : a.pair? b with
    | none =>
      have hsettles : Entry.Settles (a :: b :: rest) [] (b :: rest) :=
        ⟨[.single a], fun more => (Entry.cuts_met more).single hp rest⟩
      simp only [hp]
      refine ⟨_, hpolls, ?_, trivial, rfl, fun _ => pulled hsettles, False.elim, fun _ => hclean,
        fun _ _ _ hn => ?_⟩
      · rw [hgiven]
        simpa [Layer.script, Work.held] using Tames.refl _
      · simp at hn
    | some pair =>
      obtain ⟨orig, target⟩ := pair
      have hpair := Script.tames_pair hp
      simp only [hp]
      cases halign : aligner.align orig target with
      | error fault =>
        refine ⟨_, hpolls, .of_failed ?_ trivial rfl (fun _ => pulled (.refl _)) False.elim⟩
        rw [hgiven]
        simpa [Layer.script, Work.held] using Tames.refl _
      | ok script =>
        have hsettles : Entry.Settles (a :: b :: rest) [] rest :=
          ⟨[.pair orig target], fun more => (Entry.cuts_met more).pair hp rest⟩
        refine ⟨_, hpolls, ?_, trivial, rfl, fun _ => pulled hsettles, False.elim, fun _ => hclean,
          fun _ hpos hspares hn => ?_⟩
        · rw [hgiven]
          simpa [Layer.script, Work.held] using
            (hpair.trans (Script.tames_align halign)).postpend rest
        · -- The pair is among those that were met, so some op came of it.
          have hmem : .pair orig target ∈ Entry.met pending (Answer.each ops) := by
            have hmet := Entry.met_each pending ops []
            rw [List.append_nil, hpending] at hmet
            rw [hmet, (Entry.cuts_met []).pair hp rest]
            exact List.mem_cons_self
          rw [hgiven] at hpos
          have horig : 0 < orig.length := (hpair.postpend rest).pos hpos (.delete orig) (by simp)
          obtain ⟨hroom, rfl⟩ := Aligner.align_eq_ok halign
          have hspare := hspares aligner rfl orig target hmem hroom
          have hne := Strategy.script_ne_nil (List.length_pos_iff.1 horig) hspare
          exact absurd (by simpa using hn) hne

end Align

namespace Layer

private theorem turn_of_turns {below : Feed σ} (work after : Work) {pending : List Op} {s : σ}
    {result : Except Fault Unit × Buffers × σ} (hheld : work.held = []) (hheld' : after.held = [])
    (hserial : work.serial? = none) (hserial' : after.serial? = none) (hopen : ¬ after.Shut)
    (h : below.Turns (fun pending => after.Serves pending) pending s result) :
    ∃ answers, below.Polls s answers result.2.2 ∧
      Turn ⟨⟨[], pending⟩, work⟩ answers result.1 ⟨result.2.1, after⟩ := by
  obtain ⟨answers, hpolls, htames, hserves, hend⟩ := h
  refine ⟨answers, hpolls, ?_, hserves, hserial'.trans hserial.symm, ?_, fun hs => absurd hs hopen,
    fun ho => (hend ho).1, ?_⟩
  · simpa [Layer.script, hheld, hheld'] using htames
  · simp [hserial]
  · intro ho _ _ (hn : result.2.1.ready = [])
    obtain ⟨hpending, hdry⟩ := (hend ho).2 hn
    exact ⟨by simp [Layer.script, hheld', hn, hpending], .inr hdry⟩

theorem turn (below : Feed σ) {layer : Layer} (hready : layer.buffers.ready = [])
    (hserves : layer.work.Serves layer.buffers.pending) (s : σ) :
    ∃ answers, below.Polls s answers (shift below layer s).2.2 ∧
      Turn layer answers (shift below layer s).1 (shift below layer s).2.1 := by
  obtain ⟨⟨ready, pending⟩, work⟩ := layer
  obtain rfl : ready = [] := hready
  cases work with
  | coalesce =>
    have h := Coalesce.turns below hserves s
    exact turn_of_turns .coalesce .coalesce rfl rfl rfl rfl id h
  | compact =>
    have h := Compact.turns below pending s
    exact turn_of_turns .compact .compact rfl rfl rfl rfl id h
  | chunk size =>
    have h := Chunk.turns below hserves pending s
    exact turn_of_turns (.chunk size) (.chunk size) rfl rfl rfl rfl id h
  | unchunk =>
    have h := Unchunk.turns below pending s
    exact turn_of_turns .unchunk .unchunk rfl rfl rfl rfl id h
  | undo =>
    obtain rfl : pending = [] := hserves
    have h := Pointwise.turns Pointwise.undo
      (fun h => Script.tames_undo (congrArg Prod.fst h)) below () s
    exact turn_of_turns .undo .undo rfl rfl rfl rfl id h
  | forget =>
    obtain rfl : pending = [] := hserves
    have hrule : ∀ {op t op' t'}, Pointwise.forget op t = (.ok op', t') → Tames [op] [op'] := by
      rintro op t op' t' ⟨⟩
      exact Script.tames_forget op
    have h := Pointwise.turns Pointwise.forget hrule below () s
    exact turn_of_turns .forget .forget rfl rfl rfl rfl id h
  | rewind orig =>
    obtain rfl : pending = [] := hserves
    have h := Pointwise.turns Op.rewind Script.tames_rewind below orig s
    exact turn_of_turns (.rewind orig) (.rewind _) rfl rfl rfl rfl id h
  | pump pump =>
    obtain rfl : pending = [] := hserves
    exact Pump.turn below pump s
  | align aligner => exact Align.turn aligner below pending s
  | pool pool => exact Pool.turn below rfl hserves s

/-- What a poll makes of a layer, given what its own polls below were answered. -/
structure Handing (layer : Layer) (answers : List Answer) (answer : Answer) (after : Layer) :
    Prop where
  tames : Tames (layer.script ++ given answers) (given [answer] ++ after.script)
  serves : after.work.Serves after.buffers.pending
  serial : after.work.serial? = layer.work.serial?
  settles : layer.work.serial?.isSome →
    Entry.Settles layer.buffers.pending answers after.buffers.pending
  shut : after.work.Shut → layer.work.Shut ∧ answers = [] ∨ Dry answers
  clean : ∀ op?, answer = .ok op? → Clean answers
  empty : answer = .ok none → (∀ op ∈ layer.script ++ given answers, 0 < op.run) →
    (∀ aligner ∈ layer.work.serial?,
      Entry.Pairs aligner.Spares (Entry.met layer.buffers.pending answers)) →
    after.script = [] ∧ (after.work.Shut ∨ Dry answers)

private theorem script_of_ready {layer : Layer} {op : Op} {ready : List Op}
    (h : layer.buffers.ready = op :: ready) :
    layer.script = op :: Layer.script { layer with buffers := { layer.buffers with ready } } := by
  simp [script, h]

theorem handing (below : Feed σ) {layer : Layer}
    (hserves : layer.work.Serves layer.buffers.pending) (s : σ) :
    ∃ answers, below.Polls s answers (poll below (layer, s)).2.2 ∧
      Handing layer answers (poll below (layer, s)).1 (poll below (layer, s)).2.1 := by
  unfold poll
  dsimp only
  cases hready : layer.buffers.ready with
  | cons op ready =>
    refine ⟨[], .nil, ?_, hserves, rfl, fun _ => .refl _, fun hs => .inl ⟨hs, rfl⟩,
      fun _ _ => Feed.clean_nil, nofun⟩
    simpa [script_of_ready hready] using Tames.refl _
  | nil =>
    obtain ⟨answers, hpolls, h⟩ := turn below hready hserves s
    generalize shift below layer s = result at hpolls h
    obtain ⟨fault | _, after, s'⟩ := result
    · exact ⟨answers, hpolls, h.tames, h.serves, h.serial, h.settles, h.shut, nofun, nofun⟩
    dsimp only
    cases hafter : after.buffers.ready with
    | nil =>
      exact ⟨answers, hpolls, h.tames, h.serves, h.serial, h.settles, h.shut, fun _ _ => h.clean rfl,
        fun _ hpos hspares => h.empty rfl hpos hspares hafter⟩
    | cons op ready =>
      refine ⟨answers, hpolls, ?_, h.serves, h.serial, h.settles, h.shut, fun _ _ => h.clean rfl,
        nofun⟩
      have ht := h.tames
      rwa [script_of_ready hafter] at ht

end Layer

end BytePatch
