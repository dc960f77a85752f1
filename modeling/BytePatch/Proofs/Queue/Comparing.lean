import BytePatch.Proofs.Queue.Carries
import BytePatch.Proofs.Stage.Effort

/-! What the layers of a stack compare pairs with, and how long these pairs are. The one stays as it
is however the stack is polled and whatever it is offered, and the other is bounded by what the stack
weighs. -/
namespace BytePatch

variable {σ : Type}

/-- What the layer compares pairs with, or has its workers compare them with. -/
def Work.aligner? : Work → Option Aligner
  | .align state => some state
  | .pool state => some state.aligner
  | _ => none

/-- What the layers compare pairs with, the topmost first. -/
def Stack.aligners : (depth : Nat) → Stack σ depth → List Aligner
  | 0, _ => []
  | depth + 1, (layer, below) => layer.work.aligner?.toList ++ aligners depth below

namespace Pool

private theorem aligner_dispatch {aligner : Aligner} (pool : Pool) (pending : List Op)
    (h : pool.aligner = aligner) :
    (dispatch pool pending).Holds (·.1.aligner = aligner) (·.1.aligner = aligner) := by
  fun_induction dispatch pool pending with
  | case1 pool a b rest _ queued hi ih => exact ih h
  | case2 => exact h
  | case3 => exact h

private theorem aligner_pump (feed : Feed σ) (pool : Pool) (buffers : Buffers) (s : σ) :
    (pump feed pool buffers s).2.1.aligner = pool.aligner := by
  unfold pump
  by_cases hcancelled : pool.cancelled = true
  · rw [if_pos hcancelled]
  rw [if_neg hcancelled]
  by_cases hclosed : (!pool.isOpen) = true
  · rw [if_pos hclosed]
  rw [if_neg hclosed]
  by_cases hbusy : (!pool.idle) = true
  · rw [if_pos hbusy]
    rfl
  rw [if_neg hbusy]
  have hd := aligner_dispatch pool.looked buffers.pending rfl
  cases hm : dispatch pool.looked buffers.pending with
  | done state =>
    rw [hm] at hd
    exact hd
  | more state =>
    rw [hm] at hd
    -- Of the ops it is enough here that there are some.
    obtain ⟨answers, -, hend⟩ := feed.polls_consume (.every fun _ => True) receive (fun _ => [])
      (fun _ => []) (·.1.aligner = pool.aligner) (·.1.aligner = pool.aligner)
      (fun state op h => (aligner_dispatch state.1 (state.2 ++ [op]) h).imp
        (fun _ h => ⟨h, fun _ _ _ => trivial⟩) (fun _ h => ⟨h, fun _ _ _ => trivial⟩)) s hd
    dsimp only
    generalize feed.consume receive state s = result at hend
    obtain ⟨outcome, s'⟩ := result
    cases outcome with
    | done state' => exact hend.2.1
    | dry state' => exact hend.2.2.1
    | failed fault state' => exact hend.1

theorem aligner_shift (feed : Feed σ) (pool : Pool) (buffers : Buffers) (s : σ) :
    (shift feed pool buffers s).2.1.aligner = pool.aligner := by
  have hpump := aligner_pump feed pool buffers s
  fun_induction shift feed pool buffers s with
  | case5 pool buffers s pool' buffers' s' hp orig target chain hc script ha hr ih =>
    rw [hp] at hpump
    exact (ih (aligner_pump _ _ _ _)).trans hpump
  | _ => simp_all only

end Pool

namespace Layer

theorem aligner?_shift (feed : Feed σ) (layer : Layer) (s : σ) :
    (shift feed layer s).2.1.work.aligner? = layer.work.aligner? := by
  obtain ⟨buffers, work⟩ := layer
  cases work with
  | pool pool => exact congrArg some (pool.aligner_shift feed buffers s)
  | _ => rfl

theorem aligner?_poll (feed : Feed σ) (state : Layer × σ) :
    (poll feed state).2.1.work.aligner? = state.1.work.aligner? := by
  unfold poll
  have hshift := aligner?_shift feed state.1 state.2
  split
  · rfl
  · split <;> rename_i heq <;> rw [heq] at hshift
    · exact hshift
    · split <;> exact hshift

end Layer

namespace Stack
variable {base : Base σ} {depth : Nat}

theorem aligners_poll (base : Base σ) (stack : Stack σ depth) :
    aligners depth ((feed base depth).poll stack).2 = aligners depth stack := by
  induction depth with
  | zero => rfl
  | succ depth ih =>
    obtain ⟨layer, below⟩ := stack
    have polled {s s' : Stack σ depth} {answers : List Answer}
        (hp : (feed base depth).Polls s answers s') : aligners depth s' = aligners depth s := by
      induction hp with
      | nil => rfl
      | @cons s s' s'' answer answers hp _ ihp =>
        have hfirst := ih s
        rw [hp] at hfirst
        exact ihp.trans hfirst
    obtain ⟨answers, hpolls, -⟩ := Layer.briefly_poll (feed base depth) (layer, below)
    have hlayer := Layer.aligner?_poll (feed base depth) (layer, below)
    change aligners (depth + 1) (Layer.poll (feed base depth) (layer, below)).2 = _
    generalize Layer.poll (feed base depth) (layer, below) = result at hpolls hlayer
    obtain ⟨answer, after, below'⟩ := result
    simp only [aligners, hlayer, polled hpolls]

theorem aligners_offer {op : Op} {stack after : Stack σ depth}
    (h : offer base depth op stack = (.ok (), after)) :
    aligners depth after = aligners depth stack := by
  induction depth with
  | zero => rfl
  | succ depth ih =>
    obtain ⟨layer, below⟩ := stack
    rcases offer_ok h with ⟨pump, hw, -, rfl⟩ | ⟨below', -, -, ho, rfl⟩
    · simp [aligners, hw, Work.aligner?]
    · exact congrArg (layer.work.aligner?.toList ++ ·) (ih ho)

/-- An op that is offered adds no more than its own weight. -/
theorem rank_offer_le {op : Op}
    (hbase : ∀ {s s'}, base.offer op s = (.ok (), s') → base.rank s' ≤ base.rank s + op.weight)
    {stack after : Stack σ depth} (h : offer base depth op stack = (.ok (), after)) :
    (feed base depth).rank after ≤ (feed base depth).rank stack + op.weight := by
  induction depth with
  | zero => exact hbase h
  | succ depth ih =>
    obtain ⟨layer, below⟩ := stack
    rcases offer_ok h with ⟨pump, hw, -, rfl⟩ | ⟨below', -, -, ho, rfl⟩
    · obtain ⟨buffers, work⟩ := layer
      obtain rfl : work = .pump pump := hw
      simp only [feed, Layer.feed, Layer.weight, Work.weight, Pump.push, Script.weight_append,
        Script.weight_cons, Script.weight_nil]
      omega
    · have hbelow := ih ho
      simp only [feed, Layer.feed]
      omega

/-- No pair that the layers come to is longer than what the stack weighs. -/
theorem pairs_of_aligners {P : Aligner → Bytes → Bytes → Prop} {stack : Stack σ depth}
    (h : ∀ aligner ∈ aligners depth stack, ∀ orig target : Bytes,
      target.length ≤ (feed base depth).rank stack → P aligner orig target) :
    Stack.Pairs P base depth stack := by
  induction depth with
  | zero => trivial
  | succ depth ih =>
    obtain ⟨⟨⟨ready, pending⟩, work⟩, below⟩ := stack
    have hbelow := (feed base depth).rank_drain_le below
    have hheld : Script.weight (pending ++ (feed base depth).held below) ≤
        (feed base (depth + 1)).rank (⟨⟨ready, pending⟩, work⟩, below) := by
      simp only [feed, Layer.feed, Layer.weight, Buffers.weight_mk, Script.weight_append, Feed.held]
      omega
    have cut {orig target : Bytes}
        (hm : .pair orig target ∈ Entry.cut (pending ++ (feed base depth).held below)) :
        target.length ≤ (feed base (depth + 1)).rank (⟨⟨ready, pending⟩, work⟩, below) :=
      calc target.length
          ≤ (Op.insert target).weight := Nat.le_max_right 1 _
        _ ≤ Script.weight (pending ++ (feed base depth).held below) :=
          le_sumOf Op.weight (Entry.mem_of_pair_mem_cut hm).2
        _ ≤ _ := hheld
    refine ⟨?_, ih fun aligner ha orig target ht => ?_⟩
    · cases work with
      | align aligner =>
        exact fun orig target hm => h aligner List.mem_cons_self orig target (cut hm)
      | pool pool =>
        intro orig target hm
        refine h pool.aligner List.mem_cons_self orig target ?_
        rcases List.mem_append.1 hm with hm | hm
        · have hentry : Entry.weight (.pair orig target) ≤ pool.weight := le_sumOf Entry.weight hm
          have hinsert : target.length ≤ (Op.insert target).weight := Nat.le_max_right 1 _
          simp only [feed, Layer.feed, Layer.weight, Work.weight, Entry.weight] at hentry ⊢
          omega
        · exact cut hm
      | _ => trivial
    · exact h aligner (List.mem_append_right _ ha) orig target
        (Nat.le_trans ht (Nat.le_add_left _ _))

end Stack

theorem Source.rank_offer_le {op : Op} {source after : Source}
    (h : base.offer op source = (.ok (), after)) : base.rank after ≤ base.rank source + op.weight := by
  obtain ⟨buffers, origin⟩ := source
  change offer op ⟨buffers, origin⟩ = _ at h
  cases origin with
  | offered =>
    cases h
    simp only [base, feed, rank, Buffers.pushPending, Buffers.weight, Script.weight_append,
      Script.weight_cons, Script.weight_nil]
    omega
  | _ => cases h

end BytePatch
