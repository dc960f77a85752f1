import BytePatch.Proofs.Stage.Pulling

/-! Refills of the two layers that replace a delete beside an insert by the script of an aligner,
at once or in a pool. The order in which a pool is served has no part in what it holds. -/
namespace BytePatch

/-- What is asked of a relation for pairs in it to be compared: a pair may stand the other way round,
a pair that is refused fails as it may, and nothing stands for nothing only. -/
structure Aligner.Within (aligner : Aligner) (R : Refinement) (Fails : Fault → Prop) : Prop where
  turn {orig target} : R.Fit [.insert target, .delete orig] →
    R.Rel [.insert target, .delete orig] [.delete orig, .insert target]
  refuses {orig target fault} : R.Fit [.delete orig, .insert target] →
    aligner.align orig target = .error fault → Fails fault
  nothing {ops} : R.Rel [] ops → ops = []

/-- The script of a pair stands for the pair, and is not empty. -/
def Aligner.Keeps (R : Refinement) (aligner : Aligner) (orig target : Bytes) : Prop :=
  ∀ {ops}, R.Fit [.delete orig, .insert target] → aligner.align orig target = .ok ops →
    ops ≠ [] ∧ R.Rel [.delete orig, .insert target] ops

/-- All pairs among the entries have the property. -/
def Entry.Pairs (P : Bytes → Bytes → Prop) (entries : List Entry) : Prop :=
  ∀ orig target, .pair orig target ∈ entries → P orig target

namespace Entry

theorem Pairs.tail {P : Bytes → Bytes → Prop} {entry : Entry} {entries : List Entry}
    (h : Pairs P (entry :: entries)) : Pairs P entries :=
  fun orig target hm => h orig target (List.mem_cons_of_mem _ hm)

theorem Pairs.imp {P Q : Bytes → Bytes → Prop} {entries : List Entry} (h : Pairs P entries)
    (hpq : ∀ orig target, P orig target → Q orig target) : Pairs Q entries :=
  fun orig target hm => hpq orig target (h orig target hm)

theorem pairs_nil (P : Bytes → Bytes → Prop) : Pairs P [] := by
  intro orig target hm
  cases hm

end Entry

def Entry.script : Entry → Script
  | .single op => [op]
  | .pair orig target => [.delete orig, .insert target]

/-- What has been taken from the feed and not come out yet, pairs as they were taken. -/
def Pool.script (pool : Pool) : Script := pool.chain.flatMap Entry.script

/-- What is true of a pool between two refills, given its pending ops and what is still below. -/
structure Pool.Steady (pool : Pool) (pending rest : Script) : Prop where
  staffed : 0 < pool.workers
  going : pool.cancelled = false
  closed : pool.isOpen = false → pending = [] ∧ rest = []

variable {σ : Type} {below : Feed σ} {R : Refinement} {Fails : Fault → Prop}

/-- A pair may stand the other way round. -/
def Refinement.Turns (R : Refinement) : Prop :=
  ∀ {orig target}, R.Fit [.insert target, .delete orig] →
    R.Rel [.insert target, .delete orig] [.delete orig, .insert target]

private theorem rel_pair (hturn : R.Turns) {a b : Op} {orig target : Bytes}
    (hp : a.pair? b = some (orig, target)) (hf : R.Fit [a, b]) :
    R.Rel [a, b] [.delete orig, .insert target] := by
  cases a <;> cases b <;> simp [Op.pair?] at hp <;> obtain ⟨rfl, rfl⟩ := hp
  · exact R.refl _
  · exact hturn hf

theorem Align.refills (L : below.Ledger R Fails) {aligner : Aligner}
    (hw : aligner.Within R Fails) {pending : List Op} {s : σ} (hs : L.Sound s)
    (hkeeps : Entry.Pairs (aligner.Keeps R) (Entry.cut (pending ++ below.held s)))
    (hf : R.Fit (pending ++ L.content s)) :
    L.Refills (fun pending s => Entry.Pairs (aligner.Keeps R) (Entry.cut (pending ++ below.held s)))
      (pending ++ L.content s) (shift aligner below ⟨[], pending⟩ s) := by
  have h := L.require 2 _ hs hf
  obtain ⟨answers, s1, hpolls, hpulls⟩ := below.pulls_require pending s
  unfold shift
  generalize below.require 2 pending s = result at h hpulls
  cases hpulls with
  | @enough ops a b rest hpending =>
    obtain ⟨hs1, hr1, -⟩ := h
    have hf1 : R.Fit ([a, b] ++ (rest ++ L.content s1)) := R.fit hr1 hf
    rw [hpolls.held_each, ← List.append_assoc, hpending] at hkeeps
    cases hp : a.pair? b with
    | none =>
      rw [List.cons_append, List.cons_append, Entry.cut_single hp] at hkeeps
      simp only [hp]
      exact ⟨hs1, hkeeps.tail, by simpa using hr1, by simp⟩
    | some pair =>
      obtain ⟨orig, target⟩ := pair
      rw [List.cons_append, List.cons_append, Entry.cut_pair hp] at hkeeps
      have hpair := rel_pair hw.turn hp (R.left hf1)
      have hfp := R.fit hpair (R.left hf1)
      cases ha : aligner.align orig target with
      | error fault =>
        simp only [hp, ha]
        exact hw.refuses hfp ha
      | ok script =>
        obtain ⟨hne, hr⟩ := hkeeps orig target List.mem_cons_self hfp ha
        have hr2 := R.append (R.trans hpair hr) (R.refl (rest ++ L.content s1))
        simp only [hp, ha]
        exact ⟨hs1, hkeeps.tail, by simpa using R.trans hr1 hr2, by simp [hne]⟩
  | @dry ops hshort =>
    obtain ⟨hs1, hr1, -, hnone⟩ := h
    have hheld : below.held s1 = [] := L.held_eq_nil hw.nothing hs1 hnone
    refine ⟨hs1, ?_, by simpa [Buffers.flush, hnone] using hr1, by simp [Buffers.flush, hnone]⟩
    simpa only [Buffers.flush, hheld, List.append_nil, Entry.cut] using Entry.pairs_nil _
  | failed hshort => exact h

namespace Pool

@[simp] theorem script_looked (pool : Pool) : pool.looked.script = pool.script := rfl

private theorem rel_enqueue (hturn : R.Turns) (chain : List Entry) {a b : Op} {pending : List Op}
    (hf : R.Fit (chain.flatMap Entry.script ++ (a :: b :: pending))) :
    R.Rel (chain.flatMap Entry.script ++ (a :: b :: pending))
      ((enqueue chain a b pending).1.flatMap Entry.script ++ (enqueue chain a b pending).2) := by
  unfold enqueue
  cases hp : a.pair? b with
  | none => simpa [Entry.script] using R.refl _
  | some pair =>
    have hf' : R.Fit ([a, b] ++ pending) := R.right hf
    have hr := R.append (rel_pair hturn hp (R.left hf')) (R.refl pending)
    simpa [Entry.script] using R.prepend (chain.flatMap Entry.script) hr

private theorem enqueue_ne_nil (chain : List Entry) (a b : Op) (pending : List Op) :
    (enqueue chain a b pending).1 ≠ [] := by
  unfold enqueue
  split <;> simp

/-- What never changes while a pool is given work. -/
structure Serves (aligner : Aligner) (pool : Pool) : Prop where
  aligner_eq : pool.aligner = aligner
  staffed : 0 < pool.workers
  going : pool.cancelled = false
  isOpen : pool.isOpen = true

def waiting (state : Pool × List Op) : Script := state.1.script ++ state.2

theorem dispatch_holds {aligner : Aligner} (hturn : R.Turns) (pool : Pool) (pending : List Op)
    (hp : Serves aligner pool) (hf : R.Fit (waiting (pool, pending))) :
    (dispatch pool pending).Holds
      (fun state => Serves aligner state.1 ∧ R.Rel (waiting (pool, pending)) (waiting state))
      (fun state => (Serves aligner state.1 ∧ state.1.chain ≠ []) ∧
        R.Rel (waiting (pool, pending)) (waiting state)) := by
  fun_induction dispatch pool pending with
  | case1 pool a b rest _ queued hi ih =>
    have hr : R.Rel (waiting (pool, a :: b :: rest)) _ := rel_enqueue hturn pool.chain hf
    refine (ih ⟨hp.aligner_eq, hp.staffed, hp.going, hp.isOpen⟩ (R.fit hr hf)).imp ?_ ?_
    · exact fun state h => ⟨h.1, R.trans hr h.2⟩
    · exact fun state h => ⟨h.1, R.trans hr h.2⟩
  | case2 pool a b rest _ queued hi =>
    exact ⟨⟨⟨hp.aligner_eq, hp.staffed, hp.going, hp.isOpen⟩, enqueue_ne_nil _ _ _ _⟩,
      rel_enqueue hturn pool.chain hf⟩
  | case3 => exact ⟨hp, R.refl _⟩

theorem script_closed (pool : Pool) (pending : List Op) :
    (pool.closed pending).script = pool.script ++ pending := by
  simp [closed, script, List.flatMap_append, List.flatMap_map, Entry.script]

private theorem Serves.steady {aligner : Aligner} {pool : Pool} (h : Serves aligner pool)
    (pending rest : Script) : pool.Steady pending rest :=
  ⟨h.staffed, h.going, fun hc => by simp [h.isOpen] at hc⟩

private theorem receive_holds (L : below.Ledger R Fails) {aligner : Aligner}
    (hw : aligner.Within R Fails) {state : Pool × List Op} {s : σ} (hs : L.Sound s)
    (hp : Serves aligner state.1) (hf : R.Fit (waiting state ++ L.content s)) :
    (below.consume receive state s).1.Holds
      (fun state' => L.Sound (below.consume receive state s).2 ∧
        (Serves aligner state'.1 ∧ state'.1.chain ≠ []) ∧ R.Rel (waiting state ++ L.content s)
          (waiting state' ++ L.content (below.consume receive state s).2))
      (fun state' => L.Sound (below.consume receive state s).2 ∧ Serves aligner state'.1 ∧
        L.content (below.consume receive state s).2 = [] ∧
          R.Rel (waiting state ++ L.content s) (waiting state'))
      Fails := by
  refine L.consume receive waiting waiting (fun state => Serves aligner state.1)
    (fun state => Serves aligner state.1 ∧ state.1.chain ≠ []) ?_ hs hp hf
  intro state op hp hf
  have h := dispatch_holds hw.turn state.1 (state.2 ++ [op]) hp (by simpa [waiting] using hf)
  simpa [waiting, receive] using h

/-- What giving the workers work comes to unless it fails: it keeps what is held, and leaves the
chain empty only if nothing is left to put into it. -/
private def Pumped (L : below.Ledger R Fails) (pool : Pool) (ready : List Op) (xs : Script) :
    Except Fault Unit × Pool × Buffers × σ → Prop
  | (.error fault, _, _, _) => Fails fault
  | (.ok (), pool', buffers', s') => L.Sound s' ∧ pool'.aligner = pool.aligner ∧
    buffers'.ready = ready ∧ pool'.Steady buffers'.pending (L.content s') ∧
    R.Rel xs (pool'.script ++ (buffers'.pending ++ L.content s')) ∧
    (pool'.chain = [] → buffers'.pending = [] ∧ L.content s' = [])

private theorem pump_holds (L : below.Ledger R Fails) {pool : Pool}
    (hw : pool.aligner.Within R Fails) {buffers : Buffers} {s : σ} (hs : L.Sound s)
    (hst : pool.Steady buffers.pending (L.content s))
    (hf : R.Fit (pool.script ++ (buffers.pending ++ L.content s))) :
    Pumped L pool buffers.ready (pool.script ++ (buffers.pending ++ L.content s))
      (pump below pool buffers s) := by
  obtain ⟨hstaff, hgoing, hclosed⟩ := hst
  unfold pump
  rw [if_neg (by simp [hgoing])]
  by_cases hopen : pool.isOpen = false
  · rw [if_pos (by simp [hopen])]
    exact ⟨hs, rfl, rfl, ⟨hstaff, hgoing, hclosed⟩, R.refl _, fun _ => hclosed hopen⟩
  rw [if_neg (by simpa using hopen)]
  by_cases hidle : pool.idle = false
  · rw [if_pos (by simp [hidle])]
    refine ⟨hs, rfl, rfl, ⟨hstaff, hgoing, hclosed⟩, R.refl _, fun hc => ?_⟩
    -- With an empty chain there is always a worker to spare.
    have hc : pool.chain = [] := hc
    simp [idle, hc, hstaff] at hidle
  rw [if_neg (by simpa using hidle)]
  have hp : Serves pool.aligner pool.looked :=
    ⟨rfl, hstaff, hgoing, by simpa [looked] using hopen⟩
  rw [← List.append_assoc] at hf ⊢
  have hd := dispatch_holds hw.turn pool.looked buffers.pending hp (R.left hf)
  cases hm : dispatch pool.looked buffers.pending with
  | done state =>
    rw [hm] at hd
    obtain ⟨⟨hp', hne⟩, hr⟩ := hd
    refine ⟨hs, hp'.aligner_eq, rfl, hp'.steady _ _, ?_, fun hc => absurd hc hne⟩
    rw [← List.append_assoc]
    exact R.append hr (R.refl _)
  | more state =>
    rw [hm] at hd
    obtain ⟨hp', hr⟩ := hd
    have hr := R.append hr (R.refl (L.content s))
    have key := receive_holds L hw hs hp' (R.fit hr hf)
    dsimp only
    generalize below.consume receive state s = result at key
    obtain ⟨outcome, s'⟩ := result
    cases outcome with
    | done state' =>
      obtain ⟨hs', ⟨hp', hne⟩, hk⟩ := key
      refine ⟨hs', hp'.aligner_eq, rfl, hp'.steady _ _, ?_, fun hc => absurd hc hne⟩
      rw [← List.append_assoc]
      exact R.trans hr hk
    | dry state' =>
      obtain ⟨hs', hp', hc, hk⟩ := key
      refine ⟨hs', hp'.aligner_eq, rfl, ⟨hp'.staffed, hp'.going, fun _ => ⟨rfl, hc⟩⟩, ?_,
        fun _ => ⟨rfl, hc⟩⟩
      simpa [script_closed, waiting, hc] using R.trans hr hk
    | failed fault state' => exact key

private theorem script_pair {pool : Pool} {orig target : Bytes} {chain : List Entry}
    (hc : pool.chain = .pair orig target :: chain) :
    pool.script = [.delete orig, .insert target] ++ chain.flatMap Entry.script := by
  simp [script, hc, Entry.script]

private theorem fit_pair {pool : Pool} {orig target : Bytes} {chain : List Entry} {xs rest : Script}
    (hc : pool.chain = .pair orig target :: chain) (hr : R.Rel xs (pool.script ++ rest))
    (hf : R.Fit xs) : R.Fit [.delete orig, .insert target] := by
  rw [script_pair hc] at hr
  exact R.left (R.left (R.fit hr hf))

/-- A refill takes the first entry off the chain, so an empty ready buffer means an empty pool. -/
theorem shift_holds (L : below.Ledger R Fails) {pool : Pool} (hw : pool.aligner.Within R Fails)
    (buffers : Buffers) {s : σ} (hr : buffers.ready = []) (hs : L.Sound s)
    (hst : pool.Steady buffers.pending (L.content s))
    (hkeeps : Entry.Pairs (pool.aligner.Keeps R)
      (pool.chain ++ Entry.cut (buffers.pending ++ below.held s)))
    (hf : R.Fit (pool.script ++ (buffers.pending ++ L.content s))) :
    match shift below pool buffers s with
    | (.error fault, _, _, _) => Fails fault
    | (.ok (), pool', buffers', s') => L.Sound s' ∧ pool'.aligner = pool.aligner ∧
      pool'.Steady buffers'.pending (L.content s') ∧
      Entry.Pairs (pool.aligner.Keeps R)
        (pool'.chain ++ Entry.cut (buffers'.pending ++ below.held s')) ∧
      R.Rel (pool.script ++ (buffers.pending ++ L.content s))
        (buffers'.ready ++ (pool'.script ++ (buffers'.pending ++ L.content s'))) ∧
      (buffers'.ready = [] → pool'.script = [] ∧ buffers'.pending = [] ∧ L.content s' = []) := by
  have hpump := pump_holds L hw hs hst hf
  have pairs {pool' buffers' s'} (hp : pump below pool buffers s = (.ok (), pool', buffers', s')) :
      Entry.Pairs (pool.aligner.Keeps R)
        (pool'.chain ++ Entry.cut (buffers'.pending ++ below.held s')) := by
    rw [hp] at hpump
    obtain ⟨hs', -, -, hst', -, -⟩ := hpump
    rw [entries_of_pump hst.staffed hst.going hp fun hclosed =>
      L.held_eq_nil hw.nothing hs' (hst'.closed hclosed).2]
    exact hkeeps
  fun_cases shift below pool buffers s with
  | case1 fault pool' buffers' s' hp =>
    rw [hp] at hpump
    exact hpump
  | case2 pool' buffers' s' hp hc =>
    have hpairs := pairs hp
    rw [hp] at hpump
    obtain ⟨hs', hal, hready, hst', hrel, hdry⟩ := hpump
    refine ⟨hs', hal, hst', hpairs, by simpa [hready, hr] using hrel, fun _ => ⟨?_, hdry hc⟩⟩
    simp [script, hc]
  | case3 pool' buffers' s' hp op chain hc =>
    have hpairs := pairs hp
    rw [hp] at hpump
    rw [hc, List.cons_append] at hpairs
    obtain ⟨hs', hal, hready, hst', hrel, -⟩ := hpump
    refine ⟨hs', hal, ⟨hst'.staffed, hst'.going, hst'.closed⟩, hpairs.tail, ?_,
      by simp [Buffers.pushReady]⟩
    simpa [script, hc, Entry.script, Buffers.pushReady, hready, hr] using hrel
  | case4 pool' buffers' s' hp orig target chain hc fault ha =>
    rw [hp] at hpump
    obtain ⟨-, hal, -, -, hrel, -⟩ := hpump
    exact hw.refuses (fit_pair hc hrel hf) (hal ▸ ha)
  | case5 pool' buffers' s' hp orig target chain hc script ha hnil =>
    have hpairs := pairs hp
    rw [hp] at hpump
    rw [hc] at hpairs
    obtain ⟨-, hal, -, -, hrel, -⟩ := hpump
    have hkeep := hpairs orig target List.mem_cons_self (fit_pair hc hrel hf) (hal ▸ ha)
    exact absurd (List.append_eq_nil_iff.1 hnil).2 hkeep.1
  | case6 pool' buffers' s' hp orig target chain hc script ha =>
    have hpairs := pairs hp
    rw [hp] at hpump
    rw [hc, List.cons_append] at hpairs
    obtain ⟨hs', hal, hready, hst', hrel, -⟩ := hpump
    obtain ⟨hne, hrs⟩ := hpairs orig target List.mem_cons_self (fit_pair hc hrel hf) (hal ▸ ha)
    rw [script_pair hc, List.append_assoc] at hrel
    refine ⟨hs', hal, ⟨hst'.staffed, hst'.going, hst'.closed⟩, hpairs.tail, ?_, by simp [hne]⟩
    simpa [Pool.script, hready, hr] using R.trans hrel (R.append hrs (R.refl _))

end Pool

end BytePatch
