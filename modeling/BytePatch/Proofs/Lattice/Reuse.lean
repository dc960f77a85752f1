import BytePatch.Proofs.Lattice.Walks

/-! Comparers that are used for pair after pair. What one shows is what a graph shows that remembers
nothing but the last pair that fitted, so nothing of any other pair is left to be seen. -/
namespace BytePatch

@[simp] theorem Slate.computed_compute {Mark : Type} [Inhabited Mark] (rule : Rule Mark)
    (orig target : Bytes) (slate : Slate Mark) :
    (slate.compute rule orig target).computed = true := rfl

@[simp] theorem Slate.size_compute {Mark : Type} [Inhabited Mark] (rule : Rule Mark)
    (orig target : Bytes) (slate : Slate Mark) :
    (slate.compute rule orig target).cells.size = slate.cells.size := size_fillRows ..

namespace Comparer
variable {orig target : Bytes}

@[simp] theorem strategy_new (strategy : Strategy) (capacity : Nat) :
    (new strategy capacity).strategy = strategy := by
  cases strategy <;> rfl

@[simp] theorem capacity_new (strategy : Strategy) (capacity : Nat) :
    (new strategy capacity).capacity = capacity := by
  cases strategy <;> simp [new, Comparer.capacity, Slate.new]

@[simp] theorem strategy_fill (orig target : Bytes) (comparer : Comparer) :
    (comparer.fill orig target).strategy = comparer.strategy := by
  cases comparer <;> rfl

@[simp] theorem capacity_fill (orig target : Bytes) (comparer : Comparer) :
    (comparer.fill orig target).capacity = comparer.capacity := by
  cases comparer <;> simp [fill, capacity]

private theorem length_trail_lt (strategy : Strategy)
    (hcount : Aligner.cells orig target ≤ Aligner.maxCells) :
    (strategy.trail orig target).length < UInt64.size := by
  have hcells : orig.length + target.length < Aligner.cells orig target := by
    rw [Aligner.cells, Nat.add_one_mul, Nat.mul_add_one]
    omega
  have hle := strategy.length_trail_le orig target
  rw [Aligner.maxCells] at hcount
  omega

/-- Whatever was compared before, the script is that of the pair. -/
theorem scriptBack_fill {comparer : Comparer}
    (hroom : Aligner.cells orig target ≤ comparer.capacity)
    (hcount : Aligner.cells orig target ≤ Aligner.maxCells) :
    (comparer.fill orig target).scriptBack = .ok (comparer.strategy.script orig target).reverse := by
  have hlength := length_trail_lt comparer.strategy hcount
  cases comparer with
  | fewest slate =>
    have hholds := Slate.holds_compute Nearest.follows hroom
    have hwalk := Nearest.walk_eq hholds (Nat.le_refl _) (Nat.le_refl _) .empty
    rw [← hholds.last_eq, Lattice.cellAt_last] at hwalk
    simp only [fill, scriptBack, Slate.computed_compute, if_true, hwalk]
    exact Runs.finish_foldlM_take hlength
  | cheapest prices slate =>
    have hholds := Slate.holds_compute (Priced.follows prices) hroom
    have hexit := (Priced.exit_spec prices .stop hholds.shows_last).2
    rw [← Lattice.cellAt_last] at hexit
    have hwalk := Priced.walk_eq prices hholds (Nat.le_refl _) (Nat.le_refl _) hexit .empty
    rw [← hholds.last_eq, Lattice.cellAt_last] at hwalk
    have hscript : Runs.finish <$> Priced.walk prices (slate.compute (Priced.rule prices) orig target)
        (slate.compute (Priced.rule prices) orig target).last
        (Priced.exitAt prices (slate.compute (Priced.rule prices) orig target) .stop
          (slate.compute (Priced.rule prices) orig target).last).2 .empty =
        .ok (Strategy.script (.cheapest prices) orig target).reverse := by
      rw [Priced.exitAt, hwalk]
      exact Runs.finish_foldlM_take hlength
    simp only [fill, scriptBack, Slate.computed_compute, if_true]
    split
    · next hlast =>
      rw [hlast, Priced.walk_zero] at hscript
      exact hscript
    · exact hscript
  | dividing divider capacity script? =>
    have hscript := Stretch.reverse_foldl_push (divider.filled orig target)
    simp only [fill, scriptBack, strategy, Strategy.script, Strategy.trail, Divider.trail, ← hscript,
      List.reverse_reverse]

theorem cost?_fill {prices : PriceTable} {slate : Slate Priced.Costs}
    (hroom : Aligner.cells orig target ≤ slate.cells.size) :
    (fill orig target (.cheapest prices slate)).cost? =
      some (.ok (Strategy.cost (.cheapest prices) orig target)) := by
  have hholds := Slate.holds_compute (Priced.follows prices) hroom
  have hexit := (Priced.exit_spec prices .stop hholds.shows_last).1
  simp only [fill, cost?, Slate.computed_compute, if_true, Priced.exitAt, hexit]
  rfl

/-- A comparer looks like a graph: it works in the same way, has as much room and shows the same. -/
structure Looks (comparer : Comparer) (graph : Graph) : Prop where
  aligner_eq : comparer.aligner = graph.aligner
  scriptBack_eq : comparer.scriptBack = graph.scriptBack
  cost?_eq : comparer.cost? = match comparer.strategy with
    | .cheapest _ => some graph.cost
    | .fewest | .dividing _ => none

theorem looks_new (strategy : Strategy) (capacity : Nat) :
    (new strategy capacity).Looks (.new ⟨strategy, capacity⟩) where
  aligner_eq := by simp [aligner, Graph.new]
  scriptBack_eq := by cases strategy <;> rfl
  cost?_eq := by cases strategy <;> rfl

theorem Looks.script_eq {comparer : Comparer} {graph : Graph} (h : comparer.Looks graph) :
    comparer.script = graph.script := by
  rw [script, h.scriptBack_eq, Graph.scriptBack]
  cases graph.script with
  | error fault => rfl
  | ok ops => exact congrArg Except.ok (List.reverse_reverse ops)

private theorem cells_le_of_check {aligner : Aligner} {orig target : Bytes}
    (h : aligner.checkCapacity orig target = .ok ()) :
    Aligner.cells orig target ≤ aligner.capacity ∧
      Aligner.cells orig target ≤ Aligner.maxCells := by
  unfold Aligner.checkCapacity at h
  split at h
  · next hfits => exact Nat.le_min.1 hfits
  · cases h

private theorem looks_fill {comparer : Comparer} {graph : Graph} (h : comparer.Looks graph)
    (hcheck : graph.aligner.checkCapacity orig target = .ok ()) :
    (comparer.fill orig target).Looks { graph with pair? := some (orig, target) } := by
  obtain ⟨hroom, hcount⟩ := cells_le_of_check hcheck
  rw [← h.aligner_eq] at hroom
  have hstrategy : comparer.strategy = graph.aligner.strategy :=
    congrArg Aligner.strategy h.aligner_eq
  refine ⟨?_, ?_, ?_⟩
  · rw [aligner, strategy_fill, capacity_fill]
    exact h.aligner_eq
  · rw [scriptBack_fill hroom hcount, hstrategy]
    rfl
  · rw [strategy_fill]
    cases comparer with
    | cheapest prices slate =>
      rw [cost?_fill hroom]
      simp only [Graph.cost, ← hstrategy, strategy]
    | fewest slate => rfl
    | dividing divider capacity script? => rfl

/-- Comparing one more pair keeps the two alike. -/
theorem Looks.compute {comparer : Comparer} {graph : Graph} (h : comparer.Looks graph)
    (orig target : Bytes) :
    (comparer.compute orig target).1 = (graph.compute orig target).1 ∧
      (comparer.compute orig target).2.Looks (graph.compute orig target).2 := by
  unfold Comparer.compute Graph.compute
  rw [h.aligner_eq]
  cases hcheck : graph.aligner.checkCapacity orig target with
  | error fault => exact ⟨rfl, h⟩
  | ok _ => exact ⟨rfl, looks_fill h hcheck⟩

/-- What a comparer makes of a pair is what an aligner makes of it, however much it was used. -/
theorem Looks.align {comparer : Comparer} {graph : Graph} (h : comparer.Looks graph)
    (orig target : Bytes) :
    (match comparer.compute orig target with
      | (.error fault, _) => .error fault
      | (.ok (), after) => after.script) = graph.aligner.align orig target := by
  obtain ⟨hanswer, hlooks⟩ := h.compute orig target
  have hscript := hlooks.script_eq
  rcases hc : comparer.compute orig target with ⟨fault | _, after⟩ <;> rw [hc] at hanswer hscript <;>
    unfold Graph.compute at hanswer hscript <;> unfold Aligner.align <;>
    cases hcheck : graph.aligner.checkCapacity orig target <;> simp_all [Graph.script]

/-- Compare pairs one after another, whether or not they fit, and keep in mind the last one that
does. -/
def computeAll (comparer : Comparer) (last? : Option (Bytes × Bytes)) :
    List (Bytes × Bytes) → Option (Bytes × Bytes) × Comparer
  | [] => (last?, comparer)
  | (orig, target) :: pairs =>
    match comparer.compute orig target with
    | (.error _, comparer) => comparer.computeAll last? pairs
    | (.ok (), comparer) => comparer.computeAll (some (orig, target)) pairs

end Comparer

/-- A pair that does not fit changes nothing, and one that does is all that a graph remembers. -/
theorem Graph.compute_spec (graph : Graph) (orig target : Bytes) :
    match graph.compute orig target with
    | (.error fault, after) =>
      after = graph ∧ ∃ required, fault = .capacityExceeded required graph.aligner.capacity
    | (.ok (), after) =>
      after = ⟨graph.aligner, some (orig, target)⟩ ∧
        graph.aligner.checkCapacity orig target = .ok () := by
  rcases hcheck : graph.aligner.checkCapacity orig target with fault | _
  · simp only [compute, hcheck]
    unfold Aligner.checkCapacity at hcheck
    split at hcheck <;> cases hcheck
    exact ⟨trivial, _, rfl⟩
  · simp only [compute, hcheck]
    exact ⟨trivial, trivial⟩

namespace Comparer

private theorem looks_computeAll {comparer : Comparer} {aligner : Aligner}
    {last? : Option (Bytes × Bytes)} (h : comparer.Looks ⟨aligner, last?⟩)
    (hlast : ∀ pair ∈ last?, aligner.checkCapacity pair.1 pair.2 = .ok ())
    (pairs : List (Bytes × Bytes)) :
    (comparer.computeAll last? pairs).2.Looks ⟨aligner, (comparer.computeAll last? pairs).1⟩ ∧
      ∀ pair ∈ (comparer.computeAll last? pairs).1,
        aligner.checkCapacity pair.1 pair.2 = .ok () := by
  induction pairs generalizing comparer last? with
  | nil => exact ⟨h, hlast⟩
  | cons pair pairs ih =>
    obtain ⟨orig, target⟩ := pair
    obtain ⟨hanswer, hlooks⟩ := h.compute orig target
    have hspec := Graph.compute_spec ⟨aligner, last?⟩ orig target
    rw [Comparer.computeAll]
    rcases hc : comparer.compute orig target with ⟨fault | _, after⟩ <;>
      rcases hg : Graph.compute ⟨aligner, last?⟩ orig target with ⟨fault' | _, graph⟩ <;>
      rw [hc, hg] at hanswer hlooks <;> rw [hg] at hspec <;> cases hanswer
    · rw [hspec.1] at hlooks
      exact ih hlooks hlast
    · rw [hspec.1] at hlooks
      refine ih hlooks fun pair hpair => ?_
      cases hpair
      exact hspec.2

theorem compute_spec (comparer : Comparer) (orig target : Bytes) :
    match comparer.compute orig target with
    | (.error fault, after) =>
      after = comparer ∧ ∃ required, fault = .capacityExceeded required comparer.capacity
    | (.ok (), after) =>
      after = comparer.fill orig target ∧ Aligner.cells orig target ≤ comparer.capacity := by
  rcases hcheck : comparer.aligner.checkCapacity orig target with fault | _
  · simp only [compute, hcheck]
    unfold Aligner.checkCapacity at hcheck
    split at hcheck <;> cases hcheck
    exact ⟨trivial, _, rfl⟩
  · simp only [compute, hcheck]
    exact ⟨trivial, (cells_le_of_check hcheck).1⟩

/-- After any pairs, a comparer shows what a new one shows that was given only the last of them that
fitted; if none did, it has nothing to show. Another pair that does not fit leaves it as it is. -/
theorem computeAll_new (strategy : Strategy) (capacity : Nat) (pairs : List (Bytes × Bytes)) :
    ∃ last? used, (new strategy capacity).computeAll none pairs = (last?, used) ∧
      (match last? with
        | none => used.script = .error (.illegalState .scriptBeforeCompute) ∧
          used.scriptBack = .error (.illegalState .scriptBeforeCompute) ∧
          used.cost? = match strategy with
            | .cheapest _ => some (.error (.illegalState .costBeforeCompute))
            | .fewest | .dividing _ => none
        | some (orig, target) => ∃ fresh,
          (new strategy capacity).compute orig target = (.ok (), fresh) ∧
          used.script = fresh.script ∧ used.scriptBack = fresh.scriptBack ∧
          used.cost? = fresh.cost? ∧ fresh.script = .ok (strategy.script orig target)) ∧
      ∀ orig target, match used.compute orig target with
        | (.error fault, after) => after = used ∧ ∃ required, fault = .capacityExceeded required capacity
        | (.ok (), _) => Aligner.cells orig target ≤ capacity := by
  obtain ⟨hlooks, hlast⟩ := looks_computeAll (looks_new strategy capacity) nofun pairs
  generalize (new strategy capacity).computeAll none pairs = result at hlooks hlast
  obtain ⟨last?, used⟩ := result
  have hstrategy : used.strategy = strategy := congrArg Aligner.strategy hlooks.aligner_eq
  have hcapacity : used.capacity = capacity := congrArg Aligner.capacity hlooks.aligner_eq
  have hcost := hlooks.cost?_eq
  rw [hstrategy] at hcost
  refine ⟨last?, used, rfl, ?_, ?_⟩
  · cases last? with
    | none =>
      refine ⟨hlooks.script_eq, hlooks.scriptBack_eq, ?_⟩
      rw [hcost]
      cases strategy <;> rfl
    | some pair =>
      obtain ⟨hanswer, hfresh⟩ := (looks_new strategy capacity).compute pair.1 pair.2
      have hcompute : (Graph.new ⟨strategy, capacity⟩).compute pair.1 pair.2 =
          (.ok (), ⟨⟨strategy, capacity⟩, some pair⟩) := by
        simp only [Graph.compute, Graph.new, hlast pair rfl]
      rw [hcompute] at hanswer hfresh
      have hcost' := hfresh.cost?_eq
      rw [show Comparer.strategy _ = strategy from congrArg Aligner.strategy hfresh.aligner_eq] at hcost'
      exact ⟨_, Prod.ext hanswer rfl, hlooks.script_eq.trans hfresh.script_eq.symm,
        hlooks.scriptBack_eq.trans hfresh.scriptBack_eq.symm, hcost.trans hcost'.symm,
        hfresh.script_eq⟩
  · intro orig target
    have hspec := used.compute_spec orig target
    rw [hcapacity] at hspec
    rcases hc : used.compute orig target with ⟨fault | _, after⟩ <;> rw [hc] at hspec
    · exact hspec
    · exact hspec.2

/-- The second pair does not fit nine cells and the third one is smaller than the first. -/
example : ((new (.cheapest .encoding) 9).computeAll none
    [([1, 2], [2, 1]), ([1, 2, 3], [4, 5, 6]), ([1], [])]).2.script = .ok [.delete [1]] := by cbv

end Comparer

end BytePatch
