import BytePatch.Proofs.Lattice.Price
import BytePatch.Proofs.Script.Groups
import BytePatch.Proofs.Script.Keeps
import BytePatch.Proofs.Stage.Pairs

/-! The script of a pair edits the one string into the other, whichever way its path is chosen, as
long as a chosen path can be told from no path at all. -/
namespace BytePatch

namespace Path

private theorem edits_ops (path : Path) :
    Script.Edits (path.map Step.op) (left path) (right path) := by
  induction path with
  | nil => exact .nil
  | cons step path ih =>
    cases step with
    | delete byte => exact .cons (show (Op.delete [byte]).Edits [byte] [] from ⟨rfl, rfl⟩) ih
    | insert byte => exact .cons (show (Op.insert [byte]).Edits [] [byte] from ⟨rfl, rfl⟩) ih
    | copy byte => exact .cons (show (Op.copy 1).Edits [byte] [byte] from ⟨rfl, rfl⟩) ih

/-- What the ops of a grouped path have in common: none is empty, and none has forgotten bytes. -/
private def plain : Terms := ⟨none, false⟩

private theorem plain_op (step : Step) : plain.Allows step.op := by
  cases step <;> exact ⟨Nat.one_pos, nofun, nofun⟩

theorem edits_scriptBack {trail : Path} {orig target : Bytes}
    (h : trail.Joins orig.reverse target.reverse) :
    Script.Edits (scriptBack trail) orig target := by
  have hj := h.reverse
  rw [List.reverse_reverse, List.reverse_reverse] at hj
  obtain ⟨rfl, rfl⟩ := hj
  rw [scriptBack_eq]
  have hkeeps : plain.Keeps _ _ := Terms.keeps_grouped rfl (trail.reverse.map Step.op)
  exact hkeeps.edits (edits_ops _)

theorem plain_scriptBack (trail : Path) {op : Op} (h : op ∈ scriptBack trail) :
    0 < op.run ∧ ∀ run, op ≠ .skip run := by
  rw [scriptBack_eq] at h
  have hops : ∀ op ∈ trail.reverse.map Step.op, plain.Allows op := by
    intro op hop
    obtain ⟨step, -, rfl⟩ := List.mem_map.1 hop
    exact plain_op step
  have hkeeps : plain.Keeps _ _ := Terms.keeps_grouped rfl (trail.reverse.map Step.op)
  have ha := hkeeps.allows hops op h
  exact ⟨ha.pos, ha.remembers rfl⟩

end Path

namespace Strategy

/-- What the chosen path comes to can be told from what no path comes to: lengths and prices are
32-bit numbers, of which the largest stands for no path. -/
def Counts : Strategy → Bytes → Bytes → Prop
  | .fewest, _, target => target.length < Nearest.farthest
  | .cheapest prices, orig, target => (Priced.way prices orig target).cost < Priced.ceiling
  | .dividing _, _, _ => True

variable {strategy : Strategy} {orig target : Bytes}

theorem joins_trail (h : strategy.Counts orig target) :
    (strategy.trail orig target).Joins orig.reverse target.reverse := by
  cases strategy with
  | fewest => exact Nearest.joins_trail orig h
  | cheapest prices => exact Priced.joins_trail prices h
  | dividing divider => exact divider.joins_trail orig target

theorem edits_script (h : strategy.Counts orig target) :
    Script.Edits (strategy.script orig target) orig target :=
  Path.edits_scriptBack (joins_trail h)

/-- A script may stand for the pair it is made of. -/
theorem keeps_script {terms : Terms} (h : strategy.Counts orig target) :
    terms.Keeps [.delete orig, .insert target] (strategy.script orig target) where
  allows ha op hop := by
    obtain ⟨hpos, hskip⟩ := Path.plain_scriptBack _ hop
    have hrun := (edits_script h).run_le hop
    refine ⟨hpos, fun limit hl => ?_, fun _ => hskip⟩
    have hd := (ha (.delete orig) (by simp)).short limit hl
    have hi := (ha (.insert target) (by simp)).short limit hl
    simp only [Op.run] at hd hi
    omega
  edits he := by
    obtain ⟨a, b, src, dst, rfl, rfl, ⟨rfl, rfl⟩, hs⟩ := Script.edits_cons_iff.1 he
    obtain ⟨rfl, rfl⟩ := Script.edits_singleton_iff.1 hs
    simpa using edits_script h

/-- No path between the two strings can be told from no path by its price. -/
def Loses : Strategy → Bytes → Bytes → Prop
  | .cheapest prices, orig, target => Priced.ceiling ≤ (Priced.way prices orig target).cost
  | _, _, _ => False

theorem Loses.script_eq_nil (h : strategy.Loses orig target) : strategy.script orig target = [] := by
  cases strategy with
  | cheapest prices =>
    change Path.scriptBack (Priced.trail prices orig target) = []
    rw [Priced.trail_eq_nil prices h]
    rfl
  | _ => exact h.elim

theorem script_ne_nil (horig : orig ≠ []) (h : ¬ strategy.Loses orig target) :
    strategy.script orig target ≠ [] := by
  have crossed {trail : Path} (hj : trail.Joins orig.reverse target.reverse) : trail ≠ [] := by
    rintro rfl
    exact horig (List.reverse_eq_nil_iff.1 hj.left_eq.symm)
  have htrail : strategy.trail orig target ≠ [] := by
    cases strategy with
    | fewest => exact Nearest.trail_ne_nil horig target
    | cheapest prices => exact crossed (Priced.joins_trail prices (Nat.lt_of_not_le h))
    | dividing divider => exact crossed (divider.joins_trail orig target)
  intro hnil
  have hsteps := Path.steps_scriptBack (strategy.trail orig target)
  rw [show Path.scriptBack _ = [] from hnil] at hsteps
  exact htrail (List.reverse_eq_nil_iff.1 hsteps.symm)

end Strategy

namespace Aligner

/-- There is room for the pair. -/
def HasRoom (aligner : Aligner) (orig target : Bytes) : Prop :=
  cells orig target ≤ min aligner.capacity maxCells

instance (aligner : Aligner) (orig target : Bytes) : Decidable (aligner.HasRoom orig target) :=
  inferInstanceAs (Decidable (_ ≤ _))

/-- If there is room for the pair, a path for it can be told from no path. -/
def Counts (aligner : Aligner) (orig target : Bytes) : Prop :=
  aligner.HasRoom orig target → aligner.strategy.Counts orig target

/-- If there is room for the pair, some op comes of it. -/
def Spares (aligner : Aligner) (orig target : Bytes) : Prop :=
  aligner.HasRoom orig target → ¬ aligner.strategy.Loses orig target

variable {aligner : Aligner} {orig target : Bytes}

theorem align_eq_ok {script : Script} (h : aligner.align orig target = .ok script) :
    aligner.HasRoom orig target ∧ script = aligner.strategy.script orig target := by
  by_cases hroom : cells orig target ≤ min aligner.capacity maxCells
  · rw [align_of_fits hroom] at h
    cases h
    exact ⟨hroom, rfl⟩
  · rw [align, checkCapacity, if_neg hroom] at h
    cases h

theorem keeps_of_counts {terms : Terms} (h : aligner.Counts orig target) :
    aligner.Keeps terms.refinement orig target := by
  intro ops hfit halign
  obtain ⟨hroom, rfl⟩ := align_eq_ok halign
  have horig : 0 < orig.length := (hfit (.delete orig) (by simp)).pos
  have hedits := Strategy.edits_script (h hroom)
  refine ⟨fun hnil => ?_, Strategy.keeps_script (h hroom)⟩
  rw [hnil, Script.edits_nil_iff] at hedits
  simp [hedits.1] at horig

theorem within {terms : Terms} {Fails : Fault → Prop}
    (hf : ∀ {orig target}, terms.Allows (.delete orig) → terms.Allows (.insert target) →
      ∀ {fault}, aligner.align orig target = .error fault → Fails fault) :
    aligner.Within terms.refinement Fails where
  turn _ := Terms.keeps_turn _ _
  refuses hfit h := hf (hfit _ (by simp)) (hfit _ (by simp)) h
  nothing h := Terms.eq_nil_of_keeps_nil h

end Aligner

end BytePatch
