import BytePatch.Proofs.Lattice.Optimum
import BytePatch.Wire.Encode

/-! Prices that count encoded bytes. A script is priced at no more than its size, whatever its runs
are, and at just its size if no two neighbours are of one kind; so the script that is found is a
smallest of all that make the one string of the other. -/
namespace BytePatch

/-- The size of an op whose run takes a single byte: an opcode, the run, and the bytes it adds. -/
def Op.modelSize : Op → Nat
  | .insert bytes => 2 + bytes.length
  | _ => 2

/-- The script with all deletes forgotten, as it comes out of the layer that does it. -/
def Script.oneWay (ops : Script) : Script :=
  ((Queue.ofSource (.ofList ops)).under .forget).drain.2.1

theorem Script.oneWay_eq (ops : Script) : ops.oneWay = ops.map Op.forget := by
  obtain ⟨after, h⟩ := Queue.Runs.drain (Queue.yields_list ops).under_forget
  rw [oneWay, h]

namespace Script

def modelSize (ops : Script) : Nat := sumOf Op.modelSize ops

@[simp] theorem modelSize_nil : modelSize [] = 0 := rfl

@[simp] theorem modelSize_cons (op : Op) (ops : Script) :
    modelSize (op :: ops) = op.modelSize + modelSize ops := rfl

end Script

namespace PriceTable

section Runs

/-- What a byte costs that goes on with a run. -/
private def stay (kind : Kind) : Nat := (encoding kind kind).toNat

private theorem encoding_le (last next : Kind) : (encoding last next).toNat ≤ 2 + stay next := by
  cases last <;> cases next <;> decide

private theorem stay_le_encoding (last next : Kind) : stay next ≤ (encoding last next).toNat := by
  cases last <;> cases next <;> decide

private theorem encoding_eq {last next : Kind} (h : last ≠ next) (hn : next ≠ .stop) :
    (encoding last next).toNat = 2 + stay next := by
  cases last <;> cases next <;> first | decide | exact absurd rfl h | exact absurd rfl hn

private theorem encoding_stop (last : Kind) : (encoding last .stop).toNat = 0 := by
  cases last <;> decide

private theorem going_le (last other : Kind) (path : Path) :
    encoding.going last path ≤ 2 + encoding.going other path := by
  cases path with
  | nil => simp [going, encoding_stop]
  | cons step path =>
    have := encoding_le last step.kind
    have := stay_le_encoding other step.kind
    simp only [going]
    omega

private theorem going_stay {kind : Kind} {run : Path} (h : ∀ step ∈ run, step.kind = kind)
    (path : Path) :
    encoding.going kind (run ++ path) = stay kind * run.length + encoding.going kind path := by
  induction run with
  | nil => simp
  | cons step run ih =>
    have ih := ih fun step hs => h step (List.mem_cons_of_mem _ hs)
    rw [List.cons_append, going, h step List.mem_cons_self, ih, List.length_cons, Nat.mul_succ,
      stay]
    omega

private theorem going_run_le {kind : Kind} {run : Path} (h : ∀ step ∈ run, step.kind = kind)
    (last : Kind) (path : Path) : encoding.going last (run ++ path) ≤
      2 + stay kind * run.length + encoding.going kind path := by
  cases run with
  | nil => simpa using going_le last kind path
  | cons step run =>
    have hrun := going_stay (fun step hs => h step (List.mem_cons_of_mem _ hs)) path
    have := encoding_le last kind
    rw [List.cons_append, going, h step List.mem_cons_self, hrun, List.length_cons, Nat.mul_succ]
    omega

private theorem going_run_eq {kind : Kind} {run : Path} (h : ∀ step ∈ run, step.kind = kind)
    (hne : run ≠ []) {last : Kind} (hlast : last ≠ kind) (hstop : kind ≠ .stop) (path : Path) :
    encoding.going last (run ++ path) =
      2 + stay kind * run.length + encoding.going kind path := by
  cases run with
  | nil => exact absurd rfl hne
  | cons step run =>
    have hrun := going_stay (fun step hs => h step (List.mem_cons_of_mem _ hs)) path
    rw [List.cons_append, going, h step List.mem_cons_self, hrun, encoding_eq hlast hstop,
      List.length_cons, Nat.mul_succ]
    omega

private theorem modelSize_op (op : Op) (orig : Bytes) :
    2 + stay op.kind * (op.steps orig).length = op.modelSize := by
  cases op with
  | insert bytes =>
    have hstay : stay .insert = 1 := by decide
    simp [Op.kind, Op.steps, Op.modelSize, hstay]
  | copy run =>
    have hstay : stay .copy = 0 := by decide
    simp [Op.kind, Op.modelSize, hstay]
  | skip run =>
    have hstay : stay .delete = 0 := by decide
    simp [Op.kind, Op.modelSize, hstay]
  | delete bytes =>
    have hstay : stay .delete = 0 := by decide
    simp [Op.kind, Op.modelSize, hstay]

end Runs

/-- However a script is cut into runs, its steps cost no more than its ops take. -/
theorem going_steps_le (ops : Script) (last : Kind) (orig : Bytes) :
    encoding.going last (ops.steps orig) ≤ ops.modelSize := by
  induction ops generalizing last orig with
  | nil => simp [Script.steps, going, encoding_stop]
  | cons op ops ih =>
    have hkind : ∀ step ∈ op.steps orig, step.kind = op.kind := fun _ => Op.kind_of_mem_steps
    have hop := going_run_le hkind last (Script.steps ops (orig.drop op.reach))
    have hsize := modelSize_op op orig
    have := ih op.kind (orig.drop op.reach)
    rw [Script.steps, Script.modelSize_cons]
    omega

private theorem steps_edits {op : Op} {a b : Bytes} (h : op.Edits a b) (hpos : 0 < op.run)
    (rest : Bytes) : op.steps (a ++ rest) ≠ [] ∧ (a ++ rest).drop op.reach = rest := by
  cases op <;> obtain ⟨h1, h2⟩ := h <;> subst h1 h2 <;>
    simpa [Op.steps, Op.reach, Op.run, List.length_pos_iff] using hpos

/-- If no run is empty and no two neighbours are of one kind, they cost just as much. -/
theorem going_steps_eq {ops : Script} {orig target : Bytes} (h : ops.Edits orig target)
    (hpos : ∀ op ∈ ops, 0 < op.run) (halt : ops.Alternates) {last : Kind}
    (hlast : ∀ op ∈ ops.head?, last ≠ op.kind) :
    encoding.going last (ops.steps orig) = ops.modelSize := by
  induction h generalizing last with
  | nil => simp [Script.steps, going, encoding_stop]
  | @cons op ops a b src dst ho hs ih =>
    obtain ⟨hne, hdrop⟩ := steps_edits ho (hpos op List.mem_cons_self) src
    have hrest : encoding.going op.kind (Script.steps ops src) = Script.modelSize ops := by
      refine ih (fun op' hop => hpos op' (List.mem_cons_of_mem _ hop)) halt.tail ?_
      intro next hnext
      obtain ⟨rest, rfl⟩ := List.head?_eq_some_iff.1 hnext
      exact (List.isChain_cons_cons.1 halt).1
    have hop := going_run_eq (fun step => Op.kind_of_mem_steps) hne
      (hlast op rfl) op.kind_ne_stop (Script.steps ops src)
    have hsize := modelSize_op op (a ++ src)
    rw [Script.steps, hdrop, Script.modelSize_cons]
    omega

end PriceTable

namespace Script

section Encoded

private theorem modelSize_le_op (op : Op) : op.modelSize ≤ op.forget.encodedSize := by
  have := Varint.size_pos op.run
  cases op <;> simp [Op.modelSize, Op.forget, Op.encodedSize, Op.payload?, Op.run] at this ⊢ <;>
    omega

private theorem op_le_modelSize {op : Op} (h : op.run < 128) :
    op.forget.encodedSize ≤ op.modelSize := by
  have hsize : Varint.size op.run = 1 := by rw [Varint.size, if_pos h]
  cases op <;>
    simp [Op.modelSize, Op.forget, Op.encodedSize, Op.payload?, Op.run] at hsize ⊢ <;> omega

theorem modelSize_le_encodedSize (ops : Script) :
    ops.modelSize + 1 ≤ encodedSize ops.oneWay := by
  rw [oneWay_eq, encodedSize, sumOf_map]
  refine Nat.succ_le_succ ?_
  induction ops with
  | nil => exact Nat.le_refl _
  | cons op ops ih => exact Nat.add_le_add (modelSize_le_op op) ih

/-- If each run takes a single byte, the encoding has no byte that is not counted. -/
theorem encodedSize_le_modelSize {ops : Script} (h : ∀ op ∈ ops, op.run < 128) :
    encodedSize ops.oneWay ≤ ops.modelSize + 1 := by
  rw [oneWay_eq, encodedSize, sumOf_map]
  refine Nat.succ_le_succ ?_
  induction ops with
  | nil => exact Nat.le_refl _
  | cons op ops ih =>
    exact Nat.add_le_add (op_le_modelSize (h op List.mem_cons_self))
      (ih fun op hop => h op (List.mem_cons_of_mem _ hop))

end Encoded

/-- A script takes no more than another, by its size and, if each of its runs takes a single byte,
by its encoding too. -/
structure Dominates (best ops : Script) : Prop where
  modelSize_le : best.modelSize ≤ ops.modelSize
  encodedSize_le : (∀ op ∈ best, op.run < 128) → encodedSize best.oneWay ≤ encodedSize ops.oneWay

theorem dominates_of_le {best ops : Script} (h : best.modelSize ≤ ops.modelSize) :
    best.Dominates ops :=
  ⟨h, fun hshort => Nat.le_trans (encodedSize_le_modelSize hshort)
    (Nat.le_trans (Nat.succ_le_succ h) (modelSize_le_encodedSize ops))⟩

/-- A script that uses up all of the original takes its steps across the whole lattice. -/
theorem joins_steps_of_replay {ops : Script} {orig target : Bytes}
    (h : ops.replay orig = .ok target) (hreach : ops.reach = orig.length) :
    (ops.steps orig).Joins orig target := by
  cases hp : ops.play orig with
  | error cause => simp [replay, hp, Functor.map, Except.map] at h
  | ok result =>
    obtain ⟨out, rest⟩ := result
    obtain ⟨src, horig, hlen, hjoins⟩ := joins_steps hp
    have hrest : rest = [] := by
      have := congrArg List.length horig
      rw [List.length_append] at this
      exact List.eq_nil_of_length_eq_zero (by omega)
    have hout : out = target := by simpa [replay, hp, Functor.map, Except.map] using h
    rw [hrest, List.append_nil] at horig
    subst horig hout
    exact hjoins

end Script

namespace Priced

private theorem cost_lt_ceiling (orig : Bytes) {target : Bytes} (h : target.length < 2 ^ 31) :
    (way .encoding orig target).cost < ceiling :=
  Nat.lt_of_le_of_lt (cost_way_encoding_le orig target) (Nat.lt_trans (Nat.add_lt_add_right h 4)
    (by decide))

theorem modelSize_script {orig target : Bytes} (ho : orig.length < 2 ^ 31)
    (ht : target.length < 2 ^ 31) :
    ((Strategy.cheapest .encoding).script orig target).modelSize =
      (way .encoding orig target).cost := by
  have hcost := cost_lt_ceiling orig ht
  have hcounts := Method.counts_of_short .inertial .myers orig ht
  have haligns := Strategy.aligns_script (Nat.lt_trans ho (by decide))
    (Nat.lt_trans ht (by decide)) hcounts
  have hstart : ∀ op ∈ ((Strategy.cheapest .encoding).script orig target).head?,
      Kind.stop ≠ op.kind := fun op _ => Ne.symm op.kind_ne_stop
  have hsteps := PriceTable.going_steps_eq (Strategy.edits_script hcounts)
    (fun op hop => (haligns.valid op hop).1) haligns.alternates hstart
  have htotal := total_path .encoding hcost
  rw [← steps_script .encoding hcost] at htotal
  exact hsteps.symm.trans htotal

theorem cost_way_le_modelSize {ops : Script} {orig target : Bytes}
    (h : ops.replay orig = .ok target) (hreach : ops.reach = orig.length) :
    (way .encoding orig target).cost ≤ ops.modelSize :=
  Nat.le_trans (cost_way_le_total .encoding (Script.joins_steps_of_replay h hreach))
    (PriceTable.going_steps_le ops .stop orig)

end Priced

namespace Graph

/-- The script that is found by the prices of the encoding takes what the graph says it costs. No
script that makes the one string of the other takes less, and none that is found with the fewest
steps does. -/
theorem script_dominates (capacity : Nat) (before : Option (Bytes × Bytes)) {orig target : Bytes}
    (ho : orig.length < 2 ^ 31) (ht : target.length < 2 ^ 31)
    (hfits : Aligner.cells orig target ≤ capacity) :
    ∃ graph best, compute ⟨⟨.cheapest .encoding, capacity⟩, before⟩ orig target = (.ok (), graph) ∧
      graph.script = .ok best ∧ graph.cost = .ok best.modelSize ∧
      (∀ ops : Script, (∀ op ∈ ops, op.Valid) → ops.replay orig = .ok target →
        ops.reach = orig.length → best.Dominates ops) ∧
      ∃ other ops, compute ⟨⟨.fewest, capacity⟩, before⟩ orig target = (.ok (), other) ∧
        other.script = .ok ops ∧ best.Dominates ops := by
  have hcells := Nat.le_min.2 ⟨hfits, Aligner.cells_le_maxCells ho ht⟩
  have hsize := Priced.modelSize_script ho ht
  have hbest : ∀ ops : Script, ops.replay orig = .ok target → ops.reach = orig.length →
      ((Strategy.cheapest .encoding).script orig target).Dominates ops := by
    intro ops hreplay hreach
    refine Script.dominates_of_le ?_
    rw [hsize]
    exact Priced.cost_way_le_modelSize hreplay hreach
  refine ⟨_, _, compute_of_fits hcells, rfl, congrArg Except.ok hsize.symm,
    fun ops _ => hbest ops, ?_⟩
  obtain ⟨other, ops, hother, hscript, -, haligns⟩ :=
    compute_aligns .edit .myers capacity before ho ht hfits
  exact ⟨other, ops, hother, hscript, hbest ops haligns.replay_eq haligns.reach_eq⟩

/-- A pair for which fewer steps take more bytes: keeping a byte between two that are replaced
breaks up both runs. -/
theorem script_dominates_broken : ∃ graph best,
    compute ⟨⟨.cheapest .encoding, 16⟩, none⟩ [1, 2, 3] [4, 2, 5] = (.ok (), graph) ∧
    graph.script = .ok best ∧ graph.cost = .ok best.modelSize ∧
    (∀ ops : Script, (∀ op ∈ ops, op.Valid) → ops.replay [1, 2, 3] = .ok [4, 2, 5] →
      ops.reach = 3 → best.Dominates ops) ∧
    ∃ other ops, compute ⟨⟨.fewest, 16⟩, none⟩ [1, 2, 3] [4, 2, 5] = (.ok (), other) ∧
      other.script = .ok ops ∧ best.Dominates ops :=
  script_dominates 16 none (by decide) (by decide) (by decide)

end Graph

end BytePatch
