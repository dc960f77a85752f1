import BytePatch.Proofs.Lattice.Subsequence

/-! A string compared with itself. Whatever takes the fewest steps or costs least then copies
everything, although on the way there are cells that a delete or an insert gets to as well. -/
namespace BytePatch

namespace Script

/-- All of a string copied, if there is anything to copy. -/
def kept (bytes : Bytes) : Script := if bytes = [] then [] else [.copy bytes.length]

theorem Edits.eq_of_copies {ops : Script} {src dst : Bytes} (h : Edits ops src dst)
    (hcopies : ∀ op ∈ ops, op.kind = .copy) : src = dst := by
  induction h with
  | nil => rfl
  | @cons op ops a b src dst ho _ ih =>
    obtain ⟨hop, hops⟩ := List.forall_mem_cons.1 hcopies
    rw [ih hops]
    cases op with
    | copy run => rw [ho.2]
    | _ => cases hop

/-- Copies that do not stand side by side are a single one. -/
theorem Edits.eq_kept {ops : Script} {src dst : Bytes} (h : Edits ops src dst)
    (hcopies : ∀ op ∈ ops, op.kind = .copy) (hpos : ∀ op ∈ ops, 0 < op.run)
    (halternates : ops.Alternates) : ops = kept src := by
  match ops with
  | [] =>
    obtain ⟨rfl, -⟩ := edits_nil_iff.1 h
    rfl
  | [op] =>
    cases op with
    | copy run =>
      obtain ⟨rfl, -⟩ := edits_singleton_iff.1 h
      have hne : src ≠ [] := List.length_pos_iff.1 (hpos _ List.mem_cons_self)
      rw [kept, if_neg hne]
    | _ => cases hcopies _ List.mem_cons_self
  | a :: b :: ops =>
    have ha := hcopies a List.mem_cons_self
    have hb := hcopies b (List.mem_cons_of_mem _ List.mem_cons_self)
    exact absurd (ha.trans hb.symm) (List.isChain_cons_cons.1 halternates).1

/-- What takes as little as a single copy is one, if it leaves the string as it is. -/
theorem Edits.kind_of_modelSize_le {ops : Script} {src dst : Bytes} (h : Edits ops src dst)
    (hpos : ∀ op ∈ ops, 0 < op.run) (hne : dst ≠ []) (hsize : ops.modelSize ≤ 2) :
    ∀ op ∈ ops, op.kind = .copy := by
  have htwo : ∀ op : Op, 2 ≤ op.modelSize := by
    intro op
    cases op <;> simp [Op.modelSize]
  rcases ops with _ | ⟨op, _ | ⟨next, ops⟩⟩
  · exact List.forall_mem_nil _
  · have hedits := edits_singleton_iff.1 h
    have hop := hpos op List.mem_cons_self
    rw [List.forall_mem_singleton]
    cases op with
    | copy run => rfl
    | skip run => exact absurd hedits.2 hne
    | delete bytes => exact absurd hedits.2 hne
    | insert bytes =>
      simp only [Script.modelSize_cons, Script.modelSize_nil, Op.modelSize, Op.run] at hsize hop
      omega
  · have hop := htwo op
    have hnext := htwo next
    simp only [Script.modelSize_cons] at hsize
    omega

end Script

namespace Path

private theorem length_left_le (path : Path) : path.left.length ≤ path.length := by
  have := path.length_add_copied
  have := path.copied_sublist_right.length_le
  omega

private theorem length_right_le (path : Path) : path.right.length ≤ path.length := by
  have := path.length_add_copied
  have := path.copied_sublist_left.length_le
  omega

/-- A path that is no longer than either string has no room for a delete or an insert. -/
theorem kind_of_length_le {path : Path} (hleft : path.length ≤ path.left.length)
    (hright : path.length ≤ path.right.length) : ∀ step ∈ path, step.kind = .copy := by
  induction path with
  | nil => exact nofun
  | cons step path ih =>
    have hl := length_left_le path
    have hr := length_right_le path
    cases step <;> simp only [left, right, List.length_cons] at hleft hright
    · omega
    · omega
    · exact List.forall_mem_cons.2 ⟨rfl, ih (by omega) (by omega)⟩

theorem kind_of_mem_scriptBack {trail : Path} {kind : Kind} (h : ∀ step ∈ trail, step.kind = kind) :
    ∀ op ∈ trail.scriptBack, op.kind = kind := by
  intro op hop
  rw [scriptBack_eq] at hop
  obtain ⟨a, ha, hkind⟩ := Script.exists_kind_of_mem_grouped hop
  obtain ⟨step, hstep, rfl⟩ := List.mem_map.1 ha
  rw [← hkind, ← h step (List.mem_reverse.1 hstep)]
  cases step <;> rfl

end Path

/-- A string divided from itself is one stretch to keep. -/
def Divider.KeepsEqual (divider : Divider) : Prop :=
  ∀ bytes : Bytes, bytes ≠ [] → divider.stretches bytes bytes = [.keep bytes]

namespace Divider

theorem KeepsEqual.kind_of_mem_trail {divider : Divider} (h : divider.KeepsEqual) {bytes : Bytes}
    (hne : bytes ≠ []) : ∀ step ∈ divider.trail bytes bytes, step.kind = .copy := by
  intro step hstep
  obtain ⟨stretch, hmem, hin⟩ := List.mem_flatMap.1 (List.mem_reverse.1 hstep)
  rw [h bytes hne, List.mem_singleton] at hmem
  subst hmem
  obtain ⟨byte, -, rfl⟩ := List.mem_map.1 hin
  rfl

private theorem commonStart_self (bytes : Bytes) : commonStart bytes bytes = ⟨bytes, [], []⟩ := by
  induction bytes with
  | nil => rfl
  | cons byte bytes ih => simp [commonStart, ih]

/-- Division begins with what both strings begin with, and that is all of them. -/
theorem keepsEqual_myers : myers.KeepsEqual := by
  intro bytes hne
  have hrest : commonEnd (commonStart bytes bytes).left (commonStart bytes bytes).right =
      ⟨[], [], []⟩ := by
    rw [commonStart_self]
    rfl
  have huncut : Myers.Cut.find?
      (commonEnd (commonStart bytes bytes).left (commonStart bytes bytes).right).left
      (commonEnd (commonStart bytes bytes).left (commonStart bytes bytes).right).right = none := by
    rw [Myers.Cut.find?, if_pos (.inl (by rw [hrest]))]
  have hdivide : Myers.divide bytes bytes = [.keep bytes] := by
    rw [Myers.divide]
    simp only [huncut]
    rw [hrest, commonStart_self]
    cases bytes with
    | nil => exact absurd rfl hne
    | cons byte bytes => rfl
  have hsettle : ∀ isSort : Stretch → Bool, isSort (.keep bytes) = false →
      Myers.settle isSort [.keep bytes] = [.keep bytes] := by
    intro isSort hsort
    simp [Myers.settle, hsort, Myers.settle.go]
  change Myers.stretches bytes bytes = _
  rw [Myers.stretches, hdivide, hsettle _ rfl, hsettle _ rfl]
  cases bytes with
  | nil => exact absurd rfl hne
  | cons byte bytes => rfl

end Divider

namespace Method

private theorem kind_of_mem_nearest {bytes : Bytes} (hlength : bytes.length < 2 ^ 31) :
    ∀ step ∈ Nearest.trail bytes bytes, step.kind = .copy := by
  have hcounted : bytes.length + bytes.length < 2 ^ 32 - 1 := by omega
  have hforemost := Nearest.foremost_trail hcounted
  have hcopies : Path.Joins (bytes.map .copy) bytes bytes :=
    ⟨Stretch.left_steps (.keep bytes), Stretch.right_steps (.keep bytes)⟩
  have hle := hforemost.least _ hcopies
  rw [List.length_map] at hle
  have hkinds := Path.kind_of_length_le (by rwa [hforemost.joins.left_eq])
    (by rwa [hforemost.joins.right_eq])
  exact fun step hstep => hkinds step (List.mem_reverse.2 hstep)

private theorem modelSize_script_self_le {bytes : Bytes} (hlength : bytes.length < 2 ^ 31) :
    ((Strategy.cheapest .encoding).script bytes bytes).modelSize ≤ 2 := by
  have hreplay : Script.replay [.copy bytes.length] bytes = .ok bytes := by
    simp [Script.replay, Script.play, Op.play, Functor.map, Except.map]
  rw [Priced.modelSize_script hlength hlength]
  exact Priced.cost_way_le_modelSize hreplay rfl

/-- Of a string and itself every method makes one copy. -/
theorem script_self (method : Method) {divider : Divider}
    (hdivider : method = .myers → divider.KeepsEqual) {bytes : Bytes} (hne : bytes ≠ [])
    (hlength : bytes.length < 2 ^ 31) :
    (method.strategyWith divider).script bytes bytes = [.copy bytes.length] := by
  have hedits := Strategy.edits_script (method.counts_of_short divider bytes hlength)
  have hpos : ∀ op ∈ (method.strategyWith divider).script bytes bytes, 0 < op.run :=
    fun op hop => (Path.plain_scriptBack _ hop).1
  have hcopies : ∀ op ∈ (method.strategyWith divider).script bytes bytes, op.kind = .copy := by
    cases method with
    | edit => exact Path.kind_of_mem_scriptBack (kind_of_mem_nearest hlength)
    | inertial => exact hedits.kind_of_modelSize_le hpos hne (modelSize_script_self_le hlength)
    | myers => exact Path.kind_of_mem_scriptBack ((hdivider rfl).kind_of_mem_trail hne)
  rw [hedits.eq_kept hcopies hpos (Path.alternates_scriptBack _), Script.kept, if_neg hne]

end Method

end BytePatch
