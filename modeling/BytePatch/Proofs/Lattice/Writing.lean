import BytePatch.Lattice.Comparer
import BytePatch.Proofs.Script.Grouping

/-! How comparers write down what they find, step by step from the ends or stretch by stretch from the
starts: either way it is the script of the path in its grouped form. -/
namespace BytePatch

namespace Runs

/-- Write down one step. -/
def take (runs : Runs) : Step → Except Fault Runs
  | .delete byte => .ok (runs.step .delete (some byte))
  | .insert byte => .ok (runs.step .insert (some byte))
  | .copy _ => runs.copyRun 1

/-- What is written down at a time: a byte that goes, a byte that comes, or a number of bytes that
stay. -/
inductive Note where
  | delete (byte : UInt8)
  | insert (byte : UInt8)
  | copy (count : Nat)
deriving DecidableEq

namespace Note

def kind : Note → Kind
  | .delete _ => .delete
  | .insert _ => .insert
  | .copy _ => .copy

/-- The op of a note that stands alone. -/
def op : Note → Op
  | .delete byte => .delete [byte]
  | .insert byte => .insert [byte]
  | .copy count => .copy count

def ofStep : Step → Note
  | .delete byte => .delete byte
  | .insert byte => .insert byte
  | .copy _ => .copy 1

@[simp] theorem kind_op (note : Note) : note.op.kind = note.kind := by cases note <;> rfl

@[simp] theorem op_ofStep (step : Step) : (ofStep step).op = step.op := by cases step <;> rfl

end Note

def write (runs : Runs) : Note → Except Fault Runs
  | .delete byte => .ok (runs.step .delete (some byte))
  | .insert byte => .ok (runs.step .insert (some byte))
  | .copy count => runs.copyRun count

theorem write_ofStep (runs : Runs) (step : Step) : runs.write (.ofStep step) = runs.take step := by
  cases step <;> rfl

/-- No run of copies is beyond 64 bits. -/
def Counted (ops : Script) : Prop := ∀ run, .copy run ∈ ops → run < UInt64.size

private theorem counted_cons {op : Op} {ops : Script}
    (hop : ∀ run, op = .copy run → run < UInt64.size) (hops : Counted ops) : Counted (op :: ops) := by
  intro run hrun
  rcases List.mem_cons.1 hrun with heq | hmem
  · exact hop run heq.symm
  · exact hops run hmem

private theorem counted_of_prepend {op : Op} {ops : Script} (h : Counted (ops.prepend op)) :
    Counted ops := by
  intro run hrun
  cases ops with
  | nil => cases hrun
  | cons next rest =>
    cases hm : op.merge? next with
    | none =>
      rw [Script.prepend, hm] at h
      exact h run (List.mem_cons_of_mem _ hrun)
    | some both =>
      rw [Script.prepend, hm] at h
      rcases List.mem_cons.1 hrun with rfl | hrest
      · cases op <;> simp only [Op.merge?, Option.some.injEq, reduceCtorEq] at hm
        subst hm
        exact Nat.lt_of_le_of_lt (Nat.le_add_left _ _) (h _ List.mem_cons_self)
      · exact h run (List.mem_cons_of_mem _ hrest)

/-- Nothing has been written yet, or the growing run is one of deletes, of inserts or of copies. -/
inductive Sound : Runs → Prop
  | empty : Sound empty
  | delete {done} (h : Counted done) (byte bytes) :
    Sound ⟨done, .delete, (byte :: bytes).length, byte :: bytes⟩
  | insert {done} (h : Counted done) (byte bytes) :
    Sound ⟨done, .insert, (byte :: bytes).length, byte :: bytes⟩
  | copy {done run} (h : Counted done) (hrun : run + 1 < UInt64.size) :
    Sound ⟨done, .copy, run + 1, []⟩

private theorem Sound.counted {runs : Runs} (h : runs.Sound) : Counted runs.flush.done := by
  cases h with
  | empty => exact fun _ hrun => nomatch hrun
  | delete h byte bytes => exact counted_cons nofun h
  | insert h byte bytes => exact counted_cons nofun h
  | copy h hrun => exact counted_cons (fun _ heq => Op.copy.inj heq ▸ hrun) h

/-- A note either goes in front of the ops so far, or makes a run of copies that is too long. -/
private def Writes (runs : Runs) (note : Note) : Except Fault Runs → Prop
  | .ok after => after.Sound ∧ after.flush.done = Script.prepend note.op runs.flush.done
  | .error fault => fault = .overflow ∧ ¬ Counted (Script.prepend note.op runs.flush.done)

private theorem writes_copyRun {runs : Runs} (h : runs.Sound) {count : Nat} (hc : 0 < count) :
    Writes runs (.copy count) (runs.copyRun count) := by
  obtain ⟨run, rfl⟩ : ∃ run, count = run + 1 := ⟨count - 1, (Nat.sub_add_cancel hc).symm⟩
  have started (hturn : runs.turn .copy = ⟨runs.flush.done, .copy, 0, []⟩)
      (hdone : Script.prepend (.copy (run + 1)) runs.flush.done =
        .copy (run + 1) :: runs.flush.done) :
      Writes runs (.copy (run + 1)) (runs.copyRun (run + 1)) := by
    rw [copyRun, hturn, Nat.zero_add]
    split
    · next hlt => exact ⟨.copy h.counted hlt, hdone.symm⟩
    · next hge => exact ⟨rfl, fun hcounted => hge (hcounted _ (hdone ▸ List.mem_cons_self))⟩
  cases h with
  | empty => exact started rfl rfl
  | delete hdone byte bytes => exact started rfl rfl
  | insert hdone byte bytes => exact started rfl rfl
  | @copy done grown hdone hgrown =>
    have hprepend : Script.prepend (.copy (run + 1)) (flush ⟨done, .copy, grown + 1, []⟩).done =
        .copy (grown + 1 + run + 1) :: done := by
      change Script.prepend (.copy (run + 1)) (.copy (grown + 1) :: done) = _
      rw [Script.prepend, Op.merge?, Nat.add_comm]
      rfl
    have hcopy : copyRun (run + 1) ⟨done, .copy, grown + 1, []⟩ =
        if grown + 1 + run + 1 < UInt64.size then .ok ⟨done, .copy, grown + 1 + run + 1, []⟩
        else .error .overflow := rfl
    rw [hcopy]
    split
    · next hlt => exact ⟨.copy hdone hlt, hprepend.symm⟩
    · next hge => exact ⟨rfl, fun hcounted => hge (hcounted _ (hprepend ▸ List.mem_cons_self))⟩

private theorem writes_write {runs : Runs} (h : runs.Sound) {note : Note} (hn : 0 < note.op.run) :
    Writes runs note (runs.write note) := by
  have hcounted := h.counted
  cases note with
  | copy count => exact writes_copyRun h hn
  | delete byte =>
    cases h with
    | empty => exact ⟨.delete hcounted byte [], rfl⟩
    | delete hdone byte' bytes => exact ⟨.delete hdone byte (byte' :: bytes), rfl⟩
    | insert hdone byte' bytes => exact ⟨.delete hcounted byte [], rfl⟩
    | copy hdone hrun => exact ⟨.delete hcounted byte [], rfl⟩
  | insert byte =>
    cases h with
    | empty => exact ⟨.insert hcounted byte [], rfl⟩
    | delete hdone byte' bytes => exact ⟨.insert hcounted byte [], rfl⟩
    | insert hdone byte' bytes => exact ⟨.insert hdone byte (byte' :: bytes), rfl⟩
    | copy hdone hrun => exact ⟨.insert hcounted byte [], rfl⟩

private theorem foldlM_write {runs : Runs} (h : runs.Sound) {notes : List Note}
    (hn : ∀ note ∈ notes, 0 < note.op.run) :
    match notes.foldlM write runs with
    | .ok after => after.Sound ∧
      after.flush.done = notes.foldl (fun ops note => ops.prepend note.op) runs.flush.done
    | .error fault => fault = .overflow ∧
      ¬ Counted (notes.foldl (fun ops note => ops.prepend note.op) runs.flush.done) := by
  induction notes generalizing runs with
  | nil => exact ⟨h, rfl⟩
  | cons note notes ih =>
    obtain ⟨hnote, hnotes⟩ := List.forall_mem_cons.1 hn
    have hwrites := writes_write h hnote
    rw [List.foldlM_cons, List.foldl_cons]
    cases hw : runs.write note with
    | error fault =>
      rw [hw] at hwrites
      refine ⟨hwrites.1, fun hcounted => hwrites.2 ?_⟩
      clear ih hw hwrites hn hnotes
      induction notes using List.reverseRecOn with
      | nil => exact hcounted
      | append_singleton notes last ih =>
        rw [List.foldl_append] at hcounted
        exact ih (counted_of_prepend hcounted)
    | ok after =>
      rw [hw] at hwrites
      rw [← hwrites.2]
      exact ih hwrites.1 hnotes

/-- Notes written down one by one make the script that their ops are grouped into, read from the last
note to the first, unless a run of copies in it is too long. -/
theorem finish_foldlM_write {notes : List Note} (h : ∀ note ∈ notes, 0 < note.op.run) :
    (Counted (Script.grouped (notes.reverse.map Note.op)) →
      finish <$> notes.foldlM write empty =
        .ok (Script.grouped (notes.reverse.map Note.op)).reverse) ∧
    (¬ Counted (Script.grouped (notes.reverse.map Note.op)) →
      finish <$> notes.foldlM write empty = .error .overflow) := by
  have hgrouped : Script.grouped (notes.reverse.map Note.op) =
      notes.foldl (fun ops note => ops.prepend note.op) (flush empty).done := by
    rw [Script.grouped, List.map_reverse, List.foldr_reverse, List.foldl_map]
    rfl
  have hwrites := foldlM_write .empty h
  rw [hgrouped]
  cases hw : notes.foldlM write empty with
  | error fault =>
    rw [hw] at hwrites
    exact ⟨fun hcounted => absurd hcounted hwrites.2, fun _ => congrArg Except.error hwrites.1⟩
  | ok after =>
    rw [hw] at hwrites
    rw [← hwrites.2]
    exact ⟨fun _ => rfl, fun hnot => absurd hwrites.1.counted hnot⟩

/-- The steps of a path written down one by one from its end make the script of the path. -/
theorem finish_foldlM_take {trail : Path} (h : trail.length < UInt64.size) :
    finish <$> trail.foldlM take empty = .ok trail.scriptBack.reverse := by
  have hpos : ∀ note ∈ trail.map Note.ofStep, 0 < note.op.run := by
    refine List.forall_mem_map.2 fun step _ => ?_
    rw [Note.op_ofStep]
    cases step <;> exact Nat.zero_lt_one
  have hscript : Script.grouped ((trail.map Note.ofStep).reverse.map Note.op) = trail.scriptBack := by
    simp only [← List.map_reverse, List.map_map, Function.comp_def, Note.op_ofStep,
      ← Path.scriptBack_eq]
  have hcounted : Counted trail.scriptBack := by
    intro run hrun
    have hop : run ≤ Op.weight (.copy run) := Nat.le_max_right 1 run
    have hle : Op.weight (.copy run) ≤ trail.scriptBack.weight := le_sumOf Op.weight hrun
    have := Path.weight_scriptBack_le trail
    omega
  have hfinish := (finish_foldlM_write hpos).1 (hscript ▸ hcounted)
  rw [List.foldlM_map, hscript] at hfinish
  simpa only [write_ofStep] using hfinish

end Runs

namespace Script

private theorem kinds_push (ops : Script) (op : Op) :
    (ops.push op).map Op.kind = (prepend op ops).map Op.kind := by
  cases ops with
  | nil => rfl
  | cons last ops =>
    by_cases h : last.kind = op.kind
    · obtain ⟨both, hb⟩ := Option.isSome_iff_exists.1 ((Op.merge?_isSome_iff last op).2 h)
      obtain ⟨both', hb'⟩ := Option.isSome_iff_exists.1 ((Op.merge?_isSome_iff op last).2 h.symm)
      simp [push, prepend, hb, hb', Op.kind_of_merge? hb, Op.kind_of_merge? hb', h]
    · have hb := Op.merge?_eq_none_iff.2 h
      have hb' := Op.merge?_eq_none_iff.2 (Ne.symm h)
      simp [push, prepend, hb, hb']

private theorem alternates_push (op : Op) {ops : Script} (h : ops.Alternates) :
    (ops.push op).Alternates := by
  have hp := alternates_prepend op h
  rw [Alternates, ← List.isChain_map Op.kind] at hp ⊢
  rwa [kinds_push]

private theorem grouped_push (ops : Script) (op : Op) (rest : Script) :
    grouped ((ops.push op).reverse ++ rest) = grouped (ops.reverse ++ op :: rest) := by
  cases ops with
  | nil => rfl
  | cons last ops =>
    cases hb : last.merge? op with
    | none => simp [push, hb]
    | some both =>
      simp only [push, hb, List.reverse_cons, List.append_assoc, List.singleton_append]
      exact grouped_append_congr _ (grouped_merged hb rest).symm

private theorem foldl_push (ops : Script) {pushed : Script} (h : pushed.Alternates) :
    (ops.foldl push pushed).Alternates ∧
      grouped (ops.foldl push pushed).reverse = grouped (pushed.reverse ++ ops) := by
  induction ops generalizing pushed with
  | nil => exact ⟨h, by simp⟩
  | cons op ops ih =>
    obtain ⟨halternates, hgrouped⟩ := ih (alternates_push op h)
    exact ⟨halternates, by rw [List.foldl_cons, hgrouped, grouped_push]⟩

/-- Ops pushed one after another come to the grouped form of the script. -/
theorem reverse_foldl_push (ops : Script) : (ops.foldl push []).reverse = grouped ops := by
  obtain ⟨halternates, hgrouped⟩ := foldl_push ops (List.IsChain.nil : Alternates [])
  have hreverse : Alternates (ops.foldl push []).reverse := by
    rw [Alternates, List.isChain_reverse]
    exact halternates.imp fun a b h => Ne.symm h
  rw [← hreverse.grouped_eq, hgrouped]
  rfl

end Script

namespace Stretch

private theorem merges_singles (make : Bytes → Op)
    (hmake : ∀ a b, (make a).merge? (make b) = some (make (a ++ b))) {bytes : Bytes}
    (h : bytes ≠ []) : Op.Merges (bytes.map fun byte => make [byte]) (make bytes) := by
  induction bytes with
  | nil => exact absurd rfl h
  | cons byte bytes ih =>
    by_cases hrest : bytes = []
    · subst hrest
      exact .single _
    · exact .cons (ih hrest) (hmake [byte] bytes)

private theorem grouped_steps {stretch : Stretch} (h : stretch.bytes ≠ []) (ops : Script) :
    Script.grouped (stretch.steps.map Step.op ++ ops) = Script.grouped (stretch.op :: ops) := by
  cases stretch with
  | keep bytes =>
    have hmerges := merges_singles (fun bytes => .copy bytes.length)
      (fun a b => by simp [Op.merge?]) h
    simpa [steps, op, Stretch.bytes, Step.op, Function.comp_def] using
      Script.grouped_pieces hmerges ops
  | delete bytes =>
    have hmerges := merges_singles .delete (fun _ _ => rfl) h
    simpa [steps, op, Stretch.bytes, Step.op, Function.comp_def] using
      Script.grouped_pieces hmerges ops
  | insert bytes =>
    have hmerges := merges_singles .insert (fun _ _ => rfl) h
    simpa [steps, op, Stretch.bytes, Step.op, Function.comp_def] using
      Script.grouped_pieces hmerges ops

private theorem grouped_map {stretches : List Stretch}
    (h : ∀ stretch ∈ stretches, stretch.bytes ≠ []) :
    Script.grouped (stretches.map op) =
      Script.grouped ((stretches.flatMap steps).map Step.op) := by
  induction stretches with
  | nil => rfl
  | cons stretch stretches ih =>
    obtain ⟨hstretch, hrest⟩ := List.forall_mem_cons.1 h
    rw [List.flatMap_cons, List.map_append, grouped_steps hstretch, List.map_cons,
      Script.grouped_cons, Script.grouped_cons, ih hrest]

/-- The stretches in a row, pushed as ops, make the script of the path they divide. -/
theorem reverse_foldl_push {stretches : List Stretch}
    (h : ∀ stretch ∈ stretches, stretch.bytes ≠ []) :
    ((stretches.map op).foldl Script.push []).reverse =
      Path.scriptBack (stretches.flatMap steps).reverse := by
  rw [Script.reverse_foldl_push, grouped_map h, Path.scriptBack_eq, List.reverse_reverse]

end Stretch

end BytePatch
