import BytePatch.Proofs.Lattice.Writing
import BytePatch.Proofs.Script.Stretches

/-! Notes written down on the way back from the ends of both strings. Read from the start, what they
come to is one op for each longest stretch of notes of one kind, as far as copies can be counted. -/
namespace BytePatch.Runs

private theorem exists_rel_of_mem {α β : Type} {R : α → β → Prop} {xs : List α} {ys : List β}
    (h : List.Forall₂ R xs ys) {x : α} (hx : x ∈ xs) : ∃ y ∈ ys, R x y := by
  induction h with
  | nil => cases hx
  | cons hfirst hrest ih =>
    rcases List.mem_cons.1 hx with rfl | hx
    · exact ⟨_, List.mem_cons_self, hfirst⟩
    · obtain ⟨y, hy, hxy⟩ := ih hx
      exact ⟨y, List.mem_cons_of_mem _ hy, hxy⟩

namespace Note

/-- The op that stands for notes of one kind in a row: it has their bytes one after another, or their
counts added up. -/
inductive Makes : List Note → Op → Prop
  | delete (bytes : Bytes) : Makes (bytes.map .delete) (.delete bytes)
  | insert (bytes : Bytes) : Makes (bytes.map .insert) (.insert bytes)
  | copy (counts : List Nat) : Makes (counts.map .copy) (.copy (sumOf id counts))

/-- The longest stretches of notes of one kind. -/
def stretches (notes : List Note) : List (List Note) := notes.splitBy fun a b => a.kind = b.kind

theorem stretches_spec (notes : List Note) :
    Stretches (fun a b => a.kind = b.kind) (stretches notes) notes :=
  Stretches.splitBy_key kind notes

/-- The counts in no stretch of copies add up to more than 64 bits hold. -/
def Counted (notes : List Note) : Prop :=
  ∀ counts : List Nat, counts.map .copy ∈ stretches notes → sumOf id counts < UInt64.size

private theorem makes_singleton (note : Note) : Makes [note] note.op := by
  cases note with
  | delete byte => exact .delete [byte]
  | insert byte => exact .insert [byte]
  | copy count => exact Makes.copy [count]

private theorem Makes.cons {notes : List Note} {note : Note} {op both : Op} (h : Makes notes op)
    (hm : note.op.merge? op = some both) : Makes (note :: notes) both := by
  cases h with
  | delete bytes =>
    cases note with
    | delete byte =>
      cases hm
      exact .delete (byte :: bytes)
    | insert byte => cases hm
    | copy count => cases hm
  | insert bytes =>
    cases note with
    | delete byte => cases hm
    | insert byte =>
      cases hm
      exact .insert (byte :: bytes)
    | copy count => cases hm
  | copy counts =>
    cases note with
    | delete byte => cases hm
    | insert byte => cases hm
    | copy count =>
      cases hm
      exact Makes.copy (count :: counts)

private theorem exists_makes {notes : List Note} {kind : Kind} (hne : notes ≠ [])
    (hkind : ∀ note ∈ notes, note.kind = kind) :
    ∃ op, Makes notes op ∧ op.kind = kind ∧ Script.grouped (notes.map Note.op) = [op] := by
  induction notes with
  | nil => exact absurd rfl hne
  | cons note notes ih =>
    obtain ⟨hnote, hnotes⟩ := List.forall_mem_cons.1 hkind
    by_cases hlast : notes = []
    · subst hlast
      exact ⟨note.op, makes_singleton note, note.kind_op.trans hnote, rfl⟩
    · obtain ⟨op, hmakes, hop, hgrouped⟩ := ih hlast hnotes
      obtain ⟨both, hboth⟩ : ∃ both, note.op.merge? op = some both := by
        rw [← Option.isSome_iff_exists, Op.merge?_isSome_iff, note.kind_op, hnote, hop]
      refine ⟨both, hmakes.cons hboth, ?_, ?_⟩
      · rw [Op.kind_of_merge? hboth, note.kind_op, hnote]
      · rw [List.map_cons, Script.grouped_cons, hgrouped, Script.prepend, hboth]

private theorem makes_of_stretches {parts : List (List Note)} {notes : List Note}
    (h : Stretches (fun a b => a.kind = b.kind) parts notes) :
    List.Forall₂ Makes parts (Script.grouped (notes.map Note.op)) := by
  have hkinds : ∀ a b : Note, a.op.kind = b.op.kind ↔ a.kind = b.kind := by simp
  have hparts := Script.grouped_parts (h.map hkinds)
  rw [List.forall₂_map_left_iff] at hparts
  refine ((List.forall₂_and_left _ _).2 ⟨fun _ hpart => hpart, hparts⟩).imp ?_
  rintro part op ⟨hpart, hgrouped⟩
  obtain ⟨first, hfirst⟩ := List.exists_mem_of_ne_nil part (h.nonempty part hpart)
  obtain ⟨made, hmakes, -, hmade⟩ := exists_makes (List.ne_nil_of_mem hfirst)
    fun note hnote => h.within part hpart note hnote first hfirst
  obtain rfl : made = op := List.singleton_inj.1 (hmade.symm.trans hgrouped)
  exact hmakes

private theorem eq_of_makes_copies {counts : List Nat} {op : Op} (hne : counts ≠ [])
    (h : Makes (counts.map .copy) op) : op = .copy (sumOf id counts) := by
  generalize hnotes : counts.map Note.copy = notes at h
  cases h with
  | delete bytes => cases counts <;> cases bytes <;> simp at hne hnotes
  | insert bytes => cases counts <;> cases bytes <;> simp at hne hnotes
  | copy counts' =>
    have : Function.Injective Note.copy := fun _ _ h => Note.copy.inj h
    rw [this.list_map hnotes]

private theorem counted_grouped_iff (notes : List Note) :
    Runs.Counted (Script.grouped (notes.map Note.op)) ↔ Counted notes := by
  have hmakes := makes_of_stretches (stretches_spec notes)
  constructor
  · intro hcounted counts hcounts
    have hne : counts ≠ [] := fun h => (stretches_spec notes).nonempty _ hcounts (h ▸ rfl)
    obtain ⟨op, hop, hmade⟩ := exists_rel_of_mem hmakes hcounts
    exact hcounted _ (eq_of_makes_copies hne hmade ▸ hop)
  · intro hcounted run hrun
    obtain ⟨part, hpart, hmade⟩ := exists_rel_of_mem (R := flip Makes) hmakes.flip hrun
    cases hmade with
    | copy counts => exact hcounted counts hpart

end Note

/-- What has been noted on the way back comes to finished ops just if the counts of each longest stretch
of copies add up to less than 64 bits hold. Read from the last to the first, the ops are those of the
notes read forward: one for each longest stretch of notes of one kind, with their bytes in that order
or their counts added up, and none of them empty. -/
theorem reverse_finish {notes : List Note} (h : ∀ count, .copy count ∈ notes → 1 ≤ count) :
    (Note.Counted notes.reverse → ∃ ops, finish <$> notes.foldlM write empty = .ok ops ∧
      Stretches (fun a b => a.kind = b.kind) (Note.stretches notes.reverse) notes.reverse ∧
      List.Forall₂ Note.Makes (Note.stretches notes.reverse) ops.reverse ∧
      ∀ op ∈ ops, 0 < op.run) ∧
    (¬ Note.Counted notes.reverse → finish <$> notes.foldlM write empty = .error .overflow) := by
  have hpos : ∀ note ∈ notes, 0 < note.op.run := by
    intro note hnote
    cases note with
    | delete byte => exact Nat.zero_lt_one
    | insert byte => exact Nat.zero_lt_one
    | copy count => exact h count hnote
  obtain ⟨hfinish, hoverflow⟩ := finish_foldlM_write hpos
  rw [Note.counted_grouped_iff] at hfinish hoverflow
  refine ⟨fun hcounted => ⟨_, hfinish hcounted, Note.stretches_spec _, ?_, ?_⟩, hoverflow⟩
  · rw [List.reverse_reverse]
    exact Note.makes_of_stretches (Note.stretches_spec _)
  · intro op hop
    have hops : ∀ op ∈ notes.reverse.map Note.op, 0 < op.run :=
      List.forall_mem_map.2 fun note hnote => hpos note (List.mem_reverse.1 hnote)
    exact Script.run_pos_of_mem_grouped hops op (List.mem_reverse.1 hop)

/-- Copies noted at once and one by one, between bytes of both other kinds. -/
def mixed : List Note :=
  [.insert 99, .insert 98, .copy 1, .copy 3, .delete 7, .insert 97, .delete 6, .delete 5]

theorem reverse_finish_mixed :
    (∀ count, .copy count ∈ mixed → 1 ≤ count) ∧
    Note.stretches mixed.reverse = [[.delete 5, .delete 6], [.insert 97], [.delete 7],
      [.copy 3, .copy 1], [.insert 98, .insert 99]] ∧
    finish <$> mixed.foldlM write empty =
      .ok [.insert [98, 99], .copy 4, .delete [7], .insert [97], .delete [5, 6]] ∧
    List.Forall₂ Note.Makes (Note.stretches mixed.reverse)
      [.delete [5, 6], .insert [97], .delete [7], .copy 4, .insert [98, 99]] := by
  have h : ∀ count, .copy count ∈ mixed → 1 ≤ count := by simp [mixed]
  have hstretches : Note.stretches mixed.reverse = [[.delete 5, .delete 6], [.insert 97],
      [.delete 7], [.copy 3, .copy 1], [.insert 98, .insert 99]] := by decide
  have hfinish : finish <$> mixed.foldlM write empty =
      .ok [.insert [98, 99], .copy 4, .delete [7], .insert [97], .delete [5, 6]] := by decide
  have hcounted : Note.Counted mixed.reverse := by
    intro counts hcounts
    rw [hstretches] at hcounts
    rcases counts with _ | ⟨a, _ | ⟨b, _ | ⟨c, counts⟩⟩⟩ <;> simp at hcounts
    obtain ⟨rfl, rfl⟩ := hcounts
    decide
  obtain ⟨ops, hops, -, hmakes, -⟩ := (reverse_finish h).1 hcounted
  obtain rfl := Except.ok.inj (hops.symm.trans hfinish)
  exact ⟨h, hstretches, hfinish, hmakes⟩

/-- Two copies that go beyond 64 bits together. -/
def overlong : List Note := [.copy (UInt64.size - 1), .copy 1]

theorem finish_ne_ok_of_uncounted : (∀ count, .copy count ∈ overlong → 1 ≤ count) ∧
    finish <$> overlong.foldlM write empty = .error .overflow ∧
    ¬ ∃ ops, finish <$> overlong.foldlM write empty = .ok ops := by
  have hoverflow : finish <$> overlong.foldlM write empty = .error .overflow := by decide
  refine ⟨fun count hcount => ?_, hoverflow, ?_⟩
  · rcases List.mem_cons.1 hcount with hfirst | hcount
    · cases hfirst
      decide
    · obtain rfl := Note.copy.inj (List.mem_singleton.1 hcount)
      exact Nat.le_refl 1
  · rintro ⟨ops, hops⟩
    rw [hoverflow] at hops
    cases hops

end BytePatch.Runs
