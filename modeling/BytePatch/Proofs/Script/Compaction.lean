import Mathlib.Data.List.Chain
import BytePatch.Stage.Compact

/-! Scripts reduced on a stack that holds all of them. A push takes three ops off the stack at most,
and nothing below a copy, so ops far enough down are final. -/
namespace BytePatch

namespace Op

/-- Two ops of one kind make an op of that kind, and a delete and an insert make a copy. -/
theorem combine?_cases {a b op : Op} (h : a.combine? b = some op) :
    (a.kind = b.kind ∧ op.kind = a.kind) ∨
      (a.kind ≠ .copy ∧ b.kind ≠ .copy ∧ op.kind = .copy) := by
  unfold combine? at h
  split at h
  · split at h <;> cases h
    exact .inr ⟨nofun, nofun, rfl⟩
  · split at h <;> cases h
    exact .inr ⟨nofun, nofun, rfl⟩
  · exact .inl ⟨(merge?_isSome_iff a b).1 (by rw [h]; rfl), kind_of_merge? h⟩

/-- Neighbours stay as they are if they are of different kinds and do not carry the same bytes. -/
theorem combine?_eq_none_iff {a b : Op} :
    a.combine? b = none ↔ a.kind ≠ b.kind ∧ (a.payload? = b.payload? → a.payload? = none) := by
  cases a <;> cases b <;> simp [combine?, merge?, kind, payload?]

theorem kind_ne_of_combine? {a b : Op} (h : a.combine? b = none) : a.kind ≠ b.kind :=
  (combine?_eq_none_iff.1 h).1

theorem kind_of_combine?_copy {a b op : Op} (h : a.combine? b = some op) (ha : a.kind = .copy) :
    op.kind = .copy := by
  rcases combine?_cases h with ⟨-, hk⟩ | ⟨hne, -, -⟩
  · exact hk.trans ha
  · exact absurd ha hne

theorem combine?_copy_eq_none {a b : Op} (ha : a.kind ≠ .copy) (hb : b.kind = .copy) :
    a.combine? b = none := by
  cases h : a.combine? b with
  | none => rfl
  | some op =>
    rcases combine?_cases h with ⟨hk, -⟩ | ⟨-, hne, -⟩
    · exact absurd (hk.trans hb) ha
    · exact absurd hb hne

end Op

namespace Compact

/-- An op laid on a stack, the newest op first, which is then reduced. -/
def push (stack : List Op) (op : Op) : List Op := reduce (op :: stack)

/-- No two neighbours on the stack combine. -/
def Settled (stack : List Op) : Prop := stack.IsChain fun next prev => prev.combine? next = none

theorem reduce_combined {next prev op : Op} (h : prev.combine? next = some op) (older : List Op) :
    reduce (next :: prev :: older) = reduce (op :: older) := by
  rw [reduce, h]

theorem Settled.reduce_eq {stack : List Op} (h : Settled stack) : reduce stack = stack := by
  unfold reduce
  split
  · next next prev older =>
    rw [(List.isChain_cons_cons.1 h).1]
  · rfl

theorem Settled.kind_ne {top : Op} {stack : List Op} (h : Settled (top :: stack)) :
    ∀ prev ∈ stack.head?, prev.kind ≠ top.kind := fun prev hp =>
  Op.kind_ne_of_combine? ((List.isChain_cons.1 h).1 prev hp)

/-- A settled stack is unsettled by an op only if the newest op combines with it. -/
theorem Settled.exists_combine? {top prev : Op} {older : List Op} (h : Settled (prev :: older))
    (hn : ¬ Settled (top :: prev :: older)) : ∃ op, prev.combine? top = some op := by
  rw [← Option.ne_none_iff_exists']
  exact fun hnone => hn (List.isChain_cons_cons.2 ⟨hnone, h⟩)

theorem settled_copy {top : Op} (ht : top.kind = .copy) {stack : List Op} (h : Settled stack)
    (hne : ∀ prev ∈ stack.head?, prev.kind ≠ .copy) : Settled (top :: stack) :=
  List.isChain_cons.2 ⟨fun prev hp => Op.combine?_copy_eq_none (hne prev hp) ht, h⟩

/-- What a push uses up at the newest end of a stack, and what comes to lie there instead. Whatever
uses up more than one op is a copy, and only the last op used up may be a copy. -/
inductive Absorbs : List Op → Op → Prop
  | none (top : Op) : Absorbs [] top
  | one {a top : Op} : top.kind = a.kind ∨ top.kind = .copy → Absorbs [a] top
  | two {a b top : Op} : a.kind ≠ .copy → top.kind = .copy → Absorbs [a, b] top
  | three {a b c top : Op} : a.kind ≠ .copy → b.kind ≠ .copy → c.kind = .copy →
    top.kind = .copy → Absorbs [a, b, c] top

private theorem reduce_copy {top : Op} (ht : top.kind = .copy) {stack : List Op}
    (h : Settled stack) : ∃ gone kept top', stack = gone ++ kept ∧ reduce (top :: stack) = top' :: kept ∧
      Settled (top' :: kept) ∧ top'.kind = .copy ∧
      (gone = [] ∨ ∃ c : Op, gone = [c] ∧ c.kind = .copy) := by
  by_cases hsettled : Settled (top :: stack)
  · exact ⟨[], stack, top, rfl, hsettled.reduce_eq, hsettled, ht, .inl rfl⟩
  cases stack with
  | nil => exact absurd (.singleton top) hsettled
  | cons c older =>
    obtain ⟨both, hboth⟩ := h.exists_combine? hsettled
    have hc : c.kind = .copy := by
      by_contra hc
      rw [Op.combine?_copy_eq_none hc ht] at hboth
      cases hboth
    have hcopy := Op.kind_of_combine?_copy hboth hc
    have hlies : Settled (both :: older) := settled_copy hcopy h.tail (hc ▸ h.kind_ne)
    refine ⟨[c], older, both, rfl, ?_, hlies, hcopy, .inr ⟨c, rfl, hc⟩⟩
    rw [reduce_combined hboth, hlies.reduce_eq]

/-- Everything that a push can do to a settled stack. The new op goes into the newest one, what the
two become may cancel the next one, and the copy that this leaves may go into another copy. -/
theorem push_absorbs {stack : List Op} (h : Settled stack) (op : Op) :
    ∃ gone kept top, stack = gone ++ kept ∧ push stack op = top :: kept ∧
      Settled (top :: kept) ∧ Absorbs gone top := by
  by_cases hsettled : Settled (op :: stack)
  · exact ⟨[], stack, op, rfl, hsettled.reduce_eq, hsettled, .none op⟩
  cases stack with
  | nil => exact absurd (.singleton op) hsettled
  | cons a rest =>
    obtain ⟨both, hboth⟩ := h.exists_combine? hsettled
    rw [push, reduce_combined hboth]
    by_cases hlies : Settled (both :: rest)
    · refine ⟨[a], rest, both, rfl, hlies.reduce_eq, hlies, .one ?_⟩
      exact (Op.combine?_cases hboth).imp And.right fun hc => hc.2.2
    have ha : a.kind ≠ .copy := fun ha =>
      hlies (settled_copy (Op.kind_of_combine?_copy hboth ha) h.tail (ha ▸ h.kind_ne))
    rcases Op.combine?_cases hboth with ⟨-, hk⟩ | ⟨-, -, hcopy⟩
    · -- A longer op of the same kind as before, so `b` cancels it.
      cases rest with
      | nil => exact absurd (.singleton both) hlies
      | cons b older =>
        obtain ⟨copy, hcancel⟩ := Settled.exists_combine? h.tail hlies
        rcases Op.combine?_cases hcancel with ⟨hb, -⟩ | ⟨hb, -, hcopy⟩
        · exact absurd (hb.trans hk) (h.kind_ne b rfl)
        obtain ⟨gone, kept, top, rfl, hr, hs, ht, hgone⟩ := reduce_copy hcopy h.tail.tail
        refine ⟨a :: b :: gone, kept, top, rfl, (reduce_combined hcancel _).trans hr, hs, ?_⟩
        rcases hgone with rfl | ⟨c, rfl, hc⟩
        · exact .two ha ht
        · exact .three ha hb hc ht
    · obtain ⟨gone, kept, top, rfl, hr, hs, ht, hgone⟩ := reduce_copy hcopy h.tail
      refine ⟨a :: gone, kept, top, rfl, hr, hs, ?_⟩
      rcases hgone with rfl | ⟨c, rfl, -⟩
      · exact .one (.inr ht)
      · exact .two ha ht

theorem settled_push {stack : List Op} (h : Settled stack) (op : Op) : Settled (push stack op) := by
  obtain ⟨_, _, _, _, hpush, hsettled, _⟩ := push_absorbs h op
  exact hpush ▸ hsettled

theorem settled_foldl_push {stack : List Op} (h : Settled stack) (ops : Script) :
    Settled (ops.foldl push stack) := by
  induction ops generalizing stack with
  | nil => exact h
  | cons op ops ih => exact ih (settled_push h op)

/-- Ops that already are as far reduced as can be are just piled up. -/
theorem foldl_push_of_settled (ops : Script) {stack : List Op}
    (h : Settled (ops.reverse ++ stack)) : ops.foldl push stack = ops.reverse ++ stack := by
  induction ops generalizing stack with
  | nil => rfl
  | cons op ops ih =>
    rw [List.reverse_cons, List.append_assoc] at h ⊢
    have hpush : push stack op = op :: stack := Settled.reduce_eq h.right_of_append
    rw [List.foldl_cons, hpush]
    exact ih h

/-- Enough ops to keep every push off what lies below them. -/
def Shields (held : List Op) : Prop := 3 ≤ held.length ∨ ∃ op ∈ held, op.kind = .copy

private theorem Absorbs.copy_of_shields {gone : List Op} {top : Op} (h : Absorbs gone top)
    (hs : Shields gone) : top.kind = .copy ∧ ∃ front c, gone = front ++ [c] ∧ c.kind = .copy := by
  cases h with
  | none => simp [Shields] at hs
  | @one a _ ht =>
    have ha : a.kind = .copy := by simpa [Shields] using hs
    exact ⟨ht.elim (·.trans ha) id, [], a, rfl, ha⟩
  | @two a b _ ha ht =>
    have hb : b.kind = .copy := by simpa [Shields, ha] using hs
    exact ⟨ht, [a], b, rfl, hb⟩
  | @three a b c _ _ _ hc ht => exact ⟨ht, [a, b], c, rfl, hc⟩

private theorem Absorbs.shields {gone kept : List Op} {top : Op} (h : Absorbs gone top)
    (hs : Shields (gone ++ kept)) : Shields (top :: kept) := by
  cases h with
  | none =>
    rcases hs with hlong | ⟨op, hop, hk⟩
    · exact .inl (Nat.le_succ_of_le hlong)
    · exact .inr ⟨op, List.mem_cons_of_mem _ hop, hk⟩
  | @one a _ ht =>
    rcases hs with hlong | ⟨op, hop, hk⟩
    · exact .inl hlong
    · rcases List.mem_cons.1 hop with rfl | hop
      · exact .inr ⟨top, List.mem_cons_self, ht.elim (·.trans hk) id⟩
      · exact .inr ⟨op, List.mem_cons_of_mem _ hop, hk⟩
  | two _ ht => exact .inr ⟨top, List.mem_cons_self, ht⟩
  | three _ _ _ ht => exact .inr ⟨top, List.mem_cons_self, ht⟩

private theorem reduce_append {stack below : List Op} (hne : stack ≠ [])
    (h : Settled (reduce stack ++ below)) : reduce (stack ++ below) = reduce stack ++ below := by
  fun_induction reduce stack with
  | case1 next prev older op hop ih =>
    rw [List.cons_append, List.cons_append, reduce_combined hop]
    exact ih (List.cons_ne_nil _ _) h
  | case2 next prev older hop => exact h.reduce_eq
  | case3 stack _ => exact h.reduce_eq

/-- What a shield covers has no part in a push, and is still covered after it. -/
theorem push_append {held below : List Op} (h : Settled (held ++ below)) (hs : Shields held)
    (op : Op) : push (held ++ below) op = push held op ++ below ∧
      Settled (push held op ++ below) ∧ Shields (push held op) := by
  obtain ⟨gone, kept, top, rfl, hpush, hsettled, habs⟩ := push_absorbs h.left_of_append op
  have hlies : Settled (push (gone ++ kept) op ++ below) := by
    rw [hpush]
    cases kept with
    | nil =>
      rw [List.append_nil] at h hs
      obtain ⟨ht, front, c, rfl, hc⟩ := habs.copy_of_shields hs
      rw [List.append_assoc] at h
      have hbelow : Settled (c :: below) := h.right_of_append
      exact settled_copy ht hbelow.tail (hc ▸ hbelow.kind_ne)
    | cons b kept =>
      rw [List.append_assoc] at h
      have hfront : Settled ([top] ++ b :: kept) := hsettled
      exact List.IsChain.append_overlap hfront h.right_of_append (List.cons_ne_nil b kept)
  exact ⟨reduce_append (List.cons_ne_nil op _) hlies, hlies, hpush ▸ habs.shields hs⟩

theorem foldl_push_append (ops : Script) {held below : List Op} (h : Settled (held ++ below))
    (hs : Shields held) : ops.foldl push (held ++ below) = ops.foldl push held ++ below := by
  induction ops generalizing held with
  | nil => rfl
  | cons op ops ih =>
    obtain ⟨hpush, hsettled, hshields⟩ := push_append h hs op
    rw [List.foldl_cons, hpush]
    exact ih hsettled hshields

end Compact

namespace Script

/-- All ops laid on one stack, which is reduced after each of them. -/
def compacted (ops : Script) : Script := (ops.foldl Compact.push []).reverse

/-- No two neighbours combine. -/
def Reduced (ops : Script) : Prop := ops.IsChain fun a b => a.combine? b = none

theorem settled_reverse_iff {ops : Script} : Compact.Settled ops.reverse ↔ ops.Reduced :=
  List.isChain_reverse

theorem reduced_compacted (ops : Script) : ops.compacted.Reduced := by
  rw [← settled_reverse_iff, compacted, List.reverse_reverse]
  exact Compact.settled_foldl_push .nil ops

theorem Reduced.compacted_eq {ops : Script} (h : ops.Reduced) : ops.compacted = ops := by
  have hsettled : Compact.Settled (ops.reverse ++ []) := by
    rw [List.append_nil]
    exact settled_reverse_iff.2 h
  rw [compacted, Compact.foldl_push_of_settled ops hsettled, List.append_nil, List.reverse_reverse]

end Script

end BytePatch
