import Mathlib.Data.List.SplitBy
import BytePatch.Proofs.Script.Grouping

/-! A list in its longest stretches of elements that belong together. There is only one way to do it,
and it stays the way if each stretch is replaced by one whose elements belong with it. For ops that
belong together if they are of one kind, each stretch merges into an op of the grouped script. -/
namespace BytePatch

/-- The longest stretches of a list whose elements belong together. -/
structure Stretches {α : Type} (R : α → α → Prop) (parts : List (List α)) (xs : List α) : Prop where
  flatten : parts.flatten = xs
  nonempty : ∀ part ∈ parts, part ≠ []
  within : ∀ part ∈ parts, ∀ a ∈ part, ∀ b ∈ part, R a b
  maximal : parts.IsChain fun part next => ∀ a ∈ part, ∀ b ∈ next, ¬ R a b

namespace Stretches
variable {α : Type} {R : α → α → Prop} {parts : List (List α)} {xs : List α}

theorem cons {part : List α} (h : Stretches R (part :: parts) xs) :
    ∃ rest, xs = part ++ rest ∧ Stretches R parts rest ∧ ∀ a ∈ part, ∀ b ∈ rest.head?, ¬ R a b := by
  refine ⟨parts.flatten, h.flatten.symm,
    ⟨rfl, fun next hnext => h.nonempty next (List.mem_cons_of_mem _ hnext),
      fun next hnext => h.within next (List.mem_cons_of_mem _ hnext), h.maximal.tail⟩, ?_⟩
  intro a ha b hb
  cases parts with
  | nil => cases hb
  | cons next parts =>
    have hne : next ≠ [] := h.nonempty next (List.mem_cons_of_mem _ List.mem_cons_self)
    have hfirst : b ∈ next.head? := by
      rwa [List.flatten_cons, List.head?_append_of_ne_nil _ hne] at hb
    exact (List.isChain_cons_cons.1 h.maximal).1 a ha b (List.mem_of_mem_head? hfirst)

/-- There is no other way to split a list so. -/
theorem splitBy_eq {same : α → α → Bool} (hsame : ∀ a b, same a b = true ↔ R a b)
    (h : Stretches R parts xs) : xs.splitBy same = parts := by
  refine List.splitBy_eq_iff.2 ⟨h.flatten.symm, fun hnil => h.nonempty _ hnil rfl, ?_, ?_⟩
  · intro part hpart
    have hall := h.within part hpart
    exact (List.pairwise_iff_forall_sublist.2 fun {a b} hab => (hsame a b).2
      (hall a (hab.subset List.mem_cons_self) b
        (hab.subset (List.mem_cons_of_mem _ List.mem_cons_self)))).isChain
  · refine h.maximal.imp_of_mem_imp fun part next hpart hnext hapart => ?_
    have hne := h.nonempty part hpart
    have hne' := h.nonempty next hnext
    have hlast := hapart _ (List.getLast_mem hne) _ (List.head_mem hne')
    rw [← hsame, Bool.not_eq_true] at hlast
    exact ⟨hne, hne', hlast⟩

theorem map {β : Type} {S : β → β → Prop} {f : α → β} (hS : ∀ a b, S (f a) (f b) ↔ R a b)
    (h : Stretches R parts xs) : Stretches S (parts.map (List.map f)) (xs.map f) where
  flatten := by rw [← List.map_flatten, h.flatten]
  nonempty := List.forall_mem_map.2 fun part hpart => by simpa using h.nonempty part hpart
  within := by
    refine List.forall_mem_map.2 fun part hpart => ?_
    refine List.forall_mem_map.2 fun a ha => List.forall_mem_map.2 fun b hb => ?_
    exact (hS a b).2 (h.within part hpart a ha b hb)
  maximal := by
    refine (List.isChain_map _).2 (h.maximal.imp fun part next hapart => ?_)
    refine List.forall_mem_map.2 fun a ha => List.forall_mem_map.2 fun b hb hab => ?_
    exact hapart a ha b hb ((hS a b).1 hab)

section Equivalence
variable (hR : Equivalence R)
include hR

/-- Splitting wherever neighbours do not belong together gives the stretches. -/
theorem splitBy {same : α → α → Bool} (hsame : ∀ a b, same a b = true ↔ R a b) (xs : List α) :
    Stretches R (xs.splitBy same) xs := by
  have hwithin : ∀ part ∈ xs.splitBy same, ∀ a ∈ part, ∀ b ∈ part, R a b := by
    intro part hpart
    have hchain : part.IsChain R := by
      simpa only [hsame] using List.isChain_of_mem_splitBy hpart
    have : Trans R R R := ⟨hR.trans⟩
    have : Std.Symm R := ⟨fun _ _ => hR.symm⟩
    have hall := (List.isChain_iff_pairwise.1 hchain).forall
    intro a ha b hb
    by_cases hab : a = b
    · exact hab ▸ hR.refl a
    · exact hall ha hb hab
  refine ⟨List.flatten_splitBy same xs, fun part => List.ne_nil_of_mem_splitBy, hwithin, ?_⟩
  refine (List.isChain_getLast_head_splitBy same xs).imp_of_mem_imp ?_
  rintro part next hpart hnext ⟨hne, hne', hends⟩ a ha b hb hab
  have hlast := hwithin part hpart _ (List.getLast_mem hne) a ha
  have hhead := hwithin next hnext b hb _ (List.head_mem hne')
  have hjoin := (hsame _ _).2 (hR.trans hlast (hR.trans hab hhead))
  rw [hends] at hjoin
  cases hjoin

theorem flatMap {f : List α → List α} (h : Stretches R parts xs)
    (hne : ∀ part ∈ parts, f part ≠ [])
    (hkept : ∀ part ∈ parts, ∀ b ∈ f part, ∃ a ∈ part, R a b) :
    Stretches R (parts.map f) (parts.flatMap f) where
  flatten := rfl
  nonempty := List.forall_mem_map.2 hne
  within := by
    refine List.forall_mem_map.2 fun part hpart a ha b hb => ?_
    obtain ⟨a', ha', hraa⟩ := hkept part hpart a ha
    obtain ⟨b', hb', hrbb⟩ := hkept part hpart b hb
    exact hR.trans (hR.symm hraa) (hR.trans (h.within part hpart a' ha' b' hb') hrbb)
  maximal := by
    refine List.isChain_map f |>.2 (h.maximal.imp_of_mem_imp ?_)
    intro part next hpart hnext hapart a ha b hb hab
    obtain ⟨a', ha', hraa⟩ := hkept part hpart a ha
    obtain ⟨b', hb', hrbb⟩ := hkept next hnext b hb
    exact hapart a' ha' b' hb' (hR.trans hraa (hR.trans hab (hR.symm hrbb)))

end Equivalence

/-- Splitting wherever a key changes gives the longest stretches of one key. -/
theorem splitBy_key {κ : Type} [DecidableEq κ] (key : α → κ) (xs : List α) :
    Stretches (fun a b => key a = key b) (xs.splitBy fun a b => key a = key b) xs :=
  have hkey : Equivalence fun a b => key a = key b :=
    ⟨fun _ => rfl, fun h => h.symm, fun h h' => h.trans h'⟩
  splitBy hkey (fun _ _ => decide_eq_true_iff) xs

end Stretches

namespace Script

/-- The longest stretches of ops of one kind. -/
def runs (ops : Script) : List Script := ops.splitBy fun a b => a.kind = b.kind

/-- All ops merged into one from the left, each into what those before it have come to. -/
def merged? : Script → Option Op
  | [] => none
  | first :: rest => rest.foldlM Op.merge? first

theorem stretches_runs (ops : Script) : Stretches (fun a b => a.kind = b.kind) ops.runs ops :=
  Stretches.splitBy_key Op.kind ops

theorem exists_merged {ops : Script} (hne : ops ≠ []) (hkind : ∀ a ∈ ops, ∀ b ∈ ops, a.kind = b.kind) :
    ∃ op, ops.merged? = some op ∧ grouped ops = [op] := by
  cases ops with
  | nil => exact absurd rfl hne
  | cons first rest =>
    clear hne
    induction rest generalizing first with
    | nil => exact ⟨first, rfl, rfl⟩
    | cons next rest ih =>
      have hfirst := hkind first List.mem_cons_self
      obtain ⟨both, hboth⟩ : ∃ both, first.merge? next = some both := by
        rw [← Option.isSome_iff_exists, Op.merge?_isSome_iff]
        exact hfirst next (List.mem_cons_of_mem _ List.mem_cons_self)
      have hsame : ∀ op ∈ both :: rest, op.kind = first.kind := by
        refine List.forall_mem_cons.2 ⟨Op.kind_of_merge? hboth, fun op hop => ?_⟩
        exact (hfirst op (List.mem_cons_of_mem _ (List.mem_cons_of_mem _ hop))).symm
      obtain ⟨op, hop, hgroup⟩ := ih both fun a ha b hb => (hsame a ha).trans (hsame b hb).symm
      refine ⟨op, ?_, (grouped_merged hboth rest).trans hgroup⟩
      rw [merged?, List.foldlM_cons, hboth]
      exact hop

section Grouped
variable {parts : List Script} {ops : Script}
  (h : Stretches (fun a b => a.kind = b.kind) parts ops)
include h

/-- A script is grouped stretch by stretch, each into one op. -/
theorem grouped_parts : List.Forall₂ (fun run op => grouped run = [op]) parts (grouped ops) := by
  induction parts generalizing ops with
  | nil =>
    obtain rfl : ops = [] := h.flatten.symm
    exact .nil
  | cons part parts ih =>
    have hpart := h.within part List.mem_cons_self
    obtain ⟨op, -, hgroup⟩ := exists_merged (h.nonempty part List.mem_cons_self) hpart
    obtain ⟨rest, rfl, hrest, hapart⟩ := h.cons
    rw [grouped_append fun a ha => hapart a (List.mem_of_mem_getLast? ha), hgroup]
    exact .cons hgroup (ih hrest)

/-- The grouped script has one op for each stretch of ops of one kind: what they merge into. -/
theorem grouped_of_stretches :
    List.Forall₂ (fun run op => merged? run = some op) parts (grouped ops) := by
  refine ((List.forall₂_and_left _ _).2 ⟨fun _ hpart => hpart, grouped_parts h⟩).imp ?_
  rintro run op ⟨hrun, hgroup⟩
  obtain ⟨both, hmerged, hboth⟩ := exists_merged (h.nonempty run hrun) (h.within run hrun)
  obtain rfl : both = op := List.singleton_inj.1 (hboth.symm.trans hgroup)
  exact hmerged

end Grouped

end Script

end BytePatch
