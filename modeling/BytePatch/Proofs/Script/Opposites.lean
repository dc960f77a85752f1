import Mathlib.Data.List.Forall2
import BytePatch.Proofs.Script.Compaction
import BytePatch.Proofs.Script.Regrouping
import BytePatch.Proofs.Stage.Undo

/-! Scripts that take each other back, op by op. Whatever merges, cancels, gathers or cuts the ops of
the one does just the same to those of the other, so what comes of both takes each other back. -/
namespace BytePatch

namespace Op

/-- The ops take each other back, of which none has forgotten anything. -/
inductive Opposes : Op → Op → Prop where
  | copy (run : Nat) : Opposes (.copy run) (.copy run)
  | delete (bytes : Bytes) : Opposes (.delete bytes) (.insert bytes)
  | insert (bytes : Bytes) : Opposes (.insert bytes) (.delete bytes)

namespace Opposes
variable {a a' b b' : Op}

theorem symm (h : Opposes a a') : Opposes a' a := by
  cases h <;> constructor

theorem undo_eq (h : Opposes a a') : a.undo = .ok a' := by
  cases h <;> rfl

theorem run_eq (h : Opposes a a') : a'.run = a.run := by
  cases h <;> rfl

theorem kind_eq (h : Opposes a a') : a'.kind = a.kind.inverse := by
  cases h <;> rfl

theorem kind_iff (h : Opposes a a') (kind : Kind) : a.kind = kind ↔ a'.kind = kind.inverse := by
  rw [h.kind_eq]
  constructor
  · rintro rfl
    rfl
  · intro hk
    rw [← Kind.inverse_inverse a.kind, hk, Kind.inverse_inverse]

theorem merge? (ha : Opposes a a') (hb : Opposes b b') :
    Option.Rel Opposes (a.merge? b) (a'.merge? b') := by
  cases ha <;> cases hb <;> repeat constructor

theorem combine? (ha : Opposes a a') (hb : Opposes b b') :
    Option.Rel Opposes (a.combine? b) (a'.combine? b') := by
  -- Both orders of a delete and an insert are looked at in the same way, and leave a copy.
  have hcancel : ∀ xs ys : Bytes,
      Option.Rel Opposes (if xs = ys then some (Op.copy xs.length) else none)
        (if xs = ys then some (Op.copy xs.length) else none) := by
    intro xs ys
    split
    · exact .some (.copy _)
    · exact .none
  have hmerge := ha.merge? hb
  cases ha <;> cases hb
  case delete.insert xs ys => exact hcancel xs ys
  case insert.delete xs ys => exact hcancel xs ys
  all_goals exact hmerge

theorem ne_copy (ha : Opposes a a') (h : ∀ run, a ≠ .copy run) : ∀ run, a' ≠ .copy run := by
  cases ha with
  | copy run => exact absurd rfl (h run)
  | _ => exact nofun

theorem replaces_eq (ha : Opposes a a') (hb : Opposes b b') :
    Chunk.replaces a b = Chunk.replaces a' b' := by
  cases ha <;> cases hb <;> rfl

theorem sameRegion_eq (ha : Opposes a a') (hb : Opposes b b') :
    Unchunk.sameRegion a b = Unchunk.sameRegion a' b' := by
  cases ha <;> cases hb <;> rfl

end Opposes

end Op

namespace Script

/-- The scripts take each other back. -/
abbrev Opposes (xs ys : Script) : Prop := List.Forall₂ Op.Opposes xs ys

theorem Opposes.symm {xs ys : Script} (h : Opposes xs ys) : Opposes ys xs :=
  List.Forall₂.flip (h.imp fun _ _ => Op.Opposes.symm)

/-- Scripts of which nothing is forgotten have one that takes them back. -/
theorem Unforgotten.opposes {ops : Script} (h : ops.Unforgotten) :
    Opposes ops (ops.map Op.swapped) := by
  induction ops with
  | nil => exact .nil
  | cons op ops ih =>
    refine .cons ?_ (ih fun run hrun => h run (List.mem_cons_of_mem _ hrun))
    cases op with
    | copy run => exact .copy run
    | skip run => exact absurd List.mem_cons_self (h run)
    | delete bytes => exact .delete bytes
    | insert bytes => exact .insert bytes

section Grouped

private theorem opposes_prepend {a a' : Op} (ha : Op.Opposes a a') {xs ys : Script}
    (h : Opposes xs ys) : Opposes (xs.prepend a) (ys.prepend a') := by
  cases h with
  | nil => exact .cons ha .nil
  | @cons b b' xs ys hb hrest =>
    have hmerge := ha.merge? hb
    simp only [prepend]
    generalize a.merge? b = both, a'.merge? b' = both' at hmerge
    cases hmerge with
    | none => exact .cons ha (.cons hb hrest)
    | some hboth => exact .cons hboth hrest

theorem Opposes.grouped {xs ys : Script} (h : Opposes xs ys) : Opposes xs.grouped ys.grouped :=
  List.rel_foldr (fun _ _ ha _ _ => opposes_prepend ha) List.Forall₂.nil h

end Grouped

section Compacted

private theorem opposes_reduce {held held' : List Op} (h : Opposes held held') :
    Opposes (Compact.reduce held) (Compact.reduce held') := by
  fun_induction Compact.reduce held generalizing held' with
  | case1 next prev older op hop ih =>
    obtain _ | @⟨_, next', _, _, hnext, hrest⟩ := h
    obtain _ | @⟨_, prev', _, older', hprev, holder⟩ := hrest
    have hcombine := hprev.combine? hnext
    rw [hop] at hcombine
    generalize hop' : prev'.combine? next' = op'? at hcombine
    obtain ⟨hboth⟩ := hcombine
    rw [Compact.reduce_combined hop']
    exact ih (.cons hboth holder)
  | case2 next prev older hop =>
    obtain _ | @⟨_, next', _, _, hnext, hrest⟩ := h
    obtain _ | @⟨_, prev', _, older', hprev, holder⟩ := hrest
    have hcombine := hprev.combine? hnext
    rw [hop] at hcombine
    generalize hop' : prev'.combine? next' = op'? at hcombine
    obtain _ | _ := hcombine
    rw [Compact.reduce, hop']
    exact .cons hnext (.cons hprev holder)
  | case3 held hshort =>
    obtain _ | @⟨next, next', held, held', hnext, hrest⟩ := h
    · simp [Compact.reduce]
    obtain _ | @⟨prev, prev', older, older', hprev, holder⟩ := hrest
    · simpa [Compact.reduce] using hnext
    · exact absurd rfl (hshort next prev older)

theorem Opposes.compacted {xs ys : Script} (h : Opposes xs ys) :
    Opposes xs.compacted ys.compacted := by
  have hpush : Relator.LiftFun Opposes (Relator.LiftFun Op.Opposes Opposes)
      Compact.push Compact.push := fun _ _ hheld _ _ hop => opposes_reduce (.cons hop hheld)
  exact List.rel_reverse (List.rel_foldl hpush List.Forall₂.nil h)

end Compacted

section Regrouped

private theorem Opposes.append_left {xs ys zs : Script} (h : Opposes (xs ++ ys) zs) :
    ∃ xs' ys', zs = xs' ++ ys' ∧ Opposes xs xs' ∧ Opposes ys ys' :=
  ⟨zs.take xs.length, zs.drop xs.length, (List.take_append_drop _ _).symm,
    (Opposes.symm (List.forall₂_take_append zs xs ys h.symm)),
    (Opposes.symm (List.forall₂_drop_append zs xs ys h.symm))⟩

private theorem opposes_regroup {lead lead' : Kind} (hlead : lead' = lead.inverse) {xs ys : Script}
    (h : Opposes xs ys) : Opposes (Unchunk.regroup lead xs) (Unchunk.regroup lead' ys) := by
  subst hlead
  have hkept : Opposes (xs.filter (·.kind = lead)) (ys.filter (·.kind = lead.inverse)) :=
    List.rel_filter (fun a a' ha => by simpa using ha.kind_iff lead) h
  have hother : Opposes (xs.filter (·.kind ≠ lead)) (ys.filter (·.kind ≠ lead.inverse)) :=
    List.rel_filter (fun a a' ha => by simpa using not_congr (ha.kind_iff lead)) h
  exact List.rel_append hkept.grouped hother.grouped

private theorem forall_sameRegion {first first' : Op} (hfirst : Op.Opposes first first')
    {xs ys : Script} (h : Opposes xs ys) (hsame : ∀ op ∈ xs, Unchunk.sameRegion first op) :
    ∀ op ∈ ys, Unchunk.sameRegion first' op := by
  induction h with
  | nil => exact nofun
  | cons hop _ ih =>
    obtain ⟨hhead, htail⟩ := List.forall_mem_cons.1 hsame
    exact List.forall_mem_cons.2 ⟨hfirst.sameRegion_eq hop ▸ hhead, ih htail⟩

theorem Opposes.regrouped {xs ys : Script} (h : Opposes xs ys) :
    Opposes xs.regrouped ys.regrouped := by
  induction xs using region_induction generalizing ys with
  | nil =>
    cases h
    exact .nil
  | region first region rest hregion hrest ih =>
    obtain ⟨part, rest', rfl, hpart, hrest'⟩ := Opposes.append_left h
    obtain _ | @⟨_, first', _, region', hfirst, hregion'⟩ := hpart
    have hends : ∀ op ∈ rest'.head?, ¬ Unchunk.sameRegion first' op := by
      cases hrest' with
      | nil => exact nofun
      | cons hop _ => simpa [← hfirst.sameRegion_eq hop] using hrest
    rw [regrouped_cons hregion hrest,
      regrouped_cons (forall_sameRegion hfirst hregion' hregion) hends]
    exact List.rel_append (opposes_regroup hfirst.kind_eq (.cons hfirst hregion')) (ih hrest')

end Regrouped

section Cut

private theorem opposes_map {α : Type} {f g : α → Op} (h : ∀ a, Op.Opposes (f a) (g a))
    (as : List α) : Opposes (as.map f) (as.map g) :=
  List.rel_map (R := Eq) (fun a _ heq => heq ▸ h a) (List.forall₂_eq_eq_eq ▸ rfl)

private theorem opposes_pieces (size : Nat) {a a' : Op} (h : Op.Opposes a a') :
    Opposes (Chunk.pieces size a) (Chunk.pieces size a') := by
  unfold Chunk.pieces
  rw [h.run_eq]
  split
  · exact .cons h .nil
  cases h with
  | copy run => exact .cons (.copy run) .nil
  | delete bytes => exact opposes_map .delete _
  | insert bytes => exact opposes_map .insert _

private theorem opposes_interleave {xs xs' ys ys' : Script} (hx : Opposes xs xs')
    (hy : Opposes ys ys') : Opposes (Chunk.interleave xs ys) (Chunk.interleave xs' ys') := by
  induction hx generalizing ys ys' with
  | nil => simpa [Chunk.interleave] using hy
  | cons hlead hleads ih =>
    cases hy with
    | nil => exact .cons hlead hleads
    | cons hfollow hfollows => exact .cons hlead (.cons hfollow (ih hfollows))

theorem Opposes.cut (size : Nat) {xs ys : Script} (h : Opposes xs ys) :
    Opposes (Chunk.cut size xs) (Chunk.cut size ys) := by
  fun_induction Chunk.cut size xs generalizing ys with
  | case1 =>
    cases h
    exact .nil
  | case2 run ops ih =>
    obtain _ | ⟨⟨_⟩, hrest⟩ := h
    exact .cons (.copy run) (ih hrest)
  | case3 op hcopy =>
    obtain _ | ⟨hop, ⟨⟩⟩ := h
    rw [Chunk.cut_singleton size (hop.ne_copy hcopy)]
    exact opposes_pieces size hop
  | case4 first second ops hcopy hr ih =>
    obtain _ | @⟨_, first', _, _, hfirst, hrest⟩ := h
    obtain _ | @⟨_, second', _, ops', hsecond, hops⟩ := hrest
    rw [Chunk.cut_of_ne_copy size (hfirst.ne_copy hcopy),
      if_pos (hfirst.replaces_eq hsecond ▸ hr)]
    exact List.rel_append
      (opposes_interleave (opposes_pieces size hfirst) (opposes_pieces size hsecond)) (ih hops)
  | case5 first second ops hcopy hr ih =>
    obtain _ | @⟨_, first', _, _, hfirst, hrest⟩ := h
    obtain _ | @⟨_, second', _, ops', hsecond, hops⟩ := hrest
    rw [Chunk.cut_of_ne_copy size (hfirst.ne_copy hcopy),
      if_neg (hfirst.replaces_eq hsecond ▸ hr)]
    exact List.rel_append (opposes_pieces size hfirst) (ih (.cons hsecond hops))

end Cut

end Script

end BytePatch
