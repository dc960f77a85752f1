import BytePatch.Proofs.Queue.Towers

/-! Stacks without pumps and pools. Such a stack keeps no end in mind: it finds nothing more only when
its base has just said so. -/
namespace BytePatch

open Feed (given Dry)

variable {σ : Type}

/-- The layer takes from below as long as it is polled. -/
def Work.Lasts : Work → Prop
  | .pump _ | .pool _ => False
  | _ => True

theorem Work.Lasts.not_shut {work : Work} (h : work.Lasts) : ¬ work.Shut := by
  cases work with
  | pump | pool => exact h.elim
  | _ => exact id

theorem Layer.lasts_shift {layer : Layer} (h : layer.work.Lasts) (below : Feed σ) (s : σ) :
    (shift below layer s).2.1.work.Lasts := by
  obtain ⟨buffers, work⟩ := layer
  cases work with
  | pump | pool => exact h.elim
  | _ => exact trivial

theorem Layer.lasts_poll {layer : Layer} (h : layer.work.Lasts) (below : Feed σ) (s : σ) :
    (poll below (layer, s)).2.1.work.Lasts := by
  have hs := lasts_shift h below s
  unfold poll
  dsimp only
  split
  · exact h
  · generalize shift below layer s = result at hs
    obtain ⟨fault | _, after, s'⟩ := result
    · exact hs
    · dsimp only
      split <;> exact hs

namespace Stack

/-- All layers take from below as long as they are polled. -/
def Lasts : (depth : Nat) → Stack σ depth → Prop
  | 0, _ => True
  | depth + 1, (layer, below) => layer.work.Lasts ∧ Lasts depth below

end Stack

theorem Tower.lasts_of {base : σ} {works : List Work} (h : ∀ work ∈ works, work.Lasts) :
    Stack.Lasts _ (of base works).stack := by
  suffices hall : ∀ tower : Tower σ, Stack.Lasts _ tower.stack →
      Stack.Lasts _ (works.foldl (fun tower work => tower.under work) tower).stack from
    hall ⟨0, base⟩ trivial
  induction works with
  | nil => exact fun _ hl => hl
  | cons work works ih =>
    intro tower hl
    exact ih (fun work hm => h work (List.mem_cons_of_mem _ hm)) (tower.under work)
      ⟨h work List.mem_cons_self, hl⟩

namespace Recorded

/-- What polls of a stack whose layers last make of its base. -/
structure Draws (base : Feed σ) (depth : Nat) (before : Recorded σ depth) (polled : List Answer)
    (record : Recorded σ depth) : Prop where
  lasts : Stack.Lasts depth record.stack
  /-- If the last poll finds nothing, so did the last of those that it made of the base. -/
  ended : ∃ answers, base.Polls (Stack.bottom depth before.stack) answers
      (Stack.bottom depth record.stack) ∧
    (Dry polled → (∀ op ∈ given (baseAnswers depth record), 0 < op.run) → Spared depth record →
      Dry answers)

private theorem draws_polls {base : Feed σ} {start : σ} {depth : Nat}
    (hpoll : ∀ {before : Recorded σ depth}, Sound base start depth before →
      Stack.Lasts depth before.stack →
      Draws base depth before [((feed base depth).poll before).1]
        ((feed base depth).poll before).2)
    {before record : Recorded σ depth} {polled : List Answer}
    (hp : (feed base depth).Polls before polled record) (h : Sound base start depth before)
    (hl : Stack.Lasts depth before.stack) : Draws base depth before polled record := by
  induction hp with
  | nil => exact ⟨hl, [], .nil, fun hd => absurd hd Feed.not_dry_nil⟩
  | @cons s s' s'' answer rest hp hrest ih =>
    have hfirst := hpoll h hl
    rw [hp] at hfirst
    cases rest with
    | nil =>
      cases hrest
      exact hfirst
    | cons second rest =>
      obtain ⟨answers, hanswers, -⟩ := hfirst.ended
      have hlast := ih (h.advances (.single hp)).sound hfirst.lasts
      obtain ⟨later, hlater, hend⟩ := hlast.ended
      refine ⟨hlast.lasts, answers ++ later, hanswers.append hlater, fun hdry hpos hspared => ?_⟩
      have hdry : Dry (second :: rest) := by simpa [Dry] using hdry
      exact (hend hdry hpos hspared).append answers

private theorem draws_poll {base : Feed σ} {start : σ} {depth : Nat}
    {before : Recorded σ depth} (h : Sound base start depth before)
    (hl : Stack.Lasts depth before.stack) :
    Draws base depth before [((feed base depth).poll before).1]
      ((feed base depth).poll before).2 := by
  induction depth with
  | zero => exact ⟨trivial, _, .single rfl, fun hdry _ _ => hdry⟩
  | succ depth ih =>
    obtain ⟨⟨layer, below⟩, log⟩ := before
    obtain ⟨hbelow, hserves, -⟩ := id h
    obtain ⟨hlayer, hlbelow⟩ := hl
    have hlayer' := Layer.lasts_poll hlayer (feed base depth) below
    obtain ⟨polled, hpolls, hh⟩ := Layer.handing (feed base depth) hserves below
    change Draws base (depth + 1) _ [(Layer.poll (feed base depth) (layer, below)).1]
      ((Layer.poll (feed base depth) (layer, below)).2,
        log ++ [(Layer.poll (feed base depth) (layer, below)).1])
    generalize Layer.poll (feed base depth) (layer, below) = result at hpolls hh hlayer'
    obtain ⟨answer, after, below'⟩ := result
    have hdraws := draws_polls ih hpolls hbelow hlbelow
    obtain ⟨answers, hanswers, hend⟩ := hdraws.ended
    refine ⟨⟨hlayer', hdraws.lasts⟩, answers, hanswers, fun hdry hpos hspared => ?_⟩
    obtain rfl : answer = .ok none := by simpa [Dry] using hdry
    have hempty := (hbelow.advances hpolls).empty h hh hpos hspared.1
    exact hend (hempty.2.resolve_left hlayer'.not_shut) hpos hspared.2

theorem Sound.draws {base : Feed σ} {start : σ} {depth : Nat}
    {before record : Recorded σ depth} {polled : List Answer}
    (h : Sound base start depth before) (hl : Stack.Lasts depth before.stack)
    (hp : (feed base depth).Polls before polled record) :
    Draws base depth before polled record :=
  draws_polls draws_poll hp h hl

end Recorded

end BytePatch
