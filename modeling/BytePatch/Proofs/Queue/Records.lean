import BytePatch.Proofs.Queue.Alike
import BytePatch.Proofs.Stage.Holding

/-! Stacks that write down what every poll at every level is answered, and else go on as they do.
What is written down tells what each layer holds, and how much is left. -/
namespace BytePatch

open Script (Tames)
open Feed (given Clean Dry)

variable {σ : Type}

/-- The feed with a list of its answers so far. -/
def Feed.recorded (feed : Feed σ) : Feed (σ × List Answer) where
  poll state := ((feed.poll state.1).1, (feed.poll state.1).2, state.2 ++ [(feed.poll state.1).1])
  rank state := feed.rank state.1
  rank_poll state := feed.rank_poll state.1

theorem Feed.alike_recorded (feed : Feed σ) : Feed.Alike Prod.fst feed.recorded feed :=
  fun _ => rfl

/-- The state of what is below all layers. -/
def Stack.bottom : (depth : Nat) → Stack σ depth → σ
  | 0, s => s
  | depth + 1, (_, below) => bottom depth below

/-- What the layers compare pairs with that do so themselves. -/
def Stack.serials : (depth : Nat) → Stack σ depth → List Aligner
  | 0, _ => []
  | depth + 1, (layer, below) => layer.work.serial?.toList ++ serials depth below

/-- A stack with lists of what was answered by its base and by each of its layers. -/
def Recorded (σ : Type) : Nat → Type
  | 0 => σ × List Answer
  | depth + 1 => (Layer × Recorded σ depth) × List Answer

namespace Recorded

def feed (base : Feed σ) : (depth : Nat) → Feed (Recorded σ depth)
  | 0 => base.recorded
  | depth + 1 => (Layer.feed (feed base depth)).recorded

/-- Nothing has been polled yet. -/
def blank : (depth : Nat) → Stack σ depth → Recorded σ depth
  | 0, s => (s, [])
  | depth + 1, (layer, below) => ((layer, blank depth below), [])

def stack : (depth : Nat) → Recorded σ depth → Stack σ depth
  | 0, record => record.1
  | depth + 1, record => (record.1.1, stack depth record.1.2)

/-- What was answered on top. -/
def answers : (depth : Nat) → Recorded σ depth → List Answer
  | 0, record => record.2
  | _ + 1, record => record.2

/-- What the base answered. -/
def baseAnswers : (depth : Nat) → Recorded σ depth → List Answer
  | 0, record => record.2
  | depth + 1, record => baseAnswers depth record.1.2

/-- The last thing the base answered is that there is nothing more, and no layer holds any op. -/
def Spent : (depth : Nat) → Recorded σ depth → Prop
  | 0, record => Dry record.2
  | depth + 1, record => record.1.1.Emptied ∧ Spent depth record.1.2

/-- Of every pair that a layer has compared itself, and that there was room for, some op came. -/
def Spared : (depth : Nat) → Recorded σ depth → Prop
  | 0, _ => True
  | depth + 1, record => (∀ aligner ∈ record.1.1.work.serial?,
      Entry.Pairs aligner.Spares (Entry.met [] (answers depth record.1.2))) ∧
    Spared depth record.1.2

/-- The runs that a layer has handed on and still holds fit into 64 bits together, and so at every
level. -/
def Counted : (depth : Nat) → Recorded σ depth → Prop
  | 0, record => (given record.2).totalRun < UInt64.size
  | depth + 1, record => (given record.2 ++ record.1.1.script).totalRun < UInt64.size ∧
    Counted depth record.1.2

/-- No poll has failed since then, of the base or of any layer. -/
def CleanSince : (depth : Nat) → Recorded σ depth → Recorded σ depth → Prop
  | 0, before, record => ∃ answers, Clean answers ∧ record.2 = before.2 ++ answers
  | depth + 1, before, record => (∃ answers, Clean answers ∧ record.2 = before.2 ++ answers) ∧
    CleanSince depth before.1.2 record.1.2

@[simp] theorem stack_blank {depth : Nat} (s : Stack σ depth) : stack depth (blank depth s) = s := by
  induction depth with
  | zero => rfl
  | succ depth ih =>
    obtain ⟨layer, below⟩ := s
    exact congrArg (Prod.mk layer) (ih below)

/-- Writing down changes nothing. -/
theorem alike_stack (base : Base σ) (depth : Nat) :
    Feed.Alike (stack depth) (feed base.toFeed depth) (Stack.feed base depth) := by
  induction depth with
  | zero => exact Feed.alike_recorded _
  | succ depth ih =>
    intro record
    have hlayer := Layer.feed_alike ih record.1
    exact hlayer

theorem CleanSince.refl {depth : Nat} (record : Recorded σ depth) :
    CleanSince depth record record := by
  induction depth with
  | zero => exact ⟨[], Feed.clean_nil, by simp⟩
  | succ depth ih => exact ⟨⟨[], Feed.clean_nil, by simp⟩, ih _⟩

private theorem clean_append {xs ys zs : List Answer}
    (h : ∃ answers, Clean answers ∧ ys = xs ++ answers)
    (h' : ∃ answers, Clean answers ∧ zs = ys ++ answers) :
    ∃ answers, Clean answers ∧ zs = xs ++ answers := by
  obtain ⟨first, hf, rfl⟩ := h
  obtain ⟨second, hs, rfl⟩ := h'
  exact ⟨first ++ second, hf.append hs, List.append_assoc ..⟩

theorem CleanSince.trans {depth : Nat} {first second third : Recorded σ depth}
    (h : CleanSince depth first second) (h' : CleanSince depth second third) :
    CleanSince depth first third := by
  induction depth with
  | zero => exact clean_append h h'
  | succ depth ih => exact ⟨clean_append h.1 h'.1, ih h.2 h'.2⟩

/-- What is true whenever polls have been made of a stack that was new, from a base that started in
this state: each layer has handed on and holds what it was given, and one that is shut has seen
everything below it spent, if no pair was lost. -/
def Sound (base : Feed σ) (start : σ) : (depth : Nat) → Recorded σ depth → Prop
  | 0, record => base.Polls start record.2 record.1
  | depth + 1, record => Sound base start depth record.1.2 ∧
    record.1.1.work.Serves record.1.1.buffers.pending ∧
    Tames (given (answers depth record.1.2)) (given record.2 ++ record.1.1.script) ∧
    (record.1.1.work.serial?.isSome →
      Entry.Settles [] (answers depth record.1.2) record.1.1.buffers.pending) ∧
    (record.1.1.work.Shut → (∀ op ∈ given (baseAnswers depth record.1.2), 0 < op.run) →
      Spared depth record.1.2 → Spent depth record.1.2)

/-- What polls make of a stack. -/
structure Advances (base : Feed σ) (start : σ) (depth : Nat) (before : Recorded σ depth)
    (polled : List Answer) (record : Recorded σ depth) : Prop where
  sound : Sound base start depth record
  answers_eq : answers depth record = answers depth before ++ polled
  clean : Clean polled → CleanSince depth before record
  spent : Dry polled → (∀ op ∈ given (baseAnswers depth record), 0 < op.run) →
    Spared depth record → Spent depth record
  serials_eq : Stack.serials depth record.stack = Stack.serials depth before.stack

theorem Sound.polls_base {base : Feed σ} {start : σ} {depth : Nat} {record : Recorded σ depth}
    (h : Sound base start depth record) :
    base.Polls start (baseAnswers depth record) (Stack.bottom depth record.stack) := by
  induction depth with
  | zero => exact h
  | succ depth ih => exact ih h.1

/-- What comes out on top is no more than what the base gave. -/
theorem Sound.tames {base : Feed σ} {start : σ} {depth : Nat} {record : Recorded σ depth}
    (h : Sound base start depth record) :
    Tames (given (baseAnswers depth record)) (given (answers depth record)) := by
  induction depth with
  | zero => exact Tames.refl _
  | succ depth ih =>
    obtain ⟨hbelow, -, htames, -⟩ := h
    exact (ih hbelow).trans (htames.trans (Tames.of_sublist (List.sublist_append_left _ _)))

theorem Sound.counted {base : Feed σ} {start : σ} {depth : Nat} {record : Recorded σ depth}
    (h : Sound base start depth record) (hpos : ∀ op ∈ given (baseAnswers depth record), 0 < op.run)
    (htotal : (given (baseAnswers depth record)).totalRun < UInt64.size) : Counted depth record := by
  induction depth with
  | zero => exact htotal
  | succ depth ih =>
    obtain ⟨hbelow, -, htames, -⟩ := h
    have hle := (hbelow.tames.trans htames).totalRun_le hpos
    exact ⟨Nat.lt_of_le_of_lt hle htotal, ih hbelow hpos htotal⟩

/-- No pair is lost that is as short as all that the base gave, if the layers lose none so short. -/
theorem Sound.spared {base : Feed σ} {start : σ} {depth : Nat} {record : Recorded σ depth}
    (h : Sound base start depth record) (hpos : ∀ op ∈ given (baseAnswers depth record), 0 < op.run)
    (hspares : ∀ aligner ∈ Stack.serials depth record.stack, ∀ orig target : Bytes,
      target.length ≤ (given (baseAnswers depth record)).totalRun → aligner.Spares orig target) :
    Spared depth record := by
  induction depth with
  | zero => trivial
  | succ depth ih =>
    obtain ⟨hbelow, -⟩ := h
    refine ⟨fun aligner ha orig target hm => ?_, ih hbelow hpos fun aligner ha => ?_⟩
    · have hinsert : .insert target ∈ given (answers depth record.1.2) :=
        Entry.mem_of_pair_mem_met hm
      exact hspares aligner (List.mem_append_left _ (Option.mem_toList.2 ha)) orig target
        (hbelow.tames.run_le hpos hinsert)
    · exact hspares aligner (List.mem_append_right _ ha)

private theorem advances_polls {base : Feed σ} {start : σ} {depth : Nat}
    (hpoll : ∀ {before : Recorded σ depth}, Sound base start depth before →
      Advances base start depth before [((feed base depth).poll before).1]
        ((feed base depth).poll before).2)
    {before record : Recorded σ depth} {polled : List Answer}
    (hp : (feed base depth).Polls before polled record) (h : Sound base start depth before) :
    Advances base start depth before polled record := by
  induction hp with
  | nil =>
    exact ⟨h, by simp, fun _ => CleanSince.refl _, fun hd => absurd hd Feed.not_dry_nil, rfl⟩
  | @cons s s' s'' answer rest hp hrest ih =>
    have hfirst := hpoll h
    rw [hp] at hfirst
    have hlast := ih hfirst.sound
    refine ⟨hlast.sound, ?_, ?_, ?_, hlast.serials_eq.trans hfirst.serials_eq⟩
    · rw [hlast.answers_eq, hfirst.answers_eq]
      simp
    · intro hclean
      have hhead : Clean [answer] := fun a ha => hclean a (by simp_all)
      exact (hfirst.clean hhead).trans (hlast.clean fun a ha => hclean a (by simp_all))
    · intro hdry hpos hspared
      cases rest with
      | nil =>
        cases hrest
        exact hfirst.spent hdry hpos hspared
      | cons second rest =>
        have hdry : Dry (second :: rest) := by simpa [Dry] using hdry
        exact hlast.spent hdry hpos hspared

section Taken

variable {base : Feed σ} {start : σ} {depth : Nat} {layer after : Layer}
  {below below' : Recorded σ depth} {log polled : List Answer}

private theorem Advances.taken (h : Advances base start depth below polled below')
    (htames : Tames (given (answers depth below)) (given log ++ layer.script)) :
    Tames (given (answers depth below')) (given log ++ (layer.script ++ given polled)) := by
  rw [h.answers_eq, Feed.given_append, ← List.append_assoc]
  exact htames.postpend _

/-- A layer that finds nothing more is empty, and has seen the end of what is below it. -/
theorem Advances.empty (h : Advances base start depth below polled below')
    (hbefore : Sound base start (depth + 1) ((layer, below), log))
    (hh : Layer.Handing layer polled (.ok none) after)
    (hpos : ∀ op ∈ given (baseAnswers depth below'), 0 < op.run)
    (hspares : ∀ aligner ∈ after.work.serial?,
      Entry.Pairs aligner.Spares (Entry.met [] (answers depth below'))) :
    after.script = [] ∧ (after.work.Shut ∨ Dry polled) := by
  obtain ⟨-, -, htames, hsettles, -⟩ := hbefore
  refine hh.empty rfl (fun op hop => ?_) fun aligner ha orig target hm => ?_
  · exact (h.sound.tames.trans (h.taken htames)).pos hpos op (List.mem_append_right _ hop)
  · -- The pairs met just now are among all those that were ever met.
    obtain ⟨settled, hs⟩ := hsettles (Option.isSome_of_mem ha)
    have hs : Entry.met [] (answers depth below') = settled ++ Entry.met layer.buffers.pending polled :=
      h.answers_eq ▸ hs polled
    exact hspares aligner (hh.serial.symm ▸ ha) orig target (hs ▸ List.mem_append_right settled hm)

end Taken

private theorem advances_poll {base : Feed σ} {start : σ} {depth : Nat}
    {before : Recorded σ depth} (h : Sound base start depth before) :
    Advances base start depth before [((feed base depth).poll before).1]
      ((feed base depth).poll before).2 := by
  induction depth with
  | zero =>
    have hpolls : base.Polls start before.2 before.1 := h
    exact ⟨hpolls.append (.single rfl), rfl, fun hclean => ⟨_, hclean, rfl⟩,
      fun hdry _ _ => hdry.append before.2, rfl⟩
  | succ depth ih =>
    obtain ⟨⟨layer, below⟩, log⟩ := before
    obtain ⟨hbelow, hserves, htames, hsettles, hshut⟩ := id h
    obtain ⟨polled, hpolls, hh⟩ := Layer.handing (feed base depth) hserves below
    change Advances base start (depth + 1) _ [(Layer.poll (feed base depth) (layer, below)).1]
      ((Layer.poll (feed base depth) (layer, below)).2,
        log ++ [(Layer.poll (feed base depth) (layer, below)).1])
    generalize Layer.poll (feed base depth) (layer, below) = result at hpolls hh
    obtain ⟨answer, after, below'⟩ := result
    have hadv := advances_polls ih hpolls hbelow
    -- What was shut before is as it was, and what has just been shut has seen the end.
    have hshut' : after.work.Shut → (∀ op ∈ given (baseAnswers depth below'), 0 < op.run) →
        Spared depth below' → Spent depth below' := by
      intro hs hpos hspared
      rcases hh.shut hs with ⟨hbefore, rfl⟩ | hdry
      · cases hpolls
        exact hshut hbefore hpos hspared
      · exact hadv.spent hdry hpos hspared
    refine ⟨⟨hadv.sound, hh.serves, ?_, fun hserial => ?_, hshut'⟩, rfl, ?_, ?_, ?_⟩
    · change Tames _ (given (log ++ [answer]) ++ after.script)
      rw [Feed.given_append, List.append_assoc]
      exact (hadv.taken htames).trans (hh.tames.prepend _)
    · rw [hh.serial] at hserial
      change Entry.Settles [] (answers depth below') after.buffers.pending
      rw [hadv.answers_eq]
      exact (hsettles hserial).trans (hh.settles hserial)
    · intro hclean
      obtain ⟨op?, rfl⟩ := hclean answer List.mem_cons_self
      exact ⟨⟨_, hclean, rfl⟩, hadv.clean (hh.clean op? rfl)⟩
    · intro hdry hpos hspared
      obtain rfl : answer = .ok none := by simpa [Dry] using hdry
      obtain ⟨hscript, hs | hd⟩ := hadv.empty h hh hpos hspared.1
      · exact ⟨.of_script hscript, hshut' hs hpos hspared.2⟩
      · exact ⟨.of_script hscript, hadv.spent hd hpos hspared.2⟩
    · exact congrArg₂ (fun serial? => (Option.toList serial? ++ ·)) hh.serial hadv.serials_eq

/-- Polls of a stack, whether or not they fail, leave it sound. Nothing fails below that is not
answered on top, and nothing is left once that was answered, if no pair was lost. -/
theorem Sound.advances {base : Feed σ} {start : σ} {depth : Nat}
    {before record : Recorded σ depth} {polled : List Answer} (h : Sound base start depth before)
    (hp : (feed base depth).Polls before polled record) :
    Advances base start depth before polled record :=
  advances_polls advances_poll hp h

end Recorded

end BytePatch
