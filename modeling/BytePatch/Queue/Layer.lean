import BytePatch.Stage.Chunk
import BytePatch.Stage.Coalesce
import BytePatch.Stage.Compact
import BytePatch.Stage.Pool
import BytePatch.Stage.Pump
import BytePatch.Stage.Pointwise
import BytePatch.Stage.Unchunk
/-!
A transformer on top of a feed: its buffers, what it does to the ops that come through it, and
the feed that the two make together.
-/
namespace BytePatch

inductive Work where
  | coalesce
  | compact
  | chunk (size : Nat)
  | unchunk
  | undo
  | forget
  | rewind (orig : Reader)
  | pump (pump : Pump)
  | align (aligner : Aligner)
  | pool (pool : Pool)

structure Layer where
  buffers : Buffers
  work : Work

/-- What a transformer holds besides its buffers. -/
def Work.weight : Work → Nat
  | .pump state => Script.weight state.coming
  | .pool state => state.weight
  | _ => 0

namespace Layer

variable {σ : Type}

def new (work : Work) : Layer := ⟨.empty, work⟩

def weight (layer : Layer) : Nat := layer.buffers.weight + layer.work.weight

/-- Refill the ready buffer from the feed below. Nothing ready afterwards means that there is
nothing more for now. -/
def shift (feed : Feed σ) (layer : Layer) (s : σ) : Except Fault Unit × Layer × σ :=
  match layer with
  | ⟨buffers, .coalesce⟩ =>
    let (answer, buffers, s) := Coalesce.shift feed buffers s
    (answer, ⟨buffers, .coalesce⟩, s)
  | ⟨buffers, .compact⟩ =>
    let (answer, buffers, s) := Compact.shift feed buffers s
    (answer, ⟨buffers, .compact⟩, s)
  | ⟨buffers, .chunk size⟩ =>
    let (answer, buffers, s) := Chunk.shift size feed buffers s
    (answer, ⟨buffers, .chunk size⟩, s)
  | ⟨buffers, .unchunk⟩ =>
    let (answer, buffers, s) := Unchunk.shift feed buffers s
    (answer, ⟨buffers, .unchunk⟩, s)
  | ⟨buffers, .undo⟩ =>
    let (answer, _, buffers, s) := Pointwise.shift Pointwise.undo feed () buffers s
    (answer, ⟨buffers, .undo⟩, s)
  | ⟨buffers, .forget⟩ =>
    let (answer, _, buffers, s) := Pointwise.shift Pointwise.forget feed () buffers s
    (answer, ⟨buffers, .forget⟩, s)
  | ⟨buffers, .rewind orig⟩ =>
    let (answer, orig, buffers, s) := Pointwise.shift Op.rewind feed orig buffers s
    (answer, ⟨buffers, .rewind orig⟩, s)
  | ⟨buffers, .pump pump⟩ =>
    let (answer, pump, buffers, s) := Pump.shift feed pump buffers s
    (answer, ⟨buffers, .pump pump⟩, s)
  | ⟨buffers, .align aligner⟩ =>
    let (answer, buffers, s) := Align.shift aligner feed buffers s
    (answer, ⟨buffers, .align aligner⟩, s)
  | ⟨buffers, .pool pool⟩ =>
    let (answer, pool, buffers, s) := Pool.shift feed pool buffers s
    (answer, ⟨buffers, .pool pool⟩, s)

theorem weight_shift_le (feed : Feed σ) (layer : Layer) (s : σ) :
    (shift feed layer s).2.1.weight + feed.rank (shift feed layer s).2.2 ≤
      layer.weight + feed.rank s := by
  obtain ⟨buffers, work⟩ := layer
  cases work with
  | coalesce => exact Coalesce.weight_shift_le feed buffers s
  | compact => exact Compact.weight_shift_le feed buffers s
  | chunk size => exact Chunk.weight_shift_le size feed buffers s
  | unchunk => exact Unchunk.weight_shift_le feed buffers s
  | undo =>
    exact Pointwise.weight_shift_le Pointwise.undo Pointwise.weight_undo_le feed () buffers s
  | forget =>
    exact Pointwise.weight_shift_le Pointwise.forget Pointwise.weight_forget_le feed () buffers s
  | rewind orig => exact Pointwise.weight_shift_le Op.rewind Op.weight_rewind_le feed orig buffers s
  | pump pump =>
    have hs := Pump.weight_shift_le feed pump buffers s
    generalize h : Pump.shift feed pump buffers s = result at hs
    obtain ⟨answer, after, buffers', s'⟩ := result
    simp only [shift, h, weight, Work.weight] at hs ⊢
    omega
  | align aligner => exact Align.weight_shift_le aligner feed buffers s
  | pool pool =>
    have hs := Pool.weight_shift_le feed pool buffers s
    generalize h : Pool.shift feed pool buffers s = result at hs
    obtain ⟨answer, after, buffers', s'⟩ := result
    simp only [shift, h, weight, Work.weight] at hs ⊢
    omega

/-- The first ready op, after a single refill if nothing is ready. -/
def poll (feed : Feed σ) (state : Layer × σ) : Answer × Layer × σ :=
  match state.1.buffers.ready with
  | op :: ready =>
    (.ok (some op), { state.1 with buffers := { state.1.buffers with ready } }, state.2)
  | [] =>
    match shift feed state.1 state.2 with
    | (.error fault, layer, s) => (.error fault, layer, s)
    | (.ok (), layer, s) =>
      match layer.buffers.ready with
      | [] => (.ok none, layer, s)
      | op :: ready => (.ok (some op), { layer with buffers := { layer.buffers with ready } }, s)

theorem rank_poll_le (feed : Feed σ) (state : Layer × σ) :
    (poll feed state).2.1.weight + feed.rank (poll feed state).2.2 + (poll feed state).1.weight ≤
      state.1.weight + feed.rank state.2 := by
  unfold poll
  split
  · next op ready h =>
    simp only [weight, Buffers.weight, h, Script.weight_cons, Answer.weight]
    omega
  · have hs := weight_shift_le feed state.1 state.2
    split <;> rename_i heq <;> rw [heq] at hs
    · exact hs
    · split
      · exact hs
      · next op ready h =>
        simp only [weight, Buffers.weight, h, Script.weight_cons, Answer.weight] at *
        omega

/-- The feed of what comes out on top. -/
def feed (below : Feed σ) : Feed (Layer × σ) where
  poll := poll below
  rank state := state.1.weight + below.rank state.2
  rank_poll := rank_poll_le below

end Layer

end BytePatch
