import BytePatch.Queue.Buffers
import BytePatch.Queue.Feed
import BytePatch.Stream.Reader
/-!
Deletes and inserts cut into pieces of bounded length. A delete and an insert that are neighbours
are cut together, a piece of the one followed by a piece of the other, so that what is compared
later is bounded on both sides.
-/
namespace BytePatch.Chunk

/-- Runs of `size` that add up to `run`, the last one shorter if need be. -/
def runsOf (size run : Nat) : List Nat :=
  if run = 0 then []
  else min (max 1 size) run :: runsOf size (run - min (max 1 size) run)
termination_by run
decreasing_by omega

/-- The pieces of an op. Copies stay whole. -/
def pieces (size : Nat) (op : Op) : List Op :=
  if op.run ≤ size then [op]
  else match op with
    | .copy run => [.copy run]
    | .skip run => (runsOf size run).map .skip
    | .delete bytes => (blocksOf size bytes).map .delete
    | .insert bytes => (blocksOf size bytes).map .insert

/-- Turn about from both lists, then what the longer one has left. -/
def interleave : List Op → List Op → List Op
  | lead :: leads, follow :: follows => lead :: follow :: interleave leads follows
  | [], follows => follows
  | leads, [] => leads

/-- A delete beside an insert, whether or not the delete remembers its bytes. -/
def replaces (a b : Op) : Bool := a.kind ≠ .copy && b.kind = a.kind.inverse

variable {σ : Type}

/-- An op that has been taken is lost if the look at the one after it fails. -/
def shift (size : Nat) (feed : Feed σ) (buffers : Buffers) (s : σ) :
    Except Fault Unit × Buffers × σ :=
  match feed.require 1 buffers.pending s with
  | (.error fault, pending, s) => (.error fault, ⟨buffers.ready, pending⟩, s)
  | (.ok _, [], s) => (.ok (), ⟨buffers.ready, []⟩, s)
  | (.ok _, .copy run :: pending, s) => (.ok (), ⟨buffers.ready ++ [.copy run], pending⟩, s)
  | (.ok _, first :: pending, s) =>
    match feed.require 1 pending s with
    | (.error fault, pending, s) => (.error fault, ⟨buffers.ready, pending⟩, s)
    | (.ok _, [], s) => (.ok (), ⟨buffers.ready ++ pieces size first, []⟩, s)
    | (.ok _, second :: pending, s) =>
      if replaces first second then
        (.ok (), ⟨buffers.ready ++ interleave (pieces size first) (pieces size second), pending⟩, s)
      else (.ok (), ⟨buffers.ready ++ pieces size first, second :: pending⟩, s)

private theorem weight_runsOf (size run : Nat) :
    Script.weight ((runsOf size run).map .skip) = run := by
  fun_induction runsOf size run with
  | case1 => rfl
  | case2 run h ih =>
    simp only [List.map_cons, Script.weight_cons, ih, Op.weight, Op.run]
    omega

private theorem weight_blocksOf (make : Bytes → Op) (hm : ∀ bytes, (make bytes).run = bytes.length)
    (size : Nat) (bytes : Bytes) :
    Script.weight ((blocksOf size bytes).map make) = bytes.length := by
  fun_induction blocksOf size bytes with
  | case1 => rfl
  | case2 byte rest ih =>
    simp only [List.map_cons, Script.weight_cons, ih, Op.weight, hm, List.length_cons,
      List.length_take, List.length_drop]
    omega

theorem weight_pieces_le (size : Nat) (op : Op) :
    Script.weight (pieces size op) ≤ op.weight := by
  unfold pieces
  split
  · simp
  · cases op with
    | copy run => simp
    | skip run => rw [weight_runsOf]; simp only [Op.weight, Op.run]; omega
    | delete bytes => rw [weight_blocksOf _ fun _ => rfl]; simp only [Op.weight, Op.run]; omega
    | insert bytes => rw [weight_blocksOf _ fun _ => rfl]; simp only [Op.weight, Op.run]; omega

theorem weight_interleave (xs ys : List Op) :
    Script.weight (interleave xs ys) = Script.weight xs + Script.weight ys := by
  fun_induction interleave xs ys with
  | case1 x xs y ys ih => simp only [Script.weight_cons, ih]; omega
  | case2 => simp
  | case3 => simp

theorem weight_shift_le (size : Nat) (feed : Feed σ) (buffers : Buffers) (s : σ) :
    (shift size feed buffers s).2.1.weight + feed.rank (shift size feed buffers s).2.2 ≤
      buffers.weight + feed.rank s := by
  have h1 := feed.rank_require_le 1 buffers.pending s
  unfold shift
  split <;> rename_i heq <;> rw [heq] at h1 <;> simp only at h1
  · simp [Buffers.weight]; omega
  · simp [Buffers.weight] at *; omega
  · simp [Buffers.weight] at *; omega
  · next first pending s' _ =>
    have h2 := feed.rank_require_le 1 pending s'
    have hp := weight_pieces_le size first
    simp only [Script.weight_cons] at h1
    split <;> rename_i heq2 <;> rw [heq2] at h2 <;> simp only at h2
    · simp [Buffers.weight]; omega
    · simp [Buffers.weight] at *; omega
    · next second rest s'' =>
      have hq := weight_pieces_le size second
      simp only [Script.weight_cons] at h2
      split
      · simp only [Buffers.weight, Script.weight_append, weight_interleave]; omega
      · simp only [Buffers.weight, Script.weight_append, Script.weight_cons]; omega

end BytePatch.Chunk
