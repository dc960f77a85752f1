import BytePatch.Lattice.Method
/-!
Comparisons of bounded size: an aligner turns a pair of strings that fits its capacity into a
script, and a graph remembers the last pair that did.
-/
namespace BytePatch

structure Aligner where
  strategy : Strategy
  /-- Number of lattice cells there is room for. -/
  capacity : Nat

namespace Aligner

/-- Largest number of cells that can be counted. -/
def maxCells : Nat := UInt64.size - 1

/-- Room for two strings of up to `chunk` bytes, if that many cells can be counted. -/
def capacityFor (chunk : Nat) : Except Fault Nat :=
  if (chunk + 1) * (chunk + 1) < UInt64.size then .ok ((chunk + 1) * (chunk + 1))
  else .error .overflow

def forChunk (chunk : Nat) (method : Method) (divider : Divider := .myers) :
    Except Fault Aligner :=
  (⟨method.strategyWith divider, ·⟩) <$> capacityFor chunk

def cells (orig target : Bytes) : Nat := (orig.length + 1) * (target.length + 1)

def checkCapacity (aligner : Aligner) (orig target : Bytes) : Except Fault Unit :=
  if cells orig target ≤ min aligner.capacity maxCells then .ok ()
  else .error (.capacityExceeded (min (cells orig target) maxCells) aligner.capacity)

/-- The script that turns the one string into the other. -/
def align (aligner : Aligner) (orig target : Bytes) : Except Fault Script :=
  match aligner.checkCapacity orig target with
  | .error fault => .error fault
  | .ok () => .ok (aligner.strategy.script orig target)

theorem align_of_fits {aligner : Aligner} {orig target : Bytes}
    (h : cells orig target ≤ min aligner.capacity maxCells) :
    aligner.align orig target = .ok (aligner.strategy.script orig target) := by
  rw [align, checkCapacity, if_pos h]

theorem weight_align_le {aligner : Aligner} {orig target : Bytes} {script : Script}
    (h : aligner.align orig target = .ok script) :
    script.weight ≤ orig.length + target.length := by
  unfold align at h
  split at h
  · cases h
  · cases h; exact aligner.strategy.weight_script_le orig target

end Aligner

/-- A delete that remembers its bytes next to an insert, in either order: the two byte strings to
compare. -/
def Op.pair? : Op → Op → Option (Bytes × Bytes)
  | .delete orig, .insert target | .insert target, .delete orig => some (orig, target)
  | _, _ => none

theorem Op.weight_of_pair? {a b : Op} {orig target : Bytes} (h : a.pair? b = some (orig, target)) :
    orig.length + target.length ≤ a.weight + b.weight := by
  cases a <;> cases b <;> simp [pair?] at h <;> obtain ⟨rfl, rfl⟩ := h <;>
    simp only [weight, run] <;> omega

structure Graph where
  aligner : Aligner
  /-- The last pair that fitted. -/
  pair? : Option (Bytes × Bytes)

namespace Graph

def new (aligner : Aligner) : Graph := ⟨aligner, none⟩

/-- A pair that does not fit leaves the graph as it was. -/
def compute (graph : Graph) (orig target : Bytes) : Except Fault Unit × Graph :=
  match graph.aligner.checkCapacity orig target with
  | .error fault => (.error fault, graph)
  | .ok () => (.ok (), { graph with pair? := some (orig, target) })

def script (graph : Graph) : Except Fault Script :=
  match graph.pair? with
  | none => .error (.illegalState .scriptBeforeCompute)
  | some (orig, target) => .ok (graph.aligner.strategy.script orig target)

/-- The script with its last op first. -/
def scriptBack (graph : Graph) : Except Fault Script := List.reverse <$> graph.script

def cost (graph : Graph) : Except Fault Nat :=
  match graph.pair? with
  | none => .error (.illegalState .costBeforeCompute)
  | some (orig, target) => .ok (graph.aligner.strategy.cost orig target)

end Graph

end BytePatch
