import BytePatch.Proofs.Differ.Diff
import BytePatch.Proofs.Threads.Room

/-! The capacity for a chunk. Where it can be counted in 64 bits, every pair of a script that has been
cut to the chunk fits. A config may ask for more than that. -/
namespace BytePatch.Config

/-- A config that has been accepted has a capacity for its chunk just if the chunk is less than
`2 ^ 32 - 1`. If there is one then no two strings are refused that are no longer than the chunk, and
none is refused of a script that has been cut to it, whoever compares the pairs. -/
theorem chunks_fit {config : Config} (hvalid : config.validate = .ok ()) (divider : Divider) :
    (Aligner.capacityFor config.chunkSize =
      if config.chunkSize + 1 < 2 ^ 32 then .ok ((config.chunkSize + 1) * (config.chunkSize + 1))
      else .error .overflow) ∧
    ∀ aligner, Aligner.forChunk config.chunkSize config.method divider = .ok aligner →
      (∀ orig target : Bytes, orig.length ≤ config.chunkSize → target.length ≤ config.chunkSize →
        aligner.checkCapacity orig target = .ok ()) ∧
      ∀ (source : Queue) (ops : Script), source.Delivers ops →
        aligner.Admits (source.under (.chunk config.chunkSize)) := by
  refine ⟨Aligner.capacityFor_eq _, fun aligner haligner => ⟨fun orig target ho ht => ?_, ?_⟩⟩
  · obtain ⟨hlt, rfl⟩ := Aligner.forChunk_eq_ok_iff.1 haligner
    rw [Aligner.checkCapacity_eq_ok_iff (Aligner.le_maxCells_of_lt hlt)]
    exact Aligner.cells_le ho ht
  · intro source ops hsource
    exact Aligner.admits_chunk haligner hsource (Differ.pos_of_validate hvalid).1

/-- The largest chunk that there is a capacity for. -/
def largest : Config := { default with chunkSize := 2 ^ 32 - 2, method := .myers }

theorem chunks_fit_largest : largest.validate = .ok () ∧
    ∃ aligner, Aligner.forChunk largest.chunkSize .myers = .ok aligner ∧
      ∀ (source : Queue) (ops : Script), source.Delivers ops →
        aligner.Admits (source.under (.chunk largest.chunkSize)) := by
  have hvalid : largest.validate = .ok () := by decide
  obtain ⟨-, hfits⟩ := chunks_fit hvalid .myers
  have haligner := Aligner.forChunk_of_lt (show largest.chunkSize + 1 < 2 ^ 32 by decide) .myers .myers
  exact ⟨hvalid, _, haligner, (hfits _ haligner).2⟩

/-- A chunk that asks for no cutting. -/
def uncut : Config := { default with chunkSize := 2 ^ 32 - 1, method := .myers }

/-- Its cells cannot be counted, and nothing is built that compares pairs. -/
theorem capacityFor_uncut : uncut.validate = .ok () ∧
    Aligner.capacityFor uncut.chunkSize = .error .overflow ∧
    ∀ crews queue, Pipeline.build ⟨[.chunk, .graph], uncut.chunkSize, uncut.method, 1, none, .myers⟩
      crews queue = .error .overflow := by
  have hcapacity : Aligner.capacityFor uncut.chunkSize = .error .overflow := by
    rw [Aligner.capacityFor_eq, if_neg (by decide)]
  refine ⟨by decide, hcapacity, fun crews queue => ?_⟩
  have hchunk : uncut.chunkSize ≠ 0 := by decide
  simp [Pipeline.build, Pipeline.works, Pipeline.work, Pipeline.graph, Aligner.forChunk, hcapacity,
    hchunk, Functor.map, Except.map]

end BytePatch.Config
