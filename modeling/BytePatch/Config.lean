import BytePatch.Pipeline
/-!
Settings of a comparison.
-/
namespace BytePatch

structure Config where
  /-- Most bytes, on either side, that are compared as one pair. -/
  chunkSize : Nat
  workers : Nat
  method : Method
  /-- Compare pairs in a pool. -/
  parallel : Bool
  /-- Keep deleted bytes, so that a diff can be undone. -/
  keepUndo : Bool
  /-- Turn changes that cancel into copies. -/
  compact : Bool
deriving DecidableEq

namespace Config

def default : Config := ⟨defaultChunk, defaultWorkers, .inertial, true, true, false⟩

/-- Neither chunks nor the pool may be empty. -/
def validate (config : Config) : Except Fault Unit :=
  if config.chunkSize = 0 then .error (.config .zeroChunkSize)
  else if config.workers = 0 then .error (.config .zeroWorkers)
  else .ok ()

def stages (config : Config) : List Stage :=
  [.chunk, if config.parallel then .parallelGraph else .graph, .coalesce] ++
    (if config.compact then [.compact] else []) ++ (if config.keepUndo then [] else [.oneWay])

def pipeline (config : Config) (divider : Divider := .myers) : Pipeline :=
  ⟨config.stages, config.chunkSize, config.method, config.workers, none, divider⟩

end Config

end BytePatch
