import BytePatch.Queue.Basic
/-!
Pipelines written as one letter for each stage, and the layers they put on a queue.
-/
namespace BytePatch

inductive Stage where
  | raw
  | coalesce
  | compact
  | graph
  | oneWay
  | parallelGraph
  | pump
  | rewind
  | unchunk
  | undo
  | chunk
deriving DecidableEq

namespace Stage

def all : List Stage :=
  [.raw, .coalesce, .compact, .graph, .oneWay, .parallelGraph, .pump, .rewind, .unchunk, .undo,
    .chunk]

def code : Stage → Char
  | .raw => 'q'
  | .coalesce => 'c'
  | .compact => 'C'
  | .graph => 'g'
  | .oneWay => 'o'
  | .parallelGraph => 'G'
  | .pump => 'p'
  | .rewind => 'r'
  | .unchunk => 'u'
  | .undo => 'U'
  | .chunk => 'k'

def title : Stage → String
  | .raw => "Raw"
  | .coalesce => "Coalesce"
  | .compact => "Compact"
  | .graph => "Graph"
  | .oneWay => "OneWay"
  | .parallelGraph => "ParallelGraph"
  | .pump => "Pump"
  | .rewind => "Rewind"
  | .unchunk => "Unchunk"
  | .undo => "Undo"
  | .chunk => "Chunk"

def ofCode? (code : Char) : Option Stage := all.find? (·.code = code)

theorem ofCode?_code (stage : Stage) : ofCode? stage.code = some stage := by
  cases stage <;> decide

/-- Read one stage for each character, up to the first that is none. -/
def parse : List Char → Except Fault (List Stage)
  | [] => .ok []
  | c :: codes =>
    match ofCode? c with
    | none => .error (.unknownStage c)
    | some stage => (stage :: ·) <$> parse codes

end Stage

/-- Bytes on either side of a comparison unless something else is said. -/
def defaultChunk : Nat := 1024

/-- Workers in a pool unless something else is said. -/
def defaultWorkers : Nat := 4

/-- The workers of a pool: their threads cannot be started, or they finish early at some of the looks
at the pool. -/
abbrev Crew := Except IoFault (Nat → Bool)

structure Pipeline where
  stages : List Stage
  chunk : Nat
  method : Method
  workers : Nat
  /-- What a rewinding stage reads. It serves one such stage only. -/
  orig? : Option Reader
  divider : Divider := .myers

namespace Pipeline

def ofStages (stages : List Stage) : Pipeline :=
  ⟨stages, defaultChunk, .inertial, defaultWorkers, none, .myers⟩

def parse (codes : String) : Except Fault Pipeline := ofStages <$> Stage.parse codes.toList

/-- What a graph stage compares pairs with, if a graph can be made that large. -/
def graph (pipeline : Pipeline) : Except Fault Aligner :=
  Aligner.forChunk pipeline.chunk pipeline.method pipeline.divider

/-- What pairs are compared with. A worker makes its graph when it is given its first pair; if it
cannot, no pair fits. -/
def aligner (pipeline : Pipeline) : Aligner :=
  match pipeline.graph with
  | .ok aligner => aligner
  | .error _ => ⟨pipeline.method.strategyWith pipeline.divider, 0⟩

/-- A pool with as many workers as asked for, of which there has to be one. -/
def pool (aligner : Aligner) (workers : Nat) (crew : Crew) : Except Fault Work :=
  if workers = 0 then .error (.config .noWorkers)
  else match crew with
    | .error cause => .error (.io cause)
    | .ok early => .ok (.pool (Pool.new aligner workers early))

/-- What a stage puts on a queue, if anything, and the reader left for later stages. -/
def work (pipeline : Pipeline) (crew : Crew) (orig? : Option Reader) :
    Stage → Except Fault (Option Work × Option Reader)
  | .raw => .ok (none, orig?)
  | .coalesce => .ok (some .coalesce, orig?)
  | .compact => .ok (some .compact, orig?)
  | .graph =>
    match pipeline.graph with
    | .error fault => .error fault
    | .ok aligner => .ok (some (.align aligner), orig?)
  | .oneWay => .ok (some .forget, orig?)
  | .parallelGraph =>
    match pool pipeline.aligner pipeline.workers crew with
    | .error fault => .error fault
    | .ok work => .ok (some work, orig?)
  | .pump => .ok (some (.pump .new), orig?)
  | .rewind =>
    match orig? with
    | none => .error (.config .nothingToRewind)
    | some orig => .ok (some (.rewind orig), none)
  | .unchunk => .ok (some .unchunk, orig?)
  | .undo => .ok (some .undo, orig?)
  | .chunk => .ok (some (.chunk pipeline.chunk), orig?)

/-- The layers of all stages in order, the first one lowest. Each stage has a crew of its own. -/
def works (pipeline : Pipeline) :
    (Nat → Crew) → Option Reader → List Stage → Except Fault (List Work)
  | _, _, [] => .ok []
  | crews, orig?, stage :: stages =>
    match pipeline.work (crews 0) orig? stage with
    | .error fault => .error fault
    | .ok (work?, orig?) =>
      (work?.toList ++ ·) <$> works pipeline (fun n => crews (n + 1)) orig? stages

/-- Put every stage on a queue. `crews n` works in stage `n` if that is a pool. -/
def build (pipeline : Pipeline) (crews : Nat → Crew) (queue : Queue) : Except Fault Queue :=
  if pipeline.chunk = 0 then .error (.config .zeroChunk)
  else (·.foldl (fun queue work => queue.under work) queue) <$>
    pipeline.works crews pipeline.orig? pipeline.stages

/-- The codes of all stages in a row. -/
def codes (pipeline : Pipeline) : String := String.ofList (pipeline.stages.map Stage.code)

/-- All settings in words. -/
def describe (pipeline : Pipeline) : String :=
  "Pipeline \x7b stages: [" ++ ", ".intercalate (pipeline.stages.map Stage.title) ++
    s!"], chunk: {pipeline.chunk}, graph: {pipeline.method.title}, workers: {pipeline.workers}" ++
    s!", original: {pipeline.orig?.isSome}" ++ " \x7d"

end Pipeline

end BytePatch
