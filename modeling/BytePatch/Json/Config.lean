import BytePatch.Config
import BytePatch.Json.Op
/-!
Settings as JSON. Fields that are absent keep their defaults.
-/
namespace BytePatch

/-- The name of a method as a JSON string. -/
def Method.toJson (method : Method) : String := "\"" ++ method.name ++ "\""

namespace Config

/-- A field that is absent, or one that can be read. -/
private def field (default : α) (read : Json.Value → Option α) : Option Json.Value → Option α
  | none => some default
  | some value => read value

private def ofValue? (value : Json.Value) : Option Config := do
  match ← value.record? ["chunk_size", "workers", "graph", "parallel", "keep_undo", "compact"] with
  | [chunkSize, workers, graph, parallel, keepUndo, compact] =>
    return {
      chunkSize := ← field default.chunkSize Json.Value.word? chunkSize
      workers := ← field default.workers Json.Value.word? workers
      method := ← field default.method (fun v => v.name?.bind Method.ofName?) graph
      parallel := ← field default.parallel Json.Value.bool? parallel
      keepUndo := ← field default.keepUndo Json.Value.bool? keepUndo
      compact := ← field default.compact Json.Value.bool? compact }
  | _ => none

/-- The settings that a text describes, if they can be used. -/
def ofJson (text : String) : Except Fault Config :=
  match (Json.value? text.toList).bind fun (value, rest) =>
      if Json.isEnd rest then ofValue? value else none with
  | none => .error (.config .malformed)
  | some config =>
    match config.validate with
    | .error fault => .error fault
    | .ok () => .ok config

end Config

end BytePatch
