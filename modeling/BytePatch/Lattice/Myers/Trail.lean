import BytePatch.Lattice.Myers.Divide
import BytePatch.Lattice.Myers.Slide
/-!
The stretches that division finds, with its changes slid together, and with each change between two
kept stretches written as one delete and one insert.
-/
namespace BytePatch.Myers

/-- All that is deleted before the next kept stretch comes first, then all that is inserted. What is
empty is left out. -/
def regrouped (stretches : List Stretch) : List Stretch :=
  go [] [] stretches
where
  go (deleted inserted : Bytes) : List Stretch → List Stretch
    | [] => replaced deleted inserted
    | .keep bytes :: rest => replaced deleted inserted ++ kept bytes ++ go [] [] rest
    | .delete bytes :: rest => go (deleted ++ bytes) inserted rest
    | .insert bytes :: rest => go deleted (inserted ++ bytes) rest

/-- Stretches from the starts of both strings to their ends, each change made of one delete and one
insert. -/
def stretches (orig target : Bytes) : List Stretch :=
  regrouped (settle Stretch.isInsert (settle Stretch.isDelete (divide orig target)))

private theorem left_regrouped_go (deleted inserted : Bytes) (stretches : List Stretch) :
    (regrouped.go deleted inserted stretches).flatMap Stretch.leftBytes =
      deleted ++ stretches.flatMap Stretch.leftBytes := by
  fun_induction regrouped.go deleted inserted stretches <;>
    simp_all [Stretch.leftBytes, (joins_kept _).left_eq, (joins_replaced _ _).left_eq]

private theorem right_regrouped_go (deleted inserted : Bytes) (stretches : List Stretch) :
    (regrouped.go deleted inserted stretches).flatMap Stretch.rightBytes =
      inserted ++ stretches.flatMap Stretch.rightBytes := by
  fun_induction regrouped.go deleted inserted stretches <;>
    simp_all [Stretch.rightBytes, (joins_kept _).right_eq, (joins_replaced _ _).right_eq]

theorem joins_regrouped {stretches : List Stretch} {orig target : Bytes}
    (h : Stretch.Joins stretches orig target) :
    Stretch.Joins (regrouped stretches) orig target :=
  ⟨by simp [regrouped, left_regrouped_go, h.left_eq],
    by simp [regrouped, right_regrouped_go, h.right_eq]⟩

private theorem filled_regrouped_go (deleted inserted : Bytes) (stretches : List Stretch) :
    ∀ stretch ∈ regrouped.go deleted inserted stretches, stretch.bytes ≠ [] := by
  induction stretches generalizing deleted inserted with
  | nil => exact filled_replaced deleted inserted
  | cons stretch rest ih =>
    cases stretch with
    | keep bytes =>
      refine List.forall_mem_append.2 ⟨List.forall_mem_append.2 ⟨?_, ?_⟩, ih [] []⟩
      · exact filled_replaced deleted inserted
      · exact filled_kept bytes
    | delete bytes => exact ih (deleted ++ bytes) inserted
    | insert bytes => exact ih deleted (inserted ++ bytes)

theorem filled_stretches (orig target : Bytes) :
    ∀ stretch ∈ stretches orig target, stretch.bytes ≠ [] :=
  filled_regrouped_go [] [] _

theorem joins_stretches (orig target : Bytes) :
    Stretch.Joins (stretches orig target) orig target :=
  joins_regrouped (joins_settle _ (joins_settle _ (joins_divide orig target)))

end BytePatch.Myers
