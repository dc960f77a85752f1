import BytePatch.Lattice.Stretch
/-!
Deletes and inserts moved along the equal bytes beside them, first toward the start as far as
they go and then toward the end, so that changes of one kind that can meet become one.
-/
namespace BytePatch.Myers

/-- A place in a list of stretches: what is before it, last first, the stretch there, and what is
behind it. -/
structure Cursor where
  before : List Stretch
  here : Stretch
  behind : List Stretch
deriving DecidableEq

namespace Cursor

def stretches (cursor : Cursor) : List Stretch :=
  cursor.before.reverse ++ cursor.here :: cursor.behind

/-- The same place as it is met from the ends of both strings. -/
def turned (cursor : Cursor) : Cursor :=
  ⟨cursor.behind.map Stretch.turned, cursor.here.turned, cursor.before.map Stretch.turned⟩

/-- Kept bytes in front of a list, joined with those it begins with. -/
def keepAhead (bytes : Bytes) : List Stretch → List Stretch
  | .keep more :: rest => .keep (bytes ++ more) :: rest
  | rest => .keep bytes :: rest

/-- Kept bytes in front of a list, unless there are none. -/
def keepSome (bytes : Bytes) (rest : List Stretch) : List Stretch :=
  if bytes = [] then rest else .keep bytes :: rest

/-- Bound on the moves that a list of stretches still allows. -/
def size (stretches : List Stretch) : Nat :=
  sumOf (fun stretch => stretch.leftBytes.length + stretch.rightBytes.length + 1) stretches

private theorem size_keepSome_lt (xs ys : Bytes) (before : List Stretch)
    (h : (commonEnd xs ys).common ≠ []) :
    size (keepSome (commonEnd xs ys).left before) < size (.keep xs :: before) := by
  have hl := congrArg List.length (commonEnd_left xs ys)
  have hc := List.length_pos_iff.2 h
  simp only [List.length_append] at hl
  unfold keepSome
  split
  · simp only [size, sumOf_cons]; omega
  · simp only [size, sumOf_cons, Stretch.leftBytes, Stretch.rightBytes]; omega

/-- An insert that ends like the kept bytes before it may as well come before that end. A delete
does not move past kept bytes, and empty kept bytes vanish. -/
def slideBack (cursor : Cursor) : Cursor :=
  match cursor with
  | ⟨.keep xs :: before, .insert ys, behind⟩ =>
    if h : (commonEnd xs ys).common = [] then
      if xs = [] then slideBack ⟨before, .insert ys, behind⟩
      else ⟨.keep xs :: before, .insert ys, behind⟩
    else
      have := size_keepSome_lt xs ys before h
      slideBack ⟨keepSome (commonEnd xs ys).left before,
        .insert ((commonEnd xs ys).common ++ (commonEnd xs ys).right),
        keepAhead (commonEnd xs ys).common behind⟩
  | ⟨.keep [] :: before, .delete bytes, behind⟩ => slideBack ⟨before, .delete bytes, behind⟩
  | ⟨.delete xs :: before, .insert ys, behind⟩ =>
    slideBack ⟨before, .insert ys, .delete xs :: behind⟩
  | ⟨.insert ys :: before, .delete xs, behind⟩ =>
    slideBack ⟨before, .delete xs, .insert ys :: behind⟩
  | ⟨.insert xs :: before, .insert ys, behind⟩ => slideBack ⟨before, .insert (xs ++ ys), behind⟩
  | ⟨.delete xs :: before, .delete ys, behind⟩ => slideBack ⟨before, .delete (xs ++ ys), behind⟩
  | cursor => cursor
termination_by size cursor.before
decreasing_by
  all_goals first
    | assumption
    | simp only [size, sumOf_cons]; omega

/-- The same toward the end. -/
def slideOn (cursor : Cursor) : Cursor := (slideBack cursor.turned).turned

private theorem left_keepAhead (bytes : Bytes) (rest : List Stretch) :
    (keepAhead bytes rest).flatMap Stretch.leftBytes =
      bytes ++ rest.flatMap Stretch.leftBytes := by
  unfold keepAhead; split <;> simp [Stretch.leftBytes]

private theorem right_keepAhead (bytes : Bytes) (rest : List Stretch) :
    (keepAhead bytes rest).flatMap Stretch.rightBytes =
      bytes ++ rest.flatMap Stretch.rightBytes := by
  unfold keepAhead; split <;> simp [Stretch.rightBytes]

private theorem left_keepSome (bytes : Bytes) (rest : List Stretch) :
    (keepSome bytes rest).reverse.flatMap Stretch.leftBytes =
      rest.reverse.flatMap Stretch.leftBytes ++ bytes := by
  unfold keepSome; split <;> simp [*, Stretch.leftBytes]

private theorem right_keepSome (bytes : Bytes) (rest : List Stretch) :
    (keepSome bytes rest).reverse.flatMap Stretch.rightBytes =
      rest.reverse.flatMap Stretch.rightBytes ++ bytes := by
  unfold keepSome; split <;> simp [*, Stretch.rightBytes]

private theorem left_slideBack (cursor : Cursor) :
    cursor.slideBack.stretches.flatMap Stretch.leftBytes =
      cursor.stretches.flatMap Stretch.leftBytes := by
  fun_induction slideBack cursor with
  | case3 xs before ys behind h _ ih =>
    have hl := commonEnd_left xs ys
    generalize commonEnd xs ys = shared at *
    subst hl
    rw [ih]
    simp only [stretches, List.flatMap_append, List.flatMap_cons, left_keepSome,
      left_keepAhead, Stretch.leftBytes, List.reverse_cons, List.flatMap_nil]
    simp
  | _ => simp_all [stretches, Stretch.leftBytes]

private theorem right_slideBack (cursor : Cursor) :
    cursor.slideBack.stretches.flatMap Stretch.rightBytes =
      cursor.stretches.flatMap Stretch.rightBytes := by
  fun_induction slideBack cursor with
  | case3 xs before ys behind h _ ih =>
    have hl := commonEnd_left xs ys
    have hr := commonEnd_right xs ys
    generalize commonEnd xs ys = shared at *
    subst hl hr
    rw [ih]
    simp only [stretches, List.flatMap_append, List.flatMap_cons, right_keepSome,
      right_keepAhead, Stretch.rightBytes, List.reverse_cons, List.flatMap_nil]
    simp
  | _ => simp_all [stretches, Stretch.rightBytes]

theorem joins_slideBack {cursor : Cursor} {orig target : Bytes}
    (h : Stretch.Joins cursor.stretches orig target) :
    Stretch.Joins cursor.slideBack.stretches orig target :=
  ⟨by rw [left_slideBack, h.left_eq], by rw [right_slideBack, h.right_eq]⟩

private theorem stretches_turned (cursor : Cursor) :
    cursor.turned.stretches = cursor.stretches.reverse.map Stretch.turned := by
  simp [turned, stretches]

theorem joins_slideOn {cursor : Cursor} {orig target : Bytes}
    (h : Stretch.Joins cursor.stretches orig target) :
    Stretch.Joins cursor.slideOn.stretches orig target := by
  have h' := h.turned
  rw [← stretches_turned] at h'
  have := (joins_slideBack h').turned
  rw [← stretches_turned, List.reverse_reverse, List.reverse_reverse] at this
  exact this

end Cursor

/-- Slide the changes of one sort into place, from left to right. Each goes on from where it
came to rest, so there are never more of them to slide than there were at first. -/
def settle (isSort : Stretch → Bool) (stretches : List Stretch) : List Stretch :=
  go (stretches.countP isSort) [] stretches
where
  go : Nat → List Stretch → List Stretch → List Stretch
    | 0, before, behind => before.reverse ++ behind
    | left + 1, before, behind =>
      match behind.dropWhile (!isSort ·) with
      | [] => before.reverse ++ behind
      | here :: rest =>
        let skipped := behind.takeWhile (!isSort ·)
        let cursor := (Cursor.slideBack ⟨skipped.reverse ++ before, here, rest⟩).slideOn
        go left (cursor.here :: cursor.before) cursor.behind

private theorem joins_settle_go (isSort : Stretch → Bool) {orig target : Bytes} (left : Nat)
    (before behind : List Stretch) (h : Stretch.Joins (before.reverse ++ behind) orig target) :
    Stretch.Joins (settle.go isSort left before behind) orig target := by
  induction left generalizing before behind with
  | zero => exact h
  | succ left ih =>
    unfold settle.go
    split
    · exact h
    · next here rest hd =>
      refine ih _ _ ?_
      have hb : behind = behind.takeWhile (!isSort ·) ++ here :: rest := by
        rw [← hd, List.takeWhile_append_dropWhile]
      have : Stretch.Joins
          (Cursor.stretches ⟨(behind.takeWhile (!isSort ·)).reverse ++ before, here, rest⟩)
          orig target := by
        simp only [Cursor.stretches, List.reverse_append, List.reverse_reverse, List.append_assoc]
        rwa [← hb]
      simpa [Cursor.stretches] using Cursor.joins_slideOn (Cursor.joins_slideBack this)

theorem joins_settle (isSort : Stretch → Bool) {stretches : List Stretch} {orig target : Bytes}
    (h : Stretch.Joins stretches orig target) :
    Stretch.Joins (settle isSort stretches) orig target :=
  joins_settle_go isSort _ [] stretches h

end BytePatch.Myers
