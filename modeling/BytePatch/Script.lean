import BytePatch.Op
/-!
Scripts: lists of ops, what they turn a string into, and their grouped form, in which no two
neighbours are of one kind.
-/
namespace BytePatch

/-- What an op makes of the bytes in front of it: its output and the bytes it leaves unread. -/
def Op.play : Op → Bytes → Except IoFault (Bytes × Bytes)
  | .copy run, orig =>
    if run ≤ orig.length then .ok (orig.take run, orig.drop run)
    else .error (.endedAfter orig.length run)
  | .skip run, orig => passing run orig
  | .delete bytes, orig => passing bytes.length orig
  | .insert bytes, orig => .ok (bytes, orig)
where
  passing (run : Nat) (orig : Bytes) : Except IoFault (Bytes × Bytes) :=
    if run ≤ orig.length then .ok ([], orig.drop run) else .error (.endedAfter orig.length run)

/-- What the elements of a list count for together. -/
def sumOf {α : Type} (count : α → Nat) : List α → Nat
  | [] => 0
  | x :: xs => count x + sumOf count xs

section SumOf
variable {α β : Type} (count : α → Nat)

@[simp] theorem sumOf_nil : sumOf count [] = 0 := rfl

@[simp] theorem sumOf_cons (x : α) (xs : List α) :
    sumOf count (x :: xs) = count x + sumOf count xs := rfl

@[simp] theorem sumOf_append (xs ys : List α) :
    sumOf count (xs ++ ys) = sumOf count xs + sumOf count ys := by
  induction xs with
  | nil => simp
  | cons x xs ih => simp [ih, Nat.add_assoc]

@[simp] theorem sumOf_reverse (xs : List α) : sumOf count xs.reverse = sumOf count xs := by
  induction xs with
  | nil => rfl
  | cons x xs ih => simp [ih, Nat.add_comm]

theorem sumOf_map (f : β → α) (xs : List β) :
    sumOf count (xs.map f) = sumOf (fun x => count (f x)) xs := by
  induction xs with
  | nil => rfl
  | cons x xs ih => simp [ih]

theorem le_sumOf {x : α} {xs : List α} (h : x ∈ xs) : count x ≤ sumOf count xs := by
  induction xs with
  | nil => cases h
  | cons y ys ih =>
    rcases List.mem_cons.1 h with rfl | h
    · exact Nat.le_add_right _ _
    · exact Nat.le_trans (ih h) (Nat.le_add_left _ _)

end SumOf

abbrev Script := List Op

namespace Script

/-- The output of a whole script and the bytes it leaves unread. -/
def play : Script → Bytes → Except IoFault (Bytes × Bytes)
  | [], orig => .ok ([], orig)
  | op :: ops, orig =>
    match op.play orig with
    | .error cause => .error cause
    | .ok (out, rest) =>
      match play ops rest with
      | .error cause => .error cause
      | .ok (outs, rest) => .ok (out ++ outs, rest)

/-- The target a script makes of a string. -/
def replay (ops : Script) (orig : Bytes) : Except IoFault Bytes := (·.1) <$> play ops orig

def totalRun (ops : Script) : Nat := sumOf Op.run ops

/-- The texts of all ops in a row, as in `>4-1+9>7`. -/
def text (ops : Script) : String := String.join (ops.map Op.text)

def weight (ops : Script) : Nat := sumOf Op.weight ops

/-- All of a string deleted, if there is anything to delete. -/
def removal (bytes : Bytes) : Script := if bytes = [] then [] else [.delete bytes]

/-- All of a string inserted, if there is anything to insert. -/
def addition (bytes : Bytes) : Script := if bytes = [] then [] else [.insert bytes]

/-- Put an op in front, into the first op if that is of its kind. -/
def prepend (op : Op) : Script → Script
  | [] => [op]
  | next :: rest =>
    match op.merge? next with
    | some both => both :: rest
    | none => op :: next :: rest

/-- Neighbours of one kind become one op. -/
def grouped (ops : Script) : Script := ops.foldr prepend []

@[simp] theorem weight_nil : weight [] = 0 := rfl

@[simp] theorem weight_cons (op : Op) (ops : Script) :
    weight (op :: ops) = op.weight + weight ops := by
  simp [weight]

@[simp] theorem weight_append (xs ys : Script) : weight (xs ++ ys) = weight xs + weight ys := by
  simp [weight]

@[simp] theorem weight_reverse (ops : Script) : weight ops.reverse = weight ops := by
  simp [weight]

theorem weight_removal (bytes : Bytes) : weight (removal bytes) = bytes.length := by
  cases bytes <;> simp [removal, Op.weight, Op.run]

theorem weight_addition (bytes : Bytes) : weight (addition bytes) = bytes.length := by
  cases bytes <;> simp [addition, Op.weight, Op.run]

theorem weight_prepend_le (op : Op) (ops : Script) :
    weight (prepend op ops) ≤ op.weight + weight ops := by
  cases ops with
  | nil => simp [prepend]
  | cons next rest =>
    simp only [prepend]
    split
    · next h =>
      have := Op.weight_merge?_le h
      simp only [weight_cons]
      omega
    · simp

theorem weight_grouped_le (ops : Script) : weight (grouped ops) ≤ weight ops := by
  induction ops with
  | nil => simp [grouped]
  | cons op ops ih =>
    have := weight_prepend_le op (grouped ops)
    simp only [grouped, List.foldr_cons, weight_cons] at *
    omega

end Script

end BytePatch
