import BytePatch.Script
import BytePatch.Stage.Pointwise

/-! Scripts as relations between byte strings: which string a script reads, all of it, and which
one it makes of it. Deletes that remember bytes only relate strings that have those bytes. -/
namespace BytePatch

/-- An op reads all of one string and makes the other of it. -/
def Op.Edits : Op → Bytes → Bytes → Prop
  | .copy run, src, dst => src.length = run ∧ dst = src
  | .skip run, src, dst => src.length = run ∧ dst = []
  | .delete bytes, src, dst => src = bytes ∧ dst = []
  | .insert bytes, src, dst => src = [] ∧ dst = bytes

/-- How many bytes of the original an op uses up. -/
def Op.reach : Op → Nat
  | .copy run | .skip run => run
  | .delete bytes => bytes.length
  | .insert _ => 0

namespace Script

/-- The ops one after another read all of one string and make the other of it. -/
inductive Edits : Script → Bytes → Bytes → Prop
  | nil : Edits [] [] []
  | cons {op : Op} {ops : Script} {a b src dst : Bytes} :
      op.Edits a b → Edits ops src dst → Edits (op :: ops) (a ++ src) (b ++ dst)

/-- Every delete that remembers bytes remembers those it passes over. -/
def Remembers : Script → Bytes → Prop
  | [], _ => True
  | op :: ops, orig =>
    (∀ bytes, op = .delete bytes → orig.take bytes.length = bytes) ∧
      Remembers ops (orig.drop op.reach)

/-- The script can be replayed on the string, and what its deletes remember is what they pass
over there. -/
structure Faithful (ops : Script) (orig : Bytes) : Prop where
  plays : ∃ out, ops.replay orig = .ok out
  remembers : ops.Remembers orig

@[simp] theorem edits_nil_iff {src dst : Bytes} : Edits [] src dst ↔ src = [] ∧ dst = [] := by
  constructor
  · rintro ⟨⟩
    exact ⟨rfl, rfl⟩
  · rintro ⟨rfl, rfl⟩
    exact .nil

theorem edits_cons_iff {op : Op} {ops : Script} {src dst : Bytes} :
    Edits (op :: ops) src dst ↔ ∃ a b src' dst', src = a ++ src' ∧ dst = b ++ dst' ∧
      op.Edits a b ∧ Edits ops src' dst' := by
  constructor
  · rintro ⟨⟩
    next ho hs => exact ⟨_, _, _, _, rfl, rfl, ho, hs⟩
  · rintro ⟨a, b, src', dst', rfl, rfl, ho, hs⟩
    exact .cons ho hs

@[simp] theorem edits_singleton_iff {op : Op} {src dst : Bytes} :
    Edits [op] src dst ↔ op.Edits src dst := by
  rw [edits_cons_iff]
  constructor
  · rintro ⟨a, b, src', dst', rfl, rfl, ho, hs⟩
    obtain ⟨rfl, rfl⟩ := edits_nil_iff.1 hs
    simpa using ho
  · intro ho
    exact ⟨src, dst, [], [], by simp, by simp, ho, .nil⟩

theorem Edits.append {xs ys : Script} {a b c d : Bytes} (hx : Edits xs a b) (hy : Edits ys c d) :
    Edits (xs ++ ys) (a ++ c) (b ++ d) := by
  induction hx with
  | nil => exact hy
  | cons ho _ ih => simpa using Edits.cons ho ih

theorem edits_pair (orig target : Bytes) : Edits [.delete orig, .insert target] orig target := by
  have hdelete : (Op.delete orig).Edits orig [] := ⟨rfl, rfl⟩
  have hinsert : (Op.insert target).Edits [] target := ⟨rfl, rfl⟩
  simpa using Edits.cons hdelete (edits_singleton_iff.2 hinsert)

theorem edits_append_iff {xs ys : Script} {src dst : Bytes} :
    Edits (xs ++ ys) src dst ↔ ∃ a b c d, src = a ++ c ∧ dst = b ++ d ∧
      Edits xs a b ∧ Edits ys c d := by
  constructor
  · intro h
    induction xs generalizing src dst with
    | nil => exact ⟨[], [], src, dst, rfl, rfl, .nil, h⟩
    | cons op xs ih =>
      obtain ⟨a, b, src', dst', rfl, rfl, ho, hs⟩ := edits_cons_iff.1 h
      obtain ⟨a', b', c, d, rfl, rfl, hx, hy⟩ := ih hs
      exact ⟨a ++ a', b ++ b', c, d, by simp, by simp, .cons ho hx, hy⟩
  · rintro ⟨a, b, c, d, rfl, rfl, hx, hy⟩
    exact hx.append hy

theorem Edits.length_le {ops : Script} {src dst : Bytes} (h : Edits ops src dst) :
    src.length ≤ ops.totalRun ∧ dst.length ≤ ops.totalRun := by
  induction h with
  | nil => exact ⟨Nat.le_refl _, Nat.le_refl _⟩
  | @cons op ops a b src dst ho _ ih =>
    have hop : a.length ≤ op.run ∧ b.length ≤ op.run := by
      cases op <;> obtain ⟨h, h'⟩ := ho <;> simp [Op.run, h, h']
    simp only [totalRun, sumOf_cons, List.length_append] at ih ⊢
    omega

theorem Edits.run_le {ops : Script} {src dst : Bytes} (h : Edits ops src dst) {op : Op}
    (hop : op ∈ ops) : op.run ≤ max src.length dst.length := by
  induction h with
  | nil => cases hop
  | @cons first ops a b src dst ho _ ih =>
    simp only [List.length_append]
    rcases List.mem_cons.1 hop with rfl | hop
    · have : op.run ≤ max a.length b.length := by
        cases op <;> obtain ⟨h, h'⟩ := ho <;> simp [Op.run, h, h']
      omega
    · have := ih hop
      omega

private theorem play_op {op : Op} {a b : Bytes} (h : op.Edits a b) (rest : Bytes) :
    op.play (a ++ rest) = .ok (b, rest) := by
  cases op <;> obtain ⟨h1, h2⟩ := h <;> subst h1 h2 <;> simp [Op.play, Op.play.passing]

/-- A script plays on any string that begins with the one it edits. -/
theorem Edits.play {ops : Script} {src dst : Bytes} (h : Edits ops src dst) (rest : Bytes) :
    ops.play (src ++ rest) = .ok (dst, rest) := by
  induction h with
  | nil => rfl
  | cons ho _ ih => simp [Script.play, play_op ho, ih]

theorem Edits.remembers {ops : Script} {src dst : Bytes} (h : Edits ops src dst) (rest : Bytes) :
    ops.Remembers (src ++ rest) := by
  induction h with
  | nil => trivial
  | @cons op ops a b src dst ho _ ih =>
    have hr : op.reach = a.length := by
      cases op <;> obtain ⟨h1, h2⟩ := ho <;> subst h1 h2 <;> rfl
    refine ⟨?_, by simpa [hr] using ih⟩
    rintro bytes rfl
    simp [ho.1]

theorem Edits.faithful {ops : Script} {src dst : Bytes} (h : Edits ops src dst) (rest : Bytes) :
    ops.Faithful (src ++ rest) :=
  ⟨⟨dst, by simp [replay, h.play rest, Functor.map, Except.map]⟩, h.remembers rest⟩

private theorem edits_op {op : Op} {orig out rest : Bytes} (h : op.play orig = .ok (out, rest))
    (hr : ∀ bytes, op = .delete bytes → orig.take bytes.length = bytes) :
    orig = orig.take op.reach ++ rest ∧ rest = orig.drop op.reach ∧
      op.Edits (orig.take op.reach) out := by
  have cut : ∀ n, n ≤ orig.length → (orig.take n).length = n := fun n hn => by simp [hn]
  cases op with
  | copy run =>
    simp only [Op.play] at h
    split at h <;> cases h
    next hl => exact ⟨by simp [Op.reach], rfl, cut _ hl, rfl⟩
  | skip run =>
    simp only [Op.play, Op.play.passing] at h
    split at h <;> cases h
    next hl => exact ⟨by simp [Op.reach], rfl, cut _ hl, rfl⟩
  | delete bytes =>
    simp only [Op.play, Op.play.passing] at h
    split at h <;> cases h
    exact ⟨by simp [Op.reach], rfl, hr bytes rfl, rfl⟩
  | insert bytes =>
    cases h
    exact ⟨by simp [Op.reach], by simp [Op.reach], by simp [Op.Edits, Op.reach]⟩

/-- A script that plays and remembers rightly edits the beginning of the string. -/
theorem exists_edits {ops : Script} {orig out rest : Bytes} (h : ops.play orig = .ok (out, rest))
    (hr : ops.Remembers orig) : ∃ src, orig = src ++ rest ∧ Edits ops src out := by
  induction ops generalizing orig out rest with
  | nil => cases h; exact ⟨[], rfl, .nil⟩
  | cons op ops ih =>
    simp only [Script.play] at h
    split at h
    · cases h
    next b mid ho =>
    split at h <;> cases h
    next dst hs =>
    obtain ⟨horig, hmid, hop⟩ := edits_op ho hr.1
    obtain ⟨src, hsrc, he⟩ := ih hs (hmid ▸ hr.2)
    exact ⟨orig.take op.reach ++ src, by rw [List.append_assoc, ← hsrc, ← horig], .cons hop he⟩

theorem Faithful.exists_edits {ops : Script} {orig : Bytes} (h : ops.Faithful orig) :
    ∃ src dst rest, orig = src ++ rest ∧ Edits ops src dst := by
  obtain ⟨out, ho⟩ := h.plays
  cases hp : ops.play orig with
  | error cause => simp [replay, hp, Functor.map, Except.map] at ho
  | ok result =>
    obtain ⟨src, hs, he⟩ := Script.exists_edits hp h.remembers
    exact ⟨src, result.1, result.2, hs, he⟩

/-- The ops that replace one string by another are not empty, and each of them has its bytes. -/
theorem mem_replacing {orig target : Bytes} {op : Op}
    (h : op ∈ removal orig ++ addition target) :
    0 < op.run ∧ op.kind ≠ .copy ∧ ∀ run, op ≠ .skip run := by
  have key : op = .delete orig ∧ orig ≠ [] ∨ op = .insert target ∧ target ≠ [] := by
    unfold removal addition at h
    rcases List.mem_append.1 h with h | h <;> split at h
    · cases h
    · next hne => exact .inl ⟨List.mem_singleton.1 h, hne⟩
    · cases h
    · next hne => exact .inr ⟨List.mem_singleton.1 h, hne⟩
  rcases key with ⟨rfl, hne⟩ | ⟨rfl, hne⟩ <;>
    exact ⟨List.length_pos_iff.2 hne, nofun, nofun⟩

end Script

end BytePatch
