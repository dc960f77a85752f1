import BytePatch.Proofs.Stage.Pulling
import BytePatch.Queue.Layer

/-! What a refill of an empty ready buffer comes to in a layer that compares pairs. The first entry
is compared: at once, the first of what is pending; by a pool, the first of the chain. -/
namespace BytePatch

namespace Entry

/-- What comes out for an entry, or why nothing can. -/
def compared (aligner : Aligner) : Entry → Except Fault Script
  | .single op => .ok [op]
  | .pair orig target => aligner.align orig target

theorem exists_head (a b : Op) (pending : List Op) : ∃ entry pending',
    Pool.enqueue [] a b pending = ([entry], pending') ∧
      ∀ {cutting}, Cuts cutting → ∀ rest,
        cutting (a :: b :: (pending ++ rest)) = entry :: cutting (pending' ++ rest) := by
  unfold Pool.enqueue
  cases hp : a.pair? b with
  | none => exact ⟨.single a, b :: pending, rfl, fun hcuts rest => hcuts.single hp _⟩
  | some pair => exact ⟨_, pending, rfl, fun hcuts rest => hcuts.pair hp _⟩

end Entry

namespace Layer
variable {σ : Type} {below : Feed σ} {pending pending' : List Op} {s s' : σ}

section Align
variable (aligner : Aligner)

/-- An entry that cannot be compared stays where it is. -/
theorem shift_align {a b : Op} {more : List Op} {entry : Entry}
    (hreq : below.require 2 pending s = (.ok true, a :: b :: more, s'))
    (hentry : Pool.enqueue [] a b more = ([entry], pending')) :
    shift below ⟨⟨[], pending⟩, .align aligner⟩ s =
      match entry.compared aligner with
      | .error fault => (.error fault, ⟨⟨[], a :: b :: more⟩, .align aligner⟩, s')
      | .ok script => (.ok (), ⟨⟨script, pending'⟩, .align aligner⟩, s') := by
  unfold Pool.enqueue at hentry
  cases hp : a.pair? b with
  | none =>
    rw [hp] at hentry
    cases hentry
    simp [shift, Align.shift, hreq, hp, Entry.compared]
  | some pair =>
    rw [hp] at hentry
    cases hentry
    cases halign : aligner.align pair.1 pair.2 <;>
      simp [shift, Align.shift, hreq, hp, Entry.compared, halign]

theorem shift_align_short (hreq : below.require 2 pending s = (.ok false, pending', s')) :
    shift below ⟨⟨[], pending⟩, .align aligner⟩ s =
      (.ok (), ⟨⟨pending', []⟩, .align aligner⟩, s') := by
  simp [shift, Align.shift, hreq, Buffers.flush]

theorem shift_align_failed {fault : Fault}
    (hreq : below.require 2 pending s = (.error fault, pending', s')) :
    shift below ⟨⟨[], pending⟩, .align aligner⟩ s =
      (.error fault, ⟨⟨[], pending'⟩, .align aligner⟩, s') := by
  simp [shift, Align.shift, hreq]

end Align

section Pool
variable {pool pool' : Pool}

/-- An entry that cannot be compared is lost, and one that comes to nothing is passed over. -/
theorem shift_pool {aligner : Aligner} {entry : Entry} {chain : List Entry}
    (hpump : Pool.pump below pool ⟨[], pending⟩ s = (.ok (), pool', ⟨[], pending'⟩, s'))
    (hal : pool'.aligner = aligner) (hchain : pool'.chain = entry :: chain) :
    shift below ⟨⟨[], pending⟩, .pool pool⟩ s =
      match entry.compared aligner with
      | .error fault => (.error fault, ⟨⟨[], pending'⟩, .pool { pool' with chain }⟩, s')
      | .ok [] => shift below ⟨⟨[], pending'⟩, .pool { pool' with chain }⟩ s'
      | .ok (op :: script) =>
        (.ok (), ⟨⟨op :: script, pending'⟩, .pool { pool' with chain }⟩, s') := by
  cases entry with
  | single op =>
    simp [shift, Pool.shift_eq_take, hpump, Pool.take, hchain, Buffers.pushReady, Entry.compared]
  | pair orig target =>
    subst hal
    rcases halign : pool'.aligner.align orig target with fault | (- | ⟨op, script⟩) <;>
      simp [shift, Pool.shift_eq_take below pool, hpump, Pool.take, hchain, Pool.answered,
        Entry.compared, halign]

theorem shift_pool_dry
    (hpump : Pool.pump below pool ⟨[], pending⟩ s = (.ok (), pool', ⟨[], pending'⟩, s'))
    (hchain : pool'.chain = []) : shift below ⟨⟨[], pending⟩, .pool pool⟩ s =
      (.ok (), ⟨⟨[], pending'⟩, .pool pool'⟩, s') := by
  simp [shift, Pool.shift_eq_take, hpump, Pool.take, hchain]

theorem shift_pool_failed {fault : Fault}
    (hpump : Pool.pump below pool ⟨[], pending⟩ s = (.error fault, pool', ⟨[], pending'⟩, s')) :
    shift below ⟨⟨[], pending⟩, .pool pool⟩ s =
      (.error fault, ⟨⟨[], pending'⟩, .pool pool'⟩, s') := by
  simp [shift, Pool.shift_eq_take, hpump, Pool.take]

end Pool

end Layer

end BytePatch
