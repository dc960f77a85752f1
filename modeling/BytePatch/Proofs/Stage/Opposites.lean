import BytePatch.Proofs.Script.Opposites
import BytePatch.Proofs.Stage.Regrouping
import BytePatch.Proofs.Stage.Window

/-! Taking a script back before or after its ops are merged, cancelled, gathered or cut. The order
does not matter as long as no delete has forgotten its bytes. -/
namespace BytePatch

/-- A layer that only says otherwise what it reads, with all payloads kept. -/
def Work.Rearranges (work : Work) : Prop :=
  work = .coalesce ∨ work = .compact ∨ work = .unchunk ∨ ∃ size, work = .chunk size

namespace Layer
variable {σ : Type} {below : Feed σ}

private theorem delivers_undo {s : σ} {ops undone : Script} (h : below.Delivers s ops)
    (hops : ops.Opposes undone) : (feed below).Delivers (.new .undo, s) undone := by
  refine Feed.delivers_of_invariant (fun state undone => ∃ ops s, state = (.new .undo, s) ∧
    below.Delivers s ops ∧ Script.Opposes ops undone) ?_ ⟨ops, s, rfl, h, hops⟩
  rintro _ undone ⟨ops, s, rfl, h, hops⟩
  obtain ⟨hhead, htail⟩ := h.poll
  have hpoll := @poll_undo _ below s
  generalize below.poll s = result at hhead htail hpoll
  obtain ⟨answer, s'⟩ := result
  change answer = _ at hhead
  subst hhead
  change ((poll below (.new .undo, s)).1 = _) ∧ _
  cases hops with
  | nil =>
    exact ⟨congrArg Prod.fst hpoll, [], s', congrArg Prod.snd hpoll, htail, .nil⟩
  | @cons op op' ops undone hop hrest =>
    simp only [List.head?_cons, hop.undo_eq] at hpoll
    exact ⟨congrArg Prod.fst hpoll, ops, s', congrArg Prod.snd hpoll, htail, hrest⟩

end Layer

namespace Queue

theorem Delivers.under_undo {queue : Queue} {ops undone : Script} (h : queue.Delivers ops)
    (hops : ops.Opposes undone) : (queue.under .undo).Delivers undone :=
  Layer.delivers_undo h hops

private theorem delivers_opposites {works : List Work} (hworks : ∀ work ∈ works, work.Rearranges)
    {queue queue' : Queue} {ops undone : Script} (h : queue.Delivers ops)
    (h' : queue'.Delivers undone) (hops : ops.Opposes undone) : ∃ out out' : Script,
      (works.foldl (fun queue work => queue.under work) queue).Delivers out ∧
      (works.foldl (fun queue work => queue.under work) queue').Delivers out' ∧
      out.Opposes out' := by
  induction works generalizing queue queue' ops undone with
  | nil => exact ⟨ops, undone, h, h', hops⟩
  | cons work works ih =>
    obtain ⟨hwork, hrest⟩ := List.forall_mem_cons.1 hworks
    rcases hwork with rfl | rfl | rfl | ⟨size, rfl⟩
    · exact ih hrest h.under_coalesce h'.under_coalesce hops.grouped
    · exact ih hrest h.under_compact h'.under_compact hops.compacted
    · exact ih hrest h.under_unchunk h'.under_unchunk hops.regrouped
    · exact ih hrest (h.under_chunk size) (h'.under_chunk size) (hops.cut size)

/-- A script taken back above any such layers is the same as below them, and one that is taken back
twice is as it was. -/
theorem drain_undo_comm {source : Queue} {ops : Script} (hsource : source.Delivers ops)
    (hops : ops.Unforgotten) {works : List Work} (hworks : ∀ work ∈ works, work.Rearranges) :
    (∃ out,
      (∃ after, ((works.foldl (fun queue work => queue.under work) source).under .undo).drain =
        (.ok (), out, after)) ∧
      ∃ after, (works.foldl (fun queue work => queue.under work) (source.under .undo)).drain =
        (.ok (), out, after)) ∧
    ∃ after, ((source.under .undo).under .undo).drain = (.ok (), ops, after) := by
  have hundone := hsource.under_undo hops.opposes
  obtain ⟨out, out', hout, hout', hopposes⟩ :=
    delivers_opposites hworks hsource hundone hops.opposes
  exact ⟨⟨out', (hout.under_undo hopposes).drain, hout'.drain⟩,
    (hundone.under_undo hops.opposes.symm).drain⟩

/-- A delete that remembers its bytes beside an insert of the same bytes, pairs in both orders, and
one of them with a longer insert. -/
def twoSided : Script :=
  [.copy 2, .delete [1, 2], .insert [1, 2], .copy 1, .insert [3, 4, 5], .delete [6], .delete [7],
    .insert [8]]

theorem drain_undo_comm_twoSided :
    (∃ out,
      (∃ after, (((ofSource (.ofList twoSided)).under (.chunk 2)).under .undo).drain =
        (.ok (), out, after)) ∧
      ∃ after, (((ofSource (.ofList twoSided)).under .undo).under (.chunk 2)).drain =
        (.ok (), out, after)) ∧
    ∃ after, (((ofSource (.ofList twoSided)).under .undo).under .undo).drain =
      (.ok (), twoSided, after) := by
  have hworks : ∀ work ∈ [Work.chunk 2], work.Rearranges := by simp [Work.Rearranges]
  exact drain_undo_comm (delivers_list twoSided) (fun run => by simp [twoSided]) hworks

end Queue

end BytePatch
