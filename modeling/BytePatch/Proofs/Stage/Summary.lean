import BytePatch.Proofs.Script.Summary
import BytePatch.Proofs.Script.Totals
import BytePatch.Proofs.Stage.Regrouping

/-! What the two layers that merge give, said of the script as a whole: one op for each longest run
of ops of one kind, and a summary of each region. Neither has anything left to merge. -/
namespace BytePatch.Queue

variable {source : Queue}

/-- A layer that merges neighbours gives each longest run of ops of one kind merged from the left. It
does not matter whether some of the ops, the first or the last, have been through such a layer
before. -/
theorem drain_coalesce_runs {ops : Script} (hsource : source.Delivers ops) :
    ∃ out, (∃ after, (source.under .coalesce).drain = (.ok (), out, after)) ∧
      Stretches (fun a b => a.kind = b.kind) ops.runs ops ∧
      List.Forall₂ (fun run op => Script.merged? run = some op) ops.runs out ∧
      out.IsChain (fun a b => a.kind ≠ b.kind) ∧
      ∀ xs ys, ops = xs ++ ys → ∀ (part again : Queue) (merged : Script) (last : Queue),
        (part.under .coalesce).drain = (.ok (), merged, last) →
        (part.Delivers xs ∧ again.Delivers (merged ++ ys) ∨
          part.Delivers ys ∧ again.Delivers (xs ++ merged)) →
        ∃ after, (again.under .coalesce).drain = (.ok (), out, after) := by
  refine ⟨ops.grouped, hsource.under_coalesce.drain, ops.stretches_runs,
    Script.grouped_of_stretches ops.stretches_runs, Script.alternates_grouped ops, ?_⟩
  rintro xs ys rfl part again merged last hmerged hagain
  have hout {rest : Script} (hpart : part.Delivers rest) : merged = rest.grouped := by
    obtain ⟨last', hdrain⟩ := hpart.under_coalesce.drain
    rw [hmerged] at hdrain
    cases hdrain
    rfl
  rcases hagain with ⟨hpart, hagain⟩ | ⟨hpart, hagain⟩
  · rw [hout hpart] at hagain
    rw [← Script.grouped_grouped_append]
    exact hagain.under_coalesce.drain
  · rw [hout hpart] at hagain
    rw [Script.grouped_append_congr xs (Script.alternates_grouped ys).grouped_eq.symm]
    exact hagain.under_coalesce.drain

/-- Deletes that remember their bytes and one that does not, and runs that go on across the place
where the script is put together. -/
def rejoined : Script :=
  [.copy 1, .delete [1], .delete [2, 3]] ++ [.skip 8, .delete [5], .insert [6], .insert [7]]

theorem drain_coalesce_runs_rejoined :
    (∃ after, ((ofSource (.ofList rejoined)).under .coalesce).drain =
      (.ok (), [.copy 1, .skip 12, .insert [6, 7]], after)) ∧
    (∃ last, ((ofSource (.ofList [.copy 1, .delete [1], .delete [2, 3]])).under .coalesce).drain =
      (.ok (), [.copy 1, .delete [1, 2, 3]], last)) ∧
    ∃ after, ((ofSource (.ofList ([.copy 1, .delete [1, 2, 3]] ++
      [.skip 8, .delete [5], .insert [6], .insert [7]]))).under .coalesce).drain =
        (.ok (), [.copy 1, .skip 12, .insert [6, 7]], after) := by
  obtain ⟨out, hdrain, -, hruns, -, hagain⟩ := drain_coalesce_runs (delivers_list rejoined)
  obtain ⟨last, hmerged⟩ :=
    (delivers_list [.copy 1, .delete [1], .delete [2, 3]]).under_coalesce.drain
  have hruns' : rejoined.runs = [[.copy 1], [.delete [1], .delete [2, 3], .skip 8, .delete [5]],
    [.insert [6], .insert [7]]] := by decide
  rw [hruns'] at hruns
  obtain _ | ⟨hcopy, _ | ⟨hdelete, _ | ⟨hinsert, ⟨⟩⟩⟩⟩ := hruns
  cases hcopy
  cases hdelete
  cases hinsert
  exact ⟨hdrain, ⟨last, hmerged⟩, hagain _ _ rfl _ _ _ _ hmerged
    (.inl ⟨delivers_list _, delivers_list _⟩)⟩

/-- A layer that gathers regions gives a summary of each: one copy for a stretch of copies, and at
most one delete and one insert for a stretch without any. What it gives, it gives again. -/
theorem drain_unchunk_eq {ops : Script} (hsource : source.Delivers ops) :
    Stretches Script.Together ops.regions ops ∧
    (∃ after, (source.under .unchunk).drain =
      (.ok (), ops.regions.flatMap Script.summary, after)) ∧
    ∀ again : Queue, again.Delivers (ops.regions.flatMap Script.summary) →
      ∃ after, (again.under .unchunk).drain =
        (.ok (), ops.regions.flatMap Script.summary, after) := by
  rw [← Script.regrouped_eq_summaries]
  refine ⟨ops.stretches_regions, hsource.under_unchunk.drain, fun again hagain => ?_⟩
  have hout := hagain.under_unchunk.drain
  rwa [Script.regrouped_regrouped] at hout

/-- An insert that comes first, and a delete without bytes between deletes that have theirs. -/
def mingled : Script :=
  [.insert [1, 2], .delete [3], .insert [4], .skip 5, .delete [6], .copy 7, .copy 8, .delete [9],
    .insert [10], .delete [11]]

theorem drain_unchunk_eq_mingled : ∃ after,
    ((ofSource (.ofList mingled)).under .unchunk).drain =
      (.ok (), [.insert [1, 2, 4], .skip 7, .copy 15, .delete [9, 11], .insert [10]], after) := by
  obtain ⟨-, ⟨after, hdrain⟩, -⟩ := drain_unchunk_eq (delivers_list mingled)
  exact ⟨after, hdrain⟩

end BytePatch.Queue
