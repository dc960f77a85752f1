import BytePatch.Proofs.Queue.Carries
import BytePatch.Proofs.Queue.Polls
import BytePatch.Proofs.Script.Tames

/-! One refill of a layer, whatever is below it and however its polls are answered: what was taken
in is still there or tamer, and unless something is ready there is nothing left to take. -/
namespace BytePatch

open Script (Tames)
open Feed (given Clean Dry)

variable {σ : Type}

/-- A refill of an empty ready buffer, by a layer that holds nothing but what is in its buffers. -/
def Feed.Turns (below : Feed σ) (Steady : List Op → Prop) (pending : List Op) (s : σ)
    (result : Except Fault Unit × Buffers × σ) : Prop :=
  ∃ answers, below.Polls s answers result.2.2 ∧
    Tames (pending ++ given answers) (result.2.1.ready ++ result.2.1.pending) ∧
    Steady result.2.1.pending ∧
    (result.1 = .ok () → Clean answers ∧
      (result.2.1.ready = [] → result.2.1.pending = [] ∧ Dry answers))

theorem Coalesce.turns (below : Feed σ) {pending : List Op}
    (hp : pending.length ≤ 1) (s : σ) :
    below.Turns (fun pending => pending.length ≤ 1) pending s
      (shift below ⟨[], pending⟩ s) := by
  have hw : ∀ a b op, Refinement.tame.Fit [a, b] → a.merge? b = some op → Tames [a, b] [op] :=
    fun _ _ _ _ => Script.tames_merge
  have hset := settle_holds (R := .tame) hw pending.reverse (by simp; omega) trivial
  unfold shift
  cases hm : settle pending.reverse with
  | done out =>
    rw [hm, List.reverse_reverse] at hset
    obtain ⟨hl, hr⟩ := hset
    exact ⟨[], .nil, by simpa using hr, by simpa using hl, fun _ => ⟨Feed.clean_nil, by simp⟩⟩
  | more held =>
    rw [hm, List.reverse_reverse] at hset
    obtain ⟨hl, hr⟩ := hset
    obtain ⟨answers, hpolls, hend⟩ := below.polls_consume .tame hold List.reverse
      (fun out => out.1 :: out.2.reverse) (fun held => held.length ≤ 1)
      (fun out => out.2.length ≤ 1)
      (fun held op hl => by
        have := settle_holds (R := .tame) hw (op :: held) (by simp; omega) trivial
        rwa [List.reverse_cons] at this) s hl
    have hr' := hr.postpend (given answers)
    dsimp only
    generalize below.consume hold held s = result at hpolls hend
    obtain ⟨outcome, s'⟩ := result
    cases outcome with
    | done out =>
      obtain ⟨hclean, hdone, hk⟩ := hend
      exact ⟨answers, hpolls, by simpa using hr'.trans hk, by simpa using hdone,
        fun _ => ⟨hclean, by simp⟩⟩
    | dry held' =>
      obtain ⟨hclean, hdry, hmore, hk⟩ := hend
      exact ⟨answers, hpolls, by simpa [Buffers.flush] using hr'.trans hk, by simp [Buffers.flush],
        fun _ => ⟨hclean, fun _ => ⟨rfl, hdry⟩⟩⟩
    | failed fault held' =>
      obtain ⟨hmore, hk⟩ := hend
      exact ⟨answers, hpolls, by simpa using hr'.trans hk, by simpa using hmore,
        fun ho => absurd ho (by simp)⟩

theorem Compact.turns (below : Feed σ) (pending : List Op) (s : σ) :
    below.Turns (fun _ => True) pending s (shift below ⟨[], pending⟩ s) := by
  have hw : ∀ a b op, Refinement.tame.Fit [a, b] → a.combine? b = some op → Tames [a, b] [op] :=
    fun _ _ _ _ => Script.tames_combine
  have hrel := release_holds pending.reverse
  unfold shift
  cases hm : release pending.reverse with
  | done held =>
    rw [hm] at hrel
    obtain ⟨-, hne⟩ := hrel
    cases pending with
    | nil => exact absurd rfl hne
    | cons op pending =>
      exact ⟨[], .nil, by simpa [Buffers.shiftReady] using Tames.refl _, trivial,
        fun _ => ⟨Feed.clean_nil, by simp [Buffers.shiftReady]⟩⟩
  | more held =>
    rw [hm] at hrel
    obtain rfl : held = pending.reverse := hrel
    obtain ⟨answers, hpolls, hend⟩ := below.polls_consume .tame hold List.reverse List.reverse
      (fun _ => True) (fun out => out ≠ []) (fun held op _ => hold_holds hw trivial)
      (a := pending.reverse) s trivial
    dsimp only
    generalize below.consume hold pending.reverse s = result at hpolls hend
    obtain ⟨outcome, s'⟩ := result
    cases outcome with
    | done out =>
      obtain ⟨hclean, hdone, hk⟩ := hend
      rw [List.reverse_reverse] at hk
      cases ho : out.reverse with
      | nil => exact absurd (by simpa using ho) hdone
      | cons op pending' =>
        rw [ho] at hk
        exact ⟨answers, hpolls, by simpa [Buffers.shiftReady, ho] using hk, trivial,
          fun _ => ⟨hclean, by simp [Buffers.shiftReady, ho]⟩⟩
    | dry held' =>
      obtain ⟨hclean, hdry, -, hk⟩ := hend
      rw [List.reverse_reverse] at hk
      exact ⟨answers, hpolls, by simpa [Buffers.flush] using hk, trivial,
        fun _ => ⟨hclean, fun _ => ⟨rfl, hdry⟩⟩⟩
    | failed fault held' =>
      obtain ⟨-, hk⟩ := hend
      rw [List.reverse_reverse] at hk
      exact ⟨answers, hpolls, by simpa using hk, trivial, fun ho => absurd ho (by simp)⟩

private theorem polls_first (below : Feed σ) (pending : List Op) (s : σ) :
    ∃ answers, below.Polls s answers (below.require 1 pending s).2.2 ∧
      (below.require 1 pending s).2.1 = pending ++ given answers ∧
      ∀ enough, (below.require 1 pending s).1 = .ok enough → Clean answers ∧
        ((below.require 1 pending s).2.1 = [] → Dry answers) := by
  obtain ⟨answers, hpolls, hpending, hend⟩ := below.polls_require 1 pending s
  refine ⟨answers, hpolls, hpending, fun enough he => ?_⟩
  rw [he] at hend
  cases enough with
  | true =>
    refine ⟨hend.1, fun hn => ?_⟩
    rw [hn] at hend
    exact absurd hend.2 (by simp)
  | false => exact ⟨hend.1, fun _ => hend.2.1⟩

theorem Chunk.turns (below : Feed σ) {size : Nat} (hs : 0 < size) (pending : List Op) (s : σ) :
    below.Turns (fun _ => 0 < size) pending s (shift size below ⟨[], pending⟩ s) := by
  obtain ⟨answers, hpolls, hpending, hend⟩ := polls_first below pending s
  unfold shift
  generalize below.require 1 pending s = result at hpolls hpending hend
  split
  · next fault pending' s1 =>
    exact ⟨answers, hpolls, by simpa [← hpending] using Tames.refl _, hs, nofun⟩
  · next enough s1 =>
    obtain ⟨hclean, hdry⟩ := hend enough rfl
    exact ⟨answers, hpolls, by simpa [← hpending] using Tames.refl _, hs,
      fun _ => ⟨hclean, fun _ => ⟨rfl, hdry rfl⟩⟩⟩
  · next enough run rest s1 =>
    exact ⟨answers, hpolls, by simpa [← hpending] using Tames.refl _, hs,
      fun _ => ⟨(hend enough rfl).1, by simp⟩⟩
  · next enough first rest s1 _ =>
    obtain ⟨hclean, -⟩ := hend enough rfl
    obtain ⟨answers', hpolls', hpending', hend'⟩ := polls_first below rest s1
    have hlead : pending ++ given (answers ++ answers') = first :: (rest ++ given answers') := by
      rw [Feed.given_append, ← List.append_assoc, ← hpending, List.cons_append]
    have hall := hpolls.append hpolls'
    generalize below.require 1 rest s1 = result at hpolls' hpending' hend' hall
    split
    · next fault pending' s2 =>
      refine ⟨_, hall, ?_, hs, nofun⟩
      rw [hlead, ← hpending']
      exact Tames.of_sublist (List.sublist_cons_self _ _)
    · next enough' s2 =>
      obtain ⟨hclean', -⟩ := hend' enough' rfl
      refine ⟨_, hall, ?_, hs, fun _ => ⟨hclean.append hclean', fun hn => ?_⟩⟩
      · rw [hlead, ← hpending']
        simpa using Script.tames_pieces hs first
      · exact absurd hn (by simpa using pieces_ne_nil size first)
    · next enough' second rest' s2 =>
      obtain ⟨hclean', -⟩ := hend' enough' rfl
      by_cases hp : replaces first second
      · rw [if_pos hp]
        refine ⟨_, hall, ?_, hs, fun _ => ⟨hclean.append hclean', fun hn => ?_⟩⟩
        · rw [hlead, ← hpending']
          simpa using (Script.tames_interleave hs first second).postpend rest'
        · exact absurd hn (by simpa using interleave_ne_nil (pieces_ne_nil size first) _)
      · rw [if_neg hp]
        refine ⟨_, hall, ?_, hs, fun _ => ⟨hclean.append hclean', fun hn => ?_⟩⟩
        · rw [hlead, ← hpending']
          simpa using (Script.tames_pieces hs first).postpend (second :: rest')
        · exact absurd hn (by simpa using pieces_ne_nil size first)

private theorem Unchunk.polls_gather (below : Feed σ) {first : Op} {region : Script}
    (hsame : ∀ op ∈ region, sameRegion first op) (s : σ) :
    ∃ answers, below.Polls s answers
        (below.consume (gather first) (first :: region).reverse s).2 ∧
      match (below.consume (gather first) (first :: region).reverse s).1 with
      | .done (taken, op) => Clean answers ∧ regroup first.kind taken.reverse ≠ [] ∧
        Tames (first :: region ++ given answers) (regroup first.kind taken.reverse ++ [op])
      | .dry taken => Clean answers ∧ regroup first.kind taken.reverse ≠ [] ∧
        Tames (first :: region ++ given answers) (regroup first.kind taken.reverse)
      | .failed _ _ => True := by
  -- What was taken when the search fails is not kept, so nothing is said of it.
  obtain ⟨answers, hpolls, hend⟩ := below.polls_consume .tame (gather first) List.reverse
    (fun out => out.1.reverse ++ [out.2]) (Region first)
    (fun out => Region first out.1 ∧ ¬ sameRegion first out.2)
    (fun taken op ht => gather_holds ht op .tame) (a := (first :: region).reverse) s
    ⟨region, by simp, hsame⟩
  refine ⟨answers, hpolls, ?_⟩
  generalize below.consume (gather first) (first :: region).reverse s = result at hend
  obtain ⟨⟨taken, op⟩ | taken | _, s'⟩ := result
  · obtain ⟨hclean, ⟨⟨others, ht, ho⟩, -⟩, hk⟩ := hend
    have hk : Tames (first :: region ++ given answers) (taken.reverse ++ [op]) := by simpa using hk
    have ht : taken.reverse = first :: others := ht
    dsimp only
    rw [ht] at hk ⊢
    exact ⟨hclean, regroup_ne_nil first others,
      Tames.trans hk ((Script.tames_regroup _ _).postpend [op])⟩
  · obtain ⟨hclean, -, ⟨others, ht, ho⟩, hk⟩ := hend
    have hk : Tames (first :: region ++ given answers) taken.reverse := by simpa using hk
    dsimp only
    rw [ht] at hk ⊢
    exact ⟨hclean, regroup_ne_nil first others, Tames.trans hk (Script.tames_regroup _ _)⟩
  · trivial

theorem Unchunk.turns (below : Feed σ) (pending : List Op) (s : σ) :
    below.Turns (fun _ => True) pending s (shift below ⟨[], pending⟩ s) := by
  obtain ⟨answers, hpolls, hpending, hend⟩ := polls_first below pending s
  unfold shift
  generalize below.require 1 pending s = result at hpolls hpending hend
  split
  · next fault pending' s1 =>
    exact ⟨answers, hpolls, by simpa [← hpending] using Tames.refl _, trivial, nofun⟩
  · next enough s1 =>
    obtain ⟨hclean, hdry⟩ := hend enough rfl
    exact ⟨answers, hpolls, by simpa [← hpending] using Tames.refl _, trivial,
      fun _ => ⟨hclean, fun _ => ⟨rfl, hdry rfl⟩⟩⟩
  · next enough first rest s1 =>
    obtain ⟨hclean, -⟩ := hend enough rfl
    have hsplit := rest.takeWhile_append_dropWhile (p := sameRegion first)
    have hsame : ∀ op ∈ rest.takeWhile (sameRegion first), sameRegion first op :=
      List.all_eq_true.1 List.all_takeWhile
    have hpending : pending ++ given answers = first :: rest := hpending.symm
    rw [← hsplit] at hpending
    generalize rest.takeWhile (sameRegion first) = region at hpending hsame
    split
    · next op left hd =>
      rw [hd] at hpending
      refine ⟨answers, hpolls, ?_, trivial, fun _ => ⟨hclean, fun hn => ?_⟩⟩
      · rw [hpending]
        simpa using (Script.tames_regroup first.kind (first :: region)).postpend (op :: left)
      · exact absurd hn (by simpa using regroup_ne_nil first region)
    · next hd =>
      rw [hd, List.append_nil] at hpending
      obtain ⟨answers', hpolls', hend'⟩ := polls_gather below hsame s1
      have hall := hpolls.append hpolls'
      have hlead : pending ++ given (answers ++ answers') = first :: region ++ given answers' := by
        rw [Feed.given_append, ← List.append_assoc, hpending]
      dsimp only
      generalize below.consume (gather first) (first :: region).reverse s1 = result at hend' hall
      split
      · next taken op s2 =>
        obtain ⟨hclean', hne, hk⟩ := hend'
        exact ⟨_, hall, hlead ▸ hk, trivial,
          fun _ => ⟨hclean.append hclean', fun hn => absurd hn hne⟩⟩
      · next taken s2 =>
        obtain ⟨hclean', hne, hk⟩ := hend'
        rw [← List.append_nil (regroup _ _)] at hk
        exact ⟨_, hall, hlead ▸ hk, trivial,
          fun _ => ⟨hclean.append hclean', fun hn => absurd hn hne⟩⟩
      · next fault taken s2 =>
        exact ⟨_, hall, Tames.of_sublist (List.nil_sublist _), trivial, nofun⟩

theorem Pointwise.turns {τ : Type} (rule : Op → τ → Except Fault Op × τ)
    (hrule : ∀ {op t op' t'}, rule op t = (.ok op', t') → Tames [op] [op']) (below : Feed σ)
    (t : τ) (s : σ) :
    below.Turns (fun pending => pending = []) [] s
      ((shift rule below t ⟨[], []⟩ s).1, (shift rule below t ⟨[], []⟩ s).2.2) := by
  unfold shift
  rcases hp : below.poll s with ⟨fault | - | op, s'⟩
  · exact ⟨_, .single hp, Tames.refl _, rfl, nofun⟩
  · exact ⟨_, .single hp, Tames.refl _, rfl,
      fun _ => ⟨Feed.clean_cons Feed.clean_nil, fun _ => ⟨rfl, Feed.dry_singleton⟩⟩⟩
  · dsimp only
    rcases hr : rule op t with ⟨fault | op', t'⟩
    · exact ⟨_, .single hp, Tames.of_sublist (List.nil_sublist _), rfl, nofun⟩
    · exact ⟨_, .single hp, by simpa [Buffers.pushReady] using hrule hr, rfl,
        fun _ => ⟨Feed.clean_cons Feed.clean_nil, by simp [Buffers.pushReady]⟩⟩

end BytePatch
