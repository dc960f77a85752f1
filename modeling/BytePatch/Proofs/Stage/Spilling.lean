import Mathlib.Data.List.Infix
import BytePatch.Proofs.Queue.Recovery
import BytePatch.Proofs.Script.Totals
import BytePatch.Proofs.Stage.Serving
import BytePatch.Proofs.Stage.Undo

/-! The two layers that take an op off the pending ones before they look at what comes after it. If
that look fails, what they have in hand is lost: the op that waits for its neighbour, or the region
whose end is not yet in sight. All else comes out as if the stretches between the failures were
scripts of their own. -/
namespace BytePatch

open Feed (given failures)

namespace Feed
variable {σ : Type} (feed : Feed σ)

theorem require_one_cons (op : Op) (pending : List Op) (s : σ) :
    feed.require 1 (op :: pending) s = (.ok true, op :: pending, s) :=
  feed.require_of_le (Nat.succ_le_succ (Nat.zero_le pending.length)) s

theorem require_one_nil (s : σ) : feed.require 1 [] s =
    match feed.poll s with
    | (.error fault, s) => (.error fault, [], s)
    | (.ok none, s) => (.ok false, [], s)
    | (.ok (some op), s) => (.ok true, [op], s) := by
  rw [feed.require_of_lt Nat.zero_lt_one]
  rcases feed.poll s with ⟨fault | - | op, s'⟩
  · rfl
  · rfl
  · exact feed.require_one_cons op [] s'

end Feed

namespace Answer

section Torn
variable (whole spare : Script → Script)

/-- What polls answer above a layer that makes `whole` of a stretch of ops, where a failure that cuts
the stretch short leaves of it what `spare` says. The ops of the first stretch that are already there
come first. -/
def broken (stretch : Script) : List Answer → List Answer
  | [] => each (whole stretch)
  | .ok (some op) :: answers => broken (stretch ++ [op]) answers
  | .ok none :: answers => broken stretch answers
  | .error fault :: answers => each (whole (spare stretch)) ++ .error fault :: broken [] answers

/-- The ops that are not in hand at any failure. -/
def spared (stretch : Script) : List Answer → Script
  | [] => stretch
  | .ok (some op) :: answers => spared (stretch ++ [op]) answers
  | .ok none :: answers => spared stretch answers
  | .error _ :: answers => spare stretch ++ spared [] answers

/-- What is in hand at each failure. -/
def spilled (stretch : Script) : List Answer → List Script
  | [] => []
  | .ok (some op) :: answers => spilled (stretch ++ [op]) answers
  | .ok none :: answers => spilled stretch answers
  | .error _ :: answers => stretch.drop (spare stretch).length :: spilled [] answers

variable {whole spare} {stretch : Script}

theorem failures_broken (answers : List Answer) :
    failures (broken whole spare stretch answers) = failures answers := by
  fun_induction broken whole spare stretch answers with
  | case1 => exact Feed.failures_each _
  | case2 _ op _ ih => exact ih
  | case3 _ _ ih => exact ih
  | case4 _ fault _ ih =>
    rw [Feed.failures_append, Feed.failures_each, Feed.failures_error, ih, List.nil_append,
      Feed.failures_error]

theorem total_broken (hwhole : ∀ kind ops, Script.total kind (whole ops) = Script.total kind ops)
    (kind : Kind) (answers : List Answer) :
    Script.total kind (given (broken whole spare stretch answers)) =
      Script.total kind (spared spare stretch answers) := by
  fun_induction broken whole spare stretch answers with
  | case1 => rw [Feed.given_each, hwhole, spared]
  | case2 _ op _ ih => exact ih
  | case3 _ _ ih => exact ih
  | case4 stretch fault answers ih =>
    rw [Feed.given_append, Feed.given_each, Feed.given_error, spared,
      Script.total_append_congr kind (hwhole kind _) ih]

/-- Either an op is spared or it is in hand at a failure. -/
theorem spared_perm (hspare : ∀ ops, spare ops <+: ops) (answers : List Answer) :
    (spared spare stretch answers ++ (spilled spare stretch answers).flatten).Perm
      (stretch ++ given answers) := by
  fun_induction spared spare stretch answers with
  | case1 stretch => exact .refl _
  | case2 stretch op answers ih =>
    rw [Feed.given_op, List.append_cons stretch op (given answers)]
    exact ih
  | case3 _ _ ih => exact ih
  | case4 stretch fault answers ih =>
    have hsplit := List.prefix_append_drop (hspare stretch)
    have hmove := List.perm_append_comm_assoc (spared spare [] answers)
      (stretch.drop (spare stretch).length) (spilled spare [] answers).flatten
    have hrest := (hmove.trans (ih.append_left _)).append_left (spare stretch)
    rw [List.nil_append, ← List.append_assoc (spare stretch) (stretch.drop _), ← hsplit] at hrest
    rw [spilled, List.flatten_cons, List.append_assoc]
    exact hrest

theorem spared_sublist (hspare : ∀ ops, spare ops <+: ops) (answers : List Answer) :
    (spared spare stretch answers).Sublist (stretch ++ given answers) := by
  fun_induction spared spare stretch answers with
  | case1 stretch => exact List.sublist_append_left _ _
  | case2 stretch op answers ih => simpa using ih
  | case3 _ _ ih => exact ih
  | case4 stretch fault answers ih => exact (hspare stretch).sublist.append ih

/-- What is decided about the first ops, whatever comes after them, is answered first. -/
theorem broken_append {xs ys out : Script}
    (hwhole : ∀ more, whole (xs ++ ys ++ more) = out ++ whole (ys ++ more))
    (hspare : ∀ more, whole (spare (xs ++ ys ++ more)) = out ++ whole (spare (ys ++ more)))
    (answers : List Answer) :
    broken whole spare (xs ++ ys) answers = each out ++ broken whole spare ys answers := by
  fun_induction broken whole spare ys answers with
  | case1 ys =>
    have h := hwhole []
    rw [List.append_nil, List.append_nil] at h
    rw [broken, h, each, List.map_append]
  | case2 ys op answers ih =>
    rw [broken, List.append_assoc]
    refine ih (fun more => ?_) fun more => ?_
    · simpa using hwhole (op :: more)
    · simpa using hspare (op :: more)
  | case3 ys answers ih =>
    rw [broken]
    exact ih hwhole hspare
  | case4 ys fault answers _ =>
    have h := hspare []
    rw [List.append_nil, List.append_nil] at h
    rw [broken, h, each, List.map_append, List.append_assoc]

end Torn

end Answer

variable {σ : Type} {below : Feed σ} {s : σ}

namespace Layer

/-- The answers still to come of a layer that may lose what it has in hand: those for the pending ops
and for what is below. -/
private def Owes (below : Feed σ) (whole spare : Script → Script) (losing work : Work)
    (pending : List Op) (s : σ) (answers : List Answer) : Prop :=
  ∃ left, work = losing ∧ below.Answers s left (.ok none) ∧ .ok none ∉ left ∧
    answers = Answer.broken whole spare pending left

section Owes
variable {whole spare : Script → Script} {work : Work} {left : List Answer}

private theorem brings_decided (xs : Script) {ys ready : Script} (hready : ready ≠ [])
    (hwhole : ∀ more, whole (xs ++ ys ++ more) = ready ++ whole (ys ++ more))
    (hspare : ∀ more, whole (spare (xs ++ ys ++ more)) = ready ++ whole (spare (ys ++ more)))
    (h : below.Answers s left (.ok none)) (hends : .ok none ∉ left) :
    Brings (Owes below whole spare work) (.ok none) (Answer.broken whole spare (xs ++ ys) left)
      (.ok (), ⟨⟨ready, ys⟩, work⟩, s) := by
  rw [Answer.broken_append hwhole hspare]
  exact brings_ready hready ⟨left, rfl, h, hends, rfl⟩

private theorem brings_looked {pending ready : Script}
    (hshift : shift below ⟨⟨[], pending⟩, work⟩ s =
      match below.poll s with
      | (.error fault, s) => (.error fault, ⟨⟨[], []⟩, work⟩, s)
      | (.ok none, s) => (.ok (), ⟨⟨ready, []⟩, work⟩, s)
      | (.ok (some op), s) => shift below ⟨⟨[], pending ++ [op]⟩, work⟩ s)
    (hnil : whole [] = []) (hwhole : whole pending = ready) (hspare : spare pending = [])
    (hnext : ∀ op left s, below.Answers s left (.ok none) → .ok none ∉ left →
      Brings (Owes below whole spare work) (.ok none)
        (Answer.broken whole spare (pending ++ [op]) left)
        (shift below ⟨⟨[], pending ++ [op]⟩, work⟩ s))
    (h : below.Answers s left (.ok none)) (hends : .ok none ∉ left) :
    Brings (Owes below whole spare work) (.ok none) (Answer.broken whole spare pending left)
      (shift below ⟨⟨[], pending⟩, work⟩ s) := by
  obtain ⟨hhead, htail⟩ := h.poll
  rw [hshift]
  generalize below.poll s = result at hhead htail
  obtain ⟨answer, s'⟩ := result
  obtain rfl : answer = left.headD (.ok none) := hhead
  rcases left with _ | ⟨fault | - | op, left⟩
  · have howes : Owes below whole spare work work [] s' [] :=
      ⟨[], rfl, htail, hends, by rw [Answer.broken, hnil]; rfl⟩
    rw [Answer.broken, hwhole]
    cases ready with
    | nil => exact ⟨rfl, howes⟩
    | cons op ready => exact ⟨[], (List.append_nil _).symm, howes⟩
  · rw [Answer.broken, hspare, hnil]
    exact ⟨rfl, rfl, left, rfl, htail, fun hm => hends (List.mem_cons_of_mem _ hm), rfl⟩
  · exact absurd List.mem_cons_self hends
  · exact hnext op left s' htail fun hm => hends (List.mem_cons_of_mem _ hm)

end Owes

end Layer

namespace Chunk

/-- The ops that are not in hand while another one is looked for: all but a last one that waits for
its neighbour. -/
def spared : Script → Script
  | [] => []
  | .copy run :: ops => .copy run :: spared ops
  | [_] => []
  | first :: second :: ops =>
    if replaces first second then first :: second :: spared ops
    else first :: spared (second :: ops)

theorem spared_prefix (ops : Script) : spared ops <+: ops := by
  fun_induction spared ops with
  | case1 => exact List.nil_prefix
  | case2 run ops ih => exact (List.prefix_cons_inj _).2 ih
  | case3 => exact List.nil_prefix
  | case4 first second ops _ _ ih =>
    exact (List.prefix_cons_inj _).2 ((List.prefix_cons_inj _).2 ih)
  | case5 first second ops _ _ ih => exact (List.prefix_cons_inj _).2 ih

section Spared
variable (size : Nat) {a b : Op}

private theorem spared_of_ne_copy (h : ∀ run, a ≠ .copy run) (b : Op) (ops : Script) :
    spared (a :: b :: ops) =
      if replaces a b then a :: b :: spared ops else a :: spared (b :: ops) := by
  cases a with
  | copy run => exact absurd rfl (h run)
  | _ => rw [spared]; exact h

private theorem spared_singleton (h : ∀ run, a ≠ .copy run) : spared [a] = [] := by
  cases a with
  | copy run => exact absurd rfl (h run)
  | _ => rw [spared]; exact h

private theorem ne_copy_of_replaces (h : replaces a b) (run : Nat) : a ≠ .copy run :=
  fun heq => (kinds_of_replaces h).1 (by rw [heq]; rfl)

private theorem cut_pair (h : replaces a b) (ops : Script) : cut size (a :: b :: ops) =
    interleave (pieces size a) (pieces size b) ++ cut size ops := by
  rw [cut_of_ne_copy size (ne_copy_of_replaces h), if_pos h]

private theorem cut_spared_pair (h : replaces a b) (ops : Script) :
    cut size (spared (a :: b :: ops)) =
      interleave (pieces size a) (pieces size b) ++ cut size (spared ops) := by
  rw [spared_of_ne_copy (ne_copy_of_replaces h), if_pos h, cut_pair size h]

private theorem cut_single (h : ¬ replaces a b) (ops : Script) :
    cut size (a :: b :: ops) = pieces size a ++ cut size (b :: ops) :=
  cut_cons size fun next hnext => by cases hnext; exact h

private theorem cut_spared_single (hcopy : ∀ run, a ≠ .copy run) (h : ¬ replaces a b)
    (ops : Script) :
    cut size (spared (a :: b :: ops)) = pieces size a ++ cut size (spared (b :: ops)) := by
  rw [spared_of_ne_copy hcopy, if_neg h]
  refine cut_cons size fun next hnext => ?_
  obtain ⟨more, hmore⟩ := spared_prefix (b :: ops)
  cases hspared : spared (b :: ops) with
  | nil =>
    rw [hspared] at hnext
    cases hnext
  | cons first rest =>
    rw [hspared] at hnext hmore
    cases hnext
    rwa [(List.cons.inj hmore).1]

end Spared

section Shift
variable (size : Nat)

private theorem shift_copy (run : Nat) (pending : List Op) (s : σ) :
    Layer.shift below ⟨⟨[], .copy run :: pending⟩, .chunk size⟩ s =
      (.ok (), ⟨⟨[.copy run], pending⟩, .chunk size⟩, s) := by
  simp [Layer.shift, shift, below.require_one_cons]

private theorem shift_two {a : Op} (h : ∀ run, a ≠ .copy run) (b : Op) (pending : List Op) (s : σ) :
    Layer.shift below ⟨⟨[], a :: b :: pending⟩, .chunk size⟩ s =
      if replaces a b then
        (.ok (), ⟨⟨interleave (pieces size a) (pieces size b), pending⟩, .chunk size⟩, s)
      else (.ok (), ⟨⟨pieces size a, b :: pending⟩, .chunk size⟩, s) := by
  cases a with
  | copy run => exact absurd rfl (h run)
  | _ => simp only [Layer.shift, shift, below.require_one_cons, List.nil_append]; split <;> rfl

private theorem shift_one {a : Op} (h : ∀ run, a ≠ .copy run) (s : σ) :
    Layer.shift below ⟨⟨[], [a]⟩, .chunk size⟩ s =
      match below.poll s with
      | (.error fault, s) => (.error fault, ⟨⟨[], []⟩, .chunk size⟩, s)
      | (.ok none, s) => (.ok (), ⟨⟨pieces size a, []⟩, .chunk size⟩, s)
      | (.ok (some b), s) => Layer.shift below ⟨⟨[], [a, b]⟩, .chunk size⟩ s := by
  cases a with
  | copy run => exact absurd rfl (h run)
  | _ =>
    simp only [Layer.shift, shift, below.require_one_cons, below.require_one_nil, List.nil_append]
    rcases below.poll s with ⟨fault | - | b, s'⟩ <;> rfl

private theorem shift_nil (s : σ) : Layer.shift below ⟨⟨[], []⟩, .chunk size⟩ s =
    match below.poll s with
    | (.error fault, s) => (.error fault, ⟨⟨[], []⟩, .chunk size⟩, s)
    | (.ok none, s) => (.ok (), ⟨⟨[], []⟩, .chunk size⟩, s)
    | (.ok (some op), s) => Layer.shift below ⟨⟨[], [op]⟩, .chunk size⟩ s := by
  simp only [Layer.shift, shift, below.require_one_cons, below.require_one_nil]
  rcases below.poll s with ⟨fault | - | op, s'⟩ <;> rfl

end Shift

/-- A refill brings the first of what is still to come. -/
private abbrev Refills (below : Feed σ) (size : Nat) (pending : List Op) (s : σ)
    (left : List Answer) : Prop :=
  Layer.Brings (Layer.Owes below (cut size) spared (.chunk size)) (.ok none)
    (Answer.broken (cut size) spared pending left)
    (Layer.shift below ⟨⟨[], pending⟩, .chunk size⟩ s)

section Refills
variable {size : Nat} {left : List Answer}

private theorem refills_copy (run : Nat) (pending : List Op)
    (h : below.Answers s left (.ok none)) (hends : .ok none ∉ left) :
    Refills below size (.copy run :: pending) s left := by
  rw [Refills, shift_copy]
  exact Layer.brings_decided [.copy run] (List.cons_ne_nil _ _) (fun _ => rfl)
    (fun _ => rfl) h hends

private theorem refills_two {a : Op} (hcopy : ∀ run, a ≠ .copy run) (b : Op) (pending : List Op)
    (h : below.Answers s left (.ok none)) (hends : .ok none ∉ left) :
    Refills below size (a :: b :: pending) s left := by
  rw [Refills, shift_two size hcopy]
  by_cases hr : replaces a b
  · rw [if_pos hr]
    exact Layer.brings_decided [a, b]
      (interleave_ne_nil (pieces_ne_nil size a) (pieces size b))
      (fun more => cut_pair size hr (pending ++ more))
      (fun more => cut_spared_pair size hr (pending ++ more)) h hends
  · rw [if_neg hr]
    exact Layer.brings_decided [a] (pieces_ne_nil size a)
      (fun more => cut_single size hr (pending ++ more))
      (fun more => cut_spared_single size hcopy hr (pending ++ more)) h hends

private theorem refills_one (a : Op) (h : below.Answers s left (.ok none))
    (hends : .ok none ∉ left) : Refills below size [a] s left := by
  by_cases hcopy : ∃ run, a = .copy run
  · obtain ⟨run, rfl⟩ := hcopy
    exact refills_copy run [] h hends
  have hcopy : ∀ run, a ≠ .copy run := fun run heq => hcopy ⟨run, heq⟩
  exact Layer.brings_looked (shift_one size hcopy s) rfl (cut_singleton size hcopy)
    (spared_singleton hcopy) (fun b _ _ => refills_two hcopy b []) h hends

private theorem refills_nil (h : below.Answers s left (.ok none)) (hends : .ok none ∉ left) :
    Refills below size [] s left :=
  Layer.brings_looked (shift_nil size s) rfl rfl rfl (fun op _ _ => refills_one op) h hends

end Refills

/-- A cutting layer cuts each stretch between failures for itself, but for an op that waits for its
neighbour when a failure comes. -/
theorem answers_broken (size : Nat) {answers : List Answer}
    (h : below.Answers s answers (.ok none)) (hends : .ok none ∉ answers) :
    (Layer.feed below).Answers (.new (.chunk size), s)
      (Answer.broken (cut size) spared [] answers) (.ok none) := by
  refine Layer.answers_of_brings (Layer.Owes below (cut size) spared (.chunk size)) ?_
    ⟨answers, rfl, h, hends, rfl⟩
  rintro _ pending s _ ⟨left, rfl, h, hends, rfl⟩
  match pending with
  | [] => exact refills_nil h hends
  | [a] => exact refills_one a h hends
  | a :: b :: pending =>
    by_cases hcopy : ∃ run, a = .copy run
    · obtain ⟨run, rfl⟩ := hcopy
      exact refills_copy run (b :: pending) h hends
    · exact refills_two (fun run heq => hcopy ⟨run, heq⟩) b pending h hends

end Chunk

namespace Unchunk

open Script (regions regrouped regions_cons regrouped_cons)

/-- The ops that are not in hand while another one is looked for: all regions but the last one, whose
end is not yet in sight. -/
def spared (ops : Script) : Script := ops.regions.dropLast.flatten

theorem spared_prefix (ops : Script) : spared ops <+: ops := by
  obtain ⟨last, hlast⟩ := List.dropLast_prefix ops.regions
  refine ⟨last.flatten, ?_⟩
  rw [spared, ← List.flatten_append, hlast, regions, List.flatten_splitBy]

section Region
variable {first next : Op} {region rest : Script}
  (hregion : ∀ op ∈ region, sameRegion first op)
include hregion

private theorem regrouped_region :
    regrouped (first :: region) = regroup first.kind (first :: region) := by
  have h : regrouped (first :: region ++ []) = _ := regrouped_cons hregion nofun
  rwa [List.append_nil, show regrouped [] = [] from rfl, List.append_nil] at h

private theorem spared_region : spared (first :: region) = [] := by
  have h : regions (first :: region ++ []) = _ := regions_cons hregion nofun
  rw [List.append_nil] at h
  rw [spared, h]
  rfl

private theorem spared_cons (hnext : ¬ sameRegion first next) (rest : Script) :
    spared (first :: region ++ next :: rest) = first :: region ++ spared (next :: rest) := by
  have hrest : ∀ op ∈ (next :: rest).head?, ¬ sameRegion first op := fun op hop => by
    cases hop
    exact hnext
  have hne : regions (next :: rest) ≠ [] := List.splitBy_ne_nil.2 (List.cons_ne_nil _ _)
  rw [spared, regions_cons hregion hrest, List.dropLast_cons_of_ne_nil hne, List.flatten_cons,
    ← spared]

private theorem regrouped_spared (hnext : ¬ sameRegion first next) (rest : Script) :
    regrouped (spared (first :: region ++ next :: rest)) =
      regroup first.kind (first :: region) ++ regrouped (spared (next :: rest)) := by
  rw [spared_cons hregion hnext]
  refine regrouped_cons hregion fun op hop => ?_
  obtain ⟨more, hmore⟩ := spared_prefix (next :: rest)
  cases hspared : spared (next :: rest) with
  | nil =>
    rw [hspared] at hop
    cases hop
  | cons other ops =>
    rw [hspared] at hop hmore
    cases hop
    rwa [(List.cons.inj hmore).1]

end Region

/-- A refill brings the first of what is still to come. -/
private abbrev Refills (below : Feed σ) (pending : List Op) (left : List Answer) :
    Except Fault Unit × Layer × σ → Prop :=
  Layer.Brings (Layer.Owes below regrouped spared .unchunk) (.ok none)
    (Answer.broken regrouped spared pending left)

section Refills
variable {left : List Answer}

private theorem refills_region {first next : Op} {region : Script}
    (hregion : ∀ op ∈ region, sameRegion first op) (hnext : ¬ sameRegion first next)
    (pending : List Op) (h : below.Answers s left (.ok none)) (hends : .ok none ∉ left) :
    Refills below (first :: region ++ next :: pending) left
      (.ok (), ⟨⟨regroup first.kind (first :: region), next :: pending⟩, .unchunk⟩, s) := by
  refine Layer.brings_decided (first :: region) (regroup_ne_nil first region) (fun more => ?_)
    (fun more => ?_) h hends
  · rw [List.append_assoc]
    refine regrouped_cons hregion fun op hop => ?_
    cases hop
    exact hnext
  · rw [List.append_assoc]
    exact regrouped_spared hregion hnext _

private theorem refills_gathered {first : Op} {region : Script}
    (hregion : ∀ op ∈ region, sameRegion first op) (h : below.Answers s left (.ok none))
    (hends : .ok none ∉ left) :
    Refills below (first :: region) left
      (match below.consume (gather first) (first :: region).reverse s with
        | (.done (taken, op), s) =>
          (.ok (), ⟨⟨regroup first.kind taken.reverse, [op]⟩, .unchunk⟩, s)
        | (.dry taken, s) => (.ok (), ⟨⟨regroup first.kind taken.reverse, []⟩, .unchunk⟩, s)
        | (.failed fault _, s) => (.error fault, ⟨⟨[], []⟩, .unchunk⟩, s)) := by
  obtain ⟨rest, hrest, hends', houtcome⟩ := h.consume (gather first)
    (fun taken left' => Region first taken ∧
      Answer.broken regrouped spared taken.reverse left' =
        Answer.broken regrouped spared (first :: region) left)
    (fun given left' => Region first given.1 ∧ ¬ sameRegion first given.2 ∧
      Answer.broken regrouped spared (given.1.reverse ++ [given.2]) left' =
        Answer.broken regrouped spared (first :: region) left)
    (fun taken op left' ⟨htaken, hsame⟩ => by
      have hgather := gather_holds htaken op .equality
      cases hs : gather first taken op with
      | more taken' =>
        rw [hs] at hgather
        obtain ⟨htaken', hop⟩ := hgather
        have hop : taken.reverse ++ [op] = taken'.reverse := hop
        exact ⟨htaken', hop ▸ hsame⟩
      | done given =>
        rw [hs] at hgather
        obtain ⟨⟨hgiven, hother⟩, hop⟩ := hgather
        have hop : taken.reverse ++ [op] = given.1.reverse ++ [given.2] := hop
        exact ⟨hgiven, hother, hop ▸ hsame⟩) hends
    ⟨⟨region, List.reverse_reverse _, hregion⟩, by rw [List.reverse_reverse]⟩
  generalize below.consume (gather first) (first :: region).reverse s = result at hrest houtcome
  obtain ⟨⟨taken, op⟩ | taken | ⟨fault, taken⟩, s'⟩ := result
  · obtain ⟨⟨region', htaken, hregion'⟩, hother, hsame⟩ := houtcome
    dsimp only at htaken hsame ⊢
    rw [Refills, ← hsame, htaken]
    exact refills_region hregion' hother [] hrest hends'
  · obtain ⟨rfl, ⟨region', htaken, hregion'⟩, hsame⟩ := houtcome
    dsimp only
    rw [Refills, ← hsame, htaken, Answer.broken, regrouped_region hregion',
      ← List.append_nil (Answer.each _)]
    exact Layer.brings_ready (regroup_ne_nil first region') ⟨[], rfl, hrest, hends', rfl⟩
  · obtain ⟨⟨region', htaken, hregion'⟩, hsame⟩ := houtcome
    rw [Refills, ← hsame, htaken, Answer.broken, spared_region hregion']
    exact ⟨rfl, rfl, rest, rfl, hrest, hends', rfl⟩

private theorem shift_cons (first : Op) (pending : List Op) :
    Layer.shift below ⟨⟨[], first :: pending⟩, .unchunk⟩ s =
      match pending.dropWhile (sameRegion first) with
      | op :: more => (.ok (), ⟨⟨regroup first.kind
          (first :: pending.takeWhile (sameRegion first)), op :: more⟩, .unchunk⟩, s)
      | [] =>
        match below.consume (gather first)
            (first :: pending.takeWhile (sameRegion first)).reverse s with
        | (.done (taken, op), s) =>
          (.ok (), ⟨⟨regroup first.kind taken.reverse, [op]⟩, .unchunk⟩, s)
        | (.dry taken, s) => (.ok (), ⟨⟨regroup first.kind taken.reverse, []⟩, .unchunk⟩, s)
        | (.failed fault _, s) => (.error fault, ⟨⟨[], []⟩, .unchunk⟩, s) := by
  simp only [Layer.shift, shift, below.require_one_cons, List.nil_append]
  cases pending.dropWhile (sameRegion first) with
  | cons op more => rfl
  | nil =>
    dsimp only
    rcases below.consume (gather first) _ s with ⟨⟨taken, op⟩ | taken | ⟨fault, taken⟩, s'⟩ <;> rfl

private theorem refills_cons (first : Op) (pending : List Op) (h : below.Answers s left (.ok none))
    (hends : .ok none ∉ left) : Refills below (first :: pending) left
      (Layer.shift below ⟨⟨[], first :: pending⟩, .unchunk⟩ s) := by
  have hsame : ∀ op ∈ pending.takeWhile (sameRegion first), sameRegion first op :=
    List.all_eq_true.1 List.all_takeWhile
  have hother := List.head?_dropWhile_not (sameRegion first) pending
  rw [shift_cons]
  have hsplit := pending.takeWhile_append_dropWhile (p := sameRegion first)
  cases hdrop : pending.dropWhile (sameRegion first) with
  | cons op more =>
    rw [hdrop] at hsplit hother
    have hpending : first :: pending =
        first :: pending.takeWhile (sameRegion first) ++ op :: more := congrArg _ hsplit.symm
    rw [Refills, hpending]
    exact refills_region hsame (by simpa using hother) more h hends
  | nil =>
    rw [hdrop, List.append_nil] at hsplit
    rw [hsplit] at hsame ⊢
    exact refills_gathered hsame h hends

private theorem refills_nil (h : below.Answers s left (.ok none)) (hends : .ok none ∉ left) :
    Refills below [] left (Layer.shift below ⟨⟨[], []⟩, .unchunk⟩ s) := by
  have hshift : Layer.shift below ⟨⟨[], []⟩, .unchunk⟩ s =
      match below.poll s with
      | (.error fault, s) => (.error fault, ⟨⟨[], []⟩, .unchunk⟩, s)
      | (.ok none, s) => (.ok (), ⟨⟨[], []⟩, .unchunk⟩, s)
      | (.ok (some op), s) => Layer.shift below ⟨⟨[], [op]⟩, .unchunk⟩ s := by
    simp only [Layer.shift, shift, below.require_one_cons, below.require_one_nil]
    rcases below.poll s with ⟨fault | - | op, s'⟩ <;> rfl
  exact Layer.brings_looked hshift rfl rfl rfl (fun op _ _ => refills_cons op []) h hends

end Refills

/-- A gathering layer gathers each stretch between failures for itself, but for the region that a
failure comes into. -/
theorem answers_broken {answers : List Answer} (h : below.Answers s answers (.ok none))
    (hends : .ok none ∉ answers) :
    (Layer.feed below).Answers (.new .unchunk, s) (Answer.broken regrouped spared [] answers)
      (.ok none) := by
  refine Layer.answers_of_brings (Layer.Owes below regrouped spared .unchunk) ?_
    ⟨answers, rfl, h, hends, rfl⟩
  rintro _ pending s _ ⟨left, rfl, h, hends, rfl⟩
  match pending with
  | [] => exact refills_nil h hends
  | first :: pending => exact refills_cons first pending h hends

end Unchunk

/-- The layers that look ahead with ops in hand. With each stand what it makes of a script, and what of
a script is not in its hands when it looks for more. -/
inductive Work.Spills : Work → (Script → Script) → (Script → Script) → Prop
  | chunk (size) : Spills (.chunk size) (Chunk.cut size) Chunk.spared
  | unchunk : Spills .unchunk Script.regrouped Unchunk.spared

namespace Work.Spills
variable {work : Work} {whole spare : Script → Script} (h : work.Spills whole spare)
include h

theorem answers_broken {answers : List Answer} (hs : below.Answers s answers (.ok none))
    (hends : .ok none ∉ answers) :
    (Layer.feed below).Answers (.new work, s) (Answer.broken whole spare [] answers)
      (.ok none) := by
  cases h with
  | chunk size => exact Chunk.answers_broken size hs hends
  | unchunk => exact Unchunk.answers_broken hs hends

theorem spare_prefix (ops : Script) : spare ops <+: ops := by
  cases h with
  | chunk => exact Chunk.spared_prefix ops
  | unchunk => exact Unchunk.spared_prefix ops

theorem total_whole (kind : Kind) (ops : Script) :
    Script.total kind (whole ops) = Script.total kind ops := by
  cases h with
  | chunk size => exact Script.total_cut kind size ops
  | unchunk => exact Script.total_regrouped kind ops

end Work.Spills

namespace Layer

/-- Above a feed whose polls give ops and fail now and then, such a layer meets each failure once and
goes on after it. What it has given in the end adds up, kind for kind, to the ops that were not in its
hands at any failure; the others are lost. So it adds up to all that the feed gave just if its hands
were empty at every failure. -/
theorem answers_spilling {answers : List Answer} (hbelow : below.Answers s answers (.ok none))
    (hends : .ok none ∉ answers) {work : Work} {whole spare : Script → Script}
    (hwork : work.Spills whole spare) :
    (feed below).Answers (.new work, s) (Answer.broken whole spare [] answers) (.ok none) ∧
    failures (Answer.broken whole spare [] answers) = failures answers ∧
    (∀ kind, Script.total kind (given (Answer.broken whole spare [] answers)) =
      Script.total kind (Answer.spared spare [] answers)) ∧
    (Answer.spared spare [] answers).Sublist (given answers) ∧
    (Answer.spared spare [] answers ++ (Answer.spilled spare [] answers).flatten).Perm
      (given answers) ∧
    ((∀ op ∈ given answers, 0 < op.run) →
      ((∀ kind, Script.total kind (given (Answer.broken whole spare [] answers)) =
          Script.total kind (given answers)) ↔
        (Answer.spilled spare [] answers).flatten = [])) := by
  have htotal (kind : Kind) : Script.total kind (given (Answer.broken whole spare [] answers)) =
      Script.total kind (Answer.spared spare [] answers) :=
    Answer.total_broken hwork.total_whole kind answers
  have hsublist : (Answer.spared spare [] answers).Sublist (given answers) :=
    Answer.spared_sublist hwork.spare_prefix answers
  have hperm : (Answer.spared spare [] answers ++ (Answer.spilled spare [] answers).flatten).Perm
      (given answers) := Answer.spared_perm hwork.spare_prefix answers
  refine ⟨hwork.answers_broken hbelow hends, Answer.failures_broken answers, htotal, hsublist,
    hperm, fun hpos => ?_⟩
  simp only [htotal]
  exact Script.forall_total_eq_iff hsublist hperm hpos

end Layer

namespace Queue

/-- Undone, the second op cannot be; what was inserted before it is in hand by then. -/
def halfUndone : Queue :=
  (ofSource (.ofList [.delete [97], .skip 3, .insert [98], .copy 2])).under .undo

theorem answers_halfUndone : halfUndone.Answers
    [.ok (some (.insert [97])), .error (.missingDeletePayload 3), .ok (some (.delete [98])),
      .ok (some (.copy 2))] (.ok none) :=
  Layer.answers_undo (Feed.Delivers.recovers (delivers_list _)).answers_of_clean

theorem answers_spilling_halfUndone :
    (halfUndone.under (.chunk 4)).Answers
      [.error (.missingDeletePayload 3), .ok (some (.delete [98])), .ok (some (.copy 2))]
      (.ok none) ∧
    (halfUndone.under .unchunk).Answers
      [.error (.missingDeletePayload 3), .ok (some (.delete [98])), .ok (some (.copy 2))]
      (.ok none) := by
  obtain ⟨hchunk, -⟩ := Layer.answers_spilling answers_halfUndone (by decide) (.chunk 4)
  obtain ⟨hunchunk, -⟩ := Layer.answers_spilling answers_halfUndone (by decide) .unchunk
  exact ⟨hchunk, hunchunk⟩

/-- What comes out does not add up to what there was. -/
theorem total_halfUndone_ne : ∃ answers, halfUndone.Answers answers (.ok none) ∧
    .ok none ∉ answers ∧
    (∃ out, (halfUndone.under (.chunk 4)).Answers out (.ok none) ∧
      Script.total .insert (given out) ≠ Script.total .insert (given answers)) ∧
    ∃ out, (halfUndone.under .unchunk).Answers out (.ok none) ∧
      Script.total .insert (given out) ≠ Script.total .insert (given answers) := by
  refine ⟨_, answers_halfUndone, by decide,
    ⟨_, Chunk.answers_broken 4 answers_halfUndone (by decide), ?_⟩,
    _, Unchunk.answers_broken answers_halfUndone (by decide), ?_⟩ <;> decide

end Queue

end BytePatch
