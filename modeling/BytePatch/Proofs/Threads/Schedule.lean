import Mathlib.Data.List.Nodup
import BytePatch.Proofs.Stage.Serving
import BytePatch.Proofs.Threads.Dues

/-! Whatever the order in which the threads of a pool go on, a refill comes to what it comes to in
the pool that is told at each look what was found then. -/
namespace BytePatch.Threads

variable {σ : Type}

/-- An entry that a link of the chain stands for. The script of a pair is on its way. -/
def Stands (aligner : Aligner) (dues : List (Nat × Reply)) : Link → Entry → Prop
  | .op a, .single b => a = b
  | .awaited slot, .pair orig target => (slot, aligner.align orig target) ∈ dues
  | _, _ => False

/-- From where the thread that polls is, a refill of the pool comes to a result. -/
def Comes (feed : Feed σ) (dues : List (Nat × Reply)) (pool : Pool) (buffers : Buffers) (s : σ)
    (result : Except Fault Unit × Pool × Buffers × σ) : Control → Prop
  | .checking | .looking => pool.shift feed buffers s = result
  | .giving => Pool.take feed (pool.serve feed buffers s) = result
  | .submitting job =>
    Pool.shift feed { pool with chain := pool.chain ++ [.pair job.orig job.target] }
      { buffers with pending := buffers.pending.drop 2 } s = result
  | .popping | .joining (.ok ()) => Pool.take feed (.ok (), pool, buffers, s) = result
  | .receiving slot => ∃ orig target, (slot, pool.aligner.align orig target) ∈ dues ∧
    pool.answered feed (pool.aligner.align orig target) buffers s = result
  | .joining (.error fault) => (.error fault, pool, buffers, s) = result
  | .returned answer => (answer, pool, buffers, s) = result

/-- The pool with the given schedule after so many looks. -/
def pool (t : Threads σ) (early : Nat → Bool) (looks : Nat) (chain : List Entry) : Pool :=
  ⟨t.aligner, t.workers.length, early, looks, chain, t.isOpen, t.cancelled⟩

/-- The threads are on their way to what a refill of the pool comes to. -/
def Leads (feed : Feed σ) (early : Nat → Bool) (looks : Nat) (t : Threads σ)
    (result : Except Fault Unit × Pool × Buffers × σ) : Prop :=
  ∃ entries, List.Forall₂ (Stands t.aligner t.dues) t.chain entries ∧
    Comes feed t.dues (t.pool early looks entries) t.buffers t.below result t.control

/-- What is about to be found by a look at the workers. A closed pool does not look. -/
def look? (t : Threads σ) : Option Bool :=
  match t.control with
  | .looking => if t.isOpen then some (t.busy < t.workers.length) else none
  | _ => none

private theorem look?_eq_none {t : Threads σ} (h : t.control ≠ .looking ∨ t.isOpen = false) :
    t.look? = none := by
  rw [look?]
  split
  · next hc => rw [h.resolve_left (fun hne => hne hc), if_neg Bool.false_ne_true]
  · rfl

private theorem look?_eq_some {t : Threads σ} (hc : t.control = .looking)
    (hopen : t.isOpen = true) : t.look? = some (decide (t.busy < t.workers.length)) := by
  rw [look?, hc]
  exact if_pos hopen

section Work

variable {t t' : Threads σ} {worker worker' : Worker} {front back : List Worker}

/-- No answer gets lost, or becomes another, unless a job is refused. -/
theorem dues_work (h : t.Sound)
    (hgoing : ∀ graph? job, worker = .working graph? job → t.cancelled = false)
    (hs : Works t worker t' worker') (hw : t.workers = front ++ worker :: back) :
    ({ t' with workers := front ++ worker' :: back } : Threads σ).dues.Perm t.dues := by
  classical
  rw [List.perm_iff_count]
  intro due
  cases hs with
  | take hj => simp [dues, hw, hj, List.filterMap_cons, List.count_cons]; omega
  | leave => simp [dues, hw, List.filterMap_cons]
  | refuse hc =>
    rw [hgoing _ _ rfl] at hc
    cases hc
  | @compare graph? job reply graph _ hr =>
    have hmade := ((graph?.getD (.new t.aligner)).align_eq job.orig job.target).1
    have haligner : (graph?.getD (.new t.aligner)).aligner = t.aligner := by
      cases graph? with
      | none => rfl
      | some graph => exact h.fitted (.working (some graph) job) (by simp [hw]) graph rfl
    rw [hr, haligner] at hmade
    have hdue : job.due t.aligner = (job.slot, reply) := by rw [Job.due, ← hmade]
    simp [dues, hw, hdue]
  | finish => simp [dues, hw]
  | reply => simp [dues, hw, List.filterMap_cons, List.count_cons]; omega

private theorem Stands.mono {aligner : Aligner} {dues dues' : List (Nat × Reply)}
    (h : ∀ due ∈ dues, due ∈ dues') {link : Link} {entry : Entry}
    (hs : Stands aligner dues link entry) : Stands aligner dues' link entry := by
  cases link <;> cases entry <;> first | exact hs | exact h _ hs

private theorem Comes.mono {feed : Feed σ} {dues dues' : List (Nat × Reply)}
    (h : ∀ due ∈ dues, due ∈ dues') {pool : Pool} {buffers : Buffers} {s : σ}
    {result : Except Fault Unit × Pool × Buffers × σ} {control : Control}
    (hc : Comes feed dues pool buffers s result control) :
    Comes feed dues' pool buffers s result control := by
  cases control with
  | receiving slot =>
    obtain ⟨orig, target, hm, heq⟩ := hc
    exact ⟨orig, target, h _ hm, heq⟩
  | joining answer => cases answer <;> exact hc
  | _ => exact hc

private theorem Leads.apart {feed : Feed σ} {early : Nat → Bool} {looks : Nat}
    {result : Except Fault Unit × Pool × Buffers × σ} (ha : Apart t t')
    (hlen : t'.workers.length = t.workers.length) (hdues : ∀ due ∈ t.dues, due ∈ t'.dues)
    (hl : t.Leads feed early looks result) : t'.Leads feed early looks result := by
  obtain ⟨entries, hstands, hcomes⟩ := hl
  have hpool : t'.pool early looks entries = t.pool early looks entries := by
    rw [pool, ha.aligner, hlen, ha.isOpen, ha.cancelled, pool]
  refine ⟨entries, ?_, ?_⟩
  · rw [ha.chain, ha.aligner]
    exact hstands.imp fun _ _ => Stands.mono hdues
  · rw [hpool, ha.control, ha.buffers, ha.below]
    exact hcomes.mono hdues

theorem Leads.work {feed : Feed σ} {early : Nat → Bool} {looks : Nat}
    {result : Except Fault Unit × Pool × Buffers × σ} (h : t.Sound) (hgoing : t.cancelled = false)
    (hs : Works t worker t' worker') (hw : t.workers = front ++ worker :: back)
    (hl : t.Leads feed early looks result) :
    Leads feed early looks { t' with workers := front ++ worker' :: back } result :=
  hl.apart (hs.apart _) (by simp [hw]) fun _ => (dues_work h (fun _ _ _ => hgoing) hs hw).mem_iff.2

end Work

section Poll

variable {feed : Feed σ} {early : Nat → Bool} {looks : Nat} {t t' : Threads σ}
  {result : Except Fault Unit × Pool × Buffers × σ}

private theorem countP_isPair {aligner : Aligner} {dues : List (Nat × Reply)} {chain : List Link}
    {entries : List Entry} (h : List.Forall₂ (Stands aligner dues) chain entries) :
    entries.countP Entry.isPair = (chain.filterMap Link.slot?).length := by
  induction h with
  | nil => rfl
  | @cons link entry chain entries hs _ ih =>
    cases link <;> cases entry <;>
      simp_all [Stands, Entry.isPair, Link.slot?, List.filterMap_cons, List.countP_cons]

private theorem idle_eq (h : t.Sound) (hc : t.control = .looking) (hopen : t.isOpen = true)
    (hearly : ∀ found, t.look? = some found → early looks = found) {entries : List Entry}
    (hstands : List.Forall₂ (Stands t.aligner t.dues) t.chain entries) :
    (t.pool early looks entries).idle = decide (t.busy < t.workers.length) := by
  have hfound := hearly _ (look?_eq_some hc hopen)
  have hpairs := countP_isPair hstands
  have hbusy := h.busy_le
  simp only [awaited, hc, Control.slot?, Control.unsent, Option.toList_none,
    List.nil_append] at hbusy
  simp only [Pool.idle, pool, hfound]
  by_cases hb : t.busy < t.workers.length
  · simp [hb]
  · -- Each busy worker has its pair in the chain, so the pool does not find one idle by itself.
    have hqueued : ¬ entries.countP Entry.isPair < t.workers.length := by omega
    simp [hb, hqueued]

private theorem stands_of_awaited {aligner : Aligner} {dues dues' : List (Nat × Reply)}
    {chain : List Link} {entries : List Entry}
    (h : ∀ due ∈ dues, due.1 ∈ chain.filterMap Link.slot? → due ∈ dues')
    (hs : List.Forall₂ (Stands aligner dues) chain entries) :
    List.Forall₂ (Stands aligner dues') chain entries := by
  induction hs with
  | nil => exact .nil
  | @cons link entry chain entries hlink _ ih =>
    refine .cons ?_ (ih fun due hm hslot => h due hm ?_)
    · cases link <;> cases entry <;> first
        | exact hlink
        | exact h _ hlink (by simp [Link.slot?])
    · obtain ⟨awaited, hmem, heq⟩ := List.mem_filterMap.1 hslot
      exact List.mem_filterMap.2 ⟨awaited, List.mem_cons_of_mem _ hmem, heq⟩

private theorem collected (h : t.Sound) {slot : Nat} (hc : t.control = .receiving slot)
    {reply : Reply} {front back : List (Nat × Reply)}
    (hr : t.replies = front ++ (slot, reply) :: back) :
    (∀ due, (slot, due) ∈ t.dues → due = reply) ∧
      ∀ due ∈ t.dues, due.1 ∈ t.chain.filterMap Link.slot? →
        due ∈ ({ t with replies := front ++ back } : Threads σ).dues := by
  have hnodup := h.owed.nodup_iff.2 h.nodup
  have haw := h.nodup
  have hdue : (slot, reply) ∈ t.dues := by simp [dues, hr]
  refine ⟨fun due hm => ?_, fun due hm hslot => ?_⟩
  · -- No two answers are due on one channel.
    exact congrArg Prod.snd (List.inj_on_of_nodup_map hnodup hm hdue rfl)
  · rw [awaited, hc] at haw
    have hne : due.1 ≠ slot := fun heq => (List.nodup_cons.1 haw).1 (heq ▸ hslot)
    have hne : due ≠ (slot, reply) := fun heq => hne (congrArg Prod.fst heq)
    simp only [dues, hr, List.mem_append, List.mem_cons] at hm ⊢
    tauto

private theorem Leads.poll_of_ne (h : t.Sound) (hgoing : t.cancelled = false) (hs : Polls feed t t')
    (hne : t.control ≠ .looking) (hl : t.Leads feed early looks result) :
    t'.Leads feed early looks result := by
  obtain ⟨entries, hstands, hcomes⟩ := hl
  cases hs with
  | cancel hc hk => rw [hgoing] at hk; cases hk
  | spare hc _ _ => exact absurd hc hne
  | enough hc _ => exact absurd hc hne
  | proceed hc _ =>
    rw [hc] at hcomes
    exact ⟨entries, hstands, hcomes⟩
  | fail hc hr =>
    rw [hc, Comes, Pool.serve, hr] at hcomes
    exact ⟨entries, hstands, hcomes⟩
  | @close pending below hc hr =>
    rw [hc, Comes, Pool.serve, hr] at hcomes
    have hpending : List.Forall₂ (Stands t.aligner t.dues) (pending.map .op)
        (pending.map .single) := by
      simp [Stands, List.forall₂_same]
    exact ⟨_, List.rel_append hstands hpending, hcomes⟩
  | @single a b pending below hc hr hp =>
    rw [hc, Comes, Pool.serve, hr] at hcomes
    simp only [Pool.enqueue, hp] at hcomes
    have hop : List.Forall₂ (Stands t.aligner t.dues) [.op a] [.single a] := .cons rfl .nil
    exact ⟨_, List.rel_append hstands hop, (Pool.shift_eq_take feed _ _ _).trans hcomes⟩
  | count hc hr hp =>
    rw [hc, Comes, Pool.serve, hr] at hcomes
    simp only [Pool.enqueue, hp] at hcomes
    exact ⟨entries, hstands, (Pool.shift_eq_take feed _ _ _).trans hcomes⟩
  | @submit job hc =>
    rw [hc, Comes] at hcomes
    have hkept : ∀ due ∈ t.dues, due ∈ ({ t with jobs := t.jobs ++ [job] } : Threads σ).dues := by
      intro due hm
      simp only [dues, List.map_append, List.mem_append] at hm ⊢
      tauto
    have hpair : List.Forall₂
        (Stands t.aligner ({ t with jobs := t.jobs ++ [job] } : Threads σ).dues)
        [.awaited job.slot] [.pair job.orig job.target] :=
      .cons (by simp [Stands, dues, Job.due]) .nil
    exact ⟨_, List.rel_append (hstands.imp fun _ _ => Stands.mono hkept) hpair, hcomes⟩
  | dry hc hchain =>
    rw [hc, Comes] at hcomes
    rw [hchain] at hstands
    cases hstands
    exact ⟨[], by rw [hchain]; exact .nil, hcomes⟩
  | pop hc hchain =>
    rw [hc, Comes] at hcomes
    rw [hchain] at hstands
    obtain _ | @⟨_, entry, _, rest, hentry, hrest⟩ := hstands
    cases entry with
    | pair orig target => exact hentry.elim
    | single op =>
      cases hentry
      exact ⟨rest, hrest, hcomes⟩
  | await hc hchain =>
    rw [hc, Comes] at hcomes
    rw [hchain] at hstands
    obtain _ | @⟨_, entry, _, rest, hentry, hrest⟩ := hstands
    cases entry with
    | single op => exact hentry.elim
    | pair orig target => exact ⟨rest, hrest, orig, target, hentry, hcomes⟩
  | @receive slot reply front back hc hr =>
    rw [hc] at hcomes
    obtain ⟨orig, target, hdue, hcomes⟩ := hcomes
    obtain ⟨hreply, hkept⟩ := collected h hc hr
    have hanswer : (t.pool early looks entries).answered feed reply t.buffers t.below = result := by
      rw [← hreply _ hdue]
      exact hcomes
    have hleft := stands_of_awaited hkept hstands
    cases reply with
    | error fault => exact ⟨entries, hleft, hanswer⟩
    | ok script =>
      by_cases hnil : t.buffers.ready ++ script = []
      · have hbuffers : { t.buffers with ready := t.buffers.ready ++ script } = t.buffers := by
          rw [hnil, ← (List.append_eq_nil_iff.1 hnil).1]
        simp only [Pool.answered, if_pos hnil] at hanswer
        simp only [answered, if_pos hnil, hbuffers]
        exact ⟨entries, hleft, hanswer⟩
      · simp only [Pool.answered, if_neg hnil] at hanswer
        simp only [answered, if_neg hnil]
        exact ⟨entries, hleft, hanswer⟩
  | join hc _ =>
    rw [hc] at hcomes
    exact ⟨entries, hstands, hcomes⟩
  | quit hc _ =>
    rw [hc] at hcomes
    exact ⟨entries, hstands, hcomes⟩

private theorem Leads.poll_of_looking (h : t.Sound) (hgoing : t.cancelled = false)
    (hs : Polls feed t t') (hc : t.control = .looking) (hl : t.Leads feed early looks result)
    (hearly : ∀ found, t.look? = some found → early looks = found) :
    t'.Leads feed early (looks + t.look?.toList.length) result := by
  obtain ⟨entries, hstands, hcomes⟩ := hl
  rw [hc, Comes, Pool.shift_eq_take] at hcomes
  cases hs with
  | spare _ hopen hb =>
    have hidle := idle_eq h hc hopen hearly hstands
    rw [Pool.pump_of_idle feed hgoing hopen (by simpa [hb] using hidle)] at hcomes
    rw [look?_eq_some hc hopen]
    exact ⟨entries, hstands, hcomes⟩
  | enough _ hn =>
    by_cases hopen : t.isOpen = true
    · have hidle := idle_eq h hc hopen hearly hstands
      have hb : ¬ t.busy < t.workers.length := fun hb => hn ⟨hopen, hb⟩
      rw [Pool.pump_of_busy feed hgoing hopen (by simpa [hb] using hidle)] at hcomes
      rw [look?_eq_some hc hopen]
      exact ⟨entries, hstands, hcomes⟩
    · have hclosed : t.isOpen = false := by simpa using hopen
      rw [Pool.pump_of_closed feed hgoing hclosed] at hcomes
      rw [look?_eq_none (.inr hclosed)]
      exact ⟨entries, hstands, hcomes⟩
  | _ => simp_all

theorem Leads.poll (h : t.Sound) (hgoing : t.cancelled = false) (hs : Polls feed t t')
    (hl : t.Leads feed early looks result)
    (hearly : ∀ found, t.look? = some found → early looks = found) :
    t'.Leads feed early (looks + t.look?.toList.length) result := by
  by_cases hc : t.control = .looking
  · exact hl.poll_of_looking h hgoing hs hc hearly
  · rw [look?_eq_none (.inl hc)]
    exact hl.poll_of_ne h hgoing hs hc

end Poll

end BytePatch.Threads
