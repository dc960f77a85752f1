import BytePatch.Proofs.Threads.Account

/-! What can be relied on while a pool is in use, however its threads take turns and whenever someone
cancels: it does not take a pause of its feed's, or of its workers', for the end, and every job has
one answer, which comes out where the pair was. -/
namespace BytePatch.Service

variable {σ : Type}

/-- What holds of a pool in use at any time. -/
structure Orderly (feed : Feed σ) (offers : σ → σ → Prop) (aligner : Aligner) (workers : Nat)
    (s : Service σ) : Prop where
  busy_le : s.threads.busy ≤ workers
  /-- Where work is about to be given, each busy worker has its pair in the chain. -/
  busy_le_chain : s.threads.control = .checking ∨ s.threads.control = .looking →
    s.threads.busy ≤ (s.threads.chain.filterMap Link.slot?).length
  /-- Once work has been given, an empty chain means that all is done. -/
  finished : s.threads.control = .popping → s.threads.chain = [] → s.threads.Finished feed
  /-- A refill that ends with nothing ready, and is not refused, means the same. -/
  ended : ∀ s', Step feed offers s s' → (∀ answer, s.threads.control ≠ .returned answer) →
    s'.threads.control = .returned (.ok ()) → s'.threads.buffers.ready = [] →
      s'.threads.chain = [] ∧ s'.threads.Finished feed
  /-- Jobs are numbered as they are sent, and their channels stand in the chain in this order. -/
  numbered : s.jobs.map Job.slot = List.range s.threads.submitted
  placed : s.queued.filterMap Link.slot? = List.range s.threads.submitted
  /-- What went on the chain comes off in the same order. -/
  inTurn : s.queued = s.came.map Prod.fst ++ s.threads.links
  /-- Every job is answered or still to be answered, and not more than once. -/
  once : (s.sent.map Prod.fst ++ s.threads.unanswered).Perm (List.range s.threads.submitted)
  own : ∀ slot reply, (slot, reply) ∈ s.sent → ∃ job ∈ s.jobs, job.slot = slot ∧
    (reply = aligner.align job.orig job.target ∨
      reply = .error .cancelled ∧ s.threads.cancelled = true)
  /-- An answer that was sent has come off the chain, or waits in a channel of its own. -/
  received : s.sent.Perm (s.came.filterMap Link.answer? ++ s.threads.replies)
  /-- The ops that come out are those of the answers, each where its pair stood. -/
  spliced : s.taken ++ s.threads.buffers.ready = s.came.flatMap (·.2.ops)
  /-- No thread is held up by the record. -/
  free : ∀ t, Threads.Step feed s.threads t → ∃ s', Step feed offers s s' ∧ s'.threads = t
  /-- Until a refill is over, some thread can go on, but not for ever. -/
  goesOn : (∀ answer, s.threads.control ≠ .returned answer) → ∃ t, Threads.Step feed s.threads t
  ends : Acc (fun later earlier => Threads.Step feed earlier later) s.threads
  /-- Once no thread can go on, every job is answered. -/
  answered : (∀ t, ¬ Threads.Step feed s.threads t) →
    (s.sent.map Prod.fst).Perm (List.range s.threads.submitted)

section Reaches

variable {feed : Feed σ} {offers : σ → σ → Prop} {aligner : Aligner} {workers : Nat} {below : σ}
  {s : Service σ}

theorem Reaches.kept (h : Reaches feed offers (new aligner workers below) s) :
    s.threads.aligner = aligner ∧ s.threads.workers.length = workers := by
  induction h with
  | refl => exact ⟨rfl, List.length_replicate⟩
  | tail _ hs ih => exact ⟨hs.keeps.1.trans ih.1, hs.keeps.2.1.trans ih.2⟩

theorem Reaches.accounts (hw : 0 < workers)
    (h : Reaches feed offers (new aligner workers below) s) : s.Accounts := by
  induction h with
  | refl => exact accounts_new aligner workers below
  | tail h hs ih => exact hs.accounts (Reaches.guarded hw h).sound ih

theorem Step.poll_of_returned {s' : Service σ} (hs : Step feed offers s s')
    (hc : ∀ answer, s.threads.control ≠ .returned answer) {answer : Except Fault Unit}
    (hc' : s'.threads.control = .returned answer) : Threads.Polls feed s.threads s'.threads := by
  cases hs with
  | poll _ hs => exact hs
  | receive hc hr => exact .receive hc hr
  | work hw hs => exact absurd ((hs.apart []).control.symm.trans hc') (hc answer)
  | cancel => exact absurd hc' (hc answer)
  | refill hc'' | take hc'' | offer hc'' => exact absurd hc'' (hc _)

end Reaches

/-- However the threads of a pool take turns, and whatever is asked of it in between. -/
theorem orderly_of_reaches (feed : Feed σ) (offers : σ → σ → Prop) (aligner : Aligner)
    {workers : Nat} (hw : 0 < workers) (below : σ) {s : Service σ}
    (h : Reaches feed offers (new aligner workers below) s) :
    s.Orderly feed offers aligner workers := by
  obtain ⟨haligner, hworkers⟩ := Reaches.kept h
  have hguarded := Reaches.guarded hw h
  have haccounts := Reaches.accounts hw h
  have hsound := hguarded.sound
  have honce := haccounts.once hsound
  exact {
    busy_le := hworkers ▸ hguarded.busy_le
    busy_le_chain := hsound.busy_le_chain
    finished := hguarded.finished
    ended := fun s' hs hc hc' hready => hguarded.ended (hs.poll_of_returned hc hc') hc' hready
    numbered := haccounts.numbered
    placed := haccounts.placed
    inTurn := haccounts.inTurn
    once := honce
    own := fun slot reply hm =>
      haligner ▸ haccounts.own (slot, reply) (List.mem_append_left _ hm)
    received := haccounts.received
    spliced := haccounts.spliced
    free := fun t hs => exists_step_of_threads offers hs
    goesOn := hsound.exists_step
    ends := hsound.acc feed
    answered := fun hstuck => by
      rwa [hsound.unanswered_eq_nil hstuck, List.append_nil] at honce }

/-- A single worker has taken a pair when someone cancels. The worker refuses the job, and the refill
that waits for it fails with that. -/
theorem orderly_of_reaches_cancelled : ∃ aligner s, Aligner.forChunk 4 .edit = .ok aligner ∧
    Reaches Source.feed (fun _ _ => False)
      (new aligner 1 (.ofList [.delete [1], .insert [2], .copy 3])) s ∧
    s.threads.control = .returned (.error .cancelled) ∧ s.sent = [(0, .error .cancelled)] ∧
    s.came = [(.awaited 0, .error .cancelled)] ∧
    s.Orderly Source.feed (fun _ _ => False) aligner 1 := by
  have start : Reaches Source.feed (fun _ _ => False)
      (new ⟨Method.edit.strategyWith .myers, 25⟩ 1
        (.ofList [.delete [1], .insert [2], .copy 3])) _ := .refl
  have looked := (start.tail (.refill rfl)).tail (.poll nofun (.proceed rfl rfl))
  have spared := looked.tail (.poll nofun (.spare rfl rfl (by decide)))
  have counted := spared.tail (.poll nofun (.count rfl (Source.require_pair _ _ _) rfl))
  have submitted := counted.tail (.poll nofun (.submit rfl))
  have taken := submitted.tail (.work (show _ = [] ++ _ :: [] from rfl) (.take rfl))
  have cancelled := taken.tail .cancel
  have refused := cancelled.tail (.work (show _ = [] ++ _ :: [] from rfl) (.refuse rfl))
  have awaited := (refused.tail (.poll nofun (.enough rfl (by decide)))).tail
    (.poll nofun (.await rfl rfl))
  have finished := awaited.tail (.work (show _ = [] ++ _ :: [] from rfl) .finish)
  have replied := finished.tail (.work (show _ = [] ++ _ :: [] from rfl) .reply)
  have received := replied.tail (.receive rfl (show _ = [] ++ _ :: [] from rfl))
  exact ⟨_, _, rfl, received, rfl, rfl, rfl, orderly_of_reaches _ _ _ (by decide) _ received⟩

end BytePatch.Service
