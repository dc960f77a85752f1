import BytePatch.Proofs.Pipeline.Completion
import BytePatch.Proofs.Wire.Items

/-! Only valid ops circulate. No source hands out an empty op, no layer makes one, and as long as the
runs that a source has handed out fit into 64 bits together, so does every run that comes out. -/
namespace BytePatch

open Feed (given)

theorem Streams.pos_of_next {streams after : Streams} {ops : Script}
    (h : streams.next = (.ok ops, after)) : ∀ op ∈ ops, 0 < op.run := by
  intro op hop
  unfold next at h
  dsimp only at h
  split at h
  · cases h
  · split at h
    · cases h
    · split at h <;> cases h
      · cases hop
      · exact (Script.mem_replacing hop).1

theorem Decoder.valid_of_next {decoder after : Decoder} {op : Op}
    (h : decoder.next = (.ok (some op), after)) : op.Valid := by
  cases decoder with
  | failed => cases h
  | finished => cases h
  | reading bytes =>
    simp only [next] at h
    split at h <;> cases h
    next rest hd =>
    obtain ⟨item, -, hitem⟩ := Op.exists_item hd
    exact hitem.valid

@[simp] theorem Buffers.append_shiftReady (buffers : Buffers) :
    buffers.shiftReady.2.ready ++ buffers.shiftReady.2.pending =
      buffers.ready ++ buffers.pending := by
  obtain ⟨ready, pending⟩ := buffers
  cases pending <;> simp [shiftReady]

namespace Source

/-- None of the ops in the buffers is empty. -/
def Filled (source : Source) : Prop :=
  ∀ op ∈ source.buffers.ready ++ source.buffers.pending, 0 < op.run

/-- The sources there are: ops that were accepted, offered one by one or listed, two strings, two
streams, and bytes of any kind. -/
inductive Genuine : Source → Prop
  | offered {buffers} : (∀ op ∈ buffers.ready ++ buffers.pending, op.fields.Accepted) →
      Genuine ⟨buffers, .offered⟩
  | list {ops} : (∀ op ∈ ops, op.fields.Accepted) → Genuine (.ofList ops)
  | replacing (orig target) : Genuine (.replacing orig target)
  | comparing (orig target chunk) : Genuine (.comparing orig target chunk)
  | decoding (bytes) : Genuine (.decoding bytes)

theorem Genuine.filled {source : Source} (h : source.Genuine) : source.Filled := by
  cases h with
  | offered h => exact fun op hop => (op.accepted_fields_iff.1 (h op hop)).1
  | list h => exact fun op hop => (op.accepted_fields_iff.1 (h op hop)).1
  | replacing orig target => exact fun op hop => (Script.mem_replacing hop).1
  | comparing orig target chunk => exact nofun
  | decoding bytes => exact nofun

private theorem filled_shift {source : Source} (h : source.Filled) : source.shift.2.Filled := by
  obtain ⟨buffers, origin⟩ := source
  cases origin with
  | offered => simpa [shift, Filled] using h
  | list => simpa [shift, Filled] using h
  | replacement => simpa [shift, Filled] using h
  | encoded decoder =>
    simp only [shift]
    split
    · exact h
    · exact h
    · next op decoder hnext =>
      intro op' hop
      simp only [Buffers.pushReady, List.mem_append, List.mem_singleton] at hop
      rcases hop with (hop | rfl) | hop
      · exact h op' (List.mem_append_left _ hop)
      · exact (Decoder.valid_of_next hnext).1
      · exact h op' (List.mem_append_right _ hop)
  | streams streams =>
    simp only [shift]
    split
    · split
      · exact h
      · next ops streams hnext =>
        intro op hop
        rw [Buffers.append_shiftReady] at hop
        rcases List.mem_append.1 hop with hop | hop
        · exact h op (List.mem_append_left _ hop)
        · exact Streams.pos_of_next hnext op hop
    · simpa [Filled] using h

private theorem filled_poll {source : Source} (h : source.Filled) :
    (∀ op, source.poll.1 = .ok (some op) → 0 < op.run) ∧ source.poll.2.Filled := by
  have pop {source : Source} (h : source.Filled) {op : Op} {ready : List Op}
      (hready : source.buffers.ready = op :: ready) : 0 < op.run ∧
        Filled { source with buffers := { source.buffers with ready } } := by
    rw [Filled, hready] at h
    exact List.forall_mem_cons.1 h
  unfold poll
  split
  · next op ready hready =>
    obtain ⟨hop, hrest⟩ := pop h hready
    exact ⟨fun _ heq => by cases heq; exact hop, hrest⟩
  · have hs := filled_shift h
    split <;> rename_i heq <;> rw [heq] at hs
    · exact ⟨nofun, hs⟩
    · split
      · exact ⟨nofun, hs⟩
      · next op ready hready =>
        obtain ⟨hop, hrest⟩ := pop hs hready
        exact ⟨fun _ heq => by cases heq; exact hop, hrest⟩

theorem Genuine.gives {source : Source} (h : source.Genuine) :
    feed.Gives (fun op => 0 < op.run) source :=
  Feed.gives_of_invariant Filled (fun _ => filled_poll) h.filled

end Source

/-- Ops that are made of given ones. -/
abbrev Op.MadeOf (ops : Script) (op : Op) : Prop :=
  Fields.Made (fun fields => ∃ first ∈ ops, first.fields = fields) op.fields

namespace Pipeline
variable {σ : Type}

/-- Ops that are not empty are all that a stack makes others of, and it checks none of them: each is
of the right shape, and no more comes out than fits. -/
theorem made_of_polls {pipeline : Pipeline} {crews : Nat → Crew} {base : Feed σ} {start : σ}
    {tower : Tower σ} (hraise : pipeline.raise crews start = .ok tower)
    (hpos : base.Gives (fun op => 0 < op.run) start) {answers : List Answer}
    {record : Recorded σ tower.depth}
    (hpolls : (Recorded.feed base tower.depth).Polls (.blank _ tower.stack) answers record)
    (htotal : (given record.baseAnswers).totalRun < UInt64.size) :
    ∀ op ∈ given answers, op.MadeOf (given record.baseAnswers) ∧ op.fields.Accepted := by
  have hlast := (sound_raised base hraise).advances hpolls
  have hgiven := hpos _ _ hlast.sound.polls_base
  have htames := hlast.sound.tames
  rw [hlast.answers_eq, Recorded.answers_blank, List.nil_append] at htames
  have hweight : Script.weight (given record.baseAnswers) < UInt64.size := by
    rwa [Script.weight_eq_totalRun hgiven]
  intro op hop
  have hmade : op.MadeOf (given record.baseAnswers) :=
    htames.made hweight (fun first hfirst => .given ⟨first, hfirst, rfl⟩) op hop
  refine ⟨hmade, op.fields.accepted_iff.2 ⟨?_, hmade.shaped ?_⟩⟩
  · exact Nat.lt_of_le_of_lt (htames.run_le hgiven hop) htotal
  · rintro _ ⟨first, hfirst, rfl⟩
    exact Op.shaped_fields (hgiven first hfirst)

/-- However a stack is polled, whether or not some of the polls fail, every op that comes out of it
was put together from what the source handed out, and would be accepted, as long as the runs that
the source has handed out meanwhile fit into 64 bits. -/
theorem polls_accepted {pipeline : Pipeline} {crews : Nat → Crew} {source : Source} {queue : Queue}
    (hsource : source.Genuine) (hbuild : pipeline.build crews (.ofSource source) = .ok queue)
    {answers : List Answer} {stack : Stack Source queue.depth}
    (hpolls : (Stack.feed Source.base queue.depth).Polls queue.stack answers stack) :
    ∃ record : Recorded Source queue.depth,
      (Recorded.feed Source.feed queue.depth).Polls (.blank _ queue.stack) answers record ∧
      record.stack = stack ∧
      ((given record.baseAnswers).totalRun < UInt64.size → ∀ op ∈ given answers,
        op.MadeOf (given record.baseAnswers) ∧ op.fields.Accepted) := by
  have halike := Recorded.alike_stack Source.base queue.depth
  rw [← Recorded.stack_blank queue.stack] at hpolls
  obtain ⟨record, hrecord, rfl⟩ := halike.exists_polls hpolls
  refine ⟨record, hrecord, rfl, fun htotal => ?_⟩
  rw [build_ofSource] at hbuild
  rcases hraise : pipeline.raise crews source with fault | tower
  · rw [hraise] at hbuild
    cases hbuild
  · rw [hraise] at hbuild
    cases hbuild
    exact made_of_polls hraise hsource.gives hrecord htotal

private abbrev undoing : Pipeline := ⟨[.oneWay, .undo], 4, .inertial, 1, none, .myers⟩

private abbrev unreadable : Answer := .error (.invalidFormat (.unknownOpcode 9))

/-- An op that is read and taken back, and then bytes that are no op. -/
theorem polls_accepted_undone :
    ∃ queue answers,
      undoing.build (fun _ => .ok Pool.lazy) (.ofSource (.decoding [2, 1, 7, 9])) = .ok queue ∧
      answers = [.ok (some (.delete [7])), unreadable] ∧
      ∀ op ∈ given answers, op.MadeOf [.insert [7]] ∧ op.fields.Accepted := by
  have hbuild : undoing.build (fun _ => .ok Pool.lazy) (.ofSource (.decoding [2, 1, 7, 9])) =
      .ok ⟨2, (.new .undo, (.new .forget, .decoding [2, 1, 7, 9]))⟩ := rfl
  have hop : (Stack.feed Source.base 2).poll (.new .undo, (.new .forget, .decoding [2, 1, 7, 9])) =
      (.ok (some (.delete [7])), (.new .undo, (.new .forget, .decoding [9]))) := rfl
  have hfailed : (Stack.feed Source.base 2).poll (.new .undo, (.new .forget, .decoding [9])) =
      (unreadable, (.new .undo, (.new .forget, ⟨.empty, .encoded .failed⟩))) := rfl
  obtain ⟨record, hrecord, -, haccepted⟩ :=
    polls_accepted (.decoding _) hbuild (.cons hop (.single hfailed))
  refine ⟨_, _, hbuild, rfl, ?_⟩
  rcases hrecord with _ | ⟨hfirst, _ | ⟨hsecond, _ | _⟩⟩
  cases hfirst
  cases hsecond
  exact haccepted (by decide)

end Pipeline

end BytePatch
