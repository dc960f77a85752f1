import BytePatch.Proofs.Queue.Records
import BytePatch.Proofs.Queue.Recovery

/-! Pumps polled, refilled, asked for all their ops and made to hand them out again, in any order,
above a feed that may fail and go on. What is handed out is always the beginning of one and the same
script, and once that is known nothing below is polled any more. -/
namespace BytePatch

variable {σ τ : Type}

namespace Feed

/-- All ops that the feed gives before it has nothing more for the first time, if it is polled on
whenever it fails. -/
inductive Unfolds (feed : Feed σ) : σ → List Op → Prop
  | dry {s s'} : feed.poll s = (.ok none, s') → Unfolds feed s []
  | failed {s s' fault ops} : feed.poll s = (.error fault, s') → Unfolds feed s' ops →
      Unfolds feed s ops
  | op {s s' op ops} : feed.poll s = (.ok (some op), s') → Unfolds feed s' ops →
      Unfolds feed s (op :: ops)

variable {feed : Feed σ} {s s' : σ}

theorem Unfolds.unique {ops ops' : List Op} (h : feed.Unfolds s ops) (h' : feed.Unfolds s ops') :
    ops = ops' := by
  induction h generalizing ops' with
  | dry hp =>
    cases h' with
    | dry => rfl
    | failed hp' | op hp' => cases hp.symm.trans hp'
  | failed hp _ ih =>
    cases h' with
    | failed hp' hrest =>
      cases hp.symm.trans hp'
      exact ih hrest
    | dry hp' | op hp' => cases hp.symm.trans hp'
  | op hp _ ih =>
    cases h' with
    | op hp' hrest =>
      cases hp.symm.trans hp'
      exact congrArg _ (ih hrest)
    | dry hp' | failed hp' => cases hp.symm.trans hp'

/-- The ops are the first ones that the feed gives from the one state on, and the others are those
it gives from the other state on. -/
def Leads (feed : Feed σ) (s : σ) (ops : List Op) (s' : σ) : Prop :=
  ∀ rest, feed.Unfolds s' rest → feed.Unfolds s (ops ++ rest)

theorem leads_nil (feed : Feed σ) (s : σ) : feed.Leads s [] s := fun _ => id

theorem Leads.trans {s'' : σ} {xs ys : List Op} (h : feed.Leads s xs s')
    (h' : feed.Leads s' ys s'') : feed.Leads s (xs ++ ys) s'' := fun rest hrest =>
  List.append_assoc xs ys rest ▸ h _ (h' rest hrest)

private theorem consume_unfolds (feed : Feed σ) (kept : List Op) (s : σ) :
    match feed.consume keepAll kept s with
    | (.done b, _) => b.elim
    | (.dry all, _) => ∃ ops, all = ops.reverse ++ kept ∧ feed.Unfolds s ops
    | (.failed _ all, s') => ∃ ops, all = ops.reverse ++ kept ∧ feed.Leads s ops s' := by
  induction kept, s using Feed.consume.induct feed keepAll with
  | case1 kept s fault s' hp =>
    rw [consume_failed hp]
    exact ⟨[], rfl, fun _ hrest => .failed hp hrest⟩
  | case2 kept s s' hp =>
    rw [consume_dry hp]
    exact ⟨[], rfl, .dry hp⟩
  | case3 kept s op s' hp b hb => exact b.elim
  | case4 kept s op s' hp kept' hm ih =>
    rw [consume_more hp hm]
    cases hm
    generalize feed.consume keepAll (op :: kept) s' = result at ih
    obtain ⟨b | all | ⟨fault, all⟩, last⟩ := result
    · exact b.elim
    · obtain ⟨ops, hall, hops⟩ := ih
      exact ⟨op :: ops, by simp [hall], .op hp hops⟩
    · obtain ⟨ops, hall, hops⟩ := ih
      exact ⟨op :: ops, by simp [hall], fun rest hrest => .op hp (hops rest hrest)⟩

/-- A drain takes all ops there are, or the first ones of them up to a failure. -/
theorem drain_unfolds (feed : Feed σ) (s : σ) :
    match feed.drain s with
    | (.ok (), ops, _) => feed.Unfolds s ops
    | (.error _, ops, s') => feed.Leads s ops s' := by
  have key := feed.consume_unfolds [] s
  unfold drain
  generalize feed.consume keepAll [] s = result at key
  obtain ⟨b | all | ⟨fault, all⟩, s'⟩ := result
  · exact b.elim
  · obtain ⟨ops, rfl, hops⟩ := key
    simpa using hops
  · obtain ⟨ops, rfl, hops⟩ := key
    simpa using hops

theorem failures_poll {state after : σ × List Answer} {answer : Answer}
    (h : feed.recorded.poll state = (answer, after)) :
    failures after.2 = failures state.2 ++ failures [answer] := by
  cases h
  exact failures_append state.2 [(feed.poll state.1).1]

private theorem failures_consume (feed : Feed σ) (kept : List Op) (state : σ × List Answer) :
    match feed.recorded.consume keepAll kept state with
    | (.done b, _) => b.elim
    | (.dry _, after) => failures after.2 = failures state.2
    | (.failed fault _, after) => failures after.2 = failures state.2 ++ [fault] := by
  induction kept, state using Feed.consume.induct feed.recorded keepAll with
  | case1 kept state fault after hp =>
    rw [consume_failed hp]
    exact failures_poll hp
  | case2 kept state after hp =>
    rw [consume_dry hp]
    simpa using failures_poll hp
  | case3 kept state op after hp b hb => exact b.elim
  | case4 kept state op after hp kept' hm ih =>
    rw [consume_more hp hm]
    have hsame : failures after.2 = failures state.2 := by simpa using failures_poll hp
    rwa [hsame] at ih

theorem failures_drain (feed : Feed σ) (state : σ × List Answer) :
    match feed.recorded.drain state with
    | (.ok (), _, after) => failures after.2 = failures state.2
    | (.error fault, _, after) => failures after.2 = failures state.2 ++ [fault] := by
  have key := feed.failures_consume [] state
  unfold drain
  generalize feed.recorded.consume keepAll [] state = result at key
  obtain ⟨b | all | ⟨fault, all⟩, after⟩ := result
  · exact b.elim
  · exact key
  · exact key

end Feed

namespace Layer

/-- All ops of a pump, which drains what is below it if it has not yet. -/
def ops (below : Feed σ) : Layer × σ → Except Fault (List Op) × Layer × σ
  | (⟨buffers, .pump pump⟩, s) =>
    let (answer, pump, s) := pump.fill below s
    (answer.map fun () => pump.ops, ⟨buffers, .pump pump⟩, s)
  | state => (.ok [], state)

/-- Hand the ops of a pump out again from the first on. -/
def replay : Layer → Layer
  | ⟨buffers, .pump pump⟩ => ⟨{ buffers with ready := [] }, .pump pump.rewound⟩
  | layer => layer

end Layer

namespace Pump

/-- What can be asked of a pump. -/
inductive Request where
  | poll
  | shift
  | ops
  | replay
deriving DecidableEq

inductive Reply where
  | polled (answer : Answer)
  | shifted (answer : Except Fault Unit)
  | listed (answer : Except Fault (List Op))
  | replayed

namespace Reply

/-- The request did not fail, and it was no mere replay. -/
def Served : Reply → Prop
  | .polled (.ok _) | .shifted (.ok _) | .listed (.ok _) => True
  | _ => False

/-- Why the request failed, if it did. -/
def fault? : Reply → Option Fault
  | .polled (.error fault) | .shifted (.error fault) | .listed (.error fault) => some fault
  | _ => none

/-- What has come out since the ops were last handed out from the first on. -/
def emit (out : Script) : Reply → Script
  | .polled (.ok (some op)) => out ++ [op]
  | .replayed => []
  | _ => out

def emitted (replies : List Reply) : Script := replies.foldl emit []

@[simp] theorem emitted_concat (replies : List Reply) (reply : Reply) :
    emitted (replies ++ [reply]) = reply.emit (emitted replies) := by
  simp [emitted]

theorem emitted_eq_nil {replies : List Reply} (h : ∀ reply ∈ replies, ¬ reply.Served) :
    emitted replies = [] := by
  unfold emitted
  induction replies with
  | nil => rfl
  | cons reply replies ih =>
    have hfirst : reply.emit [] = [] := by
      have hreply := h reply List.mem_cons_self
      rcases reply with (fault | - | op) | _ | _ | _
      · rfl
      · rfl
      · exact absurd trivial hreply
      · rfl
      · rfl
      · rfl
    rw [List.foldl_cons, hfirst]
    exact ih fun other hm => h other (List.mem_cons_of_mem _ hm)

end Reply

def serve (below : Feed σ) (state : Layer × σ) : Request → Reply × Layer × σ
  | .poll => let (answer, state) := Layer.poll below state; (.polled answer, state)
  | .shift => let (answer, state) := Layer.shift below state.1 state.2; (.shifted answer, state)
  | .ops => let (answer, state) := Layer.ops below state; (.listed answer, state)
  | .replay => (.replayed, state.1.replay, state.2)

/-- Requests one after another, with the replies to all of them. -/
def run (below : Feed σ) : List Request → Layer × σ → List Reply × Layer × σ
  | [], state => ([], state)
  | first :: requests, state =>
    let (reply, state) := serve below state first
    let (replies, state) := run below requests state
    (reply :: replies, state)

open Feed (failures)

/-- Feeds that answer alike cannot be told apart by what a pump above them replies. -/
theorem serve_alike {f : σ → τ} {feed : Feed σ} {feed' : Feed τ} (h : Feed.Alike f feed feed')
    (layer : Layer) (s : σ) (first : Request) :
    serve feed' (layer, f s) first =
      ((serve feed (layer, s) first).1, viewed f (serve feed (layer, s) first).2) := by
  cases first with
  | poll =>
    have hpoll : Layer.poll feed' (layer, f s) = _ := Layer.feed_alike h (layer, s)
    simp only [serve, hpoll]
    rfl
  | shift => simp only [serve, Layer.shift_alike h, viewed]
  | ops =>
    obtain ⟨buffers, work⟩ := layer
    cases work with
    | pump pump => simp only [serve, Layer.ops, fill_alike h]; rfl
    | _ => rfl
  | replay => rfl

theorem run_alike {f : σ → τ} {feed : Feed σ} {feed' : Feed τ} (h : Feed.Alike f feed feed')
    (requests : List Request) (layer : Layer) (s : σ) :
    run feed' requests (layer, f s) =
      ((run feed requests (layer, s)).1, viewed f (run feed requests (layer, s)).2) := by
  induction requests generalizing layer s with
  | nil => rfl
  | cons first requests ih =>
    simp only [run, serve_alike h, viewed, ih]

section Filling
variable {below : Feed σ} {pump pump' : Pump} {s s' : σ} {first : Request}

private theorem serve_filled (hfill : pump.fill below s = (.ok (), pump', s'))
    (hfirst : first ≠ .replay) :
    serve below (.new (.pump pump), s) first = serve below (.new (.pump pump'), s') first := by
  have hagain := fill_again hfill
  cases first with
  | poll => simp only [serve, Layer.poll_pump_filled hfill]
  | shift => simp only [serve, Layer.new, Layer.shift, shift, hfill, hagain]
  | ops => simp only [serve, Layer.new, Layer.ops, hfill, hagain]
  | replay => exact absurd rfl hfirst

private theorem serve_unfilled {fault : Fault}
    (hfill : pump.fill below s = (.error fault, pump', s')) (hfirst : first ≠ .replay) :
    ∃ reply, serve below (.new (.pump pump), s) first = (reply, .new (.pump pump'), s') ∧
      ¬ reply.Served := by
  cases first with
  | poll =>
    refine ⟨.polled (.error fault), ?_, id⟩
    simp only [serve, Layer.poll_pump_failed hfill]
  | shift =>
    refine ⟨.shifted (.error fault), ?_, id⟩
    simp only [serve, Layer.new, Layer.shift, shift, hfill]
  | ops =>
    refine ⟨.listed (.error fault), ?_, id⟩
    simp only [serve, Layer.new, Layer.ops, hfill, Except.map]
  | replay => exact absurd rfl hfirst

end Filling

section Failures
variable (below : Feed σ)

private theorem failures_fill (pump : Pump) (state : σ × List Answer) :
    match pump.fill below.recorded state with
    | (.ok (), _, after) => failures after.2 = failures state.2
    | (.error fault, _, after) => failures after.2 = failures state.2 ++ [fault] := by
  by_cases hdrained : pump.drained = true
  · rw [fill, if_pos hdrained]
  · have key := below.failures_drain state
    rw [fill, if_neg hdrained]
    generalize below.recorded.drain state = result at key
    obtain ⟨fault | _, ops, after⟩ := result
    · exact key
    · exact key

private theorem failures_shift (pump : Pump) (buffers : Buffers) (state : σ × List Answer) :
    match pump.shift below.recorded buffers state with
    | (.ok (), _, _, after) => failures after.2 = failures state.2
    | (.error fault, _, _, after) => failures after.2 = failures state.2 ++ [fault] := by
  have key := failures_fill below pump state
  unfold shift
  generalize pump.fill below.recorded state = result at key
  obtain ⟨fault | _, ⟨passed, coming, drained⟩, after⟩ := result
  · exact key
  · cases coming with
    | nil => exact key
    | cons op coming => exact key

/-- A request of a pump fails only as a poll below it does, and then no other poll has failed. -/
theorem failures_serve (pump : Pump) (buffers : Buffers) (state : σ × List Answer)
    (first : Request) : ∃ reply buffers' pump' after,
      serve below.recorded (⟨buffers, .pump pump⟩, state) first =
        (reply, ⟨buffers', .pump pump'⟩, after) ∧
      failures after.2 = failures state.2 ++ reply.fault?.toList := by
  cases first with
  | poll =>
    obtain ⟨ready, pending⟩ := buffers
    cases ready with
    | cons op ready => exact ⟨_, _, _, _, rfl, by simp [Reply.fault?]⟩
    | nil =>
      have key := failures_shift below pump ⟨[], pending⟩ state
      simp only [serve, Layer.poll, Layer.shift]
      generalize pump.shift below.recorded ⟨[], pending⟩ state = result at key
      obtain ⟨fault | _, pump', ⟨ready, pending'⟩, after⟩ := result
      · exact ⟨_, _, _, _, rfl, key⟩
      · cases ready with
        | nil => exact ⟨_, _, _, _, rfl, by simpa [Reply.fault?] using key⟩
        | cons op ready => exact ⟨_, _, _, _, rfl, by simpa [Reply.fault?] using key⟩
  | shift =>
    have key := failures_shift below pump buffers state
    simp only [serve, Layer.shift]
    generalize pump.shift below.recorded buffers state = result at key
    obtain ⟨fault | _, pump', buffers', after⟩ := result
    · exact ⟨_, _, _, _, rfl, key⟩
    · exact ⟨_, _, _, _, rfl, by simpa [Reply.fault?] using key⟩
  | ops =>
    have key := failures_fill below pump state
    simp only [serve, Layer.ops]
    generalize pump.fill below.recorded state = result at key
    obtain ⟨fault | _, pump', after⟩ := result
    · exact ⟨_, _, _, _, rfl, key⟩
    · exact ⟨_, _, _, _, rfl, by simpa [Reply.fault?, Except.map] using key⟩
  | replay => exact ⟨_, _, _, _, rfl, by simp [Reply.fault?]⟩

theorem failures_run (requests : List Request) (pump : Pump) (buffers : Buffers)
    (state : σ × List Answer) :
    failures (run below.recorded requests (⟨buffers, .pump pump⟩, state)).2.2.2 =
      failures state.2 ++
        (run below.recorded requests (⟨buffers, .pump pump⟩, state)).1.filterMap Reply.fault? := by
  induction requests generalizing pump buffers state with
  | nil => simp [run]
  | cons first requests ih =>
    obtain ⟨reply, buffers', pump', after, hserve, hreply⟩ :=
      failures_serve below pump buffers state first
    simp only [run, hserve, ih, hreply, List.append_assoc, List.filterMap_cons]
    cases reply.fault? with
    | none => rfl
    | some fault => rfl

end Failures

/-- What has come of the requests so far. Until one has been served, the pump holds the first ops of
what is below it, and nothing has come out. From then on it holds them all, and those that it has
handed out have come out since or are still ready. -/
inductive Stands (below : Feed σ) (start : σ) (replies : List Reply) : Layer × σ → Prop
  | filling {coming : List Op} {s : σ} : (∀ reply ∈ replies, ¬ reply.Served) →
    below.Leads start coming s →
    Stands below start replies (.new (.pump ⟨[], coming, false⟩), s)
  | filled {ready passed coming : List Op} {s : σ} :
    passed.reverse = Reply.emitted replies ++ ready →
    below.Unfolds start (passed.reverse ++ coming) →
    Stands below start replies (⟨⟨ready, []⟩, .pump ⟨passed, coming, true⟩⟩, s)

section Stands
variable {below : Feed σ} {start s s' : σ} {coming : List Op} {pump' : Pump} {replies : List Reply}

private theorem fill_leads (h : below.Leads start coming s) :
    match fill below ⟨[], coming, false⟩ s with
    | (.ok (), pump', _) => ∃ all, pump' = ⟨[], all, true⟩ ∧ below.Unfolds start all
    | (.error _, pump', s') => ∃ more, pump' = ⟨[], more, false⟩ ∧ below.Leads start more s' := by
  have key := below.drain_unfolds s
  simp only [fill, Bool.false_eq_true, if_false]
  generalize below.drain s = result at key
  obtain ⟨fault | _, ops, s'⟩ := result
  · exact ⟨_, rfl, h.trans key⟩
  · exact ⟨_, rfl, h _ key⟩

theorem Stands.replay {state : Layer × σ} (h : Stands below start replies state) :
    Stands below start (replies ++ [.replayed]) (state.1.replay, state.2) := by
  cases h with
  | filling hnone hleads =>
    exact .filling (List.forall_mem_append.2 ⟨hnone, List.forall_mem_singleton.2 id⟩) hleads
  | filled hready hall =>
    refine .filled ?_ hall
    rw [Reply.emitted_concat]
    rfl

private theorem stands_filled {ready passed : List Op} (first : Request)
    (hready : passed.reverse = Reply.emitted replies ++ ready)
    (hall : below.Unfolds start (passed.reverse ++ coming)) :
    ∃ reply layer, serve below (⟨⟨ready, []⟩, .pump ⟨passed, coming, true⟩⟩, s) first =
        (reply, layer, s) ∧ Stands below start (replies ++ [reply]) (layer, s) := by
  have hstands : Stands below start replies (⟨⟨ready, []⟩, .pump ⟨passed, coming, true⟩⟩, s) :=
    .filled hready hall
  cases first with
  | replay => exact ⟨_, _, rfl, hstands.replay⟩
  | ops => exact ⟨_, _, rfl, .filled (by rwa [Reply.emitted_concat]) hall⟩
  | shift =>
    cases coming with
    | nil => exact ⟨_, _, rfl, .filled (by rwa [Reply.emitted_concat]) hall⟩
    | cons op coming =>
      refine ⟨_, _, rfl, .filled ?_ (by simpa using hall)⟩
      rw [Reply.emitted_concat, List.reverse_cons, hready, List.append_assoc]
      rfl
  | poll =>
    cases ready with
    | cons op ready =>
      refine ⟨_, _, rfl, .filled ?_ hall⟩
      rw [Reply.emitted_concat, hready]
      exact (List.append_assoc _ [op] ready).symm
    | nil =>
      cases coming with
      | nil => exact ⟨_, _, rfl, .filled (by rwa [Reply.emitted_concat]) hall⟩
      | cons op coming =>
        refine ⟨_, _, rfl, .filled ?_ (by simpa using hall)⟩
        rw [Reply.emitted_concat, List.reverse_cons, hready, List.append_nil]
        exact (List.append_nil _).symm

private theorem Stands.fails_or_filled {state : Layer × σ} (h : Stands below start replies state)
    (first : Request) (hfirst : first ≠ .replay) :
    (¬ (serve below state first).1.Served ∧
      Stands below start (replies ++ [(serve below state first).1]) (serve below state first).2) ∨
    ∃ ready passed coming s, passed.reverse = Reply.emitted replies ++ ready ∧
      below.Unfolds start (passed.reverse ++ coming) ∧
      serve below state first =
        serve below (⟨⟨ready, []⟩, .pump ⟨passed, coming, true⟩⟩, s) first := by
  cases h with
  | filled hready hall => exact .inr ⟨_, _, _, _, hready, hall, rfl⟩
  | @filling coming s hnone hleads =>
    have key := fill_leads hleads
    generalize hfill : fill below ⟨[], coming, false⟩ s = result at key
    obtain ⟨fault | _, pump', s'⟩ := result
    · obtain ⟨more, rfl, hmore⟩ := key
      obtain ⟨reply, hserve, hreply⟩ := serve_unfilled hfill hfirst
      rw [hserve]
      have hstill := List.forall_mem_append.2 ⟨hnone, List.forall_mem_singleton.2 hreply⟩
      exact .inl ⟨hreply, .filling hstill hmore⟩
    · obtain ⟨all, rfl, hall⟩ := key
      exact .inr ⟨[], [], all, s', by rw [Reply.emitted_eq_nil hnone]; rfl, hall,
        serve_filled hfill hfirst⟩

theorem Stands.serve {state : Layer × σ} (h : Stands below start replies state) (first : Request) :
    Stands below start (replies ++ [(serve below state first).1]) (serve below state first).2 := by
  by_cases hfirst : first = .replay
  · subst hfirst
    exact h.replay
  rcases h.fails_or_filled first hfirst with
    ⟨-, hfailed⟩ | ⟨ready, passed, coming, s, hready, hall, hserve⟩
  · exact hfailed
  · obtain ⟨reply, layer, hreply, hstands⟩ := stands_filled (s := s) first hready hall
    rwa [hserve, hreply]

theorem Stands.run {state : Layer × σ} (h : Stands below start replies state)
    (requests : List Request) :
    Stands below start (replies ++ (run below requests state).1) (run below requests state).2 := by
  induction requests generalizing replies state with
  | nil => simpa [Pump.run] using h
  | cons first requests ih =>
    have := ih (h.serve first)
    rwa [List.append_assoc] at this

/-- What has come out is the beginning of all that there was below, as soon as anything has. -/
theorem Stands.emitted_prefix {state : Layer × σ} (h : Stands below start replies state) :
    Reply.emitted replies = [] ∨
      ∃ ops, below.Unfolds start ops ∧ Reply.emitted replies <+: ops := by
  cases h with
  | filling hnone => exact .inl (Reply.emitted_eq_nil hnone)
  | filled hready hall =>
    refine .inr ⟨_, hall, ?_⟩
    rw [hready, List.append_assoc]
    exact List.prefix_append _ _

/-- A poll finds nothing more only if all of it has come out. -/
theorem Stands.unfolds_of_dry {state : Layer × σ} (h : Stands below start replies state)
    (hdry : (Layer.poll below state).1 = .ok none) :
    below.Unfolds start (Reply.emitted replies) := by
  have hreply : (Pump.serve below state .poll).1 = .polled (.ok none) := congrArg Reply.polled hdry
  rcases h.fails_or_filled .poll nofun with
    ⟨hfailed, -⟩ | ⟨ready, passed, coming, s, hready, hall, hserve⟩
  · rw [hreply] at hfailed
    exact absurd trivial hfailed
  · rw [hserve] at hreply
    cases ready with
    | cons op ready => cases hreply
    | nil =>
      cases coming with
      | cons op coming => cases hreply
      | nil => simpa [hready] using hall

/-- Whoever asks for all ops is told all that there was below. -/
theorem Stands.unfolds_of_ops {state : Layer × σ} (h : Stands below start replies state)
    {ops : List Op} (hops : (Layer.ops below state).1 = .ok ops) : below.Unfolds start ops := by
  have hreply : (Pump.serve below state .ops).1 = .listed (.ok ops) := congrArg Reply.listed hops
  rcases h.fails_or_filled .ops nofun with
    ⟨hfailed, -⟩ | ⟨ready, passed, coming, s, -, hall, hserve⟩
  · rw [hreply] at hfailed
    exact absurd trivial hfailed
  · rw [hserve] at hreply
    cases hreply
    exact hall

/-- After a request has been served, none goes to what is below. -/
theorem Stands.untouched {layer : Layer} (h : Stands below start replies (layer, s))
    (hserved : ∃ reply ∈ replies, reply.Served) (requests : List Request) :
    (Pump.run below requests (layer, s)).2.2 = s := by
  induction requests generalizing replies layer with
  | nil => rfl
  | cons first requests ih =>
    obtain ⟨reply, hm, hreply⟩ := hserved
    cases h with
    | filling hnone => exact absurd hreply (hnone reply hm)
    | filled hready hall =>
      obtain ⟨next, layer', hserve, hstands⟩ := stands_filled (s := s) first hready hall
      simp only [Pump.run, hserve]
      exact ih hstands ⟨reply, List.mem_append_left _ hm, hreply⟩

end Stands

/-- Polls, refills, requests for all ops and replays of a pump, however many and in whatever order,
above a feed that may fail and go on: what has come out since the last replay is the beginning of
what the feed gives until it has nothing more for the first time, and all of that before a poll of
the pump finds nothing more. A list of the feed's answers shows that requests fail as its polls do,
once for each of those that failed, and that the feed is not polled again once the pump has served a
request. -/
theorem run_exact (below : Feed σ) (start : σ) (requests : List Request) :
    ∃ replies layer s log,
      run below.recorded requests (.new (.pump .new), start, []) = (replies, layer, s, log) ∧
      run below requests (.new (.pump .new), start) = (replies, layer, s) ∧
      (Reply.emitted replies = [] ∨
        ∃ ops, below.Unfolds start ops ∧ Reply.emitted replies <+: ops) ∧
      ((Layer.poll below (layer, s)).1 = .ok none → below.Unfolds start (Reply.emitted replies)) ∧
      (∀ ops, (Layer.ops below (layer, s)).1 = .ok ops → below.Unfolds start ops) ∧
      replies.filterMap Reply.fault? = failures log ∧
      ((∃ reply ∈ replies, reply.Served) → ∀ more,
        (run below.recorded more (layer, s, log)).2.2 = (s, log)) := by
  have hstart {τ : Type} (feed : Feed τ) (t : τ) : Stands feed t [] (.new (.pump .new), t) :=
    .filling nofun (feed.leads_nil t)
  have hplain := run_alike below.alike_recorded requests (.new (.pump .new)) (start, [])
  have hstands := (hstart below start).run requests
  have hrecorded := (hstart below.recorded (start, [])).run requests
  rcases hrun : run below.recorded requests (.new (.pump .new), start, []) with
    ⟨replies, layer, s, log⟩
  rw [hrun] at hplain hrecorded
  have hplain : run below requests (.new (.pump .new), start) = (replies, layer, s) := hplain
  rw [hplain] at hstands
  have hfailures : failures log = replies.filterMap Reply.fault? := by
    have hall := failures_run below requests .new .empty (start, [])
    rwa [← Layer.new, hrun] at hall
  exact ⟨replies, layer, s, log, rfl, hplain, hstands.emitted_prefix, hstands.unfolds_of_dry,
    fun _ => hstands.unfolds_of_ops, hfailures.symm, hrecorded.untouched⟩

end Pump

end BytePatch
