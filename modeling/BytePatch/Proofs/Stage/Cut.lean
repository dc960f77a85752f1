import BytePatch.Proofs.Queue.Carries
import BytePatch.Proofs.Script.Keeps

/-! What a cutting layer makes of a script, op for op: neighbours are paired off from the left, and
no piece of a delete or an insert is longer than asked. -/
namespace BytePatch

namespace Chunk

/-- All ops of a script cut, a delete and an insert that are neighbours together. -/
def cut (size : Nat) : Script → Script
  | [] => []
  | .copy run :: ops => .copy run :: cut size ops
  | [op] => pieces size op
  | first :: second :: ops =>
    if replaces first second then
      interleave (pieces size first) (pieces size second) ++ cut size ops
    else pieces size first ++ cut size (second :: ops)

theorem cut_of_ne_copy (size : Nat) {first : Op} (h : ∀ run, first ≠ .copy run) (second : Op)
    (ops : Script) : cut size (first :: second :: ops) =
      if replaces first second then
        interleave (pieces size first) (pieces size second) ++ cut size ops
      else pieces size first ++ cut size (second :: ops) := by
  cases first with
  | copy run => exact absurd rfl (h run)
  | _ => rw [cut]; exact h

theorem cut_singleton (size : Nat) {op : Op} (h : ∀ run, op ≠ .copy run) :
    cut size [op] = pieces size op := by
  cases op with
  | copy run => exact absurd rfl (h run)
  | _ => rw [cut]; exact h

theorem cut_cons (size : Nat) {op : Op} {ops : Script} (h : ∀ next ∈ ops.head?, ¬ replaces op next) :
    cut size (op :: ops) = pieces size op ++ cut size ops := by
  by_cases hcopy : ∃ run, op = .copy run
  · obtain ⟨run, rfl⟩ := hcopy
    have hpieces : pieces size (.copy run) = [.copy run] := by simp [pieces]
    rw [cut, hpieces, List.singleton_append]
  have hcopy : ∀ run, op ≠ .copy run := fun run heq => hcopy ⟨run, heq⟩
  cases ops with
  | nil => rw [cut_singleton size hcopy, cut, List.append_nil]
  | cons next ops => rw [cut_of_ne_copy size hcopy, if_neg (h next rfl)]

theorem piece_of_mem_cut {size : Nat} {ops : Script} {piece : Op} (h : piece ∈ cut size ops) :
    ∃ op ∈ ops, Piece size op piece := by
  fun_induction cut size ops with
  | case1 => cases h
  | case2 run ops ih =>
    rcases List.mem_cons.1 h with rfl | h
    · exact ⟨_, List.mem_cons_self, id, Nat.le_refl _, fun h => absurd rfl h, rfl, nofun⟩
    · obtain ⟨op, hop, hp⟩ := ih h
      exact ⟨op, List.mem_cons_of_mem _ hop, hp⟩
  | case3 op => exact ⟨op, List.mem_cons_self, piece_of_mem h⟩
  | case4 first second ops _ hr ih =>
    rcases List.mem_append.1 h with h | h
    · rcases mem_interleave h with h | h
      · exact ⟨first, List.mem_cons_self, piece_of_mem h⟩
      · exact ⟨second, List.mem_cons_of_mem _ List.mem_cons_self, piece_of_mem h⟩
    · obtain ⟨op, hop, hp⟩ := ih h
      exact ⟨op, List.mem_cons_of_mem _ (List.mem_cons_of_mem _ hop), hp⟩
  | case5 first second ops _ hr ih =>
    rcases List.mem_append.1 h with h | h
    · exact ⟨first, List.mem_cons_self, piece_of_mem h⟩
    · obtain ⟨op, hop, hp⟩ := ih h
      exact ⟨op, List.mem_cons_of_mem _ hop, hp⟩

theorem run_le_of_mem_cut {size : Nat} (hsize : 1 ≤ size) {ops : Script} :
    ∀ piece ∈ cut size ops, piece.kind ≠ .copy → piece.run ≤ size := by
  intro piece hpiece hkind
  obtain ⟨op, -, hp⟩ := piece_of_mem_cut hpiece
  rw [hp.kind_eq] at hkind
  have hle := hp.short hkind
  rwa [Nat.max_eq_right hsize] at hle

theorem cut_copies {size : Nat} {ops : Script} (h : ∀ op ∈ ops, op.kind = .copy) :
    cut size ops = ops := by
  induction ops with
  | nil => rfl
  | cons op ops ih =>
    cases op with
    | copy run => rw [cut, ih fun op hop => h op (List.mem_cons_of_mem _ hop)]
    | _ => cases h _ List.mem_cons_self

private theorem head?_pieces (size : Nat) (op : Op) (ops : Script) :
    (pieces size op ++ ops).head?.map Op.kind = some op.kind := by
  cases hp : pieces size op with
  | nil => exact absurd hp (pieces_ne_nil size op)
  | cons piece rest => exact congrArg some (kind_of_mem_pieces (hp ▸ List.mem_cons_self))

private theorem head?_interleave (xs ys : List Op) (h : xs ≠ []) :
    (interleave xs ys).head? = xs.head? := by
  cases xs with
  | nil => exact absurd rfl h
  | cons x xs => cases ys <;> rfl

theorem head?_cut (size : Nat) (ops : Script) :
    (cut size ops).head?.map Op.kind = ops.head?.map Op.kind := by
  fun_cases cut size ops with
  | case1 => rfl
  | case2 run ops => rfl
  | case3 op => simpa using head?_pieces size op []
  | case4 first second ops _ hr =>
    rw [List.head?_append, head?_interleave _ _ (pieces_ne_nil size first), ← List.head?_append]
    exact head?_pieces size first _
  | case5 first second ops _ hr => exact head?_pieces size first _

theorem cut_append (size : Nat) {xs ys : Script} (h : ∀ x ∈ xs, ∀ y ∈ ys.head?, ¬ replaces x y) :
    cut size (xs ++ ys) = cut size xs ++ cut size ys := by
  fun_induction cut size xs with
  | case1 => rfl
  | case2 run xs ih =>
    rw [List.cons_append, cut, List.cons_append, ih fun x hx => h x (List.mem_cons_of_mem _ hx)]
  | case3 op => rw [List.singleton_append, cut_cons size (h op List.mem_cons_self)]
  | case4 first second xs hcopy hr ih =>
    rw [List.cons_append, List.cons_append, cut_of_ne_copy size (fun run heq => hcopy run heq),
      if_pos hr, List.append_assoc,
      ih fun x hx => h x (List.mem_cons_of_mem _ (List.mem_cons_of_mem _ hx))]
  | case5 first second xs hcopy hr ih =>
    rw [List.cons_append, List.cons_append, cut_of_ne_copy size (fun run heq => hcopy run heq),
      if_neg hr, List.append_assoc, ← List.cons_append,
      ih fun x hx => h x (List.mem_cons_of_mem _ hx)]

private theorem flatMap_filter_cons (size : Nat) (kind : Kind) (op : Op) (ops : Script) :
    ((op :: ops).filter (·.kind = kind)).flatMap (pieces size) =
      (pieces size op).filter (·.kind = kind) ++
        (ops.filter (·.kind = kind)).flatMap (pieces size) := by
  by_cases hk : op.kind = kind
  · have hall : (pieces size op).filter (·.kind = kind) = pieces size op :=
      List.filter_eq_self.2 fun piece hp => by simp [kind_of_mem_pieces hp, hk]
    rw [hall, List.filter_cons_of_pos (by simpa using hk), List.flatMap_cons]
  · have hnone : (pieces size op).filter (·.kind = kind) = [] :=
      List.filter_eq_nil_iff.2 fun piece hp => by simp [kind_of_mem_pieces hp, hk]
    rw [hnone, List.filter_cons_of_neg (by simpa using hk), List.nil_append]

/-- The ops of one kind come out in their order, each in pieces. -/
theorem filter_cut (size : Nat) (ops : Script) (kind : Kind) :
    (cut size ops).filter (·.kind = kind) = (ops.filter (·.kind = kind)).flatMap (pieces size) := by
  fun_induction cut size ops with
  | case1 => rfl
  | case2 run ops ih =>
    have hcopy : pieces size (.copy run) = [.copy run] := by simp [pieces]
    rw [flatMap_filter_cons, ← ih, ← List.filter_append, hcopy, List.singleton_append]
  | case3 op => rw [flatMap_filter_cons, List.filter_nil, List.flatMap_nil, List.append_nil]
  | case4 first second ops _ hr ih =>
    rw [flatMap_filter_cons, flatMap_filter_cons, ← ih, List.filter_append,
      filter_interleave_pieces hr, List.filter_append, List.append_assoc]
  | case5 first second ops _ hr ih => rw [flatMap_filter_cons, ← ih, List.filter_append]

theorem keeps_cut {terms : Terms} (size : Nat) (ops : Script) :
    terms.Keeps ops (cut size ops) := by
  fun_induction cut size ops with
  | case1 => exact .refl _
  | case2 run ops ih => exact Terms.Keeps.append (.refl [.copy run]) ih
  | case3 op => exact Terms.keeps_pieces size op
  | case4 first second ops _ hr ih => exact (Terms.keeps_interleave size hr).append ih
  | case5 first second ops _ hr ih => exact (Terms.keeps_pieces size first).append ih

variable {σ : Type} {below : Feed σ} {Fails : Fault → Prop}

/-- A refill makes ready just what is cut off next. -/
private def Cuts (L : below.Ledger .equality Fails) (size : Nat) (xs : Script) :
    Except Fault Unit × Buffers × σ → Prop
  | (.error fault, _, _) => Fails fault
  | (.ok (), buffers, s) => L.Sound s ∧
    cut size xs = buffers.ready ++ cut size (buffers.pending ++ L.content s) ∧
    (buffers.ready = [] → cut size (buffers.pending ++ L.content s) = [])

private theorem cuts_shift (L : below.Ledger .equality Fails) (size : Nat) (pending : List Op)
    {s : σ} (hs : L.Sound s) :
    Cuts L size (pending ++ L.content s) (shift size below ⟨[], pending⟩ s) := by
  have key := takes L size pending hs trivial
  generalize shift size below ⟨[], pending⟩ s = result at key
  generalize pending ++ L.content s = ops at key
  obtain ⟨fault | _, ⟨ready, pending'⟩, s'⟩ := result
  · exact key
  obtain ⟨hs', ⟨hempty, hc, rfl⟩ | ⟨op, rfl, hnext, rfl⟩ | ⟨a, b, hp, rfl, rfl⟩⟩ := key
  · cases hempty
    exact ⟨hs', by rw [hc]; rfl, fun _ => by rw [hc]; rfl⟩
  · exact ⟨hs', cut_cons size hnext, fun hn => absurd hn (pieces_ne_nil size op)⟩
  · have hcopy : ∀ run, a ≠ .copy run := fun run heq =>
      (kinds_of_replaces hp).1 (by rw [heq]; rfl)
    have hcut := cut_of_ne_copy size hcopy b (pending' ++ L.content s')
    rw [if_pos hp] at hcut
    exact ⟨hs', hcut, fun hn => absurd hn (interleave_ne_nil (pieces_ne_nil size a) _)⟩

/-- The books of a cutting layer: what is ready, and then what the rest is cut into. -/
def account (L : below.Ledger .equality Fails) (size : Nat) :
    Layer.Account below .equality Fails where
  Sound work _ s := work = .chunk size ∧ L.Sound s
  rest _ pending s := cut size (pending ++ L.content s)
  refill {work pending s} h _ := by
    obtain ⟨rfl, hs⟩ := h
    have key := cuts_shift L size pending hs
    simp only [Layer.shift]
    generalize shift size below ⟨[], pending⟩ s = result at key
    obtain ⟨fault | _, buffers, s'⟩ := result
    · exact key
    · exact ⟨⟨rfl, key.1⟩, key.2.1, key.2.2⟩

end Chunk

theorem Queue.Carries.under_chunk {queue : Queue} {ops : Script} {Fails : Fault → Prop}
    (h : queue.Carries .equality Fails ops) (size : Nat) :
    (queue.under (.chunk size)).Carries .equality Fails (Chunk.cut size ops) := by
  obtain ⟨L, hs, rfl⟩ := h
  exact ⟨(Chunk.account L size).ledger, Layer.Account.sound_new ⟨rfl, hs⟩ trivial⟩

end BytePatch
