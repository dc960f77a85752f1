import BytePatch.Proofs.Queue.Runs
import BytePatch.Queue.Layer

/-! Pairs of which no op comes. A layer that compares them itself takes such a pair for the end, and
leaves whatever comes after it where it is. -/
namespace BytePatch.Align

variable {σ : Type} {feed : Feed σ} {aligner : Aligner} {a b : Op} {orig target : Bytes} {s s' : σ}

theorem poll_lost (hp : a.pair? b = some (orig, target)) (halign : aligner.align orig target = .ok [])
    {rest : List Op} (hreq : feed.require 2 [] s = (.ok true, a :: b :: rest, s')) :
    (Layer.feed feed).poll (.new (.align aligner), s) =
      (.ok none, ⟨⟨[], rest⟩, .align aligner⟩, s') := by
  change Layer.poll feed (.new (.align aligner), s) = _
  simp [Layer.poll, Layer.shift, Layer.new, shift, Buffers.empty, hreq, hp, halign]

theorem drain_lost (hp : a.pair? b = some (orig, target)) (halign : aligner.align orig target = .ok [])
    {rest : List Op} (hreq : feed.require 2 [] s = (.ok true, a :: b :: rest, s')) :
    (Layer.feed feed).drain (.new (.align aligner), s) =
      (.ok (), [], ⟨⟨[], rest⟩, .align aligner⟩, s') := by
  simp [Feed.drain, Feed.consume_dry (poll_lost hp halign hreq)]

theorem poll_last {op : Op} {s'' : σ} (hop : feed.poll s = (.ok (some op), s'))
    (hdry : feed.poll s' = (.ok none, s'')) :
    (Layer.feed feed).poll (.new (.align aligner), s) =
      (.ok (some op), .new (.align aligner), s'') := by
  change Layer.poll feed (.new (.align aligner), s) = _
  simp [Layer.poll, Layer.shift, Layer.new, shift, Buffers.empty, Feed.require_last hop hdry,
    Buffers.flush]

end BytePatch.Align
