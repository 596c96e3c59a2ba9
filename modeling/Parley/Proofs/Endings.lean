import Parley.Proofs.Instants
import Parley.Proofs.Reads
import Parley.EventStream

/-!
How streams end. A stream that ends gives back everything that it holds. One that has met the mark
of the end first waits for the end of its body, so that the connection can serve again; whatever
comes of that, it has succeeded.

* `LetsGo`, `finish_letsGo`: what is given back and counted;
* `Rests`, `drain_rests`: the wait counts nothing, is over by its limit, and fails only as calls do;
* `Completes`, `complete_completes`: the end of a stream that has met the mark.
-/
namespace Parley

theorem Lease.release_pool (l : Lease) (pool : BufferPool) :
    (l.release pool).2 = if l.active then pool.release l.buffer else pool := by
  rw [release]
  split <;> rfl

/-- The connection that a body comes over, and its session. -/
def Source.connection? : Source → Option (Nat × Connection)
  | .scripted _ => none
  | .wire b => b.connection.map (b.session, ·)

namespace EventStream

variable {p : Pause} {w w' : World} {s : OpenStream} {source : Source}

/-- A stream gives back everything it holds, the body, the buffer and the permit, and counts as one
call. Of a body that comes over a connection it is the connection that ends. -/
structure LetsGo (s : OpenStream) (succeeded : Bool) (w w' : World) : Prop where
  now_eq : w'.now = w.now
  usage_eq : w'.client.usage =
    if succeeded then w.client.usage.addSuccess else w.client.usage.addFailure
  semaphore_eq : w'.client.semaphore =
    if s.permit then w.client.semaphore.release else w.client.semaphore
  buffers_eq : w'.client.buffers =
    if s.lease.active then w.client.buffers.release s.lease.buffer else w.client.buffers
  live_eq : w'.live = s.source.number?.elim w.live w.live.erase
  journal_eq : w'.journal = (s.source.connection?.map fun (i, c) =>
    { session := i, dealing := .discarded c.number, time := w.now : Deal }).toList ++ w.journal

theorem dispose_gives (source : Source) : source.dispose.Ensures p w fun _ w' =>
    w'.now = w.now ∧ w'.client = w.client ∧ w'.live = source.number?.elim w.live w.live.erase ∧
      w'.journal = (source.connection?.map fun (i, c) =>
        { session := i, dealing := .discarded c.number, time := w.now : Deal }).toList ++
          w.journal := by
  rcases source with b | ⟨session, _ | c, status, headers⟩ <;> exact ⟨rfl, rfl, rfl, rfl⟩

theorem finish_letsGo (s : OpenStream) (succeeded : Bool) :
    (finish s succeeded).Ensures p w fun _ => LetsGo s succeeded w := by
  simp only [finish, Job.ensures_bind]
  apply (dispose_gives s.source).mono
  rintro _ w₁ ⟨now_eq, client_eq, live_eq, journal_eq⟩
  simp only [Job.ensures_modify, Job.ensures_ite, Job.ensures_bind, Job.ensures_mark,
    Job.ensures_count, Job.ensures_note]
  rw [← apply_ite (LetsGo s succeeded w)]
  constructor
  case now_eq => split <;> exact now_eq
  case usage_eq =>
    rw [← client_eq]
    split <;> cases succeeded <;> rfl
  case semaphore_eq =>
    rw [← client_eq]
    split <;> rfl
  case buffers_eq =>
    rw [← client_eq, ← Lease.release_pool]
    split <;> rfl
  case live_eq => split <;> exact live_eq
  case journal_eq => split <;> exact journal_eq

/-- What becomes of a body whose end is waited for. -/
structure Rests (p : Pause) (source : Source) (limit : Instant) (w : World)
    (r : Except Failure Unit × Source) (w' : World) : Prop where
  lingers : p.Calm → w.Lingers limit w'
  client_of : source.Mild → ∀ f, r.1 = .error f → f.IsClient
  number_eq : r.2.number? = source.number?

namespace Rests

variable {limit : Instant} {w₁ : World} {r : Except Failure Unit × Source}

theorem stay (w : World) (source : Source) : Rests p source limit w (.ok (), source) w where
  lingers _ := .refl w limit
  client_of _ := by rintro _ ⟨⟩
  number_eq := rfl

/-- After a read that brings something the wait goes on. -/
theorem after {source₁ : Source} {result : Except Failure Bytes} {m : Mark}
    (read : source.Reads p limit (w.mark m) (result, source₁) w₁)
    (h : Rests p source₁ limit w₁ r w') : Rests p source limit w r w' where
  lingers calm := (read.lingers calm).of_mark.trans (h.lingers calm)
  client_of mild := h.client_of (read.mild_of mild)
  number_eq := h.number_eq.trans read.number_eq

end Rests

theorem drain_rests (deadline limit : Instant) (reads : Nat) (source : Source) :
    (drain deadline limit reads source).Ensures p w (Rests p source limit w) := by
  induction reads generalizing w source with
  | zero => exact .stay w source
  | succ reads ih =>
    rw [drain, Job.ensures_bind, Job.ensures_get, Job.ensures_ite]
    split
    · exact .stay w source
    rw [Job.ensures_bind, Job.ensures_mark, Job.ensures_bind]
    apply (source.read_reads (by decide) limit).mono
    rintro ⟨f | _ | ⟨b, data⟩, source₁⟩ w₁ read
    · refine ⟨fun calm => (read.lingers calm).of_mark, ?_, read.number_eq⟩
      rintro mild _ ⟨⟩
      exact read.client_of mild f rfl
    · exact Rests.after read (.stay w₁ source₁)
    · exact (ih source₁).mono fun r w' rests => .after read rests

/-- How a stream ends that has met the mark in a world `w`, whatever its body does. -/
structure Completes (p : Pause) (s : OpenStream) (w w' : World) : Prop where
  /-- The end of the body is waited for no longer than the window. -/
  now_le : p.Calm → 0 ≤ w.now → w'.now ≤ max w.now (min s.deadline (w.now + 100 * 1000000))
  usage_eq : p.Calm → w'.client.usage = w.client.usage.addSuccess
  letsGo : ∃ source w₁, source.number? = s.source.number? ∧
    LetsGo { s with source } true w₁ w'

theorem complete_completes (mild : s.source.Mild) :
    (complete s).Ensures p w fun r w' => r = (.ended, .finished) ∧ Completes p s w w' := by
  have limit_le (nonneg : 0 ≤ w.now) :
      w.now.plusMillis drainWindow ≤ w.now + 100 * 1000000 :=
    wrap64_le (Int.add_nonneg nonneg (by decide))
  rw [complete, Job.ensures_bind, Job.ensures_get, Job.ensures_bind]
  apply (drain_rests _ _ _ _).mono
  rintro ⟨result, source⟩ w₁ rests
  -- a notice that the connection cannot serve again may come between
  have completes {w₂ w' : World} (letsGo : LetsGo { s with source } true w₂ w')
      (now_eq : w₂.now = w₁.now) (usage_eq : w₂.client.usage = w₁.client.usage) :
      Completes p s w w' := by
    refine ⟨?_, ?_, source, w₂, rests.number_eq, letsGo⟩
    · intro calm nonneg
      rw [letsGo.now_eq, now_eq]
      have := (rests.lingers calm).now_le
      have := limit_le nonneg
      lia
    · intro calm
      rw [letsGo.usage_eq, usage_eq, (rests.lingers calm).usage_eq]
      rfl
  rcases result with f | _
  · obtain ⟨e, rfl⟩ := rests.client_of mild f rfl
    rw [Job.ensures_bind, Job.ensures_notice, Job.ensures_bind]
    apply (finish_letsGo _ true).mono
    intro _ w' letsGo
    exact ⟨rfl, completes letsGo rfl rfl⟩
  · rw [Job.ensures_bind]
    apply (finish_letsGo _ true).mono
    intro _ w' letsGo
    exact ⟨rfl, completes letsGo rfl rfl⟩

end EventStream

end Parley
