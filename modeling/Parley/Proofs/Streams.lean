import Parley.Proofs.Pool

/-!
What unfinished streams hold: a permit, a buffer on lease and the body that they read. Whoever has
a stream on hand, because somebody reads it, counts like those who have a name; a stream that is
moved takes everything along, and one that another is moved onto ends first.

* `Accounts`: what is out, and what has come back, for the streams that are unfinished;
* `Accounts.opened`, `Accounts.finished`: what opening a stream and ending it make of that;
* `Act.tends_perform`: all acts keep the accounts, and so do those that happen meanwhile;
* `World.steps_tended`: the same of whole runs.
-/
namespace Parley

/-- The streams that a handle holds. -/
def EventStream.held : EventStream → List OpenStream
  | .finished => []
  | .unfinished s => [s]

/-- Whether an act is one on streams that have permits, or puts such an act off. -/
def Act.ofStreams : Act → Bool
  | .openStream _ _ _ _ _ held => held
  | .next .. | .close _ | .drop _ | .move .. | .advance _ => true
  | .later _ act => act.ofStreams
  | _ => false

def Mark.freed? : Mark → Option Nat
  | .freed n => some n
  | _ => none

def Mark.isRelease : Mark → Bool
  | .freed _ | .gaveBack _ => true
  | _ => false

/-- What is written down about streams. -/
structure Books where
  /-- The permits that are out. -/
  inUse : Nat
  /-- The buffers that went out, and those that came back. -/
  acquired : Nat
  returned : Nat
  /-- The streams that ended, and all that were opened. -/
  ended : Nat
  opened : Nat
  /-- The bodies that are held, and how many were made. -/
  live : List Nat
  bodies : Nat
  /-- The bodies that were let go of and the permits that were given back, the latest first. -/
  releases : List Mark
  streams : Table EventStream
  agenda : List (Instant × Act)

namespace Books

/-- The streams that have names and are unfinished. -/
def unfinished (b : Books) : List OpenStream := b.streams.values.flatMap EventStream.held

/-- The bodies that were let go of. -/
def freed (b : Books) : List Nat := b.releases.filterMap Mark.freed?

end Books

def World.books (w : World) : Books where
  inUse := w.client.semaphore.inUse
  acquired := w.client.buffers.acquired
  returned := w.client.buffers.returned
  ended := w.client.usage.successfulCalls + w.client.usage.failedCalls
  opened := w.client.usage.streamsOpened
  live := w.live
  bodies := w.bodies
  releases := (w.log.map (·.mark)).filter Mark.isRelease
  streams := w.streams
  agenda := w.agenda

/-- What the books say when these are all the streams that are unfinished. -/
structure Accounts (all : List OpenStream) (b : Books) : Prop where
  whole : ∀ s ∈ all, s.permit = true ∧ s.lease.active = true
  inUse_eq : b.inUse = all.length
  leased_eq : b.acquired = b.returned + all.length
  counted_eq : b.ended + all.length = b.opened
  /-- The bodies that are held are those of the streams. -/
  live_perm : (b.live.map some).Perm (all.map (·.source.number?))
  /-- Every body that was made is held, or was let go of once. -/
  made_perm : (b.freed ++ b.live).Perm (List.range' 1 b.bodies)
  /-- A permit is given back after the body of its stream was let go of. -/
  ordered : ∀ number older, Mark.gaveBack number :: older <:+ b.releases →
    ∃ n, number = some n ∧ Mark.freed n ∈ older

namespace Accounts

variable {all all' : List OpenStream} {b : Books} {s s' : OpenStream}

theorem perm (h : Accounts all b) (perm : all.Perm all') : Accounts all' b where
  whole s member := h.whole s (perm.mem_iff.mpr member)
  inUse_eq := h.inUse_eq.trans perm.length_eq
  leased_eq := perm.length_eq ▸ h.leased_eq
  counted_eq := perm.length_eq ▸ h.counted_eq
  live_perm := h.live_perm.trans (perm.map _)
  made_perm := h.made_perm
  ordered := h.ordered

/-- Which of the streams have names makes no difference. -/
theorem named (h : Accounts all b) (perm : all.Perm all') (streams : Table EventStream) :
    Accounts all' { b with streams } :=
  { h.perm perm with }

/-- What a stream has read makes no difference. -/
theorem read (h : Accounts (s :: all) b) (permit : s'.permit = s.permit)
    (active : s'.lease.active = s.lease.active) (number : s'.source.number? = s.source.number?) :
    Accounts (s' :: all) b where
  whole := by
    obtain ⟨whole, others⟩ := List.forall_mem_cons.mp h.whole
    exact List.forall_mem_cons.mpr ⟨⟨permit.trans whole.1, active.trans whole.2⟩, others⟩
  inUse_eq := h.inUse_eq
  leased_eq := h.leased_eq
  counted_eq := h.counted_eq
  live_perm := by
    rw [List.map_cons, number]
    exact h.live_perm
  made_perm := h.made_perm
  ordered := h.ordered

/-- Every unfinished stream reads a body that was written down in advance, and that is held. -/
theorem number_mem (h : Accounts (s :: all) b) : ∃ n ∈ b.live, s.source.number? = some n := by
  have member : s.source.number? ∈ b.live.map some :=
    h.live_perm.mem_iff.mpr (List.mem_cons_self ..)
  obtain ⟨n, member, same⟩ := List.mem_map.mp member
  exact ⟨n, member, same.symm⟩

/-- A stream is opened. -/
theorem opened (h : Accounts all b) (permit : s.permit = true) (active : s.lease.active = true)
    (number : s.source.number? = some (b.bodies + 1)) :
    Accounts (s :: all) { b with
      inUse := b.inUse + 1, acquired := b.acquired + 1, opened := b.opened + 1
      live := b.live ++ [b.bodies + 1], bodies := b.bodies + 1 } where
  whole := List.forall_mem_cons.mpr ⟨⟨permit, active⟩, h.whole⟩
  inUse_eq := congrArg (· + 1) h.inUse_eq
  leased_eq := congrArg (· + 1) h.leased_eq
  counted_eq := congrArg (· + 1) h.counted_eq
  live_perm := by
    simp only [List.map_append, List.map_cons, List.map_nil, number]
    exact (List.perm_append_singleton ..).trans (h.live_perm.cons _)
  made_perm := by
    have made := h.made_perm.append_right [b.bodies + 1]
    rw [List.append_assoc] at made
    rwa [List.range'_concat, Nat.one_mul, Nat.add_comm 1]
  ordered := h.ordered

/-- A stream ends. -/
theorem finished {n : Nat} (h : Accounts (s :: all) b) (number : s.source.number? = some n) :
    Accounts all { b with
      inUse := b.inUse - 1, returned := b.returned + 1, ended := b.ended + 1
      live := b.live.erase n
      releases := .gaveBack (some n) :: .freed n :: b.releases } where
  whole := (List.forall_mem_cons.mp h.whole).2
  inUse_eq := by
    rw [h.inUse_eq]
    rfl
  leased_eq := by
    have leased := h.leased_eq
    rw [List.length_cons] at leased
    simp only
    omega
  counted_eq := by
    have counted := h.counted_eq
    rw [List.length_cons] at counted
    simp only
    omega
  live_perm := by
    obtain ⟨n', member, same⟩ := h.number_mem
    cases number.symm.trans same
    have split := (List.perm_cons_erase member).map some
    have live := h.live_perm
    rw [List.map_cons, number] at live
    rw [List.map_cons] at split
    exact (split.symm.trans live).cons_inv
  made_perm := by
    obtain ⟨n', member, same⟩ := h.number_mem
    cases number.symm.trans same
    have split := (List.perm_cons_erase member).append_left b.freed
    exact (List.perm_middle.symm.trans split.symm).trans h.made_perm
  ordered := by
    intro number older suffix
    rcases List.suffix_cons_iff.mp suffix with same | suffix
    · cases same
      exact ⟨n, rfl, List.mem_cons_self ..⟩
    · rcases List.suffix_cons_iff.mp suffix with same | suffix
      · cases same
      · exact h.ordered number older suffix

end Accounts

/-- The books are in order, with these streams on hand besides those that have names, and only acts
on streams are put off. -/
structure Tended (hand : List OpenStream) (b : Books) : Prop where
  accounts : Accounts (hand ++ b.unfinished) b
  agenda : ∀ e ∈ b.agenda, e.2.ofStreams = true

/-- A pause that keeps the books in order, whatever those who wait have on hand. -/
def Pause.Tends (p : Pause) : Prop :=
  ∀ t stop hand (w : World), Tended hand w.books → Tended hand (p t stop w).books

variable {α β : Type} {p : Pause} {w w' : World} {hand : List OpenStream} {s : OpenStream}

/-- A job that keeps the books in order, with what is on hand before it and after it. -/
def Job.Tends (p : Pause) (hand : List OpenStream) (j : Job α) (post : α → List OpenStream) :
    Prop :=
  ∀ w, Tended hand w.books → j.Ensures p w fun a w' => Tended (post a) w'.books

namespace Job.Tends

variable {j : Job α} {mid : α → List OpenStream} {post : β → List OpenStream}

theorem ret {a : α} (same : mid a = hand) : Job.Tends p hand (pure a) mid := by
  intro w h
  rw [ensures_pure, same]
  exact h

theorem bind {k : α → Job β} (h : Job.Tends p hand j mid) (next : ∀ a, (k a).Tends p (mid a) post) :
    Job.Tends p hand (j >>= k) post := by
  intro w tended
  rw [ensures_bind]
  exact (h w tended).mono fun a w' => next a w'

theorem ite {c : Prop} [Decidable c] {k : Job α} (yes : Job.Tends p hand j mid)
    (no : Job.Tends p hand k mid) : Job.Tends p hand (if c then j else k) mid := by
  split
  · exact yes
  · exact no

theorem look {k : World → Job β} (next : ∀ w, (k w).Tends p hand post) :
    Job.Tends p hand (get >>= k) post :=
  fun w h => next w w h

/-- Something is done that the books do not tell. -/
theorem aside {f : World → World} (same : ∀ w, (f w).books = w.books) :
    Job.Tends p hand (modify f) fun _ => hand := by
  intro w h
  rw [ensures_modify, same]
  exact h

theorem wait (tends : p.Tends) (d : Nanos) : Job.Tends p hand (Job.wait d) fun _ => hand :=
  fun w h => tends _ _ _ w h

theorem waitUntil (tends : p.Tends) (t : Instant) :
    Job.Tends p hand (Job.waitUntil t) fun _ => hand :=
  fun w h => tends _ _ _ w h

end Job.Tends

namespace Source

/-- Something comes at once, or after a delay that may be too long. -/
theorem tends_delayed (tends : p.Tends) {late j : Job α} {post : α → List OpenStream}
    {deadline : Instant} {delay : Nanos} (tooLate : late.Tends p hand post)
    (atOnce : j.Tends p hand post) :
    Job.Tends p hand (do
      if 0 < delay then
        if deadline < (← get).now + delay then late else
          Job.wait delay
          j
      else j) post :=
  .ite (.look fun _ => .ite tooLate (.bind (.wait tends delay) fun _ => atOnce)) atOnce

theorem tends_readChunk (tends : p.Tends) (capacity : Nat) (deadline : Instant)
    (chunks : List Chunk) :
    (ScriptedBody.readChunk capacity deadline chunks).Tends p hand fun _ => hand := by
  induction chunks with
  | nil => exact .ret rfl
  | cons c chunks ih =>
    refine tends_delayed tends (.bind (.waitUntil tends deadline) fun _ => .ret rfl) ?_
    split
    · exact .ret rfl
    · exact ih
    · exact .ret rfl

/-- A stream reads on; it stays the stream that it was. -/
theorem tends_read (tends : p.Tends) (capacity : Nat) (deadline : Instant) :
    (s.source.read capacity deadline).Tends p (s :: hand)
      fun (_, source) => { s with source } :: hand := by
  intro w h
  obtain ⟨n, -, number⟩ := h.accounts.number_mem
  cases source_eq : s.source with
  | wire b =>
    rw [source_eq] at number
    cases number
  | scripted b =>
    simp only [read, ScriptedBody.read, Job.ensures_bind, Job.ensures_pure]
    apply (tends_readChunk tends capacity deadline b.chunks w h).mono
    rintro ⟨result, chunks⟩ w' h'
    constructor
    case accounts => exact h'.accounts.read rfl rfl (by rw [source_eq, number?, number?])
    case agenda => exact h'.agenda

end Source

theorem BufferPool.release_counters (pool : BufferPool) (b : Buffer) :
    (pool.release b).acquired = pool.acquired ∧ (pool.release b).returned = pool.returned + 1 := by
  simp only [release]
  split
  · exact ⟨rfl, rfl⟩
  · split
    · exact ⟨rfl, rfl⟩
    · exact ⟨rfl, rfl⟩

theorem BufferPool.acquire_counters (pool : BufferPool) :
    pool.acquire.2.acquired = pool.acquired + 1 ∧ pool.acquire.2.returned = pool.returned := by
  unfold acquire
  split
  · exact ⟨rfl, rfl⟩
  · exact ⟨rfl, rfl⟩

/-- What a job without an answer makes of the books, whatever else it does. -/
def Job.Writes (p : Pause) (j : Job Unit) (f : Books → Books) : Prop :=
  ∀ w, j.Ensures p w fun _ w' => w'.books = f w.books

namespace Job.Writes

theorem bind {j k : Job Unit} {f g : Books → Books} (h : j.Writes p f) (next : k.Writes p g) :
    Job.Writes p (do j; k) fun b => g (f b) := by
  intro w
  rw [ensures_bind]
  apply (h w).mono
  intro _ w' same
  simp only [← same]
  exact next w'

theorem step {f : World → World} {g : Books → Books} (same : ∀ w, (f w).books = g w.books) :
    Job.Writes p (modify f) g :=
  same

end Job.Writes

theorem tends_notice (n : Notice) : (Job.notice n).Tends p hand fun _ => hand :=
  .aside fun _ => rfl

namespace EventStream

/-- What the end of a stream leaves in the books. -/
def closing (n : Nat) (b : Books) : Books :=
  { b with
    inUse := b.inUse - 1, returned := b.returned + 1, ended := b.ended + 1
    live := b.live.erase n
    releases := .gaveBack (some n) :: .freed n :: b.releases }

theorem finish_writes {n : Nat} (permit : s.permit = true) (active : s.lease.active = true)
    (number : s.source.number? = some n) (succeeded : Bool) :
    (finish s succeeded).Writes p (closing n) := by
  cases source_eq : s.source with
  | wire b =>
    rw [source_eq] at number
    cases number
  | scripted b =>
    rw [source_eq] at number
    cases number
    rw [finish, source_eq, permit, if_pos rfl]
    have disposed : Job.Writes p (Source.scripted b).dispose fun b' =>
        { b' with live := b'.live.erase b.number, releases := .freed b.number :: b'.releases } :=
      fun _ => rfl
    have handedBack : Job.Writes p (modify fun w => { w with client := { w.client with
        buffers := (s.lease.release w.client.buffers).2 } }) fun b' =>
          { b' with returned := b'.returned + 1 } := by
      refine .step fun w => ?_
      obtain ⟨acquired, returned⟩ := BufferPool.release_counters w.client.buffers s.lease.buffer
      simp only [Lease.release, active, if_true, World.books, acquired, returned]
    have marked : Job.Writes p (Job.mark (.gaveBack (some b.number))) fun b' =>
        { b' with releases := .gaveBack (some b.number) :: b'.releases } := fun _ => rfl
    have gaveBack : Job.Writes p (modify (·.mapSemaphore Semaphore.release)) fun b' =>
        { b' with inUse := b'.inUse - 1 } := fun _ => rfl
    have counted : Job.Writes p
        (Job.count (if succeeded then Usage.addSuccess else Usage.addFailure)) fun b' =>
          { b' with ended := b'.ended + 1 } := by
      cases succeeded with
      | false => exact fun _ => rfl
      | true =>
        intro w
        simp only [Job.ensures_count, if_true, World.books, World.mapUsage, Usage.addSuccess,
          Nat.add_right_comm]
    have noted : Job.Writes p (Job.note .closed) id := fun _ => rfl
    exact disposed.bind (handedBack.bind (marked.bind (gaveBack.bind (counted.bind noted))))

theorem tends_finish (succeeded : Bool) :
    (finish s succeeded).Tends p (s :: hand) fun _ => hand := by
  intro w h
  obtain ⟨n, -, number⟩ := h.accounts.number_mem
  obtain ⟨permit, active⟩ := h.accounts.whole s (List.mem_cons_self ..)
  apply (finish_writes permit active number succeeded w).mono
  intro _ w' same
  rw [same]
  exact ⟨h.accounts.finished number, h.agenda⟩

theorem tends_close (s : EventStream) : s.close.Tends p (s.held ++ hand) fun _ => hand := by
  cases s with
  | finished => exact .ret rfl
  | unfinished s => exact tends_finish true

theorem tends_fail (f : Failure) :
    (fail s f).Tends p (s :: hand) fun (_, s') => s'.held ++ hand :=
  .bind (tends_finish false) fun _ => .look fun _ => .ret rfl

theorem tends_drain (tends : p.Tends) (deadline limit : Instant) (reads : Nat) (source : Source) :
    (drain deadline limit reads source).Tends p ({ s with source } :: hand)
      fun (_, source) => { s with source } :: hand := by
  induction reads generalizing source with
  | zero => exact .ret rfl
  | succ reads ih =>
    refine .look fun w => .ite (.ret rfl) (.bind (.aside fun _ => rfl) fun _ => ?_)
    refine .bind (Source.tends_read (s := { s with source }) tends drainSize limit) ?_
    rintro ⟨f | _ | ⟨b, data⟩, source⟩
    · exact .ret rfl
    · exact .ret rfl
    · exact ih source

theorem tends_complete (tends : p.Tends) :
    (complete s).Tends p (s :: hand) fun (_, s') => s'.held ++ hand := by
  refine .look fun w => .bind (tends_drain tends _ _ _ s.source) ?_
  rintro ⟨result, source⟩
  have ends : Job.Tends p ({ s with source } :: hand) (do
      finish { s with source } true
      return (.ended, .finished)) fun (r : Pulled × EventStream) => r.2.held ++ hand :=
    .bind (tends_finish true) fun _ => .ret rfl
  rcases result with f | _
  · cases f with
    | client e => exact .bind (tends_notice _) fun _ => ends
    | _ => exact tends_fail _
  · exact ends

theorem tends_refuse (payloads : List Bytes) :
    (refuse payloads).Tends p hand fun _ => hand := by
  have notices : Job.Tends p hand
      (payloads.forM fun frame => Job.notice (.malformedFrame frame.length)) fun _ => hand := by
    intro w h
    apply Job.ensures_forM payloads ?_ h
    exact fun frame _ w h => tends_notice _ w h
  exact .bind (.aside fun _ => rfl) fun _ => notices

theorem tends_deliver (value : Json) (rest : EventStream) :
    (deliver value rest).Tends p (rest.held ++ hand) fun (_, s') => s'.held ++ hand :=
  .bind (.aside fun _ => rfl) fun _ => .ret rfl

theorem tends_exhaust : (exhaust s).Tends p (s :: hand) fun (_, s') => s'.held ++ hand := by
  have ends (pulled : Pulled) : Job.Tends p (s :: hand) (do
      finish s true
      return (pulled, EventStream.finished)) fun (_, s') => s'.held ++ hand :=
    .bind (tends_finish true) fun _ => .ret rfl
  refine .bind (tends_refuse _) fun _ => ?_
  split
  · rename_i value _
    have counted : Job.Tends p (s :: hand) (do
        Job.count fun u => { u with eventsDelivered := u.eventsDelivered + 1 }
        finish s true
        return (Pulled.event value, EventStream.finished)) fun (_, s') => s'.held ++ hand :=
      .bind (.aside fun _ => rfl) fun _ => ends _
    exact counted
  · exact ends _

/-- What a stream does with its buffer makes no difference. -/
theorem tends_alike (s' : OpenStream) {j : Job α} {post : α → List OpenStream}
    (permit : s'.permit = s.permit) (active : s'.lease.active = s.lease.active)
    (source : s'.source = s.source) (h : Job.Tends p (s' :: hand) j post) :
    Job.Tends p (s :: hand) j post := by
  intro w tended
  exact h w ⟨tended.accounts.read permit active (congrArg Source.number? source), tended.agenda⟩

theorem tends_pull (tends : p.Tends) (reads : Nat) (s : OpenStream) :
    (pull reads s).Tends p (s :: hand) fun (_, s') => s'.held ++ hand := by
  induction reads generalizing s with
  | zero => exact tends_exhaust
  | succ reads ih =>
    refine .bind (tends_refuse _) fun _ => ?_
    generalize (LineBuffer.next signal? (lines s)).consumed = consumed
    split
    · exact tends_alike { s with consumed } rfl rfl rfl (tends_complete tends)
    · rename_i value _
      exact tends_alike { s with consumed } rfl rfl rfl
        (tends_deliver value (.unfinished { s with consumed }))
    · refine .look fun w => .ite ?_ ?_
      · exact tends_alike (compact { s with consumed }) rfl rfl rfl (tends_fail _)
      · refine tends_alike (makeRoom (compact { s with consumed })) rfl rfl rfl ?_
        refine .bind (.aside fun _ => rfl) fun _ => ?_
        refine .bind (Source.tends_read tends Source.readSize s.deadline) ?_
        rintro ⟨f | _ | ⟨b, data⟩, source⟩
        · exact tends_fail f
        · exact tends_exhaust
        · let room := { makeRoom (compact { s with consumed }) with source }
          exact tends_alike (receive room (b :: data)) rfl rfl rfl (ih _)

theorem tends_next (tends : p.Tends) (s : EventStream) :
    s.next.Tends p (s.held ++ hand) fun (_, s') => s'.held ++ hand := by
  cases s with
  | finished => exact .ret rfl
  | unfinished s => exact tends_pull tends _ s

end EventStream

namespace Act

theorem perm_on_hand (mine hand others : List OpenStream) :
    ((mine ++ hand) ++ others).Perm (hand ++ (mine ++ others)) := by
  rw [List.append_assoc]
  exact List.perm_append_comm_assoc ..

/-- A stream is put down under a name, and the one that had the name is taken up. -/
theorem tends_putStream (name : Bytes) (s : EventStream) :
    (putStream name s).Tends p (s.held ++ hand) fun old => old.held ++ hand := by
  intro w h
  have put := w.flatMap_putStream_perm name (f := EventStream.held) rfl s
  constructor
  case accounts =>
    refine h.accounts.named ?_ (w.streams.insert name s)
    exact (perm_on_hand ..).trans ((put.symm.append_left hand).trans (perm_on_hand ..).symm)
  case agenda => exact h.agenda

theorem tends_takeStream (name : Bytes) :
    (takeStream name).Tends p hand fun s => s.held ++ hand := by
  intro w h
  have taken := w.flatMap_stream_perm name (f := EventStream.held) rfl
  constructor
  case accounts =>
    refine h.accounts.named ?_ (w.streams.erase name)
    exact (taken.append_left hand).trans (perm_on_hand ..).symm
  case agenda => exact h.agenda

theorem tends_assignStream (name : Bytes) (s : EventStream) :
    (assignStream name s).Tends p (s.held ++ hand) fun _ => hand :=
  .bind (tends_putStream name s) fun old => old.tends_close

theorem tends_pullStream (tends : p.Tends) (name : Bytes) (times : Nat) :
    (pullStream name times).Tends p hand fun _ => hand := by
  induction times with
  | zero => exact .ret rfl
  | succ times ih =>
    refine .bind (tends_putStream name .finished) fun s => .bind (s.tends_next tends) ?_
    rintro ⟨pulled, s⟩
    exact .bind (tends_assignStream name s) fun _ => .bind ih fun _ => .ret rfl

theorem script_books (chunks : List Chunk) :
    (Source.script 200 [] chunks).Ensures p w fun source w' =>
      source.number? = some (w.bodies + 1) ∧ w'.books = { w.books with
        live := w.live ++ [w.bodies + 1], bodies := w.bodies + 1 } :=
  ⟨rfl, rfl⟩

theorem create_books (held : Bool) (source : Source) (deadline startedAt : Instant) :
    (EventStream.create held source deadline startedAt).Ensures p w fun s w' =>
      (∃ s', s = .unfinished s' ∧ s'.permit = held ∧ s'.lease.active = true ∧
        s'.source = source) ∧ w'.books = { w.books with
          acquired := w.books.acquired + 1, opened := w.books.opened + 1 } := by
  obtain ⟨acquired, returned⟩ := BufferPool.acquire_counters w.client.buffers
  simp only [EventStream.create, Job.ensures_bind, Job.ensures_modifyGet, Job.ensures_count,
    Job.ensures_pure]
  constructor
  · exact ⟨_, rfl, rfl, rfl, rfl⟩
  · simp only [World.books, World.mapUsage, Lease.take, acquired, returned]

theorem tends_opens (name : Bytes) (chunks : List Chunk) (deadline startedAt : Instant)
    (key : Bytes) (h : Tended hand w.books) :
    (do
      let source ← Source.script 200 [] chunks
      let s ← EventStream.create true source deadline startedAt
      assignStream name s
      return Answer.opened key).Ensures p (w.mapSemaphore Semaphore.take)
        fun _ w' => Tended hand w'.books := by
  rw [Job.ensures_bind]
  apply (script_books chunks).mono
  rintro source w₁ ⟨number, books⟩
  rw [Job.ensures_bind]
  apply (create_books true source deadline startedAt).mono
  rintro _ w₂ ⟨⟨s, rfl, permit, active, rfl⟩, books'⟩
  have opened : Tended (s :: hand) w₂.books := by
    rw [books', books]
    exact ⟨h.accounts.opened permit active number, h.agenda⟩
  exact (tends_assignStream name (.unfinished s)).bind (fun _ => .ret rfl) w₂ opened

theorem tends_takePermit (tends : p.Tends) (t : Instant) (h : Tended hand w.books) :
    (Client.takePermit t).Ensures p w fun taken w' =>
      if taken then ∃ w₁ : World, Tended hand w₁.books ∧ w' = w₁.mapSemaphore Semaphore.take
      else Tended hand w'.books := by
  simp only [Client.takePermit, Job.ensures_bind, Job.ensures_await, Job.ensures_ite,
    Job.ensures_modify, Job.ensures_pure]
  have waited := tends t (·.client.semaphore.hasRoom) hand w h
  split
  · exact ⟨w, h, rfl⟩
  · split
    · exact ⟨_, waited, rfl⟩
    · exact waited

theorem tends_perform (tends : p.Tends) {act : Act} (streams : act.ofStreams = true) :
    act.perform.Tends p hand fun _ => hand := by
  cases act with
  | openStream name chunks deadline key startedAgo held =>
    obtain rfl : held = true := streams
    refine .look fun w w' h => ?_
    rw [if_pos rfl, Job.ensures_bind]
    apply (tends_takePermit tends _ h).mono
    intro taken w₁ result
    cases taken with
    | false => exact result
    | true =>
      obtain ⟨w₂, h, rfl⟩ := result
      exact tends_opens name chunks _ _ key h
  | next name times =>
    exact .bind (tends_pullStream tends name times) fun results => .look fun _ => .ret rfl
  | close name => exact .bind (tends_assignStream name .finished) fun _ => .ret rfl
  | drop name =>
    exact .bind (tends_takeStream name) fun s => .bind s.tends_close fun _ => .ret rfl
  | move name dest =>
    have answers : Job.Tends p hand (do
        return Answer.moved (← findStream name).isFinished (← findStream dest).isFinished)
        fun _ => hand :=
      .look fun _ => .look fun _ => .ret rfl
    refine .ite (.bind (tends_putStream name .finished) fun s => ?_) answers
    exact .bind (tends_assignStream dest s) fun _ => answers
  | advance duration => exact .bind (.wait tends duration) fun _ => .ret rfl
  | later wait act =>
    refine .bind (fun w h => ?_) fun _ => .ret rfl
    constructor
    case accounts => exact { h.accounts with }
    case agenda =>
      intro e member
      rcases World.mem_postpone member with member | rfl
      · exact h.agenda e member
      · exact streams
  | _ => cases streams

end Act

/-- Acts on streams keep the books in order, whatever those who wait have on hand. -/
theorem World.lasting_tended :
    Lasting (fun act => act.ofStreams = true) fun hand w => Tended hand w.books where
  agenda h := h.agenda
  taken {_ _ first agenda} next h := by
    have listed : ∀ e ∈ first :: agenda, e.2.ofStreams = true := next ▸ h.agenda
    exact ⟨{ h.accounts with }, (List.forall_mem_cons.mp listed).2⟩
  advance _ h := ⟨{ h.accounts with }, h.agenda⟩
  answered _ h := h
  perform tends streams _ _ h := Act.tends_perform tends streams _ h

theorem Pause.acts_tends (n : Nat) : (Pause.acts n).Tends := World.lasting_tended.acts n

/-- Nothing has changed but, it may be, which names finished streams have. -/
structure World.Alike (w w' : World) : Prop where
  others : { w' with streams := w.streams } = w
  stream_eq : ∀ name, w'.stream name = w.stream name

theorem World.Alike.trans {w₁ w₂ w₃ : World} (h : w₁.Alike w₂) (h' : w₂.Alike w₃) :
    w₁.Alike w₃ where
  others := by
    rw [← h.others, ← h'.others]
  stream_eq name := (h'.stream_eq name).trans (h.stream_eq name)

theorem World.stream_insert (name other : Bytes) (s : EventStream) :
    { w with streams := w.streams.insert name s }.stream other =
      if name = other then s else w.stream other := by
  rw [stream, Table.get?_insert]
  split
  · rfl
  · rfl

namespace EventStream

theorem finish_streams (succeeded : Bool) :
    (finish s succeeded).Ensures p w fun _ w' => w'.streams = w.streams := by
  have disposed : s.source.dispose.Ensures p w fun _ w' => w'.streams = w.streams := by
    rcases s.source with b | ⟨session, _ | c, status, headers⟩
    · rfl
    · rfl
    · rfl
  rw [finish, Job.ensures_bind]
  apply disposed.mono
  intro _ w₁ same
  cases s.permit with
  | false => exact same
  | true => exact same

theorem close_streams (s : EventStream) :
    s.close.Ensures p w fun _ w' => w'.streams = w.streams := by
  cases s with
  | finished => rfl
  | unfinished s => exact finish_streams true

end EventStream

namespace Act

theorem putStream_finished {name : Bytes} (finished : w.stream name = .finished) :
    (putStream name .finished).Ensures p w fun old w' => old = .finished ∧ w.Alike w' := by
  rw [putStream, Job.ensures_modifyGet, finished]
  refine ⟨rfl, rfl, fun other => ?_⟩
  refine (World.stream_insert name other .finished).trans ?_
  split
  · rename_i same
    rw [← same, finished]
  · rfl

/-- A stream that is finished has nothing more to tell, and asking it changes nothing. -/
theorem next_finished {name : Bytes} (finished : w.stream name = .finished) (times : Nat) :
    (Act.perform (.next name times)).Ensures p w fun answer w' =>
      answer = .pulled (List.replicate times .ended) true ∧ w.Alike w' := by
  have pulled : (pullStream name times).Ensures p w fun results w' =>
      results = List.replicate times .ended ∧ w.Alike w' := by
    induction times generalizing w with
    | zero => exact ⟨rfl, rfl, fun _ => rfl⟩
    | succ times ih =>
      rw [pullStream, Job.ensures_bind]
      apply (putStream_finished finished).mono
      rintro _ w₁ ⟨rfl, alike₁⟩
      simp only [Job.ensures_bind, EventStream.next, Job.ensures_pure, assignStream]
      apply (putStream_finished ((alike₁.stream_eq name).trans finished)).mono
      rintro _ w₂ ⟨rfl, alike₂⟩
      have alike := alike₁.trans alike₂
      rw [EventStream.close, Job.ensures_pure]
      apply (ih ((alike.stream_eq name).trans finished)).mono
      rintro _ w₃ ⟨rfl, alike₃⟩
      exact ⟨rfl, alike.trans alike₃⟩
  rw [perform, Job.ensures_bind]
  apply pulled.mono
  rintro _ w' ⟨rfl, alike⟩
  have found : w'.stream name = .finished := (alike.stream_eq name).trans finished
  simp only [Job.ensures_bind, findStream, Job.ensures_get, Job.ensures_pure, found,
    EventStream.isFinished, alike, and_self]

/-- What is left of a stream that was moved is finished, unless it was moved onto itself; then
nothing has changed. -/
theorem move_moves (name dest : Bytes) :
    (Act.perform (.move name dest)).Ensures p w fun _ w' =>
      if name = dest then w' = w
      else w'.stream name = .finished ∧ w'.stream dest = w.stream name := by
  rw [perform]
  by_cases same : name = dest
  · subst same
    simp only [ne_eq, not_true_eq_false, if_false, if_true, Job.ensures_bind, findStream,
      Job.ensures_get, Job.ensures_pure]
  · simp only [ne_eq, same, not_false_eq_true, if_true, if_false, Job.ensures_bind, findStream,
      putStream, assignStream, Job.ensures_modifyGet, Job.ensures_get, Job.ensures_pure]
    apply (EventStream.close_streams _).mono
    intro _ w₁ streams
    constructor
    · rw [World.stream, streams, Table.get?_insert, if_neg (Ne.symm same), Table.get?_insert,
        if_pos rfl]
      rfl
    · rw [World.stream, streams, Table.get?_insert, if_pos rfl]
      rfl

end Act

namespace World

variable {c : Config} {chance : UInt64}

theorem ofState_tended (made : ofState c chance = .ok w) : Tended [] w.books := by
  unfold ofState at made
  cases created : Semaphore.create c.maxConcurrent with
  | error f =>
    rw [created] at made
    cases made
  | ok semaphore =>
    rw [created] at made
    cases made
    constructor
    case accounts =>
      constructor
      case whole => exact List.forall_mem_nil _
      case inUse_eq | leased_eq | counted_eq => rfl
      case live_perm | made_perm => exact .nil
      case ordered =>
        intro number older suffix
        cases List.suffix_nil.mp suffix
    case agenda => exact List.forall_mem_nil _

/-- In a run of acts on streams that have permits, others that were put off included, the permits
that are out, the buffers on lease and the bodies that are held are those of the streams that are
unfinished; every other stream that was opened is counted once, as a success or a failure; and every
other body that was made was let go of once, before the permit of its stream was given back. That
is so at every moment in between, while something waits and a stream that is read is on hand. A
finished stream has nothing to tell, and what is left of one that was moved is finished. -/
theorem steps_tended (made : ofState c chance = .ok w) {acts : List Act}
    (streams : ∀ act ∈ acts, act.ofStreams = true) :
    Accounts (w.steps acts).books.unfinished (w.steps acts).books ∧
      (∀ n, (Pause.acts n).Tends) ∧
      (∀ (p : Pause) (act : Act) (hand : List OpenStream) (w' : World), p.Tends →
        act.ofStreams = true → Tended hand w'.books → Tended hand (w'.happen act p).books) ∧
      (∀ (p : Pause) (w' : World) (name : Bytes) (times : Nat), w'.stream name = .finished →
        (Act.perform (.next name times)).Ensures p w' fun answer w'' =>
          answer = .pulled (List.replicate times .ended) true ∧ w'.Alike w'') ∧
      ∀ (p : Pause) (w' : World) (name dest : Bytes),
        (Act.perform (.move name dest)).Ensures p w' fun _ w'' =>
          if name = dest then w'' = w'
          else w''.stream name = .finished ∧ w''.stream dest = w'.stream name := by
  constructor
  · exact (lasting_tended.steps streams (ofState_tended made)).accounts
  constructor
  · exact Pause.acts_tends
  constructor
  · exact fun p act hand w' tends streams => lasting_tended.happen tends streams
  constructor
  · exact fun p w' name times finished => Act.next_finished finished times
  · exact fun p w' name dest => Act.move_moves name dest

/-- A stream is moved onto another one, and then onto itself; what is left of it is asked in vain.
While the stream is read, a third one is opened, and the permit of the second is free for it. -/
theorem steps_tended_moved :
    let c : Config := { clientTag := [], maxConcurrent := 2 }
    let chunks : List Chunk := [{ data := ascii "data: 1\n", delay := 5 }]
    let acts : List Act := [
      .openStream [1] chunks 9 [] 0 true, .openStream [2] [] 9 [] 0 true, .move [1] [2],
      .move [2] [2], .next [1] 2, .later 2 (.openStream [3] [] 9 [] 0 true), .next [2] 1]
    ∃ w, ofState c 1 = .ok w ∧ (∀ act ∈ acts, act.ofStreams = true) ∧
      Accounts (w.steps acts).books.unfinished (w.steps acts).books ∧
      (w.steps acts).books.unfinished.length = 2 ∧ (w.steps acts).books.opened = 3 ∧
      (w.steps acts).books.freed = [2] ∧ ((w.steps acts).stream [1]).isFinished = true := by
  intro c chunks acts
  let w : World := { config := c, client := .ofConfig c 1, chance := .ofSeed 1 }
  have made : ofState c 1 = .ok w := by rfl
  have streams : ∀ act ∈ acts, act.ofStreams = true := by simp [acts, Act.ofStreams]
  have length : (w.steps acts).books.unfinished.length = 2 := by decide +kernel
  have opened : (w.steps acts).books.opened = 3 := by decide +kernel
  have freed : (w.steps acts).books.freed = [2] := by decide +kernel
  have finished : ((w.steps acts).stream [1]).isFinished = true := by decide +kernel
  exact ⟨w, made, streams, (steps_tended made streams).1, length, opened, freed, finished⟩

end World

end Parley
