import Parley.World

/-!
Jobs that are under way at the same time. One of them goes on at a time, as far as it can without
waiting; nobody can tell which one is next. What happens while one of them waits is what the others
do, and that time passes.
-/
namespace Parley

variable {α : Type}

/-- A job on its way. -/
inductive Thread (α : Type) where
  | unbegun (job : Job α)
  | waiting (t : Instant) (stop : World → Bool) (resume : World → Strand α)
  | ended (a : α)

/-- The thread of something that has gone on as far as it can, and the world that it leaves. -/
def Strand.thread : Strand α → Thread α × World
  | ends a w => (.ended a, w)
  | waits t stop w resume => (.waiting t stop resume, w)

namespace Thread

/-- A thread goes on, to its next wait or to its end. If what it waits for does not hold yet, it
goes on at the end of its wait at the earliest. -/
def go : Thread α → World → Thread α × World
  | unbegun job, w => (job w).thread
  | waiting t stop resume, w => (resume (Pause.quiet t stop w)).thread
  | ended a, w => (ended a, w)

/-- A thread goes on to its end while the others do not. -/
def finish : Thread α → World → α × World
  | unbegun job, w => (job.run .quiet).run w
  | waiting t stop resume, w => (resume (Pause.quiet t stop w)).run .quiet
  | ended a, w => (a, w)

/-- Threads go on to their ends, one after the other. -/
def finishAll : List (Thread α) → World → List α × World
  | [], w => ([], w)
  | thread :: threads, w =>
    let (a, w) := thread.finish w
    let (results, w) := finishAll threads w
    (a :: results, w)

end Thread

end Parley
