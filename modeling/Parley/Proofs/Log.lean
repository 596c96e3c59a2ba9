import Parley.Proofs.Reckoning

/-!
What a run enters into its log. Nothing reads the log; it tells which attempts were allowed, for how
long, and when streams asked for more. A move makes one entry at most, and `Move.logs` says when it
does, and what a move does besides to the clock, to the calls whose time is running, and to a client
that was shut down. What is kept by each of these is kept by whole runs: `World.steps_keeps`.
-/
namespace Parley

namespace Holding

def running? : Holding → Option Call
  | .call (.trying own _) => some own
  | _ => none

/-- The calls whose time is running. -/
def running (hand : List Holding) : List Call := hand.filterMap running?

section Running
variable {hand hand' : List Holding}

@[simp] theorem running_append : running (hand ++ hand') = running hand ++ running hand' :=
  List.filterMap_append

@[simp] theorem running_source (s : Source) : running s.holdings = [] := by
  rcases s with b | ⟨session, _ | c, status, headers⟩ <;> rfl

@[simp] theorem running_eventStream (s : EventStream) : running s.holdings = [] := by
  cases s with
  | finished => rfl
  | unfinished s =>
    rw [EventStream.holdings, running_append, running_source]
    rfl

@[simp] theorem running_sourceHoldings (w : World) (name : Bytes) :
    running (w.sourceHoldings name) = [] := by
  unfold World.sourceHoldings
  cases w.sources.get? name with
  | none => rfl
  | some s => simp

@[simp] theorem running_trying {call : Call} {k : Nat} :
    running (.call (.trying call k) :: hand) = call :: running hand := rfl

@[simp] theorem running_leaving : running (.call .leaving :: hand) = running hand := rfl

@[simp] theorem running_stream {permit : Bool} : running (.stream permit :: hand) = running hand :=
  rfl

end Running

end Holding

/-- What is entered into the log from one moment to the next. -/
inductive Logs (hand : List Holding) (w : World) (hand' : List Holding) (w' : World) : Prop
  /-- Nothing is, and no call sets out. -/
  | nothing (log_eq : w'.log = w.log) (forward : w.now ≤ w'.now)
      (shut : w.client.shutdown = true → w'.client.shutdown = true)
      (running : ∀ call ∈ Holding.running hand', call ∈ Holding.running hand)
  /-- The time of a call begins to run. -/
  | setOut (call : Call) (start_eq : call.start = w.now)
      (budget_eq : call.budget = remainingUntil call.deadline call.start)
      (running_eq : Holding.running hand' = call :: Holding.running hand) (same : w' = w)
  /-- An attempt of a call whose time is running begins. -/
  | attempt (call : Call) (member : call ∈ Holding.running hand)
      (runs : w.client.shutdown = false) (left : call.elapsed w.now < call.budget)
      (log_eq : w'.log = ⟨.tried call (call.budget - call.elapsed w.now), w.now⟩ :: w.log)
      (now_eq : w'.now = w.now) (client_eq : w'.client.shutdown = w.client.shutdown)
      (running_eq : Holding.running hand' = Holding.running hand)
  /-- Something else is entered that is true. -/
  | mark (m : Mark) (fair : m.Fair w) (hand_eq : hand' = hand) (same : w' = w.mark m)

variable {c : Config} {raw : Prop} {hand hand' : List Holding} {w w' : World}

theorem World.Elapses.logs (elapses : World.Elapses w w') : Logs hand w hand w' := by
  cases elapses with
  | advance t => exact .nothing rfl (Int.le_max_left ..) id fun _ => id
  | due next => exact .nothing rfl (Int.le_refl _) id fun _ => id
  | done answer => exact .nothing rfl (Int.le_refl _) id fun _ => id

/-- Whatever is done besides, the clock stands still. -/
theorem Logs.still (log_eq : w'.log = w.log) (now_eq : w'.now = w.now)
    (client_eq : w'.client.shutdown = w.client.shutdown)
    (running_eq : Holding.running hand' = Holding.running hand) : Logs hand w hand' w' :=
  .nothing log_eq (Int.le_of_eq now_eq.symm) (fun shut => client_eq.trans shut)
    fun _ member => running_eq ▸ member

theorem Move.logs {a b : List Holding × World} (move : Move (.ofActs c raw) a b) :
    Logs a.1 a.2 b.1 b.2 := by
  cases move with
  | elapse elapses => exact elapses.logs
  | aside core_eq =>
    exact .still (congrArg (·.log) core_eq) (congrArg (·.now) core_eq)
      (congrArg (·.client.shutdown) core_eq) rfl
  | mark fair => exact .mark _ fair rfl rfl
  | shutDown => exact .nothing rfl (Int.le_refl _) (fun _ => rfl) fun _ => id
  | setOut start_eq budget_eq => exact .setOut _ start_eq budget_eq rfl rfl
  | attempt more running left =>
    exact .attempt _ (List.mem_cons_self ..) running left rfl rfl rfl rfl
  | desist front =>
    refine .nothing rfl (Int.le_refl _) id fun call member => ?_
    simp only [Holding.running_append, Holding.running_leaving, Holding.running_trying,
      List.mem_append, List.mem_cons] at member ⊢
    exact member.imp_right .inr
  | closeStream permit succeeded => cases permit <;> exact .still rfl rfl rfl rfl
  | openStream s => exact .still rfl rfl rfl (by simp)
  | putStream name s => exact .still rfl rfl rfl (by simp)
  | takeStream name => exact .still rfl rfl rfl (by simp)
  | putSource raw name s => exact .still rfl rfl rfl (by simp)
  | takeSource raw name => exact .still rfl rfl rfl (by simp)
  | adopt raw s permit => exact .still rfl rfl rfl (by simp)
  | _ => exact .still rfl rfl rfl rfl

theorem Logs.forward (logs : Logs hand w hand' w') : w.now ≤ w'.now := by
  cases logs with
  | nothing log_eq forward => exact forward
  | setOut call start_eq budget_eq running_eq same =>
    exact Int.le_of_eq (congrArg (·.now) same.symm)
  | attempt call member runs left log_eq now_eq => exact Int.le_of_eq now_eq.symm
  | mark m fair hand_eq same => exact Int.le_of_eq (congrArg (·.now) same.symm)

/-- A pause during which the clock does not go back. -/
def Pause.Forward (p : Pause) : Prop := ∀ t stop (w : World), w.now ≤ (p t stop w).now

theorem Pause.acts_forward (n : Nat) : (Pause.acts n).Forward := by
  intro t stop w
  have moves : Moves (.ofActs w.config True) [] w [] (Pause.acts n t stop w) :=
    Pause.acts_keeps n t trivial stop [] w (World.orderly_raw rfl)
  exact moves.keeps (P := fun _ w' => w.now ≤ w'.now)
    (fun _ _ move le => Int.le_trans le move.logs.forward) (Int.le_refl _)

namespace World

/-- What is kept by everything that may be entered is kept by whole runs. -/
theorem steps_keeps {P : List Holding → World → Prop}
    (kept : ∀ hand w hand' w', Logs hand w hand' w' → P hand w → P hand' w') (h : P [] w)
    (acts : List Act) : P [] (w.steps acts) := by
  exact (steps_raw rfl acts).keeps (fun _ _ move => kept _ _ _ _ move.logs) h

/-- A world in which nothing was done. -/
theorem Begun.start (begun : Begun c w) :
    w.now = 0 ∧ w.log = [] ∧ w.client.shutdown = false := by
  obtain ⟨chance, script, begun | begun⟩ := begun
  · obtain ⟨s, -, rfl⟩ := ofSession_eq begun
    exact ⟨rfl, rfl, rfl⟩
  · obtain ⟨url, -, rfl⟩ := ofClient_eq begun
    exact ⟨rfl, rfl, rfl⟩

end World

end Parley
