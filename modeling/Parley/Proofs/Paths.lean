import Mathlib.Data.List.DropRight
import Parley.Proofs.Addresses
import Parley.Proofs.Cuts
import Parley.Proofs.Reckoning
import Parley.Proofs.Requests

/-!
Where paths meet. The slashes that a base ends in count for nothing, and what goes below it is
slashed: it begins with a slash, its own one if it has one. So paths can be joined in any order, and
every request of a client aims at the path of its base address with the path of chats below it.

* `Bytes.StripsTo`: a base without the slashes at its end;
* `joinPath_eq`, `joinPath_assoc`: one join, and one after another;
* `World.steps_aim`: what is asked for in a run.
-/
namespace Parley

namespace Bytes

/-- A base that ends in slashes, none or more of them, and what it is without them. -/
structure StripsTo (base front : Bytes) : Prop where
  slashes : ∃ n, base = front ++ List.replicate n (byte '/')
  bare : front.getLast? ≠ some (byte '/')

/-- A byte string in front of the slashes that it ends in. -/
theorem stripsTo_trimEnd (base : Bytes) : base.StripsTo (base.trimEnd (· = byte '/')) := by
  induction base using List.reverseRecOn with
  | nil => exact ⟨⟨0, rfl⟩, by decide⟩
  | append_singleton base b ih =>
    rw [trimEnd_eq_rdropWhile]
    by_cases slash : b = byte '/'
    · obtain ⟨⟨n, base_eq⟩, bare⟩ := ih
      rw [List.rdropWhile_concat_pos _ _ _ (by simpa using slash)]
      refine ⟨⟨n + 1, ?_⟩, bare⟩
      rw [List.replicate_succ', ← List.append_assoc, slash]
      exact congrArg (· ++ _) base_eq
    · rw [List.rdropWhile_concat_neg _ _ _ (by simpa using slash)]
      refine ⟨⟨0, (List.append_nil _).symm⟩, ?_⟩
      simpa using slash

/-- There is only one way to take the slashes away. -/
theorem StripsTo.trimEnd_eq {base front : Bytes} (h : base.StripsTo front) :
    base.trimEnd (· = byte '/') = front := by
  obtain ⟨⟨n, rfl⟩, bare⟩ := h
  have slashes : trimEnd (· = byte '/') (List.replicate n (byte '/')) = [] := by
    rw [trimEnd_eq_rdropWhile, List.rdropWhile_eq_nil_iff]
    intro b member
    simpa using List.eq_of_mem_replicate member
  rw [trimEnd_append, if_pos slashes, trimEnd_eq_rdropWhile, List.rdropWhile_eq_self_iff]
  intro some
  rw [List.getLast?_eq_some_getLast some] at bare
  simpa using bare

theorem StripsTo.head? {base front : Bytes} (h : base.StripsTo front) (filled : front ≠ []) :
    front.head? = base.head? := by
  obtain ⟨n, rfl⟩ := h.slashes
  exact (List.head?_append_of_ne_nil front filled).symm

/-- A path that goes below a base. -/
def slashed (path : Bytes) : Bytes :=
  if path.head? = some (byte '/') then path else byte '/' :: path

theorem slashed_of_starts {path : Bytes} (starts : path.head? = some (byte '/')) :
    slashed path = path := if_pos starts

theorem slashed_of_bare {path : Bytes} (bare : path.head? ≠ some (byte '/')) :
    slashed path = byte '/' :: path := if_neg bare

theorem slashed_starts (path : Bytes) : (slashed path).head? = some (byte '/') := by
  by_cases starts : path.head? = some (byte '/')
  · rw [slashed_of_starts starts, starts]
  · rw [slashed_of_bare starts, List.head?_cons]

theorem slashed_append {s : Bytes} (filled : s ≠ []) (t : Bytes) :
    slashed (s ++ t) = slashed s ++ t := by
  have head_eq : (s ++ t).head? = s.head? := List.head?_append_of_ne_nil s filled
  by_cases starts : s.head? = some (byte '/')
  · rw [slashed_of_starts starts, slashed_of_starts (head_eq.trans starts)]
  · rw [slashed_of_bare starts, slashed_of_bare (head_eq ▸ starts), List.cons_append]

section Bases
variable {base : Bytes}

/-- A base of slashes alone is as good as none, with another slash in front of it too. -/
theorem trimEnd_slashed_of_blank (blank : base.trimEnd (· = byte '/') = []) :
    base.slashed.trimEnd (· = byte '/') = [] := by
  by_cases starts : base.head? = some (byte '/')
  · rw [slashed_of_starts starts, blank]
  · rw [slashed_of_bare starts, ← List.singleton_append, trimEnd_append, if_pos blank]
    rfl

theorem trimEnd_slashed (filled : base.trimEnd (· = byte '/') ≠ []) :
    base.slashed.trimEnd (· = byte '/') = (base.trimEnd (· = byte '/')).slashed := by
  have head_eq := (stripsTo_trimEnd base).head? filled
  by_cases starts : base.head? = some (byte '/')
  · rw [slashed_of_starts starts, slashed_of_starts (head_eq.trans starts)]
  · rw [slashed_of_bare starts, slashed_of_bare (head_eq.symm ▸ starts), ← List.singleton_append,
      trimEnd_append, if_neg filled, List.singleton_append]

/-- A base with something below it may go below another base: what is trimmed is the same. -/
theorem slashed_trimEnd_append (base path : Bytes) :
    (base.trimEnd (· = byte '/') ++ path.slashed).slashed =
      base.slashed.trimEnd (· = byte '/') ++ path.slashed := by
  by_cases blank : base.trimEnd (· = byte '/') = []
  · rw [trimEnd_slashed_of_blank blank, blank, List.nil_append]
    exact slashed_of_starts (slashed_starts path)
  · rw [slashed_append blank, trimEnd_slashed blank]

end Bases

end Bytes

open Bytes

theorem joinPath_eq (base path : Bytes) :
    joinPath base path = base.trimEnd (· = byte '/') ++ path.slashed := by
  cases path with
  | nil => rfl
  | cons b path =>
    by_cases slash : b = byte '/'
    · rw [slashed_of_starts (by rw [slash, List.head?_cons]), joinPath, if_pos slash]
    · rw [slashed_of_bare (by simpa using slash), joinPath, if_neg slash]

theorem joinPath_assoc (a b c : Bytes) :
    joinPath (joinPath a b) c = joinPath a (joinPath b c) := by
  simp only [joinPath_eq]
  rw [trimEnd_trimEnd_append, slashed_trimEnd_append, List.append_assoc]

theorem joinPath_append_slashes (base path : Bytes) (n : Nat) :
    joinPath (base ++ List.replicate n (byte '/')) path = joinPath base path := by
  obtain ⟨⟨m, base_eq⟩, bare⟩ := stripsTo_trimEnd base
  have longer : (base ++ List.replicate n (byte '/')).StripsTo (base.trimEnd (· = byte '/')) := by
    refine ⟨⟨m + n, ?_⟩, bare⟩
    rw [List.replicate_add, ← List.append_assoc, ← base_eq]
  rw [joinPath_eq, joinPath_eq, longer.trimEnd_eq]

/-- The root, which an address without a target stands for, is trimmed away. -/
theorem Url.Address.trimEnd_target (a : Url.Address) :
    a.url.target.trimEnd (· = byte '/') = a.target.trimEnd (· = byte '/') := by
  rw [Url.Address.url]
  by_cases none : a.target = []
  · rw [if_pos none, none]
    rfl
  · rw [if_neg none]

/-- What goes below a base that is empty or begins with a slash begins with one. -/
theorem Bytes.StripsTo.starts {base front : Bytes} (h : base.StripsTo front)
    (rooted : base = [] ∨ ∃ path, base = byte '/' :: path) (path : Bytes) :
    (front ++ path.slashed).head? = some (byte '/') := by
  by_cases filled : front = []
  · rw [filled, List.nil_append, slashed_starts]
  · rw [List.head?_append_of_ne_nil front filled, h.head? filled]
    obtain rfl | ⟨path, rfl⟩ := rooted
    · have slashes := h.slashes
      simp [filled] at slashes
    · rfl

namespace World

theorem Elapses.requests {asked : Request → Prop} {w w' : World} (elapses : Elapses w w') :
    w.Requests asked w' := by
  cases elapses with
  | advance t => exact .of_same rfl rfl
  | due next => exact .of_same rfl rfl
  | done answer => exact .of_same rfl rfl

/-- All requests of a run aim at the path that the world has. -/
theorem steps_aim (w : World) (acts : List Act) :
    w.Requests (fun request => request.target = w.target) (w.steps acts) := by
  have aimed : w.Aimed w.config True (· = w.target) := ⟨rfl, fun _ _ => .inl trivial, rfl⟩
  have moves : Moves (.aimed w.config True (· = w.target)) [] w [] (w.steps acts) :=
    steps_moves aimed fun _ _ => .inl trivial
  exact moves.keeps (P := fun _ w' => w.Requests _ w')
    (fun _ _ move before => before.trans (move.requests (fun _ _ => Elapses.requests)
      fun _ sends => sends)) (.refl w)

theorem exists_ofClient {c : Config} {url : Url} (valid : c.validate = .ok url)
    (chance : UInt64) (script : Script) :
    ∃ w, ofClient c chance script = .ok w ∧ w.target = joinPath url.target chatPath := by
  have some := (Config.validate_eq_ok.mp valid).maxConcurrent
  refine ⟨{
    config := c, target := joinPath url.target chatPath, client := .ofConfig c chance
    chance := .ofSeed chance, script }, ?_, rfl⟩
  rw [ofClient, valid]
  simp only [ofState, Semaphore.create, if_neg some]
  rfl

end World

/-- Paths can be joined in any order, slashes at the end of a base make no difference, and what goes
below a base has one slash in front of it. So the requests of a client, however its calls go, aim at
the path of its base address, its last slashes left out, with the path of chats below it. -/
theorem paths_join :
    (∀ a b c, joinPath (joinPath a b) c = joinPath a (joinPath b c)) ∧
    (∀ base path n, joinPath (base ++ List.replicate n (byte '/')) path = joinPath base path) ∧
    (∀ base, ∃ front, base.StripsTo front ∧ ∀ path, joinPath base path = front ++ path.slashed) ∧
    ∀ (c : Config) (url : Url), c.validate = .ok url →
      ∃ (a : Url.Address) (front : Bytes), a.text = c.baseUrl ∧ a.target.StripsTo front ∧
        (front ++ chatPath).head? = some (byte '/') ∧
        ∀ chance script, ∃ w, World.ofClient c chance script = .ok w ∧
          ∀ acts,
            w.Requests (fun request => request.target = front ++ chatPath) (w.steps acts) := by
  refine ⟨joinPath_assoc, joinPath_append_slashes, ?_, ?_⟩
  · intro base
    exact ⟨_, stripsTo_trimEnd base, joinPath_eq base⟩
  · intro c url valid
    obtain ⟨a, text, rfl⟩ := Url.exists_address (Config.validate_eq_ok.mp valid).parse_eq
    have strips := stripsTo_trimEnd a.target
    have starts := strips.starts a.target_starts chatPath
    refine ⟨a, _, text, strips, starts, ?_⟩
    intro chance script
    obtain ⟨w, begun, target_eq⟩ := World.exists_ofClient valid chance script
    refine ⟨w, begun, ?_⟩
    have aimed : w.target = a.target.trimEnd (· = byte '/') ++ chatPath := by
      rw [target_eq, joinPath_eq, a.trimEnd_target]
      rfl
    intro acts
    exact (World.steps_aim w acts).mono fun request aims => aims.trans aimed

/-- A base address with a path that ends in two slashes, and one call. -/
theorem paths_join_trimmed :
    let c : Config := { clientTag := [], baseUrl := ascii "http://h/api//" }
    let path := ascii "/api/v1/chat/completions"
    let w : World := { config := c, target := path, client := .ofConfig c 1, chance := .ofSeed 1 }
    let acts : List Act := [.chat [{ role := [], content := [104, 105] }] none]
    ∃ url front, c.validate = .ok url ∧ World.ofClient c 1 {} = .ok w ∧
      (w.steps acts).sent.map (·.request.target) = [path] ∧ front ++ chatPath = path ∧
      w.Requests (fun request => request.target = front ++ chatPath) (w.steps acts) := by
  intro c path w acts
  obtain ⟨url, valid⟩ : ∃ url, c.validate = .ok url := ⟨_, by rfl⟩
  obtain ⟨a, front, -, -, -, runs⟩ := paths_join.2.2.2 c url valid
  obtain ⟨w', begun', requests⟩ := runs 1 {}
  have begun : World.ofClient c 1 {} = .ok w := by rfl
  obtain rfl : w = w' := Except.ok.inj (begun.symm.trans begun')
  have sent : (w.steps acts).sent.map (·.request.target) = [path] := by decide +kernel
  obtain ⟨more, sent_eq, aimed⟩ := (requests acts).sent
  obtain ⟨s, sent_one, target_eq⟩ := List.map_eq_singleton_iff.mp sent
  have member : s ∈ w.sent ++ more := by
    rw [← sent_eq, sent_one]
    exact List.mem_singleton_self s
  have aims : s.request.target = front ++ chatPath := aimed s member
  exact ⟨url, front, valid, begun, sent, aims.symm.trans target_eq, requests acts⟩

end Parley
