import Mathlib.Data.List.Forall2
import Mathlib.Data.List.Induction
import Parley.Proofs.Exchanges

/-!
What is found under a name among the fields of a response. The fields may come in any order and
spelling, and so may the name: the last field counts whose name is the same but for the case of its
letters, and where there is none, nothing is found.

* `Bytes.SameName`: the same name, told without small letters being made of others;
* `Headers.lookup_collect`: the last field counts;
* `Session.responses_found`: what is found in the responses that the wire brings.
-/
namespace Parley

namespace Bytes

/-- The same byte, or the two cases of one letter. -/
def SameLetter (a b : UInt8) : Prop :=
  a = b ∨ (byte 'A' ≤ a ∧ a ≤ byte 'Z' ∧ b = a + 32) ∨ (byte 'A' ≤ b ∧ b ≤ byte 'Z' ∧ a = b + 32)

/-- Names that are the same but for the case of their letters. -/
def SameName (a b : Bytes) : Prop := List.Forall₂ SameLetter a b

theorem lowerByte_eq_iff {a b : UInt8} : lowerByte a = lowerByte b ↔ SameLetter a b := by
  have a_lt := a.toNat_lt
  have b_lt := b.toNat_lt
  simp only [lowerByte, SameLetter, Bool.and_eq_true, decide_eq_true_eq, UInt8.le_iff_toNat_le,
    ← UInt8.toNat_inj]
  split <;> split <;> simp only [UInt8.toNat_add] <;> simp at * <;> omega

theorem lower_eq_iff {a b : Bytes} : a.lower = b.lower ↔ a.SameName b := by
  induction a generalizing b with
  | nil => cases b <;> simp [lower, SameName]
  | cons x a ih =>
    cases b with
    | nil => simp [lower, SameName]
    | cons y b =>
      rw [SameName, List.forall₂_cons, ← lowerByte_eq_iff, ← SameName, ← ih, lower, lower,
        List.map_cons, List.map_cons, List.cons.injEq]
      rfl

end Bytes

namespace Headers

variable {fields : List (Bytes × Bytes)} {name value : Bytes}

/-- No field has the name. -/
def Unnamed (fields : List (Bytes × Bytes)) (name : Bytes) : Prop :=
  ∀ f ∈ fields, ¬ f.1.SameName name

/-- The last field that has the name has this value. -/
def LastNamed (fields : List (Bytes × Bytes)) (name value : Bytes) : Prop :=
  ∃ front n back, fields = front ++ (n, value) :: back ∧ n.SameName name ∧ Unnamed back name

/-- What is found under a name among some fields. -/
structure Found (fields : List (Bytes × Bytes)) (name value : Bytes) : Prop where
  last : ∀ v, LastNamed fields name v → value = v
  empty_iff : value = [] ↔ Unnamed fields name ∨ LastNamed fields name []

section Concat
variable {n v : Bytes}

theorem unnamed_concat :
    Unnamed (fields ++ [(n, v)]) name ↔ Unnamed fields name ∧ ¬ n.SameName name := by
  simp [Unnamed, or_imp, forall_and]

/-- The last field is the one that is told of, or is among those after it. -/
theorem concat_cut {f g : Bytes × Bytes} {front back : List (Bytes × Bytes)}
    (cut : fields ++ [f] = front ++ g :: back) :
    f = g ∨ ∃ init, back = init ++ [f] ∧ fields = front ++ g :: init := by
  obtain rfl | ⟨init, last, rfl⟩ := List.eq_nil_or_concat back
  · obtain ⟨-, same⟩ := List.append_inj' cut rfl
    exact .inl (List.singleton_inj.mp same)
  · rw [List.concat_eq_append, ← List.cons_append, ← List.append_assoc] at cut
    obtain ⟨fields_eq, same⟩ := List.append_inj' cut rfl
    obtain rfl : f = last := List.singleton_inj.mp same
    exact .inr ⟨init, List.concat_eq_append, fields_eq⟩

theorem lastNamed_concat (same : n.SameName name) :
    LastNamed (fields ++ [(n, v)]) name value ↔ v = value := by
  constructor
  · rintro ⟨front, n', back, fields_eq, -, others⟩
    obtain last | ⟨init, rfl, -⟩ := concat_cut fields_eq
    · exact congrArg Prod.snd last
    · exact absurd same (unnamed_concat.mp others).2
  · rintro rfl
    exact ⟨fields, n, [], rfl, same, List.forall_mem_nil _⟩

theorem lastNamed_concat_of_not (other : ¬ n.SameName name) :
    LastNamed (fields ++ [(n, v)]) name value ↔ LastNamed fields name value := by
  constructor
  · rintro ⟨front, n', back, fields_eq, same, others⟩
    obtain last | ⟨init, rfl, init_eq⟩ := concat_cut fields_eq
    · obtain ⟨rfl, -⟩ := Prod.mk.inj last
      exact absurd same other
    · exact ⟨front, n', init, init_eq, same, (unnamed_concat.mp others).1⟩
  · rintro ⟨front, n', back, rfl, same, others⟩
    refine ⟨front, n', back ++ [(n, v)], ?_, same, unnamed_concat.mpr ⟨others, other⟩⟩
    rw [List.append_assoc, List.cons_append]

theorem lookup_collect_concat : lookup (.collect (fields ++ [(n, v)])) name =
    if n.lower = name.lower then v else lookup (.collect fields) name := by
  rw [lookup, collect, List.foldl_append, List.foldl_cons, List.foldl_nil, Table.get?_insert]
  split <;> rfl

end Concat

/-- Of several fields of one name the last one counts, and fields that have other names count for
nothing. -/
theorem found_collect (fields : List (Bytes × Bytes)) (name : Bytes) :
    Found fields name (lookup (.collect fields) name) := by
  induction fields using List.reverseRecOn with
  | nil =>
    constructor
    case last =>
      rintro v ⟨front, n, back, none, -⟩
      simp at none
    case empty_iff => exact iff_of_true rfl (.inl (List.forall_mem_nil _))
  | append_singleton fields f ih =>
    obtain ⟨n, v⟩ := f
    rw [lookup_collect_concat]
    by_cases same : n.SameName name
    · rw [if_pos (Bytes.lower_eq_iff.mpr same)]
      constructor
      case last => exact fun v' last => (lastNamed_concat same).mp last
      case empty_iff => simp [unnamed_concat, lastNamed_concat same, same]
    · rw [if_neg (mt Bytes.lower_eq_iff.mp same)]
      constructor
      case last => exact fun v' last => ih.last v' ((lastNamed_concat_of_not same).mp last)
      case empty_iff => simp [ih.empty_iff, unnamed_concat, lastNamed_concat_of_not same, same]

end Headers

namespace Session

open Headers

variable {p : Pause} {w : World} {i : Nat}

/-- What is found in a response: the head of one was read, and it is found among its fields. -/
def Brings (w w' : World) (header : Bytes → Bytes) : Prop :=
  ∃ own x, w'.marks = own ++ w.marks ∧ headed? own = some x ∧
    ∀ name, Found x.fields name (header name)

theorem Comes.brings {α β : Type} {wire : WireRequest} {view : α → β} {answer : Exchange → β}
    {a : α} {header : Bytes → Bytes} {w w' : World} (comes : Comes wire view answer w (.ok a) w')
    (found : ∀ x, view a = answer x → ∀ name, Found x.fields name (header name)) :
    Brings w w' header := by
  obtain ⟨own, marks, -, viewed, -⟩ := comes
  cases headed : headed? own with
  | none =>
    rw [headed] at viewed
    cases viewed
  | some x =>
    rw [headed] at viewed
    exact ⟨own, x, marks, headed, found x (Option.some.inj viewed)⟩

theorem send_brings (i : Nat) (request : Request) (timeout : Millis) :
    (send i request timeout).Ensures p.silenced w fun r w' => ∀ a, r = .ok a →
      Brings w w' a.header := by
  cases writes : WireRequest.ofRequest (find w i).hostHeader request with
  | error f =>
    simp only [send, Flow.ensures_bind, Flow.ensures_get, Flow.ensures_lift, ensures_current,
      writes, Flow.ensures_ofExcept]
    rintro _ ⟨⟩
  | ok wire =>
    apply (send_comes timeout writes).mono
    rintro _ w' comes a rfl
    apply comes.brings
    rintro x rfl name
    exact found_collect x.fields name

theorem sendStreaming_brings (i : Nat) (request : Request) (timeout : Millis) :
    (sendStreaming i request timeout).Ensures p.silenced w fun r w' => ∀ b, r = .ok b →
      Brings w w' (Source.wire b).header := by
  cases writes : WireRequest.ofRequest (find w i).hostHeader request with
  | error f =>
    simp only [sendStreaming, Flow.ensures_bind, Flow.ensures_get, Flow.ensures_lift,
      ensures_current, writes, Flow.ensures_ofExcept]
    rintro _ ⟨⟩
  | ok wire =>
    apply (sendStreaming_comes timeout writes).mono
    rintro _ w' comes b rfl
    apply comes.brings
    intro x viewed name
    have headers : b.headers = .collect x.fields := congrArg (·.2.1) viewed
    have found := found_collect x.fields name
    rwa [← headers] at found

end Session

/-- Whatever fields the head of a response has, in any order and spelling and however often one name
is among them: under a name in any spelling the value of the last field of that name is found, and
nothing where there is none. This goes for a response that was read as a whole and for a streamed
one, and so for all that a session answers, whatever becomes of the wire and whatever happens
meanwhile. -/
theorem fields_found :
    (∀ (fields : List (Bytes × Bytes)) (name : Bytes),
      (∀ status body, Headers.Found fields name
        (Response.header { status, headers := .collect fields, body } name)) ∧
      ∀ source : Source, source.headers = .collect fields →
        Headers.Found fields name (source.header name)) ∧
    ∀ (i : Nat) (request : Request) (timeout : Millis) (p : Pause) (w : World),
      (Session.send i request timeout).Ensures p.silenced w (fun r w' => ∀ a, r = .ok a →
        Session.Brings w w' a.header) ∧
      (Session.sendStreaming i request timeout).Ensures p.silenced w (fun r w' => ∀ b, r = .ok b →
        Session.Brings w w' (Source.wire b).header) := by
  constructor
  · intro fields name
    have found := Headers.found_collect fields name
    refine ⟨fun _ _ => found, ?_⟩
    intro source headers
    rw [Source.header, headers]
    exact found
  · intro i request timeout p w
    exact ⟨Session.send_brings i request timeout, Session.sendStreaming_brings i request timeout⟩

/-- A delay is told twice, in two spellings, and a field without a value comes between. -/
theorem fields_found_respelled :
    let fields := [
      (ascii "RETRY-after", ascii "1"), (ascii "X", []), (ascii "retry-AFTER", ascii "20"),
      (ascii "Retry_After", ascii "3")]
    let c : Config := { clientTag := [], baseUrl := ascii "http://h" }
    let get : Request := { method := ascii "GET", target := [] }
    let script : Script := { exchanges := [{ status := 429, fields }] }
    ∃ s w, Session.ofConfig c = .ok s ∧
      w = { config := c, client := .ofConfig c 1, chance := .ofSeed 1, script, sessions := [s] } ∧
      Headers.Found fields (ascii "Retry-After") (ascii "20") ∧
      Headers.Found fields (ascii "x") [] ∧
      (Session.sendStreaming 0 get 5).Ensures Pause.quiet.silenced w fun r w' =>
        r.toOption.map (fun b => (Source.wire b).header (ascii "Retry-After")) =
            some (ascii "20") ∧
          ∀ b, r = .ok b → Session.Brings w w' (Source.wire b).header := by
  intro fields c get script
  let s : Session := (Session.ofConfig c).toOption.getD Session.absent
  have made : Session.ofConfig c = .ok s := by rfl
  let w : World := {
    config := c, client := .ofConfig c 1, chance := .ofSeed 1, script, sessions := [s] }
  let source : Source := .wire {
    session := 0, connection := none, status := 429, headers := .collect fields }
  have found (name : Bytes) : Headers.Found fields name (source.header name) :=
    (fields_found.1 fields name).2 source rfl
  have late : source.header (ascii "Retry-After") = ascii "20" := by decide
  have blank : source.header (ascii "x") = [] := by decide
  have told : (Session.sendStreaming 0 get 5).Ensures Pause.quiet.silenced w fun r _ =>
      r.toOption.map (fun b => (Source.wire b).header (ascii "Retry-After")) =
        some (ascii "20") := by
    decide +kernel
  have brings := (fields_found.2 0 get 5 .quiet w).2
  exact ⟨s, w, made, rfl, late ▸ found _, blank ▸ found _, told.and brings⟩

end Parley
