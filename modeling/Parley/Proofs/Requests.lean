import Parley.Proofs.Acts
import Parley.Proofs.RoundTrip
import Parley.Proofs.Timeouts

/-!
What a call asks for. All its attempts have one request, and that says what the caller said: whoever
parses its body finds the model, the limit and the messages as they were given. A call whose texts
cannot be written down asks for nothing.

* `chatRequest_asks`, `Message.ofJson_toJson`: the request as a value;
* `makeRequest_carries`: the request as a text;
* `Move.requests`: others may ask for something else in the meantime, but nobody asks in the name
  of a call.
-/
namespace Parley

namespace Message

theorem ofJson_toJson (m : Message) : ofJson m.toJson = .ok m := by rfl

/-- What was made of messages is read back, in order. -/
theorem mapM_ofJson (messages : List Message) :
    (messages.map toJson).mapM ofJson = .ok messages := by
  induction messages with
  | nil => rfl
  | cons m messages ih =>
    rw [List.map_cons, List.mapM_cons, ofJson_toJson, ih]
    rfl

theorem areExact_toJson (messages : List Message) :
    Json.areExact (messages.map toJson) = true := by
  induction messages with
  | nil => rfl
  | cons m messages ih =>
    have exact : m.toJson.isExact = true := by rfl
    rw [List.map_cons, Json.areExact, exact, ih]
    rfl

end Message

/-- The members of a request say this, and nothing else. -/
structure Asks (c : Config) (messages : List Message) (stream : Bool) (members : Table Json) :
    Prop where
  names_eq : members.map (·.1) =
    [ascii "max_tokens", ascii "messages", ascii "model"] ++
      if stream then [ascii "stream"] else []
  model : members.get? (ascii "model") = some (.string c.model)
  maxTokens : members.get? (ascii "max_tokens") = some (.int c.maxTokens)
  messages : ∃ items, members.get? (ascii "messages") = some (.array items) ∧
    items.mapM Message.ofJson = .ok messages
  stream : members.get? (ascii "stream") = if stream then some (.bool true) else none

/-- The body of a request, parsed, is what a call with these messages asks for. -/
def Request.Carries (c : Config) (messages : List Message) (stream : Bool) (request : Request) :
    Prop :=
  ∃ members, Json.parse request.body = .ok (.object members) ∧ Asks c messages stream members

section Values

variable {c : Config} {messages : List Message} {stream : Bool}

theorem asked_asks (c : Config) (messages : List Message) (stream : Bool) :
    Asks c messages stream (c.asked messages stream) := by
  have items := Message.mapM_ofJson messages
  cases stream <;> exact ⟨rfl, rfl, rfl, ⟨_, rfl, items⟩, rfl⟩

/-- A number of tokens that fits into 64 bits is read back. -/
theorem isExact_chatRequest (positive : 1 ≤ c.maxTokens) (fits : c.maxTokens ≤ 0xFFFFFFFFFFFFFFFF) :
    (chatRequest c messages stream).isExact = true := by
  have items := Message.areExact_toJson messages
  have number : -0x8000000000000000 ≤ c.maxTokens ∧ c.maxTokens ≤ 0xFFFFFFFFFFFFFFFF := by omega
  have before : (ascii "max_tokens").before (ascii "messages") ∧
      (ascii "max_tokens").before (ascii "model") ∧ (ascii "max_tokens").before (ascii "stream") ∧
      (ascii "messages").before (ascii "model") ∧ (ascii "messages").before (ascii "stream") ∧
      (ascii "model").before (ascii "stream") := by decide
  have ordered : Json.areOrdered (c.asked messages stream) = true := by
    cases stream <;> simp [Config.asked, Json.areOrdered, Json.isExact, items, number, before]
  exact (chatRequest_eq ..).symm ▸ ordered

end Values

/-- All that is asked for between two worlds, by whoever hands a request to a transport, and from
every scripted transport. -/
structure World.Requests (asked : Request → Prop) (w w' : World) : Prop where
  handed : ∃ new, w'.register = new ++ w.register ∧
    ∀ t request, .handed t request ∈ new → asked request
  sent : ∃ more, w'.sent = w.sent ++ more ∧ ∀ s ∈ more, asked s.request

namespace World.Requests

variable {asked asked' : Request → Prop} {w w' w'' : World}

theorem of_same (register_eq : w'.register = w.register) (sent_eq : w'.sent = w.sent) :
    w.Requests asked w' where
  handed := ⟨[], register_eq, fun _ _ member => absurd member List.not_mem_nil⟩
  sent := ⟨[], sent_eq.trans (List.append_nil _).symm, List.forall_mem_nil _⟩

theorem refl (w : World) : w.Requests asked w := of_same rfl rfl

theorem trans (h : w.Requests asked w') (h' : w'.Requests asked w'') : w.Requests asked w'' := by
  obtain ⟨⟨new, register_eq, handed⟩, more, sent_eq, sent⟩ := h
  obtain ⟨⟨new', register_eq', handed'⟩, more', sent_eq', sent'⟩ := h'
  constructor
  · refine ⟨new' ++ new, by rw [register_eq', register_eq, List.append_assoc], ?_⟩
    intro t request member
    exact (List.mem_append.mp member).elim (handed' t request) (handed t request)
  · refine ⟨more ++ more', by rw [sent_eq', sent_eq, List.append_assoc], ?_⟩
    exact fun s member => (List.mem_append.mp member).elim (sent s) (sent' s)

theorem mono (h : w.Requests asked w') (weaken : ∀ request, asked request → asked' request) :
    w.Requests asked' w' := by
  obtain ⟨⟨new, register_eq, handed⟩, more, sent_eq, sent⟩ := h
  exact ⟨⟨new, register_eq, fun t request member => weaken _ (handed t request member)⟩,
    more, sent_eq, fun s member => weaken _ (sent s member)⟩

/-- Something else than a request is entered. -/
theorem enrol {e : Registration} (other : ∀ t request, e ≠ .handed t request)
    (register_eq : w'.register = e :: w.register) (sent_eq : w'.sent = w.sent) :
    w.Requests asked w' where
  handed := ⟨[e], register_eq, fun t request member =>
    absurd (List.mem_singleton.mp member).symm (other t request)⟩
  sent := ⟨[], sent_eq.trans (List.append_nil _).symm, List.forall_mem_nil _⟩

end World.Requests

/-- A run of one call. While it waits, others may ask for something else. -/
def Setting.asking (c : Config) (own others : Request → Prop) : Setting where
  config := c
  awaited _ := True
  elapses w w' := w'.config = w.config ∧ w.Requests others w'
  raw := True
  sends := own
  orderly elapses orderly :=
    World.orderly_raw (elapses.1.trans orderly.config_eq)

section Calls

variable {c : Config} {p : Pause} {w : World} {messages : List Message} {deadline : Instant}
  {own others : Request → Prop}

/-- Whatever is asked for in a move, somebody asks for it who may. -/
theorem Move.requests {σ : Setting} {a b : List Holding × World} {asked : Request → Prop}
    (move : Move σ a b) (elapse : ∀ w w', σ.elapses w w' → w.Requests asked w')
    (send : ∀ request, σ.sends request → asked request) : a.2.Requests asked b.2 := by
  cases move with
  | elapse elapses => exact elapse _ _ elapses
  | aside core_eq => exact .of_same (congrArg (·.register) core_eq) (congrArg (·.sent) core_eq)
  | windUp | renew | furnish | shut | retire => exact .enrol (by rintro _ _ ⟨⟩) rfl rfl
  | @handOver hand w t request running current open_ sends =>
    constructor
    · refine ⟨[_], rfl, fun t' request' member => ?_⟩
      cases List.mem_singleton.mp member
      exact send request sends
    · exact ⟨[], (List.append_nil _).symm, List.forall_mem_nil _⟩
  | @send hand w s sends =>
    constructor
    · exact ⟨[], rfl, fun _ _ member => absurd member List.not_mem_nil⟩
    · exact ⟨[s], rfl, fun s' member => List.mem_singleton.mp member ▸ send _ sends⟩
  | closeStream permit succeeded => cases permit <;> exact .of_same rfl rfl
  | _ => exact .of_same rfl rfl

/-- The request of a call carries what the caller said. -/
theorem makeRequest_carries (positive : 1 ≤ c.maxTokens) (fits : c.maxTokens ≤ 0xFFFFFFFFFFFFFFFF)
    (config_eq : w.config = c) (stream : Bool) (key : Bytes) :
    (Client.makeRequest messages stream key).Ensures p w fun r _ => ∀ request, r = .ok request →
      request.Carries c messages stream := by
  apply (Client.makeRequest_writes messages stream key).mono
  rintro r _ ⟨-, written⟩ request rfl
  obtain ⟨-, written⟩ := written
  rw [config_eq] at written
  have exact : (chatRequest c messages stream).isExact = true := isExact_chatRequest positive fits
  have parsed := Json.parse_write exact written
  rw [chatRequest_eq] at parsed
  exact ⟨_, parsed, asked_asks c messages stream⟩

/-- A call may be under way while others ask for what they may ask for. -/
def Pause.Asks (c : Config) (others : Request → Prop) (p : Pause) : Prop :=
  ∀ t stop w, w.config = c → (p t stop w).config = c ∧ w.Requests others (p t stop w)

theorem Pause.Asks.keeps (asks : p.Asks c others) : p.Keeps (.asking c own others) := by
  intro t _ stop hand w orderly
  obtain ⟨config_eq, requests⟩ := asks t stop w orderly.config_eq
  exact .single (.elapse ⟨config_eq.trans orderly.config_eq.symm, requests⟩)

theorem Pause.quiet_asks : Pause.quiet.Asks c others := by
  intro t stop w config_eq
  unfold Pause.quiet
  split
  · exact ⟨config_eq, .refl w⟩
  · exact ⟨config_eq, .of_same rfl rfl⟩

theorem Flow.Trades.requests {α : Type} {f : Flow α} {post : α → List Holding}
    (h : Flow.Trades (.asking c own others) p [] f post []) (config_eq : w.config = c) :
    f.Ensures p w fun _ w' => w.Requests (fun request => others request ∨ own request) w' := by
  apply Flow.Ensures.mono (h w (World.orderly_raw config_eq))
  intro r w' moves
  have moves : Moves (.asking c own others) [] w _ w' := moves
  exact moves.keeps (P := fun _ w' => w.Requests _ w')
    (fun _ _ move before => before.trans (move.requests
      (fun _ _ elapses => elapses.2.mono fun _ => .inl) fun _ => .inr)) (.refl w)

namespace Client

/-- A call fails and asks for nothing: nothing happens but that it waits for a permit. -/
def Unasked {α : Type} (p : Pause) (deadline : Instant) (w : World) (r : Except Failure α)
    (w' : World) : Prop :=
  (∃ f, r = .error f) ∧ ∃ w₁, Waited p deadline ((w.mapUsage Usage.addCall).note .begun) w₁ ∧
    w₁.Idles w' ∧ w₁.Requests (fun _ => False) w'

variable {α : Type}

/-- A call whose texts cannot be written down comes to nothing. -/
theorem begun_unwritten (unwritten : w.config.areTexts messages = false) {stream : Bool}
    {rest : Call → Request → Flow α} :
    (do
      let call ← beginCall deadline
      rest call (← makeRequest messages stream call.key) : Flow α).Ensures p w fun r w' =>
        (∃ f, r = .error f) ∧ ∃ chance, w' = { w with chance } := by
  apply begun_ensures
  · exact fun chance _ => ⟨⟨_, rfl⟩, chance, rfl⟩
  · exact fun _ _ _ _ _ written => absurd (unwritten.symm.trans written) Bool.false_ne_true

/-- Such a call gives its permit back. -/
theorem counted_unasked {rest : Flow α} (config_eq : w.config = c) (asks : p.Asks c others)
    (h : ∀ w₁, w₁.config = c → rest.Ensures p w₁ fun r w' => (∃ f, r = .error f) ∧
      ∃ chance, w' = { w₁ with chance }.mapSemaphore Semaphore.release) :
    (counted do
      obtainPermit deadline
      Job.note .admitted
      rest).Ensures p w (Unasked p deadline w) := by
  apply counted_ensures
  · rintro w₁ w' e waited (rfl | rfl)
    · exact ⟨⟨e, rfl⟩, _, waited, ⟨rfl, rfl, rfl⟩, .of_same rfl rfl⟩
    · exact ⟨⟨e, rfl⟩, w₁, waited, ⟨rfl, rfl, rfl⟩, .of_same rfl rfl⟩
  · intro w₁ waited _
    have config_eq : w₁.config = c := by
      obtain rfl | rfl := waited
      · exact config_eq
      · exact (asks _ _ ((w.mapUsage Usage.addCall).note .begun) config_eq).1
    apply (h ((w₁.mapSemaphore Semaphore.take).note .admitted) config_eq).mono
    rintro r _ ⟨⟨e, rfl⟩, chance, rfl⟩
    exact ⟨⟨e, rfl⟩, w₁, waited, ⟨rfl, rfl, rfl⟩, .of_same rfl rfl⟩

/-- All that a call asks for is what the caller said, and if that cannot be written down, the call
fails and asks for nothing. Meanwhile others may ask for something else. -/
theorem call_asks {url : Url} (valid : c.validate = .ok url)
    (fits : c.maxTokens ≤ 0xFFFFFFFFFFFFFFFF) (config_eq : w.config = c) (asks : p.Asks c others)
    (messages : List Message) (deadline : Instant) :
    (chat messages deadline).Ensures p w (fun _ w' => w.Requests
      (fun request => others request ∨ request.Carries c messages false) w') ∧
    (stream messages deadline).Ensures p w (fun _ w' => w.Requests
      (fun request => others request ∨ request.Carries c messages true) w') ∧
    (c.areTexts messages = false →
      (chat messages deadline).Ensures p w (Unasked p deadline w) ∧
      (stream messages deadline).Ensures p w (Unasked p deadline w)) := by
  have own (stream : Bool) : Sends (.asking c (Request.Carries c messages stream) others)
      messages stream := by
    intro p w key orderly
    have some := (Config.validate_eq_ok.mp valid).maxTokens
    exact makeRequest_carries some fits orderly.config_eq stream key
  refine ⟨?_, ?_, ?_⟩
  · exact (trades_chat asks.keeps (fun _ => trivial) trivial (own false) deadline).requests
      config_eq
  · have trades : Flow.Trades (.asking c (Request.Carries c messages true) others) p []
        (stream messages deadline) (fun r => r.2.holdings ++ []) [] :=
      trades_stream asks.keeps (fun _ => trivial) trivial (own true) deadline
    exact trades.requests config_eq
  · intro unwritten
    constructor
    · rw [chat, Flow.ensures_ite]
      split
      · exact ⟨⟨_, rfl⟩, _, .inl rfl, ⟨rfl, rfl, rfl⟩, .of_same rfl rfl⟩
      · refine counted_unasked config_eq asks fun w₁ config_eq => ?_
        rw [Flow.ensures_bind, Flow.ensures_andAlways, ensures_succeeding]
        simp only [chatAdmitted, chatAnswered, bind_assoc]
        apply (begun_unwritten (config_eq ▸ unwritten)).mono
        rintro r _ ⟨⟨f, rfl⟩, chance, rfl⟩
        exact ⟨⟨f, rfl⟩, chance, rfl⟩
    · rw [Client.stream, Flow.ensures_ite]
      split
      · exact ⟨⟨_, rfl⟩, _, .inl rfl, ⟨rfl, rfl, rfl⟩, .of_same rfl rfl⟩
      · refine counted_unasked config_eq asks fun w₁ config_eq => ?_
        rw [Flow.ensures_bind, Flow.ensures_onFailure]
        apply (begun_unwritten (config_eq ▸ unwritten)).mono
        rintro r _ ⟨⟨f, rfl⟩, chance, rfl⟩
        exact ⟨⟨f, rfl⟩, chance, rfl⟩

/-- A call with awkward texts is limited in its first attempt and succeeds in the second; a text
that is no text is not asked for. -/
theorem call_asks_awkward :
    let c : Config := { clientTag := [], model := ascii "a \"model\"" }
    let soon : Headers := [(ascii "retry-after", ascii "0")]
    let w : World := {
      config := c, target := chatPath, client := .ofConfig c 1, chance := .ofSeed 1
      script := { replies := [{ status := 429, headers := soon }] } }
    let awkward : List Message := [
      { role := ascii "C:\\", content := [0, 0x1F, 0x7F, byte '"', 0x0A] },
      { role := [], content := [0xC3, 0xA9, 0xF0, 0x9F, 0x98, 0x80] }]
    let broken : List Message := [{ role := [], content := [0xC3] }]
    (∃ url, c.validate = .ok url) ∧ c.areTexts awkward = true ∧ c.areTexts broken = false ∧
      (chat awkward 9000000000).Ensures .quiet w (fun _ w' =>
        w'.sent.length = 2 ∧ w.Requests (fun request => request.Carries c awkward false) w') ∧
      (stream awkward 9000000000).Ensures .quiet w (fun _ w' =>
        w'.sent.length = 2 ∧ w.Requests (fun request => request.Carries c awkward true) w') ∧
      (chat broken 9000000000).Ensures .quiet w (Unasked .quiet 9000000000 w) := by
  intro c soon w awkward broken
  obtain ⟨url, valid⟩ : ∃ url, c.validate = .ok url := ⟨_, by rfl⟩
  have fits : c.maxTokens ≤ 0xFFFFFFFFFFFFFFFF := by decide
  have asks : Pause.quiet.Asks c fun _ => False := Pause.quiet_asks
  obtain ⟨chats, streams, -⟩ := call_asks valid fits rfl asks awkward 9000000000 (w := w)
  obtain ⟨-, -, unasked⟩ := call_asks valid fits rfl asks broken 9000000000 (w := w)
  have twice : (chat awkward 9000000000).Ensures .quiet w (fun _ w' => w'.sent.length = 2) := by
    decide +kernel
  have twiceStreamed : (stream awkward 9000000000).Ensures .quiet w
      (fun _ w' => w'.sent.length = 2) := by
    decide +kernel
  have own {stream : Bool} {w' : World} (requests : w.Requests
      (fun request => False ∨ request.Carries c awkward stream) w') :
      w.Requests (fun request => request.Carries c awkward stream) w' :=
    requests.mono fun _ asked => asked.resolve_left id
  have texts : c.areTexts awkward = true ∧ c.areTexts broken = false := by decide +kernel
  refine ⟨⟨url, valid⟩, texts.1, texts.2, ?_, ?_, (unasked texts.2).1⟩
  · exact (twice.and chats).mono fun _ _ both => ⟨both.1, own both.2⟩
  · exact (twiceStreamed.and streams).mono fun _ _ both => ⟨both.1, own both.2⟩

end Client

end Calls

end Parley
