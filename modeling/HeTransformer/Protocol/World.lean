import HeTransformer.Seal.Executable.Session

/-!
# The executor, the session thread and the client, interleaved

A world is the state of the whole client-aided system (spec §5): the executor thread's
control state, the members it shares with the session thread, the messages in flight in each
direction, and a fault once a thread has failed. The TCP connection is FIFO in each direction.
A run is any interleaving of three actors:

* the executor takes one step of its program (the program is a parameter here);
* the session thread reads the oldest message from the client and runs `handle_message`
  on it, under the mutex that handler takes;
* the client reads the oldest message from the server and answers as the specified
  sequence says (spec §4.6), with values of its choosing.

Two ghost records let statements speak about a run: the payloads of the client's offload
answers, and the positions of `m_relu_data` the session thread writes. Neither is read by any
actor.
-/

namespace HeTransformer

/-- The state of the system, for an executor whose control state is `P`. -/
structure World (P : Type) where
  pc : P
  srv : Executable
  toClient : List TCPMessage
  toServer : List TCPMessage
  fault : Option Fault
  /-- Ghost: each offload request the client has answered, with the results it answered, in
  order. -/
  replies : List (TCPMessage × List HEType)
  /-- Ghost: the positions of `m_relu_data` written by the session thread, in order. -/
  writes : List Nat

/-- The system just after the executable is constructed, with its executor at `pc`. -/
def World.init {P : Type} (pc : P) : World P :=
  ⟨pc, {}, [], [], none, [], []⟩

/-- Who moves: the executor, the session thread, or the client with the payloads it chooses. -/
inductive Actor where
  | executor
  | session
  | client (payload : List (List HEType))

/-! ## The client -/

/-- The RESPONSEs the client sends on reading the encryption parameters: its public key, then
its relinearization key. -/
def keyMessages : List TCPMessage :=
  [{ type := .response, publicKey := true }, { type := .response, evalKey := true }]

/-- The client of the specified sequence: its messages on reading `m`, given its payloads. It
answers the parameters with its keys, the inference-shape request with one REQUEST per asked
tensor, a ReLU request with as many results as the request carries, and a MaxPool request with
one result; results need no answer. `none`: the payloads do not fit the message. -/
def clientReply (m : TCPMessage) (payload : List (List HEType)) : Option (List TCPMessage) :=
  match m.type with
  | .response => some (if m.encryptionParameters.isSome then keyMessages else [])
  | .request =>
      match m.function, m.heTensors, payload with
      | some "Parameter", ts, ds =>
          if ts.length = ds.length then
            some (List.zipWith
              (fun t d => { type := .request, heTensors := [{ t with data := d }] })
              ts ds)
          else none
      | some "MaxPool", [_], [d] =>
          if d.length = 1 then some [offloadResponse "MaxPool" d] else none
      | some f, [t], [d] =>
          if d.length = t.data.length then some [offloadResponse f d] else none
      | _, _, _ => none
  | .unknown => none

/-- Ghost: what the client's answer to `m` records, when `m` is an offload request. -/
def offloadReplies (m : TCPMessage) (payload : List (List HEType)) :
    List (TCPMessage × List HEType) :=
  match m.type, m.function with
  | .request, some "Parameter" => []
  | .request, some _ => payload.map (m, ·)
  | _, _ => []

/-- Ghost: the positions of `m_relu_data` that `handle_message` writes on reading `m`, namely
`m_unknown_relu_idx[r + m_relu_done_count]` for each result `r` of a ReLU answer. -/
def reluWrites (s : Executable) (m : TCPMessage) : List Nat :=
  match m.type, m.function, m.heTensors with
  | .response, some f, [pb] =>
      if f = "Relu" ∨ f = "BoundedRelu" then
        (s.unknownReluIdx.drop s.reluDoneCount).take pb.data.length
      else []
  | _, _, _ => []

theorem clientReply_reluRequest {kind : ReluKind} {piece : List HEType}
    {payload : List (List HEType)} {out : List TCPMessage}
    (h : clientReply (reluRequest kind piece) payload = some out) :
    ∃ d, payload = [d] ∧ d.length = piece.length ∧
      out = [offloadResponse kind.description d] ∧
      offloadReplies (reluRequest kind piece) payload = [(reluRequest kind piece, d)] := by
  rcases payload with _ | ⟨d, _ | _⟩ <;> cases kind <;>
    simp [clientReply, reluRequest, ReluKind.description] at h <;>
    exact ⟨d, rfl, h.1, h.2.symm, rfl⟩

theorem clientReply_maxPoolRequest {batch : List HEType} {payload : List (List HEType)}
    {out : List TCPMessage} (h : clientReply (maxPoolRequest batch) payload = some out) :
    ∃ x, payload = [[x]] ∧ out = [offloadResponse "MaxPool" [x]] ∧
      offloadReplies (maxPoolRequest batch) payload = [(maxPoolRequest batch, [x])] := by
  rcases payload with _ | ⟨_ | ⟨x, _ | _⟩, _ | _⟩ <;> simp [clientReply, maxPoolRequest] at h
  exact ⟨x, rfl, h.symm, rfl⟩

/-- The client can answer a ReLU request: with one result per ciphertext it carries. -/
theorem clientReply_reluRequest_isSome (kind : ReluKind) (piece : List HEType) :
    (clientReply (reluRequest kind piece) [piece]).isSome := by
  cases kind <;> simp [clientReply, reluRequest, ReluKind.description]

/-- The client can answer a MaxPool request: with one result. -/
theorem clientReply_maxPoolRequest_isSome (batch : List HEType) (x : HEType) :
    (clientReply (maxPoolRequest batch) [[x]]).isSome := by
  simp [clientReply, maxPoolRequest]

/-- A ReLU answer writes the queued positions from `m_relu_done_count` on, one per result. -/
theorem reluWrites_reluResponse (s : Executable) (kind : ReluKind) (d : List HEType) :
    reluWrites s (offloadResponse kind.description d) =
      (s.unknownReluIdx.drop s.reluDoneCount).take d.length := by
  cases kind <;> simp [reluWrites, offloadResponse, ReluKind.description]

/-! ## Session and client steps -/

variable {P : Type}

/-- The session thread handles the oldest message from the client. -/
def sessionStep (c : Config) (w : World P) : Option (World P) :=
  match w.fault, w.toServer with
  | none, m :: ms =>
      some <| match handleMessage c w.srv m with
        | .ok (s, out) =>
            { w with srv := s, toServer := ms, toClient := w.toClient ++ out,
                     writes := w.writes ++ reluWrites w.srv m }
        | .error f => { w with toServer := ms, fault := some f }
  | _, _ => none

/-- The client reads the oldest message from the server and answers it. -/
def clientStep (w : World P) (payload : List (List HEType)) : Option (World P) :=
  match w.fault, w.toClient with
  | none, m :: ms =>
      (clientReply m payload).map fun out =>
        { w with toClient := ms, toServer := w.toServer ++ out,
                 replies := w.replies ++ offloadReplies m payload }
  | _, _ => none

/-- A session step reads the oldest message from the client. -/
theorem sessionStep_cons {c : Config} {w w' : World P} (h : sessionStep c w = some w') :
    w.fault = none ∧ ∃ m ms, w.toServer = m :: ms := by
  simp only [sessionStep] at h
  split at h
  · next hf hsv => exact ⟨hf, _, _, hsv⟩
  · cases h

/-- A session step whose handler succeeds. -/
theorem sessionStep_ok {c : Config} {w w' : World P} {m : TCPMessage} {ms : List TCPMessage}
    {s : Executable} {out : List TCPMessage} (hsv : w.toServer = m :: ms)
    (hh : handleMessage c w.srv m = .ok (s, out)) (h : sessionStep c w = some w') :
    w' = { w with srv := s, toServer := ms, toClient := w.toClient ++ out,
                  writes := w.writes ++ reluWrites w.srv m } := by
  cases hf : w.fault <;> simp [sessionStep, hf, hsv, hh] at h
  exact h.symm

/-- A client step answers the oldest message from the server. -/
theorem clientStep_eq_some {w w' : World P} {payload : List (List HEType)}
    (h : clientStep w payload = some w') :
    w.fault = none ∧ ∃ m ms out, w.toClient = m :: ms ∧ clientReply m payload = some out ∧
      w' = { w with toClient := ms, toServer := w.toServer ++ out,
                    replies := w.replies ++ offloadReplies m payload } := by
  simp only [clientStep] at h
  split at h
  · next hf hc =>
      obtain ⟨out, hout, rfl⟩ := Option.map_eq_some'.mp h
      exact ⟨hf, _, _, out, hc, hout, rfl⟩
  · cases h

/-- A session step takes the oldest message in flight to the server and leaves the executor
where it was. -/
theorem sessionStep_toServer {c : Config} {w w' : World P} (h : sessionStep c w = some w') :
    w'.pc = w.pc ∧ ∃ m, w.toServer = m :: w'.toServer := by
  obtain ⟨hf, m, ms, hsv⟩ := sessionStep_cons h
  simp only [sessionStep, hf, hsv, Option.some.injEq] at h
  split at h <;> (subst h; exact ⟨rfl, m, hsv⟩)

/-- The session thread can move whenever a message is in flight to it. -/
theorem sessionStep_isSome {c : Config} {w : World P} (hf : w.fault = none) {m : TCPMessage}
    {ms : List TCPMessage} (hsv : w.toServer = m :: ms) : (sessionStep c w).isSome := by
  simp only [sessionStep, hf, hsv, Option.isSome_some]

/-- The client can move whenever a message it can answer is in flight to it. -/
theorem clientStep_isSome {w : World P} (hf : w.fault = none) {m : TCPMessage}
    {ms : List TCPMessage} (hc : w.toClient = m :: ms) {payload : List (List HEType)}
    (h : (clientReply m payload).isSome) : (clientStep w payload).isSome := by
  simp only [clientStep, hf, hc, Option.isSome_map', h]

/-! ## Runs -/

/-- The worlds a step function reaches from `w₀` in any number of steps. -/
inductive Reachable {W A : Type} (step : W → A → Option W) (w₀ : W) : W → Prop
  | refl : Reachable step w₀ w₀
  | tail {w w' : W} (a : A) : Reachable step w₀ w → step w a = some w' → Reachable step w₀ w'

/-- An invariant that holds initially and that every step keeps holds of every reachable
world. -/
theorem Reachable.invariant {W A : Type} {step : W → A → Option W} {w₀ w : W}
    (inv : W → Prop) (h₀ : inv w₀)
    (hstep : ∀ w a w', inv w → step w a = some w' → inv w')
    (h : Reachable step w₀ w) : inv w := by
  induction h with
  | refl => exact h₀
  | tail a _ hs ih => exact hstep _ a _ ih hs

/-- Run a schedule: the actors in order, stopping when one cannot move. -/
def run {W A : Type} (step : W → A → Option W) (w : W) : List A → Option W
  | [] => some w
  | a :: as => (step w a).bind fun w' => run step w' as

theorem reachable_of_run {W A : Type} {step : W → A → Option W} {w₀ w w' : W}
    (h : Reachable step w₀ w) : ∀ {as : List A}, run step w as = some w' →
      Reachable step w₀ w'
  | [], hr => by cases hr; exact h
  | a :: as, hr => by
      simp only [run, Option.bind_eq_some] at hr
      obtain ⟨w₁, h₁, hr⟩ := hr
      exact reachable_of_run (.tail a h h₁) hr

end HeTransformer
