import HeTransformer.Seal.Executable.OffloadRuns

/-!
# Progress and termination of the offload system

Two facts about every run of the executor, the session thread and a client that answers what it
is sent. `offload_progress`: until a thread fails, either the executor has run all its nodes or
some actor can move, so no wait is left with nothing in flight that could end it.
`offload_runs_terminate`: no run is longer than a bound fixed by the nodes. Together, every run
that cannot be extended has run all its nodes or failed.

The bound is a measure of what is left: the executor's remaining steps, pricing each request it
will write at one step more than the client's answer and its handling cost; two per request in
flight to the client; one per answer in flight to the server; and one until a thread fails.
Every step of every actor lowers it, given the invariant of the offload system: in a reachable
world the session thread sends the client nothing, and the client answers each request with one
message.
-/

namespace HeTransformer

variable {c : Config} {w w' : World OffloadThread}

/-! ## No reachable deadlock -/

/-- **No reachable deadlock.** In every run of the offload system, until a thread fails, either
the executor has run all its nodes or some actor can move: the executor; else the session thread,
with an answer in flight to it; else the client, answering the request in flight to it. A wait
of the executor is never left with nothing in flight that could end it. -/
theorem offload_progress {s₀ : Executable} {ops : List OffloadOp}
    (h0 : s₀.reluDoneCount = 0) (hdue : inferenceShapeDue s₀ = false)
    (hreach : Reachable (offloadSystem c) (offloadInit s₀ ops) w) (hf : w.fault = none) :
    w.pc.pc = .next [] ∨ ∃ a w', offloadSystem c w a = some w' := by
  have move : ∀ a, (offloadSystem c w a).isSome → ∃ a w', offloadSystem c w a = some w' :=
    fun a h => ⟨a, Option.isSome_iff_exists.1 h⟩
  by_cases hb : offloadStep c w.pc.pc w.srv = .blocked
  · obtain ⟨-, hP⟩ := offloadInv_reachable h0 hdue hreach hf
    rcases offloadStep_blocked hb with hpc | ⟨kind, arg, rest, hpc, hd⟩ |
      ⟨arg, lists, k, rest, hpc, hd⟩
    · exact .inl hpc
    · rw [hpc] at hP
      obtain ⟨L, msgs, hL⟩ := hP
      right
      cases hsv : w.toServer with
      | cons m ms => exact move .session (sessionStep_isSome hf hsv)
      | nil =>
          cases hc : w.toClient with
          | nil => exact absurd (hL.done_of_quiet hc hsv) hd
          | cons m ms =>
              obtain ⟨q, -, -, rfl, -⟩ := List.map_eq_cons_iff.1 (hL.toClient_eq.symm.trans hc)
              exact move (.client [q])
                (clientStep_isSome hf hc (clientReply_reluRequest_isSome kind q))
    · rw [hpc] at hP
      obtain ⟨⟨l, m, rs, -, hm, -, hR⟩, -⟩ := hP
      right
      cases hR with
      | sent _ hc _ _ _ =>
          obtain ⟨piece, rfl⟩ := maxPoolListRequest_ok hm
          exact move (.client [[HEType.ofPlain [] false]])
            (clientStep_isSome hf hc (clientReply_maxPoolRequest_isSome piece _))
      | answered x _ _ hsv _ _ => exact move .session (sessionStep_isSome hf hsv)
      | handled x _ _ _ hdone _ => exact absurd (hd.symm.trans hdone) Bool.false_ne_true
  · exact .inr (move .executor (offloadExecStep_isSome hf hb))

/-- The ReLU node of `reluDemoWorld` waiting, with the client's answer in flight to the server:
the executor is held, and the session thread can move. -/
def reluWaitingWorld : World OffloadThread :=
  (run (offloadSystem demoConfig) (offloadInit {} [.relu .relu reluDemoArg])
    [.executor, .executor, .client [[demoAnswer]], .executor]).getD (offloadInit {} [])

theorem relu_demo_waiting_progress :
    Reachable (offloadSystem demoConfig) (offloadInit {} [.relu .relu reluDemoArg])
      reluWaitingWorld ∧ reluWaitingWorld.fault = none ∧
    offloadExecStep demoConfig reluWaitingWorld = none ∧
    (reluWaitingWorld.pc.pc = .next [] ∨
      ∃ a w', offloadSystem demoConfig reluWaitingWorld a = some w') := by
  have hreach := reachable_of_run .refl (show run (offloadSystem demoConfig)
    (offloadInit {} [.relu .relu reluDemoArg])
    [.executor, .executor, .client [[demoAnswer]], .executor] = some reluWaitingWorld from rfl)
  exact ⟨hreach, rfl, rfl, offload_progress (by rfl) (by rfl) hreach rfl⟩

/-! ## The measure -/

/-- What a node the executor has not started can cost it: three per request and three more for
a ReLU node, which sends at most one request per argument slot; four per maximize list and two
more for a MaxPool node. -/
def opCost : OffloadOp → Nat
  | .relu _ arg => 3 * arg.length + 3
  | .maxPool _ lists => 4 * lists.length + 2

/-- What the nodes the executor has not started can cost it. -/
def opsCost (ops : List OffloadOp) : Nat := (ops.map opCost).sum

@[simp] theorem opsCost_cons (op : OffloadOp) (ops : List OffloadOp) :
    opsCost (op :: ops) = opCost op + opsCost ops := List.sum_cons

/-- What the executor's place can still cost it. -/
def pcCost : OffloadPc → Nat
  | .next ops => opsCost ops
  | .reluSend _ _ msgs k ops => 3 * (msgs.length - k) + 2 + opsCost ops
  | .reluWait _ _ ops => 1 + opsCost ops
  | .maxPoolSend _ lists k ops => 4 * (lists.length - k) + 1 + opsCost ops
  | .maxPoolWait _ lists k ops => 4 * (lists.length - (k + 1)) + 2 + opsCost ops

/-- The measure of a world: one until a thread fails, what the executor's place can still cost,
two per message in flight to the client and one per message in flight to the server. -/
def offloadMeasure (w : World OffloadThread) : Nat :=
  (if w.fault = none then 1 else 0) + pcCost w.pc.pc + 2 * w.toClient.length +
    w.toServer.length

theorem length_le_length_flatten {α : Type} :
    ∀ {l : List (List α)}, (∀ q ∈ l, q ≠ []) → l.length ≤ l.flatten.length
  | [], _ => le_rfl
  | q :: l, hne => by
      have hq : q.length ≠ 0 := fun h =>
        hne q (List.mem_cons_self _ _) (List.eq_nil_of_length_eq_zero h)
      have := length_le_length_flatten fun q' hq' => hne q' (List.mem_cons_of_mem _ hq')
      simp only [List.length_cons, List.flatten_cons, List.length_append]
      omega

/-- A ReLU node sends at most one request per argument slot. -/
theorem length_reluStart_le {kind : ReluKind} {arg : List HEType} {s s' : Executable}
    {msgs : List TCPMessage} (h : reluStart c kind arg s = .ok (s', msgs)) :
    msgs.length ≤ arg.length := by
  obtain ⟨-, pieces, -, -, -, rfl, hne, hsum⟩ := reluStart_ok h
  calc (pieces.map (reluRequest kind)).length = pieces.length := List.length_map _ _
    _ ≤ pieces.flatten.length := length_le_length_flatten hne
    _ = (cipherIdx arg).length := hsum
    _ ≤ arg.length := length_cipherIdxFrom_le 0 arg

/-- Every move of the executor lowers what its place can cost by more than twice what it
writes. -/
theorem offloadStep_cost {pc pc' : OffloadPc} {s s' : Executable} {sent : List TCPMessage}
    {out : Option (List HEType)} (h : offloadStep c pc s = .step pc' s' sent out) :
    pcCost pc' + 2 * sent.length < pcCost pc := by
  cases pc with
  | next ops =>
      rcases ops with _ | ⟨_ | _, ops⟩
      · cases h
      · simp only [offloadStep] at h
        split at h
        · next hs =>
            cases h
            have := length_reluStart_le hs
            simp only [pcCost, opsCost_cons, opCost, List.length_nil]
            omega
        · cases h
      · cases h
        simp only [pcCost, opsCost_cons, opCost, List.length_nil]
        omega
  | reluSend kind arg msgs k ops =>
      simp only [offloadStep] at h
      split at h
      · next hm =>
          cases h
          have := (List.getElem?_eq_some_iff.1 hm).1
          simp only [pcCost, List.length_singleton]
          omega
      · cases h
        simp only [pcCost, List.length_nil]
        omega
  | reluWait kind arg ops =>
      simp only [offloadStep] at h
      split at h
      · cases h
        simp only [pcCost, List.length_nil]
        omega
      · cases h
  | maxPoolSend arg lists k ops =>
      simp only [offloadStep] at h
      split at h
      · next hl =>
          split at h
          · cases h
            have := (List.getElem?_eq_some_iff.1 hl).1
            simp only [pcCost, List.length_singleton]
            omega
          · cases h
      · cases h
        simp only [pcCost, List.length_nil]
        omega
  | maxPoolWait arg lists k ops =>
      simp only [offloadStep] at h
      split at h
      · cases h
        simp only [pcCost, List.length_nil]
        omega
      · cases h

/-- In a world of the invariant, every request in flight to the client is an offload request. -/
theorem OffloadInv.toClient_requests (hI : OffloadInv c w) (hf : w.fault = none) :
    ∀ m ∈ w.toClient, (∃ kind piece, m = reluRequest kind piece) ∨
      ∃ piece, m = maxPoolRequest piece := by
  obtain ⟨-, hP⟩ := hI hf
  obtain ⟨⟨p, outs⟩, srv, toC, toS, fault, replies, writes⟩ := w
  intro m hm
  cases p with
  | next ops => exact absurd (hP.toClient_eq ▸ hm) (List.not_mem_nil m)
  | reluSend kind arg msgs k ops =>
      obtain ⟨L, hL⟩ := hP
      obtain ⟨q, -, rfl⟩ := List.mem_map.1 (hL.toClient_eq ▸ hm)
      exact .inl ⟨kind, q, rfl⟩
  | reluWait kind arg ops =>
      obtain ⟨L, msgs, hL⟩ := hP
      obtain ⟨q, -, rfl⟩ := List.mem_map.1 (hL.toClient_eq ▸ hm)
      exact .inl ⟨kind, q, rfl⟩
  | maxPoolSend arg lists k ops => exact absurd (hP.1.toClient_eq ▸ hm) (List.not_mem_nil m)
  | maxPoolWait arg lists k ops =>
      obtain ⟨⟨l, m₀, rs, -, hm₀, -, hR⟩, -⟩ := hP
      cases hR with
      | sent _ hc _ _ _ =>
          rw [show toC = [m₀] from hc, List.mem_singleton] at hm
          exact .inr (hm ▸ maxPoolListRequest_ok hm₀)
      | answered _ _ hc => exact absurd (hc ▸ hm) (List.not_mem_nil m)
      | handled _ _ hc => exact absurd (hc ▸ hm) (List.not_mem_nil m)

/-- The client answers an offload request with one message. -/
theorem length_clientReply_request {m : TCPMessage} {payload : List (List HEType)}
    {out : List TCPMessage}
    (hm : (∃ kind piece, m = reluRequest kind piece) ∨ ∃ piece, m = maxPoolRequest piece)
    (h : clientReply m payload = some out) : out.length = 1 := by
  rcases hm with ⟨kind, piece, rfl⟩ | ⟨piece, rfl⟩
  · obtain ⟨d, -, -, rfl, -⟩ := clientReply_reluRequest h
    rfl
  · obtain ⟨x, -, rfl, -⟩ := clientReply_maxPoolRequest h
    rfl

/-- **Every step lowers the measure**, in every world of the invariant. -/
theorem offloadMeasure_lt (hI : OffloadInv c w) {a : Actor} (h : offloadSystem c w a = some w') :
    offloadMeasure w' < offloadMeasure w := by
  cases a with
  | executor =>
      obtain ⟨hf, ⟨pc, s, sent, out, hs, rfl⟩ | ⟨f, -, rfl⟩⟩ := offloadExecStep_eq_some h
      · have := offloadStep_cost hs
        simp only [offloadMeasure, hf, List.length_append]
        omega
      · simp [offloadMeasure, hf]
  | session =>
      obtain ⟨hf, -, -, hc⟩ := offloadInv_session hI h
      obtain ⟨hpc, m, hsv⟩ := sessionStep_toServer h
      obtain ⟨hf₀, -⟩ := sessionStep_cons h
      simp only [offloadMeasure, hf, hf₀, hpc, hc, hsv, List.length_cons]
      omega
  | client payload =>
      obtain ⟨hf, m, ms, out, hc, hout, rfl⟩ := clientStep_eq_some h
      have hlen := length_clientReply_request
        (hI.toClient_requests hf m (hc ▸ List.mem_cons_self m ms)) hout
      simp only [offloadMeasure, hf, hc, List.length_cons, List.length_append, hlen]
      omega

/-- A run from a world of the invariant is no longer than the measure lowers. -/
theorem run_length_le : ∀ {as : List Actor} {w : World OffloadThread}, OffloadInv c w →
    run (offloadSystem c) w as = some w' → as.length + offloadMeasure w' ≤ offloadMeasure w
  | [], _, _, h => by cases h; exact (Nat.zero_add _).le
  | a :: as, w, hI, h => by
      simp only [run, Option.bind_eq_some] at h
      obtain ⟨w₁, h₁, h⟩ := h
      have := run_length_le (offloadInv_step hI h₁) h
      have := offloadMeasure_lt hI h₁
      simp only [List.length_cons]
      omega

/-! ## No run goes on forever -/

/-- **Every run of the offload system ends.** From members with no ReLU count pending and no
inference shape due, every schedule of the executor, the session thread and the client that
can be run is at most one step longer than the cost of the offloaded nodes: three per argument
slot of a ReLU node and four per maximize list of a MaxPool node, plus a few per node. -/
theorem offload_runs_terminate {s₀ : Executable} {ops : List OffloadOp}
    (h0 : s₀.reluDoneCount = 0) (hdue : inferenceShapeDue s₀ = false) {as : List Actor}
    (h : run (offloadSystem c) (offloadInit s₀ ops) as = some w') :
    as.length ≤ opsCost ops + 1 := by
  have := run_length_le (offloadInv_reachable h0 hdue .refl) h
  simp only [offloadMeasure, offloadInit, pcCost, List.length_nil, if_pos] at this
  omega

/-- The run of `reluDemoWorld`: five steps, within the bound of ten for a ReLU node over two
slots. -/
theorem relu_demo_run_within_bound :
    run (offloadSystem demoConfig) (offloadInit {} [.relu .relu reluDemoArg])
        [.executor, .executor, .client [[demoAnswer]], .session, .executor] = some reluDemoWorld ∧
      [Actor.executor, .executor, .client [[demoAnswer]], .session, .executor].length ≤
        opsCost [.relu .relu reluDemoArg] + 1 :=
  have h : run (offloadSystem demoConfig) (offloadInit {} [.relu .relu reluDemoArg])
      [.executor, .executor, .client [[demoAnswer]], .session, .executor] =
        some reluDemoWorld := rfl
  ⟨h, offload_runs_terminate (by rfl) (by rfl) h⟩

end HeTransformer
