import HeTransformer.Seal.Executable.ReluPhase
import HeTransformer.Seal.Executable.MaxPoolPhase

/-!
# Runs of the offload system

The executor runs a list of offloaded nodes while the session thread and the client move in any
interleaving. `OffloadInv` says what holds at each place of the executor: between nodes nothing
is in flight and `m_relu_done_count` is zero; during a ReLU node the ledger of `ReluPhase`
holds; during a MaxPool node the invariants of `MaxPoolPhase` hold; and no inference shape is
due, so the session thread's handler does nothing but store offload results. One lemma per
actor shows that a step keeps the invariant, and `offloadInv_reachable` gives it for every
reachable world. What a node returns, and what the session thread's handler can do, follow.
-/

namespace HeTransformer

/-- Between nodes nothing is in flight and the ReLU count is back at zero. -/
structure Quiet (w : World OffloadThread) : Prop where
  toClient_eq : w.toClient = []
  toServer_eq : w.toServer = []
  reluDone_eq : w.srv.reluDoneCount = 0

/-- What holds at each place of the executor. -/
def PcInv (c : Config) (w : World OffloadThread) : OffloadPc → Prop
  | .next _ => Quiet w
  | .reluSend kind arg msgs k _ => ∃ L : ReluLedger, L.Holds kind arg msgs k w
  | .reluWait kind arg _ => ∃ (L : ReluLedger) (msgs : List TCPMessage),
      L.Holds kind arg msgs msgs.length w
  | .maxPoolSend arg lists k _ => MaxPoolSending c arg lists k w ∧ w.srv.reluDoneCount = 0
  | .maxPoolWait arg lists k _ => MaxPoolWaiting c arg lists k w ∧ w.srv.reluDoneCount = 0

/-- The invariant of the offload system: until a thread fails, no inference shape is due and
the invariant of the executor's place holds. -/
def OffloadInv (c : Config) (w : World OffloadThread) : Prop :=
  w.fault = none → inferenceShapeDue w.srv = false ∧ PcInv c w w.pc.pc

theorem inferenceShapeDue_reluStart {c : Config} {kind : ReluKind} {arg : List HEType}
    {s s' : Executable} {msgs : List TCPMessage} (h : reluStart c kind arg s = .ok (s', msgs)) :
    inferenceShapeDue s' = inferenceShapeDue s := by
  obtain ⟨_, _, rfl, -⟩ := reluStart_ok h
  rfl

/-! ## Every step keeps the invariant -/

variable {c : Config} {w w' : World OffloadThread}

theorem offloadInv_exec (hI : OffloadInv c w) (h : offloadExecStep c w = some w') :
    OffloadInv c w' := by
  obtain ⟨hf, ⟨pc, s, sent, out, hs, rfl⟩ | ⟨f, -, rfl⟩⟩ := offloadExecStep_eq_some h
  · obtain ⟨hdue, hP⟩ := hI hf
    intro _
    obtain ⟨⟨p, outs⟩, srv, toC, toS, fault, replies, writes⟩ := w
    cases p with
    | next ops =>
        obtain ⟨hc, hsv, hz⟩ := hP
        rcases ops with _ | ⟨_ | _, ops⟩ <;> simp only [offloadStep] at hs
        · cases hs
        · split at hs
          · next hstart =>
              cases hs
              exact ⟨(inferenceShapeDue_reluStart hstart).trans hdue,
                reluLedger_start hstart hz rfl (by simpa using hc) hsv rfl rfl⟩
          · cases hs
        · cases hs
          exact ⟨hdue, maxPoolSending_start (by simpa using hc) hsv rfl rfl rfl, hz⟩
    | reluSend kind arg msgs k ops =>
        obtain ⟨L, hL⟩ := hP
        simp only [offloadStep] at hs
        split at hs
        · next hm =>
            cases hs
            exact ⟨hdue, L, hL.send hm rfl rfl rfl rfl rfl⟩
        · next hm =>
            cases hs
            have hk : k = msgs.length := by
              have := List.getElem?_eq_none_iff.mp hm
              have := hL.k_le
              rw [hL.msgs_eq, List.length_map] at *
              omega
            subst hk
            exact ⟨hdue, L, msgs, { hL with toClient_eq := by simpa using hL.toClient_eq }⟩
    | reluWait kind arg ops =>
        obtain ⟨L, msgs, hL⟩ := hP
        simp only [offloadStep] at hs
        split at hs
        · next hd =>
            cases hs
            obtain ⟨hc, hsv, -⟩ := hL.finished hd
            exact ⟨hdue, by simpa using hc, hsv, rfl⟩
        · cases hs
    | maxPoolSend arg lists k ops =>
        obtain ⟨hS, hz⟩ := hP
        simp only [offloadStep] at hs
        split at hs
        · next hl =>
            split at hs
            · next hm =>
                cases hs
                exact ⟨hdue, hS.send hl hm rfl rfl rfl rfl, hz⟩
            · cases hs
        · cases hs
          exact ⟨hdue, by simpa using hS.toClient_eq, hS.toServer_eq, hz⟩
    | maxPoolWait arg lists k ops =>
        obtain ⟨hW, hz⟩ := hP
        simp only [offloadStep] at hs
        split at hs
        · next hd =>
            cases hs
            exact ⟨hdue, hW.next hd rfl rfl rfl rfl, hz⟩
        · cases hs
  · intro hf'
    cases hf'

/-- The session thread's steps keep the invariant; on the way, its handler never fails, it
changes `m_max_pool_data` only while the executor waits for a MaxPool answer, and it sends the
client nothing. -/
theorem offloadInv_session (hI : OffloadInv c w) (h : sessionStep c w = some w') :
    w'.fault = none ∧
      (w'.srv.maxPoolData ≠ w.srv.maxPoolData →
        ∃ arg lists k rest, w.pc.pc = .maxPoolWait arg lists k rest) ∧
      OffloadInv c w' ∧ w'.toClient = w.toClient := by
  obtain ⟨hf, m, ms, hsv⟩ := sessionStep_cons h
  obtain ⟨hdue, hP⟩ := hI hf
  obtain ⟨⟨p, outs⟩, srv, toC, toS, fault, replies, writes⟩ := w
  cases p with
  | next ops => cases hsv.symm.trans hP.toServer_eq
  | reluSend kind arg msgs k ops =>
      obtain ⟨L, hL⟩ := hP
      obtain ⟨s', hh, hdue', hpool, hL'⟩ := hL.session hsv hdue
      rw [sessionStep_ok hsv hh h]
      exact ⟨hf, fun hne => absurd hpool hne, fun _ => ⟨hdue', _, hL'⟩, List.append_nil _⟩
  | reluWait kind arg ops =>
      obtain ⟨L, msgs, hL⟩ := hP
      obtain ⟨s', hh, hdue', hpool, hL'⟩ := hL.session hsv hdue
      rw [sessionStep_ok hsv hh h]
      exact ⟨hf, fun hne => absurd hpool hne, fun _ => ⟨hdue', _, _, hL'⟩, List.append_nil _⟩
  | maxPoolSend arg lists k ops => cases hsv.symm.trans hP.1.toServer_eq
  | maxPoolWait arg lists k ops =>
      obtain ⟨⟨l, m₀, rs, hl, hm, hans, hR⟩, hz⟩ := hP
      obtain ⟨x, hh, hR'⟩ := hR.session hsv hdue
      rw [sessionStep_ok hsv hh h]
      exact ⟨hf, fun _ => ⟨_, _, _, _, rfl⟩, fun _ => ⟨hdue, ⟨l, m₀, rs, hl, hm, hans, hR'⟩, hz⟩,
        List.append_nil _⟩

theorem offloadInv_client (hI : OffloadInv c w) {payload : List (List HEType)}
    (h : clientStep w payload = some w') : OffloadInv c w' := by
  obtain ⟨hf, m, ms, out, hc, hreply, rfl⟩ := clientStep_eq_some h
  obtain ⟨hdue, hP⟩ := hI hf
  intro _
  obtain ⟨⟨p, outs⟩, srv, toC, toS, fault, replies, writes⟩ := w
  cases p with
  | next ops => cases hc.symm.trans hP.toClient_eq
  | reluSend kind arg msgs k ops =>
      obtain ⟨L, hL⟩ := hP
      exact ⟨hdue, _, hL.client hc hreply rfl rfl rfl rfl rfl⟩
  | reluWait kind arg ops =>
      obtain ⟨L, msgs, hL⟩ := hP
      exact ⟨hdue, _, msgs, hL.client hc hreply rfl rfl rfl rfl rfl⟩
  | maxPoolSend arg lists k ops => cases hc.symm.trans hP.1.toClient_eq
  | maxPoolWait arg lists k ops =>
      obtain ⟨⟨l, m₀, rs, hl, hm, hans, hR⟩, hz⟩ := hP
      exact ⟨hdue, ⟨l, m₀, rs, hl, hm, hans,
        hR.client (maxPoolListRequest_ok hm) hc hreply rfl rfl rfl rfl⟩, hz⟩

/-- Every step of every actor keeps the invariant. -/
theorem offloadInv_step (hI : OffloadInv c w) {a : Actor} (hs : offloadSystem c w a = some w') :
    OffloadInv c w' := by
  cases a with
  | executor => exact offloadInv_exec hI hs
  | session => exact (offloadInv_session hI hs).2.2.1
  | client payload => exact offloadInv_client hI hs

/-- **The invariant of the offload system.** From members with no ReLU count pending and no
inference shape due, every reachable world satisfies `OffloadInv`. -/
theorem offloadInv_reachable {s₀ : Executable} {ops : List OffloadOp}
    (h0 : s₀.reluDoneCount = 0) (hdue : inferenceShapeDue s₀ = false)
    (h : Reachable (offloadSystem c) (offloadInit s₀ ops) w) : OffloadInv c w :=
  h.invariant (OffloadInv c) (show OffloadInv c (offloadInit s₀ ops) from
    fun _ => ⟨hdue, rfl, rfl, h0⟩) fun _ _ _ hI hs => offloadInv_step hI hs

theorem OffloadInv.reluDone_le (hI : OffloadInv c w) (hf : w.fault = none) :
    w.srv.reluDoneCount ≤ w.srv.unknownReluIdx.length := by
  obtain ⟨-, hP⟩ := hI hf
  obtain ⟨⟨p, outs⟩, srv, toC, toS, fault, replies, writes⟩ := w
  cases p with
  | next => exact hP.reluDone_eq ▸ Nat.zero_le _
  | reluSend => obtain ⟨L, hL⟩ := hP; exact hL.done_le
  | reluWait => obtain ⟨L, msgs, hL⟩ := hP; exact hL.done_le
  | maxPoolSend => exact hP.2 ▸ Nat.zero_le _
  | maxPoolWait => exact hP.2 ▸ Nat.zero_le _

/-! ## What the nodes return -/

/-- **What a ReLU node returns.** In every run of the offload system, when the executor's wait
on `m_relu_cond` returns, the node's output has a slot per argument slot; each plaintext slot
holds the scalar ReLU of the argument's slot; the ciphertext slots, in increasing order, hold
the results of the client's answers in the order the requests were sent; the session thread
has written each ciphertext slot once and no other slot; and `m_relu_done_count` is back
to 0. -/
theorem relu_wait_returns_results {s₀ : Executable} {ops rest : List OffloadOp}
    {kind : ReluKind} {arg : List HEType} (h0 : s₀.reluDoneCount = 0)
    (hdue : inferenceShapeDue s₀ = false)
    (hreach : Reachable (offloadSystem c) (offloadInit s₀ ops) w)
    (hpc : w.pc.pc = .reluWait kind arg rest) (hstep : offloadExecStep c w = some w') :
    ∃ out : List HEType, w'.pc.outs = w.pc.outs ++ [out] ∧ w'.srv.reluDoneCount = 0 ∧
      out.length = arg.length ∧
      (∀ (i : Nat) (t : HEType) (p : HEPlaintext), arg[i]? = some t → t.value = .plaintext p →
        ∃ d : HEType, out[i]? = some d ∧ d.value = .plaintext (kind.apply p)) ∧
      (cipherIdx arg).map (out[·]?) = (w.replies.map Prod.snd).flatten.map some ∧
      ∀ j : Nat, w.writes.count j = if j ∈ cipherIdx arg then 1 else 0 := by
  obtain ⟨hf, ⟨pc, s, sent, out, hs, rfl⟩ | ⟨f, hs, -⟩⟩ := offloadExecStep_eq_some hstep
  · obtain ⟨-, hP⟩ := offloadInv_reachable h0 hdue hreach hf
    rw [hpc] at hs hP
    obtain ⟨L, msgs, hL⟩ := hP
    simp only [offloadStep] at hs
    split at hs
    · next hd =>
        cases hs
        obtain ⟨-, -, hw, hci⟩ := hL.finished hd
        refine ⟨w.srv.reluData, rfl, rfl, hL.length_data, hL.plain, hci, fun j => ?_⟩
        rw [hw]
        split_ifs with hj
        · exact List.count_eq_one_of_mem (nodup_cipherIdx arg) hj
        · exact List.count_eq_zero_of_not_mem hj
    · cases hs
  · rw [hpc] at hs
    simp only [offloadStep] at hs
    split at hs <;> cases hs

/-! ### Runs on fixed inputs -/

/-- A configuration for the runs below: no graph parameters, 4096 slots, real packing, no limit
on the slots of a `pb::HETensor`, and a modulus switch that only relabels the level. -/
def demoConfig : Config := ⟨[], 4096, false, 0, fun ct i => { ct with parmsId := .level i }, []⟩

/-- A ciphertext slot at chain index 1. -/
def demoCipher : HEType := ⟨.ciphertext ⟨.level 1, 0, []⟩, false⟩

/-- The ciphertext the client answers with. -/
def demoAnswer : HEType := ⟨.ciphertext ⟨.level 0, 7, []⟩, false⟩

/-- A ReLU argument with a plaintext slot and a ciphertext slot. -/
def reluDemoArg : List HEType := [HEType.ofPlain [] false, demoCipher]

/-- A ReLU node over `reluDemoArg` run until its wait can return: the executor has sent its one
request, the client has answered it and the session thread has handled the answer. -/
def reluDemoWorld : World OffloadThread :=
  (run (offloadSystem demoConfig) (offloadInit {} [.relu .relu reluDemoArg])
    [.executor, .executor, .client [[demoAnswer]], .session, .executor]).getD
    (offloadInit {} [])

theorem relu_demo_wait_returns :
    Reachable (offloadSystem demoConfig) (offloadInit {} [.relu .relu reluDemoArg])
      reluDemoWorld ∧
    reluDemoWorld.pc.pc = .reluWait .relu reluDemoArg [] ∧
    ∃ (w' : World OffloadThread) (out : List HEType),
      offloadExecStep demoConfig reluDemoWorld = some w' ∧ w'.pc.outs = [out] ∧
      (cipherIdx reluDemoArg).map (out[·]?) =
        (reluDemoWorld.replies.map Prod.snd).flatten.map some ∧
      ∀ j : Nat, reluDemoWorld.writes.count j = if j ∈ cipherIdx reluDemoArg then 1 else 0 := by
  have hreach := reachable_of_run .refl (show run (offloadSystem demoConfig)
    (offloadInit {} [.relu .relu reluDemoArg])
    [.executor, .executor, .client [[demoAnswer]], .session, .executor] = some reluDemoWorld
    from rfl)
  obtain ⟨out, hout, -, -, -, hci, hw⟩ :=
    relu_wait_returns_results (by rfl) (by rfl) hreach rfl rfl
  exact ⟨hreach, rfl, _, out, rfl, hout, hci, hw⟩

/-- A ReLU node over one plaintext slot with `complex_packing` set returns a slot whose flag is
that of the slot `m_relu_data.resize` left at its place: the default `false` on a fresh
executable, `true` when an earlier node left such a slot there. -/
theorem relu_output_packing_of_stale_slot :
    (run (offloadSystem demoConfig) (offloadInit {} [.relu .relu [HEType.ofPlain [] true]])
      [.executor, .executor, .executor]).map (·.pc.outs.map (·.map HEType.complexPacking)) =
      some [[false]] ∧
    (run (offloadSystem demoConfig)
      (offloadInit { reluData := [HEType.ofPlain [] true] } [.relu .relu [HEType.ofPlain [] true]])
      [.executor, .executor, .executor]).map (·.pc.outs.map (·.map HEType.complexPacking)) =
      some [[true]] :=
  ⟨rfl, rfl⟩

/-- **What a MaxPool node returns.** In every run of the offload system, each time the
executor's wait on `m_max_pool_cond` returns, `m_max_pool_data` holds the answers to the
requests sent so far, in request order; and when the node returns, its output holds one element
per maximize list, the `k`-th being the client's answer to the request for `lists[k]`. -/
theorem maxPool_wait_returns_results {s₀ : Executable} {ops : List OffloadOp}
    (h0 : s₀.reluDoneCount = 0) (hdue : inferenceShapeDue s₀ = false)
    (hreach : Reachable (offloadSystem c) (offloadInit s₀ ops) w) :
    (∀ (arg : List HEType) (lists : List (List Nat)) (k : Nat) (rest : List OffloadOp),
      w.pc.pc = .maxPoolWait arg lists k rest → offloadExecStep c w = some w' →
      HoldsAnswers c arg w.srv.maxPoolData w.replies (lists.take (k + 1))) ∧
    (∀ (arg : List HEType) (lists : List (List Nat)) (k : Nat) (rest : List OffloadOp),
      w.pc.pc = .maxPoolSend arg lists k rest → offloadExecStep c w = some w' →
      w'.pc.pc = .next rest →
      ∃ out, w'.pc.outs = w.pc.outs ++ [out] ∧ HoldsAnswers c arg out w.replies lists) := by
  have hI := offloadInv_reachable h0 hdue hreach
  constructor
  · intro arg lists k rest hpc hstep
    obtain ⟨hf, ⟨pc, s, sent, out, hs, -⟩ | ⟨f, hs, -⟩⟩ := offloadExecStep_eq_some hstep
    · obtain ⟨-, hP⟩ := hI hf
      rw [hpc] at hs hP
      simp only [offloadStep] at hs
      split at hs
      · next hd =>
          obtain ⟨-, hans, hdata, -⟩ := hP.1.done hd
          rw [hdata]
          exact hans.holdsAnswers
      · cases hs
    · rw [hpc] at hs
      simp only [offloadStep] at hs
      split at hs <;> cases hs
  · intro arg lists k rest hpc hstep hnext
    obtain ⟨hf, ⟨pc, s, sent, out, hs, rfl⟩ | ⟨f, -, rfl⟩⟩ := offloadExecStep_eq_some hstep
    · obtain ⟨-, hP⟩ := hI hf
      rw [hpc] at hs hP
      simp only [offloadStep] at hs
      split at hs
      · split at hs <;> cases hs
        cases hnext
      · next hl =>
          cases hs
          refine ⟨w.srv.maxPoolData, rfl, ?_⟩
          rw [hP.1.data_eq]
          exact (hP.1.finish hl).holdsAnswers
    · rw [hpc] at hnext
      cases hnext

/-- A MaxPool node over two ciphertext slots and one maximize list, run until its wait can
return. -/
def maxPoolDemoWorld : World OffloadThread :=
  (run (offloadSystem demoConfig) (offloadInit {} [.maxPool [demoCipher, demoCipher] [[0, 1]]])
    [.executor, .executor, .client [[demoAnswer]], .session]).getD (offloadInit {} [])

theorem maxPool_demo_wait_returns :
    Reachable (offloadSystem demoConfig)
      (offloadInit {} [.maxPool [demoCipher, demoCipher] [[0, 1]]]) maxPoolDemoWorld ∧
    HoldsAnswers demoConfig [demoCipher, demoCipher] maxPoolDemoWorld.srv.maxPoolData
      maxPoolDemoWorld.replies [[0, 1]] := by
  have hreach := reachable_of_run .refl (show run (offloadSystem demoConfig)
    (offloadInit {} [.maxPool [demoCipher, demoCipher] [[0, 1]]])
    [.executor, .executor, .client [[demoAnswer]], .session] = some maxPoolDemoWorld from rfl)
  exact ⟨hreach, (maxPool_wait_returns_results (by rfl) (by rfl) hreach).1 _ _ 0 [] rfl rfl⟩

/-! ## What the session thread's handler does -/

/-- **The handler only stores answers.** In every run of the offload system, whatever the
interleaving, each message the session thread handles answers an outstanding request: the
handler never fails (in particular it never reads `m_unknown_relu_idx` past its end),
`m_relu_done_count` never passes `m_unknown_relu_idx.size()`, and `m_max_pool_data` grows only
while the executor waits for a MaxPool answer. -/
theorem session_step_answers_outstanding {s₀ : Executable} {ops : List OffloadOp}
    (h0 : s₀.reluDoneCount = 0) (hdue : inferenceShapeDue s₀ = false)
    (hreach : Reachable (offloadSystem c) (offloadInit s₀ ops) w)
    (hstep : sessionStep c w = some w') :
    w'.fault = none ∧ w'.srv.reluDoneCount ≤ w'.srv.unknownReluIdx.length ∧
      (w'.srv.maxPoolData ≠ w.srv.maxPoolData →
        ∃ arg lists k rest, w.pc.pc = .maxPoolWait arg lists k rest) := by
  obtain ⟨hf, hpool, hI, -⟩ := offloadInv_session (offloadInv_reachable h0 hdue hreach) hstep
  exact ⟨hf, hI.reluDone_le hf, hpool⟩

/-- The ReLU node of `reluDemoWorld` with the client's answer in flight. -/
def reluAnsweredWorld : World OffloadThread :=
  (run (offloadSystem demoConfig) (offloadInit {} [.relu .relu reluDemoArg])
    [.executor, .executor, .client [[demoAnswer]]]).getD (offloadInit {} [])

theorem relu_demo_session_answers :
    Reachable (offloadSystem demoConfig) (offloadInit {} [.relu .relu reluDemoArg])
      reluAnsweredWorld ∧
    ∃ w' : World OffloadThread, sessionStep demoConfig reluAnsweredWorld = some w' ∧
      w'.fault = none ∧ w'.srv.reluDoneCount ≤ w'.srv.unknownReluIdx.length := by
  have hreach := reachable_of_run .refl (show run (offloadSystem demoConfig)
    (offloadInit {} [.relu .relu reluDemoArg])
    [.executor, .executor, .client [[demoAnswer]]] = some reluAnsweredWorld from rfl)
  obtain ⟨hf, hle, -⟩ := session_step_answers_outstanding (by rfl) (by rfl) hreach rfl
  exact ⟨hreach, _, rfl, hf, hle⟩

/-- An offload answer that no request asked for is not rejected: with the executor between
nodes, a ReLU answer makes `handle_relu_result` read `m_unknown_relu_idx` past its end, and a
MaxPool answer is appended to `m_max_pool_data`. -/
theorem unsolicited_answers_not_rejected :
    (offloadInit {} []).pc.pc = .next [] ∧
    (sessionStep demoConfig
      { offloadInit {} [] with toServer := [offloadResponse "Relu" [demoAnswer]] }).map
        (·.fault) =
      some (some (.undefined "m_unknown_relu_idx[result_idx + m_relu_done_count] past the end")) ∧
    (sessionStep demoConfig
      { offloadInit {} [] with toServer := [offloadResponse "MaxPool" [demoAnswer]] }).map
        (·.srv.maxPoolData) = some [demoAnswer] :=
  ⟨rfl, rfl, rfl⟩

end HeTransformer
