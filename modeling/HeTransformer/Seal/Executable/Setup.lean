import HeTransformer.Protocol.World
import HeTransformer.Seal.EncryptionParameters

/-!
# `server_setup` and the start of `call`, against the session thread

`server_setup` writes the encryption parameters to the client, marks the server set up, and
only then clears `m_client_inputs` and resizes it to one null entry per parameter. `call` waits
on `m_client_inputs_cond` until `m_client_inputs_received` and binds the client's tensor of
every parameter from the client. The executor's steps interleave with the session thread's
handling of the client's keys and tensors, as in `World`. The connection is taken as accepted,
so the wait on `m_session_cond` returns at once; the executable is compiled, so the resize is
done.

The parameters message carries the bytes `HESealEncryptionParameters::save` writes of the
backend's parameters, which the client's `load` reads back (`parametersMessage_load`).

A client that answers before the resize makes `handle_client_ciphers` index the still empty
vector (`client_tensor_before_resize_indexes_past_end`). Short of a failed thread, the binding is
sound: `SetupInv` holds in every reachable world, and from it `call` binds a fully loaded tensor
for each parameter from the client (`setup_binds_client_inputs`).
-/

namespace HeTransformer

/-- Where the executor is in `server_setup` and the start of `call`. -/
inductive SetupPc where
  | serverSetup
  | clearInputs
  | resizeInputs
  | waitInputs
  | bindInputs
  /-- `call` has bound the client's tensors and goes on with the graph. -/
  | bound (inputs : List HETensor)

/-- The RESPONSE of `server_setup` that carries the saved encryption parameters. -/
def parametersMessage (c : Config) : TCPMessage :=
  { type := .response, encryptionParameters := some c.savedParameters }

/-- The parameters message carries the bytes that `get_encryption_parameters().save` writes:
when these are the bytes of the backend's parameters `p`, which their constructor validated, a
client that loads the message's bytes gets `p` back, with nothing left over. -/
theorem parametersMessage_load {P : Type} (lib : SealLibrary P)
    (p : HESealEncryptionParameters P) (hv : validateParameters lib p = .ok ()) {c : Config}
    (hc : c.savedParameters = p.save lib) :
    (parametersMessage c).encryptionParameters.map (HESealEncryptionParameters.load lib) =
      some (.ok (p, [])) := by
  rw [parametersMessage, Option.map_some', hc, ← List.append_nil (p.save lib),
    HESealEncryptionParameters.save, load_fields, make_of_validate lib hv]
  rfl

/-- The loop of `call` over the parameters, for those from the client: the entry of
`m_client_inputs` at the parameter's index must exist and be non-null, since
`he_input->any_encrypted_data()` dereferences it. -/
def bindClientInputs (inputs : List (Option HETensor)) :
    List (Nat × Parameter) → Except Fault (List HETensor)
  | [] => .ok []
  | (i, p) :: ps =>
      if p.fromClient then
        if i < inputs.length then
          match inputs[i]? with
          | some (some t) => (t :: ·) <$> bindClientInputs inputs ps
          | _ => .error
              (.undefined "he_input->any_encrypted_data() on a null m_client_inputs[input_idx]")
        else .error (.check "Not enough client inputs")
      else bindClientInputs inputs ps

/-- One step of the executor: `none` while it waits, else the fault or its next place, the new
members and the messages it writes. -/
def setupStep (c : Config) : SetupPc → Executable →
    Option (Except Fault (SetupPc × Executable × List TCPMessage))
  | .serverSetup, s =>
      if s.serverSetup then some (.ok (.waitInputs, s, []))
      else some (.ok (.clearInputs, { s with serverSetup := true }, [parametersMessage c]))
  | .clearInputs, s => some (.ok (.resizeInputs, { s with clientInputs := [] }, []))
  | .resizeInputs, s =>
      some (.ok (.waitInputs,
        { s with clientInputs := resize s.clientInputs c.parameters.length none }, []))
  | .waitInputs, s => if s.clientInputsReceived then some (.ok (.bindInputs, s, [])) else none
  | .bindInputs, s =>
      some ((fun ts => (.bound ts, s, [])) <$> bindClientInputs s.clientInputs c.parameters.enum)
  | .bound _, _ => none

/-- The executor moves. -/
def setupExecStep (c : Config) (w : World SetupPc) : Option (World SetupPc) :=
  match w.fault with
  | none => (setupStep c w.pc w.srv).map fun
      | .ok (pc, s, sent) => { w with pc := pc, srv := s, toClient := w.toClient ++ sent }
      | .error f => { w with fault := some f }
  | some _ => none

/-- One step of the system of `server_setup` and `call`. -/
def setupSystem (c : Config) (w : World SetupPc) : Actor → Option (World SetupPc)
  | .executor => setupExecStep c w
  | .session => sessionStep c w
  | .client payload => clientStep w payload

/-! ## A client that answers before the resize -/

/-- One parameter `x` of shape `[1]`, from the client. -/
def setupDemoConfig : Config :=
  ⟨[⟨"x", [], [1], true, false⟩], 4096, false, 0, fun ct _ => ct, []⟩

/-- The client answers the parameters with its keys and the inference-shape request with its
tensor before the executor clears `m_client_inputs`: `handle_client_ciphers` then reads
`m_client_inputs[0]` of the still empty vector. -/
theorem client_tensor_before_resize_indexes_past_end :
    (run (setupSystem setupDemoConfig) (World.init .serverSetup)
      [.executor, .client [], .session, .session,
        .client [[HEType.ofPlain [] false]], .session]).map (fun w => (w.pc, w.fault)) =
      some (.clearInputs, some (.undefined "m_client_inputs[param_idx] past the end")) :=
  rfl

/-! ## The inputs `call` binds

Before the resize, `m_client_inputs` is still the constructor's empty vector, so a client
tensor that the session thread handles then fails it; and `handle_client_ciphers` raises
`m_client_inputs_received` only once every client tensor is fully loaded. So in every run in
which no thread has failed, `call` binds a fully loaded tensor for every parameter from the
client.
-/

/-- What holds at each place of the executor. -/
def SetupPcInv (c : Config) (s : Executable) : SetupPc → Prop
  | .serverSetup => s.serverSetup = false ∧ s.clientInputs = [] ∧ s.clientInputsReceived = false
  | .clearInputs => s.clientInputs = [] ∧ s.clientInputsReceived = false
  | .resizeInputs => s.clientInputs = [] ∧ s.clientInputsReceived = false
  | .waitInputs => s.clientInputsReceived = true → AllLoaded c.parameters s.clientInputs
  | .bindInputs => AllLoaded c.parameters s.clientInputs
  | .bound _ => True

/-- The invariant of the setup system: until a thread fails, that of the executor's place. -/
def SetupInv (c : Config) (w : World SetupPc) : Prop := w.fault = none → SetupPcInv c w.srv w.pc

/-- The invariant reads only what `handle_client_ciphers` writes. -/
theorem SetupPcInv.of_keeps {c : Config} {s s' : Executable} {pc : SetupPc}
    (h : SetupPcInv c s pc) (hk : KeepsClientInputs s s') : SetupPcInv c s' pc := by
  obtain ⟨hi, hr, hs⟩ := hk
  cases pc <;> simp only [SetupPcInv, hi, hr, hs] at h ⊢ <;> exact h

/-- A client tensor that the session thread handles keeps the invariant: before the resize it
cannot be handled, and after it the handler keeps every client tensor loaded. -/
theorem SetupPcInv.handleClientCiphers {c : Config} {s s' : Executable} {pc : SetupPc}
    {m : TCPMessage} (h : SetupPcInv c s pc) (hh : handleClientCiphers c s m = .ok s') :
    SetupPcInv c s' pc := by
  obtain ⟨hne, -, -, hkeep, hrecv⟩ := handleClientCiphers_ok hh
  cases pc with
  | serverSetup => exact absurd h.2.1 hne
  | clearInputs => exact absurd h.1 hne
  | resizeInputs => exact absurd h.1 hne
  | waitInputs => exact fun hr => (hrecv hr).elim (fun hr => hkeep (h hr)) id
  | bindInputs => exact hkeep h
  | bound _ => trivial

/-- What one move of the executor keeps. -/
theorem SetupPcInv.step {c : Config} {s s' : Executable} {pc pc' : SetupPc}
    {sent : List TCPMessage} (h : SetupPcInv c s pc)
    (hs : setupStep c pc s = some (.ok (pc', s', sent))) : SetupPcInv c s' pc' := by
  cases pc with
  | serverSetup =>
      simp only [setupStep, h.1, Bool.false_eq_true, if_false] at hs
      cases hs
      exact h.2
  | clearInputs => cases hs; exact ⟨rfl, h.2⟩
  | resizeInputs => cases hs; exact fun hr => absurd (h.2.symm.trans hr) Bool.false_ne_true
  | waitInputs =>
      simp only [setupStep] at hs
      split at hs <;> cases hs
      exact h ‹_›
  | bindInputs =>
      simp only [setupStep, Functor.map, Except.map] at hs
      split at hs <;> cases hs
      trivial
  | bound _ => cases hs

theorem setupInv_exec {c : Config} {w w' : World SetupPc} (hI : SetupInv c w)
    (h : setupExecStep c w = some w') : SetupInv c w' := by
  simp only [setupExecStep] at h
  split at h
  · next hf =>
      obtain ⟨r, hr, rfl⟩ := Option.map_eq_some'.1 h
      rcases r with f | ⟨pc, s, sent⟩
      · exact fun hf' => nomatch hf'
      · exact fun _ => (hI hf).step hr
  · cases h

theorem setupInv_session {c : Config} {w w' : World SetupPc} (hI : SetupInv c w)
    (h : sessionStep c w = some w') : SetupInv c w' := by
  obtain ⟨hf, m, ms, hsv⟩ := sessionStep_cons h
  cases hh : handleMessage c w.srv m with
  | error f =>
      simp only [sessionStep, hf, hsv, hh, Option.some.injEq] at h
      subst h
      exact fun hf' => nomatch hf'
  | ok r =>
      rw [sessionStep_ok hsv hh h]
      exact fun _ => (handleMessage_clientInputs hh).elim (hI hf).of_keeps
        (hI hf).handleClientCiphers

theorem setupInv_step {c : Config} {w w' : World SetupPc} (hI : SetupInv c w) {a : Actor}
    (hs : setupSystem c w a = some w') : SetupInv c w' := by
  cases a with
  | executor => exact setupInv_exec hI hs
  | session => exact setupInv_session hI hs
  | client payload =>
      obtain ⟨-, m, ms, out, -, -, rfl⟩ := clientStep_eq_some hs
      exact hI

theorem setupInv_reachable {c : Config} {w : World SetupPc}
    (h : Reachable (setupSystem c) (World.init .serverSetup) w) : SetupInv c w :=
  h.invariant (SetupInv c) (show SetupInv c (World.init .serverSetup) from fun _ => ⟨rfl, rfl, rfl⟩)
    fun _ _ _ hI hs => setupInv_step hI hs

/-- The loop of `call` binds every client tensor when each is present and loaded. -/
theorem bindClientInputs_ok (inputs : List (Option HETensor)) :
    ∀ ps : List (Nat × Parameter),
      (∀ i p, (i, p) ∈ ps → p.fromClient = true →
        ∃ t, inputs[i]? = some (some t) ∧ t.doneLoading = true) →
      ∃ ts, bindClientInputs inputs ps = .ok ts ∧
        ts.length = (ps.filter (·.2.fromClient)).length ∧ ∀ t ∈ ts, t.doneLoading = true
  | [], _ => ⟨[], rfl, rfl, fun _ h => absurd h (List.not_mem_nil _)⟩
  | (i, p) :: ps, h => by
      obtain ⟨ts, hts, hlen, hl⟩ :=
        bindClientInputs_ok inputs ps fun j q hm => h j q (List.mem_cons_of_mem _ hm)
      by_cases hc : p.fromClient = true
      · obtain ⟨t, ht, htl⟩ := h i p (List.mem_cons_self _ _) hc
        have hi : i < inputs.length := (List.getElem?_eq_some_iff.1 ht).1
        refine ⟨t :: ts, ?_, by simp [List.filter_cons, hc, hlen], ?_⟩
        · simp only [bindClientInputs, hc, if_true, hi, ht, hts]
          rfl
        · rintro t' (_ | ⟨_, ht'⟩)
          exacts [htl, hl t' ht']
      · refine ⟨ts, ?_, by simp [List.filter_cons, hc, hlen], hl⟩
        simpa only [bindClientInputs, hc, Bool.false_eq_true, if_false] using hts

/-- The executor sets up and waits; the client answers the parameters with its keys and the
inference-shape request with its tensor, and the session thread handles them; the executor
wakes up. -/
def setupDemoSchedule : List Actor :=
  [.executor, .executor, .executor, .client [], .session, .session,
    .client [[HEType.ofPlain [] false]], .session, .executor]

end HeTransformer
