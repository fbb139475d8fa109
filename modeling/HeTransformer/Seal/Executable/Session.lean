import HeTransformer.Protocol.Message

/-!
# `HESealExecutable`: the state the session thread shares, and its message handlers

The members of `HESealExecutable` that the session thread reads or writes, and the handlers it
runs on every message it reads (`handle_message` and what it dispatches to). A handler is a
function of the members and the message: it returns the new members and the messages it writes
to the client, or the fault that ends the session thread. A fault ends the whole process: the
thread's `catch` rethrows through `NGRAPH_CHECK(false, ...)`, which escapes the thread.

Of the configuration, the model keeps what the executable reads: the graph parameters, the
encoder's slot count, the packing flag, how many slots one `pb::HETensor` carries, SEAL's
modulus switch, and the saved encryption parameters.
-/

namespace HeTransformer

/-- A graph parameter as the executable reads it: `get_name()`, its provenance tags, its shape,
and its `from_client` and `packed` annotations. -/
structure Parameter where
  name : String
  provenanceTags : List String
  shape : List Nat
  fromClient : Bool
  packed : Bool

/-- The name `send_inference_shape` gives a parameter: its first provenance tag, or its name. -/
def Parameter.inferenceName (p : Parameter) : String := p.provenanceTags.headD p.name

/-- `param_originates_from_name`: the parameter's name or one of its provenance tags. -/
def Parameter.originatesFromName (p : Parameter) (name : String) : Bool :=
  p.name == name || p.provenanceTags.contains name

/-- What the handlers read of the backend and the compiled function. -/
structure Config where
  /-- `get_parameters()`. -/
  parameters : List Parameter
  /-- `get_ckks_encoder()->slot_count()`. -/
  slotCount : Nat
  /-- `complex_packing()`. -/
  complexPacking : Bool
  /-- How many slots `write_to_pb_tensors` puts in one `pb::HETensor` (0: no limit). -/
  pbTensorSlots : Nat
  /-- SEAL's `mod_switch_to_inplace`, down to the level of a chain index. -/
  modSwitchTo : Ciphertext → Nat → Ciphertext
  /-- The bytes `get_encryption_parameters().save` writes. -/
  savedParameters : List UInt8

/-! ## Client input tensors -/

/-- Modelled from the spec: an `HETensor` received from the client (he_tensor.cpp is not among
the sources). It has a name, a packing flag, the number of slots it holds in all
(`get_batched_element_count()`), and the slots loaded so far. -/
structure HETensor where
  name : String
  packed : Bool
  elementCount : Nat
  data : List HEType

/-- ngraph's `shape_size`: the number of elements of a shape. -/
def shapeSize (shape : List Nat) : Nat := shape.foldl (· * ·) 1

/-- `HETensor::batch_size(shape, packed)`: the first dimension when packed, else 1. -/
def batchSizeOf (shape : List Nat) (packed : Bool) : Nat :=
  if packed then shape.headD 1 else 1

namespace HETensor

/-- `HETensor::load_from_pb_tensor(pb_tensor, ...)`: a new tensor of the piece's shape, holding
the piece's slots. -/
def ofPb (pb : PbTensor) : HETensor :=
  { name := pb.name, packed := pb.packed,
    elementCount := shapeSize pb.shape / batchSizeOf pb.shape pb.packed, data := pb.data }

/-- `HETensor::load_from_pb_tensor(he_tensor, pb_tensor, ...)`: a further piece is loaded. -/
def load (t : HETensor) (pb : PbTensor) : HETensor := { t with data := t.data ++ pb.data }

/-- `HETensor::load_from_pb_tensor` into the slot of `m_client_inputs`: a new tensor when the
slot is null, else the piece loaded into the tensor there. -/
def loadFromPbTensor : Option HETensor → PbTensor → HETensor
  | none, pb => ofPb pb
  | some t, pb => t.load pb

/-- `HETensor::done_loading()`: every slot has been loaded. -/
def doneLoading (t : HETensor) : Bool := t.elementCount ≤ t.data.length

/-- `HETensor::any_encrypted_data()`. -/
def anyEncryptedData (t : HETensor) : Bool := t.data.any HEType.isCiphertext

end HETensor

/-! ## The shared members -/

/-- The members of `HESealExecutable` that the two threads share, with the values the
constructor leaves them at. -/
structure Executable where
  sessionStarted : Bool := false
  serverSetup : Bool := false
  clientPublicKeySet : Bool := false
  clientEvalKeySet : Bool := false
  sentInferenceShape : Bool := false
  batchSize : Nat := 1
  clientInputs : List (Option HETensor) := []
  clientInputsReceived : Bool := false
  reluData : List HEType := []
  unknownReluIdx : List Nat := []
  reluDoneCount : Nat := 0
  maxPoolData : List HEType := []
  maxPoolDone : Bool := false

/-! ## Key exchange and client inputs -/

/-- `load_public_key`: SEAL loads the key; the flag records it. -/
def loadPublicKey (s : Executable) : Executable := { s with clientPublicKeySet := true }

/-- `load_eval_key`. -/
def loadEvalKey (s : Executable) : Executable := { s with clientEvalKeySet := true }

/-- The REQUEST of `send_inference_shape`: name, shape and packing of each parameter the client
supplies, under the function `"Parameter"`. -/
def inferenceShapeRequest (ps : List Parameter) : TCPMessage :=
  { type := .request, function := some "Parameter",
    heTensors := (ps.filter (·.fromClient)).map fun p =>
      { name := p.inferenceName, shape := p.shape, packed := p.packed } }

/-- `send_inference_shape`. -/
def sendInferenceShape (c : Config) (s : Executable) : Executable × List TCPMessage :=
  ({ s with sentInferenceShape := true }, [inferenceShapeRequest c.parameters])

/-- `set_batch_size`: at most the slot count, twice it under complex packing. -/
def setBatchSize (c : Config) (s : Executable) (b : Nat) : Except Fault Executable :=
  let maxBatch := if c.complexPacking then 2 * c.slotCount else c.slotCount
  if b ≤ maxBatch then .ok { s with batchSize := b }
  else .error (.check ("Batch size " ++ toString b ++ " too large (maximum " ++
    toString maxBatch ++ ")"))

/-- `find_matching_parameter_index`: the first parameter that originates from the name. -/
def findMatchingParameterIndex (ps : List Parameter) (name : String) : Option Nat :=
  ps.findIdx? (·.originatesFromName name)

/-- One parameter of the loop of the `done_loading` lambda. -/
def doneLoadingStep (inputs : List (Option HETensor)) (done : Bool) :
    Nat × Parameter → Except Fault Bool
  | (i, p) =>
      if !p.fromClient || !done then .ok done
      else match inputs[i]? with
        | none => .error (.undefined "m_client_inputs[parm_idx] past the end")
        | some none => .ok false
        | some (some t) => .ok t.doneLoading

/-- The `done_loading` lambda of `handle_client_ciphers`: every parameter from the client has a
non-null, fully loaded tensor in `m_client_inputs`. -/
def doneLoadingInputs (ps : List Parameter) (inputs : List (Option HETensor)) :
    Except Fault Bool :=
  ps.enum.foldlM (doneLoadingStep inputs) true

/-- `handle_client_ciphers`: store or complete the client tensor of the matching parameter, and
raise `m_client_inputs_received` once every client input is loaded. -/
def handleClientCiphers (c : Config) (s : Executable) (m : TCPMessage) :
    Except Fault Executable := do
  let pb ← match m.heTensors with
    | [] => .error (.check "Client received empty tensor message")
    | [pb] => pure pb
    | _ => .error (.check "Client only supports 1 client tensor")
  let s ← setBatchSize c s (batchSizeOf pb.shape pb.packed)
  let idx ← match findMatchingParameterIndex c.parameters pb.name with
    | none => .error (.check ("Could not find matching parameter name " ++ pb.name))
    | some i => pure i
  let slot ← match s.clientInputs[idx]? with
    | none => .error (.undefined "m_client_inputs[param_idx] past the end")
    | some t => pure t
  let tensor := HETensor.loadFromPbTensor slot pb
  let s := { s with clientInputs := s.clientInputs.set idx (some tensor) }
  let done ← doneLoadingInputs c.parameters s.clientInputs
  pure (if done then { s with clientInputsReceived := true } else s)

/-! ## What `handle_client_ciphers` keeps -/

/-- Every parameter from the client has a non-null, fully loaded tensor in `inputs`. -/
def AllLoaded (ps : List Parameter) (inputs : List (Option HETensor)) : Prop :=
  ∀ (i : Nat) (p : Parameter), ps[i]? = some p → p.fromClient = true →
    ∃ t, inputs[i]? = some (some t) ∧ t.doneLoading = true

theorem HETensor.doneLoading_load {t : HETensor} (h : t.doneLoading = true) (pb : PbTensor) :
    (t.load pb).doneLoading = true := by
  simp only [HETensor.doneLoading, HETensor.load, decide_eq_true_eq, List.length_append] at h ⊢
  omega

theorem setBatchSize_ok {c : Config} {s s' : Executable} {b : Nat}
    (h : setBatchSize c s b = .ok s') : s' = { s with batchSize := b } := by
  simp only [setBatchSize] at h
  split_ifs at h <;> cases h <;> rfl

/-- One parameter of `done_loading` leaves `true` only from `true`, and, for a parameter from
the client, only when its tensor is non-null and fully loaded. -/
theorem doneLoadingStep_true {inputs : List (Option HETensor)} {acc : Bool} {i : Nat}
    {p : Parameter} (h : doneLoadingStep inputs acc (i, p) = .ok true) :
    acc = true ∧ (p.fromClient = true →
      ∃ t, inputs[i]? = some (some t) ∧ t.doneLoading = true) := by
  simp only [doneLoadingStep] at h
  split at h
  · next hc =>
      cases h
      exact ⟨rfl, fun hp => by simp [hp] at hc⟩
  · next hc =>
      simp only [Bool.or_eq_true, Bool.not_eq_true', not_or, Bool.not_eq_false] at hc
      split at h
      · cases h
      · cases h
      · next t ht => exact ⟨hc.2, fun _ => ⟨t, ht, Except.ok.inj h⟩⟩

/-- The loop of `done_loading` ends `true` only from `true`, and only if every parameter from
the client that it visits has a non-null, fully loaded tensor. -/
theorem foldlM_doneLoadingStep (inputs : List (Option HETensor)) :
    ∀ (pairs : List (Nat × Parameter)) (acc : Bool),
      pairs.foldlM (doneLoadingStep inputs) acc = .ok true →
      acc = true ∧ ∀ i p, (i, p) ∈ pairs → p.fromClient = true →
        ∃ t, inputs[i]? = some (some t) ∧ t.doneLoading = true
  | [], acc, h => ⟨by cases h; rfl, fun _ _ h => absurd h (List.not_mem_nil _)⟩
  | (i, p) :: pairs, acc, h => by
      rw [List.foldlM_cons] at h
      cases hs : doneLoadingStep inputs acc (i, p) with
      | error f => simp only [hs, bind, Except.bind] at h; cases h
      | ok acc' =>
          simp only [hs, bind, Except.bind] at h
          obtain ⟨rfl, ih⟩ := foldlM_doneLoadingStep inputs pairs acc' h
          obtain ⟨rfl, hhead⟩ := doneLoadingStep_true hs
          refine ⟨rfl, ?_⟩
          rintro j q (_ | ⟨_, hm⟩) hq
          exacts [hhead hq, ih j q hm hq]

theorem doneLoadingInputs_true {ps : List Parameter} {inputs : List (Option HETensor)}
    (h : doneLoadingInputs ps inputs = .ok true) : AllLoaded ps inputs := fun i p hp hc =>
  (foldlM_doneLoadingStep inputs ps.enum true h).2 i p (List.mem_enum_iff_getElem?.2 hp) hc

/-- Storing a piece at a slot keeps every client tensor fully loaded: a loaded tensor only
grows. -/
theorem AllLoaded.set {ps : List Parameter} {inputs : List (Option HETensor)}
    (h : AllLoaded ps inputs) {idx : Nat} {slot : Option HETensor}
    (hslot : inputs[idx]? = some slot) (pb : PbTensor) :
    AllLoaded ps (inputs.set idx (some (HETensor.loadFromPbTensor slot pb))) := by
  intro i p hp hc
  obtain ⟨t, ht, hl⟩ := h i p hp hc
  by_cases hi : idx = i
  · subst hi
    rw [ht, Option.some.injEq] at hslot
    subst hslot
    exact ⟨t.load pb, List.getElem?_set_self (List.getElem?_eq_some_iff.1 ht).1,
      HETensor.doneLoading_load hl pb⟩
  · exact ⟨t, by rw [List.getElem?_set_ne hi]; exact ht, hl⟩

/-- What a `handle_client_ciphers` that returns has done to the client inputs: it found its slot
in `m_client_inputs`, so the vector is not empty; it kept the vector's size and
`m_server_setup`; it kept every client tensor fully loaded; and it raised
`m_client_inputs_received` only with every client tensor fully loaded. -/
theorem handleClientCiphers_ok {c : Config} {s s' : Executable} {m : TCPMessage}
    (h : handleClientCiphers c s m = .ok s') :
    s.clientInputs ≠ [] ∧ s'.clientInputs.length = s.clientInputs.length ∧
      s'.serverSetup = s.serverSetup ∧
      (AllLoaded c.parameters s.clientInputs → AllLoaded c.parameters s'.clientInputs) ∧
      (s'.clientInputsReceived = true →
        s.clientInputsReceived = true ∨ AllLoaded c.parameters s'.clientInputs) := by
  simp only [handleClientCiphers, bind, Except.bind, pure, Except.pure] at h
  split at h <;> try cases h
  next pb _ =>
  split at h; · cases h
  next s₁ hs₁ =>
  obtain rfl := setBatchSize_ok hs₁
  split at h; · cases h
  next idx _ =>
  cases hslot : s.clientInputs[idx]? with
  | none => simp only [hslot] at h; cases h
  | some slot =>
  simp only [hslot] at h
  split at h; · cases h
  next done hdone =>
  cases h
  have hlt : idx < s.clientInputs.length := (List.getElem?_eq_some_iff.1 hslot).1
  refine ⟨List.ne_nil_of_length_pos (by omega), ?_, ?_, fun hl => ?_, fun hr => ?_⟩
  · split <;> exact List.length_set _ _ _
  · split <;> rfl
  · split <;> exact hl.set hslot pb
  · by_cases hd : done = true
    · simp only [hd, ↓reduceIte]
      exact .inr (doneLoadingInputs_true (hd ▸ hdone))
    · simp only [hd, ↓reduceIte, Bool.false_eq_true] at hr
      exact .inl hr

/-! ## Offload results -/

/-- The loop of `handle_relu_result`: result `r` is stored at
`m_relu_data[m_unknown_relu_idx[r + m_relu_done_count]]`; `k` is `r + m_relu_done_count`. -/
def storeReluResults (idx : List Nat) : Nat → List HEType → List HEType →
    Except Fault (List HEType)
  | _, [], data => .ok data
  | k, x :: xs, data =>
      match idx[k]? with
      | none =>
          .error (.undefined "m_unknown_relu_idx[result_idx + m_relu_done_count] past the end")
      | some pos =>
          if pos < data.length then storeReluResults idx (k + 1) xs (data.set pos x)
          else .error (.undefined "m_relu_data[m_unknown_relu_idx[...]] past the end")

/-- Store `vs` at the positions `ps`, in order, as far as both go. -/
def fillAt : List Nat → List HEType → List HEType → List HEType
  | p :: ps, v :: vs, data => fillAt ps vs (data.set p v)
  | _, _, data => data

@[simp] theorem length_fillAt (ps : List Nat) (vs data : List HEType) :
    (fillAt ps vs data).length = data.length := by
  induction ps generalizing vs data with
  | nil => rfl
  | cons p ps ih =>
      cases vs with
      | nil => rfl
      | cons v vs => rw [fillAt, ih, List.length_set]

theorem getElem?_fillAt_of_not_mem {ps : List Nat} {vs data : List HEType} {q : Nat}
    (h : q ∉ ps) : (fillAt ps vs data)[q]? = data[q]? := by
  induction ps generalizing vs data with
  | nil => rfl
  | cons p ps ih =>
      cases vs with
      | nil => rfl
      | cons v vs =>
          simp only [List.mem_cons, not_or] at h
          rw [fillAt, ih h.2, List.getElem?_set_ne (Ne.symm h.1)]

/-- At distinct positions inside `data`, `fillAt` stores exactly the values, in order. -/
theorem map_getElem?_fillAt {ps : List Nat} {vs data : List HEType} (hnd : ps.Nodup)
    (hlt : ∀ p ∈ ps, p < data.length) (hlen : ps.length = vs.length) :
    ps.map ((fillAt ps vs data)[·]?) = vs.map some := by
  induction ps generalizing vs data with
  | nil => cases vs <;> simp_all
  | cons p ps ih =>
      cases vs with
      | nil => simp at hlen
      | cons v vs =>
          simp only [List.nodup_cons] at hnd
          simp only [List.mem_cons, forall_eq_or_imp] at hlt
          simp only [List.map_cons, fillAt, getElem?_fillAt_of_not_mem hnd.1,
            List.getElem?_set_self hlt.1]
          rw [ih hnd.2 (by simpa using hlt.2) (by simpa using hlen)]

theorem fillAt_take (ps : List Nat) (vs data : List HEType) :
    fillAt (ps.take vs.length) vs data = fillAt ps vs data := by
  induction ps generalizing vs data with
  | nil => rw [List.take_nil]
  | cons p ps ih =>
      cases vs with
      | nil => rfl
      | cons v vs => rw [List.length_cons, List.take_succ_cons, fillAt, fillAt, ih]

/-- The results loop of `handle_relu_result` stays inside both vectors exactly when the
results fit the queued indices; it then stores them at `m_unknown_relu_idx[k..]`. -/
theorem storeReluResults_eq {idx : List Nat} {k : Nat} {vs data : List HEType}
    (hk : k + vs.length ≤ idx.length) (hlt : ∀ p ∈ idx, p < data.length) :
    storeReluResults idx k vs data = .ok (fillAt (idx.drop k) vs data) := by
  induction vs generalizing k data with
  | nil => cases h : idx.drop k <;> simp [storeReluResults, fillAt]
  | cons v vs ih =>
      have hk' : k < idx.length := by simp at hk; omega
      rw [List.drop_eq_getElem_cons hk', storeReluResults, List.getElem?_eq_getElem hk']
      simp only [if_pos (hlt _ (List.getElem_mem hk')), fillAt]
      exact ih (by simp at hk ⊢; omega) (by simpa using hlt)

/-- `handle_relu_result` (and `handle_bounded_relu_result`, which calls it). -/
def handleReluResult (s : Executable) (m : TCPMessage) : Except Fault Executable :=
  match m.heTensors with
  | [pb] => do
      let data ← storeReluResults s.unknownReluIdx s.reluDoneCount pb.data s.reluData
      pure { s with reluData := data, reluDoneCount := s.reluDoneCount + pb.data.length }
  | ts => .error (.check ("Can only handle one tensor at a time, got " ++ toString ts.length))

/-- `handle_max_pool_result`. -/
def handleMaxPoolResult (s : Executable) (m : TCPMessage) : Except Fault Executable :=
  match m.heTensors with
  | [pb] =>
      match pb.data with
      | [x] => .ok { s with maxPoolData := s.maxPoolData ++ [x], maxPoolDone := true }
      | xs => .error (.check ("Maxpool only supports result_count 1, got " ++
          toString xs.length))
  | ts => .error (.check ("Can only handle one tensor at a time, got " ++ toString ts.length))

/-- The RESPONSE branch of `handle_message` once the keys are handled: dispatch on the
function named by the descriptor. -/
def handleFunctionResult (s : Executable) (m : TCPMessage) (name : String) :
    Except Fault Executable :=
  if name = "Relu" then handleReluResult s m
  else if name = "BoundedRelu" then handleReluResult s m
  else if name = "MaxPool" then handleMaxPoolResult s m
  else .error (.check ("Unknown function name \"" ++ name ++ "\""))

/-- The condition on which `handle_message` sends the inference shape: both client keys are
loaded and the shape is not sent yet. -/
def inferenceShapeDue (s : Executable) : Bool :=
  !s.sentInferenceShape && s.clientPublicKeySet && s.clientEvalKeySet

/-- `handle_message`: the session thread's handler of every message it reads. -/
def handleMessage (c : Config) (s : Executable) (m : TCPMessage) :
    Except Fault (Executable × List TCPMessage) :=
  match m.type with
  | .response =>
      let s := if m.publicKey then loadPublicKey s else s
      let s := if m.evalKey then loadEvalKey s else s
      let (s, out) :=
        if inferenceShapeDue s then sendInferenceShape c s
        else (s, [])
      match m.function with
      | none => .ok (s, out)
      | some name => (·, out) <$> handleFunctionResult s m name
  | .request =>
      if m.heTensors.length > 0 then (·, []) <$> handleClientCiphers c s m else .ok (s, [])
  | .unknown => .error (.check "Unknonwn TCPMessage type")

/-! ## Which handlers touch the client inputs -/

/-- `s'` has the client inputs, the received flag and `m_server_setup` of `s`. -/
def KeepsClientInputs (s s' : Executable) : Prop :=
  s'.clientInputs = s.clientInputs ∧ s'.clientInputsReceived = s.clientInputsReceived ∧
    s'.serverSetup = s.serverSetup

theorem KeepsClientInputs.trans {s s' s'' : Executable} (h : KeepsClientInputs s s')
    (h' : KeepsClientInputs s' s'') : KeepsClientInputs s s'' :=
  ⟨h'.1.trans h.1, h'.2.1.trans h.2.1, h'.2.2.trans h.2.2⟩

theorem handleFunctionResult_keeps {s s' : Executable} {m : TCPMessage} {name : String}
    (h : handleFunctionResult s m name = .ok s') : KeepsClientInputs s s' := by
  simp only [handleFunctionResult, handleReluResult, handleMaxPoolResult, bind, Except.bind,
    pure, Except.pure] at h
  split_ifs at h <;> repeat' (first | (split at h) | (cases h; exact ⟨rfl, rfl, rfl⟩) | cases h)

/-- Only `handle_client_ciphers` writes the client inputs, the received flag or
`m_server_setup`: the key handlers, `send_inference_shape` and the offload result handlers do
not. -/
theorem handleMessage_clientInputs {c : Config} {s s' : Executable} {m : TCPMessage}
    {out : List TCPMessage} (h : handleMessage c s m = .ok (s', out)) :
    KeepsClientInputs s s' ∨ handleClientCiphers c s m = .ok s' := by
  simp only [handleMessage] at h
  split at h
  · left
    split at h
    · obtain ⟨rfl, -⟩ := Prod.mk.inj (Except.ok.inj h)
      split_ifs <;> exact ⟨rfl, rfl, rfl⟩
    · simp only [Functor.map, Except.map] at h
      split at h
      · cases h
      · next s'' hf =>
          obtain ⟨rfl, -⟩ := Prod.mk.inj (Except.ok.inj h)
          refine KeepsClientInputs.trans ?_ (handleFunctionResult_keeps hf)
          split_ifs <;> exact ⟨rfl, rfl, rfl⟩
  · split at h
    · right
      simp only [Functor.map, Except.map] at h
      split at h
      · cases h
      · next s'' hc =>
          obtain ⟨rfl, -⟩ := Prod.mk.inj (Except.ok.inj h)
          exact hc
    · obtain ⟨rfl, -⟩ := Prod.mk.inj (Except.ok.inj h)
      exact .inl ⟨rfl, rfl, rfl⟩
  · cases h

/-! ## The handlers on the client's offload answers -/

/-- A ReLU answer that fits the queued indices, read when no inference shape is due, stores its
results in `m_relu_data` and advances `m_relu_done_count`. -/
theorem handleMessage_reluResponse {c : Config} {s : Executable} (kind : ReluKind)
    {d : List HEType} (hk : inferenceShapeDue s = false)
    (hfit : s.reluDoneCount + d.length ≤ s.unknownReluIdx.length)
    (hlt : ∀ p ∈ s.unknownReluIdx, p < s.reluData.length) :
    handleMessage c s (offloadResponse kind.description d) =
      .ok ({ s with reluData := fillAt (s.unknownReluIdx.drop s.reluDoneCount) d s.reluData,
                    reluDoneCount := s.reluDoneCount + d.length }, []) := by
  cases kind <;>
    simp [handleMessage, offloadResponse, hk, handleFunctionResult, ReluKind.description,
      handleReluResult, storeReluResults_eq hfit hlt, bind, Except.bind, pure, Except.pure,
      Functor.map, Except.map]

/-- A MaxPool answer of one result, read when no inference shape is due, appends it to
`m_max_pool_data` and sets `m_max_pool_done`. -/
theorem handleMessage_maxPoolResponse {c : Config} {s : Executable} (x : HEType)
    (hk : inferenceShapeDue s = false) :
    handleMessage c s (offloadResponse "MaxPool" [x]) =
      .ok ({ s with maxPoolData := s.maxPoolData ++ [x], maxPoolDone := true }, []) := by
  simp [handleMessage, offloadResponse, hk, handleFunctionResult, handleMaxPoolResult,
    Functor.map, Except.map]

end HeTransformer
