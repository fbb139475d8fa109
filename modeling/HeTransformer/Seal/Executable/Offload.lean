import HeTransformer.Protocol.World

/-!
# The executor's side of the nonlinear offload

`handle_server_relu_op` and `handle_server_max_pool_op` as steps of the executor thread
(spec §4.5). The executor runs a list of offloaded nodes. A ReLU node first does everything
that needs no answer — matches the chain indices of its argument, resizes `m_relu_data`,
computes the plaintext slots in place and queues the indices of the ciphertext slots — then
writes its requests one message at a time and waits on `m_relu_cond` until
`m_relu_done_count == m_unknown_relu_idx.size()`. A MaxPool node sends one request per
maximize list and waits on `m_max_pool_cond` after each.

The work before the first request is one step: nothing the session thread writes is read
there, and the session thread touches the ReLU members only on an answer, which needs a
request. The request messages are computed in that step too, since building them reads only
the argument and `m_unknown_relu_idx`, which only the executor writes. Over the queued
ciphertext slots, the batches are the consecutive chunks of `max_relu_message_cnt` slots
(`relu_batches_are_consecutive_chunks`), by the lemmas on `batchLoop`.
-/

namespace HeTransformer

/-! ## `match_to_smallest_chain_index` -/

/-- `SIZE_MAX`. -/
def sizeMax : Nat := 2 ^ 64 - 1

/-- `get_chain_index` of a ciphertext: `parms_id_zero` has no context data, and reading its
chain index dereferences null. -/
def chainIndex (c : Ciphertext) : Except Fault Nat :=
  match c.parmsId with
  | .level i => .ok i
  | .zero => .error (.undefined "get_context_data(parms_id_zero) is null")

/-- One slot under `match_to_smallest_chain_index`: a ciphertext above chain index `m` is
mod-switched down to it; everything else is left as it is. -/
def switchSlot (sw : Ciphertext → Nat → Ciphertext) (m : Nat) (t : HEType) : HEType :=
  match t.value with
  | .ciphertext c =>
      match c.parmsId with
      | .level i => if m < i then { t with value := .ciphertext (sw c m) } else t
      | .zero => t
  | .plaintext _ => t

/-- The chain indices of the ciphertext slots, in slot order. -/
def cipherChainIndices (slots : List HEType) : Except Fault (List Nat) :=
  (slots.filterMap fun t =>
    match t.value with
    | .ciphertext c => some c
    | .plaintext _ => none).mapM chainIndex

/-- Modelled from the spec: `match_to_smallest_chain_index` (seal_util.cpp is not among the
sources) finds the smallest chain index of the ciphertext slots and mod-switches every
ciphertext above it down to it. Plaintext slots are not modified; without ciphertexts it
returns `SIZE_MAX`. -/
def matchToSmallestChainIndex (sw : Ciphertext → Nat → Ciphertext) (slots : List HEType) :
    Except Fault (List HEType × Nat) :=
  (fun inds => match inds.min? with
    | none => (slots, sizeMax)
    | some m => (slots.map (switchSlot sw m), m)) <$> cipherChainIndices slots

@[simp] theorem isPlaintext_switchSlot (sw : Ciphertext → Nat → Ciphertext) (m : Nat)
    (t : HEType) : (switchSlot sw m t).isPlaintext = t.isPlaintext := by
  rcases t with ⟨_ | ⟨_ | i, _, _⟩, b⟩
  · rfl
  · rfl
  · simp only [switchSlot]; split <;> rfl

theorem switchSlot_of_isPlaintext {sw : Ciphertext → Nat → Ciphertext} {m : Nat} {t : HEType}
    (h : t.isPlaintext) : switchSlot sw m t = t := by
  rcases t with ⟨_ | _, b⟩
  · rfl
  · simp [HEType.isPlaintext] at h

/-- Matching changes no slot's tag and no plaintext slot. -/
theorem matchToSmallestChainIndex_ok {sw : Ciphertext → Nat → Ciphertext}
    {slots slots' : List HEType} {m : Nat}
    (h : matchToSmallestChainIndex sw slots = .ok (slots', m)) :
    slots'.map HEType.isPlaintext = slots.map HEType.isPlaintext ∧
      ∀ (i : Nat) (t : HEType), slots[i]? = some t → t.isPlaintext → slots'[i]? = some t := by
  cases hc : cipherChainIndices slots with
  | error f => simp [matchToSmallestChainIndex, hc, Functor.map, Except.map] at h
  | ok inds =>
      simp only [matchToSmallestChainIndex, hc, Functor.map, Except.map, Except.ok.injEq] at h
      split at h <;> obtain ⟨rfl, -⟩ := Prod.mk.inj h
      · exact ⟨rfl, fun i t ht _ => ht⟩
      · refine ⟨by simp [Function.comp_def], fun i t ht hp => ?_⟩
        simp [ht, switchSlot_of_isPlaintext hp]

/-! ## `handle_server_relu_op` -/

/-- `max_relu_message_cnt`. -/
def maxReluMessageCnt : Nat := 1000

/-- The loop "Process known values", from slot `i` on: a plaintext slot's result is computed
into `m_relu_data[i]` (`set_plaintext`, then the scalar ReLU into it), a ciphertext slot's
index is queued in `m_unknown_relu_idx`. -/
def processKnownValues (kind : ReluKind) :
    Nat → List HEType → List HEType × List Nat → List HEType × List Nat
  | _, [], acc => acc
  | i, t :: ts, (data, idx) =>
      match t.value with
      | .plaintext p =>
          processKnownValues kind (i + 1) ts (data.modify (·.setPlaintext (kind.apply p)) i, idx)
      | .ciphertext _ => processKnownValues kind (i + 1) ts (data, idx ++ [i])

/-- The loop "Process unknown values": every queued slot, checked to be a ciphertext, joins the
current batch; a batch of `max_relu_message_cnt` slots is sent, and so is a last nonempty
one. The result is the list of batches, in the order they are sent. -/
def reluCipherBatches (arg : List HEType) :
    List HEType → List Nat → Except Fault (List (List HEType))
  | batch, [] => .ok (if batch.isEmpty then [] else [batch])
  | batch, i :: is =>
      match arg[i]? with
      | none => .error (.undefined "arg->data(unknown_relu_idx) past the end")
      | some t =>
          if t.isCiphertext then
            if (batch ++ [t]).length = maxReluMessageCnt then
              ((batch ++ [t]) :: ·) <$> reluCipherBatches arg [] is
            else reluCipherBatches arg (batch ++ [t]) is
          else .error (.check "HEType should be ciphertext")

/-- The positions, from `i` on, of the ciphertext slots among `ts`. -/
def cipherIdxFrom : Nat → List HEType → List Nat
  | _, [] => []
  | i, t :: ts => if t.isPlaintext then cipherIdxFrom (i + 1) ts else i :: cipherIdxFrom (i + 1) ts

/-- The positions of the ciphertext slots of a tensor, in increasing order. -/
def cipherIdx (arg : List HEType) : List Nat := cipherIdxFrom 0 arg

theorem mem_cipherIdxFrom {i k : Nat} {ts : List HEType} :
    k ∈ cipherIdxFrom i ts ↔ ∃ j t, k = i + j ∧ ts[j]? = some t ∧ t.isCiphertext := by
  induction ts generalizing i with
  | nil => simp [cipherIdxFrom]
  | cons t ts ih =>
      have step : k ∈ cipherIdxFrom i (t :: ts) ↔
          (k = i ∧ t.isCiphertext) ∨ k ∈ cipherIdxFrom (i + 1) ts := by
        rw [cipherIdxFrom]
        cases h : t.isPlaintext <;> simp [HEType.isCiphertext, h]
      rw [step, ih]
      constructor
      · rintro (⟨rfl, hc⟩ | ⟨j, u, rfl, hu, hc⟩)
        · exact ⟨0, t, rfl, List.getElem?_cons_zero, hc⟩
        · exact ⟨j + 1, u, by omega, by rwa [List.getElem?_cons_succ], hc⟩
      · rintro ⟨_ | j, u, rfl, hu, hc⟩
        · cases List.getElem?_cons_zero.symm.trans hu
          exact .inl ⟨rfl, hc⟩
        · exact .inr ⟨j, u, by omega, by rwa [List.getElem?_cons_succ] at hu, hc⟩

theorem le_of_mem_cipherIdxFrom {i k : Nat} {ts : List HEType} (h : k ∈ cipherIdxFrom i ts) :
    i ≤ k := by
  obtain ⟨j, -, rfl, -⟩ := mem_cipherIdxFrom.mp h
  omega

theorem pairwise_cipherIdxFrom (i : Nat) (ts : List HEType) :
    (cipherIdxFrom i ts).Pairwise (· < ·) := by
  induction ts generalizing i with
  | nil => exact List.Pairwise.nil
  | cons t ts ih =>
      simp only [cipherIdxFrom]
      split
      · exact ih (i + 1)
      · exact List.pairwise_cons.mpr
          ⟨fun k hk => Nat.lt_of_lt_of_le (Nat.lt_succ_self i) (le_of_mem_cipherIdxFrom hk), ih _⟩

theorem nodup_cipherIdx (arg : List HEType) : (cipherIdx arg).Nodup :=
  (pairwise_cipherIdxFrom 0 arg).imp Nat.ne_of_lt

theorem mem_cipherIdx {arg : List HEType} {k : Nat} :
    k ∈ cipherIdx arg ↔ ∃ t, arg[k]? = some t ∧ t.isCiphertext := by
  simp [cipherIdx, mem_cipherIdxFrom]

theorem lt_of_mem_cipherIdx {arg : List HEType} {k : Nat} (h : k ∈ cipherIdx arg) :
    k < arg.length := by
  obtain ⟨t, ht, -⟩ := mem_cipherIdx.mp h
  exact (List.getElem?_eq_some_iff.mp ht).1

theorem length_cipherIdxFrom_le (i : Nat) (ts : List HEType) :
    (cipherIdxFrom i ts).length ≤ ts.length := by
  induction ts generalizing i with
  | nil => exact le_rfl
  | cons t ts ih =>
      have := ih (i + 1)
      simp only [cipherIdxFrom]
      split <;> simp only [List.length_cons] <;> omega

/-- Only the tags decide where the ciphertext slots are. -/
theorem cipherIdxFrom_congr {i : Nat} {ts ts' : List HEType}
    (h : ts'.map HEType.isPlaintext = ts.map HEType.isPlaintext) :
    cipherIdxFrom i ts' = cipherIdxFrom i ts := by
  induction ts generalizing i ts' with
  | nil => simp_all
  | cons t ts ih =>
      cases ts' with
      | nil => simp at h
      | cons t' ts' =>
          simp only [List.map_cons, List.cons.injEq] at h
          simp only [cipherIdxFrom, h.1, ih h.2]

theorem processKnownValues_snd (kind : ReluKind) (i : Nat) (ts : List HEType)
    (data : List HEType) (idx : List Nat) :
    (processKnownValues kind i ts (data, idx)).2 = idx ++ cipherIdxFrom i ts := by
  induction ts generalizing i data idx with
  | nil => simp [processKnownValues, cipherIdxFrom]
  | cons t ts ih =>
      rcases t with ⟨_ | _, b⟩ <;>
        simp [processKnownValues, cipherIdxFrom, ih, HEType.isPlaintext]

theorem length_processKnownValues_fst (kind : ReluKind) (i : Nat) (ts : List HEType)
    (data : List HEType) (idx : List Nat) :
    (processKnownValues kind i ts (data, idx)).1.length = data.length := by
  induction ts generalizing i data idx with
  | nil => rfl
  | cons t ts ih => rcases t with ⟨_ | _, b⟩ <;> simp [processKnownValues, ih]

theorem getElem?_processKnownValues_fst_of_lt {kind : ReluKind} {i k : Nat} {ts : List HEType}
    {data : List HEType} {idx : List Nat} (hk : k < i) :
    (processKnownValues kind i ts (data, idx)).1[k]? = data[k]? := by
  induction ts generalizing i data idx with
  | nil => rfl
  | cons t ts ih =>
      rcases t with ⟨_ | _, b⟩ <;> simp only [processKnownValues]
      · rw [ih (by omega), List.getElem?_modify_ne _ _ (by omega)]
      · exact ih (by omega)

/-- A plaintext slot's result is its scalar ReLU, written over the old slot in place. -/
theorem getElem?_processKnownValues_fst {kind : ReluKind} {i j : Nat} {ts : List HEType}
    {data : List HEType} {idx : List Nat} {t : HEType} {p : HEPlaintext}
    (ht : ts[j]? = some t) (hp : t.value = .plaintext p) :
    (processKnownValues kind i ts (data, idx)).1[i + j]? =
      data[i + j]?.map (·.setPlaintext (kind.apply p)) := by
  induction ts generalizing i j data idx with
  | nil => simp at ht
  | cons u ts ih =>
      cases j with
      | zero =>
          simp only [List.getElem?_cons_zero, Option.some.injEq] at ht
          subst ht
          rcases u with ⟨v, b⟩
          cases hp
          simp only [processKnownValues, Nat.add_zero]
          rw [getElem?_processKnownValues_fst_of_lt (by omega), List.getElem?_modify_eq]
          rfl
      | succ j =>
          have ht' : ts[j]? = some t := by simpa using ht
          rcases u with ⟨_ | _, b⟩ <;> simp only [processKnownValues]
          · rw [show i + (j + 1) = i + 1 + j by omega, ih ht',
              List.getElem?_modify_ne _ _ (by omega)]
          · rw [show i + (j + 1) = i + 1 + j by omega, ih ht']

/-- The batches of the loop "Process unknown values" are nonempty and hold every queued slot. -/
theorem reluCipherBatches_ok {arg batch : List HEType} {is : List Nat}
    {bs : List (List HEType)} (h : reluCipherBatches arg batch is = .ok bs) :
    bs.flatten.length = batch.length + is.length ∧ ∀ b ∈ bs, b ≠ [] := by
  induction is generalizing batch bs with
  | nil =>
      simp only [reluCipherBatches, Except.ok.injEq] at h
      subst h
      cases batch <;> simp
  | cons i is ih =>
      simp only [reluCipherBatches] at h
      split at h
      · cases h
      · split at h
        · split at h
          · cases hr : reluCipherBatches arg [] is with
            | error f => simp only [hr, Functor.map, Except.map] at h; cases h
            | ok bs' =>
                simp only [hr, Functor.map, Except.map, Except.ok.injEq] at h
                subst h
                obtain ⟨h1, h2⟩ := ih hr
                refine ⟨?_, fun b hb => ?_⟩
                · rw [List.flatten_cons, List.length_append, h1]
                  simp only [List.length_append, List.length_singleton, List.length_nil,
                    List.length_cons]
                  omega
                · rcases List.mem_cons.mp hb with rfl | hb
                  · exact List.append_ne_nil_of_right_ne_nil _ (List.cons_ne_nil _ _)
                  · exact h2 b hb
          · obtain ⟨h1, h2⟩ := ih h
            simp only [List.length_append, List.length_singleton, List.length_cons,
              List.length_nil] at h1 ⊢
            exact ⟨by omega, h2⟩
        · cases h

/-- Over indices of ciphertext slots, the loop "Process unknown values" is `batchLoop` over the
slots they index. -/
theorem reluCipherBatches_eq_batchLoop {arg : List HEType} {is : List Nat}
    (h : ∀ i ∈ is, ∃ t, arg[i]? = some t ∧ t.isCiphertext = true) (batch : List HEType) :
    reluCipherBatches arg batch is =
      .ok (batchLoop maxReluMessageCnt batch (is.filterMap (arg[·]?))) := by
  induction is generalizing batch with
  | nil => rfl
  | cons i is ih =>
      obtain ⟨t, ht, hc⟩ := h i (List.mem_cons_self _ _)
      have ih := ih (fun j hj => h j (List.mem_cons_of_mem _ hj))
      rw [List.filterMap_cons_some ht]
      simp only [reluCipherBatches, ht, hc, if_true, batchLoop]
      split_ifs
      · rw [ih]
        rfl
      · exact ih _

theorem length_filterMap_getElem? {arg : List HEType} {is : List Nat}
    (h : ∀ i ∈ is, ∃ t, arg[i]? = some t ∧ t.isCiphertext = true) :
    (is.filterMap (arg[·]?)).length = is.length := by
  induction is with
  | nil => rfl
  | cons i is ih =>
      obtain ⟨t, ht, -⟩ := h i (List.mem_cons_self _ _)
      rw [List.filterMap_cons_some ht, List.length_cons, List.length_cons,
        ih fun j hj => h j (List.mem_cons_of_mem _ hj)]

/-- **The ReLU batches are the consecutive chunks of the queued slots.** Over any indices of
ciphertext slots, as `m_unknown_relu_idx` holds, the loop "Process unknown values" passes
`process_unknown_relu_ciphers_batch` the slots in order, cut into nonempty batches of at most
`max_relu_message_cnt`, every one but the last full, and `⌈u / max_relu_message_cnt⌉` of them for
`u` indices: none for no index. -/
theorem relu_batches_are_consecutive_chunks {arg : List HEType} {is : List Nat}
    (h : ∀ i ∈ is, ∃ t, arg[i]? = some t ∧ t.isCiphertext = true) :
    ∃ bs, reluCipherBatches arg [] is = .ok bs ∧ bs.flatten = is.filterMap (arg[·]?) ∧
      (∀ b ∈ bs, b ≠ [] ∧ b.length ≤ maxReluMessageCnt) ∧
      (∀ b ∈ bs.dropLast, b.length = maxReluMessageCnt) ∧
      bs.length = (is.length + maxReluMessageCnt - 1) / maxReluMessageCnt := by
  have hlt : ([] : List HEType).length < maxReluMessageCnt := by decide
  refine ⟨_, reluCipherBatches_eq_batchLoop h [], (flatten_batchLoop _ _ _).trans
    (List.nil_append _), fun b hb => ⟨ne_nil_of_mem_batchLoop hb,
      length_le_of_mem_batchLoop hlt hb⟩, fun b hb => length_of_mem_dropLast_batchLoop hb, ?_⟩
  rw [length_batchLoop hlt, length_filterMap_getElem? h, List.length_nil, Nat.zero_add]

/-- A ReLU argument with ciphertext slots at `0` and `2`. -/
def reluBatchDemoArg : List HEType :=
  [⟨.ciphertext .empty, false⟩, .ofPlain [] false, ⟨.ciphertext .empty, true⟩]

theorem relu_demo_batches_are_chunks :
    (∀ i ∈ [0, 2], ∃ t, reluBatchDemoArg[i]? = some t ∧ t.isCiphertext = true) ∧
    ∃ bs, reluCipherBatches reluBatchDemoArg [] [0, 2] = .ok bs ∧
      bs.flatten = [0, 2].filterMap (reluBatchDemoArg[·]?) ∧
      (∀ b ∈ bs, b ≠ [] ∧ b.length ≤ maxReluMessageCnt) ∧
      (∀ b ∈ bs.dropLast, b.length = maxReluMessageCnt) ∧
      bs.length = ([0, 2].length + maxReluMessageCnt - 1) / maxReluMessageCnt :=
  have h : ∀ i ∈ [0, 2], ∃ t, reluBatchDemoArg[i]? = some t ∧ t.isCiphertext = true := by
    simp [reluBatchDemoArg, HEType.isCiphertext, HEType.isPlaintext]
  ⟨h, relu_batches_are_consecutive_chunks h⟩

/-- Modelled from the spec: `HETensor::write_to_pb_tensors` (he_tensor.cpp is not among the
sources) writes a tensor's slots as consecutive `pb::HETensor` pieces of at most
`pbTensorSlots` slots each. -/
def writeToPbTensors (c : Config) (data : List HEType) : List (List HEType) :=
  batchLoop c.pbTensorSlots [] data

/-- `handle_server_relu_op` up to its first request: the new members and every request
message, in the order `process_unknown_relu_ciphers_batch` writes them. -/
def reluStart (c : Config) (kind : ReluKind) (arg : List HEType) (s : Executable) :
    Except Fault (Executable × List TCPMessage) := do
  let (arg, _) ← matchToSmallestChainIndex c.modSwitchTo arg
  let data := resize s.reluData arg.length (HEType.ofPlain [] false)
  let (data, idx) := processKnownValues kind 0 arg (data, [])
  let batches ← reluCipherBatches arg [] idx
  pure ({ s with reluData := data, unknownReluIdx := idx },
    (batches.flatMap (writeToPbTensors c)).map (reluRequest kind))

/-- Cutting batches into `pb::HETensor` pieces keeps every slot. -/
theorem flatten_flatMap_writeToPbTensors (c : Config) (bs : List (List HEType)) :
    (bs.flatMap (writeToPbTensors c)).flatten = bs.flatten := by
  induction bs with
  | nil => rfl
  | cons b bs ih =>
      simp only [List.flatMap_cons, List.flatten_append, ih, List.flatten_cons,
        writeToPbTensors, flatten_batchLoop, List.nil_append]

/-- What `handle_server_relu_op` has done when it writes its first request: `m_unknown_relu_idx`
lists the ciphertext slots, `m_relu_data` has a slot per argument slot with each plaintext
slot's result in place, no other member changed, and the requests carry nonempty pieces whose
sizes add up to the number of ciphertext slots. -/
theorem reluStart_ok {c : Config} {kind : ReluKind} {arg : List HEType} {s s' : Executable}
    {msgs : List TCPMessage} (h : reluStart c kind arg s = .ok (s', msgs)) :
    ∃ (data : List HEType) (pieces : List (List HEType)),
      s' = { s with reluData := data, unknownReluIdx := cipherIdx arg } ∧
      data.length = arg.length ∧
      (∀ (k : Nat) (t : HEType) (p : HEPlaintext), arg[k]? = some t → t.value = .plaintext p →
        ∃ d : HEType, data[k]? = some d ∧ d.value = .plaintext (kind.apply p)) ∧
      msgs = pieces.map (reluRequest kind) ∧ (∀ q ∈ pieces, q ≠ []) ∧
      pieces.flatten.length = (cipherIdx arg).length := by
  cases hm : matchToSmallestChainIndex c.modSwitchTo arg with
  | error f => simp [reluStart, hm, bind, Except.bind] at h
  | ok r =>
      obtain ⟨arg', m⟩ := r
      obtain ⟨htags, hplain⟩ := matchToSmallestChainIndex_ok hm
      have hlen : arg'.length = arg.length := by
        simpa using congrArg List.length htags
      have hidx : cipherIdx arg' = cipherIdx arg := cipherIdxFrom_congr htags
      set known := processKnownValues kind 0 arg'
        (resize s.reluData arg'.length (HEType.ofPlain [] false), []) with hknown
      cases hb : reluCipherBatches arg' [] known.2 with
      | error f => simp [reluStart, hm, bind, Except.bind, ← hknown, hb] at h
      | ok bs =>
          simp only [reluStart, hm, bind, Except.bind, ← hknown, hb, pure, Except.pure,
            Except.ok.injEq, Prod.mk.injEq] at h
          obtain ⟨rfl, rfl⟩ := h
          have hsnd : known.2 = cipherIdx arg := by
            rw [hknown, processKnownValues_snd, List.nil_append, ← hidx]; rfl
          obtain ⟨hflat, hne⟩ := reluCipherBatches_ok hb
          refine ⟨known.1, bs.flatMap (writeToPbTensors c), by rw [hsnd], ?_, ?_, rfl, ?_, ?_⟩
          · rw [hknown, length_processKnownValues_fst, length_resize, hlen]
          · intro k t p hk hp
            have hk' := hplain k t hk (by simp [HEType.isPlaintext, hp])
            have hlt : k < (resize s.reluData arg'.length (HEType.ofPlain [] false)).length := by
              rw [length_resize]; exact (List.getElem?_eq_some_iff.mp hk').1
            have := @getElem?_processKnownValues_fst kind 0 k arg'
              (resize s.reluData arg'.length (HEType.ofPlain [] false)) [] t p hk' hp
            rw [Nat.zero_add, List.getElem?_eq_getElem hlt] at this
            exact ⟨_, hknown ▸ this, rfl⟩
          · intro q hq
            obtain ⟨b, -, hq⟩ := List.mem_flatMap.mp hq
            exact ne_nil_of_mem_batchLoop hq
          · rw [flatten_flatMap_writeToPbTensors, hflat, hsnd, List.length_nil, Nat.zero_add]

/-! ## `handle_server_max_pool_op` -/

/-- The request for one maximize list: the argument's slots at the list's indices, which must
be nonempty and fit one `pb::HETensor`. -/
def maxPoolListRequest (c : Config) (arg : List HEType) (list : List Nat) :
    Except Fault TCPMessage := do
  let batch ← list.mapM fun i =>
    match arg[i]? with
    | some t => .ok t
    | none => .error (.undefined "arg->data(max_ind) past the end")
  if batch.isEmpty then .error (.check "Maxpool cipher batch is empty")
  else
    match writeToPbTensors c batch with
    | [piece] => .ok (maxPoolRequest piece)
    | _ => .error (.check "Only support MaxPool with 1 proto tensor")

/-! ## The executor thread -/

/-- A node whose computation is offloaded to the client. -/
inductive OffloadOp where
  | relu (kind : ReluKind) (arg : List HEType)
  | maxPool (arg : List HEType) (maximizeLists : List (List Nat))

/-- Where the executor is. `reluSend … msgs k` is about to write `msgs[k]`; `maxPoolSend …
lists k` is about to send the request of `lists[k]`, and `maxPoolWait … lists k` waits for
its answer. -/
inductive OffloadPc where
  | next (ops : List OffloadOp)
  | reluSend (kind : ReluKind) (arg : List HEType) (msgs : List TCPMessage) (k : Nat)
      (ops : List OffloadOp)
  | reluWait (kind : ReluKind) (arg : List HEType) (ops : List OffloadOp)
  | maxPoolSend (arg : List HEType) (lists : List (List Nat)) (k : Nat) (ops : List OffloadOp)
  | maxPoolWait (arg : List HEType) (lists : List (List Nat)) (k : Nat) (ops : List OffloadOp)

/-- What one executor step does: nothing while it waits, fail, or move on after writing
`sent`, with `out` the data it copies into the node's output tensor, if any. -/
inductive ExecOutcome where
  | blocked
  | fault (f : Fault)
  | step (pc : OffloadPc) (s : Executable) (sent : List TCPMessage) (out : Option (List HEType))

/-- One step of the executor thread. -/
def offloadStep (c : Config) : OffloadPc → Executable → ExecOutcome
  | .next [], _ => .blocked
  | .next (.relu kind arg :: ops), s =>
      match reluStart c kind arg s with
      | .ok (s, msgs) => .step (.reluSend kind arg msgs 0 ops) s [] none
      | .error f => .fault f
  | .reluSend kind arg msgs k ops, s =>
      match msgs[k]? with
      | some m => .step (.reluSend kind arg msgs (k + 1) ops) s [m] none
      | none => .step (.reluWait kind arg ops) s [] none
  | .reluWait _ _ ops, s =>
      if s.reluDoneCount = s.unknownReluIdx.length then
        .step (.next ops) { s with reluDoneCount := 0 } [] (some s.reluData)
      else .blocked
  | .next (.maxPool arg lists :: ops), s =>
      .step (.maxPoolSend arg lists 0 ops) { s with maxPoolDone := false, maxPoolData := [] } []
        none
  | .maxPoolSend arg lists k ops, s =>
      match lists[k]? with
      | some l =>
          match maxPoolListRequest c arg l with
          | .ok m => .step (.maxPoolWait arg lists k ops) s [m] none
          | .error f => .fault f
      | none => .step (.next ops) s [] (some s.maxPoolData)
  | .maxPoolWait arg lists k ops, s =>
      if s.maxPoolDone then
        .step (.maxPoolSend arg lists (k + 1) ops) { s with maxPoolDone := false } [] none
      else .blocked

/-- Whether the executor is between nodes and about to start one. -/
def OffloadPc.starts : OffloadPc → Bool
  | .next (_ :: _) => true
  | _ => false

/-- The executor thread: where it is, and the output data of the nodes it has finished. -/
structure OffloadThread where
  pc : OffloadPc
  outs : List (List HEType)

/-- The executor moves. Starting a node also starts the ghost records afresh. -/
def offloadExecStep (c : Config) (w : World OffloadThread) : Option (World OffloadThread) :=
  match w.fault, offloadStep c w.pc.pc w.srv with
  | none, .step pc s sent out =>
      some { w with pc := ⟨pc, w.pc.outs ++ out.toList⟩, srv := s,
                    toClient := w.toClient ++ sent,
                    replies := if w.pc.pc.starts then [] else w.replies,
                    writes := if w.pc.pc.starts then [] else w.writes }
  | none, .fault f => some { w with fault := some f }
  | _, _ => none

/-- One step of the offload system. -/
def offloadSystem (c : Config) (w : World OffloadThread) : Actor → Option (World OffloadThread)
  | .executor => offloadExecStep c w
  | .session => sessionStep c w
  | .client payload => clientStep w payload

/-- The system with the executor about to run the offloaded nodes `ops`, the members at `s`
and nothing in flight. -/
def offloadInit (s : Executable) (ops : List OffloadOp) : World OffloadThread :=
  ⟨⟨.next ops, []⟩, s, [], [], none, [], []⟩

/-- An executor step either fails the executor or moves it as its program says. -/
theorem offloadExecStep_eq_some {c : Config} {w w' : World OffloadThread}
    (h : offloadExecStep c w = some w') :
    w.fault = none ∧
      ((∃ pc s sent out, offloadStep c w.pc.pc w.srv = .step pc s sent out ∧
        w' = { w with pc := ⟨pc, w.pc.outs ++ out.toList⟩, srv := s,
                      toClient := w.toClient ++ sent,
                      replies := if w.pc.pc.starts then [] else w.replies,
                      writes := if w.pc.pc.starts then [] else w.writes }) ∨
       ∃ f, offloadStep c w.pc.pc w.srv = .fault f ∧ w' = { w with fault := some f }) := by
  simp only [offloadExecStep] at h
  split at h
  · next hf hs => exact ⟨hf, .inl ⟨_, _, _, _, hs, (Option.some.inj h).symm⟩⟩
  · next hf hs => exact ⟨hf, .inr ⟨_, hs, (Option.some.inj h).symm⟩⟩
  · cases h

/-- The executor is held only at the end of its nodes, and at a wait whose condition does not
hold. -/
theorem offloadStep_blocked {c : Config} {pc : OffloadPc} {s : Executable}
    (h : offloadStep c pc s = .blocked) :
    pc = .next [] ∨
      (∃ kind arg ops, pc = .reluWait kind arg ops ∧
        s.reluDoneCount ≠ s.unknownReluIdx.length) ∨
      ∃ arg lists k ops, pc = .maxPoolWait arg lists k ops ∧ s.maxPoolDone = false := by
  cases pc with
  | next ops =>
      rcases ops with _ | ⟨_ | _, ops⟩
      · exact .inl rfl
      · simp only [offloadStep] at h
        split at h <;> cases h
      · cases h
  | reluSend kind arg msgs k ops =>
      simp only [offloadStep] at h
      split at h <;> cases h
  | reluWait kind arg ops =>
      simp only [offloadStep] at h
      split at h
      · cases h
      · next hd => exact .inr (.inl ⟨kind, arg, ops, rfl, hd⟩)
  | maxPoolSend arg lists k ops =>
      simp only [offloadStep] at h
      split at h
      · split at h <;> cases h
      · cases h
  | maxPoolWait arg lists k ops =>
      simp only [offloadStep] at h
      split at h
      · cases h
      · next hd => exact .inr (.inr ⟨arg, lists, k, ops, rfl, by simpa using hd⟩)

/-- The executor can move whenever it has not failed and its step is not held. -/
theorem offloadExecStep_isSome {c : Config} {w : World OffloadThread} (hf : w.fault = none)
    (h : offloadStep c w.pc.pc w.srv ≠ .blocked) : (offloadExecStep c w).isSome := by
  simp only [offloadExecStep, hf]
  cases hs : offloadStep c w.pc.pc w.srv with
  | blocked => exact absurd hs h
  | fault f => rfl
  | step pc s sent out => rfl

end HeTransformer
