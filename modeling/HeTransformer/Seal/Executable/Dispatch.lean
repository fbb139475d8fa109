import HeTransformer.Seal.Executable.GenerateCalls
import HeTransformer.Seal.Executable.Session

/-!
# The dispatch of `generate_calls`

`generate_calls` switches on the node's `OP_TYPEID`. Each supported case hands the node's
argument tensors and its first output to a routine of the backend: a `*_seal` kernel or, with
the client enabled, `handle_server_relu_op` or `handle_server_max_pool_op`. Around the routines
it makes checks of its own, and it manages `lazy_mod()`: it clears the flag around a single
`Add` or `Multiply`, and after `AvgPool`, `Convolution` and `Dot` it runs `mod_reduce_seal`
when the flag is set, then `rescale_seal`. Every other operation type throws `unsupported_op`.

The routines' sources are not among the sources: they are a table `Routines`, each entry a
computation of the backend that returns the argument tensors as it leaves them, since a kernel
such as `add_seal` matches its arguments in place, and the new data of the output;
`generate_calls` writes both back. `add_seal` is modelled, and with its model as the routine
the `Add` case is the one `GenerateCalls` studies (`generateCalls_add`).

Two results. With the client enabled, no node's result depends on the server's own kernels for
the nonlinear operations ReLU, bounded ReLU, max-pool, `Exp` and `Max`
(`client_aided_dispatch_ignores_server_nonlinear_kernels`): the first three go to the client
and the last two fail a check. `Power` and `Softmax` still run on the server. And when every
routine keeps `lazy_mod()`, a node that returns keeps it, and a node other than `Add` and
`Multiply` keeps it even when it throws (`generate_calls_lazy_mod_discipline`).
-/

namespace HeTransformer

/-! ## Nodes and routines -/

/-- The operation types `generate_calls` has a case for; `unsupported` stands for the others,
which the switch lists in order to throw. -/
inductive OpTypeId where
  | add | avgPool | batchNormInference | boundedRelu | broadcast | concat | constant
  | convolution | divide | dot | exp | max | maxPool | minimum | multiply | negative | pad
  | parameter | power | relu | reshape | result | reverse | slice | softmax | subtract | sum
  | unsupported
  deriving DecidableEq, Repr

/-- What `generate_calls` reads of a node and of its tensors, besides their data. -/
structure Node where
  typeId : OpTypeId
  /-- `node.description()`, which the `unsupported_op` message names. -/
  description : String
  /-- Whether the reduction axes of a `Max`, or the axes of a `Softmax`, contain 0. -/
  axesHaveZero : Bool := false
  /-- The upper bounds of a `Slice`. -/
  upperBounds : List Nat := []
  /-- `args[0]->get_packed_shape()`. -/
  argPackedShape : List Nat := []
  /-- `out[0]->get_shape()`. -/
  outShape : List Nat := []
  /-- `out[0]->get_batch_size()`. -/
  outBatchSize : Nat := 1

/-- The routines of the backend that `generate_calls` calls. -/
inductive Routine where
  | addSeal | avgPoolSeal | batchNormInferenceSeal | boundedReluSeal | broadcastSeal
  | concatSeal | constantSeal | convolutionSeal | divideSeal | dotSeal | expSeal | maxSeal
  | maxPoolSeal | minimumSeal | multiplySeal | negateSeal | padSeal | powerSeal | reluSeal
  | reshapeSeal | resultSeal | reverseSeal | sliceSeal | softmaxSeal | subtractSeal | sumSeal
  | handleServerReluOp | handleServerMaxPoolOp | modReduceSeal | rescaleSeal
  deriving DecidableEq, Repr

/-- What each routine does, from the node, the element type, the argument tensors it is handed
and the first output: the argument tensors as it leaves them, and the new data of the output. -/
abbrev Routines :=
  Routine → Node → ElementType → List HETensor → HETensor →
    BackendM (List HETensor × List HEType)

/-- `args[i]` or `out[i]`: an index past the end is undefined. -/
def tensorAt (ts : List HETensor) (what : String) (i : Nat) : BackendM HETensor :=
  match ts[i]? with
  | some t => pure t
  | none => throw (.undefined (what ++ "[" ++ toString i ++ "] past the end"))

/-- `out[0]` with the data `d`. -/
def setData (out : List HETensor) (d : List HEType) : List HETensor :=
  match out with
  | o :: os => { o with data := d } :: os
  | [] => []

/-- `args` with the `j`-th of `ts` written at `idx[j]`. -/
def writeArgs (args : List HETensor) (idx : List Nat) (ts : List HETensor) : List HETensor :=
  (idx.zip ts).foldl (fun args p => args.set p.1 p.2) args

/-- Call the routine `r` on the arguments at `idx` and on `out[0]`, and write back the arguments
it returns and the data of `out[0]`. -/
def callRoutine (routines : Routines) (r : Routine) (node : Node) (ty : ElementType)
    (args out : List HETensor) (idx : List Nat) : BackendM (List HETensor × List HETensor) := do
  let as ← idx.mapM (tensorAt args "args")
  let o ← tensorAt out "out" 0
  let res ← routines r node ty as o
  pure (writeArgs args idx res.1, setData out res.2)

/-- After a multiplying kernel: `mod_reduce_seal` on `out[0]` when `withModReduce` and
`lazy_mod()` are set, then `rescale_seal`. -/
def rescaleAfter (routines : Routines) (node : Node) (ty : ElementType) (withModReduce : Bool)
    (out : List HETensor) : BackendM (List HETensor) := do
  let out ← if withModReduce && (← get).lazyMod then
    Prod.snd <$> callRoutine routines .modReduceSeal node ty [] out [] else pure out
  Prod.snd <$> callRoutine routines .rescaleSeal node ty [] out []

/-- The check of `Relu`, `BoundedRelu`, `Max` and `MaxPool` without the client, that the
batched element count of `args[0]` is its number of slots; `Relu` prints its message with no
space before "doesn't". -/
def checkOutputSize (space : String) (arg : HETensor) (out : List HETensor) :
    BackendM Unit := do
  unless arg.elementCount == arg.data.length do
    let o ← tensorAt out "out" 0
    throw (.check ("output size " ++ toString arg.elementCount ++ space ++
      "doesn't match number of elements" ++ toString o.data.length))

/-- ngraph's `operator<<` for a `Shape` or a `Coordinate`: its kind, then the entries in braces,
joined by `", "` (ngraph is not among the sources). -/
def ngraphShapeString (kind : String) (xs : List Nat) : String :=
  kind ++ "\x7b" ++ ", ".intercalate (xs.map toString) ++ "\x7d"

/-- The `Slice` case's bound: an upper bound past the packed shape in the batch axis must be
the output's batch size, and becomes 1. -/
def sliceUpperBounds (node : Node) : BackendM (List Nat) :=
  match node.upperBounds, node.argPackedShape with
  | u :: us, s :: _ =>
      if u > s then do
        unless u == node.outBatchSize do
          throw (.check ("Slice upper bound shape " ++
            ngraphShapeString "Coordinate" node.upperBounds ++
            " is not compatible with tensor output shape " ++
            ngraphShapeString "Shape" node.outShape))
        pure (1 :: us)
      else pure node.upperBounds
  | _ :: _, [] => throw (.undefined "in_shape[0] past the end")
  | [], _ => pure []

/-! ## The switch -/

/-- `generate_calls`: the argument and output tensors as the node leaves them. -/
def generateCalls (enableClient : Bool) (routines : Routines) (ty : ElementType) (node : Node)
    (args out : List HETensor) : BackendM (List HETensor × List HETensor) :=
  let call (r : Routine) (idx : List Nat) := callRoutine routines r node ty args out idx
  match node.typeId with
  | .add => avoidLazyMod (call .addSeal [0, 1])
  | .avgPool => do
      let r ← call .avgPoolSeal [0]
      return (r.1, ← rescaleAfter routines node ty true r.2)
  | .batchNormInference => do
      unless args.length == 5 do
        throw (.check ("BatchNormInference has " ++ toString args.length ++
          "arguments (expected 5)."))
      call .batchNormInferenceSeal [0, 1, 2, 3, 4]
  | .boundedRelu => do
      let a0 ← tensorAt args "args" 0
      if enableClient then call .handleServerReluOp [0]
      else do
        checkOutputSize " " a0 out
        call .boundedReluSeal [0]
  | .broadcast => call .broadcastSeal [0]
  | .concat => call .concatSeal (List.range args.length)
  | .constant => call .constantSeal []
  | .convolution => do
      let r ← call .convolutionSeal [0, 1]
      return (r.1, ← rescaleAfter routines node ty true r.2)
  | .divide => call .divideSeal [0, 1]
  | .dot => do
      let r ← call .dotSeal [0, 1]
      return (r.1, ← rescaleAfter routines node ty true r.2)
  | .exp => do
      unless !enableClient do
        throw (.check "Exp not implemented for client-aided model ")
      call .expSeal [0]
  | .max => do
      let a0 ← tensorAt args "args" 0
      unless !a0.packed || !node.axesHaveZero do
        throw (.check "Max reduction axes cannot contain 0 for packed tensors")
      unless !enableClient do
        throw (.check "Max not implemented for client-aided model")
      checkOutputSize " " a0 out
      call .maxSeal [0]
  | .maxPool =>
      if enableClient then call .handleServerMaxPoolOp [0]
      else do
        let a0 ← tensorAt args "args" 0
        checkOutputSize " " a0 out
        call .maxPoolSeal [0]
  | .minimum => call .minimumSeal [0, 1]
  | .multiply => do
      let r ← avoidLazyMod (call .multiplySeal [0, 1])
      return (r.1, ← rescaleAfter routines node ty false r.2)
  | .negative => call .negateSeal [0]
  | .pad => call .padSeal [0, 1]
  | .parameter => pure (args, out)
  | .power => call .powerSeal [0, 1]
  | .relu =>
      if enableClient then call .handleServerReluOp [0]
      else do
        let a0 ← tensorAt args "args" 0
        checkOutputSize "" a0 out
        call .reluSeal [0]
  | .reshape => call .reshapeSeal [0]
  | .result => call .resultSeal [0]
  | .reverse => call .reverseSeal [0]
  | .slice => do
      let ub ← sliceUpperBounds node
      callRoutine routines .sliceSeal { node with upperBounds := ub } ty args out [0]
  | .softmax => do
      let a0 ← tensorAt args "args" 0
      unless !a0.packed || !node.axesHaveZero do
        throw (.check "Softmax axes cannot contain 0 for packed tensors")
      call .softmaxSeal [0]
  | .subtract => call .subtractSeal [0, 1]
  | .sum => call .sumSeal [0]
  | .unsupported => throw (.unsupportedOp ("Unsupported op '" ++ node.description ++ "'"))

/-! ## The `Add` case is the model of `add_seal` -/

/-- `add_seal` as a routine: the dispatch hands it `args[0]`, `args[1]` and `out[0]`, and the
count `out[0]->get_batched_element_count()`; it gives back the two arguments with the data it
leaves them. -/
def addSealRoutine (ctx : SealContext)
    (addPlainSeal : Ciphertext → HEPlaintext → Bool → Except Fault Ciphertext) :
    Node → ElementType → List HETensor → HETensor → BackendM (List HETensor × List HEType)
  | _, ty, [a0, a1], o =>
      (fun t => ([{ a0 with data := t.1 }, { a1 with data := t.2.1 }], t.2.2)) <$>
        addSeal ctx addPlainSeal a0.data a1.data o.data o.elementCount ty
  | _, _, ts, o => pure (ts, o.data)

theorem avoidLazyMod_bind_pure {α β : Type} (f : α → β) (kernel : BackendM α) :
    avoidLazyMod (kernel >>= fun a => pure (f a)) =
      avoidLazyMod kernel >>= fun a => pure (f a) := by
  simp only [avoidLazyMod, bind_assoc, pure_bind]
  congr
  funext b
  split <;> simp only [bind_assoc, pure_bind]

/-- With `add_seal`'s model as its routine, an `Add` node over two arguments is the `Add` case
of `GenerateCalls`, written to `args[0]`, `args[1]` and `out[0]`. -/
theorem generateCalls_add {routines : Routines} {ctx : SealContext}
    {addPlainSeal : Ciphertext → HEPlaintext → Bool → Except Fault Ciphertext}
    (h : routines .addSeal = addSealRoutine ctx addPlainSeal) (enableClient : Bool)
    (ty : ElementType) {node : Node} (hty : node.typeId = .add) (a0 a1 o : HETensor)
    (os : List HETensor) :
    generateCalls enableClient routines ty node [a0, a1] (o :: os) =
      (fun t => ([{ a0 with data := t.1 }, { a1 with data := t.2.1 }],
          { o with data := t.2.2 } :: os)) <$>
        generateCallsAdd ctx addPlainSeal a0.data a1.data o.data o.elementCount ty := by
  simp only [generateCalls, hty, generateCallsAdd, callRoutine, h, List.mapM_cons,
    List.mapM_nil, tensorAt, List.getElem?_cons_zero, List.getElem?_cons_succ, pure_bind,
    addSealRoutine, setData, writeArgs, List.zip_cons_cons, List.zip_nil_left, List.foldl_cons,
    List.foldl_nil, List.set_cons_zero, List.set_cons_succ, map_eq_pure_bind, bind_assoc]
  exact avoidLazyMod_bind_pure _ _

/-! ## With the client, the server runs no nonlinear kernel -/

/-- The server's own kernels for the nonlinear operations. -/
def serverNonlinearKernels : List Routine := [.reluSeal, .boundedReluSeal, .maxPoolSeal, .expSeal,
  .maxSeal]

theorem callRoutine_congr {routines routines' : Routines} {r : Routine}
    (h : routines r = routines' r) : callRoutine routines r = callRoutine routines' r := by
  funext node ty args out idx
  simp only [callRoutine, h]

/-- **With the client enabled, `generate_calls` never runs the server's nonlinear kernels.** Two
routine tables that differ only in `relu_seal`, `bounded_relu_seal`, `max_pool_seal`,
`exp_seal` and `max_seal` give every node the same result: `Relu`, `BoundedRelu` and `MaxPool`
go to the client, and `Exp` and `Max` fail their check first. -/
theorem client_aided_dispatch_ignores_server_nonlinear_kernels (routines routines' : Routines)
    (h : ∀ r, r ∉ serverNonlinearKernels → routines r = routines' r) (ty : ElementType)
    (node : Node) (args out : List HETensor) :
    generateCalls true routines ty node args out =
      generateCalls true routines' ty node args out := by
  have hc : ∀ r, r ∉ serverNonlinearKernels → callRoutine routines r = callRoutine routines' r :=
    fun r hr => callRoutine_congr (h r hr)
  have hs : rescaleAfter routines = rescaleAfter routines' := by
    funext node ty m out
    simp only [rescaleAfter, hc .modReduceSeal (by decide), hc .rescaleSeal (by decide)]
  cases hty : node.typeId <;>
    simp (disch := decide) only [generateCalls, hty, hc, hs, Bool.not_true, Bool.false_eq_true,
      if_true, if_false] <;>
    rfl

/-- Every routine returns the arguments and the output's data as they are. -/
def passThroughRoutines : Routines := fun _ _ _ ts o => pure (ts, o.data)

/-- The routines of `passThroughRoutines`, but a `relu_seal` that empties its output. -/
def emptyingReluRoutines : Routines := fun r n ty ts o =>
  if r = .reluSeal then pure (ts, []) else passThroughRoutines r n ty ts o

/-- A ReLU node. -/
def reluDemoNode : Node := { typeId := .relu, description := "Relu" }

/-- An empty, unpacked tensor named `name`. -/
def emptyTensor (name : String) : HETensor := ⟨name, false, 0, []⟩

theorem client_relu_node_ignores_relu_seal :
    (∀ r, r ∉ serverNonlinearKernels → passThroughRoutines r = emptyingReluRoutines r) ∧
    generateCalls true passThroughRoutines .f32 reluDemoNode [emptyTensor "x"]
        [emptyTensor "y"] =
      generateCalls true emptyingReluRoutines .f32 reluDemoNode [emptyTensor "x"]
        [emptyTensor "y"] :=
  have h : ∀ r, r ∉ serverNonlinearKernels → passThroughRoutines r = emptyingReluRoutines r :=
    fun r hr => by
      have hne : r ≠ .reluSeal := fun he => hr (he ▸ List.mem_cons_self _ _)
      funext n ty ts o
      simp only [emptyingReluRoutines, hne, if_false]
  ⟨h, client_aided_dispatch_ignores_server_nonlinear_kernels _ _ h _ _ _ _⟩

/-! ## `lazy_mod()` across a node -/

section Restores

variable {α β : Type}

/-- A computation that, when it returns, leaves `lazy_mod()` as it found it. -/
def RestoresLazyMod (m : BackendM α) : Prop :=
  ∀ b a b', m.run b = .ok a b' → b'.lazyMod = b.lazyMod

theorem KeepsLazyMod.restores {m : BackendM α} (hm : KeepsLazyMod m) : RestoresLazyMod m :=
  fun b a b' h => by
    have := hm b
    rw [h] at this
    exact this

theorem RestoresLazyMod.bind {m : BackendM α} {f : α → BackendM β} (hm : RestoresLazyMod m)
    (hf : ∀ a, RestoresLazyMod (f a)) : RestoresLazyMod (m >>= f) := by
  intro b c b'' h
  change EStateM.bind m f b = .ok c b'' at h
  unfold EStateM.bind at h
  cases hs : m b with
  | ok a b' => rw [hs] at h; exact (hf a b' c b'' h).trans (hm b a b' hs)
  | error e b' => rw [hs] at h; cases h

end Restores

theorem tensorAt_keeps (ts : List HETensor) (what : String) (i : Nat) :
    KeepsLazyMod (tensorAt ts what i) := by
  unfold tensorAt
  split
  exacts [KeepsLazyMod.of_pure _, KeepsLazyMod.of_throw _]

theorem checkOutputSize_keeps (space : String) (arg : HETensor) (out : List HETensor) :
    KeepsLazyMod (checkOutputSize space arg out) :=
  KeepsLazyMod.ite (KeepsLazyMod.of_pure _)
    ((tensorAt_keeps _ _ _).bind fun _ => KeepsLazyMod.of_throw _)

theorem sliceUpperBounds_keeps (node : Node) : KeepsLazyMod (sliceUpperBounds node) := by
  unfold sliceUpperBounds
  split
  · refine KeepsLazyMod.ite ?_ (KeepsLazyMod.of_pure _)
    dsimp only
    split
    · exact (KeepsLazyMod.of_pure _).bind fun _ => KeepsLazyMod.of_pure _
    · exact (KeepsLazyMod.of_throw _).bind fun _ => KeepsLazyMod.of_pure _
  · exact KeepsLazyMod.of_throw _
  · exact KeepsLazyMod.of_pure _

section Dispatch

variable {routines : Routines} (hk : ∀ r n ty as o, KeepsLazyMod (routines r n ty as o))
include hk

theorem callRoutine_keeps (r : Routine) (node : Node) (ty : ElementType)
    (args out : List HETensor) (idx : List Nat) :
    KeepsLazyMod (callRoutine routines r node ty args out idx) :=
  (KeepsLazyMod.mapM (tensorAt_keeps args "args") idx).bind fun ts =>
    (tensorAt_keeps out "out" 0).bind fun o => (hk r node ty ts o).bind fun _ =>
      KeepsLazyMod.of_pure _

theorem rescaleAfter_keeps (node : Node) (ty : ElementType) (withModReduce : Bool)
    (out : List HETensor) : KeepsLazyMod (rescaleAfter routines node ty withModReduce out) := by
  unfold rescaleAfter
  refine KeepsLazyMod.get_state.bind fun _ => ?_
  split
  · exact ((callRoutine_keeps hk _ _ _ _ _ _).map _).bind fun _ =>
      (callRoutine_keeps hk _ _ _ _ _ _).map _
  · exact (KeepsLazyMod.of_pure _).bind fun _ => (callRoutine_keeps hk _ _ _ _ _ _).map _

/-- **`lazy_mod()` across a node of `generate_calls`.** When every routine leaves the flag as
it found it, a node that returns leaves it as it was before the node, whatever its type; and a
node other than `Add` and `Multiply`, the two that clear the flag around their kernel, leaves it
as it was even when it throws. -/
theorem generate_calls_lazy_mod_discipline (enableClient : Bool) (ty : ElementType)
    (node : Node) (args out : List HETensor) :
    (∀ b outs b', (generateCalls enableClient routines ty node args out).run b = .ok outs b' →
      b'.lazyMod = b.lazyMod) ∧
    (node.typeId ≠ .add → node.typeId ≠ .multiply →
      KeepsLazyMod (generateCalls enableClient routines ty node args out)) := by
  have hkeep : node.typeId ≠ .add → node.typeId ≠ .multiply →
      KeepsLazyMod (generateCalls enableClient routines ty node args out) := by
    intro hadd hmul
    cases hty : node.typeId <;> simp only [generateCalls, hty] <;>
      first
        | exact absurd hty hadd
        | exact absurd hty hmul
        | with_reducible repeat' first
            | exact callRoutine_keeps hk _ _ _ _ _ _
            | exact rescaleAfter_keeps hk _ _ _ _
            | exact tensorAt_keeps _ _ _
            | exact checkOutputSize_keeps _ _ _
            | exact sliceUpperBounds_keeps _
            | exact KeepsLazyMod.of_pure _
            | exact KeepsLazyMod.of_throw _
            | refine KeepsLazyMod.ite ?_ ?_
            | refine KeepsLazyMod.bind ?_ fun _ => ?_
  refine ⟨fun b outs b' h => ?_, hkeep⟩
  by_cases hadd : node.typeId = .add
  · simp only [generateCalls, hadd] at h
    exact avoidLazyMod_return (callRoutine_keeps hk _ _ _ _ _ _) h
  by_cases hmul : node.typeId = .multiply
  · simp only [generateCalls, hmul] at h
    exact RestoresLazyMod.bind (fun _ _ _ => avoidLazyMod_return (callRoutine_keeps hk _ _ _ _ _ _))
      (fun _ => ((rescaleAfter_keeps hk _ _ _ _).bind fun _ => KeepsLazyMod.of_pure _).restores)
      b outs b' h
  · exact (hkeep hadd hmul).restores b outs b' h

end Dispatch

/-- An `AvgPool` node whose routines pass the output through keeps `lazy_mod()`. -/
theorem avg_pool_node_keeps_lazy_mod :
    (∀ r n ty ts o, KeepsLazyMod (passThroughRoutines r n ty ts o)) ∧
    (∀ b outs b', (generateCalls true passThroughRoutines .f32
        { typeId := .avgPool, description := "AvgPool" } [emptyTensor "x"]
        [emptyTensor "y"]).run b = .ok outs b' → b'.lazyMod = b.lazyMod) ∧
    (OpTypeId.avgPool ≠ .add → OpTypeId.avgPool ≠ .multiply →
      KeepsLazyMod (generateCalls true passThroughRoutines .f32
        { typeId := .avgPool, description := "AvgPool" } [emptyTensor "x"] [emptyTensor "y"])) :=
  have hk : ∀ r n ty ts o, KeepsLazyMod (passThroughRoutines r n ty ts o) :=
    fun _ _ _ _ _ => KeepsLazyMod.of_pure _
  ⟨hk, generate_calls_lazy_mod_discipline hk true .f32 _ _ _⟩

end HeTransformer
