import HeTransformer.Types

/-!
# The client protocol's messages

`pb::TCPMessage` as the server and the client exchange it (spec §4.6): a type tag, optional
encryption parameters, key presence flags, the `"function"` entry of an optional JSON
function descriptor, and a list of `pb::HETensor`s. The bytes of keys and of serialized slots
belong to SEAL and are not modelled: a key is carried by its presence, a tensor by the slots
it carries.
-/

namespace HeTransformer

/-- `pb::TCPMessage_Type`. -/
inductive MessageType where
  | request
  | response
  | unknown
  deriving DecidableEq, Repr

/-- `pb::HETensor`: a named, shaped tensor, or the consecutive piece of one that starts at
`offset`; `data` holds the slots the piece carries. -/
structure PbTensor where
  name : String := ""
  shape : List Nat := []
  packed : Bool := false
  offset : Nat := 0
  data : List HEType := []

/-- `pb::TCPMessage`. `function` is the value of the `"function"` entry of the message's JSON
function descriptor, when it has one. -/
structure TCPMessage where
  type : MessageType
  encryptionParameters : Option (List UInt8) := none
  publicKey : Bool := false
  evalKey : Bool := false
  function : Option String := none
  heTensors : List PbTensor := []

/-- The two nonlinear operations the ReLU offload serves; `BoundedRelu` carries its `alpha`. -/
inductive ReluKind where
  | relu
  | boundedRelu (alpha : Float)

/-- `node.description()` of a ReLU node: the name its requests carry. -/
def ReluKind.description : ReluKind → String
  | .relu => "Relu"
  | .boundedRelu _ => "BoundedRelu"

/-- `scalar_relu_seal`, or `scalar_bounded_relu_seal` with the node's `alpha`. -/
def ReluKind.apply : ReluKind → HEPlaintext → HEPlaintext
  | .relu, p => scalarReluSeal p
  | .boundedRelu alpha, p => scalarBoundedReluSeal p alpha

/-- A REQUEST of `process_unknown_relu_ciphers_batch`: one piece of a batch of ciphertexts. -/
def reluRequest (kind : ReluKind) (piece : List HEType) : TCPMessage :=
  { type := .request, function := some kind.description, heTensors := [{ data := piece }] }

/-- A REQUEST of `handle_server_max_pool_op`: the ciphertexts of one maximize list. -/
def maxPoolRequest (batch : List HEType) : TCPMessage :=
  { type := .request, function := some "MaxPool", heTensors := [{ data := batch }] }

/-- The client's RESPONSE to an offload request: the same function, one tensor of results. -/
def offloadResponse (function : String) (results : List HEType) : TCPMessage :=
  { type := .response, function := some function, heTensors := [{ data := results }] }

end HeTransformer
