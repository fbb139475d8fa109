import HeTransformer.Types
import HeTransformer.Seal.Double
import HeTransformer.Seal.EncryptionParameters
import HeTransformer.Protocol.Message
import HeTransformer.Protocol.World
import HeTransformer.Seal.Executable.Session
import HeTransformer.Seal.Executable.Offload
import HeTransformer.Seal.Executable.ReluPhase
import HeTransformer.Seal.Executable.MaxPoolPhase
import HeTransformer.Seal.Executable.OffloadRuns
import HeTransformer.Seal.Executable.OffloadProgress
import HeTransformer.Seal.Executable.Setup
import HeTransformer.Seal.Executable.SetupProgress
import HeTransformer.Seal.Executable.TensorMap
import HeTransformer.Seal.Kernel.AddSeal
import HeTransformer.Seal.Kernel.AddTensor
import HeTransformer.Seal.Kernel.LazyMod
import HeTransformer.Seal.Executable.GenerateCalls
import HeTransformer.Seal.Executable.Dispatch
