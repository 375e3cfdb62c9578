import QfcCore.Ai.Settlement

/-!
# Inference tasks

`InferenceTask` and `ComputeTaskType` of `qfc-inference/src/task.rs`, what
`task_requirements` of `qfc-ai-coordinator/src/task_types.rs` says that a task
needs, and the cost meter of `cost.rs`. The reports of the meter are left out,
and so are the fields of a requirement that the task pool does not read.
-/

namespace Qfc.Ai

open Function

/-- The tiers of GPUs. -/
inductive GpuTier
  | hot
  | warm
  | cold
deriving DecidableEq

/-- A model and its version. -/
structure ModelId where
  name : String
  version : String
deriving DecidableEq

/-- The work that can be asked for. -/
inductive ComputeTaskType
  | textGeneration (modelId : ModelId) (promptHash : Hash) (maxTokens temperatureFp seed : ℕ)
  | imageClassification (modelId : ModelId) (inputHash : Hash)
  | embedding (modelId : ModelId) (inputHash : Hash)
  | speechToText (modelId : ModelId) (audioHash : Hash) (language : String)
  | imageGeneration (modelId : ModelId) (promptHash negativePromptHash : Hash)
      (width height steps seed : ℕ)
  | onnxInference (modelHash inputHash : Hash)
deriving DecidableEq

/-- The hash of what a task reads. -/
def ComputeTaskType.inputHash : ComputeTaskType → Hash
  | .textGeneration _ promptHash _ _ _ => promptHash
  | .imageClassification _ inputHash => inputHash
  | .embedding _ inputHash => inputHash
  | .speechToText _ audioHash _ => audioHash
  | .imageGeneration _ promptHash _ _ _ _ _ => promptHash
  | .onnxInference _ inputHash => inputHash

/-- A task for a miner. -/
structure InferenceTask where
  taskId : Hash
  epoch : ℕ
  taskType : ComputeTaskType
  inputData : Bytes
  createdAt : ℕ
  deadline : ℕ
deriving DecidableEq

/-! ## Requirements -/

/-- `TaskRequirements`, as far as the pool reads it. -/
structure TaskRequirements where
  minTier : GpuTier
  minMemoryMb : ℕ
  estimatedFlops : ℕ
deriving DecidableEq

/-- `str::contains`, for any of the texts. -/
def mentions (name : String) (texts : List String) : Bool :=
  texts.any fun text => decide (text.toList <:+: name.toList)

/-- The tier and the memory a model needs. -/
def modelTierAndMemory (name : String) : GpuTier × ℕ :=
  if mentions name ["70b", "70B"] then (.hot, 40000)
  else if mentions name ["13b", "13B"] then (.warm, 10000)
  else if mentions name ["7b", "7B"] then (.warm, 6000)
  else if mentions name ["3b", "3B"] then (.warm, 4096)
  else if mentions name ["0.5b", "0.5B"] then (.cold, 1024)
  else (.cold, 2000)

/-- The parameters of a model, from its name. -/
def estimateModelParams (name : String) : ℕ :=
  if mentions name ["70b", "70B"] then 70000000000
  else if mentions name ["13b", "13B"] then 13000000000
  else if mentions name ["7b", "7B"] then 7000000000
  else if mentions name ["3b", "3B"] then 3000000000
  else if mentions name ["1b", "1B"] then 1000000000
  else if mentions name ["0.5b", "0.5B"] then 500000000
  else 7000000000

/-- `task_requirements`; the products wrap. -/
def taskRequirements : ComputeTaskType → TaskRequirements
  | .textGeneration modelId _ maxTokens _ _ =>
    let (tier, memory) := modelTierAndMemory modelId.name
    ⟨tier, memory, 2 * estimateModelParams modelId.name * maxTokens % 2 ^ 64⟩
  | .imageClassification _ _ => ⟨.cold, 512, 4000000000⟩
  | .embedding _ _ => ⟨.cold, 1024, 1000000000⟩
  | .speechToText modelId _ _ =>
    if mentions modelId.name ["large"] then ⟨.warm, 3072, 30000000000⟩
    else ⟨.cold, 512, 4000000000⟩
  | .imageGeneration _ _ _ _ _ steps _ =>
    ⟨.warm, 6000, (2000000000 * steps + 5000000000) % 2 ^ 64⟩
  | .onnxInference _ _ => ⟨.cold, 1024, 2000000000⟩

/-- A tier runs what it and the lower ones run. -/
def tierCanRun : GpuTier → GpuTier → Bool
  | .hot, _ => true
  | .warm, .hot => false
  | .warm, _ => true
  | .cold, .cold => true
  | .cold, _ => false

/-! ## Cost -/

/-- The costs booked under a key. -/
structure CostEntry where
  tasks : ℕ
  flops : ℕ
  feesWei : ℕ
deriving DecidableEq

/-- `saturating_add` of 128-bit numbers. -/
def satAdd128 (a b : ℕ) : ℕ := min (a + b) (2 ^ 128 - 1)

namespace CostEntry

/-- `CostEntry::default`. -/
def empty : CostEntry := ⟨0, 0, 0⟩

/-- Books one task. -/
def add (e : CostEntry) (flops feeWei : ℕ) : CostEntry :=
  ⟨(e.tasks + 1) % 2 ^ 64, satAdd128 e.flops flops, satAdd128 e.feesWei feeWei⟩

end CostEntry

/-- `CostMeter`, without what only the reports use. -/
structure CostMeter where
  intervalTenants : Address → CostEntry
  intervalMiners : Address → CostEntry
  cumulativeTenants : Address → CostEntry
  cumulativeMiners : Address → CostEntry
  intervalTotal : CostEntry
  cumulativeTotal : CostEntry

namespace CostMeter

/-- Nothing is booked. -/
def new : CostMeter :=
  ⟨fun _ => .empty, fun _ => .empty, fun _ => .empty, fun _ => .empty, .empty, .empty⟩

/-- Books a task everywhere it counts. -/
def record (m : CostMeter) (tenant miner : Address) (flops feeWei : ℕ) : CostMeter :=
  { intervalTenants := update m.intervalTenants tenant
      ((m.intervalTenants tenant).add flops feeWei)
    intervalMiners := update m.intervalMiners miner
      ((m.intervalMiners miner).add flops feeWei)
    cumulativeTenants := update m.cumulativeTenants tenant
      ((m.cumulativeTenants tenant).add flops feeWei)
    cumulativeMiners := update m.cumulativeMiners miner
      ((m.cumulativeMiners miner).add flops feeWei)
    intervalTotal := m.intervalTotal.add flops feeWei
    cumulativeTotal := m.cumulativeTotal.add flops feeWei }

end CostMeter

end Qfc.Ai
