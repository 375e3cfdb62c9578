import QfcCore.Node.Agreement
import QfcCore.Chain.Reexecution
import QfcCore.Chain.BodyBinding
import QfcCore.Chain.Slashing
import QfcCore.Chain.Logs
import QfcCore.Trie.Proof
import QfcCore.Trie.NibbleSlice
import QfcCore.State.Caches
import QfcCore.Executor.Totality
import QfcCore.Qvm.Panics
import QfcCore.Qvm.Resources
import QfcCore.Ai.OrderFree
import QfcCore.Qvm.JitRefinement
import QfcCore.Qsc.DeclaredEffects
import QfcCore.Ai.PoolAccounts
import QfcCore.Bridge.Releases
import QfcCore.Governance.Noninterference
import QfcCore.Mempool.Admission
import QfcCore.Mempool.Select
import QfcCore.Ps.Viability
import QfcCore.State.MissingNodes
import QfcCore.Chain.BlockHash
import QfcCore.Qvm.Math
import QfcCore.Qvm.Interop
import QfcCore.Qvm.InferenceCapability
import QfcCore.Ai.TrainingLife
import QfcCore.Ai.InputHashes
import QfcCore.Ai.TaskIds
import QfcCore.Ps.FlatArray
import QfcCore.Storage.SpaceSaving
