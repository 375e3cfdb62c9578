import QfcCore.State.StateDB
import QfcCore.Types.CodeHash

/-!
# Names of trie nodes to compute with

The hash scheme of serialised names, continued to the nodes of the state trie:
a node is named by its serialisation behind a tag.
-/

namespace Qfc

open Delimited

/-- The discriminant of an account type. -/
def AccountType.code : AccountType → ℕ
  | .eoa => 0
  | .contract => 1
  | .validator => 2

instance : Delimited AccountType :=
  ofInjective AccountType.code (by
    intro a b h
    cases a <;> cases b <;> first | rfl | cases h)

instance {H : Type} [Delimited H] : Delimited (Account H) :=
  ofInjective (fun a => (a.accountType, a.balance, a.nonce, a.codeHash, a.storageRoot, a.stake,
    a.contributionScore, a.delegatedTo, a.delegatedAmount)) (by
    rintro ⟨⟩ ⟨⟩ h
    cases h
    rfl)

instance {H : Type} [Delimited H] : Delimited (Cell H) :=
  ofInjective (Q := Account H ⊕ U256)
    (fun
      | .account acc => .inl acc
      | .word w => .inr w) (by
    intro a b h
    cases a <;> cases b <;> cases h <;> rfl)

/-- Nodes of the state trie, by their serialisations. -/
instance codeNode : Digest CodeName (TrieNode CodeName (Cell CodeName)) :=
  CodeName.digest (TrieNode CodeName (Cell CodeName)) 7

/-! ## Values for concrete runs -/

/-- The address that repeats one byte. -/
def sampleAddress (b : UInt8) : Address := ⟨Vector.replicate 20 b⟩

/-- Cached entries iterated as they stand. -/
def sampleOrder : IterOrder := ⟨fun l => l, fun l => .refl l⟩

end Qfc
