import BinaChain.Core.Crypto
import Std.Data.ExtTreeSet.Lemmas

/-!
# Randomness outputs and the nullifier registry

Each block yields one output and one spend token, both derived from its
height, its hash and its Bitcoin seed.
-/

set_option autoImplicit false

namespace BinaChain.Randomness
open BinaChain.Word BinaChain.Text BinaChain.Crypto Std

def tagOutput : Bytes := utf8 "BINA-RAND-v1"

def tagNullifier : Bytes := utf8 "BINA-NULL-v1"

structure RandomnessOutput where
  height : ℕ
  blockHash : Hash
  bitcoinSeedHash : Hash
  output : Hash
  nullifier : Hash
  deriving DecidableEq

namespace RandomnessOutput

def fromBlock (K : Primitives) (height : ℕ) (blockHash bitcoinSeedHash : Hash) :
    RandomnessOutput :=
  let output := K.blake3 (tagOutput++leBytes 8 height++blockHash.toList++
    bitcoinSeedHash.toList)
  let nullifier := K.blake3 (tagNullifier++leBytes 8 height++output.toList)
  { height, blockHash, bitcoinSeedHash, output, nullifier }

def outputHex (r : RandomnessOutput) : Str := Hex.encode r.output.toList

def nullifierHex (r : RandomnessOutput) : Str := Hex.encode r.nullifier.toList

end RandomnessOutput

abbrev NullifierSet := ExtTreeSet Hash

namespace NullifierSet

/-- The updated set comes back on failure too: `insert` ran before `bail!`. -/
def consume (spent : NullifierSet) (o : RandomnessOutput) :
    Except String Hash × NullifierSet :=
  if o.nullifier ∈ spent then
    (.error (s!"double-spend: height {o.height} nullifier " ++
      String.ofList o.nullifierHex ++ " already spent"), spent)
  else (.ok o.output, spent.insert o.nullifier)

def markSpent (spent : NullifierSet) (nullifier : Hash) : NullifierSet :=
  spent.insert nullifier

end NullifierSet

end BinaChain.Randomness
