import Belcoin.Node
import Belcoin.Lib.PrefixCode

/-!
Ideal packages: an id is the serialisation of what it covers, a signature is the
key it was made with, and hashing loses nothing.

They meet every assumption made of the real packages (`ideal_collisionFree`), so
results that rest on these assumptions are about something, and they compute, so
that runs over them can be evaluated.
-/

namespace Belcoin.Ideal

open PrefixFree

def bytesCode : Bytes → Bytes := listCode 1 0 fun byte => [byte]

def numberCode : Nat → Bytes := natCode 1 0

def refCode : Ref → Bytes := pairCode bytesCode numberCode

def outputCode (o : Output) : Bytes :=
  pairCode numberCode (pairCode bytesCode (pairCode bytesCode
    (pairCode numberCode (pairCode bytesCode bytesCode))))
    (o.amount, o.pubkey, o.pubkey2, o.htlcTimeout, o.htlcHashlock, o.htlcPubkey)

def bodyCode (b : Body) : Bytes :=
  pairCode (listCode 1 0 refCode) (pairCode (listCode 1 0 outputCode)
    (pairCode numberCode numberCode)) (b.refs, b.outputs, b.seq, b.timelock)

theorem bytesCode_free : PrefixFree bytesCode := PrefixFree.list (by decide) symbol

theorem numberCode_free : PrefixFree numberCode := PrefixFree.nat (by decide)

theorem outputCode_free : PrefixFree outputCode := by
  refine comap (numberCode_free.pair (bytesCode_free.pair (bytesCode_free.pair
    (numberCode_free.pair (bytesCode_free.pair bytesCode_free))))) ?_
  rintro ⟨⟩ ⟨⟩ same
  simpa using same

theorem bodyCode_free : PrefixFree bodyCode := by
  refine comap ((PrefixFree.list (by decide) (bytesCode_free.pair numberCode_free)).pair
    ((PrefixFree.list (by decide) outputCode_free).pair
      (numberCode_free.pair numberCode_free))) ?_
  rintro ⟨⟩ ⟨⟩ same
  simpa using same

/-- The ideal packages. -/
def packages : Packages where
  cryptoSign msg key := key ++ msg
  cryptoSignOpen signed key :=
    if key.isPrefixOf signed then some (signed.drop key.length) else none
  txid txn := 1 :: bodyCode txn.body
  noHash := []
  sha256 := id
  getPubkeys o := [o.pubkey, o.pubkey2, o.htlcPubkey]

theorem ideal_collisionFree : packages.CollisionFree where
  body_eq same := bodyCode_free.injective (List.cons.inj same).2
  txid_ne_noHash _ := List.cons_ne_nil _ _

/-- What a key signs verifies under it. -/
theorem verifySig_cryptoSign (msg key : Bytes) : packages.verifySig msg key key = true := by
  simp [Ed25519ll.verifySig, packages]

/-- A genesis with these outputs. -/
def setup (outputs : List (List Output)) : Setup where
  toPackages := packages
  coinbase := outputs.map fun outputs => ⟨[], outputs, 0, 0⟩
  coinbase_inputs := by simp

/-- An output that one key owns. -/
def coin (amount : Nat) : Output := { amount, pubkey := [7], pubkey2 := [7] }

/-- An input signed with that key. -/
def spend (txid : Bytes) (index : Nat) : Input :=
  { txid, index, signature := [7], signature2 := [7] }

/-- A genesis transaction with two outputs. -/
def genesis : Transaction := ⟨[], [coin 1, coin 1], 0, 0⟩

/-- The smallest useful setup. -/
def small : Setup := setup [genesis.outputs]

/-- A payment from an output, that waits for its timelock if that is not zero. -/
def pay (txid : Bytes) (index seq timelock : Nat) : Transaction :=
  ⟨[spend txid index], [coin 1], seq, timelock⟩

end Belcoin.Ideal
