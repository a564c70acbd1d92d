import Belcoin.Lib.Replace
import Belcoin.Transaction

/-!
Signing and verifying (`crypto.py`).

`sign` takes the message off what the package returns with `bytes.replace`, which
removes it wherever it occurs, also inside the signature. `signs_iff` says which
signatures come through: those in which every occurrence of the message runs over
their end, where the message ends like they do.
-/

namespace Belcoin

open Replace

/-- `crypto.sign`. -/
def Ed25519ll.sign (lib : Ed25519ll) (msg privKey : Bytes) : Bytes :=
  replace (lib.cryptoSign msg privKey) msg []

/-- A signature that the package makes for `msg` and opens again. -/
structure Ed25519ll.Makes (lib : Ed25519ll) (msg privKey pubKey signature : Bytes) : Prop where
  length_eq : signature.length = 64
  signed : lib.cryptoSign msg privKey = signature ++ msg
  opened : lib.cryptoSignOpen (signature ++ msg) pubKey = some msg

namespace Ed25519ll.Makes

variable {lib : Ed25519ll} {msg privKey pubKey signature : Bytes}

theorem verifySig (made : lib.Makes msg privKey pubKey signature) :
    lib.verifySig msg pubKey signature = true := by
  simp [Ed25519ll.verifySig, made.opened]

theorem sign_eq (made : lib.Makes msg privKey pubKey signature) :
    lib.sign msg privKey = replace (signature ++ msg) msg [] :=
  congrArg (replace · msg []) made.signed

/-- Signing and then verifying succeeds just when no occurrence of the message
spoils the signature. -/
theorem signs_iff (made : lib.Makes msg privKey pubKey signature) :
    lib.sign msg privKey = signature ∧
        lib.verifySig msg pubKey (lib.sign msg privKey) = true ↔
      msg = [] ∨
        ∀ tail ∈ signature.tails, msg <+: tail ++ msg → tail <:+ msg ∧ tail ≠ msg := by
  have verified : lib.sign msg privKey = signature ∧
      lib.verifySig msg pubKey (lib.sign msg privKey) = true ↔
        lib.sign msg privKey = signature := by
    refine and_iff_left_of_imp ?_
    intro same
    rw [same]
    exact made.verifySig
  rw [verified, made.sign_eq]
  by_cases empty : msg = []
  · subst empty
    simp only [List.append_nil, remove_empty, true_or]
  · simp only [remove_suffix_iff empty, or_iff_right empty, List.mem_tails]

end Ed25519ll.Makes

/-! ### A key pair of the scheme, and two of its signatures -/

/-- A package that knows one key pair and one signature of it. -/
def Ed25519ll.knowing (pubKey signature : Bytes) : Ed25519ll where
  cryptoSign msg _ := signature ++ msg
  cryptoSignOpen signed key :=
    if key = pubKey ∧ signature <+: signed then some (signed.drop signature.length) else none

namespace Ed25519

def pubKey : Bytes :=
  [0x3d, 0x40, 0x17, 0xc3, 0xe8, 0x43, 0x89, 0x5a, 0x92, 0xb7, 0x0a, 0xa7, 0x4d, 0x1b, 0x7e, 0xbc,
   0x9c, 0x98, 0x2c, 0xcf, 0x2e, 0xc4, 0x96, 0x8c, 0xc0, 0xcd, 0x55, 0xf1, 0x2a, 0xf4, 0x66, 0x0c]

/-- The seed and the public key. -/
def privKey : Bytes :=
  [0x4c, 0xcd, 0x08, 0x9b, 0x28, 0xff, 0x96, 0xda, 0x9d, 0xb6, 0xc3, 0x46, 0xec, 0x11, 0x4e, 0x0f,
   0x5b, 0x8a, 0x31, 0x9f, 0x35, 0xab, 0xa6, 0x24, 0xda, 0x8c, 0xf6, 0xed, 0x4f, 0xb8, 0xa6, 0xfb]
    ++ pubKey

/-- The signature of the message `[0x72]`, which has that byte in it. -/
def signature : Bytes :=
  [0x92, 0xa0, 0x09, 0xa9, 0xf0, 0xd4, 0xca, 0xb8, 0x72, 0x0e, 0x82, 0x0b, 0x5f, 0x64, 0x25, 0x40,
   0xa2, 0xb2, 0x7b, 0x54, 0x16, 0x50, 0x3f, 0x8f, 0xb3, 0x76, 0x22, 0x23, 0xeb, 0xdb, 0x69, 0xda,
   0x08, 0x5a, 0xc1, 0xe4, 0x3e, 0x15, 0x99, 0x6e, 0x45, 0x8f, 0x36, 0x13, 0xd0, 0xf1, 0x1d, 0x8c,
   0x38, 0x7b, 0x2e, 0xae, 0xb4, 0x30, 0x2a, 0xee, 0xb0, 0x0d, 0x29, 0x16, 0x12, 0xbb, 0x0c, 0x00]

/-- The signature of the message `[0xaf, 0x82]`, which does not occur in it. -/
def otherSignature : Bytes :=
  [0xab, 0x13, 0xdb, 0x46, 0x5c, 0xd6, 0x65, 0x26, 0x25, 0xc5, 0xa4, 0xd9, 0x1d, 0x05, 0xa2, 0x8b,
   0x29, 0x81, 0xe9, 0x0a, 0x70, 0x42, 0xcc, 0xac, 0x1d, 0x33, 0xd1, 0x61, 0x83, 0x1b, 0xe5, 0x61,
   0xe7, 0xaf, 0x36, 0x91, 0xf8, 0x44, 0x8e, 0x90, 0x76, 0x5a, 0xca, 0xb9, 0x05, 0x47, 0x4b, 0xf6,
   0xb0, 0xd0, 0xaa, 0x68, 0x43, 0x2a, 0xee, 0x2c, 0x68, 0xb5, 0x63, 0x78, 0xc5, 0x0d, 0x7e, 0x06]

end Ed25519

theorem Ed25519ll.knowing_makes (msg privKey : Bytes) {pubKey signature : Bytes}
    (length_eq : signature.length = 64) :
    (Ed25519ll.knowing pubKey signature).Makes msg privKey pubKey signature where
  length_eq := length_eq
  signed := rfl
  opened := by simp [Ed25519ll.knowing]

/-- The byte of the message is taken out of the signature too, and what is left
does not verify. -/
theorem sign_loses_byte :
    (Ed25519ll.knowing Ed25519.pubKey Ed25519.signature).Makes
        [0x72] Ed25519.privKey Ed25519.pubKey Ed25519.signature ∧
      (Ed25519ll.knowing Ed25519.pubKey Ed25519.signature).sign [0x72] Ed25519.privKey ≠
        Ed25519.signature ∧
      (Ed25519ll.knowing Ed25519.pubKey Ed25519.signature).verifySig [0x72] Ed25519.pubKey
        ((Ed25519ll.knowing Ed25519.pubKey Ed25519.signature).sign [0x72] Ed25519.privKey) =
          false := by
  refine ⟨Ed25519ll.knowing_makes _ _ rfl, ?_, ?_⟩
  · decide
  · decide

theorem sign_keeps_other_signature :
    (Ed25519ll.knowing Ed25519.pubKey Ed25519.otherSignature).sign [0xaf, 0x82] Ed25519.privKey =
        Ed25519.otherSignature ∧
      (Ed25519ll.knowing Ed25519.pubKey Ed25519.otherSignature).verifySig
        [0xaf, 0x82] Ed25519.pubKey
        ((Ed25519ll.knowing Ed25519.pubKey Ed25519.otherSignature).sign
          [0xaf, 0x82] Ed25519.privKey) = true := by
  have made : (Ed25519ll.knowing Ed25519.pubKey Ed25519.otherSignature).Makes
      [0xaf, 0x82] Ed25519.privKey Ed25519.pubKey Ed25519.otherSignature :=
    Ed25519ll.knowing_makes _ _ rfl
  refine (Ed25519ll.Makes.signs_iff made).mpr (Or.inr ?_)
  decide

end Belcoin
