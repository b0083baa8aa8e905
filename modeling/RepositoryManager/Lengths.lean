import RepositoryManager.Lib.Recorded
import RepositoryManager.Signature

/-! # The lengths that OpenSSL is handed

The functions of the security service once more, with each call of OpenSSL that is
passed a length, the `int` that a size is converted to, and the buffer behind it.
`decodeB64` gives the number of decoded bytes back through the variable that held the
size of the text; `getKeyDigest` hashes that many bytes, -1 of them after a failure, and
`verifySig` passes the size of the key instead.
-/

namespace RepositoryManager

open ByteString

/-- A buffer, by the bytes allocated for it and those of them that hold data. -/
structure Buffer where
  size : Nat
  filled : Nat
  deriving DecidableEq

/-- The characters of a string, with the NUL behind them. -/
def Buffer.text (s : Str) : Buffer := { size := s.length + 1, filled := s.length }

/-- The same bytes, as `strlen` sees them. -/
def Buffer.cString (s : Str) : Buffer := { size := s.length + 1, filled := (cstr s).length }

/-- `new unsigned char [MD5_DIGEST_LENGTH + 1]`, with the digest in it -/
def Buffer.digest : Buffer := { size := 17, filled := 16 }

/-- The calls of OpenSSL that are passed a length. -/
inductive CryptoCall where
  | bioWrite (input : Buffer) (len : Int)
  | bioRead (buff : Buffer) (len : Int)
  | bioNewMemBuf (text : Buffer) (len : Int)
  | md5 (msg : Buffer) (len : Nat)
  | rsaVerify (md5Digest : Buffer) (digestLen : Nat) (decSig : Buffer) (sigLen : Nat)
  deriving DecidableEq

/-- A length stays within the buffer, MD5 is given the bytes that hold data, all of them,
    and RSA no more than these. -/
def CryptoCall.Honest : CryptoCall → Prop
  | .bioWrite buffer len | .bioRead buffer len | .bioNewMemBuf buffer len =>
      0 ≤ len ∧ len ≤ buffer.size
  | .md5 msg len => len = msg.filled ∧ len ≤ msg.size
  | .rsaVerify md5Digest digestLen decSig sigLen =>
      (digestLen ≤ md5Digest.filled ∧ digestLen ≤ md5Digest.size) ∧
        sigLen ≤ decSig.filled ∧ sigLen ≤ decSig.size

instance : DecidablePred CryptoCall.Honest := fun call =>
  match call with
  | .bioWrite _ _ | .bioRead _ _ | .bioNewMemBuf _ _ => inferInstanceAs (Decidable (_ ∧ _))
  | .md5 _ _ => inferInstanceAs (Decidable (_ ∧ _))
  | .rsaVerify _ _ _ _ => inferInstanceAs (Decidable (_ ∧ _))

/-- The text that a BIO is made over; a negative length stands for `strlen`. -/
def bioText (s : Str) (len : Int) : Str := if len < 0 then cstr s else s.take len.toNat

namespace Handed

open Recorded

section OpenSSL

variable (o : OpenSSL)

/-- `decodeB64`: the buffer, by what it holds and how large it is, and the new `length`. A
    negative size makes `new` throw. -/
def decodeB64 (input : Str) (length : Int) : Recorded CryptoCall (Str × Buffer × Int) := do
  record (.bioWrite (.text input) length)
  let size := toInt (3 * length)
  if size < 0 then stop
  else
    record (.bioRead { size := size.toNat, filled := 0 } length)
    match o.bioRead (input.take length.toNat) with
    | some bytes =>
        let bytes := bytes.take length.toNat
        return (bytes ++ List.replicate (size.toNat - bytes.length) nul,
          { size := size.toNat, filled := bytes.length }, bytes.length)
    | none =>
        return (List.replicate size.toNat nul, { size := size.toNat, filled := 0 }, -1)

/-- `getMsgDigest(const string &)` -/
def getMsgDigest (pMsg : Str) : Recorded CryptoCall Digest := do
  record (.md5 (.cString pMsg) (cstr pMsg).length)
  return o.md5 pMsg (cstr pMsg).length

/-- `getKeyDigest` -/
def getKeyDigest (pKey : Str) : Recorded CryptoCall Str := do
  let (decKey, buffer, keyLen) ← decodeB64 o pKey (toInt pKey.length)
  record (.md5 buffer (sizeT keyLen))
  let md5Digest := o.md5 decKey (sizeT keyLen)
  return "rsa_".toList ++ (List.ofFn fun i => hexByte (md5Digest i)).flatten

/-- `verifySig` -/
def verifySig (pKey pB64DgstSigned pMsg : Str) : Recorded CryptoCall Bool :=
  if pKey = [] then pure false
  else if pB64DgstSigned = [] then pure false
  else if pMsg = [] then pure false
  else do
    let md5Digest ← getMsgDigest o pMsg
    record (.bioNewMemBuf (.text pKey) (toInt pKey.length))
    match readKey o (bioText pKey (toInt pKey.length)) with
    | some pubKey =>
        let (decSig, buffer, _) ← decodeB64 o pB64DgstSigned (toInt pB64DgstSigned.length)
        record (.rsaVerify .digest 16 buffer (o.rsaSize pubKey))
        return o.rsaVerify md5Digest decSig (o.rsaSize pubKey) pubKey
    | none => return true

/-! ## The conditions -/

/-- The number of bytes that `BIO_read` decodes of a text; none where it fails. -/
def decodedBytes (s : Str) : Nat :=
  (((o.bioRead (s.take (toInt s.length).toNat)).getD []).take (toInt s.length).toNat).length

/-- The `int` of a text's size is not negative, and if three times that `int` is no `int` any
    more, it wraps to a negative one, so that `new` throws. -/
def SizeFits (s : Str) : Prop := 0 ≤ toInt s.length ∧ toInt s.length ≤ 1431655765

/-- `new` gives a buffer for the decoded text. -/
def Allocates (s : Str) : Prop := toInt s.length ≤ 715827882

/-- A key text whose digest is taken: the decoding succeeds, if with no byte. -/
structure KeyFits (pKey : Str) : Prop where
  size : SizeFits pKey
  decodes : Allocates pKey → (o.bioRead (pKey.take (toInt pKey.length).toNat)).isSome

/-- A signature that is passed with a key: it decodes to as many bytes as the key has. -/
structure SignatureFits (pubKey : o.Key) (pB64DgstSigned : Str) : Prop where
  size : SizeFits pB64DgstSigned
  modulus : Allocates pB64DgstSigned → o.rsaSize pubKey ≤ decodedBytes o pB64DgstSigned

/-! ## Decoding -/

theorem toInt_triple {n : Int} (lower : 0 ≤ n) (upper : n < 2147483648) :
    (n ≤ 715827882 ∧ toInt (3 * n) = 3 * n) ∨
    (715827882 < n ∧ n ≤ 1431655765 ∧ toInt (3 * n) < 0) ∨
    (1431655765 < n ∧ 0 ≤ toInt (3 * n) ∧ toInt (3 * n) < n) := by
  rw [toInt, Int.bmod_def]
  have once : 3 * n / 4294967296 = 0 ∨ 3 * n / 4294967296 = 1 := by omega
  rcases once with below | above
  · split <;> omega
  · split <;> omega

theorem toInt_le (n : Nat) : toInt n ≤ n ∧ toInt n < 2147483648 := by
  rw [toInt, Int.bmod_def]
  split <;> omega

theorem decodeB64_every (s : Str) :
    (decodeB64 o s (toInt s.length)).Every CryptoCall.Honest ↔ SizeFits s := by
  obtain ⟨inside, upper⟩ := toInt_le s.length
  have written : CryptoCall.Honest (.bioWrite (.text s) (toInt s.length)) ↔ 0 ≤ toInt s.length := by
    simp only [CryptoCall.Honest, Buffer.text, and_iff_left_iff_imp]
    omega
  unfold decodeB64 SizeFits
  generalize toInt s.length = n at *
  rw [every_bind, every_record, written]
  refine and_congr_right fun lower => ?_
  simp only [result_record, forall_const]
  rcases toInt_triple lower upper with ⟨small, same⟩ | ⟨_, _, wraps⟩ | ⟨large, wraps, short⟩
  · have notNegative : ¬ toInt (3 * n) < 0 := by omega
    rw [if_neg notNegative, every_bind, every_record]
    refine iff_of_true ⟨⟨lower, by simp; omega⟩, fun _ _ => ?_⟩ (by omega)
    split <;> simp
  · rw [if_pos wraps]
    exact iff_of_true (by simp) (by omega)
  · rw [if_neg (by omega), every_bind, every_record]
    refine iff_of_false (fun honest => ?_) (by omega)
    have fits := honest.1.2
    simp only at fits
    omega

theorem decodeB64_stops {s : Str} (fits : SizeFits s) (large : ¬ Allocates s) :
    (decodeB64 o s (toInt s.length)).result = none := by
  have upper := (toInt_le s.length).2
  rw [Allocates] at large
  rcases toInt_triple fits.1 upper with ⟨small, -⟩ | ⟨-, -, wraps⟩ | ⟨huge, -⟩
  · exact absurd small large
  · simp [decodeB64, wraps]
  · exact absurd fits.2 (by omega)

theorem decodeB64_decodes {s : Str} (fits : SizeFits s) (small : Allocates s) :
    ∃ content, (decodeB64 o s (toInt s.length)).result =
      some (content, { size := (3 * toInt s.length).toNat, filled := decodedBytes o s },
        if (o.bioRead (s.take (toInt s.length).toNat)).isSome then (decodedBytes o s : Int)
        else -1) := by
  have triple : toInt (3 * toInt s.length) = 3 * toInt s.length := by
    rcases toInt_triple fits.1 (toInt_le s.length).2 with ⟨-, same⟩ | ⟨large, -⟩ | ⟨large, -⟩
    · exact same
    · exact absurd small (by rw [Allocates]; omega)
    · exact absurd small (by rw [Allocates]; omega)
  have notNegative : ¬ 3 * toInt s.length < 0 := by
    have := fits.1
    omega
  unfold decodeB64 decodedBytes
  simp only [triple, if_neg notNegative]
  simp only [result_bind, result_record, Option.bind_some]
  cases o.bioRead (s.take (toInt s.length).toNat) with
  | none =>
      refine ⟨List.replicate (3 * toInt s.length).toNat nul, ?_⟩
      simp only [result_pure, Option.isSome_none, Bool.false_eq_true, if_false, Option.getD_none,
        List.take_nil, List.length_nil]
  | some bytes =>
      refine ⟨bytes.take (toInt s.length).toNat ++ List.replicate ((3 * toInt s.length).toNat -
        (bytes.take (toInt s.length).toNat).length) nul, ?_⟩
      simp only [result_pure, Option.isSome_some, if_true, Option.getD_some]

theorem decodedBytes_le (s : Str) (lower : 0 ≤ toInt s.length) :
    (decodedBytes o s : Int) ≤ toInt s.length := by
  have taken := List.length_take_le (toInt s.length).toNat
    ((o.bioRead (s.take (toInt s.length).toNat)).getD [])
  unfold decodedBytes
  omega

/-! ## The three functions -/

theorem getMsgDigest_every (pMsg : Str) : (getMsgDigest o pMsg).Every CryptoCall.Honest := by
  have cut := (@List.takeWhile_prefix _ pMsg (· ≠ nul)).length_le
  simp only [getMsgDigest, every_bind, every_record, every_pure, implies_true, and_true]
  exact ⟨rfl, Nat.le_succ_of_le cut⟩

theorem getKeyDigest_every (pKey : Str) :
    (getKeyDigest o pKey).Every CryptoCall.Honest ↔ KeyFits o pKey := by
  rw [getKeyDigest, every_bind, decodeB64_every]
  constructor
  · rintro ⟨size, rest⟩
    refine ⟨size, fun small => ?_⟩
    obtain ⟨content, decoded⟩ := decodeB64_decodes o size small
    have hashed := rest _ decoded
    simp only [every_bind, every_record] at hashed
    by_contra failed
    have allBytes := hashed.1.1
    have few := decodedBytes_le o pKey size.1
    simp only [failed, if_false] at allBytes
    rw [show sizeT (-1) = 18446744073709551615 from rfl] at allBytes
    rw [Allocates] at small
    omega
  · rintro ⟨size, decodes⟩
    refine ⟨size, fun decoded result => ?_⟩
    by_cases small : Allocates pKey
    · obtain ⟨content, decodedAs⟩ := decodeB64_decodes o size small
      rw [decodedAs] at result
      cases result
      have few := decodedBytes_le o pKey size.1
      rw [Allocates] at small
      have count : sizeT (decodedBytes o pKey : Int) = decodedBytes o pKey := by
        unfold sizeT
        omega
      simp only [decodes small, if_true, count, every_bind, every_record, every_pure,
        implies_true, and_true, CryptoCall.Honest, true_and]
      omega
    · rw [decodeB64_stops o size small] at result
      cases result

/-- The condition on the texts of a signature. The length of the key text is passed when there
    is something to verify, and those of the signature with a key that can be read. -/
def TextsFit (pKey pB64DgstSigned pMsg : Str) : Prop :=
  pKey ≠ [] → pB64DgstSigned ≠ [] → pMsg ≠ [] → 0 ≤ toInt pKey.length ∧
    ∀ pubKey, readKey o (pKey.take (toInt pKey.length).toNat) = some pubKey →
      SignatureFits o pubKey pB64DgstSigned

theorem decSig_every (pubKey : o.Key) (pB64DgstSigned : Str) (verdict : Str → Bool) :
    (do
      let (decSig, buffer, _) ← decodeB64 o pB64DgstSigned (toInt pB64DgstSigned.length)
      record (.rsaVerify .digest 16 buffer (o.rsaSize pubKey))
      return verdict decSig : Recorded CryptoCall Bool).Every CryptoCall.Honest ↔
      SignatureFits o pubKey pB64DgstSigned := by
  rw [every_bind, decodeB64_every]
  constructor
  · rintro ⟨size, rest⟩
    refine ⟨size, fun small => ?_⟩
    obtain ⟨content, decoded⟩ := decodeB64_decodes o size small
    have passed := rest _ decoded
    simp only [every_bind, every_record, CryptoCall.Honest] at passed
    obtain ⟨⟨-, withinFilled, -⟩, -⟩ := passed
    exact withinFilled
  · rintro ⟨size, modulus⟩
    refine ⟨size, fun decoded result => ?_⟩
    by_cases small : Allocates pB64DgstSigned
    · obtain ⟨content, decodedAs⟩ := decodeB64_decodes o size small
      rw [decodedAs] at result
      cases result
      have few := decodedBytes_le o pB64DgstSigned size.1
      have fewer := modulus small
      simp only [every_bind, every_record, every_pure, implies_true, and_true, CryptoCall.Honest,
        Buffer.digest]
      omega
    · rw [decodeB64_stops o size small] at result
      cases result

theorem verifySig_every (pKey pB64DgstSigned pMsg : Str) :
    (verifySig o pKey pB64DgstSigned pMsg).Every CryptoCall.Honest ↔
      TextsFit o pKey pB64DgstSigned pMsg := by
  unfold verifySig TextsFit
  by_cases key : pKey = []
  · simp [key]
  by_cases signature : pB64DgstSigned = []
  · simp [key, signature]
  by_cases message : pMsg = []
  · simp [key, signature, message]
  simp only [key, signature, message, if_false, ne_eq, not_false_eq_true, forall_const]
  have named : CryptoCall.Honest (.bioNewMemBuf (.text pKey) (toInt pKey.length)) ↔
      0 ≤ toInt pKey.length := by
    have inside := (toInt_le pKey.length).1
    simp only [CryptoCall.Honest, Buffer.text, and_iff_left_iff_imp]
    omega
  rw [every_bind, and_iff_right (getMsgDigest_every o pMsg)]
  simp only [getMsgDigest, result_bind, result_record, result_pure, Option.bind_some,
    Option.some.injEq, forall_eq']
  rw [every_bind, every_record, named]
  refine and_congr_right fun lower => ?_
  have notNegative : ¬ toInt pKey.length < 0 := by omega
  simp only [result_record, forall_const, bioText, if_neg notNegative]
  cases readKey o (pKey.take (toInt pKey.length).toNat) with
  | none => simp
  | some pubKey =>
      simp only [Option.some.injEq, forall_eq']
      exact decSig_every o pubKey pB64DgstSigned fun decSig =>
        o.rsaVerify (o.md5 pMsg (cstr pMsg).length) decSig (o.rsaSize pubKey) pubKey

/-- The lengths are honest exactly for texts whose sizes fit, key texts that BIO_read does not
    fail on, and signatures that decode to as many bytes as the key has. -/
theorem lengths_honest_iff (pKey pB64DgstSigned pMsg : Str) :
    ((verifySig o pKey pB64DgstSigned pMsg).Every CryptoCall.Honest ↔
      TextsFit o pKey pB64DgstSigned pMsg) ∧
    ((getKeyDigest o pKey).Every CryptoCall.Honest ↔ KeyFits o pKey) ∧
    (getMsgDigest o pMsg).Every CryptoCall.Honest :=
  ⟨verifySig_every o pKey pB64DgstSigned pMsg, getKeyDigest_every o pKey,
    getMsgDigest_every o pMsg⟩

end OpenSSL

/-- OpenSSL with one key of 128 bytes, and a signature that decodes to three. -/
def shortSignature : OpenSSL :=
  { OpenSSL.plainText with
    Key := Unit
    pemReadBioRsaPubkey := fun _ => some ()
    bioRead := fun _ => some "ABC".toList
    rsaSize := fun _ => 128
    rsaVerify := fun _ _ _ _ => false }

/-- A signature of three bytes in a buffer of fifteen, with 128 of them to be read. -/
theorem verifySig_reads_beyond :
    ¬ (verifySig shortSignature sampleKey "QUJD\n".toList "p(a).".toList).Every
      CryptoCall.Honest := by
  decide +kernel

/-! ## The values -/

section OpenSSL

variable (o : OpenSSL)

theorem sizeFits_of_le {s : Str} (small : s.length ≤ 715827882) :
    toInt s.length = s.length ∧ SizeFits s ∧ Allocates s := by
  have same : toInt s.length = s.length := toInt_of_lt (by omega) (by omega)
  rw [SizeFits, Allocates, same]
  omega

/-- On texts whose triple size is an `int`, `decodeB64` is what it is without the limits of
    `int`. -/
theorem decodeB64_result {s : Str} (small : s.length ≤ 715827882) :
    ∃ buffer, (decodeB64 o s (toInt s.length)).result =
      some ((RepositoryManager.decodeB64 o s).1, buffer, (RepositoryManager.decodeB64 o s).2) := by
  have same := (sizeFits_of_le small).1
  have triple : toInt (3 * s.length) = 3 * s.length := toInt_of_lt (by omega) (by omega)
  have notNegative : ¬ 3 * (s.length : Int) < 0 := by omega
  have size : (3 * (s.length : Int)).toNat = 3 * s.length := by omega
  simp only [decodeB64, RepositoryManager.decodeB64, same, triple, if_neg notNegative, size,
    Int.toNat_natCast, List.take_length]
  simp only [result_bind, result_record, Option.bind_some]
  cases o.bioRead s with
  | none => exact ⟨{ size := 3 * s.length, filled := 0 }, rfl⟩
  | some bytes => exact ⟨{ size := 3 * s.length, filled := (bytes.take s.length).length }, rfl⟩

theorem getKeyDigest_result {pKey : Str} (small : pKey.length ≤ 715827882) :
    (getKeyDigest o pKey).result = some (RepositoryManager.getKeyDigest o pKey) := by
  obtain ⟨buffer, decoded⟩ := decodeB64_result o small
  rcases both : RepositoryManager.decodeB64 o pKey with ⟨decKey, keyLen⟩
  simp only [both] at decoded
  simp only [getKeyDigest, RepositoryManager.getKeyDigest, both, result_bind, decoded,
    Option.bind_some, result_record, result_pure]

theorem verifySig_result {pKey pB64DgstSigned pMsg : Str} (keySize : pKey.length < 2147483648)
    (small : pB64DgstSigned.length ≤ 715827882) :
    (verifySig o pKey pB64DgstSigned pMsg).result =
      some (RepositoryManager.verifySig o pKey pB64DgstSigned pMsg) := by
  have named : bioText pKey (toInt pKey.length) = pKey := by
    rw [bioText, toInt_of_lt (by omega) (by omega), if_neg (by omega), Int.toNat_natCast,
      List.take_length]
  obtain ⟨buffer, decoded⟩ := decodeB64_result o small
  by_cases key : pKey = []
  · simp [verifySig, RepositoryManager.verifySig, key]
  by_cases signature : pB64DgstSigned = []
  · simp [verifySig, RepositoryManager.verifySig, key, signature]
  by_cases message : pMsg = []
  · simp [verifySig, RepositoryManager.verifySig, key, signature, message]
  rw [verifySig_nonempty key signature message, verifySig, if_neg key, if_neg signature,
    if_neg message, getMsgDigest]
  simp only [result_bind, result_record, result_pure, Option.bind_some, named]
  cases readKey o pKey with
  | none => rfl
  | some pubKey =>
      rw [result_bind, decoded, Option.bind_some]
      rfl

end OpenSSL

end Handed

end RepositoryManager
