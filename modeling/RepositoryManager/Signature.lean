import RepositoryManager.SecurityService

/-! # When a signature is accepted

What `verifySig` is for, stated over the bytes that the signature text decodes to and their
number, and where the code agrees with it. The result starts as true and only a rejection by
`RSA_verify` or an empty argument lowers it, and `RSA_verify` is handed the size of the key
for the number of bytes.
-/

namespace RepositoryManager

open ByteString

variable (o : OpenSSL)

/-- What the manual pages of OpenSSL, and PKCS #1 for signatures, say of the calls. -/
structure OpenSSL.AsDocumented : Prop where
  /-- No key is read from an empty text. -/
  keyless : o.pemReadBioRsaPubkey [] = none
  /-- `RSA_verify` looks at `siglen` bytes of `sigbuf`. -/
  reads : ∀ digest sigbuf siglen key,
    o.rsaVerify digest sigbuf siglen key = o.rsaVerify digest (sigbuf.take siglen) siglen key
  /-- A signature is as long as the modulus of its key. -/
  size : ∀ digest sigbuf siglen key,
    o.rsaVerify digest sigbuf siglen key = true → siglen = o.rsaSize key
  modulus : ∀ key, 0 < o.rsaSize key
  /-- The digest is recovered from the signature and compared. -/
  oneDigest : ∀ digest digest' sigbuf siglen key, o.rsaVerify digest sigbuf siglen key = true →
    o.rsaVerify digest' sigbuf siglen key = true → digest = digest'

/-! ## What it is for -/

/-- The public key that a text holds, if a BIO can be had and PEM reads it. -/
def readKey (pKey : Str) : Option o.Key :=
  if o.bioNewMemBuf pKey then o.pemReadBioRsaPubkey pKey else none

/-- The bytes that a signature text decodes to, as many as the decoding counts. -/
def decodedSignature (pB64DgstSigned : Str) : Str :=
  (decodeB64 o pB64DgstSigned).1.take (decodeB64 o pB64DgstSigned).2.toNat

/-- The bytes are a signature on the digest by the key. -/
def Signs (pubKey : o.Key) (digest : Digest) (bytes : Str) : Prop :=
  o.rsaVerify digest bytes bytes.length pubKey = true

/-- The signature is one on the whole message by the key that the text holds. -/
def SignatureValid (pKey pB64DgstSigned pMsg : Str) : Prop :=
  ∃ pubKey, readKey o pKey = some pubKey ∧
    Signs o pubKey (o.md5 pMsg pMsg.length) (decodedSignature o pB64DgstSigned)

/-! ## When it is that -/

/-- There is a signature on the digest that the bytes only begin with, or that they are but for
    zeros at its end. -/
def Disguised (pubKey : o.Key) (digest : Digest) (bytes : Str) : Prop :=
  ∃ signature, Signs o pubKey digest signature ∧
    (signature <+: bytes ∨ ∃ n, signature = bytes ++ List.replicate n nul)

/-- The text decodes to as many bytes as the modulus has; or they are no signature in disguise,
    and none is found with what lies behind a buffer that is shorter than the modulus. -/
def SizedAsKey (pubKey : o.Key) (digest : Digest) (pB64DgstSigned : Str) : Prop :=
  (decodedSignature o pB64DgstSigned).length = o.rsaSize pubKey ∨
    if o.rsaSize pubKey ≤ 3 * pB64DgstSigned.length then
      ¬ Disguised o pubKey digest (decodedSignature o pB64DgstSigned)
    else o.rsaVerify digest (decodeB64 o pB64DgstSigned).1 (o.rsaSize pubKey) pubKey = false

/-- The digest of the part before a NUL is that of the message, or the bytes are a signature on
    neither of the two. -/
def WholeMessage (pubKey : o.Key) (pMsg bytes : Str) : Prop :=
  o.md5 pMsg (cstr pMsg).length = o.md5 pMsg pMsg.length ∨
    (¬ Signs o pubKey (o.md5 pMsg (cstr pMsg).length) bytes ∧
      ¬ Signs o pubKey (o.md5 pMsg pMsg.length) bytes)

/-- An empty message is not one that was signed; any other is verified with a key that can be
    read, by a signature of its size, and as a whole. -/
def VerifiesWell (pKey pB64DgstSigned pMsg : Str) : Prop :=
  if pMsg = [] then
    ∀ pubKey, readKey o pKey = some pubKey →
      ¬ Signs o pubKey (o.md5 [] 0) (decodedSignature o pB64DgstSigned)
  else
    ∃ pubKey, readKey o pKey = some pubKey ∧
      SizedAsKey o pubKey (o.md5 pMsg (cstr pMsg).length) pB64DgstSigned ∧
      (nul ∈ pMsg → WholeMessage o pubKey pMsg (decodedSignature o pB64DgstSigned))

variable {o}

/-! ## What is passed to `RSA_verify` -/

theorem decodeB64_buffer (s : Str) :
    (decodeB64 o s).1 =
        decodedSignature o s ++ List.replicate (3 * s.length - (decodedSignature o s).length) nul ∧
      (decodedSignature o s).length ≤ s.length := by
  unfold decodedSignature decodeB64
  cases o.bioRead s with
  | none => simp
  | some bytes =>
      have short := List.length_take_le s.length bytes
      dsimp only
      rw [Int.toNat_natCast, List.take_left]
      exact ⟨rfl, short⟩

theorem decodedSignature_nil : decodedSignature o [] = [] :=
  List.length_eq_zero_iff.mp (Nat.le_zero.mp (decodeB64_buffer (o := o) []).2)

section Verify

variable (documented : o.AsDocumented) {pubKey : o.Key} {digest : Digest} {bytes s : Str}

include documented

theorem Signs.length (signs : Signs o pubKey digest bytes) : bytes.length = o.rsaSize pubKey :=
  documented.size _ _ _ _ signs

theorem verify_sized (sized : (decodedSignature o s).length = o.rsaSize pubKey) :
    o.rsaVerify digest (decodeB64 o s).1 (o.rsaSize pubKey) pubKey = true ↔
      Signs o pubKey digest (decodedSignature o s) := by
  rw [documented.reads, (decodeB64_buffer s).1, ← sized, List.take_left]
  exact Iff.rfl

/-- Where it is not, what is accepted is a signature in disguise. -/
theorem verify_disguised (fits : o.rsaSize pubKey ≤ 3 * s.length) :
    o.rsaVerify digest (decodeB64 o s).1 (o.rsaSize pubKey) pubKey = true ↔
      Disguised o pubKey digest (decodedSignature o s) := by
  obtain ⟨buffer, short⟩ := decodeB64_buffer (o := o) s
  have size : (decodeB64 o s).1.length = 3 * s.length := by
    rw [buffer, List.length_append, List.length_replicate]
    omega
  have cut : ((decodeB64 o s).1.take (o.rsaSize pubKey)).length = o.rsaSize pubKey := by
    rw [List.length_take, size]
    exact Nat.min_eq_left fits
  rw [documented.reads]
  constructor
  · intro accepted
    refine ⟨(decodeB64 o s).1.take (o.rsaSize pubKey), ?_, ?_⟩
    · rw [Signs, cut]
      exact accepted
    · rw [buffer, List.take_append]
      by_cases longer : o.rsaSize pubKey ≤ (decodedSignature o s).length
      · rw [Nat.sub_eq_zero_of_le longer, List.take_zero, List.append_nil]
        exact .inl (List.take_prefix _ _)
      · rw [List.take_of_length_le (by omega), List.take_replicate]
        exact .inr ⟨_, rfl⟩
  · rintro ⟨signature, signs, disguise⟩
    have length := signs.length documented
    have found : (decodeB64 o s).1.take (o.rsaSize pubKey) = signature := by
      rw [buffer, ← length]
      rcases disguise with ⟨rest, whole⟩ | ⟨n, rfl⟩
      · rw [← whole, List.append_assoc, List.take_left]
      · rw [List.length_append, List.length_replicate] at length
        rw [List.length_append, List.length_replicate, List.take_append,
          List.take_of_length_le (by omega), Nat.add_sub_cancel_left, List.take_replicate,
          Nat.min_eq_left (by omega)]
    rw [found, ← length]
    exact signs

/-- `RSA_verify` on the buffer decides what it should exactly for a text of the key's size. -/
theorem verify_iff_sizedAsKey :
    (o.rsaVerify digest (decodeB64 o s).1 (o.rsaSize pubKey) pubKey = true ↔
      Signs o pubKey digest (decodedSignature o s)) ↔ SizedAsKey o pubKey digest s := by
  unfold SizedAsKey
  by_cases sized : (decodedSignature o s).length = o.rsaSize pubKey
  · exact iff_of_true (verify_sized documented sized) (.inl sized)
  · have unsigned : ¬ Signs o pubKey digest (decodedSignature o s) := fun signs =>
      sized (signs.length documented)
    rw [iff_false_right unsigned, or_iff_right sized]
    split
    · next fits => rw [verify_disguised documented fits]
    · rw [Bool.not_eq_true]

end Verify

theorem verifySig_nonempty {pKey pB64DgstSigned pMsg : Str} (key : pKey ≠ [])
    (signature : pB64DgstSigned ≠ []) (message : pMsg ≠ []) :
    verifySig o pKey pB64DgstSigned pMsg =
      match readKey o pKey with
      | some pubKey => o.rsaVerify (o.md5 pMsg (cstr pMsg).length) (decodeB64 o pB64DgstSigned).1
          (o.rsaSize pubKey) pubKey
      | none => true := by
  simp only [verifySig, key, signature, message, if_false, readKey]
  by_cases bio : o.bioNewMemBuf pKey = true
  · simp only [bio, if_true]
    cases o.pemReadBioRsaPubkey pKey <;> rfl
  · simp only [bio, Bool.false_eq_true, if_false]

/-! ## Where the code agrees -/

theorem signatureValid_nonempty (documented : o.AsDocumented) {pKey pB64DgstSigned pMsg : Str}
    (valid : SignatureValid o pKey pB64DgstSigned pMsg) : pKey ≠ [] ∧ pB64DgstSigned ≠ [] := by
  obtain ⟨pubKey, read, signs⟩ := valid
  constructor
  · rintro rfl
    rw [readKey, documented.keyless, ite_self] at read
    cases read
  · rintro rfl
    have length := signs.length documented
    rw [decodedSignature_nil] at length
    exact Nat.ne_of_lt (documented.modulus pubKey) length

theorem wholeMessage_iff (documented : o.AsDocumented) (pubKey : o.Key) (pMsg bytes : Str) :
    (Signs o pubKey (o.md5 pMsg (cstr pMsg).length) bytes ↔
      Signs o pubKey (o.md5 pMsg pMsg.length) bytes) ↔
    (nul ∈ pMsg → WholeMessage o pubKey pMsg bytes) := by
  constructor
  · intro same _
    by_cases signs : Signs o pubKey (o.md5 pMsg (cstr pMsg).length) bytes
    · exact .inl (documented.oneDigest _ _ _ _ _ signs (same.mp signs))
    · exact .inr ⟨signs, fun whole => signs (same.mpr whole)⟩
  · intro whole
    by_cases inside : nul ∈ pMsg
    · rcases whole inside with equal | ⟨part, all⟩
      · rw [equal]
      · exact iff_of_false part all
    · rw [cstr_of_clean inside]

theorem verify_iff_whole (documented : o.AsDocumented) {pubKey : o.Key} {pMsg s : Str} :
    (o.rsaVerify (o.md5 pMsg (cstr pMsg).length) (decodeB64 o s).1 (o.rsaSize pubKey) pubKey = true ↔
      Signs o pubKey (o.md5 pMsg pMsg.length) (decodedSignature o s)) ↔
    SizedAsKey o pubKey (o.md5 pMsg (cstr pMsg).length) s ∧
      (nul ∈ pMsg → WholeMessage o pubKey pMsg (decodedSignature o s)) := by
  rw [← verify_iff_sizedAsKey documented, ← wholeMessage_iff documented]
  refine ⟨fun same => ?_, fun ⟨asPart, asWhole⟩ => asPart.trans asWhole⟩
  by_cases sized : (decodedSignature o s).length = o.rsaSize pubKey
  · have asPart : o.rsaVerify (o.md5 pMsg (cstr pMsg).length) (decodeB64 o s).1 (o.rsaSize pubKey)
        pubKey = true ↔ Signs o pubKey (o.md5 pMsg (cstr pMsg).length) (decodedSignature o s) :=
      verify_sized documented sized
    exact ⟨asPart, asPart.symm.trans same⟩
  · have unsigned : ∀ digest, ¬ Signs o pubKey digest (decodedSignature o s) := fun digest signs =>
      sized (signs.length documented)
    exact ⟨same.trans (iff_of_false (unsigned _) (unsigned _)), iff_of_false (unsigned _) (unsigned _)⟩

/-- An accepted signature is a valid one exactly where a key or signature text is empty, or
    where the three texts are verified well. -/
theorem verifySig_sound_iff (o : OpenSSL) (documented : o.AsDocumented)
    (pKey pB64DgstSigned pMsg : Str) :
    (verifySig o pKey pB64DgstSigned pMsg = true ↔
      SignatureValid o pKey pB64DgstSigned pMsg) ↔
    pKey = [] ∨ pB64DgstSigned = [] ∨ VerifiesWell o pKey pB64DgstSigned pMsg := by
  have nonempty : SignatureValid o pKey pB64DgstSigned pMsg → pKey ≠ [] ∧ pB64DgstSigned ≠ [] :=
    signatureValid_nonempty documented
  by_cases key : pKey = []
  · have refused : verifySig o pKey pB64DgstSigned pMsg = false := by simp [verifySig, key]
    rw [refused]
    exact iff_of_true (iff_of_false Bool.false_ne_true fun valid => (nonempty valid).1 key) (.inl key)
  by_cases signature : pB64DgstSigned = []
  · have refused : verifySig o pKey pB64DgstSigned pMsg = false := by simp [verifySig, signature]
    rw [refused]
    exact iff_of_true (iff_of_false Bool.false_ne_true fun valid => (nonempty valid).2 signature)
      (.inr (.inl signature))
  rw [or_iff_right key, or_iff_right signature, VerifiesWell]
  by_cases message : pMsg = []
  · subst message
    have refused : verifySig o pKey pB64DgstSigned [] = false := by simp [verifySig]
    simp [refused, SignatureValid]
  rw [if_neg message, verifySig_nonempty key signature message]
  unfold SignatureValid
  cases readKey o pKey with
  | none => simp
  | some pubKey =>
      simp only [Option.some.injEq, exists_eq_left']
      exact verify_iff_whole documented

/-- A key of 1024 bits, as it stands in a credential. -/
def sampleKey : Str :=
  "-----BEGIN PUBLIC KEY-----\n".toList ++
    "MIGfMA0GCSqGSIb3DQEBAQUAA4GNADCBiQKBgQD6gkiTvzHRJQviUXnlK4aO2U7j\n".toList ++
    "M14MU3fyKvom7yTRrjq5cwVgtIEZb6ZFTX6wM4y4ii3r1qjoyuIKQwYV0heHswe6\n".toList ++
    "jmoAmGJyTNY1dtrshcXN6N3Co5zXCShmQdt/y3bUDl9/rrVHatAAwDhC9/RwecjG\n".toList ++
    "pV24BPuAEjIJfa1gVwIDAQAB\n".toList ++
    "-----END PUBLIC KEY-----\n".toList

def sampleSignature : Str :=
  "JxTKmokpEW5RPJVye0V5o+qlSohOv/M1qrhEGWDckd94G9Ge9e0UG7QRkHbavIQ2\n".toList ++
    "TEZbCD66z92VKGsicRlBaOqgFWOA1h8VBSB2zaf/JTBfrwVIgHoM2CVKXhZY8Iy/\n".toList ++
    "Rwoc+nRGynYnVhBUsX7by8wuxfIL6KkWey0nDgmnxuA=\n".toList

/-- OpenSSL with one key and one signature by it, of 128 bytes. -/
def OpenSSL.sample : OpenSSL where
  Key := Unit
  bioNewMemBuf := fun _ => true
  pemReadBioRsaPubkey := fun text => if text = sampleKey then some () else none
  bioRead := fun text => if text = sampleSignature then some (List.replicate 128 'R') else none
  md5 := fun text len _ => UInt8.ofNat ((text.take len).foldl (fun n c => n + c.toNat) 0)
  rsaSize := fun _ => 128
  rsaVerify := fun digest sigbuf siglen _ =>
    siglen = 128 ∧ sigbuf.take siglen = List.replicate 128 'R' ∧ ∀ i, digest i = 80

theorem OpenSSL.sample_asDocumented : OpenSSL.sample.AsDocumented where
  keyless := by decide +kernel
  reads := fun digest sigbuf siglen key => by
    simp only [OpenSSL.sample, List.take_take, Nat.min_self]
  size := fun digest sigbuf siglen key accepted => (of_decide_eq_true accepted).1
  modulus := fun _ => Nat.zero_lt_succ 127
  oneDigest := fun digest digest' sigbuf siglen key first second => funext fun i =>
    ((of_decide_eq_true first).2.2 i).trans ((of_decide_eq_true second).2.2 i).symm

theorem verifySig_sound_iff_sample :
    verifySig .sample sampleKey sampleSignature "p(a).".toList = true ∧
      SignatureValid .sample sampleKey sampleSignature "p(a).".toList := by
  have accepted : verifySig .sample sampleKey sampleSignature "p(a).".toList = true := by
    decide +kernel
  refine ⟨accepted, ((verifySig_sound_iff .sample OpenSSL.sample_asDocumented _ _ _).mpr ?_).mp
    accepted⟩
  have message : "p(a).".toList ≠ [] := by decide
  refine .inr (.inr ?_)
  rw [VerifiesWell, if_neg message]
  have read : readKey .sample sampleKey = some () := by simp [readKey, OpenSSL.sample]
  exact ⟨(), read, .inl (by decide +kernel), fun inside => absurd inside (by decide)⟩

/-- A text that is no key has every signature accepted. -/
theorem verifySig_unreadable_key :
    ¬ (verifySig .plainText "no key".toList "no signature".toList "p(a).".toList = true ↔
      SignatureValid .plainText "no key".toList "no signature".toList "p(a).".toList) := by
  intro same
  obtain ⟨pubKey, read, _⟩ := same.mp (by decide)
  cases read

end RepositoryManager
