import SgxOram.Conf
import SgxOram.Lib.Aead
import SgxOram.Lib.Bytes

/-!
# `encryptData` and `decryptData` on bytes (`Enclave/Enclave.cpp`)

Both functions work in a local buffer `p_dest` of `ENC_BUF_LEN` bytes. The encrypted layout is the tag, the
initialization vector, the ciphertext.

* `SgxGcm` : `sgx_rijndael128GCM_encrypt` and `sgx_rijndael128GCM_decrypt`, which are not part of the
  repository;
* `encryptData`, `decryptData` : the functions with the offsets of `p_dest` that they touch;
* `decryptData_encryptData` : the round trip; `within_encryptData`, `within_decryptData` : the offsets;
* `dataCrypto_iff` : for which block sizes both are as they should be;
* `blockAead` : the cipher that the ORAM uses, an instance of `Lib.Aead`.
-/

namespace SgxOram.Bytes
open Lib

/-- `ENC_BUF_LEN`. -/
def encBufLen : Nat := 2048

/-- The two calls of `sgx_tcrypto.h` under the fixed key `enclave_data_key`, without additional data.
`encrypt iv src` gives the output bytes and the tag, `decrypt iv src mac` the status and the output bytes. -/
structure SgxGcm where
  encrypt : List UInt8 → List UInt8 → List UInt8 × List UInt8
  decrypt : List UInt8 → List UInt8 → List UInt8 → Bool × List UInt8

/-- Decryption undoes encryption, and both write as many bytes as they read; a tag has 16 bytes. -/
structure SgxGcm.Correct (G : SgxGcm) : Prop where
  undo : ∀ iv src, G.decrypt iv (G.encrypt iv src).1 (G.encrypt iv src).2 = (true, src)
  encrypt_length : ∀ iv src, (G.encrypt iv src).1.length = src.length
  mac_length : ∀ iv src, (G.encrypt iv src).2.length = sgxAesgcmMacSize
  decrypt_length : ∀ iv src mac, (G.decrypt iv src mac).2.length = src.length

/-- Offset of the ciphertext. -/
def cipherOffset : Nat := sgxAesgcmMacSize + sgxAesgcmIvSize

/-- `encryptData`, with the bytes that `sgx_read_rand` delivers: what is copied to `encDataOut`, and
`p_dest`. -/
def encryptData (G : SgxGcm) (rand : List UInt8) (decDataIn : Nat → UInt8) (len lenOut : UInt32) :
    List UInt8 × LocalBuffer :=
  let pDest := LocalBuffer.zero.write sgxAesgcmMacSize rand
  let (iv, pDest) := pDest.read sgxAesgcmMacSize sgxAesgcmIvSize
  let r := G.encrypt iv (bytesAt decDataIn 0 len.toNat)
  let pDest := pDest.write cipherOffset r.1
  let pDest := pDest.write 0 r.2
  pDest.read 0 lenOut.toNat

/-- The call of `decryptData` to the library. -/
def decryptCall (G : SgxGcm) (encDataIn : Nat → UInt8) (lenOut : UInt32) : Bool × List UInt8 :=
  G.decrypt (bytesAt encDataIn sgxAesgcmMacSize sgxAesgcmIvSize) (bytesAt encDataIn cipherOffset lenOut.toNat)
    (bytesAt encDataIn 0 sgxAesgcmMacSize)

/-- `decryptData`: what is copied to `decDataOut`, and `p_dest`. The status of the call is dropped. -/
def decryptData (G : SgxGcm) (encDataIn : Nat → UInt8) (_len lenOut : UInt32) : List UInt8 × LocalBuffer :=
  let pDest := LocalBuffer.zero.write 0 (decryptCall G encDataIn lenOut).2
  pDest.read 0 lenOut.toNat

/-- The callers' length of an encrypted block, `block_size + SGX_AESGCM_MAC_SIZE + SGX_AESGCM_IV_SIZE` in
`uint32_t`. -/
def encLen (blockSize : UInt32) : UInt32 :=
  blockSize + UInt32.ofNat sgxAesgcmMacSize + UInt32.ofNat sgxAesgcmIvSize

theorem toNat_encLen {blockSize : UInt32} (h : blockSize.toNat + cipherOffset < 2 ^ 32) :
    (encLen blockSize).toNat = cipherOffset + blockSize.toNat := by
  have hoff : cipherOffset = 28 := rfl
  have h16 : (UInt32.ofNat sgxAesgcmMacSize).toNat = 16 := rfl
  have h12 : (UInt32.ofNat sgxAesgcmIvSize).toNat = 12 := rfl
  rw [encLen, UInt32.toNat_add, UInt32.toNat_add, h16, h12]
  omega

section Correct
variable {G : SgxGcm} (hG : G.Correct) {rand : List UInt8} (hrand : rand.length = sgxAesgcmIvSize)
include hG hrand

/-! ## The offsets -/

/-- `encryptData` stays in the first `n` bytes if tag, vector, ciphertext and output do. -/
theorem within_encryptData (decDataIn : Nat → UInt8) (len lenOut : UInt32) {n : Nat} (hn : cipherOffset ≤ n) :
    (encryptData G rand decDataIn len lenOut).2.Within n ↔
      (len.toNat = 0 ∨ cipherOffset + len.toNat ≤ n) ∧ (lenOut.toNat = 0 ∨ lenOut.toNat ≤ n) := by
  have hoff : sgxAesgcmMacSize + sgxAesgcmIvSize ≤ n := hn
  have hmac : sgxAesgcmMacSize ≤ n := by omega
  simp [encryptData, hrand, hG.encrypt_length, hG.mac_length, hoff, hmac]

omit hrand in
theorem within_decryptData (encDataIn : Nat → UInt8) (len lenOut : UInt32) (n : Nat) :
    (decryptData G encDataIn len lenOut).2.Within n ↔ lenOut.toNat = 0 ∨ lenOut.toNat ≤ n := by
  simp [decryptData, decryptCall, hG.decrypt_length]

/-! ## The round trip -/

/-- The output of `encryptData` holds the vector, the ciphertext and the tag where `decryptData` looks for
them, and decrypts to the plaintext. -/
theorem decryptCall_encryptData (decDataIn : Nat → UInt8) {len lenOut : UInt32}
    (hlen : cipherOffset + len.toNat ≤ lenOut.toNat) :
    decryptCall G (asMem (encryptData G rand decDataIn len lenOut).1) len = (true, bytesAt decDataIn 0 len.toNat) := by
  have hiv : bytesAt (overwrite (fun _ => 0) sgxAesgcmMacSize rand) sgxAesgcmMacSize sgxAesgcmIvSize = rand :=
    hrand ▸ bytesAt_overwrite _ sgxAesgcmMacSize rand
  generalize hsrc : bytesAt decDataIn 0 len.toNat = src
  have hsrclen : src.length = len.toNat := by rw [← hsrc, length_bytesAt]
  have hclen := hG.encrypt_length rand src
  have htlen := hG.mac_length rand src
  have hundo := hG.undo rand src
  generalize hr : G.encrypt rand src = r at hclen htlen hundo
  have hmac16 : sgxAesgcmMacSize = 16 := rfl
  have hiv12 : sgxAesgcmIvSize = 12 := rfl
  have hoff : cipherOffset = 28 := rfl
  -- what is copied out of `p_dest`
  have henc : (encryptData G rand decDataIn len lenOut).1 = bytesAt (overwrite (overwrite
      (overwrite (fun _ => 0) sgxAesgcmMacSize rand) cipherOffset r.1) 0 r.2) 0 lenOut.toNat := by
    simp only [encryptData, LocalBuffer.read, LocalBuffer.write, LocalBuffer.zero, hiv, hsrc, hr]
  rw [decryptCall, henc, bytesAt_asMem_bytesAt _ (by omega), bytesAt_asMem_bytesAt _ hlen,
    bytesAt_asMem_bytesAt _ (by omega)]
  have hivOut : bytesAt (overwrite (overwrite (overwrite (fun _ => 0) sgxAesgcmMacSize rand) cipherOffset r.1) 0 r.2)
      sgxAesgcmMacSize sgxAesgcmIvSize = rand := by
    rw [bytesAt_overwrite_of_disjoint _ (by omega), bytesAt_overwrite_of_disjoint _ (by omega), hiv]
  have hcOut : bytesAt (overwrite (overwrite (overwrite (fun _ => 0) sgxAesgcmMacSize rand) cipherOffset r.1) 0 r.2)
      cipherOffset len.toNat = r.1 := by
    rw [bytesAt_overwrite_of_disjoint _ (by omega), ← hsrclen, ← hclen, bytesAt_overwrite]
  have htOut : bytesAt (overwrite (overwrite (overwrite (fun _ => 0) sgxAesgcmMacSize rand) cipherOffset r.1) 0 r.2) 0
      sgxAesgcmMacSize = r.2 := by
    rw [← htlen, bytesAt_overwrite]
  rw [hivOut, hcOut, htOut, hundo]

/-- If the output holds tag, vector and ciphertext, decryption gives the plaintext back. -/
theorem decryptData_encryptData (decDataIn : Nat → UInt8) {len lenOut : UInt32}
    (hlen : cipherOffset + len.toNat ≤ lenOut.toNat) :
    (decryptData G (asMem (encryptData G rand decDataIn len lenOut).1) lenOut len).1 =
      bytesAt decDataIn 0 len.toNat := by
  simp only [decryptData, decryptCall_encryptData hG hrand decDataIn hlen, LocalBuffer.read, LocalBuffer.write]
  have h := bytesAt_overwrite LocalBuffer.zero.mem 0 (bytesAt decDataIn 0 len.toNat)
  rwa [length_bytesAt] at h

omit hG hrand in
/-- A block comes back, and the two functions stay inside `p_dest`. -/
structure DataCryptoOk (G : SgxGcm) (rand : List UInt8) (blockSize : UInt32) (plain : Nat → UInt8) : Prop where
  round_trip : (decryptData G (asMem (encryptData G rand plain blockSize (encLen blockSize)).1) (encLen blockSize)
    blockSize).1 = bytesAt plain 0 blockSize.toNat
  encrypt_within : (encryptData G rand plain blockSize (encLen blockSize)).2.Within encBufLen
  decrypt_within : (decryptData G (asMem (encryptData G rand plain blockSize (encLen blockSize)).1) (encLen blockSize)
    blockSize).2.Within encBufLen

/-- Encryption and decryption of a block work, inside `p_dest`, exactly when the encrypted block fits into
`p_dest`. -/
theorem dataCrypto_iff (blockSize : UInt32) (plain : Nat → UInt8) :
    DataCryptoOk G rand blockSize plain ↔ blockSize.toNat + sgxAesgcmMacSize + sgxAesgcmIvSize ≤ encBufLen := by
  have hoff : cipherOffset = sgxAesgcmMacSize + sgxAesgcmIvSize := rfl
  have h28 : cipherOffset = 28 := rfl
  have hbuf : encBufLen = 2048 := rfl
  have hroom : cipherOffset ≤ encBufLen := by decide
  have hwithin := within_encryptData hG hrand plain blockSize (encLen blockSize) hroom
  constructor
  · intro h
    rcases (hwithin.mp h.encrypt_within).1 with h0 | hle
    · omega
    · omega
  · intro hfit
    have hlen : (encLen blockSize).toNat = cipherOffset + blockSize.toNat := toNat_encLen (by omega)
    refine ⟨decryptData_encryptData hG hrand plain hlen.ge, hwithin.mpr ⟨?_, ?_⟩, ?_⟩
    · exact Or.inr (by omega)
    · exact Or.inr (by omega)
    · rw [within_decryptData hG]
      exact Or.inr (by omega)

end Correct

/-- A cipher that leaves the bytes as they are, with a tag of zeros. -/
def SgxGcm.clear : SgxGcm where
  encrypt _ src := (src, List.replicate sgxAesgcmMacSize 0)
  decrypt _ src _ := (true, src)

theorem SgxGcm.clear_correct : SgxGcm.clear.Correct where
  undo _ _ := rfl
  encrypt_length _ _ := rfl
  mac_length _ _ := by simp [clear]
  decrypt_length _ _ _ := rfl

theorem dataCrypto_iff_1024 :
    (decryptData .clear (asMem (encryptData .clear (List.replicate 12 0) (fun _ => 7) 1024 (encLen 1024)).1)
      (encLen 1024) 1024).1 = bytesAt (fun _ => 7) 0 1024 := by
  have hrand : (List.replicate 12 (0 : UInt8)).length = sgxAesgcmIvSize := rfl
  exact ((dataCrypto_iff SgxGcm.clear_correct hrand 1024 fun _ => 7).mpr (by decide)).round_trip

/-- Blocks of 2048 bytes, and posting blocks of 8192 bytes, do not fit. -/
theorem dataCrypto_overflow :
    (¬ (encryptData .clear (List.replicate 12 0) (fun _ => 7) 2048 (encLen 2048)).2.Within encBufLen) ∧
      (¬ (decryptData .clear (fun _ => 7) (encLen 8192) 8192).2.Within encBufLen) ∧
      ¬ ∀ (blockSize : UInt32) (plain : Nat → UInt8), 0 < blockSize → blockSize % 8 = 0 →
        DataCryptoOk .clear (List.replicate 12 0) blockSize plain := by
  have henc : ¬ (encryptData .clear (List.replicate 12 0) (fun _ => 7) 2048 (encLen 2048)).2.Within encBufLen := by
    rw [within_encryptData SgxGcm.clear_correct rfl _ _ _ (by decide)]
    decide
  refine ⟨henc, ?_, fun h => henc (h 2048 (fun _ => 7) (by decide) (by decide)).encrypt_within⟩
  rw [within_decryptData SgxGcm.clear_correct]
  decide

/-! ## The cipher of the ORAM -/

/-- A block as memory. -/
def blockMem {bs : Nat} (block : Block bs) : Nat → UInt8 := fun a => if h : a < bs then block ⟨a, h⟩ else 0

/-- The calls on blocks of `bs` bytes. `rand n` are the bytes of the `n`-th draw. -/
def blockAead (G : SgxGcm) (rand : Nat → List UInt8) (bs : Nat) : Aead (Block bs) (List UInt8) where
  encrypt n block := (encryptData G (rand n) (blockMem block) (UInt32.ofNat bs) (encLen (UInt32.ofNat bs))).1
  decrypt c :=
    ((decryptCall G (asMem c) (UInt32.ofNat bs)).1,
      fun i => asMem (decryptData G (asMem c) (encLen (UInt32.ofNat bs)) (UInt32.ofNat bs)).1 i)

/-- On blocks that fit into `p_dest` decryption undoes encryption. -/
theorem blockAead_correct {G : SgxGcm} (hG : G.Correct) {rand : Nat → List UInt8}
    (hrand : ∀ n, (rand n).length = sgxAesgcmIvSize) {bs : Nat} (hfit : bs + cipherOffset ≤ encBufLen) :
    (blockAead G rand bs).Correct := by
  intro n block
  have hoff : cipherOffset = 28 := rfl
  have hbuf : encBufLen = 2048 := rfl
  have hbs : (UInt32.ofNat bs).toNat = bs := by
    rw [UInt32.toNat_ofNat']
    exact Nat.mod_eq_of_lt (by omega)
  have hlen : (encLen (UInt32.ofNat bs)).toNat = cipherOffset + (UInt32.ofNat bs).toNat := toNat_encLen (by omega)
  simp only [blockAead, decryptCall_encryptData hG (hrand n) (blockMem block) hlen.ge,
    decryptData_encryptData hG (hrand n) (blockMem block) hlen.ge]
  congr 1
  funext i
  rw [hbs]
  simp [asMem, bytesAt, blockMem]

end SgxOram.Bytes
