import SgxOram.Enclave.Client
import SgxOram.Lib.Loop

/-!
# The position map in the enclave as the machine code treats it (`Enclave/Enclave_ObliviousFunctions.cpp`)

`path_mm` and `*block_path` are 32-bit words, but the registers `r12`, `r13`, `r14` of the two loops have
64 bits: every `mov` between them and memory moves two words, while the index is scaled by one.

* `load64`, `store64` : eight bytes at a word address, the low word first;
* `obliviousPick32`, `obliviousPickAndSwap32` : the loops over `path_mm`;
* `obliviousPick32_eq`, `obliviousPickAndSwap32_eq` : what they do to memory;
* `positionMap_iff` : when the two calls treat one entry only;
* `exchangeMm` : the second call as an exchange of an entry with `*block_path`, for the accesses of the objects.

Memory is given as words: word `k` of `src` is `path_mm[k]` for `k < MAX_POS_MAP`, the next two are the
`path` field of `Client`; word 0 of `dest` is `*block_path`.
-/

namespace SgxOram.X86
open Lib

/-- `mov` of eight bytes from word `k` on into a register. -/
def load64 (mem : Nat → UInt32) (k : Nat) : UInt64 := UInt64.ofNat ((mem k).toNat + 2 ^ 32 * (mem (k + 1)).toNat)

/-- `mov` of a register to the eight bytes from word `k` on. -/
def store64 (mem : Nat → UInt32) (k : Nat) (reg : UInt64) : Nat → UInt32 :=
  Function.update (Function.update mem k (UInt32.ofNat (reg.toNat % 2 ^ 32))) (k + 1) (UInt32.ofNat (reg.toNat / 2 ^ 32))

/-! ## The loops -/

/-- One pass of `ObliviousPick32`, on the memory at `dest`. -/
def obliviousPick32Step (ind : Nat) (src dest : Nat → UInt32) (count : Nat) : Nat → UInt32 :=
  let r12 := load64 src count
  let r13 := load64 dest 0
  let r13 := if count = ind then r12 else r13
  store64 dest 0 r13

/-- `ObliviousPick32`. The loop tests its condition after the body. -/
def obliviousPick32 (ind : Nat) (src dest : Nat → UInt32) (len : Nat) : Nat → UInt32 :=
  (List.range (max len 1)).foldl (obliviousPick32Step ind src) dest

/-- The memory at `src` and at `dest`, and `r14`, which is written only when the index is met. -/
structure PickState where
  src : Nat → UInt32
  dest : Nat → UInt32
  r14 : UInt64

/-- One pass of `ObliviousPickAndSwap32`. -/
def obliviousPickAndSwap32Step (ind : Nat) (st : PickState) (count : Nat) : PickState :=
  let r12 := load64 st.src count
  let r13 := load64 st.dest 0
  let r14 := if count = ind then r13 else st.r14
  let r13 := if count = ind then r12 else r13
  let r12 := if count = ind then r14 else r12
  { src := store64 st.src count r12, dest := store64 st.dest 0 r13, r14 := r14 }

def obliviousPickAndSwap32 (ind : Nat) (st : PickState) (len : Nat) : PickState :=
  (List.range (max len 1)).foldl (obliviousPickAndSwap32Step ind) st

/-- `ecall_read_mm_in_client` : the memory at `block_path` afterwards. -/
def ecallReadMmInClient (ind : Nat) (pathMm blockPath : Nat → UInt32) : Nat → UInt32 :=
  obliviousPick32 ind pathMm blockPath maxPosMap

/-- `ecall_write_mm_in_client` : the memory at `path_mm` and at `block_path` afterwards. `r14` is what the
register held before. -/
def ecallWriteMmInClient (ind : Nat) (pathMm blockPath : Nat → UInt32) (r14 : UInt64) : PickState :=
  obliviousPickAndSwap32 ind ⟨pathMm, blockPath, r14⟩ maxPosMap

/-! ## What the loops do -/

theorem toNat_load64 (mem : Nat → UInt32) (k : Nat) :
    (load64 mem k).toNat = (mem k).toNat + 2 ^ 32 * (mem (k + 1)).toNat := by
  have h₀ := (mem k).toNat_lt
  have h₁ := (mem (k + 1)).toNat_lt
  rw [load64, UInt64.toNat_ofNat']
  exact Nat.mod_eq_of_lt (by omega)

/-- Storing what was loaded copies two words. -/
theorem store64_load64 (mem mem' : Nat → UInt32) (k l : Nat) :
    store64 mem k (load64 mem' l) = Function.update (Function.update mem k (mem' l)) (k + 1) (mem' (l + 1)) := by
  have h₀ := (mem' l).toNat_lt
  have hlow : (load64 mem' l).toNat % 2 ^ 32 = (mem' l).toNat := by
    rw [toNat_load64]
    omega
  have hhigh : (load64 mem' l).toNat / 2 ^ 32 = (mem' (l + 1)).toNat := by
    rw [toNat_load64]
    omega
  rw [store64, hlow, hhigh, UInt32.ofNat_toNat, UInt32.ofNat_toNat]

/-- Storing back what was loaded changes nothing. -/
theorem store64_load64_self (mem : Nat → UInt32) (k : Nat) : store64 mem k (load64 mem k) = mem := by
  rw [store64_load64, Function.update_eq_self, Function.update_eq_self]

/-- Copy the words `l`, `l + 1` of `mem'` over the words `k`, `k + 1` of `mem`. -/
def copyTwo (mem : Nat → UInt32) (k : Nat) (mem' : Nat → UInt32) (l : Nat) : Nat → UInt32 :=
  Function.update (Function.update mem k (mem' l)) (k + 1) (mem' (l + 1))

theorem obliviousPick32_eq {ind : Nat} {len : Nat} (hlt : ind < len) (src dest : Nat → UInt32) :
    obliviousPick32 ind src dest len = copyTwo dest 0 src ind := by
  have hskip : ∀ dest' count, count ≠ ind → obliviousPick32Step ind src dest' count = dest' := by
    intro dest' count hne
    simp only [obliviousPick32Step, if_neg hne]
    exact store64_load64_self dest' 0
  rw [obliviousPick32, foldl_only List.nodup_range (List.mem_range.mpr (show ind < max len 1 by omega)) hskip]
  simp only [obliviousPick32Step, if_true]
  exact store64_load64 dest src 0 ind

theorem obliviousPickAndSwap32_eq {ind : Nat} {len : Nat} (hlt : ind < len) (src dest : Nat → UInt32) (r14 : UInt64) :
    obliviousPickAndSwap32 ind ⟨src, dest, r14⟩ len =
      ⟨copyTwo src ind dest 0, copyTwo dest 0 src ind, load64 dest 0⟩ := by
  have hskip : ∀ st count, count ≠ ind → obliviousPickAndSwap32Step ind st count = st := by
    intro st count hne
    simp only [obliviousPickAndSwap32Step, if_neg hne]
    rw [store64_load64_self, store64_load64_self]
  rw [obliviousPickAndSwap32, foldl_only List.nodup_range (List.mem_range.mpr (show ind < max len 1 by omega)) hskip]
  simp only [obliviousPickAndSwap32Step, if_true]
  rw [store64_load64, store64_load64]
  rfl

/-- An index behind the loop's end is not met. -/
theorem obliviousPick32_idle {ind len : Nat} (hle : max len 1 ≤ ind) (src dest : Nat → UInt32) :
    obliviousPick32 ind src dest len = dest := by
  refine foldl_idle fun count hcount => ?_
  have hne : count ≠ ind := ((List.mem_range.mp hcount).trans_le hle).ne
  simp only [obliviousPick32Step, if_neg hne]
  exact store64_load64_self dest 0

theorem obliviousPickAndSwap32_idle {ind len : Nat} (hle : max len 1 ≤ ind) (st : PickState) :
    obliviousPickAndSwap32 ind st len = st := by
  refine foldl_idle fun count hcount => ?_
  have hne : count ≠ ind := ((List.mem_range.mp hcount).trans_le hle).ne
  simp only [obliviousPickAndSwap32Step, if_neg hne]
  rw [store64_load64_self, store64_load64_self]

/-! ## One entry only -/

/-- The position map as an array: `path_mm[ind]` and `*block_path` are exchanged, the rest stays. -/
def Exchanges (ind : Nat) (pathMm blockPath pathMm' blockPath' : Nat → UInt32) : Prop :=
  (pathMm' ind = blockPath 0 ∧ blockPath' 0 = pathMm ind) ∧
    (∀ k, k ≠ ind → pathMm' k = pathMm k) ∧ ∀ k, k ≠ 0 → blockPath' k = blockPath k

/-- Then the call does what its reference code says. -/
theorem Exchanges.reference {ind : Nat} {pathMm blockPath pathMm' blockPath' : Nat → UInt32}
    (h : Exchanges ind pathMm blockPath pathMm' blockPath') :
    pathMm' = (SgxOram.ecallWriteMmInClient ind (blockPath 0) pathMm).pathMm ∧
      blockPath' 0 = (SgxOram.ecallWriteMmInClient ind (blockPath 0) pathMm).blockPath := by
  refine ⟨?_, h.1.2⟩
  show pathMm' = Function.update pathMm ind (blockPath 0)
  funext k
  by_cases hk : k = ind
  · subst hk
    rw [h.1.1, Function.update_self]
  · rw [h.2.1 k hk, Function.update_of_ne hk]

/-- `*block_path` is set to `path_mm[ind]`, the rest stays. -/
def Picks (ind : Nat) (pathMm blockPath blockPath' : Nat → UInt32) : Prop :=
  blockPath' 0 = pathMm ind ∧ ∀ k, k ≠ 0 → blockPath' k = blockPath k

/-- Copying two words is copying one word exactly when the second words agree. -/
theorem copyTwo_keeps_iff (mem : Nat → UInt32) (k : Nat) (mem' : Nat → UInt32) (l : Nat) :
    (copyTwo mem k mem' l k = mem' l ∧ ∀ j, j ≠ k → copyTwo mem k mem' l j = mem j) ↔ mem (k + 1) = mem' (l + 1) := by
  constructor
  · intro h
    have hnext := h.2 (k + 1) (Nat.succ_ne_self k)
    rw [copyTwo, Function.update_self] at hnext
    exact hnext.symm
  · intro h
    refine ⟨by simp [copyTwo], fun j hj => ?_⟩
    by_cases hjk : j = k + 1
    · subst hjk
      rw [copyTwo, Function.update_self, h]
    · rw [copyTwo, Function.update_of_ne hjk, Function.update_of_ne hj]

/-- Writing and reading an entry leaves everything else alone exactly when the word after the entry is the
word after `*block_path`. -/
theorem positionMap_iff {ind : Nat} (hind : ind < maxPosMap) (pathMm blockPath : Nat → UInt32) (r14 : UInt64) :
    let st := ecallWriteMmInClient ind pathMm blockPath r14
    (Exchanges ind pathMm blockPath st.src st.dest ∧
        Picks ind pathMm blockPath (ecallReadMmInClient ind pathMm blockPath)) ↔
      pathMm (ind + 1) = blockPath 1 := by
  have hsrc := copyTwo_keeps_iff pathMm ind blockPath 0
  have hdest := copyTwo_keeps_iff blockPath 0 pathMm ind
  rw [ecallWriteMmInClient, obliviousPickAndSwap32_eq hind, ecallReadMmInClient, obliviousPick32_eq hind]
  constructor
  · intro h
    exact (hdest.mp h.2).symm
  · intro h
    obtain ⟨hs, hs'⟩ := hsrc.mpr h
    obtain ⟨hd, hd'⟩ := hdest.mpr h.symm
    exact ⟨⟨⟨hs, hd⟩, hs', hd'⟩, hd, hd'⟩

/-- An empty position map, and zeros behind `*block_path`. -/
theorem positionMap_iff_zero :
    Exchanges 19 (fun _ => 0) (fun k => if k = 0 then 5 else 0)
      (ecallWriteMmInClient 19 (fun _ => 0) (fun k => if k = 0 then 5 else 0) 0).src
      (ecallWriteMmInClient 19 (fun _ => 0) (fun k => if k = 0 then 5 else 0) 0).dest :=
  ((positionMap_iff (show 19 < maxPosMap by decide) (fun _ => 0) (fun k => if k = 0 then 5 else 0) 0).mpr rfl).1

/-- Writing entry 19 overwrites entry 20, and reading it overwrites the word behind `*block_path`. -/
theorem positionMap_neighbour :
    (ecallWriteMmInClient 19 (fun k => if k = 20 then 7 else 0) (fun k => if k = 0 then 5 else 0) 0).src 20 = 0 ∧
      ecallReadMmInClient 19 (fun k => if k = 20 then 7 else 0) (fun k => if k = 0 then 5 else 0) 1 = 7 ∧
      ¬ ∀ ind < maxPosMap, ∀ (pathMm blockPath : Nat → UInt32) (r14 : UInt64),
        Exchanges ind pathMm blockPath (ecallWriteMmInClient ind pathMm blockPath r14).src
            (ecallWriteMmInClient ind pathMm blockPath r14).dest ∧
          Picks ind pathMm blockPath (ecallReadMmInClient ind pathMm blockPath) := by
  have hlt : 19 < maxPosMap := by decide
  have hwrite : (ecallWriteMmInClient 19 (fun k => if k = 20 then 7 else 0) (fun k => if k = 0 then 5 else 0) 0).src 20 =
      0 := by
    rw [ecallWriteMmInClient, obliviousPickAndSwap32_eq hlt]
    rfl
  refine ⟨hwrite, ?_, fun h => ?_⟩
  · rw [ecallReadMmInClient, obliviousPick32_eq hlt]
    rfl
  · obtain ⟨⟨-, hrest, -⟩, -⟩ := h 19 hlt (fun k => if k = 20 then 7 else 0) (fun k => if k = 0 then 5 else 0) 0
    exact absurd (hwrite.symm.trans (hrest 20 (by decide))) (by decide)

/-! ## As an exchange of an entry -/

/-- What the machine code finds at a call: the words behind `*block_path`, the low word of `client->path`, and
`r14`. -/
structure Surroundings where
  behind : Nat → UInt32
  clientPath : UInt32
  r14 : UInt64

/-- `ecall_write_mm_in_client` by machine code. The word behind the last entry is the low word of
`client->path`. -/
def exchangeMm (m : Surroundings) : ExchangeMm := fun ind blockPath pathMm =>
  let st := ecallWriteMmInClient ind (Function.update pathMm maxPosMap m.clientPath)
    (Function.update m.behind 0 blockPath) m.r14
  { pathMm := fun k => if k < maxPosMap then st.src k else pathMm k
    blockPath := st.dest 0
    keepsPath := st.src maxPosMap == m.clientPath }

/-- The exchange of entry `ind` leaves `client->path` alone. -/
def Surroundings.Spares (m : Surroundings) (ind : Nat) : Prop := ind + 1 = maxPosMap → m.behind 1 = m.clientPath

instance (m : Surroundings) (ind : Nat) : Decidable (m.Spares ind) := by
  unfold Surroundings.Spares
  infer_instance

theorem exchangeMm_keepsPath {m : Surroundings} {ind : Nat} {blockPath : BlockPath} {pathMm : Nat → BlockPath} :
    (exchangeMm m ind blockPath pathMm).keepsPath ↔ m.Spares ind := by
  rw [exchangeMm, beq_iff_eq, Surroundings.Spares, ecallWriteMmInClient]
  rcases lt_or_ge ind maxPosMap with hlt | hge
  · rw [obliviousPickAndSwap32_eq hlt, copyTwo]
    by_cases hlast : ind + 1 = maxPosMap
    · simp [hlast]
    · simp [hlast, hlt.ne', Ne.symm hlast]
  · rw [obliviousPickAndSwap32_idle (max_le hge ((show 1 ≤ maxPosMap by decide).trans hge))]
    simp only [Function.update_self, true_iff]
    exact fun hlast => absurd hlast (by omega)

/-- The entry after the exchanged one gets the word behind `*block_path`. -/
theorem exchangeMm_of_lt (m : Surroundings) {ind : Nat} (hind : ind + 1 < maxPosMap) (blockPath : BlockPath)
    (pathMm : Nat → BlockPath) : exchangeMm m ind blockPath pathMm =
      ⟨Function.update (Function.update pathMm ind blockPath) (ind + 1) (m.behind 1), pathMm ind, true⟩ := by
  have hkeeps : (exchangeMm m ind blockPath pathMm).keepsPath = true :=
    exchangeMm_keepsPath.mpr fun hlast => absurd hlast hind.ne
  have hlt : ind < maxPosMap := by omega
  have hne : ind ≠ maxPosMap := hlt.ne
  rw [← hkeeps]
  simp only [exchangeMm, ecallWriteMmInClient, obliviousPickAndSwap32_eq hlt, copyTwo, ExchangedMm.mk.injEq, and_true,
    zero_add, Function.update_self, ne_eq, one_ne_zero, not_false_eq_true, Function.update_of_ne, zero_ne_one, hne]
  funext k
  split_ifs with hk
  · have hkne : k ≠ maxPosMap := hk.ne
    simp [Function.update_apply, hkne]
  · rw [Function.update_of_ne (by omega), Function.update_of_ne (by omega)]

/-- The exchange without the loop, but for the last entry. -/
theorem exchangeMm_eq_ite (m : Surroundings) : exchangeMm m = fun ind blockPath pathMm =>
    if ind + 1 < maxPosMap then
      ⟨Function.update (Function.update pathMm ind blockPath) (ind + 1) (m.behind 1), pathMm ind, true⟩
    else exchangeMm m ind blockPath pathMm := by
  funext ind blockPath pathMm
  split
  next hind => exact exchangeMm_of_lt m hind blockPath pathMm
  next => rfl

/-- The last entry has no entry after it. -/
theorem exchangeMm_last {m : Surroundings} {ind : Nat} (hind : ind + 1 = maxPosMap) (blockPath : BlockPath)
    (pathMm : Nat → BlockPath) : exchangeMm m ind blockPath pathMm =
      ⟨Function.update pathMm ind blockPath, pathMm ind, m.behind 1 == m.clientPath⟩ := by
  have hlt : ind < maxPosMap := by omega
  have hne : ind ≠ maxPosMap := hlt.ne
  simp only [exchangeMm, ecallWriteMmInClient, obliviousPickAndSwap32_eq hlt, copyTwo, ExchangedMm.mk.injEq,
    zero_add, Function.update_self, ne_eq, one_ne_zero, not_false_eq_true, Function.update_of_ne, zero_ne_one, hne]
  refine ⟨funext fun k => ?_, trivial, by rw [hind, Function.update_self]⟩
  split_ifs with hk
  · have hkne : k ≠ maxPosMap := hk.ne
    rw [hind, Function.update_of_ne hkne]
    simp [Function.update_apply, hkne]
  · rw [Function.update_of_ne (by omega)]

theorem exchangeMm_blockPath (m : Surroundings) {ind : Nat} (hind : ind < maxPosMap) (blockPath : BlockPath)
    (pathMm : Nat → BlockPath) : (exchangeMm m ind blockPath pathMm).blockPath = pathMm ind := by
  by_cases hlast : ind + 1 = maxPosMap
  · rw [exchangeMm_last hlast]
  · rw [exchangeMm_of_lt m (by omega)]

/-- No entry is exchanged behind the last one. -/
theorem exchangeMm_of_ge (m : Surroundings) {ind : Nat} (hind : maxPosMap ≤ ind) (blockPath : BlockPath)
    (pathMm : Nat → BlockPath) : exchangeMm m ind blockPath pathMm = ⟨pathMm, blockPath, true⟩ := by
  rw [exchangeMm, ecallWriteMmInClient,
    obliviousPickAndSwap32_idle (max_le hind ((show 1 ≤ maxPosMap by decide).trans hind))]
  simp only [ExchangedMm.mk.injEq, Function.update_self, beq_self_eq_true, and_true]
  funext k
  split_ifs with hk
  · exact Function.update_of_ne hk.ne _ _
  · rfl

/-- An exchange that leaves `client->path` alone depends on the word behind `*block_path` only. -/
theorem exchangeMm_congr {m m' : Surroundings} {ind : Nat} (hbehind : m'.behind 1 = m.behind 1) (h : m.Spares ind)
    (h' : m'.Spares ind) (blockPath : BlockPath) (pathMm : Nat → BlockPath) :
    exchangeMm m' ind blockPath pathMm = exchangeMm m ind blockPath pathMm := by
  rcases lt_trichotomy (ind + 1) maxPosMap with hlt | hlast | hgt
  · rw [exchangeMm_of_lt m' hlt, exchangeMm_of_lt m hlt, hbehind]
  · rw [exchangeMm_last hlast, exchangeMm_last hlast, h hlast, h' hlast]
    simp
  · rw [exchangeMm_of_ge m' (Nat.le_of_lt_succ hgt), exchangeMm_of_ge m (Nat.le_of_lt_succ hgt)]

end SgxOram.X86
