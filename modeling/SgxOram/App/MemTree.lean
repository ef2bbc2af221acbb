import SgxOram.Enclave.Client
import SgxOram.Lib.Loop

/-!
# The server's tree (`App/MemTree.cpp`, `PATH_ORAM` build)

* `BufferAddrs` : the block buffers that `calloc` gives to the trees;
* `initializeMemTree`, `freeMemTree` : a tree of empty nodes, and the buffers its nodes name;
* `memTreeFetchPathOram`, `memTreePutPathOram`, `memTreeFlushPathOram`.
-/

namespace SgxOram
open Lib

/-- `addr id n i` is the buffer that `calloc` returns for slot `i` of node `n` of tree `id`. No
buffer is returned twice. -/
structure BufferAddrs where
  addr : Nat → Nat → Fin blocksPerNode → Addr
  inj : ∀ {id id' n n' i i'}, addr id n i = addr id' n' i' → id = id' ∧ n = n' ∧ i = i'

/-- An allocator that numbers the buffers. -/
def BufferAddrs.numbered : BufferAddrs where
  addr id n i := Nat.pair id (Nat.pair n i.val)
  inj h := by
    obtain ⟨hid, h⟩ := Nat.pair_eq_pair.mp h
    obtain ⟨hn, hi⟩ := Nat.pair_eq_pair.mp h
    exact ⟨hid, hn, Fin.ext hi⟩

variable {bs : Nat} {N B : Type}

/-- `empty_node` with the buffers of one node. -/
def emptyNode (addrs : Fin blocksPerNode → Addr) : MemTreeNode := ⟨0, fun i => ⟨0, 0, addrs i, 0⟩⟩

/-- One pass of the loop over the nodes: `calloc` the buffers, encrypt the empty node. -/
def initializeNode (K : Cipher bs N B) (addrs : Nat → Fin blocksPerNode → Addr)
    (st : (Nat → N) × Host B) (n : Nat) : (Nat → N) × Host B :=
  let host := (List.finRange blocksPerNode).foldl
    (fun host i => { host with bufs := Function.update host.bufs (addrs n i) K.zeroBuffer }) st.2
  (Function.update st.1 n (encryptData K.node host.rand (emptyNode (addrs n))),
    { host with rand := host.rand + 1 })

/-- `InitializeMemTree`. `none` if `block_size` is not a multiple of 8. -/
def initializeMemTree (K : Cipher bs N B) (A : BufferAddrs) (treeId height : Nat) (host : Host B) :
    Option (MemTree N × Host B) :=
  if bs % 8 = 0 then
    let st := (List.range (2 ^ height)).foldl (initializeNode K (A.addr treeId))
      (fun _ => K.zeroEncNode, host)
    some (⟨treeId, height, st.1⟩, st.2)
  else none

/-- The buffers that `FreeMemTree` frees, in order. -/
def freeMemTree (K : Cipher bs N B) (t : MemTree N) : List Addr :=
  (List.range (2 ^ t.height)).flatMap fun n =>
    (List.finRange blocksPerNode).map fun i => ((decryptData K.node (t.nodes n)).slots i).blockContent

/-- What `MemTreeFetch_PathORAM` leaves behind; `succ` is a local of the ecall. -/
structure Fetched (bs : Nat) (B : Type) where
  world : World bs B
  fetchedBlock : Block bs
  encryptedContentPtr : Addr
  succ : Bool

def memTreeFetchPathOram (K : Cipher bs N B) (t : MemTree N) (blockPath : BlockPath)
    (blockKey : BlockKey) (encryptedContentPtr : Addr) (w : World bs B) : Option (Fetched bs B) := do
  let w ← ecallDownloadPathToEnclaveClientPathOram K t blockPath w
  let r := ecallObliviousFetch true blockKey encryptedContentPtr w.client
  return ⟨{ w with client := r.client }, r.fetchedBlock, r.encryptedContentPtr, r.succ⟩

/-- `MemTreePut_PathORAM`; the holder and `*root_load` are not read by its callers. -/
def memTreePutPathOram (blockPath : BlockPath) (blockKey : BlockKey) (blockContent : Block bs)
    (encryptedContentPtr : Addr) (w : World bs B) : Option (World bs B) := do
  let r ← ecallObliviousPutToStashPathOram blockPath blockKey encryptedContentPtr blockContent w.client
  return { w with client := r.client }

def memTreeFlushPathOram (K : Cipher bs N B) (t : MemTree N) (randPath : BlockPath) (w : World bs B) :
    MemTree N × World bs B :=
  ecallEvictPathOutsideEnclavePathOram K t randPath w

/-! ## A fresh tree -/

theorem initializeNodes_spec {K : Cipher bs N B} (hK : K.Correct)
    (addrs : Nat → Fin blocksPerNode → Addr) (st : (Nat → N) × Host B) (count : Nat) :
    ∀ n < count, decryptData K.node (((List.range count).foldl (initializeNode K addrs) st).1 n) =
      emptyNode (addrs n) := by
  induction count with
  | zero => exact fun n hn => absurd hn (Nat.not_lt_zero n)
  | succ count ih =>
    intro n hn
    rw [List.range_succ, List.foldl_append, List.foldl_cons, List.foldl_nil]
    by_cases hnc : n = count
    · subst hnc
      simp only [initializeNode, Function.update_self]
      rw [decryptData, encryptData, hK.node]
    · simp only [initializeNode, Function.update_of_ne hnc]
      exact ih n (by omega)

/-- A fresh tree decrypts to empty nodes that name the tree's buffers. -/
theorem initializeMemTree_spec {K : Cipher bs N B} (hK : K.Correct) {A : BufferAddrs}
    {treeId height : Nat} {host host' : Host B} {t : MemTree N}
    (hrun : initializeMemTree K A treeId height host = some (t, host')) :
    8 ∣ bs ∧ t.treeId = treeId ∧ t.height = height ∧
      ∀ n < 2 ^ height, decryptData K.node (t.nodes n) = emptyNode (A.addr treeId n) := by
  simp only [initializeMemTree, Option.ite_none_right_eq_some, Option.some.injEq, Prod.mk.injEq] at hrun
  obtain ⟨h8, rfl, -⟩ := hrun
  exact ⟨Nat.dvd_of_mod_eq_zero h8, rfl, rfl, initializeNodes_spec hK _ _ _⟩

/-- Only the buffers of the new tree are touched, and no access of the enclave is made. -/
theorem initializeMemTree_frame {K : Cipher bs N B} {A : BufferAddrs} {treeId height : Nat}
    {host host' : Host B} {t : MemTree N} (hrun : initializeMemTree K A treeId height host = some (t, host')) :
    host'.trace = host.trace ∧ host'.fetched = host.fetched ∧
      ∀ id n i, id ≠ treeId → host'.bufs (A.addr id n i) = host.bufs (A.addr id n i) := by
  simp only [initializeMemTree, Option.ite_none_right_eq_some, Option.some.injEq, Prod.mk.injEq] at hrun
  obtain ⟨-, -, rfl⟩ := hrun
  refine foldl_inv (P := fun _ (st : (Nat → N) × Host B) => st.2.trace = host.trace ∧ st.2.fetched = host.fetched ∧
    ∀ id n i, id ≠ treeId → st.2.bufs (A.addr id n i) = host.bufs (A.addr id n i)) _ _
    ⟨rfl, rfl, fun _ _ _ _ => rfl⟩ ?_
  rintro done m st - hst
  refine foldl_inv (P := fun _ (h : Host B) => h.trace = host.trace ∧ h.fetched = host.fetched ∧
    ∀ id n i, id ≠ treeId → h.bufs (A.addr id n i) = host.bufs (A.addr id n i)) (List.finRange blocksPerNode)
    st.2 hst ?_
  rintro slots j h - ⟨htrace, hfetched, hbufs⟩
  refine ⟨htrace, hfetched, fun id n i hid => ?_⟩
  have hne : A.addr id n i ≠ A.addr treeId m j := fun e => hid (A.inj e).1
  simp only [Function.update_of_ne hne]
  exact hbufs id n i hid

end SgxOram
