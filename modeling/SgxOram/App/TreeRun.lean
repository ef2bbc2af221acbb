import SgxOram.App.TreeInv

/-!
# Runs of accesses to one tree

An access fetches a key along a path, puts it back under a new path and evicts along the path it
fetched from; a run is `Legal` if every fetch goes along the path of the key's last put.

* `lastPuts` : what a store of the puts should hold;
* `run_inv` : the tree holds `lastPuts` after every run;
* `placement` : every key put is in exactly one slot, on its path;
* `truthful` : counters and slot flags after every single ecall.
-/

namespace SgxOram
open Lib Finset

variable {bs : Nat} {N B : Type}

/-- `MemTreeFetch_PathORAM(path, key)`, `MemTreePut_PathORAM(newPath, key, content)`,
`MemTreeFlush_PathORAM(path)`; `encryptedContentPtr` is what the caller's holder contains. -/
structure TreeAccess (bs : Nat) where
  path : BlockPath
  key : BlockKey
  newPath : BlockPath
  content : Block bs
  encryptedContentPtr : Addr

/-- The tree, the client with the host's memory, and the caller's holder. -/
structure TreeState (bs : Nat) (N B : Type) where
  tree : MemTree N
  world : World bs B
  encryptedContentPtr : Addr

/-- `ecall_init_client` and `InitializeMemTree`. -/
def startTree (K : Cipher bs N B) (A : BufferAddrs) (treeId height : Nat) (host : Host B) :
    Option (TreeState bs N B) := do
  let c ← ecallInitClient bs height
  let (t, host) ← initializeMemTree K A treeId height host
  return ⟨t, ⟨c, host⟩, 0⟩

def accessTree (K : Cipher bs N B) (s : TreeState bs N B) (a : TreeAccess bs) : Option (TreeState bs N B) := do
  let r ← memTreeFetchPathOram K s.tree a.path a.key a.encryptedContentPtr s.world
  let w ← memTreePutPathOram a.newPath a.key a.content r.encryptedContentPtr r.world
  let (t, w) := memTreeFlushPathOram K s.tree a.path w
  return ⟨t, w, r.encryptedContentPtr⟩

/-- The last put of every key. -/
def lastPuts (as : List (TreeAccess bs)) : BlockKey → Option (BlockPath × Block bs) :=
  as.foldl (fun M a => Function.update M a.key (some (a.newPath, a.content))) fun _ => none

/-- Keys are nonzero and every fetch goes along the path of the key's last put. -/
def Legal (as : List (TreeAccess bs)) : Prop :=
  ∀ done a, done ++ [a] <+: as → a.key ≠ 0 ∧ ∀ v, lastPuts done a.key = some v → v.1 = a.path

theorem lastPuts_append (as : List (TreeAccess bs)) (a : TreeAccess bs) :
    lastPuts (as ++ [a]) = Function.update (lastPuts as) a.key (some (a.newPath, a.content)) := by
  simp [lastPuts]

theorem lastPuts_keysIn (as : List (TreeAccess bs)) :
    KeysIn (lastPuts as) (as.map TreeAccess.key).toFinset := by
  induction as using List.reverseRecOn with
  | nil => exact fun k v hk => by cases hk
  | append_singleton as a ih =>
    intro k v hk
    rw [lastPuts_append] at hk
    by_cases hka : k = a.key
    · simp [hka]
    · rw [Function.update_of_ne hka] at hk
      have := ih k v hk
      simp only [List.mem_toFinset, List.map_append, List.mem_append] at this ⊢
      exact Or.inl this

theorem Legal.initial {as done : List (TreeAccess bs)} (h : Legal as) (hpre : done <+: as) : Legal done :=
  fun l a hl => h l a (hl.trans hpre)

/-! ## One access -/

variable {K : Cipher bs N B} {A : BufferAddrs} {M : BlockKey → Option (BlockPath × Block bs)}

theorem startTree_inv (hK : K.Correct) {treeId height : Nat} {host : Host B} {s : TreeState bs N B}
    (hstart : startTree K A treeId height host = some s) :
    8 ∣ bs ∧ s.tree.height = height ∧ TreeInv K A s.tree s.world ∅ fun _ => none := by
  simp only [startTree, Option.bind_eq_bind, Option.bind_eq_some_iff, Option.pure_def,
    Option.some.injEq] at hstart
  obtain ⟨c, hc, ⟨t, host'⟩, ht, rfl⟩ := hstart
  obtain ⟨hlt, hstash, hzero, hsubs, -⟩ := ecallInitClient_spec hc
  obtain ⟨h8, -, hheight, -⟩ := initializeMemTree_spec hK ht
  obtain ⟨htree, hbag⟩ := initializeMemTree_wf hK ht host'.bufs
  refine ⟨h8, hheight, { height := hheight ▸ hlt, tree := htree, stash := hstash, holds := ?_, subs := by simp [hsubs] }⟩
  rw [Holds, hbag, hzero]
  exact represents_zero

theorem startTree_completes (K : Cipher bs N B) (A : BufferAddrs) (h8 : bs % 8 = 0) (treeId height : Nat)
    (hh : height < clientMaxPath) (host : Host B) :
    ∃ s, startTree K A treeId height host = some s := by
  simp [startTree, ecallInitClient, initializeMemTree, h8, hh]

theorem accessTree_eq_some {s s' : TreeState bs N B} {a : TreeAccess bs} :
    accessTree K s a = some s' ↔
      ∃ r w, memTreeFetchPathOram K s.tree a.path a.key a.encryptedContentPtr s.world = some r ∧
        memTreePutPathOram a.newPath a.key a.content r.encryptedContentPtr r.world = some w ∧
        s' = ⟨(memTreeFlushPathOram K s.tree a.path w).1, (memTreeFlushPathOram K s.tree a.path w).2,
          r.encryptedContentPtr⟩ := by
  simp only [accessTree, Option.bind_eq_bind, Option.bind_eq_some_iff, Option.pure_def, Option.some.injEq]
  constructor
  · rintro ⟨r, hr, w, hw, rfl⟩
    exact ⟨r, w, hr, hw, rfl⟩
  · rintro ⟨r, w, hr, hw, rfl⟩
    exact ⟨r, hr, w, hw, rfl⟩

/-- An access rebinds its key. -/
theorem access_inv (h8 : 8 ∣ bs) (hK : K.Correct) {s s' : TreeState bs N B} {a : TreeAccess bs}
    (hinv : TreeInv K A s.tree s.world ∅ M) (hkey : a.key ≠ 0) (hpath : ∀ v, M a.key = some v → v.1 = a.path)
    (hrun : accessTree K s a = some s') :
    TreeInv K A s'.tree s'.world ∅ (Function.update M a.key (some (a.newPath, a.content))) := by
  obtain ⟨r, w, hfetch, hput, rfl⟩ := accessTree_eq_some.mp hrun
  obtain ⟨hon, -⟩ := hinv.memTreeFetch h8 hpath hfetch
  obtain ⟨hon', -⟩ := hon.memTreePut h8 hkey (Function.update_self _ _ _) hput
  rw [Function.update_idem] at hon'
  exact (hon'.evict h8 hK).1

theorem access_completes (h8 : 8 ∣ bs) {s : TreeState bs N B} {a : TreeAccess bs}
    (hinv : TreeInv K A s.tree s.world ∅ M) (hkey : a.key ≠ 0) (hpath : ∀ v, M a.key = some v → v.1 = a.path)
    (keys : Finset BlockKey) (hkeys : KeysIn M keys) (hmem : a.key ∈ keys)
    (hfit : keys.card ≤ clientMaxPath * blocksPerNode) : ∃ s', accessTree K s a = some s' := by
  obtain ⟨r, hfetch⟩ := hinv.memTreeFetch_completes h8 hkeys hfit a.path a.key a.encryptedContentPtr
  obtain ⟨hon, -⟩ := hinv.memTreeFetch h8 hpath hfetch
  obtain ⟨w, hput⟩ := hon.memTreePut_completes h8 hkey (Function.update_self _ _ _) hkeys.update hmem hfit
    a.newPath a.content r.encryptedContentPtr
  exact ⟨_, accessTree_eq_some.mpr ⟨r, w, hfetch, hput, rfl⟩⟩

/-! ## Runs -/

/-- After a legal run stash and tree hold the last put of every key. -/
theorem run_inv (h8 : 8 ∣ bs) (hK : K.Correct) {s₀ s : TreeState bs N B} {as : List (TreeAccess bs)}
    (h₀ : TreeInv K A s₀.tree s₀.world ∅ fun _ => none) (hlegal : Legal as)
    (hrun : as.foldlM (accessTree K) s₀ = some s) : TreeInv K A s.tree s.world ∅ (lastPuts as) := by
  refine foldlM_inv (P := fun done s => TreeInv K A s.tree s.world ∅ (lastPuts done)) as s₀ s h₀
    (fun done a u v hpre hu hv => ?_) hrun
  obtain ⟨hkey, hpath⟩ := hlegal done a hpre
  rw [lastPuts_append]
  exact access_inv h8 hK hu hkey hpath hv

/-- A legal run of at most as many accesses as the stash has slots completes. -/
theorem run_completes (h8 : 8 ∣ bs) (hK : K.Correct) {s₀ : TreeState bs N B} {as : List (TreeAccess bs)}
    (h₀ : TreeInv K A s₀.tree s₀.world ∅ fun _ => none) (hlegal : Legal as)
    (hfit : as.length ≤ clientMaxPath * blocksPerNode) : ∃ s, as.foldlM (accessTree K) s₀ = some s := by
  refine foldlM_completes as s₀ fun done a s hpre hrun => ?_
  obtain ⟨hkey, hpath⟩ := hlegal done a hpre
  have hinv := run_inv h8 hK h₀ (hlegal.initial ((List.prefix_append done [a]).trans hpre)) hrun
  refine access_completes h8 hinv hkey hpath ((done ++ [a]).map TreeAccess.key).toFinset
    (fun k v hk => ?_) (by simp) ?_
  · have := lastPuts_keysIn done k v hk
    simp only [List.mem_toFinset, List.map_append, List.mem_append] at this ⊢
    exact Or.inl this
  · refine (List.toFinset_card_le _).trans ?_
    rw [List.length_map]
    exact hpre.length_le.trans hfit

/-! ## Placement -/

/-- A slot of the stash or of a tree node. -/
abbrev Place (t : MemTree N) := Fin clientMaxPath × Fin blocksPerNode ⊕ Fin (2 ^ t.height) × Fin blocksPerNode

/-- The block in a slot, as it decrypts. -/
def blockAt (K : Cipher bs N B) (s : TreeState bs N B) : Place s.tree → Option (Blk bs)
  | .inl (r, i) => (s.world.client.path r).blk i
  | .inr (n, i) => (nodeRow K s.tree s.world.host.bufs n).blk i

theorem bag_blockAt (K : Cipher bs N B) (s : TreeState bs N B) :
    Lib.bag (blockAt K s) = stashBag s.world.client.path + treeBag K s.tree s.world.host.bufs ∅ := by
  rw [Lib.bag, Fintype.sum_sum_type, Fintype.sum_prod_type, Fintype.sum_prod_type, stashBag, treeBag,
    sdiff_empty, ← Fin.sum_univ_eq_sum_range (fun r => (s.world.client.path r).bag),
    ← Fin.sum_univ_eq_sum_range (fun n => (nodeRow K s.tree s.world.host.bufs n).bag)]
  rfl

/-- Every key that was put is in exactly one slot, under the path of its last put, and in the tree
only in a node of that path; a key that was not put is nowhere. -/
theorem placement (hK : K.Correct) {treeId height : Nat} {host : Host B} {s₀ s : TreeState bs N B}
    (hstart : startTree K A treeId height host = some s₀) {as : List (TreeAccess bs)} (hlegal : Legal as)
    (hrun : as.foldlM (accessTree K) s₀ = some s) :
    (∀ k v, lastPuts as k = some v →
      (∃! place, ∃ b, blockAt K s place = some b ∧ b.key = k) ∧
        ∀ place b, blockAt K s place = some b → b.key = k → b.path = v.1 ∧
          ∀ n i, place = .inr (n, i) → n.val = nodeAddr v.1.toNat (Nat.log2 (n.val + 1))) ∧
      ∀ k, lastPuts as k = none → ∀ place b, blockAt K s place = some b → b.key ≠ k := by
  obtain ⟨h8, -, h₀⟩ := startTree_inv hK hstart
  have hinv := run_inv h8 hK h₀ hlegal hrun
  have hholds := hinv.holds
  rw [Holds, ← bag_blockAt] at hholds
  have hmem : ∀ {place b}, blockAt K s place = some b → b ∈ Lib.bag (blockAt K s) := fun h =>
    mem_bag.mpr ⟨_, h⟩
  refine ⟨fun k v hk => ⟨?_, fun place b hb hbk => ?_⟩, fun k hk place b hb =>
    hholds.not_mem hk b (hmem hb)⟩
  · obtain ⟨b, hb, rfl, -⟩ := hholds.exists_mem hk
    obtain ⟨place, hplace⟩ := mem_bag.mp hb
    refine ⟨place, ⟨b, hplace, rfl⟩, ?_⟩
    rintro other ⟨b', hother, hkey⟩
    exact bag_key_inj hholds.1 hother hplace hkey
  · have hv : b.val = v := by
      have := hholds.mem (hmem hb)
      rw [hbk, hk] at this
      exact (Option.some.inj this).symm
    subst hv
    refine ⟨rfl, ?_⟩
    rintro n i rfl
    obtain ⟨h, -, hn⟩ := hinv.tree.placed n n.isLt b (Row.mem_bag.mpr ⟨i, hb⟩)
    rw [hn, log2_nodeAddr]
    rfl

/-- Two accesses to one key in a tree of height two. -/
def twoAccesses : List (TreeAccess 8) :=
  [⟨5, 1, 6, fun _ => 7, 0⟩, ⟨6, 1, 3, fun _ => 9, 0⟩]

theorem twoAccesses_legal : Legal twoAccesses := by
  intro done a hpre
  have hcases : (done = [] ∧ a = ⟨5, 1, 6, fun _ => 7, 0⟩) ∨
      (done = [⟨5, 1, 6, fun _ => 7, 0⟩] ∧ a = ⟨6, 1, 3, fun _ => 9, 0⟩) := by
    rcases done with - | ⟨b, - | ⟨c, l⟩⟩
    · simp [twoAccesses] at hpre
      exact Or.inl ⟨rfl, hpre⟩
    · simp [twoAccesses] at hpre
      exact Or.inr ⟨by rw [hpre.1], hpre.2⟩
    · have := hpre.length_le
      simp [twoAccesses] at this
  rcases hcases with ⟨rfl, rfl⟩ | ⟨rfl, rfl⟩
  · exact ⟨by decide, fun v hv => by cases hv⟩
  · refine ⟨by decide, fun v hv => ?_⟩
    cases hv
    rfl

theorem placement_twoAccesses : ∃ s₀ s,
    startTree (Cipher.pairing 8) BufferAddrs.numbered 1 2 (.filled none) = some s₀ ∧
      twoAccesses.foldlM (accessTree (Cipher.pairing 8)) s₀ = some s ∧
      ∃! place, ∃ b, blockAt (Cipher.pairing 8) s place = some b ∧ b.key = 1 := by
  have hK := Cipher.pairing_correct 8
  obtain ⟨s₀, hstart⟩ := startTree_completes (Cipher.pairing 8) BufferAddrs.numbered rfl 1 2
    (by decide) (.filled none)
  obtain ⟨h8, -, h₀⟩ := startTree_inv hK hstart
  obtain ⟨s, hrun⟩ := run_completes h8 hK h₀ twoAccesses_legal (by decide)
  exact ⟨s₀, s, hstart, hrun, ((placement hK hstart twoAccesses_legal hrun).1 1 (3, fun _ => 9) rfl).1⟩

/-! ## Every single ecall -/

inductive Ecall (bs : Nat)
  | download (path : BlockPath)
  | fetch (key : BlockKey) (encryptedContentPtr : Addr)
  | put (path : BlockPath) (key : BlockKey) (content : Block bs)
  | evict (path : BlockPath)

def ecallStep (K : Cipher bs N B) (s : TreeState bs N B) : Ecall bs → Option (TreeState bs N B)
  | .download path =>
    (ecallDownloadPathToEnclaveClientPathOram K s.tree path s.world).map fun w => { s with world := w }
  | .fetch key ptr =>
    let r := ecallObliviousFetch true key ptr s.world.client
    some { s with world := { s.world with client := r.client }, encryptedContentPtr := r.encryptedContentPtr }
  | .put path key content =>
    (ecallObliviousPutToStashPathOram path key s.encryptedContentPtr content s.world.client).map fun r =>
      { s with world := { s.world with client := r.client } }
  | .evict path =>
    let r := ecallEvictPathOutsideEnclavePathOram K s.tree path s.world
    some { s with tree := r.1, world := r.2 }

/-- The ecalls of an access. -/
def TreeAccess.ecalls (a : TreeAccess bs) : List (Ecall bs) :=
  [.download a.path, .fetch a.key a.encryptedContentPtr, .put a.newPath a.key a.content, .evict a.path]

theorem accessTree_eq_ecalls (K : Cipher bs N B) (s : TreeState bs N B) (a : TreeAccess bs) :
    accessTree K s a = a.ecalls.foldlM (ecallStep K) s := by
  simp only [accessTree, memTreeFetchPathOram, memTreePutPathOram, memTreeFlushPathOram,
    TreeAccess.ecalls, List.foldlM_cons, List.foldlM_nil, ecallStep]
  cases ecallDownloadPathToEnclaveClientPathOram K s.tree a.path s.world with
  | none => rfl
  | some w =>
    simp only [Option.map_some, Option.bind_eq_bind, Option.bind_some, Option.pure_def]
    generalize ecallObliviousFetch true a.key a.encryptedContentPtr w.client = r
    cases ecallObliviousPutToStashPathOram a.newPath a.key r.encryptedContentPtr a.content r.client <;> rfl

theorem foldlM_ecalls (K : Cipher bs N B) (s : TreeState bs N B) (as : List (TreeAccess bs)) :
    (as.flatMap TreeAccess.ecalls).foldlM (ecallStep K) s = as.foldlM (accessTree K) s := by
  rw [foldlM_flatMap]
  congr
  funext s a
  exact (accessTree_eq_ecalls K s a).symm

/-- The number of present slots of a node. -/
def MemTreeNode.present (n : MemTreeNode) : Nat := (univ.filter fun i => (n.slots i).presenceBit ≠ 0).card

/-- The flags and the counter of a node tell the truth. -/
structure MemTreeNode.Truthful (n : MemTreeNode) : Prop where
  bit : ∀ i, (n.slots i).presenceBit = 0 ∨ (n.slots i).presenceBit = 1
  count : n.numBlocks.toNat = n.present
  count_le : n.numBlocks.toNat ≤ blocksPerNode
  key_ne_zero : ∀ i, (n.slots i).presenceBit ≠ 0 → (n.slots i).blockKey ≠ 0

/-- The counters and the slot flags of the stash and of the tree tell the truth, and no counter was
zero when one was subtracted from it. -/
structure TreeState.Truthful (K : Cipher bs N B) (s : TreeState bs N B) : Prop where
  stash : ∀ r < clientMaxPath, (s.world.client.path r).node.Truthful
  tree : ∀ n < 2 ^ s.tree.height, (decryptData K.node (s.tree.nodes n)).Truthful
  stashLoad : s.world.client.stashLoad.toNat =
    ∑ r ∈ range clientMaxPath, (s.world.client.path r).node.numBlocks.toNat
  empty_key : ∀ n < 2 ^ s.tree.height, ∀ i,
    ((decryptData K.node (s.tree.nodes n)).slots i).presenceBit = 0 →
      ((decryptData K.node (s.tree.nodes n)).slots i).blockKey = 0
  subs : ∀ n ∈ s.world.client.subs, n ≠ 0

theorem Row.Wf.truthful {r : Row bs} (h : r.Wf) : r.node.Truthful where
  bit := h.bit
  count := by rw [h.count, r.card_bag, MemTreeNode.present]
  count_le := Row.Counts.numBlocks_le h.count
  key_ne_zero := h.key_ne_zero

theorem TreeInv.truthful {s : TreeState bs N B} {off : Finset Nat} (h : TreeInv K A s.tree s.world off M) :
    s.Truthful K where
  stash r hr := (h.stash.rows r hr).truthful
  tree n hn := (h.tree.wf n hn).truthful
  stashLoad := by
    rw [h.stash.load, card_stashBag]
    exact sum_congr rfl fun r hr => ((h.stash.rows r (mem_range.mp hr)).count).symm
  empty_key n hn := h.tree.clear n hn
  subs := h.subs

/-- After any part of an access. -/
theorem ecalls_truthful (h8 : 8 ∣ bs) (hK : K.Correct) {s s' : TreeState bs N B} {a : TreeAccess bs}
    (hinv : TreeInv K A s.tree s.world ∅ M) (hkey : a.key ≠ 0) (hpath : ∀ v, M a.key = some v → v.1 = a.path)
    {es : List (Ecall bs)} (hes : es <+: a.ecalls) (hrun : es.foldlM (ecallStep K) s = some s') :
    s'.Truthful K := by
  obtain ⟨n, hn, rfl⟩ : ∃ n ≤ 4, es = a.ecalls.take n :=
    ⟨es.length, hes.length_le, List.prefix_iff_eq_take.mp hes⟩
  cases n with
  | zero =>
    cases hrun
    exact hinv.truthful
  | succ n =>
    simp only [TreeAccess.ecalls, List.take_succ_cons, List.foldlM_cons, Option.bind_eq_bind,
      Option.bind_eq_some_iff, ecallStep, Option.map_eq_some_iff] at hrun
    obtain ⟨s₁, ⟨w, hdown, rfl⟩, hrun⟩ := hrun
    obtain ⟨hon, -⟩ := hinv.download h8 hdown
    obtain ⟨c, ptr, hfetch, hon₂, -⟩ := hon.fetch h8 hpath a.encryptedContentPtr
    cases n with
    | zero =>
      cases hrun
      exact hon.truthful
    | succ n =>
      simp only [List.take_succ_cons, List.foldlM_cons, Option.bind_eq_bind, ecallStep, hfetch,
        Option.bind_some] at hrun
      cases n with
      | zero =>
        cases hrun
        exact hon₂.truthful
      | succ n =>
        simp only [List.take_succ_cons, List.foldlM_cons, Option.bind_eq_bind, Option.bind_eq_some_iff,
          ecallStep, Option.map_eq_some_iff] at hrun
        obtain ⟨s₃, ⟨r, hput, rfl⟩, hrun⟩ := hrun
        obtain ⟨hon₃, -⟩ := hon₂.put h8 hkey (Function.update_self _ _ _) hput
        cases n with
        | zero =>
          cases hrun
          exact hon₃.truthful
        | succ n =>
          obtain rfl : n = 0 := by omega
          cases hrun
          exact (hon₃.evict h8 hK).1.truthful

/-- Counters and slot flags stay truthful after every single ecall of a run. -/
theorem counters_truthful (hK : K.Correct) {treeId height : Nat} {host : Host B} {s₀ s : TreeState bs N B}
    (hstart : startTree K A treeId height host = some s₀) {as : List (TreeAccess bs)} (hlegal : Legal as)
    {es : List (Ecall bs)} (hes : es <+: as.flatMap TreeAccess.ecalls)
    (hrun : es.foldlM (ecallStep K) s₀ = some s) : s.Truthful K := by
  obtain ⟨h8, -, h₀⟩ := startTree_inv hK hstart
  rcases prefix_flatMap hes with rfl | ⟨done, a, es', hdone, hes', rfl⟩
  · rw [foldlM_ecalls] at hrun
    exact (run_inv h8 hK h₀ hlegal hrun).truthful
  · obtain ⟨s₁, hrun₁, hrun₂⟩ := foldlM_append_eq_some.mp hrun
    rw [foldlM_ecalls] at hrun₁
    obtain ⟨hkey, hpath⟩ := hlegal done a hdone
    have hpre := (List.prefix_append done [a]).trans hdone
    exact ecalls_truthful h8 hK (run_inv h8 hK h₀ (hlegal.initial hpre) hrun₁) hkey hpath hes' hrun₂

theorem counters_truthful_twoAccesses : ∃ s₀ s,
    startTree (Cipher.pairing 8) BufferAddrs.numbered 1 2 (.filled none) = some s₀ ∧
      (twoAccesses.flatMap TreeAccess.ecalls).foldlM (ecallStep (Cipher.pairing 8)) s₀ = some s ∧
      s.Truthful (Cipher.pairing 8) := by
  have hK := Cipher.pairing_correct 8
  obtain ⟨s₀, hstart⟩ := startTree_completes (Cipher.pairing 8) BufferAddrs.numbered rfl 1 2
    (by decide) (.filled none)
  obtain ⟨h8, -, h₀⟩ := startTree_inv hK hstart
  obtain ⟨s, hrun⟩ := run_completes h8 hK h₀ twoAccesses_legal (by decide)
  have hecalls : (twoAccesses.flatMap TreeAccess.ecalls).foldlM (ecallStep (Cipher.pairing 8)) s₀ = some s := by
    rw [foldlM_ecalls, hrun]
  exact ⟨s₀, s, hstart, hecalls, counters_truthful hK hstart twoAccesses_legal (List.prefix_refl _) hecalls⟩

end SgxOram
