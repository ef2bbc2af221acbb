import SgxOram.App.PathOramArray

/-!
# The fresh tree put back

The enclave keeps nothing by which it could tell an old ciphertext of a node from the last one. The host puts the nodes
back that `InitializeMemTree` has made.

* `ArrayStore.keep` : the entries whose blocks lie in the stash, and zeros for the others;
* `BaseInv.reset` : the object is then as good as one that holds these;
* `rollback_undetected` : every later run goes on with them, and in a small object no assert fails.
-/

namespace SgxOram
open Lib

variable {bs : Nat} {N B : Type} {K : Cipher bs N B} {A : BufferAddrs} {sz : BlockSize bs} {capacity : Nat}

/-- Entry `ind` has a block in the stash. -/
def InStash (c : Client bs) (ind : Nat) : Prop := ∃ b ∈ stashBag c.path, b.key = keyOf ind

instance (c : Client bs) (ind : Nat) : Decidable (InStash c ind) := Multiset.decidableExistsMultiset

/-- The entries in the stash of `c`. -/
def ArrayStore.keep (a : ArrayStore) (c : Client bs) : ArrayStore := fun ind j => if InStash c ind then a ind j else 0

theorem ArrayStore.keep_holds (a : ArrayStore) (c : Client bs) {ind : Nat} {b : Block bs} (h : a.Holds ind b)
    (hin : InStash c ind) : (a.keep c).Holds ind b := fun j hj => by
  rw [h j hj, ArrayStore.keep, if_pos hin]

theorem ArrayStore.keep_holds_zero (a : ArrayStore) (c : Client bs) {ind : Nat} (hout : ¬ InStash c ind) :
    (a.keep c).Holds ind (zeroBlock bs) := fun j _ => by
  rw [ArrayStore.keep, if_neg hout, Block.byte_zeroBlock]

/-- With an empty tree the stash alone is left. -/
theorem TreeInv.reset {t t₀ : MemTree N} {w : World bs B} {M : BlockKey → Option (BlockPath × Block bs)}
    (h : TreeInv K A t w ∅ M) (hheight : t₀.height < clientMaxPath) (host : Host B)
    (htree : TreeWf K A t₀ host.bufs) (hempty : treeBag K t₀ host.bufs ∅ = 0) :
    ∃ M', TreeInv K A t₀ ⟨w.client, host⟩ ∅ M' ∧ (∀ k v, M' k = some v → M k = some v) ∧
      ∀ k, M' k ≠ none ↔ ∃ b ∈ stashBag w.client.path, b.key = k := by
  obtain ⟨M', hM', hsub⟩ := h.holds.of_le (Multiset.le_add_right (stashBag w.client.path) _)
  refine ⟨M', ⟨hheight, htree, h.stash, ?_, h.subs⟩, hsub, fun k => ?_⟩
  · rw [Holds, hempty, add_zero]
    exact hM'
  · constructor
    · intro hk
      obtain ⟨v, hv⟩ := Option.ne_none_iff_exists'.mp hk
      obtain ⟨b, hb, hbk, -⟩ := hM'.exists_mem hv
      exact ⟨b, hb, hbk⟩
    · rintro ⟨b, hb, rfl⟩
      rw [hM'.mem hb]
      exact Option.some_ne_none _

/-- The client of an object goes with an empty tree: it holds the entries in the stash. -/
theorem BaseInv.reset {t t₀ : MemTree N} {w : World bs B} {a : ArrayStore}
    {M : BlockKey → Option (BlockPath × Block bs)} (h : BaseInv K A capacity t w a M)
    (hheight : t₀.height < clientMaxPath) (host : Host B) (htree : TreeWf K A t₀ host.bufs)
    (hempty : treeBag K t₀ host.bufs ∅ = 0) :
    ∃ M', BaseInv K A capacity t₀ ⟨w.client, host⟩ (a.keep w.client) M' := by
  obtain ⟨M', hinv, hsub, hkeys⟩ := h.inv.reset hheight host htree hempty
  refine ⟨M', hinv, fun ind hind v hv => ?_, fun ind hind => ?_, fun k v hk => ?_⟩
  · exact h.entries.position ind hind v (hsub _ v hv)
  · cases hv : M' (keyOf ind) with
    | none => exact a.keep_holds_zero w.client fun hin => (hkeys (keyOf ind)).mpr hin hv
    | some v =>
      have hin : InStash w.client ind := (hkeys (keyOf ind)).mp (by rw [hv]; exact Option.some_ne_none v)
      rw [← hsub _ v hv]
      exact a.keep_holds w.client (h.entries.content ind hind) hin
  · exact h.entries.keys k v (hsub k v hk)

/-- The host puts the fresh nodes back after a run, whatever it does to the buffers. A later run then answers from the
array with the entries of the stash, and zeros for all the others; with no more entries than stash slots no assert
of it fails. -/
theorem rollback_undetected (hK : K.Correct) (hsz : sz.val < 2 ^ 32) (hcap : capacity ≤ maxPosMap) {w : World bs B}
    {o : PathOram N} {st : Process bs B} (hnew : newPathOram K A sz capacity ⟨1, w⟩ = some (o, st))
    {as : List OramAccess} (hfit : ∀ a ∈ as, a.req.writeOffset + a.req.writeSize ≤ bs) {s : OramRun bs N B}
    (hrun : as.foldlM (runAccess K sz) ⟨o, st.world, [], []⟩ = some s) (host : Host B) {later : List OramAccess}
    (hlater : ∀ a ∈ later, a.req.ind < capacity ∧ a.req.writeOffset + a.req.writeSize ≤ bs) :
    (∀ s', later.foldlM (runAccess K sz) ⟨o, ⟨s.world.client, host⟩, [], []⟩ = some s' →
        s'.outs = ((ArrayStore.zero.after (as.map OramAccess.req)).keep s.world.client).run bs
          (later.map OramAccess.req)) ∧
      (0 < bs → capacity ≤ clientMaxPath * blocksPerNode →
        ∃ s', later.foldlM (runAccess K sz) ⟨o, ⟨s.world.client, host⟩, [], []⟩ = some s') := by
  obtain ⟨h8, t₀, rfl, h₀⟩ := newPathOram_base_inv hK hcap hnew
  obtain ⟨t, ht, htree⟩ := (newPathOram_base_eq_some hcap).mp hnew
  obtain rfl := (PathOram.base.inj htree).2
  obtain ⟨c, host₀, -, hinit, -⟩ := newTree_eq_some.mp ht
  obtain ⟨hwf, hempty⟩ := initializeMemTree_wf hK hinit host.bufs
  obtain ⟨-, t, M, -, hend⟩ := h₀.run h8 hK (sz.eq_of_lt hsz) hcap hfit hrun
  obtain ⟨M', hreset⟩ := hend.reset h₀.inv.height host hwf hempty
  refine ⟨fun s' hrun' => (hreset.run h8 hK (sz.eq_of_lt hsz) hcap (fun a ha => (hlater a ha).2) hrun').1,
    fun hbs hsmall => ?_⟩
  have hdiv : bs / sizeofBlockPath ≠ 0 := by
    have hle := Nat.le_of_dvd hbs h8
    exact (Nat.div_pos (le_trans (by decide) hle) (by decide)).ne'
  exact hreset.run_completes h8 hdiv hK (sz.eq_of_lt hsz) hsmall hlater

/-- Write sevens to entry 1, and read it. -/
def writeOne : List OramAccess := [⟨fun _ => ⟨.of 3, .of 5⟩, ⟨1, fun _ => 7, 8, 0⟩⟩]

def readOne : List OramAccess := [⟨fun _ => ⟨.of 6, .of 7⟩, ⟨1, fun _ => 0, 0, 0⟩⟩]

theorem rollback_undetected_readOne : ∃ o st s s',
    newPathOram (Cipher.pairing 8) BufferAddrs.numbered .eight 2 ⟨1, ⟨emptyClient 8, .filled none⟩⟩ =
        some (o, st) ∧
      writeOne.foldlM (runAccess (Cipher.pairing 8) .eight) ⟨o, st.world, [], []⟩ = some s ∧
      readOne.foldlM (runAccess (Cipher.pairing 8) .eight) ⟨o, ⟨s.world.client, st.world.host⟩, [], []⟩ = some s' ∧
      s'.outs = ((ArrayStore.zero.after (writeOne.map OramAccess.req)).keep s.world.client).run 8
        (readOne.map OramAccess.req) := by
  have hK := Cipher.pairing_correct 8
  obtain ⟨o, st, hnew⟩ := newPathOram_completes (Cipher.pairing 8) BufferAddrs.numbered .eight rfl 2
    (by decide) ⟨1, ⟨emptyClient 8, .filled none⟩⟩
  obtain ⟨h8, t, rfl, h₀⟩ := newPathOram_base_inv hK (by decide) hnew
  have hwrite : ∀ a ∈ writeOne, a.req.ind < 2 ∧ a.req.writeOffset + a.req.writeSize ≤ 8 := by simp [writeOne]
  have hread : ∀ a ∈ readOne, a.req.ind < 2 ∧ a.req.writeOffset + a.req.writeSize ≤ 8 := by simp [readOne]
  obtain ⟨s, hs⟩ := h₀.run_completes h8 (by decide) hK BlockSize.eight_val (by decide) hwrite
  obtain ⟨hall, hsome⟩ := rollback_undetected hK (by decide) (by decide) hnew (fun a ha => (hwrite a ha).2) hs
    st.world.host hread
  obtain ⟨s', hs'⟩ := hsome (by decide) (by decide)
  exact ⟨_, st, s, s', hnew, hs, hs', hall s' hs'⟩

end SgxOram
