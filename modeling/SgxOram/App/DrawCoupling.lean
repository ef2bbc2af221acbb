import SgxOram.App.PathDraws

/-!
# The server's view under random draws

Requests that access no more entries than the stash has slots complete whatever is drawn
(`completes_iff`). For those:

* `trace_coupling` : two lists of requests look the same to the server after a permutation of the draws;
* `trace_count` : hence as many draws leave a given trace for the one as for the other;
* `paths_uniform` : every list of paths is fetched along for equally many draws.
-/

namespace SgxOram
open Lib

variable {bs : Nat} {N B : Type} {K : Cipher bs N B} {A : BufferAddrs} {sz : BlockSize bs} {capacity n : Nat}

/-- Requests within the object, for at most as many entries as the stash has slots. -/
structure Servable (bs capacity : Nat) (reqs : Fin n → Request) : Prop where
  ind : ∀ i, (reqs i).ind < capacity
  fits : ∀ i, (reqs i).writeOffset + (reqs i).writeSize ≤ bs
  room : (entriesOf reqs).card ≤ clientMaxPath * blocksPerNode

/-- The run of the requests with the draws `D` leaves `s`. -/
def Leaves (K : Cipher bs N B) (sz : BlockSize bs) (o : PathOram N) (w : World bs B) (reqs : Fin n → Request)
    (D : Fin n ⊕ Fin n → RandPath) (s : OramRun bs N B) : Prop :=
  (accessesOf reqs D).foldlM (runAccess K sz) ⟨o, w, [], []⟩ = some s

theorem Servable.leaves {reqs : Fin n → Request} (hreqs : Servable bs capacity reqs) (hK : K.Correct)
    (hsz : sz.val = bs) (hbs : 0 < bs) (hcap : capacity ≤ maxPosMap) {w : World bs B} {o : PathOram N}
    {st : Process bs B} (hnew : newPathOram K A sz capacity ⟨1, w⟩ = some (o, st)) (D : Fin n ⊕ Fin n → RandPath) :
    ∃ s, Leaves K sz o st.world reqs D s ∧
      s.fetchPaths = ((slots fun i => (reqs i).ind).map D).map Subtype.val := by
  obtain ⟨s, hs⟩ := completes hK hsz hbs hcap hnew (fun i => ⟨hreqs.ind i, hreqs.fits i⟩) hreqs.room D
  refine ⟨s, hs, ?_⟩
  have hfit : ∀ a ∈ accessesOf reqs D, a.req.writeOffset + a.req.writeSize ≤ bs := by
    intro a ha
    obtain ⟨i, rfl⟩ := mem_accessesOf.mp ha
    exact hreqs.fits i
  obtain ⟨t, M, h⟩ := drawn_run hK hsz hcap hnew hfit hs
  rw [h.paths, redraw_accessesOf, reveals_accesses]

theorem Leaves.unique {o : PathOram N} {w : World bs B} {reqs : Fin n → Request} {D : Fin n ⊕ Fin n → RandPath}
    {s s' : OramRun bs N B} (h : Leaves K sz o w reqs D s) (h' : Leaves K sz o w reqs D s') : s = s' :=
  Option.some.inj (Eq.trans (Eq.symm h) h')

/-- The trace of a run of the only object is a function of the paths fetched along. -/
theorem Leaves.trace (hK : K.Correct) (hcap : capacity ≤ maxPosMap) {w : World bs B} {o : PathOram N}
    {st : Process bs B} (hnew : newPathOram K A sz capacity ⟨1, w⟩ = some (o, st)) {reqs : Fin n → Request}
    {D : Fin n ⊕ Fin n → RandPath} {s : OramRun bs N B} (h : Leaves K sz o st.world reqs D s) :
    s.world.host.trace = st.world.host.trace ++
      s.fetchPaths.flatMap (accessView bs (A.addr 1) (computeTreeHeight capacity)) := by
  have howns := (newPathOram_buffers hK (computeTreeHeight_lt_clientMaxPath hcap) hnew).1
  obtain ⟨t, ht, rfl⟩ := (newPathOram_base_eq_some hcap).mp hnew
  have hview := (base_view hK howns h).trace
  rwa [(newTree_buffers hK ht).2.1] at hview

/-- Whatever two lists of requests ask for, a permutation of the draws makes them look the same to the server. -/
theorem trace_coupling (hK : K.Correct) (hsz : sz.val < 2 ^ 32) (hbs : 0 < bs) (hcap : capacity ≤ maxPosMap)
    {w : World bs B} {o : PathOram N} {st : Process bs B} (hnew : newPathOram K A sz capacity ⟨1, w⟩ = some (o, st))
    {reqs reqs' : Fin n → Request} (h : Servable bs capacity reqs) (h' : Servable bs capacity reqs') :
    ∃ π : Equiv.Perm (Fin n ⊕ Fin n), ∀ D, ∃ s s', Leaves K sz o st.world reqs D s ∧
      Leaves K sz o st.world reqs' (D ∘ π) s' ∧ s'.world.host.trace = s.world.host.trace := by
  obtain ⟨π, hπ⟩ := exists_coupling (P := RandPath) (fun i => (reqs i).ind) fun i => (reqs' i).ind
  refine ⟨π, fun D => ?_⟩
  obtain ⟨s, hs, hpaths⟩ := h.leaves hK (sz.eq_of_lt hsz) hbs hcap hnew D
  obtain ⟨s', hs', hpaths'⟩ := h'.leaves hK (sz.eq_of_lt hsz) hbs hcap hnew (D ∘ π)
  refine ⟨s, s', hs, hs', ?_⟩
  have hsame : s'.fetchPaths = s.fetchPaths := by
    rw [hpaths', hpaths, ← reveals_accesses, hπ D, reveals_accesses]
  rw [hs'.trace hK hcap hnew, hs.trace hK hcap hnew, hsame]

/-- A given trace is left by as many draws for one list of requests as for another of the same length. -/
theorem trace_count (hK : K.Correct) (hsz : sz.val < 2 ^ 32) (hbs : 0 < bs) (hcap : capacity ≤ maxPosMap)
    {w : World bs B} {o : PathOram N} {st : Process bs B} (hnew : newPathOram K A sz capacity ⟨1, w⟩ = some (o, st))
    {reqs reqs' : Fin n → Request} (h : Servable bs capacity reqs) (h' : Servable bs capacity reqs')
    (trace : List ServerAccess) :
    Nat.card {D : Fin n ⊕ Fin n → RandPath //
        ∃ s, Leaves K sz o st.world reqs D s ∧ s.world.host.trace = trace} =
      Nat.card {D : Fin n ⊕ Fin n → RandPath //
        ∃ s, Leaves K sz o st.world reqs' D s ∧ s.world.host.trace = trace} := by
  obtain ⟨π, hπ⟩ := trace_coupling hK hsz hbs hcap hnew h h'
  refine Nat.card_congr (Equiv.subtypeEquiv (π.symm.arrowCongr (Equiv.refl RandPath)) fun D => ?_)
  have hD : (π.symm.arrowCongr (Equiv.refl RandPath)) D = D ∘ π := by
    funext x
    simp [Equiv.arrowCongr]
  rw [hD]
  obtain ⟨s, s', hs, hs', htrace⟩ := hπ D
  constructor
  · rintro ⟨u, hu, rfl⟩
    exact ⟨s', hs', by rw [htrace, hs.unique hu]⟩
  · rintro ⟨u, hu, rfl⟩
    exact ⟨s, hs, by rw [← htrace, hs'.unique hu]⟩

/-- Read entry 0 twice. -/
def readTwice : Fin 2 → Request := fun _ => ⟨0, fun _ => 0, 0, 0⟩

/-- Write entry 1 and read entry 0. -/
def writeAndRead : Fin 2 → Request := ![⟨1, fun _ => 7, 8, 0⟩, ⟨0, fun _ => 0, 0, 0⟩]

theorem Servable.of_small {reqs : Fin 2 → Request} (hind : ∀ i, (reqs i).ind < 2)
    (hfits : ∀ i, (reqs i).writeOffset + (reqs i).writeSize ≤ 8) : Servable 8 2 reqs :=
  ⟨hind, hfits, (Finset.card_image_le.trans_eq (Finset.card_fin 2)).trans (by decide)⟩

theorem servable_readTwice : Servable 8 2 readTwice :=
  Servable.of_small (fun _ => Nat.zero_lt_two) fun _ => Nat.zero_le 8

theorem servable_writeAndRead : Servable 8 2 writeAndRead :=
  Servable.of_small (by simp [writeAndRead, Fin.forall_fin_two]) (by simp [writeAndRead, Fin.forall_fin_two])

theorem trace_count_readTwice : ∃ o st,
    newPathOram (Cipher.pairing 8) BufferAddrs.numbered .eight 2 ⟨1, ⟨emptyClient 8, .filled none⟩⟩ =
        some (o, st) ∧
      ∀ trace, Nat.card {D // ∃ s, Leaves (Cipher.pairing 8) .eight o st.world readTwice D s ∧
          s.world.host.trace = trace} =
        Nat.card {D // ∃ s, Leaves (Cipher.pairing 8) .eight o st.world writeAndRead D s ∧
          s.world.host.trace = trace} := by
  obtain ⟨o, st, hnew⟩ := newPathOram_completes (Cipher.pairing 8) BufferAddrs.numbered .eight rfl 2
    (by decide) ⟨1, ⟨emptyClient 8, .filled none⟩⟩
  exact ⟨o, st, hnew, trace_count (Cipher.pairing_correct 8) (by decide) (by decide) (by decide) hnew servable_readTwice
    servable_writeAndRead⟩

/-- There are `2 ^ 32 - 1` paths to draw. -/
theorem card_randPath : Nat.card RandPath = 2 ^ 32 - 1 := by
  have hcard : Nat.card BlockPath = 2 ^ 32 := by
    rw [Nat.card_congr FinEnum.equiv, Nat.card_fin, FinEnum.card_UInt32]
  have : Finite BlockPath := Nat.finite_of_card_ne_zero (by rw [hcard]; decide)
  have := Fintype.ofFinite BlockPath
  have := Fintype.ofFinite {p : BlockPath | p ≠ 0}
  have hne := Set.card_ne_eq (0 : BlockPath)
  rw [← Nat.card_eq_fintype_card, ← Nat.card_eq_fintype_card, hcard] at hne
  exact hne

/-- Whatever the requests, each list of paths is fetched along for equally many draws. -/
theorem paths_uniform (hK : K.Correct) (hsz : sz.val < 2 ^ 32) (hbs : 0 < bs) (hcap : capacity ≤ maxPosMap)
    {w : World bs B} {o : PathOram N} {st : Process bs B} (hnew : newPathOram K A sz capacity ⟨1, w⟩ = some (o, st))
    {reqs : Fin n → Request} (h : Servable bs capacity reqs) (paths : Fin n → RandPath) :
    Nat.card {D : Fin n ⊕ Fin n → RandPath // ∃ s, Leaves K sz o st.world reqs D s ∧
        s.fetchPaths = List.ofFn fun i => (paths i).1} = (2 ^ 32 - 1) ^ n := by
  rw [← card_randPath, ← card_draws (fun i => (reqs i).ind) (List.length_ofFn (f := paths))]
  refine Nat.card_congr (Equiv.subtypeEquivRight fun D => ?_)
  obtain ⟨s, hs, hpaths⟩ := h.leaves hK (sz.eq_of_lt hsz) hbs hcap hnew D
  have hiff : s.fetchPaths = (List.ofFn fun i => (paths i).1) ↔
      reveals (fun _ => none) (accesses (fun i => (reqs i).ind) D) = List.ofFn paths := by
    rw [hpaths, reveals_accesses, show (List.ofFn fun i => (paths i).1) = (List.ofFn paths).map Subtype.val by
      rw [List.map_ofFn]; rfl]
    exact (List.map_injective_iff.mpr Subtype.val_injective).eq_iff
  constructor
  · rintro ⟨u, hu, hv⟩
    exact hiff.mp (hs.unique hu ▸ hv)
  · intro hv
    exact ⟨s, hs, hiff.mpr hv⟩

theorem paths_uniform_readTwice : ∃ o st,
    newPathOram (Cipher.pairing 8) BufferAddrs.numbered .eight 2 ⟨1, ⟨emptyClient 8, .filled none⟩⟩ =
        some (o, st) ∧
      Nat.card {D // ∃ s, Leaves (Cipher.pairing 8) .eight o st.world readTwice D s ∧
        s.fetchPaths = List.ofFn fun _ : Fin 2 => (RandPath.of 3).1} = (2 ^ 32 - 1) ^ 2 := by
  obtain ⟨o, st, hnew⟩ := newPathOram_completes (Cipher.pairing 8) BufferAddrs.numbered .eight rfl 2
    (by decide) ⟨1, ⟨emptyClient 8, .filled none⟩⟩
  exact ⟨o, st, hnew, paths_uniform (Cipher.pairing_correct 8) (by decide) (by decide) (by decide) hnew servable_readTwice
    fun _ => RandPath.of 3⟩

end SgxOram
