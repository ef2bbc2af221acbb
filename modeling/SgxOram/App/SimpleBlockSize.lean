import SgxOram.App.SimpleRoom

/-!
# The block sizes of a SimpleORAM

The constructor accepts a block size of zero when it needs no recursive position map, and block sizes that the
enclave gets truncated.

* `newSimpleOram_completes` : what the constructor accepts;
* `firstAccess_base`, `firstAccess_rec` : with the other block sizes the first access of an object faults, or
  it copies out what `malloc` has left in `fetched_block_`;
* `simpleOram_array_iff` : an object is an array exactly when its block size is positive and below `2 ^ 32`.
-/

namespace SgxOram
open Lib

variable {bs : Nat} {N B : Type} {D : Build bs N B} {A : BufferAddrs} {sz : BlockSize bs} {id capacity : Nat}

/-! ## Constructors -/

theorem newSimpleTree_completes (D : Build bs N B) (A : BufferAddrs) (id : Nat) (h8 : bs % 8 = 0)
    (hcap : computeTreeHeight capacity < clientMaxPath) (st : Process bs B) :
    ∃ t st', newSimpleTree D A id capacity st = some (t, st') := by
  obtain ⟨t, host, ht⟩ := (initialize_completes D A id (computeTreeHeight capacity) st.world.host).mpr h8
  have hclient : ∃ c, initClientOnce id capacity st.world.client = some c := by
    unfold initClientOnce
    split
    · exact ⟨_, if_pos hcap⟩
    · exact ⟨_, rfl⟩
  obtain ⟨c, hc⟩ := hclient
  exact ⟨t, _, by rw [newSimpleTree_eq, hc, Option.bind_some, ht]; rfl⟩

/-- A new tree has its number, and `fetched_block_` as `malloc` returns it. -/
theorem newSimpleTree_fetched (hD : D.Correct) {t : MemTree N} {st st' : Process bs B}
    (hrun : newSimpleTree D A id capacity st = some (t, st')) :
    t.treeId = id ∧ st'.world.host.fetched = st.world.host.fetched := by
  rw [newSimpleTree_eq] at hrun
  simp only [Option.bind_eq_some_iff, Option.map_eq_some_iff, Prod.mk.injEq] at hrun
  obtain ⟨c, -, ⟨t', host⟩, ht, rfl, rfl⟩ := hrun
  exact ⟨(initialize_fresh hD ht).2.1.treeId, initialize_fetched ht⟩

theorem newSimpleOram_completes (D : Build bs N B) (A : BufferAddrs) (sz : BlockSize bs) (h8 : 8 ∣ sz.val)
    (hpos : maxPosMap < capacity → 0 < sz.val) (hcap : computeTreeHeight capacity < clientMaxPath)
    (st : Process bs B) : ∃ o st', newSimpleOram D A sz capacity st = some (o, st') := by
  have hmod : bs % 8 = 0 := sz.mod_eight.trans (Nat.mod_eq_zero_of_dvd h8)
  induction capacity using Nat.strong_induction_on generalizing st with
  | _ capacity ih =>
    by_cases hbase : capacity ≤ maxPosMap
    · obtain ⟨t, st', ht⟩ := newSimpleTree_completes D A st.nextOramId hmod hcap
        { st with nextOramId := st.nextOramId + 1 }
      exact ⟨_, _, by rw [newSimpleOram_base D A sz hbase, ht]; rfl⟩
    · rw [not_le] at hbase
      have hn : sz.val % sizeofBlockPath = 0 ∧ sz.val / sizeofBlockPath > 1 := by
        have := hpos hbase
        rw [sizeofBlockPath]
        omega
      have hlt := higherCapacity_lt hbase hn.2
      obtain ⟨o, st₁, ho⟩ := ih _ hlt (fun _ => hpos hbase) (lt_of_le_of_lt (computeTreeHeight_mono hlt.le) hcap)
        { st with nextOramId := st.nextOramId + 1 }
      obtain ⟨t, st₂, ht⟩ := newSimpleTree_completes D A st.nextOramId hmod hcap st₁
      exact ⟨_, _, by rw [newSimpleOram_rec D A sz hbase, if_pos hn, ho, Option.bind_some, ht]; rfl⟩

/-! ## The first access -/

/-- A tree without entries. -/
abbrev EmptyLevel (D : Build bs N B) (A : BufferAddrs) (id capacity : Nat) (t : MemTree N) (bufs : Addr → B) : Prop :=
  SimpleLevelInv D A False id capacity t bufs (fun _ => 0) ArrayStore.zero (fun _ _ => False) fun _ => none

theorem EmptyLevel.access (hD : D.Correct) {t : MemTree N} {w : World bs B}
    (h : EmptyLevel D A id capacity t w.host.bufs) {req : Request} (hind : req.ind < capacity) (sz : BlockSize bs)
    (p : BlockPath) (draws : SimpleDraws) :
    ∃ l, accessSimpleLevel D sz t p draws (keyOf req.ind) req w = some l := by
  have hkeys : KeysOf D w.host.bufs {req.ind} t := h.stored.keysOf fun k v hk => by cases hk
  obtain ⟨l, hl, -⟩ := h.completes hD hkeys (by rw [Finset.card_singleton]; decide) (Finset.mem_singleton_self _) hind
    (fun hne => absurd rfl hne) sz draws
  exact ⟨l, hl⟩

/-- What the first access of the object `id` leaves: a read copies out what was behind the block. -/
structure FirstAccess (A : BufferAddrs) (sz : BlockSize bs) (id : Nat) (req : Request) (w : World bs B)
    (r : SimpleResult bs N B) : Prop where
  others : SameBufs A {id}ᶜ w.host.bufs r.world.host.bufs
  fetched : ∀ id' ≠ id, r.world.host.fetched id' = w.host.fetched id'
  block : req.writeSize = 0 → ∀ j, bs ≤ j → j < sz.val → r.block j = w.host.fetched id j

variable {w : World bs B} {req : Request} {t t' : MemTree N}

/-- With a block size that is zero or truncated the first access of a tree faults, or it completes. -/
theorem firstAccess_base (hD : D.Correct) (h : EmptyLevel D A id capacity t w.host.bufs)
    (hbad : sz.val = 0 ∨ 2 ^ 32 ≤ sz.val) (draws : Nat → SimpleDraws) {req : Request} (hind : req.ind < capacity) :
    Ends (fun r => 2 ^ 32 ≤ sz.val ∧ FirstAccess A sz id req w r) (fun e => e = .fault ())
      (accessSimpleOramWith ecallWriteMmInClient D sz (.base capacity t) draws req w) := by
  by_cases hbs : sz.val / sizeofBlockPath = 0
  · rw [accessSimpleOramWith, if_pos hind, if_pos hbs]
    rfl
  by_cases h0 : bs = 0
  · rw [accessSimpleOramWith, if_pos hind, if_neg hbs]
    simp [h0]
  have hge : 2 ^ 32 ≤ sz.val := hbad.resolve_left fun hzero => hbs (by rw [hzero]; rfl)
  have hstart : EmptyLevel D A id capacity t (w.withPathMm
    (Function.update w.client.pathMm req.ind (draws 0).newBlockPath)).host.bufs := h
  obtain ⟨l, hl⟩ := hstart.access hD hind sz (w.client.pathMm req.ind) (draws 0)
  have hleft := hstart.stored.sound.access hD hl
  rw [accessSimpleOramWith_base.mpr ⟨⟨hind, hbs, h0⟩, rfl, l, hl, rfl⟩]
  refine ⟨hge, h.stored.sound.treeId ▸ hleft.step.others, hleft.fetched, fun hread j hj hlt => ?_⟩
  have hrest := accessSimpleLevel_rest hread hl hj hlt
  rw [h.stored.sound.treeId] at hrest
  exact hrest

/-- The same of an object whose positions are in another object. -/
theorem firstAccess_rec (hD : D.Correct) {capacity' : Nat} (h : EmptyLevel D A id capacity t w.host.bufs)
    (h' : EmptyLevel D A (id + 1) capacity' t' w.host.bufs) (hind : req.ind < capacity)
    (hind' : req.ind / (sz.val / sizeofBlockPath) < capacity') (hge : 2 ^ 32 ≤ sz.val) (hread : req.writeSize = 0)
    (draws : Nat → SimpleDraws) :
    Ends (fun r => ∀ j, bs ≤ j → j < sz.val → r.block j = w.host.fetched id j) (fun e => e = .fault ())
      (accessSimpleOramWith ecallWriteMmInClient D sz (.recursive capacity t (.base capacity' t')) draws req w) := by
  have hbs : sz.val / sizeofBlockPath ≠ 0 := by
    rw [sizeofBlockPath]
    omega
  have hrequest : (posMapRequest sz.val req.ind (draws 0).newBlockPath).ind < capacity' := hind'
  have hinner := firstAccess_base hD h' (Or.inr hge) (fun k => draws (k + 1)) hrequest
  rw [accessSimpleOramWith, if_pos hind, if_neg hbs]
  cases hi : accessSimpleOramWith ecallWriteMmInClient D sz (.base capacity' t') (fun k => draws (k + 1))
      (posMapRequest sz.val req.ind (draws 0).newBlockPath) w with
  | error e =>
    rw [hi] at hinner
    exact hinner
  | ok inner =>
    rw [hi] at hinner
    obtain ⟨-, hfirst⟩ := hinner
    have hlevel : EmptyLevel D A id capacity t inner.world.host.bufs :=
      h.frame (hfirst.others.mono (Set.singleton_subset_iff.mpr (Nat.succ_ne_self id).symm))
    obtain ⟨l, hl⟩ := hlevel.access hD hind sz (pathOfBuffer inner.block) (draws 0)
    have hrest := fun j hj hlt => accessSimpleLevel_rest hread hl hj hlt (j := j)
    rw [h.stored.sound.treeId, hfirst.fetched id (by omega)] at hrest
    simp only [bind, Except.bind, hl, Option.map_some, orAssert_some]
    exact hrest

/-! ## The object of a process -/

/-- The first read of the object of a process. -/
theorem simple_firstRead (hD : D.Correct) (hpos : 0 < capacity) (hcap : computeTreeHeight capacity < clientMaxPath)
    (haccept : maxPosMap < capacity → 0 < sz.val) (hbad : sz.val = 0 ∨ 2 ^ 32 ≤ sz.val) {o : SimpleOram N}
    {st : Process bs B} (hnew : newSimpleOram D A sz capacity ⟨1, w⟩ = some (o, st)) (draws : Nat → SimpleDraws)
    (hind : req.ind = 0) (hread : req.writeSize = 0) :
    Ends (fun r => 2 ^ 32 ≤ sz.val ∧ ∀ j, bs ≤ j → j < sz.val → r.block j = w.host.fetched 1 j)
      (fun e => e = .fault ()) (accessSimpleOramWith ecallWriteMmInClient D sz o draws req st.world) := by
  by_cases hbase : capacity ≤ maxPosMap
  · rw [newSimpleOram_base D A sz hbase] at hnew
    simp only [Option.map_eq_some_iff, Prod.mk.injEq] at hnew
    obtain ⟨⟨t, st'⟩, ht, rfl, rfl⟩ := hnew
    obtain ⟨hlevel, -, -⟩ := newSimpleTree_spec hD hcap ht
    obtain ⟨-, hfetched⟩ := newSimpleTree_fetched hD ht
    have hind' : req.ind < capacity := hind ▸ hpos
    refine Ends.imp (firstAccess_base hD (hlevel False _) hbad draws hind') (fun r hr => ?_) fun _ he => he
    exact ⟨hr.1, fun j hj hlt => (hr.2.block hread j hj hlt).trans (by rw [hfetched])⟩
  · rw [not_le] at hbase
    have hge := hbad.resolve_left (haccept hbase).ne'
    -- one block of the next object holds all positions
    have hone : (capacity + sz.val / sizeofBlockPath - 1) / (sz.val / sizeofBlockPath) = 1 := by
      have hlt := lt_two_pow_computeTreeHeight capacity
      have hpow : 2 ^ computeTreeHeight capacity ≤ 2 ^ 20 := Nat.pow_le_pow_right (by decide) hcap.le
      rw [sizeofBlockPath]
      refine Nat.div_eq_of_lt_le ?_ ?_ <;> omega
    rw [newSimpleOram_rec D A sz hbase] at hnew
    simp only [Option.ite_none_right_eq_some, Option.bind_eq_some_iff, Option.map_eq_some_iff, Prod.mk.injEq] at hnew
    obtain ⟨hn, ⟨o₁, st₁⟩, ho, ⟨t, st₂⟩, ht, rfl, rfl⟩ := hnew
    rw [hone, newSimpleOram_base D A sz (by decide)] at ho
    simp only [Option.map_eq_some_iff, Prod.mk.injEq] at ho
    obtain ⟨⟨t', st'⟩, ht', rfl, rfl⟩ := ho
    obtain ⟨hlevel', -, -⟩ := newSimpleTree_spec hD (by simp [computeTreeHeight, clientMaxPath]) ht'
    obtain ⟨hlevel, -, hothers⟩ := newSimpleTree_spec hD hcap ht
    have hframe := hothers.mono (show ({2} : Set Nat) ⊆ {1}ᶜ by simp)
    have hfetched := (newSimpleTree_fetched hD ht).2.trans (newSimpleTree_fetched hD ht').2
    have hzero : req.ind / (sz.val / sizeofBlockPath) < 1 := by
      rw [hind, Nat.zero_div]
      exact Nat.one_pos
    have hends := firstAccess_rec hD (hlevel False fun _ => 0) ((hlevel' False fun _ => 0).frame hframe)
      (hind ▸ hpos) hzero hge hread draws
    exact Ends.imp hends (fun r hr => ⟨hge, fun j hj hlt => (hr j hj hlt).trans (by rw [hfetched])⟩) fun _ he => he

theorem Build.nonempty (D : Build bs N B) : Nonempty B := by
  cases D with
  | aes K => exact ⟨K.zeroBuffer⟩
  | plain => exact ⟨zeroBlock bs⟩

/-- Read entry 0. -/
def readZero : SimpleAccess := ⟨fun _ => ⟨.of 3, 5⟩, ⟨0, fun _ => 0, 0, 0⟩⟩

theorem not_isSimpleArray (hD : D.Correct) (hpos : 0 < capacity) (hcap : computeTreeHeight capacity < clientMaxPath)
    (h8 : 8 ∣ sz.val) (haccept : maxPosMap < capacity → 0 < sz.val) (hbad : sz.val = 0 ∨ 2 ^ 32 ≤ sz.val) :
    ¬ IsSimpleArray D A sz capacity := by
  intro h
  obtain ⟨b⟩ := D.nonempty
  obtain ⟨o, st, hnew⟩ := newSimpleOram_completes D A sz h8 haccept hcap
    ⟨1, ⟨emptyClient bs, { Host.filled b with fetched := fun _ _ => 1 }⟩⟩
  have hends := h _ o st [readZero] hnew (by simpa [readZero] using hpos)
  simp only [List.foldlM_cons, List.foldlM_nil, bind_pure, runSimpleAccessWith] at hends
  have hfirst := simple_firstRead hD hpos hcap haccept hbad hnew readZero.draws
    (show readZero.req.ind = 0 from rfl) rfl
  cases hrun : accessSimpleOramWith ecallWriteMmInClient D sz o readZero.draws readZero.req st.world with
  | error e =>
    rw [hrun] at hends hfirst
    cases hfirst.symm.trans hends
  | ok r =>
    rw [hrun] at hends hfirst
    obtain ⟨hge, hblock⟩ := hfirst
    have hlt := sz.lt_val hge
    have hout := congrFun (List.singleton_injective hends) bs
    rw [hblock bs le_rfl hlt] at hout
    simp [ArrayStore.copyOut, readZero, hlt, ArrayStore.zero] at hout

/-- Of the block sizes that the constructor accepts, an object is an array exactly for those that are positive and
that the enclave gets untruncated. -/
theorem simpleOram_array_iff (hD : D.Correct) (A : BufferAddrs) (hpos : 0 < capacity)
    (hcap : computeTreeHeight capacity < clientMaxPath) (h8 : 8 ∣ sz.val)
    (haccept : maxPosMap < capacity → 0 < sz.val) :
    IsSimpleArray D A sz capacity ↔ 0 < sz.val ∧ sz.val < 2 ^ 32 := by
  refine ⟨fun h => ?_, fun hsz => isSimpleArray_of_lt hD hcap hsz.1 hsz.2⟩
  by_contra hbad
  exact not_isSimpleArray hD hpos hcap h8 haccept (by omega) h

theorem simpleOram_array_iff_twoWrites : ∃ o st s,
    newSimpleOram .plain .numbered .eight 2 ⟨1, ⟨emptyClient 8, .filled (zeroBlock 8)⟩⟩ = some (o, st) ∧
      twoWrites.foldlM (runSimpleAccess .plain .eight) ⟨o, st.world, []⟩ = some s ∧
      s.outs = ArrayStore.zero.run 8 (twoWrites.map SimpleAccess.req) := by
  obtain ⟨s, hs⟩ := Option.isSome_iff_exists.mp smallObject_runs
  obtain ⟨⟨o, st⟩, hnew, hrun⟩ := Option.bind_eq_some_iff.mp hs
  rw [← newSimpleOram_smallObject] at hnew
  have harray : IsSimpleArray (.plain : Build 8 MemTreeNode (Block 8)) .numbered .eight 2 :=
    (simpleOram_array_iff (Build.plain_correct 8) .numbered (by decide)
      (computeTreeHeight_lt_clientMaxPath (by decide)) (by decide) (by decide)).mpr (by decide)
  have hends := harray _ o st twoWrites hnew (by simp [twoWrites, BlockSize.eight_val])
  rw [funext₂ fun s a => runSimpleAccessWith_reference (D := (.plain : Build 8 MemTreeNode (Block 8)))
    (BlockSize.eight.usable (by decide)) s a, foldlM_orAssert, ends_orAssert] at hends
  exact ⟨o, st, s, hnew, hrun, hends s hrun⟩

/-- Blocks of no bytes, where the first access divides by zero, and blocks of which the enclave gets 8 bytes. -/
theorem simpleOram_array_badSizes :
    (∃ o st, newSimpleOram (.plain : Build 0 MemTreeNode (Block 0)) .numbered (.ofLt (by decide)) 2
        ⟨1, ⟨emptyClient 0, .filled (zeroBlock 0)⟩⟩ = some (o, st)) ∧
      ¬ IsSimpleArray (.plain : Build 0 MemTreeNode (Block 0)) .numbered (.ofLt (by decide)) 2 ∧
      ¬ IsSimpleArray (.plain : Build 8 MemTreeNode (Block 8)) .numbered ⟨2 ^ 32 + 8, by decide, by decide⟩ 2 := by
  have hcap := computeTreeHeight_lt_clientMaxPath (show 2 ≤ maxPosMap by decide)
  refine ⟨newSimpleOram_completes _ _ _ (by decide) (by decide) hcap _, ?_, ?_⟩
  · exact not_isSimpleArray (Build.plain_correct 0) (by decide) hcap (by decide) (by decide) (Or.inl rfl)
  · exact not_isSimpleArray (Build.plain_correct 8) (by decide) hcap (by decide) (by decide) (Or.inr (by decide))

end SgxOram
