import SgxOram.App.PathDraws

/-!
# PathORAM over the machine code of its position map

* `runMachineAccess_base` : an access over the machine code, which also moves the words behind the entry and behind
  `*block_path`;
* `machine_agrees_iff` : the accesses for which it makes no difference.
-/

namespace SgxOram
open Lib

variable {bs : Nat} {N B : Type} {K : Cipher bs N B} {A : BufferAddrs} {sz : BlockSize bs} {capacity : Nat}

/-- The word behind an entry of an object with fewer than `maxPosMap` entries is the next entry. -/
theorem runMachineAccess_base {s s' : OramRun bs N B} {t : MemTree N} (horam : s.oram = .base capacity t)
    (hcap : capacity < maxPosMap) {m : MachineAccess} :
    (runMachineAccess K sz s m).toOption = some s' ↔
      (m.access.req.ind < capacity ∧ sz.val / sizeofBlockPath ≠ 0 ∧ bs ≠ 0) ∧ ∃ l,
        accessLevel K sz t (orFresh (s.world.client.pathMm m.access.req.ind) (m.access.draws 0).freshPath)
          (m.access.draws 0).newBlockPath (keyOf m.access.req.ind) m.access.req
          (s.world.withPathMm (Function.update (Function.update s.world.client.pathMm m.access.req.ind
            (m.access.draws 0).newBlockPath) (m.access.req.ind + 1) (m.surroundings.behind 1))) = some l ∧
        s' = ⟨.base capacity l.tree, l.world, s.outs ++ [l.block], s.calls ++ l.calls⟩ := by
  rw [toOption_eq_some, runMachineAccess, runAccessWith_ok, horam]
  constructor
  · rintro ⟨r, hr, rfl⟩
    obtain ⟨hpre, -, l, hl, rfl⟩ := accessPathOramWith_base.mp hr
    rw [X86.exchangeMm_of_lt m.surroundings (by omega)] at hl
    exact ⟨hpre, l, hl, rfl⟩
  · rintro ⟨hpre, l, hl, rfl⟩
    refine ⟨_, accessPathOramWith_base.mpr ⟨hpre, ?_, l, ?_, rfl⟩, rfl⟩ <;>
      rw [X86.exchangeMm_of_lt m.surroundings (by omega)]
    exact hl

/-- The machine code makes no difference if the word behind the entry is the word behind `*block_path`. -/
theorem runMachineAccess_eq {s : OramRun bs N B} {t : MemTree N} (horam : s.oram = .base capacity t)
    (hcap : capacity < maxPosMap) {m : MachineAccess}
    (hbehind : s.world.client.pathMm (m.access.req.ind + 1) = m.surroundings.behind 1) :
    (runMachineAccess K sz s m).toOption = runAccess K sz s m.access := by
  have hmm : Function.update (Function.update s.world.client.pathMm m.access.req.ind
      (m.access.draws 0).newBlockPath.1) (m.access.req.ind + 1) (m.surroundings.behind 1) =
        Function.update s.world.client.pathMm m.access.req.ind (m.access.draws 0).newBlockPath.1 := by
    rw [← hbehind]
    apply Function.update_eq_self_iff.mpr
    rw [Function.update_of_ne (Nat.succ_ne_self _)]
  ext s'
  rw [runMachineAccess_base horam hcap, runAccess_base horam, hmm]

/-- An entry of the position map is zero until the entry is accessed. -/
theorem DrawnInv.pathMm_eq_zero {done : List OramAccess} {s : OramRun bs N B} {t : MemTree N}
    {M : BlockKey → Option (BlockPath × Block bs)} (h : DrawnInv K A capacity done s t M) (ind : Nat) :
    s.world.client.pathMm ind = 0 ↔ ∀ a ∈ done, a.req.ind ≠ ind := by
  rw [h.positions ind, positions_eq_find]
  cases hfind : (done.map OramAccess.redraw).reverse.find? fun x => x.name = ind with
  | none =>
    refine iff_of_true rfl fun a ha heq => ?_
    have hnot := List.find?_eq_none.mp hfind a.redraw (List.mem_reverse.mpr (List.mem_map_of_mem ha))
    exact hnot (decide_eq_true heq)
  | some x =>
    obtain ⟨a, ha, rfl⟩ := List.mem_map.mp (List.mem_reverse.mp (List.mem_of_find?_eq_some hfind))
    refine iff_of_false (fun h0 => (a.draws 0).newBlockPath.2 h0) fun hnone => hnone a ha ?_
    have hname := List.find?_some hfind
    exact of_decide_eq_true hname

/-- If both codes lead to the same state, the word behind the entry was the word behind `*block_path`. -/
theorem DrawnInv.behind_eq (h8 : 8 ∣ bs) (hK : K.Correct) (hcap : capacity < maxPosMap) {done : List OramAccess}
    {s s' : OramRun bs N B} {t : MemTree N} {M : BlockKey → Option (BlockPath × Block bs)}
    (h : DrawnInv K A capacity done s t M) {m : MachineAccess}
    (hmachine : (runMachineAccess K sz s m).toOption = some s')
    (hrun : runAccess K sz s m.access = some s') :
    s.world.client.pathMm (m.access.req.ind + 1) = m.surroundings.behind 1 := by
  obtain ⟨⟨hind, -⟩, l, hl, rfl⟩ := (runMachineAccess_base h.oram hcap).mp hmachine
  obtain ⟨-, l', hl', heq⟩ := (runAccess_base h.oram).mp hrun
  have hkey := keyOf_ne_zero (keyOf_bound hcap.le hind)
  have hpath := h.base.entries.path hind (m.access.draws 0).freshPath
  have hd := accessLevel_spec h8 hK (h.base.inv.withPathMm _) hkey hpath hl
  have hd' := accessLevel_spec h8 hK (h.base.inv.withPathMm _) hkey hpath hl'
  have hworld : l.world = l'.world := congrArg OramRun.world heq
  have hmm := (hd.pathMm.symm.trans (congrArg (fun w => w.client.pathMm) hworld)).trans hd'.pathMm
  have hnext := congrFun hmm (m.access.req.ind + 1)
  rw [World.withPathMm_pathMm, World.withPathMm_pathMm, Function.update_self,
    Function.update_of_ne (Nat.succ_ne_self _)] at hnext
  exact hnext.symm

/-- With zeros behind `*block_path`, the machine code keeps the object in the states of the reference code
exactly when no access to an entry comes after an access to the next one. -/
theorem machine_agrees_iff (hK : K.Correct) (hsz : sz.val < 2 ^ 32) (hcap : capacity < maxPosMap) {w : World bs B}
    {o : PathOram N} {st : Process bs B} (hnew : newPathOram K A sz capacity ⟨1, w⟩ = some (o, st))
    {ms : List MachineAccess} (hfit : ∀ m ∈ ms, m.access.req.writeOffset + m.access.req.writeSize ≤ bs)
    (hzero : ∀ m ∈ ms, m.surroundings.behind 1 = 0) {s : OramRun bs N B}
    (hrun : (ms.map MachineAccess.access).foldlM (runAccess K sz) ⟨o, st.world, [], []⟩ = some s) :
    (∀ done, done <+: ms → (done.foldlM (runMachineAccess K sz) ⟨o, st.world, [], []⟩).toOption =
        (done.map MachineAccess.access).foldlM (runAccess K sz) ⟨o, st.world, [], []⟩) ↔
      ms.Pairwise fun a b => a.access.req.ind ≠ b.access.req.ind + 1 := by
  have h8 := (DrawnInv.start hK hcap.le hnew).1
  simp only [foldlM_toOption]
  -- the states between the accesses, and what is known of them
  have hstep : ∀ done m, done ++ [m] <+: ms → ∃ u u' t M,
      (done.map MachineAccess.access).foldlM (runAccess K sz) ⟨o, st.world, [], []⟩ = some u ∧
        runAccess K sz u m.access = some u' ∧ DrawnInv K A capacity (done.map MachineAccess.access) u t M := by
    rintro done m ⟨rest, rfl⟩
    rw [List.map_append, List.map_append, foldlM_append_eq_some] at hrun
    obtain ⟨u', hu', -⟩ := hrun
    obtain ⟨u, hu, hlast⟩ := foldlM_append_eq_some.mp hu'
    obtain ⟨t, M, h⟩ := drawn_run hK (sz.eq_of_lt hsz) hcap.le hnew (fun a ha => by
      obtain ⟨x, hx, rfl⟩ := List.mem_map.mp ha
      exact hfit x (List.mem_append_left _ (List.mem_append_left _ hx))) hu
    exact ⟨u, u', t, M, hu, by simpa using hlast, h⟩
  constructor
  · intro hagree
    suffices hall : ∀ done, done <+: ms → done.Pairwise fun a b => a.access.req.ind ≠ b.access.req.ind + 1 from
      hall ms (List.prefix_refl ms)
    intro done
    induction done using List.reverseRecOn with
    | nil => exact fun _ => List.Pairwise.nil
    | append_singleton done m ih =>
      intro hpre
      obtain ⟨u, u', t, M, hu, hlast, h⟩ := hstep done m hpre
      have hdone := (List.prefix_append done [m]).trans hpre
      have hmachine := hagree _ hpre
      rw [List.foldlM_append, hagree _ hdone, hu, List.map_append, List.foldlM_append, hu] at hmachine
      have hmachine : (runMachineAccess K sz u m).toOption = some u' := by
        simpa [hlast] using hmachine
      have hbehind := h.behind_eq h8 hK hcap hmachine hlast
      rw [hzero m (mem_of_step hpre), h.pathMm_eq_zero] at hbehind
      refine List.pairwise_append.mpr ⟨ih hdone, List.pairwise_singleton _ _, fun a ha b hb => ?_⟩
      rw [List.mem_singleton.mp hb]
      exact hbehind a.access (List.mem_map_of_mem ha)
  · intro hpair done
    induction done using List.reverseRecOn with
    | nil => exact fun _ => rfl
    | append_singleton done m ih =>
      intro hpre
      obtain ⟨u, u', t, M, hu, -, h⟩ := hstep done m hpre
      have hdone := (List.prefix_append done [m]).trans hpre
      have hbehind : u.world.client.pathMm (m.access.req.ind + 1) = m.surroundings.behind 1 := by
        rw [hzero m (mem_of_step hpre), h.pathMm_eq_zero]
        intro a ha
        obtain ⟨x, hx, rfl⟩ := List.mem_map.mp ha
        exact (List.pairwise_append.mp (hpair.sublist hpre.sublist)).2.2 x hx m (List.mem_singleton_self m)
      rw [List.foldlM_append, ih hdone, List.map_append, List.foldlM_append, hu]
      simp [runMachineAccess_eq h.oram hcap hbehind]

/-- An access to entry 1 after one to entry 0. -/
def upwards : List MachineAccess :=
  [⟨⟨fun _ => ⟨.of 3, .of 5⟩, ⟨0, fun _ => 7, 8, 0⟩⟩, ⟨fun _ => 0, 0, 0⟩⟩,
    ⟨⟨fun _ => ⟨.of 4, .of 6⟩, ⟨1, fun _ => 0, 0, 0⟩⟩, ⟨fun _ => 0, 0, 0⟩⟩]

theorem machine_agrees_iff_upwards : ∃ o st s,
    newPathOram (Cipher.pairing 8) BufferAddrs.numbered .eight 2 ⟨1, ⟨emptyClient 8, .filled none⟩⟩ =
        some (o, st) ∧
      (upwards.map MachineAccess.access).foldlM (runAccess (Cipher.pairing 8) .eight) ⟨o, st.world, [], []⟩ = some s ∧
      upwards.foldlM (runMachineAccess (Cipher.pairing 8) .eight) ⟨o, st.world, [], []⟩ = .ok s := by
  have hK := Cipher.pairing_correct 8
  obtain ⟨o, st, hnew⟩ := newPathOram_completes (Cipher.pairing 8) BufferAddrs.numbered .eight rfl 2
    (by decide) ⟨1, ⟨emptyClient 8, .filled none⟩⟩
  obtain ⟨h8, t, rfl, h₀⟩ := newPathOram_base_inv hK (by decide) hnew
  have hreq : ∀ m ∈ upwards, (m.access.req.ind < 2 ∧ m.access.req.writeOffset + m.access.req.writeSize ≤ 8) ∧
      m.surroundings.behind 1 = 0 := by simp [upwards]
  have hreq' : ∀ a ∈ upwards.map MachineAccess.access,
      a.req.ind < 2 ∧ a.req.writeOffset + a.req.writeSize ≤ 8 :=
    List.forall_mem_map.mpr fun m hm => (hreq m hm).1
  obtain ⟨s, hrun⟩ := h₀.run_completes h8 (by decide) hK BlockSize.eight_val (by decide) hreq'
  have hpair : upwards.Pairwise fun a b => a.access.req.ind ≠ b.access.req.ind + 1 := by simp [upwards]
  refine ⟨_, st, s, hnew, hrun, toOption_eq_some.mp ?_⟩
  rw [(machine_agrees_iff hK (by decide) (by decide) hnew (fun m hm => (hreq m hm).1.2) (fun m hm => (hreq m hm).2)
    hrun).mpr hpair upwards (List.prefix_refl _), hrun]

end SgxOram
