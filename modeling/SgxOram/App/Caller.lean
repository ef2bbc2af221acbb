import SgxOram.App.PathOramArray

/-!
# The caller of `read` and `write` (`App/PathORAM.cpp`)

`read` takes its pointer by value: the block that it allocates stays with it. `write` exchanges bytes with the
caller's buffer in place.

* `callStep` : a process with one object and buffers of its own;
* `exchangeStep` : what the calls are to the caller, an array that exchanges bytes with the buffers at each `write`;
* `caller_buffers` : the buffers of every run hold what the exchanges give. No `read` shows in them.
-/

namespace SgxOram
open Lib

variable {bs : Nat} {N B : Type} {sz : BlockSize bs}

/-- What a process does. `fill` is what it stores into a buffer itself, or finds there after `malloc`; `read` may be
given the null pointer, and what its `malloc` returns holds `junk`. -/
inductive Call
  | fill (b : Nat) (content : Buffer)
  | free (b : Nat)
  | write (b ind writeSize writeOffset : Nat) (draws : Nat → Draws)
  | read (b : Option Nat) (ind : Nat) (draws : Nat → Draws) (junk : Buffer)

/-- A process with its object and its buffers, `none` for those that are not allocated. -/
structure Caller (bs : Nat) (N B : Type) where
  oram : PathOram N
  world : World bs B
  buffers : Nat → Option Buffer

/-- One call. `none` is a failing assert, or a `write` from a buffer that is not allocated. -/
def callStep (K : Cipher bs N B) (sz : BlockSize bs) (s : Caller bs N B) : Call → Option (Caller bs N B)
  | .fill b content => some { s with buffers := Function.update s.buffers b (some content) }
  | .free b => some { s with buffers := Function.update s.buffers b none }
  | .write b ind writeSize writeOffset draws => do
    let block ← s.buffers b
    let r ← accessPathOram K sz s.oram draws ⟨ind, block, writeSize, writeOffset⟩ s.world
    return ⟨r.oram, r.world, Function.update s.buffers b (some r.block)⟩
  | .read b ind draws junk => do
    let r ← accessPathOram K sz s.oram draws ⟨ind, junk, 0, 0⟩ s.world
    return ⟨r.oram, r.world, b.elim s.buffers fun b => Function.update s.buffers b none⟩

/-- An array and the caller's buffers. -/
structure Exchange where
  store : ArrayStore
  buffers : Nat → Buffer

/-- A `write` puts bytes of the buffer into the array and the old ones into the buffer, with `write_size = 0` the
whole entry. -/
def exchangeStep (bs : Nat) (x : Exchange) : Call → Exchange
  | .fill b content => { x with buffers := Function.update x.buffers b content }
  | .free _ => x
  | .write b ind writeSize writeOffset _ =>
    ⟨x.store.write ⟨ind, x.buffers b, writeSize, writeOffset⟩,
      Function.update x.buffers b (x.store.copyOut bs ⟨ind, x.buffers b, writeSize, writeOffset⟩)⟩
  | .read .. => x

/-- The bytes written lie in the block. -/
def Call.Fits (bs : Nat) : Call → Prop
  | .write _ _ writeSize writeOffset _ => writeOffset + writeSize ≤ bs
  | _ => True

/-! ## The exchanges of a run -/

/-- The buffers that are allocated hold what `f` gives. -/
def HoldsIn (buffers : Nat → Option Buffer) (f : Nat → Buffer) : Prop := ∀ b c, buffers b = some c → f b = c

section HoldsIn
variable {buffers : Nat → Option Buffer} {f : Nat → Buffer} {b : Nat}

theorem HoldsIn.fill (h : HoldsIn buffers f) (content : Buffer) :
    HoldsIn (Function.update buffers b (some content)) (Function.update f b content) := by
  intro b' c hc
  by_cases hb : b' = b
  · subst hb
    rw [Function.update_self] at hc ⊢
    exact Option.some.inj hc
  · rw [Function.update_of_ne hb] at hc ⊢
    exact h b' c hc

theorem HoldsIn.free (h : HoldsIn buffers f) : HoldsIn (Function.update buffers b none) f := by
  intro b' c hc
  by_cases hb : b' = b
  · subst hb
    rw [Function.update_self] at hc
    cases hc
  · rw [Function.update_of_ne hb] at hc
    exact h b' c hc

end HoldsIn

theorem ArrayStore.write_none (a : ArrayStore) (ind : Nat) (block : Buffer) : a.write ⟨ind, block, 0, 0⟩ = a := by
  funext i j
  exact if_neg fun hc => Nat.not_lt_zero j hc.2.2

section Run
variable {K : Cipher bs N B} {A : BufferAddrs} {capacity : Nat}

/-- The object holds the array, and the buffers what they have exchanged with it. -/
structure CallerInv (K : Cipher bs N B) (A : BufferAddrs) (capacity : Nat) (s : Caller bs N B) (x : Exchange) :
    Prop where
  oram : ∃ t M, s.oram = .base capacity t ∧ BaseInv K A capacity t s.world x.store M
  buffers : HoldsIn s.buffers x.buffers

theorem CallerInv.access (h8 : 8 ∣ bs) (hK : K.Correct) (hsz : sz.val = bs) (hcap : capacity ≤ maxPosMap)
    {s : Caller bs N B} {x : Exchange} (h : CallerInv K A capacity s x) {draws : Nat → Draws} {req : Request}
    {r : AccessResult bs N B} (hrun : accessPathOram K sz s.oram draws req s.world = some r)
    (hfit : req.writeOffset + req.writeSize ≤ bs) :
    r.block = x.store.copyOut bs req ∧
      ∃ t M, r.oram = .base capacity t ∧ BaseInv K A capacity t r.world (x.store.write req) M := by
  obtain ⟨t, M, horam, hinv⟩ := h.oram
  rw [horam] at hrun
  exact hinv.access h8 hK hsz hcap hfit hrun

theorem CallerInv.step (h8 : 8 ∣ bs) (hK : K.Correct) (hsz : sz.val = bs) (hcap : capacity ≤ maxPosMap)
    {s s' : Caller bs N B} {x : Exchange} (h : CallerInv K A capacity s x) {call : Call} (hfit : call.Fits bs)
    (hstep : callStep K sz s call = some s') : CallerInv K A capacity s' (exchangeStep bs x call) := by
  cases call with
  | fill b content =>
    cases hstep
    exact ⟨h.oram, h.buffers.fill content⟩
  | free b =>
    cases hstep
    exact ⟨h.oram, h.buffers.free⟩
  | write b ind writeSize writeOffset draws =>
    simp only [callStep, Option.bind_eq_bind, Option.bind_eq_some_iff, Option.pure_def, Option.some.injEq] at hstep
    obtain ⟨block, hblock, r, hr, rfl⟩ := hstep
    obtain rfl := h.buffers b block hblock
    obtain ⟨hout, horam⟩ := h.access h8 hK hsz hcap hr hfit
    have hbuffers := h.buffers.fill (b := b) r.block
    rw [hout] at hbuffers ⊢
    exact ⟨horam, hbuffers⟩
  | read b ind draws junk =>
    simp only [callStep, Option.bind_eq_bind, Option.bind_eq_some_iff, Option.pure_def, Option.some.injEq] at hstep
    obtain ⟨r, hr, rfl⟩ := hstep
    obtain ⟨-, horam⟩ := h.access h8 hK hsz hcap hr (Nat.zero_le bs)
    rw [ArrayStore.write_none] at horam
    refine ⟨horam, ?_⟩
    cases b with
    | none => exact h.buffers
    | some b => exact h.buffers.free

/-- Whatever a process stores, frees, writes and reads, and whatever is drawn, its buffers hold what an array gives
that exchanges bytes with them at the writes: no `read` delivers a block or changes one. -/
theorem caller_buffers (hK : K.Correct) (hsz : sz.val < 2 ^ 32) (hcap : capacity ≤ maxPosMap) {w : World bs B}
    {o : PathOram N} {st : Process bs B} (hnew : newPathOram K A sz capacity ⟨1, w⟩ = some (o, st))
    {calls : List Call} (hfit : ∀ call ∈ calls, call.Fits bs) {s : Caller bs N B}
    (hrun : calls.foldlM (callStep K sz) ⟨o, st.world, fun _ => none⟩ = some s) (f : Nat → Buffer) {b : Nat}
    {content : Buffer} (hb : s.buffers b = some content) :
    (calls.foldl (exchangeStep bs) ⟨ArrayStore.zero, f⟩).buffers b = content := by
  obtain ⟨h8, t, rfl, h₀⟩ := newPathOram_base_inv hK hcap hnew
  have hend := foldlM_inv (P := fun done (s : Caller bs N B) =>
      CallerInv K A capacity s (done.foldl (exchangeStep bs) ⟨ArrayStore.zero, f⟩)) calls _ s
    ⟨⟨t, _, rfl, h₀⟩, fun b c hc => by cases hc⟩ (fun done call u v hpre hu hstep => by
      rw [List.foldl_append]
      exact hu.step h8 hK (sz.eq_of_lt hsz) hcap (hfit call (mem_of_step hpre)) hstep) hrun
  exact hend.buffers b content hb

end Run

/-- Store into a buffer, write it, read the entry, and fetch the entry by a `write` of no bytes. -/
def writeAndFetch : List Call :=
  [.fill 0 fun _ => 7, .write 0 1 8 0 fun _ => ⟨.of 3, .of 5⟩,
    .read none 1 (fun _ => ⟨.of 6, .of 7⟩) fun _ => 0, .write 0 1 0 0 fun _ => ⟨.of 2, .of 9⟩]

theorem caller_buffers_writeAndFetch : ∃ o st s content,
    newPathOram (Cipher.pairing 8) BufferAddrs.numbered .eight 2 ⟨1, ⟨emptyClient 8, .filled none⟩⟩ =
        some (o, st) ∧
      writeAndFetch.foldlM (callStep (Cipher.pairing 8) .eight) ⟨o, st.world, fun _ => none⟩ = some s ∧
      s.buffers 0 = some content ∧ content 2 = 7 := by
  have hK := Cipher.pairing_correct 8
  obtain ⟨o, st, hnew⟩ := newPathOram_completes (Cipher.pairing 8) BufferAddrs.numbered .eight rfl 2
    (by decide) ⟨1, ⟨emptyClient 8, .filled none⟩⟩
  obtain ⟨h8, t, rfl, h₀⟩ := newPathOram_base_inv hK (by decide) hnew
  obtain ⟨r₁, hr₁⟩ := h₀.access_completes h8 .eight (by decide) (by decide) (fun _ => ⟨.of 3, .of 5⟩)
    ⟨1, fun _ => 7, 8, 0⟩ (by decide)
  obtain ⟨-, t₁, M₁, horam₁, h₁⟩ := h₀.access h8 hK rfl (by decide) (by decide) hr₁
  obtain ⟨r₂, hr₂⟩ := h₁.access_completes h8 .eight (by decide) (by decide) (fun _ => ⟨.of 6, .of 7⟩) ⟨1, fun _ => 0, 0, 0⟩
    (by decide)
  obtain ⟨-, t₂, M₂, horam₂, h₂⟩ := h₁.access h8 hK rfl (by decide) (by decide) hr₂
  obtain ⟨r₃, hr₃⟩ := h₂.access_completes h8 .eight (by decide) (by decide) (fun _ => ⟨.of 2, .of 9⟩) ⟨1, r₁.block, 0, 0⟩
    (Nat.lt_succ_self 1)
  obtain ⟨s, hrun, hb⟩ : ∃ s, writeAndFetch.foldlM (callStep (Cipher.pairing 8) .eight)
      ⟨.base 2 t, st.world, fun _ => none⟩ = some s ∧ s.buffers 0 = some r₃.block := by
    simp [writeAndFetch, callStep, hr₁, horam₁, hr₂, horam₂, hr₃]
  have hfit : ∀ call ∈ writeAndFetch, call.Fits 8 := by simp [writeAndFetch, Call.Fits]
  have hholds := caller_buffers hK (by decide) (by decide) hnew hfit hrun (fun _ _ => 0) hb
  exact ⟨_, st, s, r₃.block, hnew, hrun, hb, (congrFun hholds 2).symm⟩

end SgxOram
